import RiscvToolkit.Assembly.Block
import RiscvToolkit.Assembly.Code
import RiscvToolkit.Assembly.Datum
import RiscvToolkit.Assembly.Error
import RiscvToolkit.Assembly.Image
import RiscvToolkit.Assembly.Program
import RiscvToolkit.Assembly.Relocation
import RiscvToolkit.Assembly.Scope
import RiscvToolkit.Catalog.Basic
import RiscvToolkit.Catalog.Builtin
import RiscvToolkit.Catalog.Document
import RiscvToolkit.CommandLine
import RiscvToolkit.Console
import RiscvToolkit.Debugger.Command
import RiscvToolkit.Debugger.Session
import RiscvToolkit.Directory
import RiscvToolkit.Disassembly
import RiscvToolkit.Emulator.Basic
import RiscvToolkit.Emulator.Config
import RiscvToolkit.Emulator.History
import RiscvToolkit.Emulator.Snapshot
import RiscvToolkit.Ieee.Fixed
import RiscvToolkit.Ieee.Format
import RiscvToolkit.Ieee.Literal
import RiscvToolkit.Ieee.Shortest
import RiscvToolkit.Instruction.Basic
import RiscvToolkit.Instruction.Fields
import RiscvToolkit.Instruction.Pack
import RiscvToolkit.Json.Basic
import RiscvToolkit.Json.Record
import RiscvToolkit.Machine.Basic
import RiscvToolkit.Machine.Cycle
import RiscvToolkit.Machine.Step
import RiscvToolkit.Main
import RiscvToolkit.Memory.Basic
import RiscvToolkit.Memory.Pages
import RiscvToolkit.Memory.Trimmed
import RiscvToolkit.Numeral.Bounded
import RiscvToolkit.Numeral.Digits
import RiscvToolkit.Numeral.Literal
import RiscvToolkit.Proofs.Assembly.Agree
import RiscvToolkit.Proofs.Assembly.Alignment
import RiscvToolkit.Proofs.Assembly.Alike
import RiscvToolkit.Proofs.Assembly.Call
import RiscvToolkit.Proofs.Assembly.Encode
import RiscvToolkit.Proofs.Assembly.Faithful
import RiscvToolkit.Proofs.Assembly.Frame
import RiscvToolkit.Proofs.Assembly.Image
import RiscvToolkit.Proofs.Assembly.Inline
import RiscvToolkit.Proofs.Assembly.Inventory
import RiscvToolkit.Proofs.Assembly.Layout
import RiscvToolkit.Proofs.Assembly.Lead
import RiscvToolkit.Proofs.Assembly.Line
import RiscvToolkit.Proofs.Assembly.LoadInteger
import RiscvToolkit.Proofs.Assembly.LoadLine
import RiscvToolkit.Proofs.Assembly.MachineLine
import RiscvToolkit.Proofs.Assembly.Marks
import RiscvToolkit.Proofs.Assembly.Outline
import RiscvToolkit.Proofs.Assembly.Outstanding
import RiscvToolkit.Proofs.Assembly.Packed
import RiscvToolkit.Proofs.Assembly.Parts
import RiscvToolkit.Proofs.Assembly.Patching
import RiscvToolkit.Proofs.Assembly.Raised
import RiscvToolkit.Proofs.Assembly.Reading
import RiscvToolkit.Proofs.Assembly.Recursion
import RiscvToolkit.Proofs.Assembly.Refusal
import RiscvToolkit.Proofs.Assembly.Request
import RiscvToolkit.Proofs.Assembly.Resolution
import RiscvToolkit.Proofs.Assembly.Room
import RiscvToolkit.Proofs.Assembly.Script
import RiscvToolkit.Proofs.Assembly.Separate
import RiscvToolkit.Proofs.Assembly.Shorthand
import RiscvToolkit.Proofs.Assembly.Sites
import RiscvToolkit.Proofs.Assembly.Standing
import RiscvToolkit.Proofs.Assembly.Static
import RiscvToolkit.Proofs.Assembly.StringLine
import RiscvToolkit.Proofs.Assembly.Stripped
import RiscvToolkit.Proofs.Assembly.Success
import RiscvToolkit.Proofs.Assembly.Tidy
import RiscvToolkit.Proofs.Assembly.Trace
import RiscvToolkit.Proofs.Assembly.Transfer
import RiscvToolkit.Proofs.Assembly.UnderWay
import RiscvToolkit.Proofs.Assembly.Visits
import RiscvToolkit.Proofs.Assembly.Written
import RiscvToolkit.Proofs.Catalog
import RiscvToolkit.Proofs.Checked.Assembly
import RiscvToolkit.Proofs.Checked.Basic
import RiscvToolkit.Proofs.Checked.Block
import RiscvToolkit.Proofs.Checked.Catalog
import RiscvToolkit.Proofs.Checked.Cycle
import RiscvToolkit.Proofs.Checked.Decode
import RiscvToolkit.Proofs.Checked.Image
import RiscvToolkit.Proofs.Checked.Integer
import RiscvToolkit.Proofs.Checked.Json
import RiscvToolkit.Proofs.Checked.Operand
import RiscvToolkit.Proofs.Checked.Program
import RiscvToolkit.Proofs.Checked.Token
import RiscvToolkit.Proofs.CommandLine
import RiscvToolkit.Proofs.Debugger
import RiscvToolkit.Proofs.Disassembly
import RiscvToolkit.Proofs.Emulator.Breakpoint
import RiscvToolkit.Proofs.Emulator.Bursts
import RiscvToolkit.Proofs.Emulator.Course
import RiscvToolkit.Proofs.Emulator.Fault
import RiscvToolkit.Proofs.Emulator.Halted
import RiscvToolkit.Proofs.Emulator.Limit
import RiscvToolkit.Proofs.Emulator.Operation
import RiscvToolkit.Proofs.Emulator.Restart
import RiscvToolkit.Proofs.Emulator.StackSize
import RiscvToolkit.Proofs.Emulator.StepBack
import RiscvToolkit.Proofs.Emulator.Transcript
import RiscvToolkit.Proofs.Emulator.UndoLog
import RiscvToolkit.Proofs.Except
import RiscvToolkit.Proofs.Instruction.Decode
import RiscvToolkit.Proofs.Instruction.Encoding
import RiscvToolkit.Proofs.Instruction.Fields
import RiscvToolkit.Proofs.Instruction.Pack
import RiscvToolkit.Proofs.Machine.Arithmetic
import RiscvToolkit.Proofs.Machine.CString
import RiscvToolkit.Proofs.Machine.Conformance
import RiscvToolkit.Proofs.Machine.Cycle
import RiscvToolkit.Proofs.Machine.Exit
import RiscvToolkit.Proofs.Machine.Pair
import RiscvToolkit.Proofs.Machine.Rv64
import RiscvToolkit.Proofs.Machine.Same
import RiscvToolkit.Proofs.Machine.Snapshot
import RiscvToolkit.Proofs.Memory.Access
import RiscvToolkit.Proofs.Memory.ByteMap
import RiscvToolkit.Proofs.Memory.Bytes
import RiscvToolkit.Proofs.Memory.Pages
import RiscvToolkit.Proofs.Memory.Same
import RiscvToolkit.Proofs.Memory.Stack
import RiscvToolkit.Proofs.Memory.Trimmed
import RiscvToolkit.Proofs.Numeral.Digits
import RiscvToolkit.Proofs.Numeral.Literal
import RiscvToolkit.Proofs.Source.Arguments
import RiscvToolkit.Proofs.Source.Block
import RiscvToolkit.Proofs.Source.Definitions
import RiscvToolkit.Proofs.Source.Joined
import RiscvToolkit.Proofs.Source.Layout
import RiscvToolkit.Proofs.Source.Lossless
import RiscvToolkit.Proofs.Source.Mention
import RiscvToolkit.Proofs.Source.Numbers
import RiscvToolkit.Proofs.Source.Operands
import RiscvToolkit.Proofs.Source.Quoted
import RiscvToolkit.Proofs.Source.Spans
import RiscvToolkit.Proofs.Source.Stripped
import RiscvToolkit.Proofs.Source.Substitute
import RiscvToolkit.Proofs.Source.Token
import RiscvToolkit.Proofs.Source.Tree
import RiscvToolkit.Proofs.Word
import RiscvToolkit.Register
import RiscvToolkit.Source.Block
import RiscvToolkit.Source.Operand
import RiscvToolkit.Source.Token
import RiscvToolkit.Terminal.Backspace
import RiscvToolkit.Terminal.Options
import RiscvToolkit.Terminal.Style
import RiscvToolkit.Text.Blank
import RiscvToolkit.Text.Escaped
import RiscvToolkit.Text.Grapheme.Basic
import RiscvToolkit.Text.Grapheme.Class
import RiscvToolkit.Text.Hex
import RiscvToolkit.Text.Lines
import RiscvToolkit.Text.Quoted
import RiscvToolkit.Text.Utf8
import RiscvToolkit.Word
