import RiscvToolkit.Debugger.Command
import RiscvToolkit.Emulator.Basic
import RiscvToolkit.Ieee.Fixed
import RiscvToolkit.Terminal.Backspace
import RiscvToolkit.Terminal.Style

/-!
Debugger sessions. `Session.feed` takes a line of input to what is printed and the session after it. An
empty line repeats the last command.
-/
namespace RiscvToolkit.Debugger
open Terminal (Piece coloured)

/-- What a command prints, and the error that it ends with. -/
structure Report where
  pieces : List Piece
  error : Option String

namespace Report

def lines (texts : List String) : Report := ⟨texts.map .line, none⟩

/-- Goes on with another report unless there is an error. -/
def andThen (a : Report) (b : Report) : Report :=
  match a.error with
  | some _ => a
  | none => ⟨a.pieces ++ b.pieces, b.error⟩

/-- The pieces, with the error as a line of its own. -/
def toPieces (a : Report) : List Piece :=
  match a.error with
  | some error => a.pieces ++ [.errLine error]
  | none => a.pieces

end Report

/-- How an event of the console shows on a terminal. -/
def showEvent : Event → List Piece
  | .output text => [.out text]
  | .error message => [.errLine (coloured .red ("error: " ++ message))]
  | .halted => []

/-- What the console of `e` has received since there were `count` events. -/
def showEvents (count : Nat) (e : Emulator) : List Piece :=
  (e.console.since count).events.toList.flatMap showEvent

def showWord (value : UInt64) : String :=
  "0x" ++ Text.hexPadded 8 value.toNat

def showAddress (addr : UInt64) : String :=
  coloured .blue (showWord addr)

/-- The source text of the word at an address. -/
def showCode (e : Emulator) (addr : UInt64) : String :=
  match e.disassembleAt? addr with
  | some text => coloured .green text
  | none => coloured .red "<invalid instruction>"

def showPlace (e : Emulator) (addr : UInt64) : String :=
  showAddress addr ++ ": " ++ showCode e addr

def showRegister (e : Emulator) (r : Reg) : String :=
  let name := Text.padRight 5 (Catalog.builtin.intReg r)
  coloured .magenta name ++ " = " ++ coloured .yellow (showWord (e.machine.regs.get r))

/-- Registers from `start` on; the first number past the last register is an error. -/
def showRegisters (e : Emulator) (start : Nat) : Nat → Report
  | 0 => ⟨[], none⟩
  | count + 1 =>
    if h : start < 32 then
      let label := Text.padRight 4 ("x" ++ toString start ++ ".") ++ " "
      (Report.lines [label ++ showRegister e ⟨start, h⟩]).andThen
        (showRegisters e (start + 1) count)
    else ⟨[], some "register index out of range."⟩

/-- The cell of a floating-point register as a single and as a double. -/
def showFloatRegister (e : Emulator) (r : Reg) : String :=
  let single := Ieee.binary32.decode (e.machine.floats.single r).toNat
  let double := Ieee.binary64.decode (e.machine.floats.get r).toNat
  coloured .magenta (Catalog.builtin.reg .float r) ++ " = " ++ single.fixed Ieee.binary32 4 ++
    " (" ++ double.fixed Ieee.binary64 4 ++ ")"

/-- One row of memory: the address of its first byte, and the bytes. -/
def showRow (m : Memory) (addr : UInt64) (count : Nat) : String :=
  let byte (i : Nat) : String :=
    match m.byte? (addr + UInt64.ofNat i) with
    | some b => Text.hexPadded 2 b.toNat ++ " "
    | none => "** "
  showAddress addr ++ ": " ++ String.join ((List.range count).map byte)

/-- Rows of sixteen bytes each, for `count` bytes. -/
def showMemory (m : Memory) (addr : UInt64) (count : Nat) : List String :=
  (List.range ((count + 15) / 16)).map fun row =>
    showRow m (addr + UInt64.ofNat (16 * row)) (min 16 (count - 16 * row))

def showView (e : Emulator) : View → Report
  | .pc => .lines ["pc = " ++ showAddress e.machine.pc]
  | .reg r => .lines [showRegister e r]
  | .regs start count => showRegisters e start (min count (255 - start))
  | .mem addr count => .lines (showMemory e.machine.memory addr count)
  | .floatReg r => .lines [showFloatRegister e r]

def showViews (e : Emulator) : List View → Report
  | [] => ⟨[], none⟩
  | view :: rest => (showView e view).andThen (showViews e rest)

/-- Where the program stands. -/
def showStop (e : Emulator) : String :=
  if e.machine.halted then "program has exited" else showPlace e e.machine.pc

/-- How many words `list` shows. -/
def listLength : Nat := 10

/-- The word at an address, in a list where the program counter is marked. -/
def showListed (e : Emulator) (addr : UInt64) : String :=
  let mark := if addr = e.machine.pc then coloured .cyan ">" ++ " " else "  "
  let word :=
    match e.machine.memory.readWord addr with
    | .ok word => coloured .yellow ("0x" ++ Text.hexPadded 8 word.toNat)
    | .error _ => coloured .red "<invalid>"
  mark ++ showAddress addr ++ ": " ++ word ++ " " ++ showCode e addr

/-- The words around the program counter, half of them before it unless it is near zero. -/
def showList (e : Emulator) : List String :=
  let start := UInt64.ofNat (e.machine.pc.toNat - listLength / 2 * 4)
  (List.range listLength).map fun i => showListed e (start + UInt64.ofNat (4 * i))

structure Session where
  emulator : Emulator
  /-- The views shown at every stop. -/
  watched : List View
  /-- The last line that was not empty. -/
  last : List Char

/-- What a line of input leads to. -/
structure Response where
  pieces : List Piece
  session : Session
  quit : Bool

namespace Session

def start (emulator : Emulator) : Session := ⟨emulator, [], []⟩

/-- Prints what the console received on the way from `s` to `e`, then a report. -/
def moved (s : Session) (e : Emulator) (report : Report) : Response :=
  let events := showEvents s.emulator.console.events.size e
  ⟨events ++ report.toPieces, { s with emulator := e }, false⟩

def printed (s : Session) (report : Report) : Response :=
  ⟨report.toPieces, s, false⟩

/-- Carries out a command. A run takes at most `bursts` bursts. -/
def perform (bursts : Nat) (s : Session) : Command → Response
  | .print view => s.printed (showView s.emulator view)
  | .display view =>
    let watched := if s.watched.contains view then s.watched else s.watched ++ [view]
    ⟨[], { s with watched }, false⟩
  | .undisplay view => ⟨[], { s with watched := s.watched.filter (· ≠ view) }, false⟩
  | .list => s.printed (.lines (showList s.emulator))
  | .step count =>
    let e := Emulator.stepMany count s.emulator
    s.moved e ((Report.lines [showStop e]).andThen (showViews e s.watched))
  | .back count =>
    let (undone, e) := Emulator.backMany 0 count s.emulator
    let short :=
      if undone < count then ["history exhausted after " ++ toString undone ++ " steps"] else []
    s.moved e (.lines (short ++ [showStop e]))
  | .continue =>
    let (outcome, e) := Emulator.runToEnd false bursts s.emulator
    let stop :=
      match outcome with
      | .breakpoint pc => ["breakpoint hit at pc = " ++ showPlace e pc]
      | .paused => ["paused by ebreak", showStop e]
      | _ => []
    s.moved e ((Report.lines stop).andThen (showViews e s.watched))
  | .setBreakpoint addr =>
    let (_, e) := s.emulator.setBreakpoint addr
    s.moved e (.lines ["set breakpoint at " ++ showPlace e addr])
  | .deleteBreakpoint addr =>
    match s.emulator.clearBreakpoint addr with
    | (true, e) => s.moved e (.lines ["cleared breakpoint at " ++ showPlace e addr])
    | (false, _) => s.printed ⟨[], some ("no breakpoint at " ++ showAddress addr)⟩
  | .breakpoints =>
    let row (addr : UInt64) (i : Nat) : String :=
      coloured .yellow (toString i) ++ ": " ++ showAddress addr ++ ", " ++
        showCode s.emulator addr
    s.printed (.lines ("Breakpoints:" :: s.emulator.breakpoints.zipIdx.map fun (addr, i) =>
      row addr i))
  | .reset =>
    let e := s.emulator.reset
    s.moved e (.lines [showStop e])
  | .quit => ⟨[], s, true⟩

/-- Carries out the command on a line that is not empty. -/
def respond (bursts : Nat) (s : Session) (line : List Char) : Response :=
  match Command.parse ((Text.words line).map String.ofList) with
  | .ok command => s.perform bursts command
  | .error message => s.printed ⟨[], some message⟩

/-- Takes a line of input, where backspaces may stand. -/
def feed (bursts : Nat) (s : Session) (line : String) : Response :=
  let line := Text.trim (Terminal.applyBackspaces line.toList)
  if line.isEmpty then
    if s.last.isEmpty then ⟨[], s, false⟩ else s.respond bursts s.last
  else { s with last := line }.respond bursts line

/-- Takes lines of input until they end or one of them quits. -/
def feedAll (bursts : Nat) (s : Session) : List String → List Piece
  | [] => []
  | line :: rest =>
    let r := s.feed bursts line
    if r.quit then r.pieces else r.pieces ++ r.session.feedAll bursts rest

end Session

end RiscvToolkit.Debugger
