import RiscvToolkit.Assembly.Relocation
import RiscvToolkit.Ieee.Shortest
import RiscvToolkit.Source.Operand
import RiscvToolkit.Text.Utf8

/-!
Data items. A data directive sets how the items after it are stored: integers at a width, floating-point
numbers, or strings.
-/
namespace RiscvToolkit.Assembly
open Source (Operand)

/-- How data items are stored. -/
inductive DataFormat where
  | int (width : Width)
  | float
  | double
  | ascii
  /-- A string with a zero byte after it. -/
  | asciz
  deriving DecidableEq, Repr

inductive Directive where
  | segment (place : Place)
  | data (format : DataFormat)
  | global
  | macroStart
  | macroEnd
  deriving DecidableEq, Repr

def Directive.ofName? : String → Option Directive
  | "text" => some (segment .text)
  | "data" => some (segment .data)
  | "byte" => some (data (.int .byte))
  | "half" => some (data (.int .half))
  | "word" => some (data (.int .word))
  | "dword" => some (data (.int .dword))
  | "float" => some (data .float)
  | "double" => some (data .double)
  | "ascii" => some (data .ascii)
  | "asciz" => some (data .asciz)
  | "global" => some global
  | "globl" => some global
  | "macro" => some macroStart
  | "end_macro" => some macroEnd
  | _ => none

/-- An operand that can be data. -/
inductive Datum where
  | int (value : Int)
  | float (value : Ieee.Double)
  | string (text : String)
  /-- The address of a label. -/
  | label (name : String)
  deriving DecidableEq, Repr

namespace Datum

/-- The item as a message shows it. -/
def text : Datum → String
  | int value => toString value
  | float value => value.text
  | string text => Text.Quoted.quote text
  | label name => name

def describe : Datum → String
  | int value => (Operand.int value).describe
  | float value => (Operand.float value).describe
  | string text => (Operand.string text).describe
  | label name => (Operand.symbol name).describe

end Datum

/-- What an item puts into the data segment. -/
inductive Stored where
  | bytes (bytes : List UInt8)
  /-- Space for an address. -/
  | address (width : Width) (label : String)
  deriving DecidableEq, Repr

/-- The low bytes of an integer in two's complement. -/
def intBytes (width : Width) (value : Int) : List UInt8 :=
  LittleEndian.encode width.size (UInt64.ofInt value)

def relocationOf : Width → RelocationKind
  | .byte => .byte
  | .half => .half
  | .word => .word
  | .dword => .dword

/-- How an item is stored under a data format. -/
def DataFormat.store (format : DataFormat) (item : Datum) : Except ErrorKind Stored :=
  match format, item with
  | .ascii, .string text => .ok (.bytes (Text.utf8 text))
  | .asciz, .string text => .ok (.bytes (Text.utf8 text ++ [0]))
  | .ascii, item | .asciz, item => .error (.notAString item.describe)
  | _, .string _ => .error .stringOutsideDirective
  | .float, .float value => .ok (.bytes (LittleEndian.encode 4 value.toSingle.toUInt64))
  | .double, .float value => .ok (.bytes (LittleEndian.encode 8 value.bits))
  | _, .float _ => .error .floatOutsideDirective
  | .int width, .int value => .ok (.bytes (intBytes width value))
  | .float, .int value =>
    .ok (.bytes (LittleEndian.encode 4 (UInt64.ofNat (Ieee.binary32.ofInt value))))
  | .double, .int value => .ok (.bytes (LittleEndian.encode 8 (Ieee.Double.ofInt value).bits))
  | .float, .label _ | .double, .label _ => .error .labelAsFloat
  | .int width, .label name => .ok (.address width name)

end RiscvToolkit.Assembly
