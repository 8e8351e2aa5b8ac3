import RiscvToolkit.Memory.Pages
import RiscvToolkit.Text.Hex
import RiscvToolkit.Word

/-!
The address space: a data, a text and a stack region, each at a fixed place, with nothing mapped
between them. An access must lie in the region that holds its first byte. Every region keeps a mark
of how far it has been written.
-/
namespace RiscvToolkit

inductive Region where
  | data | text | stack
  deriving DecidableEq, Repr

/-- First address of the data region. -/
def dataBase : Nat := 0x10010000

/-- First address of the text region. -/
def textBase : Nat := 0x400000

/-- One past the last address of the stack region. -/
def stackTop : Nat := 0x7fffeffc

/-- Size of the data and text regions, and the most that the stack may have. -/
def segmentSize : Nat := 0x400000

def defaultStackSize : Nat := 0x10000

/-- An access outside of memory, with its first address. -/
inductive AccessError where
  | read (addr : UInt64)
  | write (addr : UInt64)
  deriving DecidableEq, Repr

def AccessError.message : AccessError → String
  | read addr => "out of bounds read at 0x" ++ Text.hexPadded 8 addr.toNat
  | write addr => "out of bounds write at 0x" ++ Text.hexPadded 8 addr.toNat

/-- The contents of a region. The mark of the stack counts the bytes in use below its top, the other
two marks count from the base. -/
structure Segment where
  bytes : Pages 16
  mark : Nat

namespace Segment

def empty : Segment := ⟨.blank, 0⟩

/-- True if the two hold the same bytes under the same mark. -/
def agree (a b : Segment) : Bool :=
  a.bytes.agree b.bytes && a.mark == b.mark

/-- The bytes before the first zero among `count` bytes from `offset` on, put after the reverse of
`before`; nothing if there is no zero. -/
def untilZero (s : Segment) (before : List UInt8) : Nat → Nat → Option (List UInt8)
  | 0, _ => none
  | count + 1, offset =>
    let byte := s.bytes.get offset
    if byte = 0 then some before.reverse else s.untilZero (byte :: before) count (offset + 1)

end Segment

structure Memory where
  data : Segment
  text : Segment
  stack : Segment
  stackSize : Nat
  stackSize_le : stackSize ≤ segmentSize

namespace Memory

/-- A zero memory with a stack of `size` bytes, or of as many as it may have. -/
def ofStackSize (size : Nat) : Memory where
  data := .empty
  text := .empty
  stack := .empty
  stackSize := min size segmentSize
  stackSize_le := Nat.min_le_right _ _

def empty : Memory := ofStackSize defaultStackSize

/-- The same memory with a stack of `size` bytes. A stack that already has this size is kept, any
other is replaced by a zero one. -/
def withStack (m : Memory) (size : Nat) : Memory :=
  if min size segmentSize = m.stackSize then m
  else
    { m with
      stack := .empty
      stackSize := min size segmentSize
      stackSize_le := Nat.min_le_right _ _ }

def segment (m : Memory) : Region → Segment
  | .data => m.data
  | .text => m.text
  | .stack => m.stack

def base (m : Memory) : Region → Nat
  | .data => dataBase
  | .text => textBase
  | .stack => stackTop - m.stackSize

def size (m : Memory) : Region → Nat
  | .data | .text => segmentSize
  | .stack => m.stackSize

def mark (m : Memory) (r : Region) : Nat :=
  (m.segment r).mark

def holds (m : Memory) (r : Region) (addr : UInt64) : Bool :=
  m.base r ≤ addr.toNat && addr.toNat < m.base r + m.size r

/-- The region that an address belongs to. -/
def region? (m : Memory) (addr : UInt64) : Option Region :=
  if m.holds .data addr then some .data
  else if m.holds .text addr then some .text
  else if m.holds .stack addr then some .stack
  else none

/-- The region and the offset of `count` bytes that lie in one region. -/
def locate? (m : Memory) (addr : UInt64) (count : Nat) : Option (Region × Nat) :=
  (m.region? addr).bind fun r =>
    let offset := addr.toNat - m.base r
    if offset + count ≤ m.size r then some (r, offset) else none

def byte? (m : Memory) (addr : UInt64) : Option UInt8 :=
  (m.locate? addr 1).map fun (r, offset) => (m.segment r).bytes.get offset

/-- The `count` bytes from `addr` on. -/
def load (m : Memory) (addr : UInt64) (count : Nat) : Except AccessError (List UInt8) :=
  match m.locate? addr count with
  | some (r, offset) => .ok ((m.segment r).bytes.read offset count)
  | none => .error (.read addr)

/-- The mark that a write of `count` bytes at `offset` asks for. -/
def reach (m : Memory) (r : Region) (offset count : Nat) : Nat :=
  match r with
  | .data | .text => offset + count
  | .stack => m.stackSize - offset

/-- Writes bytes into a region and raises its mark. -/
def overwrite (m : Memory) (r : Region) (offset : Nat) (bytes : List UInt8) : Memory :=
  let reach := m.reach r offset bytes.length
  let update (s : Segment) : Segment := ⟨s.bytes.write offset bytes, max s.mark reach⟩
  match r with
  | .data => { m with data := update m.data }
  | .text => { m with text := update m.text }
  | .stack => { m with stack := update m.stack }

/-- Writes bytes from `addr` on. Without bytes `addr` must be mapped all the same. -/
def store (m : Memory) (addr : UInt64) (bytes : List UInt8) : Except AccessError Memory :=
  match m.locate? addr bytes.length with
  | some (r, offset) => .ok (m.overwrite r offset bytes)
  | none => .error (.write addr)

/-- The little-endian number at `addr`. -/
def read (m : Memory) (width : Width) (addr : UInt64) : Except AccessError UInt64 :=
  (m.load addr width.size).map LittleEndian.decode

/-- Stores the low bytes of `value`, little-endian. -/
def write (m : Memory) (width : Width) (addr value : UInt64) : Except AccessError Memory :=
  m.store addr (LittleEndian.encode width.size value)

def readWord (m : Memory) (addr : UInt64) : Except AccessError UInt32 :=
  (m.read .word addr).map UInt64.toUInt32

def writeWord (m : Memory) (addr : UInt64) (value : UInt32) : Except AccessError Memory :=
  m.write .word addr value.toUInt64

/-- The bytes from `addr` up to the first zero. No region begins where another ends, so a string that
runs to the end of its region fails there. -/
def cString (m : Memory) (addr : UInt64) : Except AccessError (List UInt8) :=
  match m.locate? addr 1 with
  | some (r, offset) =>
    match (m.segment r).untilZero [] (m.size r - offset) offset with
    | some bytes => .ok bytes
    | none => .error (.read (UInt64.ofNat (m.base r + m.size r)))
  | none => .error (.read addr)

/-- True if two memories hold the same bytes under the same marks and have stacks of one size. -/
def agree (a b : Memory) : Bool :=
  a.data.agree b.data && a.text.agree b.text && a.stack.agree b.stack && a.stackSize == b.stackSize

/-- The marks and the stack size, in one line. -/
def summary (m : Memory) : String :=
  "Ram \x7b data_highwater: " ++ toString m.data.mark ++
    ", text_highwater: " ++ toString m.text.mark ++
    ", stack_highwater: " ++ toString m.stack.mark ++
    ", stack_size: " ++ toString m.stackSize ++ " \x7d"

end Memory

end RiscvToolkit
