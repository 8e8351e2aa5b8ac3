import RiscvToolkit.Assembly.Error
import RiscvToolkit.Memory.Basic

/-!
The memory image under construction. Each segment has a cursor; an item is placed at the cursor and
moves it on by its size.
-/
namespace RiscvToolkit.Assembly

/-- The first address of a segment. -/
def Place.base : Place → Nat
  | .text => textBase
  | .data => dataBase

structure Image where
  memory : Memory
  /-- Bytes taken in the text segment. -/
  textSize : Nat
  /-- Bytes taken in the data segment. -/
  dataSize : Nat
  textSize_le : textSize ≤ segmentSize
  dataSize_le : dataSize ≤ segmentSize

namespace Image

def empty (stackSize : Nat) : Image where
  memory := Memory.empty.withStack stackSize
  textSize := 0
  dataSize := 0
  textSize_le := Nat.zero_le _
  dataSize_le := Nat.zero_le _

def used (i : Image) : Place → Nat
  | .text => i.textSize
  | .data => i.dataSize

/-- The address of the next item. -/
def cursor (i : Image) (place : Place) : UInt32 :=
  UInt32.ofNat (place.base + i.used place)

/-- Takes `size` bytes without writing them. -/
def reserve (i : Image) (place : Place) (size : Nat) : Except ErrorKind Image :=
  if h : i.used place + size ≤ segmentSize then
    match place with
    | .text => .ok { i with textSize := i.textSize + size, textSize_le := h }
    | .data => .ok { i with dataSize := i.dataSize + size, dataSize_le := h }
  else .error (.segmentOverflow place)

/-- Places bytes at the cursor. -/
def put (i : Image) (place : Place) (bytes : List UInt8) : Except ErrorKind Image := do
  let address := i.cursor place
  let i ← i.reserve place bytes.length
  match i.memory.store address.toUInt64 bytes with
  | .ok memory => .ok { i with memory }
  | .error _ => .error (.segmentOverflow place)

/-- Places an instruction word at the cursor. -/
def putWord (i : Image) (place : Place) (word : UInt32) : Except ErrorKind Image :=
  i.put place (LittleEndian.encode 4 word.toUInt64)

end Image

end RiscvToolkit.Assembly
