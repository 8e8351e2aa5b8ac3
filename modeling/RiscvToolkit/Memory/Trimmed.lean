import RiscvToolkit.Memory.Basic

/-!
Memories cut down to the bytes that their marks cover. Everything beyond a mark is zero, so `expand`
gives back the memory that `Memory.trim` cut.
-/
namespace RiscvToolkit

structure TrimmedMemory where
  data : List UInt8
  text : List UInt8
  /-- The highest bytes of the stack. -/
  stack : List UInt8
  dataMark : Nat
  textMark : Nat
  stackMark : Nat
  stackSize : Nat
  stackSize_le : stackSize ≤ segmentSize

/-- The number of bytes kept under a mark: the next multiple of 4, or the whole region. -/
def keptBytes (mark size : Nat) : Nat :=
  min ((mark + 3) / 4 * 4) size

/-- Cuts every region at its mark. -/
def Memory.trim (m : Memory) : TrimmedMemory where
  data := m.data.bytes.read 0 (keptBytes m.data.mark segmentSize)
  text := m.text.bytes.read 0 (keptBytes m.text.mark segmentSize)
  stack :=
    let kept := keptBytes m.stack.mark m.stackSize
    m.stack.bytes.read (m.stackSize - kept) kept
  dataMark := m.data.mark
  textMark := m.text.mark
  stackMark := m.stack.mark
  stackSize := m.stackSize
  stackSize_le := m.stackSize_le

namespace TrimmedMemory

/-- The number of bytes kept. -/
def byteCount (t : TrimmedMemory) : Nat :=
  t.data.length + t.text.length + t.stack.length

/-- The memory with zeros in place of what was cut off. -/
def expand (t : TrimmedMemory) : Memory where
  data := ⟨Pages.blank.write 0 t.data, t.dataMark⟩
  text := ⟨Pages.blank.write 0 t.text, t.textMark⟩
  stack := ⟨Pages.blank.write (t.stackSize - t.stack.length) t.stack, t.stackMark⟩
  stackSize := t.stackSize
  stackSize_le := t.stackSize_le

end TrimmedMemory

end RiscvToolkit
