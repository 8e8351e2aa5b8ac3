/-! Machine words: sign extension and their little-endian byte strings. -/
namespace RiscvToolkit

/-- The low `bits` bits of `value` read as a two's-complement number, for `1 ≤ bits ≤ 64`. -/
def signExtend (value : UInt64) (bits : Nat) : UInt64 :=
  let shift := UInt64.ofNat (64 - bits)
  ((value <<< shift).toInt64 >>> shift.toInt64).toUInt64

def signExtend32 (value : UInt32) : UInt64 :=
  signExtend value.toUInt64 32

/-- Byte widths of a memory access. -/
inductive Width where
  | byte | half | word | dword
  deriving DecidableEq, Repr

namespace Width

/-- The number of bytes an access of this width covers. -/
def size : Width → Nat
  | byte => 1
  | half => 2
  | word => 4
  | dword => 8

theorem size_pos (w : Width) : 0 < w.size := by cases w <;> decide

end Width

namespace LittleEndian

/-- The `count` low bytes of `value`, least significant first. -/
def encode : Nat → UInt64 → List UInt8
  | 0, _ => []
  | count + 1, value => value.toUInt8 :: encode count (value >>> 8)

/-- The number whose bytes are given least significant first, modulo `2 ^ 64`. -/
def decode : List UInt8 → UInt64
  | [] => 0
  | byte :: rest => byte.toUInt64 ||| decode rest <<< 8

@[simp] theorem length_encode (count : Nat) (value : UInt64) :
    (encode count value).length = count := by
  induction count generalizing value with
  | zero => rfl
  | succ n ih => simp [encode, ih]

end LittleEndian

end RiscvToolkit
