import Mathlib
import RiscvToolkit.Instruction.Fields
import RiscvToolkit.Word

/-! Words bit by bit, and sign extension and little-endian bytes as arithmetic. -/
namespace RiscvToolkit

/-- Bit `i` of a word, counted from the lowest. -/
def bit (word : UInt32) (i : Nat) : Bool :=
  word.toBitVec.getLsbD i

theorem ext_bit {a b : UInt32} (h : ∀ i < 32, bit a i = bit b i) : a = b :=
  UInt32.toBitVec_inj.mp (BitVec.eq_of_getLsbD_eq h)

@[simp] theorem bit_or (a b : UInt32) (i : Nat) : bit (a ||| b) i = (bit a i || bit b i) := by
  simp only [bit, UInt32.toBitVec_or, BitVec.getLsbD_or]

@[simp] theorem bit_and (a b : UInt32) (i : Nat) : bit (a &&& b) i = (bit a i && bit b i) := by
  simp only [bit, UInt32.toBitVec_and, BitVec.getLsbD_and]

@[simp] theorem bit_not (a : UInt32) (i : Nat) : bit (~~~a) i = (decide (i < 32) && !bit a i) := by
  simp only [bit, UInt32.toBitVec_not, BitVec.getLsbD_not]

@[simp] theorem bit_shiftLeft (a k : UInt32) (i : Nat) :
    bit (a <<< k) i =
      (decide (i < 32) && !decide (i < k.toNat % 32) && bit a (i - k.toNat % 32)) := by
  simp only [bit, UInt32.toBitVec_shiftLeft, BitVec.shiftLeft_eq', BitVec.toNat_umod,
    UInt32.toNat_toBitVec, BitVec.reduceToNat, BitVec.getLsbD_shiftLeft]

@[simp] theorem bit_shiftRight (a k : UInt32) (i : Nat) :
    bit (a >>> k) i = bit a (k.toNat % 32 + i) := by
  simp only [bit, UInt32.toBitVec_shiftRight, BitVec.ushiftRight_eq', BitVec.toNat_umod,
    UInt32.toNat_toBitVec, BitVec.reduceToNat, BitVec.getLsbD_ushiftRight]

@[simp] theorem bit_ofNat (n i : Nat) [NeZero n] :
    bit (no_index (OfNat.ofNat n)) i = (BitVec.ofNat 32 n).getLsbD i := rfl

@[simp] theorem bit_zero (i : Nat) : bit 0 i = false := BitVec.getLsbD_zero

theorem bit_of_and_eq_zero {a mask : UInt32} (h : a &&& mask = 0) {i : Nat}
    (hm : bit mask i = true) : bit a i = false := by
  have hb := congrArg (bit · i) h
  simpa [hm] using hb

/-- Shifting up and back down keeps the low bits and spreads the highest of them. -/
theorem sshiftRight_shiftLeft {w : Nat} (x : BitVec w) {n k : Nat} (hk : 0 < k) (h : n + k = w) :
    (x <<< n).sshiftRight n = (x.setWidth k).signExtend w := by
  apply BitVec.eq_of_getLsbD_eq
  intro i hi
  have hm : (x <<< n).msb = x.getLsbD (k - 1) := by
    have hs : w - 1 - n = k - 1 := by omega
    rw [BitVec.msb_eq_getLsbD_last, BitVec.getLsbD_shiftLeft, hs]
    simp only [show w - 1 < w by omega, show ¬w - 1 < n by omega, decide_true, decide_false,
      Bool.not_false, Bool.true_and]
  have hm' : (x.setWidth k).msb = x.getLsbD (k - 1) := by
    rw [BitVec.msb_eq_getLsbD_last, BitVec.getLsbD_setWidth]
    simp [hk]
  rw [BitVec.getLsbD_sshiftRight, BitVec.getLsbD_signExtend, BitVec.getLsbD_shiftLeft, hm, hm',
    BitVec.getLsbD_setWidth, Nat.add_sub_cancel_left]
  by_cases hik : i < k
  · simp only [hik, hi, show n + i < w by omega, show ¬n + i < n by omega, show ¬w ≤ i by omega,
      if_true, decide_true, decide_false, Bool.not_false, Bool.true_and]
  · simp only [hik, hi, show ¬n + i < w by omega, show ¬w ≤ i by omega, if_false, decide_true,
      decide_false, Bool.not_false, Bool.true_and]

theorem toBitVec_signed (value : UInt32) {bits : Nat} (h0 : 0 < bits) (h : bits ≤ 32) :
    (signed value bits).toBitVec = (value.toBitVec.setWidth bits).signExtend 32 := by
  have hs : (BitVec.ofNat 32 (32 - bits)).smod 32#32 = BitVec.ofNat 32 (32 - bits) := by
    interval_cases bits <;> decide
  have hn : (32 - bits) % 4294967296 = 32 - bits := Nat.mod_eq_of_lt (by omega)
  have hn' : (32 - bits) % 32 = 32 - bits := Nat.mod_eq_of_lt (by omega)
  unfold signed
  dsimp only
  rw [Int32.toBitVec_shiftRight, ← sshiftRight_shiftLeft value.toBitVec h0 (Nat.sub_add_cancel h)]
  simp [BitVec.shiftLeft_eq', hs, hn, hn']

/-- The number that `signed` reads from the low bits. -/
theorem toInt_signed (value : UInt32) {bits : Nat} (h0 : 0 < bits) (h : bits ≤ 32) :
    (signed value bits).toInt = (value.toNat : Int).bmod (2 ^ bits) := by
  rw [← Int32.toInt_toBitVec, toBitVec_signed value h0 h, BitVec.toInt_signExtend_of_le h,
    BitVec.toInt_setWidth]
  rfl

theorem bit_signed (value : UInt32) {bits i : Nat} (hi : i < bits) (h : bits ≤ 32) :
    bit (signed value bits).toUInt32 i = bit value i := by
  unfold bit
  rw [Int32.toBitVec_toUInt32, toBitVec_signed value (Nat.zero_lt_of_lt hi) h,
    BitVec.getLsbD_signExtend, BitVec.getLsbD_setWidth, if_pos hi]
  simp [hi, show i < 32 by omega]

/-- Words that agree in the low bits are read as the same number. -/
theorem signed_congr {a b : UInt32} {bits : Nat} (h0 : 0 < bits) (h : bits ≤ 32)
    (hab : ∀ i < bits, bit a i = bit b i) : signed a bits = signed b bits := by
  apply Int32.toBitVec_inj.mp
  rw [toBitVec_signed a h0 h, toBitVec_signed b h0 h]
  congr 1
  apply BitVec.eq_of_getLsbD_eq
  intro i hi
  rw [BitVec.getLsbD_setWidth, BitVec.getLsbD_setWidth]
  exact congrArg (decide (i < bits) && ·) (hab i hi)

/-- `signExtend` is sign extension from the low bits. -/
theorem toBitVec_signExtend (value : UInt64) {bits : Nat} (h0 : 0 < bits) (h : bits ≤ 64) :
    (signExtend value bits).toBitVec = (value.toBitVec.setWidth bits).signExtend 64 := by
  have hs : (BitVec.ofNat 64 (64 - bits)).smod 64#64 = BitVec.ofNat 64 (64 - bits) := by
    interval_cases bits <;> decide
  have hn : (64 - bits) % 18446744073709551616 = 64 - bits := Nat.mod_eq_of_lt (by omega)
  have hn' : (64 - bits) % 64 = 64 - bits := Nat.mod_eq_of_lt (by omega)
  unfold signExtend
  dsimp only
  rw [Int64.toBitVec_toUInt64, Int64.toBitVec_shiftRight,
    ← sshiftRight_shiftLeft value.toBitVec h0 (Nat.sub_add_cancel h)]
  simp [BitVec.shiftLeft_eq', hs, hn, hn']

namespace LittleEndian

theorem toNat_decode_cons (byte : UInt8) (rest : List UInt8)
    (h : (decode rest).toNat < 2 ^ 56) :
    (decode (byte :: rest)).toNat = byte.toNat + 256 * (decode rest).toNat := by
  have hb : byte.toNat < 2 ^ 8 := byte.toNat_lt
  have hs : (decode rest).toNat * 2 ^ 8 < 2 ^ 64 := by omega
  rw [decode, UInt64.toNat_or, UInt64.toNat_shiftLeft, Nat.or_comm]
  simp only [UInt8.toNat_toUInt64, UInt64.reduceToNat, Nat.reduceMod, Nat.shiftLeft_eq]
  rw [Nat.mod_eq_of_lt hs, Nat.mul_comm, ← Nat.two_pow_add_eq_or_of_lt hb]
  omega

theorem toNat_decode_encode (count : Nat) (value : UInt64) (h : count ≤ 8) :
    (decode (encode count value)).toNat = value.toNat % 256 ^ count := by
  induction count generalizing value with
  | zero => simp [encode, decode, Nat.mod_one]
  | succ n ih =>
    have hd : (decode (encode n (value >>> 8))).toNat = value.toNat / 256 % 256 ^ n := by
      rw [ih _ (by omega), UInt64.toNat_shiftRight, Nat.shiftRight_eq_div_pow]
      rfl
    have hlt : value.toNat / 256 % 256 ^ n < 2 ^ 56 := by
      have hle : value.toNat / 256 % 256 ^ n ≤ value.toNat / 256 := Nat.mod_le _ _
      have := value.toNat_lt
      omega
    rw [encode, toNat_decode_cons _ _ (hd ▸ hlt), hd, UInt64.toNat_toUInt8, pow_succ' 256 n,
      Nat.mod_mul]

theorem decode_encode_word (word : UInt32) :
    (decode (encode 4 word.toUInt64)).toUInt32 = word := by
  apply UInt32.toNat_inj.mp
  have hw := word.toNat_lt
  rw [UInt64.toNat_toUInt32, toNat_decode_encode 4 _ (by omega), UInt32.toNat_toUInt64]
  omega

end LittleEndian

end RiscvToolkit
