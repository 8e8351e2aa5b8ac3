import RiscvToolkit.Machine.Step
import RiscvToolkit.Proofs.Machine.Rv64
import RiscvToolkit.Proofs.Word

/-! What instructions compute from their operands is what RV64I computes. -/
namespace RiscvToolkit

/-- The low six bits of a shift amount. -/
theorem toNat_shift (b : BitVec 64) : (b.extractLsb' 0 6).toNat = b.toNat % 64 := by
  rw [BitVec.extractLsb'_toNat]
  rfl

theorem shiftLeft_low (a b : BitVec 64) : a <<< (b % 64) = a <<< b.extractLsb' 0 6 := by
  rw [BitVec.shiftLeft_eq', BitVec.shiftLeft_eq', toNat_shift, BitVec.toNat_umod]
  rfl

theorem shiftRight_low (a b : BitVec 64) : a >>> (b % 64) = a >>> b.extractLsb' 0 6 := by
  rw [BitVec.ushiftRight_eq', BitVec.ushiftRight_eq', toNat_shift, BitVec.toNat_umod]
  rfl

/-- A signed remainder by 64 is the low six bits, whatever the sign. -/
theorem toNat_smod_64 (b : BitVec 64) : (b.smod 64).toNat = b.toNat % 64 := by
  have hb := b.isLt
  have hi : (b.smod 64).toInt = b.toInt.fmod 64 := BitVec.toInt_smod
  rw [Int.fmod_eq_emod_of_nonneg _ (by decide), BitVec.toInt_eq_toNat_cond,
    BitVec.toInt_eq_toNat_cond] at hi
  have hlt := (b.smod 64).isLt
  split_ifs at hi <;> omega

theorem sshiftRight_low (a b : BitVec 64) :
    a.sshiftRight' (b.smod 64) = a.sshiftRight' (b.extractLsb' 0 6) := by
  unfold BitVec.sshiftRight'
  rw [toNat_shift, toNat_smod_64]

theorem toBitVec_ite (p : Prop) [Decidable p] (a b : UInt64) :
    (if p then a else b).toBitVec = if p then a.toBitVec else b.toBitVec :=
  apply_ite UInt64.toBitVec p a b

theorem toInt64_lt_iff (a b : UInt64) :
    a.toInt64 < b.toInt64 ↔ a.toBitVec.slt b.toBitVec = true :=
  Int64.lt_iff_toBitVec_slt

theorem toInt64_le_iff (a b : UInt64) :
    a.toInt64 ≤ b.toInt64 ↔ a.toBitVec.sle b.toBitVec = true :=
  Int64.le_iff_toBitVec_sle

theorem lt_iff_ult (a b : UInt64) : a < b ↔ a.toBitVec.ult b.toBitVec = true := by
  rw [UInt64.lt_iff_toBitVec_lt, BitVec.ult_iff_lt]

theorem le_iff_ule (a b : UInt64) : a ≤ b ↔ a.toBitVec.ule b.toBitVec = true := by
  rw [UInt64.le_iff_toBitVec_le, BitVec.ule_iff_le]

theorem Arith.toBitVec_eval (op : Arith) (a b : UInt64) :
    (op.eval a b).toBitVec = Rv64.arith op a.toBitVec b.toBitVec := by
  cases op with
  | sll => exact (UInt64.toBitVec_shiftLeft a b).trans (shiftLeft_low ..)
  | srl => exact (UInt64.toBitVec_shiftRight a b).trans (shiftRight_low ..)
  | sra => exact (Int64.toBitVec_shiftRight a.toInt64 b.toInt64).trans (sshiftRight_low ..)
  | slt =>
    unfold eval Rv64.arith
    dsimp only
    rw [toBitVec_ite]
    simp only [toInt64_lt_iff]
    rfl
  | sltu =>
    unfold eval Rv64.arith
    dsimp only
    rw [toBitVec_ite]
    simp only [lt_iff_ult]
    rfl
  | _ => rfl

theorem shamt_eq (w : BitVec 32) : (Rv64.immI w).extractLsb' 0 6 = Rv64.shamt w := by
  apply BitVec.eq_of_getLsbD_eq
  intro i hi
  unfold Rv64.immI Rv64.shamt
  simp only [BitVec.getLsbD_extractLsb', BitVec.getLsbD_signExtend]
  rw [if_pos (by omega)]
  simp [hi, show i < 64 by omega, show i < 12 by omega]

theorem ArithImm.toBitVec_eval (op : ArithImm) (a : UInt64) (w : BitVec 32) :
    (op.eval a (.ofBitVec (Rv64.immI w))).toBitVec = Rv64.arithImm op a.toBitVec w := by
  cases op with
  | addi => exact Arith.add.toBitVec_eval a _
  | slti => exact Arith.slt.toBitVec_eval a _
  | sltiu => exact Arith.sltu.toBitVec_eval a _
  | xori => exact Arith.xor.toBitVec_eval a _
  | ori => exact Arith.or.toBitVec_eval a _
  | andi => exact Arith.and.toBitVec_eval a _
  | slli => exact (Arith.sll.toBitVec_eval a _).trans (congrArg (a.toBitVec <<< ·) (shamt_eq w))
  | srli => exact (Arith.srl.toBitVec_eval a _).trans (congrArg (a.toBitVec >>> ·) (shamt_eq w))
  | srai => exact (Arith.sra.toBitVec_eval a _).trans (congrArg a.toBitVec.sshiftRight' (shamt_eq w))
  | addiw =>
    change (signExtend32 (a + .ofBitVec (Rv64.immI w)).toUInt32).toBitVec = _
    unfold signExtend32
    rw [toBitVec_signExtend _ (by omega) (by omega), UInt32.toBitVec_toUInt64,
      UInt64.toBitVec_toUInt32, BitVec.setWidth_setWidth_of_le _ (by omega), BitVec.setWidth_eq]
    rfl

theorem Branch.holds_eq (op : Branch) (a b : UInt64) :
    op.holds a b = Rv64.taken op a.toBitVec b.toBitVec := by
  rw [Bool.eq_iff_iff]
  cases op <;>
    simp [holds, Rv64.taken, toInt64_lt_iff, toInt64_le_iff, lt_iff_ult, le_iff_ule,
      UInt64.toBitVec_inj]

end RiscvToolkit
