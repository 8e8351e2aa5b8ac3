import RiscvToolkit.Proofs.Instruction.Decode
import RiscvToolkit.Proofs.Machine.Rv64

/-! Decoding takes a word apart where RV64I says, and takes it for what RV64I says. -/
namespace RiscvToolkit
open Instruction (operand)

theorem Reg.ofBits_shiftRight (word k : UInt32) (hk : k.toNat < 32) :
    Reg.ofBits (word >>> k) = (word.toBitVec.extractLsb' k.toNat 5).toFin := by
  apply Fin.ext
  change (word >>> k).toNat % 32 = (word.toBitVec.extractLsb' k.toNat 5).toNat
  rw [UInt32.toNat_shiftRight, Nat.mod_eq_of_lt hk, BitVec.extractLsb'_toNat]
  rfl

theorem signExtend_signExtend {n : Nat} (x : BitVec n) (hn : n ≤ 32) :
    (x.signExtend 32).signExtend 64 = x.signExtend 64 := by
  apply BitVec.eq_of_toInt_eq
  rw [BitVec.toInt_signExtend_of_le (by omega), BitVec.toInt_signExtend_of_le hn,
    BitVec.toInt_signExtend_of_le (by omega)]

theorem operand_signed {value : UInt32} {n : Nat} {x : BitVec n} (h0 : 0 < n)
    (hn : n ≤ 32) (h : ∀ i < n, bit value i = x.getLsbD i) :
    operand (signed value n) = .ofBitVec (x.signExtend 64) := by
  have hx : value.toBitVec.setWidth n = x := by
    apply BitVec.eq_of_getLsbD_eq
    intro i hi
    rw [BitVec.getLsbD_setWidth, ← h i hi]
    simp [hi, bit]
  apply UInt64.toBitVec_inj.mp
  unfold operand
  rw [Int64.toBitVec_toUInt64, Int32.toBitVec_toInt64, toBitVec_signed value h0 hn, hx,
    signExtend_signExtend x hn]

theorem getLsbD_toBitVec (word : UInt32) (i : Nat) : word.toBitVec.getLsbD i = bit word i := rfl

section
variable (word : UInt32)

theorem operand_i : operand (Format.i.immediate word) = .ofBitVec (Rv64.immI word.toBitVec) := by
  apply operand_signed (by omega) (by omega)
  intro i hi
  simp only [BitVec.getLsbD_extractLsb', getLsbD_toBitVec]
  interval_cases i <;> simp

theorem operand_s : operand (Format.s.immediate word) = .ofBitVec (Rv64.immS word.toBitVec) := by
  apply operand_signed (by omega) (by omega)
  intro i hi
  simp only [BitVec.getLsbD_append, BitVec.getLsbD_extractLsb', getLsbD_toBitVec]
  interval_cases i <;> simp

theorem operand_b : operand (Format.b.immediate word) = .ofBitVec (Rv64.immB word.toBitVec) := by
  apply operand_signed (by omega) (by omega)
  intro i hi
  simp only [BitVec.getLsbD_append, BitVec.getLsbD_extractLsb', getLsbD_toBitVec]
  interval_cases i <;> simp

theorem operand_j : operand (Format.j.immediate word) = .ofBitVec (Rv64.immJ word.toBitVec) := by
  apply operand_signed (by omega) (by omega)
  intro i hi
  simp only [BitVec.getLsbD_append, BitVec.getLsbD_extractLsb', getLsbD_toBitVec]
  interval_cases i <;> simp

theorem operand_u : operand (Format.u.immediate word) = .ofBitVec (Rv64.immU word.toBitVec) := by
  have hu : (word &&& 0xfffff000).toBitVec = word.toBitVec.extractLsb' 12 20 ++ 0#12 := by
    apply BitVec.eq_of_getLsbD_eq
    intro i hi
    simp only [BitVec.getLsbD_append, BitVec.getLsbD_extractLsb', getLsbD_toBitVec]
    interval_cases i <;> simp
  apply UInt64.toBitVec_inj.mp
  unfold operand
  rw [Int64.toBitVec_toUInt64, Int32.toBitVec_toInt64]
  exact congrArg _ hu

end

/-! ### Operations -/

/-- What an instruction does, without its operands. -/
def Instruction.operation : Instruction → Rv64.Operation
  | .arith op .. => .arith op
  | .arithImm op .. => .arithImm op
  | .load op .. => .load op
  | .store op .. => .store op
  | .branch op .. => .branch op
  | .jal .. => .jal
  | .jalr .. => .jalr
  | .lui .. => .lui
  | .auipc .. => .auipc
  | .ecall => .ecall
  | .ebreak => .ebreak

namespace Rv64

/-- An operation with the operands that are in a word. -/
def Operation.instruction (w : BitVec 32) : Operation → Instruction
  | .arith op => .arith op (rd w) (rs1 w) (rs2 w)
  | .arithImm op => .arithImm op (rd w) (rs1 w) (.ofBitVec (immI w))
  | .load op => .load op (rd w) (rs1 w) (.ofBitVec (immI w))
  | .store op => .store op (rs2 w) (rs1 w) (.ofBitVec (immS w))
  | .branch op => .branch op (rs1 w) (rs2 w) (.ofBitVec (immB w))
  | .jal => .jal (rd w) (.ofBitVec (immJ w))
  | .jalr => .jalr (rd w) (rs1 w) (.ofBitVec (immI w))
  | .lui => .lui (rd w) (.ofBitVec (immU w))
  | .auipc => .auipc (rd w) (.ofBitVec (immU w))
  | .ecall => .ecall
  | .ebreak => .ebreak

theorem toNat_opcode (word : UInt32) : (opcode word.toBitVec).toNat = (opcodeBits word).toNat := by
  have hw : (word &&& 0x7f).toNat = word.toNat % 2 ^ 7 := by
    rw [UInt32.toNat_and]
    exact Nat.and_two_pow_sub_one_eq_mod word.toNat 7
  unfold opcode opcodeBits
  rw [BitVec.extractLsb'_toNat, UInt32.toNat_toUInt8, hw]
  change word.toNat >>> 0 % 2 ^ 7 = _
  rw [Nat.shiftRight_zero]
  omega

theorem toNat_funct3 (word : UInt32) :
    (funct3 word.toBitVec).toNat = ((word >>> 12) &&& 7).toUInt8.toNat := by
  have hw : ((word >>> 12) &&& 7).toNat = word.toNat >>> 12 % 2 ^ 3 := by
    rw [UInt32.toNat_and, UInt32.toNat_shiftRight]
    exact Nat.and_two_pow_sub_one_eq_mod _ 3
  unfold funct3
  rw [BitVec.extractLsb'_toNat, UInt32.toNat_toUInt8, hw]
  change word.toNat >>> 12 % 2 ^ 3 = _
  omega

theorem toNat_funct7 (word : UInt32) :
    (funct7 word.toBitVec).toNat = (word >>> 25).toUInt8.toNat := by
  have hw := word.toNat_lt
  unfold funct7
  rw [BitVec.extractLsb'_toNat, UInt32.toNat_toUInt8, UInt32.toNat_shiftRight]
  change word.toNat >>> 25 % 2 ^ 7 = word.toNat >>> 25 % 2 ^ 8
  rw [Nat.shiftRight_eq_div_pow]
  omega

theorem toNat_funct6 (w : BitVec 32) : (funct6 w).toNat = (funct7 w).toNat / 2 := by
  unfold funct6 funct7
  rw [BitVec.extractLsb'_toNat, BitVec.extractLsb'_toNat, Nat.shiftRight_eq_div_pow,
    Nat.shiftRight_eq_div_pow]
  omega

end Rv64

theorem Opcode.code_of_ofCode? {code : UInt8} {o : Opcode} (h : Opcode.ofCode? code = some o) :
    o.code = code := by
  unfold ofCode? at h
  simpa using List.find?_some h

theorem Opcode.code_of_ofWord {word : UInt32} {o : Opcode}
    (h : Opcode.ofCode? (opcodeBits word) = some o) :
    Rv64.opcode word.toBitVec = BitVec.ofNat 7 o.code.toNat := by
  rw [Opcode.code_of_ofCode? h, ← Rv64.toNat_opcode, BitVec.ofNat_toNat, BitVec.setWidth_eq]

section
variable {word : UInt32} {f3 f7 : UInt8} (h3 : (Rv64.funct3 word.toBitVec).toNat = f3.toNat)
  (h7 : (Rv64.funct7 word.toBitVec).toNat = f7.toNat)
include h3

theorem Load.encodes_of_ofFunct? {op : Load} (h : ofFunct? f3 = some op)
    (hop : Rv64.opcode word.toBitVec = 0b0000011) : Rv64.Encodes word.toBitVec (.load op) := by
  refine ⟨hop, BitVec.eq_of_toNat_eq (h3.trans ?_)⟩
  unfold ofFunct? at h
  split at h <;> cases h
  all_goals assumption

theorem Store.encodes_of_ofFunct? {op : Store} (h : ofFunct? f3 = some op)
    (hop : Rv64.opcode word.toBitVec = 0b0100011) : Rv64.Encodes word.toBitVec (.store op) := by
  refine ⟨hop, BitVec.eq_of_toNat_eq (h3.trans ?_)⟩
  unfold ofFunct? at h
  split at h <;> cases h
  all_goals assumption

theorem Branch.encodes_of_ofFunct? {op : Branch} (h : ofFunct? f3 = some op)
    (hop : Rv64.opcode word.toBitVec = 0b1100011) : Rv64.Encodes word.toBitVec (.branch op) := by
  refine ⟨hop, BitVec.eq_of_toNat_eq (h3.trans ?_)⟩
  unfold ofFunct? at h
  split at h <;> cases h
  all_goals assumption

include h7

theorem Arith.encodes_of_ofFunct? {op : Arith} (h : ofFunct? f3 f7 = some op)
    (hop : Rv64.opcode word.toBitVec = 0b0110011) : Rv64.Encodes word.toBitVec (.arith op) := by
  have hcode : f7.toNat = (Rv64.arithCode op).1.toNat ∧ f3.toNat = (Rv64.arithCode op).2.toNat := by
    unfold ofFunct? at h
    split at h <;> cases h
    all_goals exact ⟨by assumption, by assumption⟩
  exact ⟨hop, Prod.ext (BitVec.eq_of_toNat_eq (h7.trans hcode.1))
    (BitVec.eq_of_toNat_eq (h3.trans hcode.2))⟩

theorem ArithImm.encodes_of_ofFunct? {op : ArithImm} (h : ofFunct? f3 f7 = some op)
    (hop : Rv64.opcode word.toBitVec = 0b0010011) :
    Rv64.Encodes word.toBitVec (.arithImm op) := by
  -- only shifts are told apart by more than `funct3`
  have h6 := Rv64.toNat_funct6 word.toBitVec
  rw [h7] at h6
  unfold ofFunct? at h
  split at h <;> cases h <;> simp_all [Rv64.Encodes, ← BitVec.toNat_inj]

/-- What the fields stand for is what the word encodes. -/
theorem Instruction.encodes_of_ofFields? {o : Opcode} {i : Instruction}
    (hop : Rv64.opcode word.toBitVec = BitVec.ofNat 7 o.code.toNat)
    (h : ofFields?
      { word
        opcode := o
        funct3 := f3
        funct7 := f7
        rd := Rv64.rd word.toBitVec
        rs1 := Rv64.rs1 word.toBitVec
        rs2 := Rv64.rs2 word.toBitVec
        imm := o.format.immediate word } = some i) :
    Rv64.Encodes word.toBitVec i.operation ∧ i = i.operation.instruction word.toBitVec := by
  unfold ofFields? at h
  dsimp only at h
  cases o with
  | op =>
    obtain ⟨op, hfun, rfl⟩ := Option.map_eq_some_iff.mp h
    exact ⟨op.encodes_of_ofFunct? h3 h7 hfun hop, rfl⟩
  | opImm =>
    obtain ⟨op, hfun, rfl⟩ := Option.map_eq_some_iff.mp h
    exact ⟨op.encodes_of_ofFunct? h3 h7 hfun hop, congrArg (arithImm op _ _) (operand_i word)⟩
  | opImm32 =>
    obtain ⟨hf3, hi⟩ := Option.ite_none_right_eq_some.mp h
    cases hi
    rw [hf3] at h3
    exact ⟨⟨hop, BitVec.eq_of_toNat_eq h3⟩, congrArg (arithImm .addiw _ _) (operand_i word)⟩
  | load =>
    obtain ⟨op, hfun, rfl⟩ := Option.map_eq_some_iff.mp h
    exact ⟨op.encodes_of_ofFunct? h3 hfun hop, congrArg (load op _ _) (operand_i word)⟩
  | store =>
    obtain ⟨op, hfun, rfl⟩ := Option.map_eq_some_iff.mp h
    exact ⟨op.encodes_of_ofFunct? h3 hfun hop, congrArg (store op _ _) (operand_s word)⟩
  | branch =>
    obtain ⟨op, hfun, rfl⟩ := Option.map_eq_some_iff.mp h
    exact ⟨op.encodes_of_ofFunct? h3 hfun hop, congrArg (branch op _ _) (operand_b word)⟩
  | jal =>
    cases h
    exact ⟨hop, congrArg (jal _) (operand_j word)⟩
  | jalr =>
    obtain ⟨hf3, hi⟩ := Option.ite_none_right_eq_some.mp h
    cases hi
    rw [hf3] at h3
    exact ⟨⟨hop, BitVec.eq_of_toNat_eq h3⟩, congrArg (jalr _ _) (operand_i word)⟩
  | lui =>
    cases h
    exact ⟨hop, congrArg (lui _) (operand_u word)⟩
  | auipc =>
    cases h
    exact ⟨hop, congrArg (auipc _) (operand_u word)⟩
  | system =>
    dsimp only at h
    split_ifs at h with he hb
    · cases h
      exact ⟨congrArg UInt32.toBitVec he, rfl⟩
    · cases h
      exact ⟨congrArg UInt32.toBitVec hb, rfl⟩

end

/-- A word is decoded to what it encodes, with the operands that are in it. -/
theorem Instruction.encodes_of_ofWord? {word : UInt32} {i : Instruction}
    (h : ofWord? word = some i) :
    Rv64.Encodes word.toBitVec i.operation ∧ i = i.operation.instruction word.toBitVec := by
  unfold ofWord? at h
  cases hf : Fields.ofWord word with
  | error e =>
    rw [hf] at h
    cases h
  | ok f =>
    obtain ⟨hcode, hfields⟩ := (Fields.ofWord_eq_ok_iff word f).mp hf
    rw [hf, hfields] at h
    dsimp only at h
    rw [Reg.ofBits_shiftRight word 7 (by decide), Reg.ofBits_shiftRight word 15 (by decide),
      Reg.ofBits_shiftRight word 20 (by decide)] at h
    exact encodes_of_ofFields? (Rv64.toNat_funct3 word) (Rv64.toNat_funct7 word)
      (Opcode.code_of_ofWord hcode) h

end RiscvToolkit
