import RiscvToolkit.Instruction.Basic
import RiscvToolkit.Instruction.Pack
import RiscvToolkit.Proofs.Word

/-! Decoding. The fields of a word, and the instructions that packed words stand for. -/
namespace RiscvToolkit

theorem Reg.ofBits_congr {a b : UInt32} (h : a &&& 0x1f = b &&& 0x1f) :
    Reg.ofBits a = Reg.ofBits b := by
  have hn := congrArg UInt32.toNat h
  simp only [UInt32.toNat_and, UInt32.reduceToNat] at hn
  rw [Nat.and_two_pow_sub_one_eq_mod a.toNat 5, Nat.and_two_pow_sub_one_eq_mod b.toNat 5] at hn
  unfold Reg.ofBits Reg.ofNat
  apply Fin.ext
  exact hn

theorem Fields.ofWord_eq_ok_iff (word : UInt32) (f : Fields) :
    Fields.ofWord word = .ok f ↔
      Opcode.ofCode? (opcodeBits word) = some f.opcode ∧
        f = { word
              opcode := f.opcode
              funct3 := ((word >>> 12) &&& 7).toUInt8
              funct7 := (word >>> 25).toUInt8
              rd := Reg.ofBits (word >>> 7)
              rs1 := Reg.ofBits (word >>> 15)
              rs2 := Reg.ofBits (word >>> 20)
              imm := f.opcode.format.immediate word } := by
  unfold Fields.ofWord
  cases h : Opcode.ofCode? (opcodeBits word) with
  | none => simp
  | some opcode =>
    simp only [Except.ok.injEq, Option.some.injEq]
    constructor
    · rintro rfl
      simp
    · rintro ⟨rfl, hf⟩
      exact hf.symm

/-! ### Words put together from fields -/

theorem bit_eq_testBit (word : UInt32) (i : Nat) : bit word i = word.toNat.testBit i := rfl

@[simp] theorem bit_toUInt32 (byte : UInt8) (i : Nat) :
    bit byte.toUInt32 i = byte.toNat.testBit i := by
  rw [bit_eq_testBit, UInt8.toNat_toUInt32]

theorem testBit_of_lt {n k i : Nat} (h : n < 2 ^ k) (hi : k ≤ i) : n.testBit i = false :=
  Nat.testBit_lt_two_pow (h.trans_le (Nat.pow_le_pow_right (by omega) hi))

theorem and_mask_eq {a v m : UInt32} (k : Nat) (hm : m.toNat = 2 ^ k - 1) (hv : v.toNat < 2 ^ k)
    (h : ∀ i < k, bit a i = bit v i) : a &&& m = v := by
  apply ext_bit
  intro i _
  rw [bit_and, bit_eq_testBit m, hm, Nat.testBit_two_pow_sub_one]
  by_cases hi : i < k
  · simp [hi, h i hi]
  · have hz := testBit_of_lt hv (Nat.le_of_not_lt hi)
    simp [hi, bit_eq_testBit v, hz]

theorem toNat_bits (r : Reg) : r.bits.toNat = r.val :=
  UInt32.toNat_ofNat_of_lt' (by simp only [UInt32.size]; omega)

theorem bit_reg (r : Reg) {i : Nat} (h : 5 ≤ i) : bit r.bits i = false := by
  rw [bit_eq_testBit, toNat_bits]
  exact testBit_of_lt (k := 5) r.isLt h

theorem Opcode.code_lt (o : Opcode) : o.code.toNat < 2 ^ 7 := by
  cases o <;> decide

theorem bit_code (o : Opcode) {i : Nat} (h : 7 ≤ i) : o.code.toNat.testBit i = false :=
  testBit_of_lt o.code_lt h

theorem bit_funct3 {funct3 : UInt8} (hf : funct3 < 8) {i : Nat} (h : 3 ≤ i) :
    funct3.toNat.testBit i = false :=
  testBit_of_lt (k := 3) (UInt8.lt_iff_toNat_lt.mp hf) h

theorem Reg.ofBits_bits (r : Reg) : Reg.ofBits r.bits = r := by
  revert r
  decide

theorem Reg.ofBits_eq {a : UInt32} {r : Reg} (h : ∀ i < 5, bit a i = bit r.bits i) :
    Reg.ofBits a = r := by
  have hr : r.bits.toNat < 2 ^ 5 := by
    rw [toNat_bits]
    exact r.isLt
  have ha : a &&& 0x1f = r.bits &&& 0x1f := by
    rw [and_mask_eq 5 rfl hr h, and_mask_eq 5 rfl hr fun _ _ => rfl]
  rw [Reg.ofBits_congr ha, Reg.ofBits_bits]

theorem opcodeBits_eq {word : UInt32} {o : Opcode}
    (h : ∀ i < 7, bit word i = bit o.code.toUInt32 i) : opcodeBits word = o.code := by
  have hv : o.code.toUInt32.toNat < 2 ^ 7 := by
    rw [UInt8.toNat_toUInt32]
    exact o.code_lt
  unfold opcodeBits
  rw [and_mask_eq 7 rfl hv h, UInt8.toUInt8_toUInt32]

theorem funct3_eq {a : UInt32} {funct3 : UInt8} (hf : funct3 < 8)
    (h : ∀ i < 3, bit a i = bit funct3.toUInt32 i) : (a &&& 7).toUInt8 = funct3 := by
  have hv : funct3.toUInt32.toNat < 2 ^ 3 := by
    rw [UInt8.toNat_toUInt32]
    exact UInt8.lt_iff_toNat_lt.mp hf
  rw [and_mask_eq 3 rfl hv h, UInt8.toUInt8_toUInt32]

theorem Opcode.ofCode?_code (o : Opcode) : Opcode.ofCode? o.code = some o := by
  cases o <;> decide

theorem Fields.ofWord_of_code {word : UInt32} {o : Opcode}
    (h : ∀ i < 7, bit word i = bit o.code.toUInt32 i) :
    Fields.ofWord word = .ok {
      word
      opcode := o
      funct3 := ((word >>> 12) &&& 7).toUInt8
      funct7 := (word >>> 25).toUInt8
      rd := Reg.ofBits (word >>> 7)
      rs1 := Reg.ofBits (word >>> 15)
      rs2 := Reg.ofBits (word >>> 20)
      imm := o.format.immediate word } := by
  unfold Fields.ofWord
  rw [opcodeBits_eq h, Opcode.ofCode?_code]

/-- What a word with an immediate is read back as. -/
theorem Fields.ofWord_immediate {o : Opcode} (ho : o.format = .i) {funct3 : UInt8}
    (hf : funct3 < 8) (rd rs1 : Reg) (imm : UInt32) :
    ∃ f, Fields.ofWord (Pack.immediate o.code funct3 rd rs1 imm) = .ok f ∧ f.opcode = o ∧
      f.funct3 = funct3 ∧ f.rd = rd ∧ f.rs1 = rs1 ∧ f.imm = signed imm 12 := by
  refine ⟨_, Fields.ofWord_of_code (o := o) ?_, rfl, funct3_eq hf ?_, Reg.ofBits_eq ?_,
    Reg.ofBits_eq ?_, ?_⟩
  · intro i hi
    unfold Pack.immediate
    interval_cases i <;> simp
  · intro i hi
    unfold Pack.immediate
    interval_cases i <;> simp [bit_reg, bit_code]
  · intro i hi
    unfold Pack.immediate
    interval_cases i <;> simp [bit_code]
  · intro i hi
    unfold Pack.immediate
    interval_cases i <;> simp [bit_reg, bit_code, bit_funct3 hf]
  · rw [ho]
    apply signed_congr (by omega) (by omega)
    intro i hi
    unfold Pack.immediate
    interval_cases i <;> simp [bit_reg, bit_code, bit_funct3 hf]

/-- What a word with two sources is read back as. -/
theorem Fields.ofWord_sources (o : Opcode) {funct3 : UInt8} (hf : funct3 < 8) (rs1 rs2 : Reg)
    (imm : UInt32) :
    ∃ f, Fields.ofWord (Pack.store o.code funct3 rs1 rs2 imm) = .ok f ∧ f.opcode = o ∧
      f.funct3 = funct3 ∧ f.rs1 = rs1 ∧ f.rs2 = rs2 ∧
      f.imm = o.format.immediate (Pack.store o.code funct3 rs1 rs2 imm) := by
  refine ⟨_, Fields.ofWord_of_code (o := o) ?_, rfl, funct3_eq hf ?_, Reg.ofBits_eq ?_,
    Reg.ofBits_eq ?_, rfl⟩
  · intro i hi
    unfold Pack.store
    interval_cases i <;> simp
  · intro i hi
    unfold Pack.store
    interval_cases i <;> simp [bit_code]
  · intro i hi
    unfold Pack.store
    interval_cases i <;> simp [bit_code, bit_funct3 hf]
  · intro i hi
    unfold Pack.store
    interval_cases i <;> simp [bit_reg, bit_code, bit_funct3 hf]

/-- What a word with two sources and an offset is read back as. -/
theorem Fields.ofWord_store {o : Opcode} (ho : o.format = .s) {funct3 : UInt8}
    (hf : funct3 < 8) (rs1 rs2 : Reg) (imm : UInt32) :
    ∃ f, Fields.ofWord (Pack.store o.code funct3 rs1 rs2 imm) = .ok f ∧ f.opcode = o ∧
      f.funct3 = funct3 ∧ f.rs1 = rs1 ∧ f.rs2 = rs2 ∧ f.imm = signed imm 12 := by
  obtain ⟨f, hw, hop, h3, h1, h2, himm⟩ := Fields.ofWord_sources o hf rs1 rs2 imm
  refine ⟨f, hw, hop, h3, h1, h2, himm.trans ?_⟩
  rw [ho]
  apply signed_congr (by omega) (by omega)
  intro i hi
  unfold Pack.store
  interval_cases i <;> simp [bit_reg, bit_code, bit_funct3 hf]

/-- What a word with a destination is read back as. -/
theorem Fields.ofWord_destination (o : Opcode) (rd : Reg) (imm : UInt32) :
    ∃ f, Fields.ofWord (Pack.upper o.code rd imm) = .ok f ∧ f.opcode = o ∧ f.rd = rd ∧
      f.imm = o.format.immediate (Pack.upper o.code rd imm) := by
  refine ⟨_, Fields.ofWord_of_code (o := o) ?_, rfl, Reg.ofBits_eq ?_, rfl⟩
  · intro i hi
    unfold Pack.upper
    interval_cases i <;> simp
  · intro i hi
    unfold Pack.upper
    interval_cases i <;> simp [bit_code]

/-- What a word with an upper immediate is read back as. -/
theorem Fields.ofWord_upper {o : Opcode} (ho : o.format = .u) (rd : Reg) (imm : UInt32) :
    ∃ f, Fields.ofWord (Pack.upper o.code rd imm) = .ok f ∧ f.opcode = o ∧ f.rd = rd ∧
      f.imm = (imm &&& 0xfffff000).toInt32 := by
  obtain ⟨f, hw, hop, hrd, himm⟩ := Fields.ofWord_destination o rd imm
  refine ⟨f, hw, hop, hrd, himm.trans ?_⟩
  rw [ho]
  refine congrArg UInt32.toInt32 (ext_bit fun i hi => ?_)
  unfold Pack.upper
  interval_cases i <;> simp [bit_reg, bit_code]

namespace Pack

theorem roundedUpper_and (value : UInt32) :
    roundedUpper value &&& 0xfffff000 = roundedUpper value := by
  unfold roundedUpper
  rw [UInt32.and_assoc, UInt32.and_self]

/-- An upper part that is put into a word without one. -/
theorem upper_or (opcode : UInt8) (rd : Reg) (value : UInt32) :
    upper opcode rd 0 ||| roundedUpper value = upper opcode rd (roundedUpper value) := by
  unfold upper
  rw [UInt32.zero_and, UInt32.or_zero, roundedUpper_and]

theorem immediate_or (opcode funct3 : UInt8) (rd rs1 : Reg) (imm : UInt32) :
    immediate opcode funct3 rd rs1 0 ||| (imm &&& 0xfff) <<< 20 =
      immediate opcode funct3 rd rs1 imm := by
  unfold immediate
  rw [UInt32.zero_and, UInt32.zero_shiftLeft, UInt32.or_zero]

private theorem or_around (a b c d low high : UInt32) :
    (a ||| b ||| c ||| d) ||| (low ||| high) = a ||| low ||| b ||| c ||| d ||| high := by
  ac_rfl

theorem store_or (opcode funct3 : UInt8) (rs1 rs2 : Reg) (imm : UInt32) :
    store opcode funct3 rs1 rs2 0 |||
        (((imm &&& 0xfff) &&& 0x1f) <<< 7 ||| ((imm &&& 0xfff) >>> 5) <<< 25) =
      store opcode funct3 rs1 rs2 imm := by
  have hlow : (imm &&& 0xfff) &&& 0x1f = imm &&& 0x1f := by
    rw [UInt32.and_assoc]
    rfl
  have hhigh : (imm &&& 0xfff) >>> 5 = (imm >>> 5) &&& 0x7f := by
    rw [UInt32.shiftRight_and]
    rfl
  unfold store
  rw [hlow, hhigh, UInt32.zero_and, UInt32.zero_shiftLeft, UInt32.zero_shiftRight,
    UInt32.zero_and, UInt32.zero_shiftLeft, UInt32.or_zero, UInt32.or_zero]
  exact or_around ..

end Pack

namespace Instruction

/-- A sign-extended immediate as a register operand. -/
def operand (imm : Int32) : UInt64 :=
  imm.toInt64.toUInt64

theorem ofWord?_auipc (rd : Reg) (imm : UInt32) :
    ofWord? (Pack.upper Opcode.auipc.code rd imm) =
      some (.auipc rd (operand (imm &&& 0xfffff000).toInt32)) := by
  obtain ⟨f, hf, ho, hrd, himm⟩ := Fields.ofWord_upper (o := .auipc) rfl rd imm
  unfold ofWord? ofFields?
  rw [hf]
  dsimp only
  rw [ho, ← hrd, ← himm]
  rfl

theorem ofWord?_addi (rd rs1 : Reg) (imm : UInt32) :
    ofWord? (Pack.immediate Opcode.opImm.code 0 rd rs1 imm) =
      some (.arithImm .addi rd rs1 (operand (signed imm 12))) := by
  obtain ⟨f, hf, ho, h3, hrd, hrs1, himm⟩ :=
    Fields.ofWord_immediate (o := .opImm) rfl (show (0 : UInt8) < 8 by decide) rd rs1 imm
  unfold ofWord? ofFields?
  rw [hf]
  dsimp only
  rw [ho, h3, ← hrd, ← hrs1, ← himm]
  rfl

theorem funct3_lt_of_load {funct3 : UInt8} {op : Load} (h : Load.ofFunct? funct3 = some op) :
    funct3 < 8 := by
  unfold Load.ofFunct? at h
  rw [UInt8.lt_iff_toNat_lt]
  change funct3.toNat < 8
  split at h
  all_goals first | omega | cases h

theorem ofWord?_load {funct3 : UInt8} {op : Load} (h : Load.ofFunct? funct3 = some op)
    (rd base : Reg) (imm : UInt32) :
    ofWord? (Pack.immediate Opcode.load.code funct3 rd base imm) =
      some (.load op rd base (operand (signed imm 12))) := by
  obtain ⟨f, hf, ho, h3, hrd, hrs1, himm⟩ :=
    Fields.ofWord_immediate (o := .load) rfl (funct3_lt_of_load h) rd base imm
  unfold ofWord? ofFields?
  rw [hf]
  dsimp only
  rw [ho, h3, h, ← hrd, ← hrs1, ← himm]
  rfl

theorem funct3_lt_of_store {funct3 : UInt8} {op : Store} (h : Store.ofFunct? funct3 = some op) :
    funct3 < 8 := by
  unfold Store.ofFunct? at h
  rw [UInt8.lt_iff_toNat_lt]
  change funct3.toNat < 8
  split at h
  all_goals first | omega | cases h

theorem ofWord?_store {funct3 : UInt8} {op : Store} (h : Store.ofFunct? funct3 = some op)
    (base source : Reg) (imm : UInt32) :
    ofWord? (Pack.store Opcode.store.code funct3 base source imm) =
      some (.store op source base (operand (signed imm 12))) := by
  obtain ⟨f, hf, ho, h3, hrs1, hrs2, himm⟩ :=
    Fields.ofWord_store (o := .store) rfl (funct3_lt_of_store h) base source imm
  unfold ofWord? ofFields?
  rw [hf]
  dsimp only
  rw [ho, h3, h, ← hrs1, ← hrs2, ← himm]
  rfl

end Instruction

end RiscvToolkit
