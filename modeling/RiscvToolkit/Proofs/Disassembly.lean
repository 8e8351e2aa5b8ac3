import RiscvToolkit.Proofs.Instruction.Encoding
import RiscvToolkit.Proofs.Machine.Cycle

/-! Disassembly against the decoder. The text of a word names the instruction that a machine executes for it, and
no word is executed without a text. -/
namespace RiscvToolkit
open Disassembly (fits)
open Source (Arguments)

/-! ### Instructions as text -/

/-- An immediate operand as a signed number. -/
def signedOperand (imm : UInt64) : Int :=
  imm.toInt64.toInt

def ArithImm.isShift : ArithImm → Bool
  | slli | srli | srai => true
  | _ => false

namespace Instruction

/-- The operands that an instruction is executed with. A shift looks at the low six bits of its immediate; an
upper immediate counts pages of 4096. -/
def arguments : Instruction → Arguments
  | .arith _ rd rs1 rs2 => .registers rd rs1 rs2
  | .arithImm op rd rs1 imm =>
    .registersNumber rd rs1 (if op.isShift then (imm % 64).toNat else signedOperand imm)
  | .load _ rd base offset => .registerMemory rd (some (signedOperand offset)) base
  | .store _ source base offset => .registerMemory source (some (signedOperand offset)) base
  | .branch _ rs1 rs2 offset => .registersNumber rs1 rs2 (signedOperand offset)
  | .jal rd offset => .registerNumber rd (signedOperand offset)
  | .jalr rd base offset => .registersNumber rd base (signedOperand offset)
  | .lui rd imm | .auipc rd imm => .registerNumber rd (signedOperand imm / 4096)
  | .ecall | .ebreak => .none

/-- The source text of an instruction. -/
def source (i : Instruction) : String :=
  i.mnemonic ++ i.arguments.text

end Instruction

theorem Instruction.ofWord?_eq_some_iff {word : UInt32} {i : Instruction} :
    ofWord? word = some i ↔ ∃ f, Fields.ofWord word = .ok f ∧ ofFields? f = some i := by
  unfold ofWord?
  cases Fields.ofWord word <;> simp

theorem signedOperand_operand (f : Fields) : signedOperand f.operand = f.imm.toInt := by
  unfold signedOperand Fields.operand
  simp

/-! ### Entries -/

/-- True if the decoder takes the words of an entry for the instruction of its name. -/
def Entry.decodes (e : Entry) : Bool :=
  match e.encoding with
  | .r opcode funct3 funct7 _ _ _ =>
    opcode = Opcode.op.code && (Arith.ofFunct? funct3 funct7).map Arith.mnemonic = some e.name
  | .i opcode funct3 (.immediate ..) =>
    opcode = Opcode.opImm.code && funct3 ≠ 1 && funct3 ≠ 5 &&
        (ArithImm.ofFunct? funct3 0).map ArithImm.mnemonic = some e.name ||
      opcode = Opcode.opImm32.code && funct3 = 0 && e.name = "addiw" ||
      opcode = Opcode.jalr.code && funct3 = 0 && e.name = "jalr"
  | .i opcode funct3 (.shift _ _ funct7) =>
    opcode = Opcode.opImm.code && (funct3 = 1 || funct3 = 5) &&
      (ArithImm.ofFunct? funct3 funct7).map ArithImm.mnemonic = some e.name
  | .i opcode funct3 (.offset _) =>
    opcode = Opcode.load.code && (Load.ofFunct? funct3).map Load.mnemonic = some e.name
  | .s opcode funct3 _ =>
    opcode = Opcode.store.code && (Store.ofFunct? funct3).map Store.mnemonic = some e.name
  | .b opcode funct3 _ _ =>
    opcode = Opcode.branch.code && (Branch.ofFunct? funct3).map Branch.mnemonic = some e.name
  | .j opcode => opcode = Opcode.jal.code && e.name = "jal"
  | .u opcode =>
    opcode = Opcode.lui.code && e.name = "lui" || opcode = Opcode.auipc.code && e.name = "auipc"
  | .w word =>
    (Instruction.ofWord? word).map (fun i => (i.mnemonic, i.arguments)) = some (e.name, .none)
  | .template .. | .la | .li => true

section
variable {e : Entry} (he : e ∈ Catalog.builtin.entries)
include he

theorem wellFormed_of_mem_builtin : e.encoding.wellFormed = true := by
  revert e
  decide

theorem integral_of_mem_builtin : e.encoding.integral = true := by
  revert e
  decide

theorem decodes_of_mem_builtin : e.decodes = true := by
  revert e
  decide

end

/-! ### Decoding of words that fit -/

theorem Opcode.eq_of_code {a b : Opcode} (h : a.code = b.code) : a = b := by
  have ha := ofCode?_code a
  rw [h, ofCode?_code] at ha
  exact (Option.some.inj ha).symm

namespace ArithImm
variable {funct3 funct7 : UInt8} {op : ArithImm}

theorem isShift_iff (h : ofFunct? funct3 funct7 = some op) :
    op.isShift = true ↔ funct3 = 1 ∨ funct3 = 5 := by
  simp only [← UInt8.toNat_inj]
  unfold ofFunct? at h
  split at h <;> cases h <;> simp_all [isShift]

theorem funct7_of_isShift (h : ofFunct? funct3 funct7 = some op) (hs : op.isShift = true) :
    funct7 = 0 ∨ funct7 = 0x20 := by
  simp only [← UInt8.toNat_inj]
  unfold ofFunct? at h
  split at h <;> cases h <;> simp_all [isShift]

/-- Only shifts look at `funct7`. -/
theorem ofFunct?_zero (h1 : funct3 ≠ 1) (h5 : funct3 ≠ 5) :
    ofFunct? funct3 funct7 = ofFunct? funct3 0 := by
  rw [Ne, ← UInt8.toNat_inj] at h1 h5
  have h1' : funct3.toNat ≠ 1 := h1
  have h5' : funct3.toNat ≠ 5 := h5
  unfold ofFunct?
  split <;> split <;> simp_all

end ArithImm

section
variable {f : Fields} (hv : f.Valid)
include hv

/-- The amount that a machine shifts by is the one that is printed. -/
theorem toNat_operand_mod (hi : f.format = .i) (h7 : f.funct7 = 0 ∨ f.funct7 = 0x20) :
    ((f.operand % 64).toNat : Int) = f.imm.toInt % 32 := by
  have hw := f.word.toNat_lt
  -- either way bit 5 of the immediate is clear, so that its low six bits are its low five
  have hup : (f.word >>> 25).toNat = 0 ∨ (f.word >>> 25).toNat = 32 := by
    have hn : (f.word >>> 25).toUInt8.toNat = (f.word >>> 25).toNat % 2 ^ 8 := rfl
    have hlt : (f.word >>> 25).toNat = f.word.toNat / 2 ^ 25 := Nat.shiftRight_eq_div_pow ..
    rw [hv.funct7, ← UInt8.toNat_inj, ← UInt8.toNat_inj, hn] at h7
    simp only [UInt8.toNat_zero, UInt8.reduceToNat] at h7
    omega
  have hs : (f.word >>> 20).toNat / 32 = (f.word >>> 25).toNat := by
    have h20 : (f.word >>> 20).toNat = f.word.toNat / 2 ^ 20 := Nat.shiftRight_eq_div_pow ..
    have h25 : (f.word >>> 25).toNat = f.word.toNat / 2 ^ 25 := Nat.shiftRight_eq_div_pow ..
    omega
  have himm : f.imm.toInt = ((f.word >>> 20).toNat : Int).bmod (2 ^ 12) := by
    rw [hv.imm, hi]
    exact toInt_signed _ (by omega) (by omega)
  have hop : f.operand.toNat = (f.imm.toInt % 2 ^ 64).toNat := by
    rw [← toNat_ofInt]
    exact congrArg UInt64.toNat (operand_eq_ofInt f.imm)
  rw [UInt64.toNat_mod, hop, himm, Int.bmod_def]
  simp only [UInt64.reduceToNat]
  omega

open Instruction

/-- A word that fits an entry with an immediate is decoded to the instruction of its name. -/
theorem ofFields?_of_fits_i {name : String} {opcode funct3 : UInt8} {operands : ImmediateOperands}
    (he : Entry.decodes ⟨name, .i opcode funct3 operands⟩ = true)
    (hf : fits f (.i opcode funct3 operands) = true) :
    ∃ i, ofFields? f = some i ∧ i.mnemonic = name ∧
      i.arguments = f.arguments (.i opcode funct3 operands) := by
  cases operands with
  | immediate rd rs1 =>
    simp only [fits, Bool.and_eq_true, decide_eq_true_eq, Bool.and_true] at hf
    obtain ⟨⟨-, rfl⟩, rfl⟩ := hf
    simp only [Entry.decodes, Bool.or_eq_true, Bool.and_eq_true, decide_eq_true_eq] at he
    -- three opcodes share this shape: 64-bit arithmetic, `addiw` and `jalr`
    rcases he with (⟨⟨⟨hcode, h1⟩, h5⟩, he⟩ | ⟨⟨hcode, h0⟩, rfl⟩) | ⟨⟨hcode, h0⟩, rfl⟩
    · obtain ⟨op, hop, hname⟩ := Option.map_eq_some_iff.mp he
      have hs : op.isShift = false := by
        simpa [h1, h5] using ArithImm.isShift_iff hop
      have hop7 : ArithImm.ofFunct? f.funct3 f.funct7 = some op :=
        (ArithImm.ofFunct?_zero h1 h5).trans hop
      refine ⟨.arithImm op f.rd f.rs1 f.operand, ?_, hname, ?_⟩
      · simp only [ofFields?, Opcode.eq_of_code hcode, hop7, Option.map_some]
      · simp only [arguments, Fields.arguments, hs, signedOperand_operand]
        rfl
    · refine ⟨.arithImm .addiw f.rd f.rs1 f.operand, ?_, rfl, ?_⟩
      · simp only [ofFields?, Opcode.eq_of_code hcode, h0, if_true]
      · simp only [arguments, Fields.arguments, signedOperand_operand]
        rfl
    · refine ⟨.jalr f.rd f.rs1 f.operand, ?_, rfl, ?_⟩
      · simp only [ofFields?, Opcode.eq_of_code hcode, h0, if_true]
      · simp only [arguments, Fields.arguments, signedOperand_operand]
  | shift rd rs1 funct7 =>
    simp only [fits, Bool.and_eq_true, decide_eq_true_eq] at hf
    obtain ⟨⟨⟨hi, rfl⟩, rfl⟩, rfl⟩ := hf
    simp only [Entry.decodes, Bool.or_eq_true, Bool.and_eq_true, decide_eq_true_eq] at he
    obtain ⟨⟨hcode, h3⟩, he⟩ := he
    obtain ⟨op, hop, hname⟩ := Option.map_eq_some_iff.mp he
    have hs : op.isShift = true := (ArithImm.isShift_iff hop).mpr h3
    have hamount := toNat_operand_mod hv hi (ArithImm.funct7_of_isShift hop hs)
    refine ⟨.arithImm op f.rd f.rs1 f.operand, ?_, hname, ?_⟩
    · simp only [ofFields?, Opcode.eq_of_code hcode, hop, Option.map_some]
    · simp only [arguments, Fields.arguments, hs, if_true, hamount]
  | offset rd =>
    simp only [fits, Bool.and_eq_true, decide_eq_true_eq, Bool.and_true] at hf
    obtain ⟨⟨-, rfl⟩, rfl⟩ := hf
    simp only [Entry.decodes, Bool.and_eq_true, decide_eq_true_eq] at he
    obtain ⟨hcode, he⟩ := he
    obtain ⟨op, hop, hname⟩ := Option.map_eq_some_iff.mp he
    refine ⟨.load op f.rd f.rs1 f.operand, ?_, hname, ?_⟩
    · simp only [ofFields?, Opcode.eq_of_code hcode, hop, Option.map_some]
    · simp only [arguments, Fields.arguments, signedOperand_operand]

/-- A word that fits an entry is decoded to the instruction of its name, with the arguments that are in it. -/
theorem ofFields?_of_fits (hw : Fields.ofWord f.word = .ok f) {e : Entry} (he : e.decodes = true)
    (hf : fits f e.encoding = true) :
    ∃ i, ofFields? f = some i ∧ i.mnemonic = e.name ∧ i.arguments = f.arguments e.encoding := by
  obtain ⟨name, encoding⟩ := e
  cases encoding with
  | r opcode funct3 funct7 rd rs1 rs2 =>
    simp only [fits, Bool.and_eq_true, decide_eq_true_eq] at hf
    obtain ⟨⟨⟨-, rfl⟩, rfl⟩, rfl⟩ := hf
    simp only [Entry.decodes, Bool.and_eq_true, decide_eq_true_eq] at he
    obtain ⟨hcode, he⟩ := he
    obtain ⟨op, hop, hname⟩ := Option.map_eq_some_iff.mp he
    refine ⟨.arith op f.rd f.rs1 f.rs2, ?_, hname, rfl⟩
    simp only [ofFields?, Opcode.eq_of_code hcode, hop, Option.map_some]
  | i opcode funct3 operands => exact ofFields?_of_fits_i hv he hf
  | s opcode funct3 source =>
    simp only [fits, Bool.and_eq_true, decide_eq_true_eq] at hf
    obtain ⟨⟨-, rfl⟩, rfl⟩ := hf
    simp only [Entry.decodes, Bool.and_eq_true, decide_eq_true_eq] at he
    obtain ⟨hcode, he⟩ := he
    obtain ⟨op, hop, hname⟩ := Option.map_eq_some_iff.mp he
    refine ⟨.store op f.rs2 f.rs1 f.operand, ?_, hname, ?_⟩
    · simp only [ofFields?, Opcode.eq_of_code hcode, hop, Option.map_some]
    · simp only [arguments, Fields.arguments, signedOperand_operand]
  | b opcode funct3 rs1 rs2 =>
    simp only [fits, Bool.and_eq_true, decide_eq_true_eq] at hf
    obtain ⟨⟨-, rfl⟩, rfl⟩ := hf
    simp only [Entry.decodes, Bool.and_eq_true, decide_eq_true_eq] at he
    obtain ⟨hcode, he⟩ := he
    obtain ⟨op, hop, hname⟩ := Option.map_eq_some_iff.mp he
    refine ⟨.branch op f.rs1 f.rs2 f.operand, ?_, hname, ?_⟩
    · simp only [ofFields?, Opcode.eq_of_code hcode, hop, Option.map_some]
    · simp only [arguments, Fields.arguments, signedOperand_operand]
  | j opcode =>
    simp only [fits, Bool.and_eq_true, decide_eq_true_eq] at hf
    obtain ⟨-, rfl⟩ := hf
    simp only [Entry.decodes, Bool.and_eq_true, decide_eq_true_eq] at he
    obtain ⟨hcode, rfl⟩ := he
    refine ⟨.jal f.rd f.operand, ?_, rfl, ?_⟩
    · simp only [ofFields?, Opcode.eq_of_code hcode]
    · simp only [arguments, Fields.arguments, signedOperand_operand]
  | u opcode =>
    simp only [fits, Bool.and_eq_true, decide_eq_true_eq] at hf
    obtain ⟨-, rfl⟩ := hf
    simp only [Entry.decodes, Bool.or_eq_true, Bool.and_eq_true, decide_eq_true_eq] at he
    rcases he with ⟨hcode, rfl⟩ | ⟨hcode, rfl⟩
    · refine ⟨.lui f.rd f.operand, ?_, rfl, ?_⟩
      · simp only [ofFields?, Opcode.eq_of_code hcode]
      · simp only [arguments, Fields.arguments, signedOperand_operand]
    · refine ⟨.auipc f.rd f.operand, ?_, rfl, ?_⟩
      · simp only [ofFields?, Opcode.eq_of_code hcode]
      · simp only [arguments, Fields.arguments, signedOperand_operand]
  | w word =>
    obtain rfl : word = f.word := of_decide_eq_true hf
    obtain ⟨i, hi, hname⟩ := Option.map_eq_some_iff.mp (of_decide_eq_true he)
    simp only [Prod.mk.injEq] at hname
    refine ⟨i, ?_, hname.1, hname.2⟩
    unfold ofWord? at hi
    rwa [hw] at hi
  | template params lines => cases hf
  | la => cases hf
  | li => cases hf

end

/-! ### Entries of instructions -/

section
variable {funct3 funct7 : UInt8}
open Catalog (builtinEntries)

theorem Arith.mem_builtin {op : Arith} (h : ofFunct? funct3 funct7 = some op) :
    ⟨op.mnemonic, .r Opcode.op.code funct3 funct7 .int .int .int⟩ ∈ builtinEntries := by
  rw [← UInt8.ofNat_toNat (x := funct3), ← UInt8.ofNat_toNat (x := funct7)]
  unfold ofFunct? at h
  split at h <;> cases h
  all_goals
    simp only [*]
    decide

theorem ArithImm.mem_builtin {op : ArithImm} (h : ofFunct? funct3 funct7 = some op) :
    ⟨op.mnemonic, .i Opcode.opImm.code funct3
      (if op.isShift then .shift .int .int funct7 else .immediate .int .int)⟩ ∈
        builtinEntries := by
  rw [← UInt8.ofNat_toNat (x := funct3), ← UInt8.ofNat_toNat (x := funct7)]
  unfold ofFunct? at h
  split at h <;> cases h
  all_goals
    simp only [*, isShift, if_true, Bool.false_eq_true, if_false]
    decide

theorem Load.mem_builtin {op : Load} (h : ofFunct? funct3 = some op) :
    ⟨op.mnemonic, .i Opcode.load.code funct3 (.offset .int)⟩ ∈ builtinEntries := by
  rw [← UInt8.ofNat_toNat (x := funct3)]
  unfold ofFunct? at h
  split at h <;> cases h
  all_goals
    simp only [*]
    decide

theorem Store.mem_builtin {op : Store} (h : ofFunct? funct3 = some op) :
    ⟨op.mnemonic, .s Opcode.store.code funct3 .int⟩ ∈ builtinEntries := by
  rw [← UInt8.ofNat_toNat (x := funct3)]
  unfold ofFunct? at h
  split at h <;> cases h
  all_goals
    simp only [*]
    decide

theorem Branch.mem_builtin {op : Branch} (h : ofFunct? funct3 = some op) :
    ⟨op.mnemonic, .b Opcode.branch.code funct3 .int .int⟩ ∈ builtinEntries := by
  rw [← UInt8.ofNat_toNat (x := funct3)]
  unfold ofFunct? at h
  split at h <;> cases h
  all_goals
    simp only [*]
    decide

end

/-- Every word that is decoded fits an entry. -/
theorem exists_fits_of_ofFields? {f : Fields} {i : Instruction}
    (h : Instruction.ofFields? f = some i) :
    ∃ e ∈ Catalog.builtin.entries, fits f e.encoding = true := by
  unfold Instruction.ofFields? at h
  cases ho : f.opcode with
  | op =>
    rw [ho] at h
    obtain ⟨op, hop, -⟩ := Option.map_eq_some_iff.mp h
    exact ⟨_, Arith.mem_builtin hop, by simp [fits, Fields.format, ho, Opcode.format]⟩
  | opImm =>
    rw [ho] at h
    obtain ⟨op, hop, -⟩ := Option.map_eq_some_iff.mp h
    refine ⟨_, ArithImm.mem_builtin hop, ?_⟩
    cases op.isShift <;> simp [fits, Fields.format, ho, Opcode.format]
  | opImm32 =>
    rw [ho] at h
    obtain ⟨h0, -⟩ := Option.ite_none_right_eq_some.mp h
    exact ⟨⟨"addiw", .i 0x1b 0 (.immediate .int .int)⟩, by decide,
      by simp [fits, Fields.format, ho, Opcode.format, Opcode.code, h0]⟩
  | load =>
    rw [ho] at h
    obtain ⟨op, hop, -⟩ := Option.map_eq_some_iff.mp h
    exact ⟨_, Load.mem_builtin hop, by simp [fits, Fields.format, ho, Opcode.format]⟩
  | store =>
    rw [ho] at h
    obtain ⟨op, hop, -⟩ := Option.map_eq_some_iff.mp h
    exact ⟨_, Store.mem_builtin hop, by simp [fits, Fields.format, ho, Opcode.format]⟩
  | branch =>
    rw [ho] at h
    obtain ⟨op, hop, -⟩ := Option.map_eq_some_iff.mp h
    exact ⟨_, Branch.mem_builtin hop, by simp [fits, Fields.format, ho, Opcode.format]⟩
  | jal =>
    exact ⟨⟨"jal", .j 0x6f⟩, by decide,
      by simp [fits, Fields.format, ho, Opcode.format, Opcode.code]⟩
  | jalr =>
    rw [ho] at h
    obtain ⟨h0, -⟩ := Option.ite_none_right_eq_some.mp h
    exact ⟨⟨"jalr", .i 0x67 0 (.immediate .int .int)⟩, by decide,
      by simp [fits, Fields.format, ho, Opcode.format, Opcode.code, h0]⟩
  | lui =>
    exact ⟨⟨"lui", .u 0x37⟩, by decide,
      by simp [fits, Fields.format, ho, Opcode.format, Opcode.code]⟩
  | auipc =>
    exact ⟨⟨"auipc", .u 0x17⟩, by decide,
      by simp [fits, Fields.format, ho, Opcode.format, Opcode.code]⟩
  | system =>
    rw [ho] at h
    dsimp only at h
    split_ifs at h with he hb
    · exact ⟨⟨"ecall", .w 0x73⟩, by decide, by simp [fits, he]⟩
    · exact ⟨⟨"ebreak", .w 0x00100073⟩, by decide, by simp [fits, hb]⟩

/-! ### Texts of words -/

namespace Disassembly

theorem render_builtin {f : Fields} {e : Entry} (he : e.encoding.integral = true) :
    render Catalog.builtin f e = e.name ++ (f.arguments e.encoding).text := by
  obtain ⟨name, encoding⟩ := e
  unfold render
  cases encoding with
  | r opcode funct3 funct7 rd rs1 rs2 =>
    simp only [Encoding.integral, Bool.and_eq_true, decide_eq_true_eq] at he
    obtain ⟨⟨rfl, rfl⟩, rfl⟩ := he
    simp only [triple, Fields.arguments, Arguments.text, String.append_assoc]
    rfl
  | i opcode funct3 operands =>
    cases operands with
    | immediate rd rs1 | shift rd rs1 funct7 =>
      simp only [Encoding.integral, Bool.and_eq_true, decide_eq_true_eq] at he
      obtain ⟨rfl, rfl⟩ := he
      simp only [triple, Fields.arguments, Arguments.text, String.append_assoc]
      rfl
    | offset rd =>
      obtain rfl : rd = .int := of_decide_eq_true he
      simp only [memoryAccess, Fields.arguments, Arguments.text, String.append_assoc]
      rfl
  | s opcode funct3 source =>
    obtain rfl : source = .int := of_decide_eq_true he
    simp only [memoryAccess, Fields.arguments, Arguments.text, String.append_assoc]
    rfl
  | b opcode funct3 rs1 rs2 =>
    simp only [Encoding.integral, Bool.and_eq_true, decide_eq_true_eq] at he
    obtain ⟨rfl, rfl⟩ := he
    simp only [triple, Fields.arguments, Arguments.text, String.append_assoc]
    rfl
  | j opcode =>
    simp only [Fields.arguments, Arguments.text, String.append_assoc]
    rfl
  | u opcode =>
    simp only [Fields.arguments, Arguments.text, String.append_assoc]
    rfl
  | w word => exact String.append_empty.symm
  | template params lines => exact String.append_empty.symm
  | la => exact String.append_empty.symm
  | li => exact String.append_empty.symm

/-- A word has a text if some entry fits it, and then it is decoded to the instruction of that entry. -/
theorem text_cases (word : UInt32) :
    text Catalog.builtin word = unknown ∧ Instruction.ofWord? word = none ∨
      ∃ f e i, Fields.ofWord word = .ok f ∧ e ∈ Catalog.builtin.entries ∧
        fits f e.encoding = true ∧
        text Catalog.builtin word = e.name ++ (f.arguments e.encoding).text ∧
        Instruction.ofFields? f = some i ∧ i.mnemonic = e.name ∧
        i.arguments = f.arguments e.encoding := by
  unfold text Instruction.ofWord?
  cases hw : Fields.ofWord word with
  | error e => exact .inl ⟨rfl, rfl⟩
  | ok f =>
    dsimp only
    cases hfind : find? Catalog.builtin f with
    | none =>
      refine .inl ⟨rfl, ?_⟩
      cases hi : Instruction.ofFields? f with
      | none => rfl
      | some i =>
        obtain ⟨e, he, hfit⟩ := exists_fits_of_ofFields? hi
        exact absurd hfit (List.find?_eq_none.mp hfind e he)
    | some e =>
      have he : e ∈ Catalog.builtin.entries := List.mem_of_find?_eq_some hfind
      have hfit : fits f e.encoding = true := by simpa using List.find?_some hfind
      obtain ⟨rfl, hv⟩ := Fields.valid_of_ofWord hw
      obtain ⟨i, hi, hname, hargs⟩ := ofFields?_of_fits hv hw (decodes_of_mem_builtin he) hfit
      exact .inr ⟨f, e, i, rfl, he, hfit, render_builtin (integral_of_mem_builtin he), hi, hname,
        hargs⟩

/-- No mnemonic begins like the text of a word without an entry. -/
theorem head?_name_ne {e : Entry} (he : e ∈ Catalog.builtin.entries) :
    ∃ c, e.name.toList.head? = some c ∧ c ≠ 'u' := by
  have h : ∀ e ∈ Catalog.builtin.entries,
      e.name.toList.head?.any (· ≠ 'u') = true := by decide
  simpa [Option.any_eq_true] using h e he

theorem append_ne_unknown {e : Entry} (he : e ∈ Catalog.builtin.entries) (s : String) :
    e.name ++ s ≠ unknown := by
  obtain ⟨c, hc, hu⟩ := head?_name_ne he
  intro h
  have hhead := congrArg (fun t : String => t.toList.head?) h
  simp only [String.toList_append, List.head?_append, hc, Option.some_or] at hhead
  exact hu (Option.some.inj hhead)

end Disassembly

/-! ### Execution -/

theorem Machine.execute_ne_unknown (m : Machine) (i : Instruction) (word : UInt32) :
    m.execute i ≠ .error (.unknownInstruction word) := by
  cases i with
  | load op rd base offset =>
    unfold execute
    dsimp only
    split <;> simp
  | store op source base offset =>
    unfold execute
    dsimp only
    split <;> simp
  | ecall =>
    unfold execute environmentCall
    dsimp only
    split
    next => simp
    next => split <;> simp
    all_goals simp
  | _ => simp [execute]

namespace Action
variable {h : Hart} {word : UInt32} (hh : h.machine.halted = false)
variable (hw : h.machine.memory.readWord h.machine.pc = .ok word)
include hh hw

theorem cycle_of_not_decoded (hi : Instruction.ofWord? word = none) :
    cycle h = .error (.unknownInstruction word) h := by
  unfold cycle
  simp only [bind_apply, get_apply, hh, Bool.false_eq_true, if_false, pc_apply, access_apply, hw,
    hi]
  rfl

theorem cycle_of_decoded {i : Instruction} (hi : Instruction.ofWord? word = some i) :
    cycle h = (try perform i finally clearZero) h := by
  unfold cycle
  simp only [bind_apply, get_apply, hh, Bool.false_eq_true, if_false, pc_apply, access_apply, hw,
    hi]

/-- A cycle faults with an unknown instruction exactly if its word is not decoded. -/
theorem cycle_eq_unknown_iff :
    cycle h = .error (.unknownInstruction word) h ↔ Instruction.ofWord? word = none := by
  refine ⟨fun hc => ?_, cycle_of_not_decoded hh hw⟩
  cases hi : Instruction.ofWord? word with
  | none => rfl
  | some i =>
    rw [cycle_of_decoded hh hw hi, finally_apply, perform_eq] at hc
    cases he : h.machine.execute i with
    | ok done =>
      rw [he] at hc
      cases hc
    | error fault =>
      rw [he] at hc
      dsimp only [leaves] at hc
      injection hc with hf
      exact absurd (hf ▸ he) (h.machine.execute_ne_unknown i word)

end Action

namespace Disassembly

theorem text_eq_unknown_iff (word : UInt32) :
    text Catalog.builtin word = unknown ↔ Instruction.ofWord? word = none := by
  rcases text_cases word with ⟨ht, hi⟩ | ⟨f, e, i, hw, he, -, ht, hi, -⟩
  · simp [ht, hi]
  · have hs : Instruction.ofWord? word = some i := by
      unfold Instruction.ofWord?
      rw [hw]
      exact hi
    simp [ht, hs, append_ne_unknown he]

theorem text_of_ofWord? {word : UInt32} {i : Instruction}
    (h : Instruction.ofWord? word = some i) : text Catalog.builtin word = i.source := by
  rcases text_cases word with ⟨-, hn⟩ | ⟨f, e, j, hw, -, -, ht, hj, hname, hargs⟩
  · rw [hn] at h
    cases h
  · obtain ⟨f', hw', hi⟩ := Instruction.ofWord?_eq_some_iff.mp h
    cases hw.symm.trans hw'
    cases hj.symm.trans hi
    rw [ht, Instruction.source, hname, hargs]

/-- A word is without a text exactly if it is not decoded, which is when a machine faults for it. Any other word
has the text of the instruction that is executed for it. -/
theorem text_agrees_with_cycle (word : UInt32) :
    (text Catalog.builtin word = unknown ↔
      (∃ e, Fields.ofWord word = .error e) ∨
        ∃ f, Fields.ofWord word = .ok f ∧ Instruction.ofFields? f = none) ∧
    (∀ h : Hart, h.machine.halted = false → h.machine.memory.readWord h.machine.pc = .ok word →
      (text Catalog.builtin word = unknown ↔
        Action.cycle h = .error (.unknownInstruction word) h)) ∧
    (text Catalog.builtin word ≠ unknown →
      ∃ f i, Fields.ofWord word = .ok f ∧ Instruction.ofFields? f = some i ∧
        text Catalog.builtin word = i.source ∧
        ∀ h : Hart, h.machine.halted = false →
          h.machine.memory.readWord h.machine.pc = .ok word →
          Action.cycle h = (try Action.perform i finally Action.clearZero) h) := by
  refine ⟨?_, fun h hh hw => ?_, fun hu => ?_⟩
  · rw [text_eq_unknown_iff]
    unfold Instruction.ofWord?
    cases Fields.ofWord word <;> simp
  · rw [text_eq_unknown_iff, Action.cycle_eq_unknown_iff hh hw]
  · rw [Ne, text_eq_unknown_iff] at hu
    obtain ⟨i, hi⟩ := Option.ne_none_iff_exists'.mp hu
    obtain ⟨f, hf, hfi⟩ := Instruction.ofWord?_eq_some_iff.mp hi
    exact ⟨f, i, hf, hfi, text_of_ofWord? hi, fun h hh hw => Action.cycle_of_decoded hh hw hi⟩

/-- A shift whose amount is below a bit that makes it arithmetic. -/
theorem text_agrees_with_cycle_srai :
    ∃ h : Hart, h.machine.halted = false ∧
      h.machine.memory.readWord h.machine.pc = .ok 0x40515113 ∧
      text Catalog.builtin 0x40515113 = "srai sp,sp,0x5" ∧
      Action.cycle h =
        (try Action.perform (.arithImm .srai 2 2 0x405) finally Action.clearZero) h := by
  obtain ⟨memory, hm⟩ : ∃ memory, Memory.empty.writeWord 0x400000 0x40515113 = .ok memory :=
    ⟨_, rfl⟩
  have hr : memory.readWord 0x400000 = .ok 0x40515113 := Memory.readWord_writeWord hm
  have ht : text Catalog.builtin 0x40515113 = "srai sp,sp,0x5" := by decide
  obtain ⟨f, i, hf, hi, -, hc⟩ := (text_agrees_with_cycle 0x40515113).2.2 (by rw [ht]; decide)
  obtain rfl : Instruction.arithImm .srai 2 2 0x405 = i := by
    have hword : Instruction.ofWord? 0x40515113 = some i :=
      Instruction.ofWord?_eq_some_iff.mpr ⟨f, hf, hi⟩
    exact Option.some.inj hword
  exact ⟨⟨Machine.ofMemory memory, .empty⟩, rfl, hr, ht, hc _ rfl hr⟩

end Disassembly

end RiscvToolkit
