import RiscvToolkit.Disassembly
import RiscvToolkit.Proofs.Instruction.Fields
import RiscvToolkit.Proofs.Instruction.Pack
import RiscvToolkit.Proofs.Source.Arguments

/-! Encodings. An encoding makes a word of arguments; the word fits the encoding again and carries the arguments,
and a word that fits is made of the arguments that are in it. -/
namespace RiscvToolkit
open Disassembly (fits)
open Source (Arguments)

/-- True of arguments that an encoding takes, by kind and number, if none of them is a label. -/
inductive Encoding.Takes : Encoding → Arguments → Prop
  | register {opcode funct3 funct7 : UInt8} {rd rs1 rs2 : Reg} :
    Takes (.r opcode funct3 funct7 .int .int .int) (.registers rd rs1 rs2)
  | immediate {opcode funct3 : UInt8} {rd rs1 : Reg} {n : Int} :
    Takes (.i opcode funct3 (.immediate .int .int)) (.registersNumber rd rs1 n)
  | shift {opcode funct3 funct7 : UInt8} {rd rs1 : Reg} {n : Int} :
    Takes (.i opcode funct3 (.shift .int .int funct7)) (.registersNumber rd rs1 n)
  | offset {opcode funct3 : UInt8} {rd base : Reg} {n : Option Int} :
    Takes (.i opcode funct3 (.offset .int)) (.registerMemory rd n base)
  | store {opcode funct3 : UInt8} {source base : Reg} {n : Option Int} :
    Takes (.s opcode funct3 .int) (.registerMemory source n base)
  | upper {opcode : UInt8} {rd : Reg} {n : Int} : Takes (.u opcode) (.registerNumber rd n)
  | word {word : UInt32} : Takes (.w word) .none

theorem Encoding.Takes.ne_template {e : Encoding} {a : Arguments} (h : e.Takes a) (params : Nat)
    (lines : List String) : e ≠ .template params lines := by
  cases h <;> exact fun h => nomatch h

/-- The least and the greatest number that an encoding has room for. -/
def Encoding.range : Encoding → Int × Int
  | .i _ _ (.shift ..) => (0, 31)
  | .u _ => (-524288, 524287)
  | _ => (-2048, 2047)

def Encoding.Admits (e : Encoding) (n : Int) : Prop :=
  e.range.1 ≤ n ∧ n ≤ e.range.2

instance (e : Encoding) (n : Int) : Decidable (e.Admits n) :=
  instDecidableAnd

theorem Encoding.Admits.natAbs_le {e : Encoding} {n : Int} (h : e.Admits n) :
    n.natAbs ≤ Numeral.maxLiteral := by
  have hr : -524288 ≤ e.range.1 ∧ e.range.2 ≤ 524287 := by
    unfold range
    split <;> decide
  have hm : 524288 ≤ Numeral.maxLiteral := by decide
  obtain ⟨hl, hg⟩ := h
  omega

/-- True if `code` is an opcode of a format. -/
def Opcode.isCode (format : Format) (code : UInt8) : Bool :=
  (Opcode.ofCode? code).map Opcode.format = some format

theorem Opcode.exists_of_isCode {format : Format} {code : UInt8} (h : isCode format code = true) :
    ∃ o : Opcode, o.code = code ∧ o.format = format := by
  obtain ⟨o, ho, hf⟩ := Option.map_eq_some_iff.mp (of_decide_eq_true h)
  exact ⟨o, code_of_ofCode? ho, hf⟩

theorem Opcode.format_of_isCode {format : Format} {o : Opcode} (h : isCode format o.code = true) :
    o.format = format := by
  simpa [isCode, ofCode?_code] using h

/-- True if the constants of an encoding belong to its format and fit their places. -/
def Encoding.wellFormed : Encoding → Bool
  | .r opcode funct3 funct7 _ _ _ => Opcode.isCode .r opcode && funct3 < 8 && funct7 < 128
  | .i opcode funct3 (.shift _ _ funct7) =>
    Opcode.isCode .i opcode && funct3 < 8 && funct7 < 128
  | .i opcode funct3 _ => Opcode.isCode .i opcode && funct3 < 8
  | .s opcode funct3 _ => Opcode.isCode .s opcode && funct3 < 8
  | .b opcode funct3 _ _ => Opcode.isCode .b opcode && funct3 < 8
  | .j opcode => Opcode.isCode .j opcode
  | .u opcode => Opcode.isCode .u opcode
  | .w word => Opcode.isCode .w (opcodeBits word)
  | .template .. | .la | .li => true

/-- True if all registers that an encoding takes are integer registers. -/
def Encoding.integral : Encoding → Bool
  | .r _ _ _ rd rs1 rs2 => rd = .int && rs1 = .int && rs2 = .int
  | .i _ _ (.immediate rd rs1) | .i _ _ (.shift rd rs1 _) => rd = .int && rs1 = .int
  | .i _ _ (.offset rd) => rd = .int
  | .s _ _ source => source = .int
  | .b _ _ rs1 rs2 => rs1 = .int && rs2 = .int
  | .j _ | .u _ | .w _ | .template .. | .la | .li => true

/-- The word of arguments; 0 for arguments that the encoding does not take. -/
def Encoding.word : Encoding → Arguments → UInt32
  | .r opcode funct3 funct7 _ _ _, .registers rd rs1 rs2 =>
    Pack.register opcode funct3 funct7 rd rs1 rs2
  | .i opcode funct3 (.immediate ..), .registersNumber rd rs1 n =>
    Pack.immediate opcode funct3 rd rs1 (UInt32.ofInt n)
  | .i opcode funct3 (.shift _ _ funct7), .registersNumber rd rs1 n =>
    Pack.immediate opcode funct3 rd rs1 (UInt32.ofInt n ||| funct7.toUInt32 <<< 5)
  | .i opcode funct3 (.offset _), .registerMemory rd n base =>
    Pack.immediate opcode funct3 rd base (UInt32.ofInt (n.getD 0) &&& 0xfff)
  | .s opcode funct3 _, .registerMemory source n base =>
    Pack.store opcode funct3 base source (UInt32.ofInt (n.getD 0) &&& 0xfff)
  | .u opcode, .registerNumber rd n => Pack.upper opcode rd (UInt32.ofInt n <<< 12)
  | .w word, .none => word
  | _, _ => 0

/-- True of fields that hold arguments in the places that the encoding has for them. -/
def Fields.Carries (f : Fields) : Encoding → Arguments → Prop
  | .r .., .registers rd rs1 rs2 => f.rd = rd ∧ f.rs1 = rs1 ∧ f.rs2 = rs2
  | .i _ _ (.immediate ..), .registersNumber rd rs1 n =>
    f.rd = rd ∧ f.rs1 = rs1 ∧ f.imm.toInt = n
  -- the upper part of the immediate tells shifts apart
  | .i _ _ (.shift ..), .registersNumber rd rs1 n =>
    f.rd = rd ∧ f.rs1 = rs1 ∧ f.imm.toInt % 32 = n
  | .i _ _ (.offset _), .registerMemory rd n base =>
    f.rd = rd ∧ f.rs1 = base ∧ f.imm.toInt = n.getD 0
  | .s .., .registerMemory source n base =>
    f.rs2 = source ∧ f.rs1 = base ∧ f.imm.toInt = n.getD 0
  | .u _, .registerNumber rd n => f.rd = rd ∧ f.imm.toInt = n * 4096
  | .w _, .none => True
  | _, _ => False

theorem signed_and_low (x : UInt32) : signed (x &&& 0xfff) 12 = signed x 12 := by
  refine signed_congr (by omega) (by omega) fun i hi => ?_
  interval_cases i <;> simp

/-- True of fields that are those of a word. -/
structure Fields.Valid (f : Fields) : Prop where
  code : f.opcode.code = opcodeBits f.word
  funct3 : f.funct3 = ((f.word >>> 12) &&& 7).toUInt8
  funct7 : f.funct7 = (f.word >>> 25).toUInt8
  rd : f.rd = Reg.ofBits (f.word >>> 7)
  rs1 : f.rs1 = Reg.ofBits (f.word >>> 15)
  rs2 : f.rs2 = Reg.ofBits (f.word >>> 20)
  imm : f.imm = f.format.immediate f.word

theorem Fields.valid_of_ofWord {word : UInt32} {f : Fields} (h : Fields.ofWord word = .ok f) :
    f.word = word ∧ f.Valid := by
  obtain ⟨hcode, hf⟩ := (Fields.ofWord_eq_ok_iff word f).mp h
  obtain rfl : f.word = word := congrArg Fields.word hf
  exact ⟨rfl, Opcode.code_of_ofCode? hcode, congrArg Fields.funct3 hf, congrArg Fields.funct7 hf,
    congrArg Fields.rd hf, congrArg Fields.rs1 hf, congrArg Fields.rs2 hf, congrArg Fields.imm hf⟩

namespace Encoding

theorem toInt_offset {n : Option Int} (h : ∀ v ∈ n, -2048 ≤ v ∧ v ≤ 2047) :
    (signed (UInt32.ofInt (n.getD 0) &&& 0xfff) 12).toInt = n.getD 0 := by
  rw [signed_and_low]
  apply toInt_signed_ofInt
  cases n with
  | none => decide
  | some n => exact h n rfl

/-- The word of arguments is an instance of its encoding and carries them. -/
theorem carries_word {e : Encoding} (he : e.wellFormed = true) {a : Arguments} (ha : e.Takes a)
    (hn : ∀ n ∈ a.literal?, e.Admits n) :
    ∃ f, Fields.ofWord (e.word a) = .ok f ∧ fits f e = true ∧ f.Carries e a := by
  cases ha with
  | @register opcode funct3 funct7 rd rs1 rs2 =>
    simp only [wellFormed, Bool.and_eq_true, decide_eq_true_eq] at he
    obtain ⟨⟨ho, h3⟩, h7⟩ := he
    obtain ⟨o, rfl, hr⟩ := Opcode.exists_of_isCode ho
    obtain ⟨f, hf, rfl, hf3, hf7, hregs⟩ := Fields.ofWord_register (o := o) h3 h7 rd rs1 rs2
    exact ⟨f, hf, by simp [fits, Fields.format, hr, hf3, hf7], hregs⟩
  | @immediate opcode funct3 rd rs1 n =>
    simp only [wellFormed, Bool.and_eq_true, decide_eq_true_eq] at he
    obtain ⟨ho, h3⟩ := he
    obtain ⟨o, rfl, hr⟩ := Opcode.exists_of_isCode ho
    obtain ⟨f, hf, rfl, hf3, hrd, hrs1, himm⟩ :=
      Fields.ofWord_immediate hr h3 rd rs1 (UInt32.ofInt n)
    exact ⟨f, hf, by simp [fits, Fields.format, hr, hf3], hrd, hrs1,
      himm ▸ toInt_signed_ofInt (hn n rfl)⟩
  | @shift opcode funct3 funct7 rd rs1 n =>
    simp only [wellFormed, Bool.and_eq_true, decide_eq_true_eq] at he
    obtain ⟨⟨ho, h3⟩, h7⟩ := he
    obtain ⟨o, rfl, hr⟩ := Opcode.exists_of_isCode ho
    obtain ⟨hl, hg⟩ : 0 ≤ n ∧ n ≤ 31 := hn n rfl
    have hi := emod_ofInt n
    have ha : (UInt32.ofInt n).toNat < 32 := by omega
    obtain ⟨f, hf, rfl, hf3, hrd, hrs1, himm⟩ :=
      Fields.ofWord_immediate hr h3 rd rs1 (UInt32.ofInt n ||| funct7.toUInt32 <<< 5)
    obtain ⟨hw, hv⟩ := Fields.valid_of_ofWord hf
    have hf7 : f.funct7 = funct7 := by
      rw [hv.funct7, hw]
      exact funct7_immediate h3 h7 rd rs1 ha
    have hamount := toInt_signed_amount ha funct7
    refine ⟨f, hf, by simp [fits, Fields.format, hr, hf3, hf7], hrd, hrs1, ?_⟩
    rw [himm, hamount]
    omega
  | @offset opcode funct3 rd base n =>
    simp only [wellFormed, Bool.and_eq_true, decide_eq_true_eq] at he
    obtain ⟨ho, h3⟩ := he
    obtain ⟨o, rfl, hr⟩ := Opcode.exists_of_isCode ho
    obtain ⟨f, hf, rfl, hf3, hrd, hrs1, himm⟩ :=
      Fields.ofWord_immediate hr h3 rd base (UInt32.ofInt (n.getD 0) &&& 0xfff)
    exact ⟨f, hf, by simp [fits, Fields.format, hr, hf3], hrd, hrs1, himm ▸ toInt_offset hn⟩
  | @store opcode funct3 source base n =>
    simp only [wellFormed, Bool.and_eq_true, decide_eq_true_eq] at he
    obtain ⟨ho, h3⟩ := he
    obtain ⟨o, rfl, hr⟩ := Opcode.exists_of_isCode ho
    obtain ⟨f, hf, rfl, hf3, hrs1, hrs2, himm⟩ :=
      Fields.ofWord_store hr h3 base source (UInt32.ofInt (n.getD 0) &&& 0xfff)
    exact ⟨f, hf, by simp [fits, Fields.format, hr, hf3], hrs2, hrs1, himm ▸ toInt_offset hn⟩
  | @upper opcode rd n =>
    obtain ⟨o, rfl, hr⟩ := Opcode.exists_of_isCode he
    obtain ⟨f, hf, rfl, hrd, himm⟩ := Fields.ofWord_upper hr rd (UInt32.ofInt n <<< 12)
    exact ⟨f, hf, by simp [fits, Fields.format, hr], hrd, himm ▸ toInt_upper_ofInt (hn n rfl)⟩
  | @word word =>
    obtain ⟨o, ho, -⟩ := Opcode.exists_of_isCode he
    have hbits (i : Nat) (hi : i < 7) : bit word i = bit o.code.toUInt32 i := by
      rw [ho]
      unfold opcodeBits
      interval_cases i <;> simp [-bit_toUInt32]
    exact ⟨_, Fields.ofWord_of_code hbits, decide_eq_true rfl, trivial⟩

end Encoding

/-! ### Arguments of a word -/

/-- The arguments that fields hold in the places of an encoding. -/
def Fields.arguments (f : Fields) : Encoding → Arguments
  | .r .. => .registers f.rd f.rs1 f.rs2
  | .i _ _ (.immediate ..) => .registersNumber f.rd f.rs1 f.imm.toInt
  | .i _ _ (.shift ..) => .registersNumber f.rd f.rs1 (f.imm.toInt % 32)
  | .i _ _ (.offset _) => .registerMemory f.rd (some f.imm.toInt) f.rs1
  | .s .. => .registerMemory f.rs2 (some f.imm.toInt) f.rs1
  | .b .. => .registersNumber f.rs1 f.rs2 f.imm.toInt
  | .j _ => .registerNumber f.rd f.imm.toInt
  | .u _ => .registerNumber f.rd (f.imm.toInt / 4096)
  | .w _ | .template .. | .la | .li => .none

theorem range_upper (word : UInt32) :
    -524288 ≤ (word &&& 0xfffff000).toInt32.toInt / 4096 ∧
      (word &&& 0xfffff000).toInt32.toInt / 4096 ≤ 524287 := by
  have hw := word.toNat_lt
  rw [toInt_upper, Int.bmod_def]
  omega

section
variable {f : Fields} (hv : f.Valid)
include hv

theorem bit_imm_i (hi : f.format = .i) {i : Nat} (h : i < 12) :
    bit f.imm.toUInt32 i = bit f.word (20 + i) := by
  rw [hv.imm, hi]
  unfold Format.immediate
  rw [bit_signed _ h (by omega)]
  simp

theorem bit_imm_s (hs : f.format = .s) {i : Nat} (h : i < 12) :
    bit f.imm.toUInt32 i = bit f.word (if i < 5 then 7 + i else 20 + i) := by
  rw [hv.imm, hs]
  unfold Format.immediate
  rw [bit_signed _ h (by omega)]
  interval_cases i <;> simp

theorem range_imm (hf : f.format = .i ∨ f.format = .s) :
    -2048 ≤ f.imm.toInt ∧ f.imm.toInt ≤ 2047 := by
  have hb (x : UInt32) : -2048 ≤ (signed x 12).toInt ∧ (signed x 12).toInt ≤ 2047 := by
    rw [toInt_signed x (by omega) (by omega), Int.bmod_def]
    omega
  rw [hv.imm]
  rcases hf with hf | hf <;> rw [hf] <;> exact hb _

/-- The low bits of the amount of a shift, with `funct7` above them, are its immediate. -/
theorem bit_amount (hi : f.format = .i) {i : Nat} (h : i < 12) :
    bit (UInt32.ofInt (f.imm.toInt % 32) ||| f.funct7.toUInt32 <<< 5) i =
      bit f.word (20 + i) := by
  have hl (j : Nat) (hj : j < 12) := bit_imm_i hv hi hj
  rw [ofInt_toInt_emod, hv.funct7]
  interval_cases i <;> simp [-bit_toUInt32, hl]

omit hv in
/-- An encoding takes the arguments of a word that fits it, unless they have a label's place. -/
theorem Encoding.takes_arguments {e : Encoding} (hi : e.integral = true)
    (he : e.wellFormed = true) (hfits : fits f e = true) (hb : f.format ≠ .b)
    (hj : f.format ≠ .j) : e.Takes (f.arguments e) := by
  cases e with
  | r opcode funct3 funct7 rd rs1 rs2 =>
    simp only [integral, Bool.and_eq_true, decide_eq_true_eq] at hi
    obtain ⟨⟨rfl, rfl⟩, rfl⟩ := hi
    exact .register
  | i opcode funct3 operands =>
    cases operands with
    | immediate rd rs1 =>
      simp only [integral, Bool.and_eq_true, decide_eq_true_eq] at hi
      obtain ⟨rfl, rfl⟩ := hi
      exact .immediate
    | shift rd rs1 funct7 =>
      simp only [integral, Bool.and_eq_true, decide_eq_true_eq] at hi
      obtain ⟨rfl, rfl⟩ := hi
      exact .shift
    | offset rd =>
      obtain rfl : rd = .int := of_decide_eq_true hi
      exact .offset
  | s opcode funct3 source =>
    obtain rfl : source = .int := of_decide_eq_true hi
    exact .store
  | b opcode funct3 rs1 rs2 =>
    simp only [fits, Bool.and_eq_true, decide_eq_true_eq] at hfits
    obtain ⟨⟨-, rfl⟩, -⟩ := hfits
    simp only [wellFormed, Bool.and_eq_true] at he
    exact absurd (Opcode.format_of_isCode he.1) hb
  | j opcode =>
    simp only [fits, Bool.and_eq_true, decide_eq_true_eq] at hfits
    obtain ⟨-, rfl⟩ := hfits
    exact absurd (Opcode.format_of_isCode he) hj
  | u opcode => exact .upper
  | w word => exact .word
  | template params lines => cases hfits
  | la => cases hfits
  | li => cases hfits

/-- A word that fits an encoding is made of the arguments in it. -/
theorem Encoding.word_arguments {e : Encoding} (he : e.wellFormed = true)
    (hfits : fits f e = true) (ht : e.Takes (f.arguments e)) :
    (∀ n ∈ (f.arguments e).literal?, e.Admits n) ∧ e.word (f.arguments e) = f.word := by
  generalize ha : f.arguments e = a at ht ⊢
  cases ht with
  | @register opcode funct3 funct7 rd rs1 rs2 =>
    cases ha
    simp only [fits, Bool.and_eq_true, decide_eq_true_eq] at hfits
    obtain ⟨⟨⟨-, rfl⟩, rfl⟩, rfl⟩ := hfits
    refine ⟨fun n hn => (nomatch hn), ?_⟩
    simp only [word]
    rw [hv.code, hv.funct3, hv.funct7, hv.rd, hv.rs1, hv.rs2, Pack.register_fields]
  | @immediate opcode funct3 rd rs1 n =>
    cases ha
    simp only [fits, Bool.and_eq_true, decide_eq_true_eq, Bool.and_true] at hfits
    obtain ⟨⟨hi, rfl⟩, rfl⟩ := hfits
    constructor
    · rintro _ ⟨⟩
      exact range_imm hv (.inl hi)
    · simp only [word]
      rw [hv.code, hv.funct3, hv.rd, hv.rs1, ofInt_toInt]
      exact Pack.immediate_fields fun i h => bit_imm_i hv hi h
  | @shift opcode funct3 funct7 rd rs1 n =>
    cases ha
    simp only [fits, Bool.and_eq_true, decide_eq_true_eq] at hfits
    obtain ⟨⟨⟨hi, rfl⟩, rfl⟩, rfl⟩ := hfits
    constructor
    · rintro _ ⟨⟩
      exact ⟨by simp only [range]; omega, by simp only [range]; omega⟩
    · have hbits (i : Nat) (h : i < 12) := bit_amount hv hi h
      simp only [word]
      rw [hv.code, hv.funct3, hv.rd, hv.rs1]
      exact Pack.immediate_fields hbits
  | @offset opcode funct3 rd base n =>
    cases ha
    simp only [fits, Bool.and_eq_true, decide_eq_true_eq, Bool.and_true] at hfits
    obtain ⟨⟨hi, rfl⟩, rfl⟩ := hfits
    constructor
    · rintro _ ⟨⟩
      exact range_imm hv (.inl hi)
    · simp only [word, Option.getD_some]
      rw [hv.code, hv.funct3, hv.rd, hv.rs1, ofInt_toInt]
      refine Pack.immediate_fields fun i h => ?_
      rw [← bit_imm_i hv hi h]
      interval_cases i <;> simp
  | @store opcode funct3 source base n =>
    cases ha
    simp only [fits, Bool.and_eq_true, decide_eq_true_eq] at hfits
    obtain ⟨⟨-, rfl⟩, rfl⟩ := hfits
    simp only [wellFormed, Bool.and_eq_true] at he
    have hs : f.format = .s := Opcode.format_of_isCode he.1
    constructor
    · rintro _ ⟨⟩
      exact range_imm hv (.inr hs)
    · simp only [word, Option.getD_some]
      rw [hv.code, hv.funct3, hv.rs1, hv.rs2, ofInt_toInt]
      refine Pack.store_fields fun i h => ?_
      rw [← bit_imm_s hv hs h]
      interval_cases i <;> simp
  | @upper opcode rd n =>
    cases ha
    simp only [fits, Bool.and_eq_true, decide_eq_true_eq] at hfits
    obtain ⟨-, rfl⟩ := hfits
    have hu : f.imm = (f.word &&& 0xfffff000).toInt32 := by
      rw [hv.imm, Fields.format, Opcode.format_of_isCode he]
      rfl
    constructor
    · rintro _ ⟨⟩
      exact hu ▸ range_upper f.word
    · simp only [word]
      rw [hv.code, hv.rd, hu, upper_ofInt_toInt]
      exact Pack.upper_fields (by rw [UInt32.and_assoc, UInt32.and_self])
  | @word w =>
    exact ⟨fun n hn => (nomatch hn), of_decide_eq_true hfits⟩

end

end RiscvToolkit
