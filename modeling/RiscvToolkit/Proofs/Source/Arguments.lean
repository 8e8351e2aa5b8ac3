import RiscvToolkit.Catalog.Builtin
import RiscvToolkit.Proofs.Assembly.Sites
import RiscvToolkit.Proofs.Numeral.Literal
import RiscvToolkit.Proofs.Source.Token

/-! The arguments of machine instructions: what a line writes behind a mnemonic, and the operands that are read
from it. -/
namespace RiscvToolkit.Source
open Assembly (operandsOf)

/-- The operands of an instruction, by their kinds. -/
inductive Arguments where
  | none
  | registers (first second third : Reg)
  | registersNumber (first second : Reg) (number : Int)
  | registerNumber (first : Reg) (number : Int)
  /-- A register and `offset(base)`, or `(base)` alone. -/
  | registerMemory (first : Reg) (offset : Option Int) (base : Reg)
  deriving DecidableEq, Repr

namespace Arguments

def registerText (r : Reg) : String :=
  Catalog.builtin.intReg r

/-- How arguments are written behind a mnemonic. -/
def text : Arguments → String
  | none => ""
  | registers a b c => " " ++ registerText a ++ "," ++ registerText b ++ "," ++ registerText c
  | registersNumber a b n => " " ++ registerText a ++ "," ++ registerText b ++ "," ++ Text.hexSigned n
  | registerNumber a n => " " ++ registerText a ++ "," ++ Text.hexSigned n
  | registerMemory a offset b =>
    " " ++ registerText a ++ "," ++ (offset.map Text.hexSigned).getD "" ++
      "(" ++ registerText b ++ ")"

/-- The operands that arguments are. -/
def operands : Arguments → List Operand
  | none => []
  | registers a b c => [.register ⟨a, .int⟩, .register ⟨b, .int⟩, .register ⟨c, .int⟩]
  | registersNumber a b n => [.register ⟨a, .int⟩, .register ⟨b, .int⟩, .int n]
  | registerNumber a n => [.register ⟨a, .int⟩, .int n]
  | registerMemory a offset b =>
    .register ⟨a, .int⟩ :: (offset.map .int).toList ++ [.group [.register ⟨b, .int⟩]]

/-- The number among arguments. -/
def literal? : Arguments → Option Int
  | registersNumber _ _ n | registerNumber _ n => some n
  | registerMemory _ offset _ => offset
  | none | registers .. => .none

end Arguments

/-! ### Words of the built-in catalog -/

theorem isWord_registerText (r : Reg) : IsWord (Arguments.registerText r).toList := by
  revert r
  decide

theorem identify_registerText (r : Reg) :
    identify Catalog.builtin (Arguments.registerText r).toList = .register ⟨r, .int⟩ := by
  revert r
  decide

theorem isWord_name {e : Entry} (he : e ∈ Catalog.builtin.entries) : IsWord e.name.toList := by
  revert e
  decide

theorem identify_name {e : Entry} (he : e ∈ Catalog.builtin.entries) :
    identify Catalog.builtin e.name.toList = .instruction e := by
  revert e
  decide

/-- No mnemonic begins like a number. -/
theorem head?_name {e : Entry} (he : e ∈ Catalog.builtin.entries) :
    e.name.toList.head? ≠ some '0' ∧ e.name.toList.head? ≠ some '-' := by
  revert e
  decide

theorem endsWord_digitChar {d : Nat} (hd : d < 16) : endsWord d.digitChar = false := by
  interval_cases d <;> rfl

theorem endsWord_of_mem_toDigits {n : Nat} {c : Char} (hc : c ∈ Nat.toDigits 16 n) :
    endsWord c = false := by
  induction n using Nat.strongRecOn with
  | ind n ih =>
    rw [Nat.toDigits_eq_if (by decide)] at hc
    split_ifs at hc with hn
    · rw [List.mem_singleton.mp hc]
      exact endsWord_digitChar hn
    · rcases List.mem_append.mp hc with hc | hc
      · exact ih (n / 16) (by omega) hc
      · rw [List.mem_singleton.mp hc]
        exact endsWord_digitChar (Nat.mod_lt _ (by decide))

theorem isWord_hexSigned (n : Int) : IsWord (Text.hexSigned n).toList := by
  have hprefix : IsWord ['-', '0', 'x'] := by decide
  cases n with
  | ofNat n =>
    rw [Int.ofNat_eq_natCast, Numeral.toList_hexSigned_ofNat]
    refine ⟨List.cons_ne_nil _ _, fun c hc => ?_⟩
    rcases List.mem_append.mp (show c ∈ ['0', 'x'] ++ Nat.toDigits 16 n from hc) with hc | hc
    · exact hprefix.2 c (List.mem_cons_of_mem _ hc)
    · exact endsWord_of_mem_toDigits hc
  | negSucc n =>
    rw [Numeral.toList_hexSigned_negSucc]
    refine ⟨List.cons_ne_nil _ _, fun c hc => ?_⟩
    rcases List.mem_append.mp (show c ∈ ['-', '0', 'x'] ++ Nat.toDigits 16 (n + 1) from hc)
      with hc | hc
    · exact hprefix.2 c hc
    · exact endsWord_of_mem_toDigits hc

/-- No mnemonic is written like a number. -/
theorem find?_hexSigned (n : Int) :
    Catalog.builtin.find? (String.ofList (Text.hexSigned n).toList) = none := by
  refine List.find?_eq_none.mpr fun e he h => ?_
  obtain ⟨h0, hm⟩ := head?_name he
  rw [beq_iff_eq] at h
  rw [h, String.toList_ofList] at h0 hm
  cases n with
  | ofNat n => exact h0 (by rw [Int.ofNat_eq_natCast, Numeral.toList_hexSigned_ofNat]; rfl)
  | negSucc n => exact hm (by rw [Numeral.toList_hexSigned_negSucc]; rfl)

theorem identify_hexSigned {n : Int} (h : n.natAbs ≤ Numeral.maxLiteral) :
    identify Catalog.builtin (Text.hexSigned n).toList = .int n := by
  unfold identify
  dsimp only
  rw [find?_hexSigned, Numeral.literal?_hexSigned h]

/-! ### Lines -/

section
variable {rest : List Char}

theorem lineOperands_register {s : Char} (hs : isSpace s = true) (r : Reg)
    (hr : StartsApart rest) :
    lineOperands Catalog.builtin (s :: ((Arguments.registerText r).toList ++ rest)) =
      .next (.register ⟨r, .int⟩) (lineOperands Catalog.builtin rest) := by
  rw [lineOperands_space hs (isSpace_of_mem_head? (isWord_registerText r) rest)]
  exact lineOperands_word (isWord_registerText r) hr (by rw [identify_registerText]; rfl)

theorem lineOperands_number {n : Int} (hn : n.natAbs ≤ Numeral.maxLiteral)
    (hr : StartsApart rest) :
    lineOperands Catalog.builtin (',' :: ((Text.hexSigned n).toList ++ rest)) =
      .next (.int n) (lineOperands Catalog.builtin rest) := by
  rw [lineOperands_space rfl (isSpace_of_mem_head? (isWord_hexSigned n) rest)]
  exact lineOperands_word (isWord_hexSigned n) hr (by rw [identify_hexSigned hn]; rfl)

end

theorem lineOperands_base (r : Reg) :
    lineOperands Catalog.builtin ('(' :: ((Arguments.registerText r).toList ++ [')'])) =
      .next (.group [.register ⟨r, .int⟩]) .done :=
  lineOperands_group (isWord_registerText r) [] (by rw [identify_registerText]; rfl)

theorem lineOperands_arguments {a : Arguments}
    (h : ∀ n ∈ a.literal?, n.natAbs ≤ Numeral.maxLiteral) :
    lineOperands Catalog.builtin a.text.toList = operandsOf a.operands := by
  have hcomma (rest : List Char) : StartsApart (',' :: rest) := .cons rfl rest
  have hparen (rest : List Char) : StartsApart ('(' :: rest) := .cons rfl rest
  cases a with
  | none => rfl
  | registers a b c =>
    have ht : (Arguments.registers a b c).text.toList =
        ' ' :: ((Arguments.registerText a).toList ++
          ',' :: ((Arguments.registerText b).toList ++
            ',' :: ((Arguments.registerText c).toList ++ []))) := by
      simp [Arguments.text]
    rw [ht, lineOperands_register rfl a (hcomma _), lineOperands_register rfl b (hcomma _),
      lineOperands_register rfl c .nil]
    rfl
  | registersNumber a b n =>
    have ht : (Arguments.registersNumber a b n).text.toList =
        ' ' :: ((Arguments.registerText a).toList ++
          ',' :: ((Arguments.registerText b).toList ++
            ',' :: ((Text.hexSigned n).toList ++ []))) := by
      simp [Arguments.text]
    rw [ht, lineOperands_register rfl a (hcomma _), lineOperands_register rfl b (hcomma _),
      lineOperands_number (h n rfl) .nil]
    rfl
  | registerNumber a n =>
    have ht : (Arguments.registerNumber a n).text.toList =
        ' ' :: ((Arguments.registerText a).toList ++
          ',' :: ((Text.hexSigned n).toList ++ [])) := by
      simp [Arguments.text]
    rw [ht, lineOperands_register rfl a (hcomma _), lineOperands_number (h n rfl) .nil]
    rfl
  | registerMemory a offset b =>
    cases offset with
    | none =>
      have ht : (Arguments.registerMemory a none b).text.toList =
          ' ' :: ((Arguments.registerText a).toList ++
            ',' :: '(' :: ((Arguments.registerText b).toList ++ [')'])) := by
        simp [Arguments.text]
      rw [ht, lineOperands_register rfl a (hcomma _), lineOperands_space rfl (by rintro _ ⟨⟩; rfl),
        lineOperands_base]
      rfl
    | some n =>
      have ht : (Arguments.registerMemory a (some n) b).text.toList =
          ' ' :: ((Arguments.registerText a).toList ++
            ',' :: ((Text.hexSigned n).toList ++
              '(' :: ((Arguments.registerText b).toList ++ [')']))) := by
        simp [Arguments.text]
      rw [ht, lineOperands_register rfl a (hcomma _), lineOperands_number (h n rfl) (hparen _),
        lineOperands_base]
      rfl

/-- A mnemonic with arguments is read as what it was written for. -/
theorem lineOperands_instruction {e : Entry} (he : e ∈ Catalog.builtin.entries) {a : Arguments}
    (h : ∀ n ∈ a.literal?, n.natAbs ≤ Numeral.maxLiteral) :
    lineOperands Catalog.builtin (e.name ++ a.text).toList =
      operandsOf (.instruction e :: a.operands) := by
  have hr : StartsApart a.text.toList := by
    cases a with
    | none => exact .nil
    | _ =>
      simp only [Arguments.text, String.toList_append, List.append_assoc]
      exact .cons rfl _
  rw [String.toList_append, lineOperands_word (isWord_name he) hr (by rw [identify_name he]; rfl),
    lineOperands_arguments h]
  rfl

theorem ne_newline_of_isWord {word : List Char} (hw : IsWord word) : '\n' ∉ word := by
  intro h
  exact absurd (hw.2 '\n' h) (by decide)

/-- A mnemonic with arguments is a single line. -/
theorem newline_not_mem {e : Entry} (he : e ∈ Catalog.builtin.entries) (a : Arguments) :
    '\n' ∉ (e.name ++ a.text).toList := by
  have hn := ne_newline_of_isWord (isWord_name he)
  have hr (r : Reg) := ne_newline_of_isWord (isWord_registerText r)
  have hi (n : Int) := ne_newline_of_isWord (isWord_hexSigned n)
  cases a with
  | registerMemory a offset b => cases offset <;> simp [Arguments.text, hn, hr, hi]
  | _ => simp [Arguments.text, hn, hr, hi]

end RiscvToolkit.Source
