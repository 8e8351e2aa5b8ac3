import Mathlib
import RiscvToolkit.Source.Operand

/-! Lines token by token. A word reaches to the next separator, and what is behind it is read as a line of its
own. -/
namespace RiscvToolkit.Source
variable (catalog : Catalog)

theorem length_splitQuoted_le (quote : Char) (line : List Char) :
    (splitQuoted quote line).2.1.length ≤ line.length := by
  fun_induction splitQuoted quote line with
  | case1 => simp
  | case2 => simp
  | case3 c rest inner left closed hs ih =>
    rw [hs] at ih
    simp only [List.length_cons] at ih ⊢
    omega
  | case4 => simp
  | case5 c rest _ _ _ inner left closed hs ih =>
    rw [hs] at ih
    simp only [List.length_cons] at ih ⊢
    omega

theorem length_nextToken_le (c : Char) (rest : List Char) :
    (nextToken catalog c rest).2.length ≤ rest.length := by
  unfold nextToken
  split_ifs
  · exact length_splitQuoted_le '"' rest
  · exact length_splitQuoted_le '\'' rest
  · exact Nat.zero_le _
  · exact Nat.le_refl _
  · exact Nat.le_refl _
  · exact List.length_dropWhile_le _ rest
  · exact List.length_dropWhile_le _ rest

/-- No line has more tokens than characters. -/
theorem tokensUpTo_congr {m n : Nat} {line : List Char} (hm : line.length ≤ m)
    (hn : line.length ≤ n) : tokensUpTo catalog m line = tokensUpTo catalog n line := by
  induction m generalizing n line with
  | zero =>
    have hl : line = [] := List.length_eq_zero_iff.mp (Nat.le_zero.mp hm)
    rw [hl]
    cases n <;> rfl
  | succ m ih =>
    cases line with
    | nil => cases n <;> rfl
    | cons c rest =>
      obtain ⟨n, rfl⟩ : ∃ k, n = k + 1 := Nat.exists_eq_succ_of_ne_zero (by simp at hn; omega)
      have hle := length_nextToken_le catalog c rest
      have hrest := ih (hle.trans (Nat.le_of_succ_le_succ hm))
        (hle.trans (Nat.le_of_succ_le_succ hn))
      exact congrArg _ hrest

theorem tokenize_cons (c : Char) (rest : List Char) :
    tokenize catalog (c :: rest) =
      (nextToken catalog c rest).1 :: tokenize catalog (nextToken catalog c rest).2 :=
  congrArg _ (tokensUpTo_congr catalog (length_nextToken_le catalog c rest) (Nat.le_refl _))

/-- True of characters that make up one word. -/
def IsWord (word : List Char) : Prop :=
  word ≠ [] ∧ ∀ c ∈ word, endsWord c = false

instance (word : List Char) : Decidable (IsWord word) :=
  decidable_of_iff (word ≠ [] ∧ word.all (!endsWord ·)) (by simp [IsWord])

/-- True of what may follow a word. -/
def StartsApart (rest : List Char) : Prop :=
  ∀ c ∈ rest.head?, endsWord c = true

theorem StartsApart.nil : StartsApart [] := by
  simp [StartsApart]

theorem StartsApart.cons {c : Char} (h : endsWord c = true) (rest : List Char) :
    StartsApart (c :: rest) := by
  simpa [StartsApart] using h

/-- A scan stops at once before a character that is not for it. -/
theorem takeWhile_of_head? {p : Char → Bool} {line : List Char}
    (h : ∀ c ∈ line.head?, p c = false) : line.takeWhile p = [] ∧ line.dropWhile p = line := by
  cases line with
  | nil => exact ⟨rfl, rfl⟩
  | cons c rest =>
    have hc : p c = false := h c rfl
    simp [hc]

theorem takeWhile_word {word rest : List Char} (hw : ∀ c ∈ word, endsWord c = false)
    (hr : StartsApart rest) :
    (word ++ rest).takeWhile (!endsWord ·) = word ∧
      (word ++ rest).dropWhile (!endsWord ·) = rest := by
  have hstop : rest.takeWhile (!endsWord ·) = [] ∧ rest.dropWhile (!endsWord ·) = rest :=
    takeWhile_of_head? fun c hc => by simp [hr c hc]
  have hall : ∀ c ∈ word, (!endsWord c) = true := fun c hc => by simp [hw c hc]
  rw [List.takeWhile_append_of_pos hall, List.dropWhile_append_of_pos hall, hstop.1, hstop.2,
    List.append_nil]
  exact ⟨rfl, rfl⟩

/-- A line that begins with a word. -/
theorem tokenize_word {word rest : List Char} (hw : IsWord word) (hr : StartsApart rest) :
    tokenize catalog (word ++ rest) = ⟨identify catalog word, word⟩ :: tokenize catalog rest := by
  obtain ⟨hne, hw⟩ := hw
  cases word with
  | nil => exact absurd rfl hne
  | cons c word =>
    have hc : endsWord c = false := hw c List.mem_cons_self
    obtain ⟨htake, hdrop⟩ := takeWhile_word (fun d hd => hw d (List.mem_cons_of_mem c hd)) hr
    have hnext : nextToken catalog c (word ++ rest) =
        (⟨identify catalog (c :: word), c :: word⟩, rest) := by
      simp only [endsWord, Bool.or_eq_false_iff, beq_eq_false_iff_ne] at hc
      obtain ⟨⟨⟨⟨⟨hs, ho⟩, hcl⟩, hq⟩, ha⟩, hh⟩ := hc
      unfold nextToken
      rw [if_neg hq, if_neg ha, if_neg hh, if_neg ho, if_neg hcl, if_neg (by simp [hs])]
      dsimp only
      rw [htake, hdrop]
    rw [List.cons_append, tokenize_cons, hnext]

theorem isSpace_of_mem_head? {word : List Char} (hw : IsWord word) (rest : List Char) :
    ∀ c ∈ (word ++ rest).head?, isSpace c = false := by
  obtain ⟨hne, hw⟩ := hw
  cases word with
  | nil => exact absurd rfl hne
  | cons c word =>
    have hc : endsWord c = false := hw c List.mem_cons_self
    simp only [endsWord, Bool.or_eq_false_iff] at hc
    simp [hc.1]

/-- A line that begins with a single space or comma. -/
theorem tokenize_space {s : Char} (hs : isSpace s = true) {rest : List Char}
    (hr : ∀ c ∈ rest.head?, isSpace c = false) :
    tokenize catalog (s :: rest) = ⟨.space, [s]⟩ :: tokenize catalog rest := by
  have hne {c : Char} (hc : isSpace c = false) : s ≠ c := by
    rintro rfl
    exact absurd hs (by simp [hc])
  have hstart := takeWhile_of_head? hr
  have hnext : nextToken catalog s rest = (⟨.space, [s]⟩, rest) := by
    unfold nextToken
    rw [if_neg (hne (by decide)), if_neg (hne (by decide)), if_neg (hne (by decide)),
      if_neg (hne (by decide)), if_neg (hne (by decide)), if_pos hs, hstart.1, hstart.2]
  rw [tokenize_cons, hnext]

theorem tokenize_openParen (rest : List Char) :
    tokenize catalog ('(' :: rest) = ⟨.openParen, ['(']⟩ :: tokenize catalog rest :=
  tokenize_cons catalog '(' rest

theorem tokenize_closeParen (rest : List Char) :
    tokenize catalog (')' :: rest) = ⟨.closeParen, [')']⟩ :: tokenize catalog rest :=
  tokenize_cons catalog ')' rest

/-! ### Operands -/

/-- The operands of a line in which nothing is bound. -/
def lineOperands (line : List Char) : Operands :=
  operands [] (tokenize catalog line)

/-- The operand that a word makes by itself, if it is a mnemonic, an integer or a register. -/
def TokenKind.operand? : TokenKind → Option Operand
  | .instruction e => some (.instruction e)
  | .int n => some (.int n)
  | .register r => some (.register r)
  | _ => none

variable {catalog}

theorem operandsFrom_word {t : Token} {o : Operand} (ho : t.kind.operand? = some o)
    (outer : List (List Operand)) (rest : List Token) :
    operandsFrom [] outer (t :: rest) =
      match outer with
      | [] => .next o (operandsFrom [] [] rest)
      | items :: outer => operandsFrom [] ((o :: items) :: outer) rest := by
  obtain ⟨kind, text⟩ := t
  cases kind with
  | instruction e =>
    cases ho
    cases outer <;> rfl
  | int n =>
    cases ho
    cases outer <;> rfl
  | register r =>
    cases ho
    cases outer <;> rfl
  | _ => cases ho

theorem lineOperands_word {word rest : List Char} (hw : IsWord word) (hr : StartsApart rest)
    {o : Operand} (ho : (identify catalog word).operand? = some o) :
    lineOperands catalog (word ++ rest) = .next o (lineOperands catalog rest) := by
  unfold lineOperands operands
  rw [tokenize_word catalog hw hr]
  exact operandsFrom_word ho [] _

theorem lineOperands_space {s : Char} (hs : isSpace s = true) {rest : List Char}
    (hr : ∀ c ∈ rest.head?, isSpace c = false) :
    lineOperands catalog (s :: rest) = lineOperands catalog rest := by
  unfold lineOperands operands
  rw [tokenize_space catalog hs hr]
  rfl

/-- A single word in parentheses. -/
theorem lineOperands_group {word : List Char} (hw : IsWord word) (rest : List Char) {o : Operand}
    (ho : (identify catalog word).operand? = some o) :
    lineOperands catalog ('(' :: (word ++ ')' :: rest)) =
      .next (.group [o]) (lineOperands catalog rest) := by
  have hr : StartsApart (')' :: rest) := .cons rfl rest
  unfold lineOperands operands
  rw [tokenize_openParen, tokenize_word catalog hw hr, tokenize_closeParen]
  exact operandsFrom_word (t := ⟨_, word⟩) ho [[]] _

end RiscvToolkit.Source
