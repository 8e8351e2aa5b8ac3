import RiscvToolkit.Ieee.Literal
import RiscvToolkit.Numeral.Literal
import RiscvToolkit.Proofs.Numeral.Digits

/-! Integer literals by their grammar. Digits, the marks of a radix and signs are written out as tables, and a text is
read as the number that it stands for by the tables. -/
namespace RiscvToolkit.Numeral

/-! ### What a text stands for -/

/-- True of a character that writes the digit `d` of a radix, a letter in either case. -/
def IsDigit (radix : Nat) (c : Char) (d : Nat) : Prop :=
  d < radix ∧ ("0123456789abcdef".toList[d]? = some c ∨ "0123456789ABCDEF".toList[d]? = some c)

/-- True of one or more digits of a radix, the most significant first, that write `n`. -/
def IsNumeral (radix : Nat) (digits : List Char) (n : Nat) : Prop :=
  digits ≠ [] ∧ ∃ values, List.Forall₂ (IsDigit radix) digits values ∧
    n = Nat.ofDigits radix values.reverse

/-- What may stand before digits to tell their radix. -/
def marks : List (List Char × Nat) :=
  [([], 10), (['0', 'x'], 16), (['0', 'X'], 16), (['0', 'b'], 2), (['0', 'B'], 2),
    (['0', 'o'], 8), (['0', 'O'], 8)]

/-- The signs, each with whether it makes a number negative. -/
def signs : List (List Char × Bool) :=
  [([], false), (['+'], false), (['-'], true)]

/-- True of a text that is an integer literal, however large, and of its value. -/
inductive Denotes : List Char → Int → Prop where
  | literal {sign mark digits : List Char} {negative : Bool} {radix n : Nat}
      (hsign : (sign, negative) ∈ signs) (hmark : (mark, radix) ∈ marks)
      (hdigits : IsNumeral radix digits n) :
      Denotes (sign ++ (mark ++ digits)) (if negative then -(n : Int) else n)

/-! ### Digits -/

theorem digit?_eq_some_iff {radix : Nat} (h16 : radix ≤ 16) {c : Char} {d : Nat} :
    digit? radix c = some d ↔ IsDigit radix c d := by
  unfold digit? IsDigit
  simp only [Option.filter_eq_some_iff, decide_eq_true_eq, and_comm (b := d < radix),
    Bool.and_eq_true]
  refine and_congr_right fun hd => ?_
  -- Sixteen digits are left, each of them one character, or two for a letter.
  have hlt : d < 16 := hd.trans_le h16
  clear hd
  constructor
  · intro h
    have hchar {k : Nat} (hk : c.toNat = d + k) : c = Char.ofNat (d + k) := by
      rw [← hk, Char.ofNat_toNat]
    split_ifs at h with h0 ha hA <;> simp only [Option.some.injEq] at h
    · have hlt : d < 10 := by omega
      rw [hchar (k := 48) (by omega)]
      clear h h0
      interval_cases d <;> exact .inl rfl
    · have hle : 10 ≤ d := by omega
      rw [hchar (k := 87) (by omega)]
      clear h h0 ha
      interval_cases d <;> exact .inl rfl
    · have hle : 10 ≤ d := by omega
      rw [hchar (k := 55) (by omega)]
      clear h h0 ha hA
      interval_cases d <;> exact .inr rfl
  · rintro (h | h)
    · interval_cases d <;> cases h <;> rfl
    · interval_cases d <;> cases h <;> rfl

/-- The digits are read from the left, and each moves those before it up by one place. -/
theorem ofDigitsFrom_eq_some_iff {radix : Nat} (h16 : radix ≤ 16) {start n : Nat} {digits : List Char} :
    ofDigitsFrom radix start digits = some n ↔
      ∃ values, List.Forall₂ (IsDigit radix) digits values ∧
        n = start * radix ^ values.length + Nat.ofDigits radix values.reverse := by
  induction digits generalizing start with
  | nil => simp [ofDigitsFrom, eq_comm]
  | cons c rest ih =>
    simp only [ofDigitsFrom, Option.bind_eq_some_iff, digit?_eq_some_iff h16, ih,
      List.forall₂_cons_left_iff]
    have hplace (d : Nat) (values : List Nat) :
        (start * radix + d) * radix ^ values.length + Nat.ofDigits radix values.reverse =
          start * radix ^ (d :: values).length + Nat.ofDigits radix (d :: values).reverse := by
      rw [Nat.ofDigits_reverse_cons, List.length_cons, pow_succ]
      ring
    constructor
    · rintro ⟨d, hd, values, hvalues, rfl⟩
      exact ⟨d :: values, ⟨d, values, hd, hvalues, rfl⟩, hplace d values⟩
    · rintro ⟨_, ⟨d, values, hd, hvalues, rfl⟩, rfl⟩
      exact ⟨d, hd, values, hvalues, (hplace d values).symm⟩

theorem ofDigits?_eq_some_iff {radix : Nat} (h16 : radix ≤ 16) {n : Nat} {digits : List Char} :
    ofDigits? radix digits = some n ↔ IsNumeral radix digits n := by
  unfold ofDigits? IsNumeral
  cases digits with
  | nil => simp
  | cons c rest => simp [ofDigitsFrom_eq_some_iff h16]

/-! ### Marks and signs -/

theorem radix_le_of_mem_marks {mark : List Char} {radix : Nat} (h : (mark, radix) ∈ marks) :
    radix ≤ 16 := by
  have hall : ∀ m ∈ marks, m.2 ≤ 16 := by decide
  exact hall _ h

/-- Decimal digits are not mistaken for a mark. -/
theorem magnitude?_of_decimal {body : List Char} {n : Nat} (h : ofDigits? 10 body = some n) :
    magnitude? body = some n := by
  unfold magnitude?
  split
  -- The letter of a mark is no decimal digit.
  iterate 6 exact nomatch h
  exact h

theorem magnitude?_mark {mark digits : List Char} {radix n : Nat} (hmark : (mark, radix) ∈ marks)
    (h : ofDigits? radix digits = some n) : magnitude? (mark ++ digits) = some n := by
  simp only [marks, List.mem_cons, Prod.mk.injEq, List.not_mem_nil, or_false] at hmark
  rcases hmark with ⟨rfl, rfl⟩ | ⟨rfl, rfl⟩ | ⟨rfl, rfl⟩ | ⟨rfl, rfl⟩ | ⟨rfl, rfl⟩ | ⟨rfl, rfl⟩ |
    ⟨rfl, rfl⟩
  · exact magnitude?_of_decimal h
  all_goals exact h

theorem exists_mark (body : List Char) :
    ∃ mark radix digits, (mark, radix) ∈ marks ∧ body = mark ++ digits ∧
      magnitude? body = ofDigits? radix digits := by
  unfold magnitude?
  split
  case h_1 digits => exact ⟨['0', 'x'], 16, digits, by simp [marks], rfl, rfl⟩
  case h_2 digits => exact ⟨['0', 'X'], 16, digits, by simp [marks], rfl, rfl⟩
  case h_3 digits => exact ⟨['0', 'b'], 2, digits, by simp [marks], rfl, rfl⟩
  case h_4 digits => exact ⟨['0', 'B'], 2, digits, by simp [marks], rfl, rfl⟩
  case h_5 digits => exact ⟨['0', 'o'], 8, digits, by simp [marks], rfl, rfl⟩
  case h_6 digits => exact ⟨['0', 'O'], 8, digits, by simp [marks], rfl, rfl⟩
  case h_7 => exact ⟨[], 10, body, by simp [marks], rfl, rfl⟩

theorem magnitude?_eq_some_iff {body : List Char} {n : Nat} :
    magnitude? body = some n ↔ ∃ mark radix digits, (mark, radix) ∈ marks ∧
      IsNumeral radix digits n ∧ body = mark ++ digits := by
  constructor
  · intro h
    obtain ⟨mark, radix, digits, hmark, hbody, hread⟩ := exists_mark body
    have hdigits : IsNumeral radix digits n :=
      (ofDigits?_eq_some_iff (radix_le_of_mem_marks hmark)).mp (hread ▸ h)
    exact ⟨mark, radix, digits, hmark, hdigits, hbody⟩
  · rintro ⟨mark, radix, digits, hmark, hdigits, rfl⟩
    exact magnitude?_mark hmark
      ((ofDigits?_eq_some_iff (radix_le_of_mem_marks hmark)).mpr hdigits)

theorem exists_sign (text : List Char) :
    ∃ sign, (sign, (Ieee.splitSign text).1) ∈ signs ∧ text = sign ++ (Ieee.splitSign text).2 := by
  unfold Ieee.splitSign
  split
  case h_1 => exact ⟨['-'], by simp [signs], rfl⟩
  case h_2 => exact ⟨['+'], by simp [signs], rfl⟩
  case h_3 => exact ⟨[], by simp [signs], rfl⟩

/-- No magnitude begins with a sign, so that there is one way to take the sign off. -/
theorem splitSign_append {sign body : List Char} {negative : Bool} {n : Nat}
    (hsign : (sign, negative) ∈ signs) (hbody : magnitude? body = some n) :
    Ieee.splitSign (sign ++ body) = (negative, body) := by
  simp only [signs, List.mem_cons, Prod.mk.injEq, List.not_mem_nil, or_false] at hsign
  rcases hsign with ⟨rfl, rfl⟩ | ⟨rfl, rfl⟩ | ⟨rfl, rfl⟩
  · rw [List.nil_append]
    unfold Ieee.splitSign
    split
    · exact nomatch hbody
    · exact nomatch hbody
    · rfl
  · rfl
  · rfl

theorem denotes_iff {text : List Char} {v : Int} :
    Denotes text v ↔ ∃ n, magnitude? (Ieee.splitSign text).2 = some n ∧
      v = if (Ieee.splitSign text).1 then -(n : Int) else n := by
  constructor
  · rintro ⟨hsign, hmark, hdigits⟩
    have hbody := magnitude?_eq_some_iff.mpr ⟨_, _, _, hmark, hdigits, rfl⟩
    rw [splitSign_append hsign hbody]
    exact ⟨_, hbody, rfl⟩
  · rintro ⟨n, hbody, rfl⟩
    obtain ⟨sign, hsign, htext⟩ := exists_sign text
    obtain ⟨mark, radix, digits, hmark, hdigits, hrest⟩ := magnitude?_eq_some_iff.mp hbody
    have hliteral := Denotes.literal hsign hmark hdigits
    rwa [← hrest, ← htext] at hliteral

instance (text : List Char) (v : Int) : Decidable (Denotes text v) :=
  decidable_of_iff
    (∃ n ∈ magnitude? (Ieee.splitSign text).2, v = if (Ieee.splitSign text).1 then -(n : Int) else n)
    denotes_iff.symm

example : Denotes "-0X1f".toList (-31) := by decide
example : ¬Denotes "+-5".toList (-5) := by decide

/-- A text is a literal of one number at most. -/
theorem Denotes.unique {text : List Char} {v w : Int} (hv : Denotes text v) (hw : Denotes text w) :
    v = w := by
  obtain ⟨n, hn, rfl⟩ := denotes_iff.mp hv
  obtain ⟨m, hm, rfl⟩ := denotes_iff.mp hw
  rw [Option.some.inj (hn.symm.trans hm)]

/-! ### Literals -/

theorem literal?_eq (text : List Char) :
    literal? text = ((magnitude? (Ieee.splitSign text).2).filter (· ≤ maxLiteral)).map
      fun n : Nat => if (Ieee.splitSign text).1 then -(n : Int) else n := by
  have hmap (f : Int → Int) (x : Option Nat) :
      (x >>= fun n => pure (n : Int)).map f = x.map fun n : Nat => f n := by
    cases x <;> rfl
  exact hmap (fun n => if (Ieee.splitSign text).1 then -n else n) _

theorem maxLiteral_eq : maxLiteral = 2 ^ 127 - 1 := rfl

theorem natAbs_le_maxLiteral_iff {v : Int} : v.natAbs ≤ maxLiteral ↔ |v| ≤ 2 ^ 127 - 1 := by
  rw [maxLiteral_eq, Int.abs_eq_natAbs]
  omega

/-- A literal is read as the number that it stands for, if that has no more than 127 bits. -/
theorem literal?_eq_some_iff {text : List Char} {v : Int} :
    literal? text = some v ↔ Denotes text v ∧ |v| ≤ 2 ^ 127 - 1 := by
  have hsize (negative : Bool) (n : Nat) : (if negative then -(n : Int) else n).natAbs = n := by
    cases negative <;> simp
  rw [literal?_eq, denotes_iff, ← natAbs_le_maxLiteral_iff]
  constructor
  · intro h
    obtain ⟨n, hn, rfl⟩ := Option.map_eq_some_iff.mp h
    obtain ⟨hbody, hle⟩ := Option.filter_eq_some_iff.mp hn
    refine ⟨⟨n, hbody, rfl⟩, ?_⟩
    rw [hsize]
    exact of_decide_eq_true hle
  · rintro ⟨⟨n, hbody, rfl⟩, hle⟩
    rw [hsize] at hle
    exact Option.map_eq_some_iff.mpr
      ⟨n, Option.filter_eq_some_iff.mpr ⟨hbody, decide_eq_true hle⟩, rfl⟩

/-! ### Texts of numbers -/

theorem isNumeral_toDigits {radix : Nat} (h1 : 1 < radix) (h16 : radix ≤ 16) (n : Nat) :
    IsNumeral radix (Nat.toDigits radix n) n :=
  (ofDigits?_eq_some_iff h16).mp (ofDigits?_toDigits h1 h16 n)

theorem plain_mem_signs : ([], false) ∈ signs := by simp [signs]

theorem minus_mem_signs : (['-'], true) ∈ signs := by simp [signs]

/-- Decimal text is a literal of its number. -/
theorem denotes_toString (v : Int) : Denotes (toString v).toList v := by
  have hmark : ([], 10) ∈ marks := by simp [marks]
  cases v with
  | ofNat n =>
    have htext : (toString (Int.ofNat n)).toList = Nat.toDigits 10 n := String.toList_ofList
    rw [htext]
    exact .literal plain_mem_signs hmark (isNumeral_toDigits (by decide) (by decide) n)
  | negSucc n =>
    have htext : (toString (Int.negSucc n)).toList = '-' :: Nat.toDigits 10 (n + 1) := by
      change ("-" ++ String.ofList (Nat.toDigits 10 (n + 1))).toList = _
      simp only [String.toList_append, String.toList_ofList]
      rfl
    rw [htext]
    exact .literal minus_mem_signs hmark (isNumeral_toDigits (by decide) (by decide) (n + 1))

/-- Signed hexadecimal text is a literal of its number. -/
theorem denotes_hexSigned (v : Int) : Denotes (Text.hexSigned v).toList v := by
  have hmark : (['0', 'x'], 16) ∈ marks := by simp [marks]
  cases v with
  | ofNat n =>
    rw [Int.ofNat_eq_natCast, toList_hexSigned_ofNat]
    exact .literal plain_mem_signs hmark (isNumeral_toDigits (by decide) (by decide) n)
  | negSucc n =>
    rw [toList_hexSigned_negSucc]
    exact .literal minus_mem_signs hmark (isNumeral_toDigits (by decide) (by decide) (n + 1))

/-- Signed hexadecimal text is read back, up to the greatest literal. -/
theorem literal?_hexSigned {n : Int} (h : n.natAbs ≤ maxLiteral) :
    literal? (Text.hexSigned n).toList = some n :=
  literal?_eq_some_iff.mpr ⟨denotes_hexSigned n, natAbs_le_maxLiteral_iff.mp h⟩

end RiscvToolkit.Numeral
