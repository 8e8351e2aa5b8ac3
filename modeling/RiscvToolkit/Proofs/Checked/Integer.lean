import RiscvToolkit.Proofs.Checked.Token
import RiscvToolkit.Proofs.Numeral.Literal

/-! Integer literals read digit by digit into 128 bits. A literal that fits is not lost on the way, one that does not is
refused, and the second sign that the reader of digits would take never gets to it. -/
namespace RiscvToolkit.Checked

/-- Goes on reading digits after `value`, upwards if `step` is 1 and downwards if it is -1. Each product and each sum
must fit into `bits` bits. -/
def wholeFrom (bits radix : Nat) (step value : Int) : List Char → Option Int
  | [] => some value
  | c :: rest => do
    let d ← Numeral.digit? radix c
    let scaled ← (signed bits (value * radix)).toOption
    let next ← (signed bits (scaled + step * d)).toOption
    wholeFrom bits radix step next rest

/-- A number of `bits` bits, with or without a sign before its digits. -/
def whole? (bits radix : Nat) : List Char → Option Int
  | [] | ['+'] | ['-'] => none
  | '+' :: digits => wholeFrom bits radix 1 0 digits
  | '-' :: digits => wholeFrom bits radix (-1) 0 digits
  | digits => wholeFrom bits radix 1 0 digits

/-- The magnitude of a literal. All digits are looked at before they are read, since `whole?` takes a sign as well. -/
def magnitude? (radix : Nat) (digits : List Char) : Option Int :=
  if digits.isEmpty || !digits.all fun c => (Numeral.digit? radix c).isSome then none
  else whole? 128 radix digits

/-- The value of an integer literal, as `literal` gives it, but with each digit read into 128 bits. -/
def integer (text : List Char) : Except Defect (Option Int) := do
  let (negative, body) ← sign text
  let (radix, digits) ← radix body
  match magnitude? radix digits with
  | none => return none
  | some n => if negative then return some (← signed 128 (-n)) else return some n

/-! ### Agreement -/

theorem signed_natCast (bits n : Nat) :
    (signed bits (n : Int)).toOption = if n < 2 ^ (bits - 1) then some (n : Int) else none := by
  have hpow : ((2 ^ (bits - 1) : Nat) : Int) = 2 ^ (bits - 1) := by push_cast; rfl
  unfold signed
  by_cases h : n < 2 ^ (bits - 1)
  · rw [if_pos h, if_pos ⟨by omega, by omega⟩]
    rfl
  · rw [if_neg h, if_neg (by omega)]
    rfl

/-- A digit behind a number does not make it smaller. -/
theorem le_mul_add_of_digit? {radix d : Nat} {c : Char} (h : Numeral.digit? radix c = some d)
    (value : Nat) : value ≤ value * radix + d := by
  have hlt : d < radix := of_decide_eq_true (Option.filter_eq_some_iff.mp h).2
  exact (Nat.le_mul_of_pos_right value (Nat.zero_lt_of_lt hlt)).trans (Nat.le_add_right _ d)

theorem le_of_ofDigitsFrom {radix start n : Nat} {digits : List Char}
    (h : Numeral.ofDigitsFrom radix start digits = some n) : start ≤ n := by
  induction digits generalizing start with
  | nil => exact (Option.some.inj h).le
  | cons c rest ih =>
    obtain ⟨d, hd, hrest⟩ := Option.bind_eq_some_iff.mp h
    exact (le_mul_add_of_digit? hd start).trans (ih hrest)

/-- Digits are read to their end just if their number fits: where the first of them do not, neither do all. -/
theorem wholeFrom_eq {bits radix value : Nat} {digits : List Char} (h : value < 2 ^ (bits - 1)) :
    wholeFrom bits radix 1 value digits =
      ((Numeral.ofDigitsFrom radix value digits).filter (· < 2 ^ (bits - 1))).map
        fun n : Nat => (n : Int) := by
  induction digits generalizing value with
  | nil => simp [wholeFrom, Numeral.ofDigitsFrom, Option.filter, h]
  | cons c rest ih =>
    rw [wholeFrom, Numeral.ofDigitsFrom]
    cases hd : Numeral.digit? radix c with
    | none => rfl
    | some d =>
      have hscaled : (value : Int) * radix = (value * radix : Nat) := by push_cast; rfl
      have hnext : ((value * radix : Nat) : Int) + 1 * d = (value * radix + d : Nat) := by
        push_cast
        ring
      simp only [Option.bind_eq_bind, Option.bind_some, hscaled, signed_natCast]
      by_cases hfits : value * radix + d < 2 ^ (bits - 1)
      · have hle : value * radix < 2 ^ (bits - 1) := by omega
        rw [if_pos hle, Option.bind_some, hnext, signed_natCast, if_pos hfits, Option.bind_some]
        exact ih hfits
      -- The digits that follow make the number no smaller, so it does not fit either.
      · have hnone : (Numeral.ofDigitsFrom radix (value * radix + d) rest).filter
            (· < 2 ^ (bits - 1)) = none := by
          rw [Option.filter_eq_none_iff]
          intro n hn
          have hle := le_of_ofDigitsFrom hn
          simp only [decide_eq_true_eq]
          omega
        rw [hnone]
        split_ifs with hle
        · rw [Option.bind_some, hnext, signed_natCast, if_neg hfits]
          rfl
        · rfl

theorem whole?_of_digit {bits radix : Nat} {c : Char} {rest : List Char}
    (h : (Numeral.digit? radix c).isSome) :
    whole? bits radix (c :: rest) = wholeFrom bits radix 1 0 (c :: rest) := by
  have hplus : c ≠ '+' := by
    rintro rfl
    exact nomatch h
  have hminus : c ≠ '-' := by
    rintro rfl
    exact nomatch h
  unfold whole?
  split <;> simp_all

theorem all_digit_of_ofDigitsFrom {radix start n : Nat} {digits : List Char}
    (h : Numeral.ofDigitsFrom radix start digits = some n) :
    digits.all fun c => (Numeral.digit? radix c).isSome := by
  induction digits generalizing start with
  | nil => rfl
  | cons c rest ih =>
    obtain ⟨d, hd, hrest⟩ := Option.bind_eq_some_iff.mp h
    rw [List.all_cons, hd, ih hrest]
    rfl

/-- All digits are looked at before, so that none of them is a sign. -/
theorem magnitude?_eq (radix : Nat) (digits : List Char) :
    magnitude? radix digits =
      ((Numeral.ofDigits? radix digits).filter (· ≤ Numeral.maxLiteral)).map
        fun n : Nat => (n : Int) := by
  cases digits with
  | nil => rfl
  | cons c rest =>
    change _ = ((Numeral.ofDigitsFrom radix 0 (c :: rest)).filter _).map _
    by_cases hall : (c :: rest).all fun c => (Numeral.digit? radix c).isSome
    · have hc : (Numeral.digit? radix c).isSome := (List.all_eq_true.mp hall) c List.mem_cons_self
      have hfits : (0 : Nat) < 2 ^ (128 - 1) := by norm_num
      have hmax (n : Nat) : n ≤ Numeral.maxLiteral ↔ n < 2 ^ (128 - 1) := by
        rw [Numeral.maxLiteral_eq]
        omega
      simp only [hmax]
      rw [magnitude?, if_neg (by simp [hall]), whole?_of_digit hc]
      exact wholeFrom_eq hfits
    · have hnone : Numeral.ofDigitsFrom radix 0 (c :: rest) = none := by
        cases h : Numeral.ofDigitsFrom radix 0 (c :: rest) with
        | none => rfl
        | some n => exact absurd (all_digit_of_ofDigitsFrom h) hall
      rw [magnitude?, if_pos (by simp [hall]), hnone]
      rfl

theorem integer_eq (text : List Char) : integer text = .ok (Numeral.literal? text) := by
  rw [← literal_eq]
  unfold integer literal
  simp only [magnitude?_eq]
  refine bind_congr fun ⟨negative, body⟩ => bind_congr fun ⟨radix, digits⟩ => ?_
  cases (Numeral.ofDigits? radix digits).filter (· ≤ Numeral.maxLiteral) <;> rfl

end RiscvToolkit.Checked

namespace RiscvToolkit.Numeral

/-- Integer literals are read exactly. Whatever the text, reading it does not break off, and gives the number that the
text stands for if it is a literal and the number takes no more than 127 bits. Decimal text of such a number and
hexadecimal text of a number of 32 bits are read back as the number. -/
theorem literals_exact :
    (∀ text : List Char, Checked.integer text = .ok (literal? text) ∧
      (∀ v, literal? text = some v ↔ Denotes text v ∧ |v| ≤ 2 ^ 127 - 1) ∧
      {v | Denotes text v}.Subsingleton) ∧
    (∀ v : Int, literal? (toString v).toList = some v ↔ |v| ≤ 2 ^ 127 - 1) ∧
    ∀ n : Int32, literal? (Text.hexSigned n.toInt).toList = some n.toInt := by
  refine ⟨fun text => ⟨Checked.integer_eq text, fun v => literal?_eq_some_iff, ?_⟩, ?_, ?_⟩
  · intro v hv w hw
    exact hv.unique hw
  · intro v
    rw [literal?_eq_some_iff, and_iff_right (denotes_toString v)]
  · intro n
    have hlower := n.le_toInt
    have hupper := n.toInt_lt
    exact literal?_hexSigned (by rw [maxLiteral_eq]; omega)

end RiscvToolkit.Numeral
