import Mathlib
import RiscvToolkit.Numeral.Digits
import RiscvToolkit.Text.Hex

/-! Digits that are written and read back. -/
namespace RiscvToolkit

namespace Numeral

theorem ofDigitsFrom_append (radix start : Nat) (xs ys : List Char) :
    ofDigitsFrom radix start (xs ++ ys) =
      (ofDigitsFrom radix start xs).bind fun value => ofDigitsFrom radix value ys := by
  induction xs generalizing start with
  | nil => rfl
  | cons c rest ih =>
    simp only [List.cons_append, ofDigitsFrom]
    cases digit? radix c with
    | none => rfl
    | some d => exact ih (start * radix + d)

theorem digit?_digitChar {radix d : Nat} (hr : radix ≤ 16) (hd : d < radix) :
    digit? radix d.digitChar = some d := by
  have h16 : d < 16 := by omega
  have hv : digit? 16 d.digitChar = some d := by
    clear hd
    interval_cases d <;> rfl
  unfold digit? at hv ⊢
  obtain ⟨hv, -⟩ := Option.filter_eq_some_iff.mp hv
  exact Option.filter_eq_some_iff.mpr ⟨hv, decide_eq_true hd⟩

/-- The last digit of a number is read last. -/
theorem ofDigitsFrom_toDigits {radix : Nat} (h1 : 1 < radix) (h16 : radix ≤ 16) (n : Nat) :
    ofDigitsFrom radix 0 (Nat.toDigits radix n) = some n := by
  induction n using Nat.strongRecOn with
  | ind n ih =>
    rw [Nat.toDigits_eq_if h1]
    split_ifs with hn
    · simp [ofDigitsFrom, digit?_digitChar h16 hn]
    · have hlt : n % radix < radix := Nat.mod_lt _ (by omega)
      have hrest := ih (n / radix) (Nat.div_lt_self (by omega) h1)
      rw [ofDigitsFrom_append, hrest, Option.bind_some, ofDigitsFrom, digit?_digitChar h16 hlt,
        Option.bind_some, ofDigitsFrom, Nat.div_add_mod']

theorem toDigits_ne_nil {radix : Nat} (h1 : 1 < radix) (n : Nat) : Nat.toDigits radix n ≠ [] := by
  rw [Nat.toDigits_eq_if h1]
  split_ifs <;> simp

/-- Digits are read back as the number that they were written for. -/
theorem ofDigits?_toDigits {radix : Nat} (h1 : 1 < radix) (h16 : radix ≤ 16) (n : Nat) :
    ofDigits? radix (Nat.toDigits radix n) = some n := by
  unfold ofDigits?
  rw [if_neg (by simp [toDigits_ne_nil h1 n]), ofDigitsFrom_toDigits h1 h16]

theorem toList_hexSigned_ofNat (n : Nat) :
    (Text.hexSigned n).toList = '0' :: 'x' :: Nat.toDigits 16 n := by
  change ("0x" ++ String.ofList (Nat.toDigits 16 n)).toList = _
  simp only [String.toList_append, String.toList_ofList]
  rfl

theorem toList_hexSigned_negSucc (n : Nat) :
    (Text.hexSigned (.negSucc n)).toList = '-' :: '0' :: 'x' :: Nat.toDigits 16 (n + 1) := by
  change ("-0x" ++ String.ofList (Nat.toDigits 16 (n + 1))).toList = _
  simp only [String.toList_append, String.toList_ofList]
  rfl

end Numeral

end RiscvToolkit
