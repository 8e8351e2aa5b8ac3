import RiscvToolkit.Numeral.Digits

/-!
Integer literals of a source line: an optional sign, then decimal digits or a prefix `0x`, `0b` or
`0o` in either case with digits of its radix. The magnitude is below `2 ^ 127`.
-/
namespace RiscvToolkit.Numeral

/-- The largest magnitude of a literal. -/
def maxLiteral : Nat := (1 <<< 127) - 1

/-- The magnitude that follows the sign. -/
def magnitude? : List Char → Option Nat
  | '0' :: 'x' :: digits | '0' :: 'X' :: digits => ofDigits? 16 digits
  | '0' :: 'b' :: digits | '0' :: 'B' :: digits => ofDigits? 2 digits
  | '0' :: 'o' :: digits | '0' :: 'O' :: digits => ofDigits? 8 digits
  | digits => ofDigits? 10 digits

/-- The value of an integer literal. -/
def literal? (text : List Char) : Option Int :=
  let (negative, body) :=
    match text with
    | '-' :: body => (true, body)
    | '+' :: body => (false, body)
    | body => (false, body)
  ((magnitude? body).filter (· ≤ maxLiteral)).map fun n => if negative then -(n : Int) else n

example : literal? "-0x10".toList = some (-16) := by decide
example : literal? "+-5".toList = none := by decide
example : literal? "0x".toList = none := by decide

end RiscvToolkit.Numeral
