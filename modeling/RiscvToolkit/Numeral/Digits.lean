/-! Digits of a radix up to sixteen. -/
namespace RiscvToolkit.Numeral

/-- The value of a digit, a letter in either case counting from ten. -/
def digit? (radix : Nat) (c : Char) : Option Nat :=
  let n := c.toNat
  let value? :=
    if 48 ≤ n && n ≤ 57 then some (n - 48)
    else if 97 ≤ n && n ≤ 122 then some (n - 87)
    else if 65 ≤ n && n ≤ 90 then some (n - 55)
    else none
  value?.filter (· < radix)

/-- The number written by `digits`, with `start` as the digits before them. -/
def ofDigitsFrom (radix start : Nat) : List Char → Option Nat
  | [] => some start
  | c :: rest => (digit? radix c).bind fun d => ofDigitsFrom radix (start * radix + d) rest

/-- The number written by one or more digits and nothing else. -/
def ofDigits? (radix : Nat) (digits : List Char) : Option Nat :=
  if digits.isEmpty then none else ofDigitsFrom radix 0 digits

example : ofDigits? 16 "7fF".toList = some 0x7ff := by decide
example : ofDigits? 2 "12".toList = none := by decide
example : ofDigits? 10 [] = none := by decide

end RiscvToolkit.Numeral
