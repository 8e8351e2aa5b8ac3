import RiscvToolkit.Numeral.Digits

/-!
Unsigned numbers below a bound. The digits are read from the left, and the first that is wrong or
leads past the bound gives the error.
-/
namespace RiscvToolkit.Numeral

inductive BoundedError where
  | empty
  | invalidDigit
  | overflow
  deriving DecidableEq, Repr

def BoundedError.message : BoundedError → String
  | empty => "cannot parse integer from empty string"
  | invalidDigit => "invalid digit found in string"
  | overflow => "number too large to fit in target type"

/-- Goes on reading digits after `value`. -/
def boundedFrom (radix bound value : Nat) : List Char → Except BoundedError Nat
  | [] => .ok value
  | c :: rest =>
    match digit? radix c with
    | none => .error .invalidDigit
    | some d =>
      let next := value * radix + d
      if next < bound then boundedFrom radix bound next rest else .error .overflow

/-- A number below `bound`, an optional `+` before its digits. -/
def bounded (radix bound : Nat) : List Char → Except BoundedError Nat
  | [] => .error .empty
  | '+' :: c :: rest => boundedFrom radix bound 0 (c :: rest)
  | digits => boundedFrom radix bound 0 digits

/-- One more than the greatest number of 64 bits. -/
def bound64 : Nat := 0x10000000000000000

/-- An address: decimal, or hexadecimal after `0x` or `0X`. -/
def address (text : List Char) : Except BoundedError UInt64 :=
  let value :=
    match text with
    | '0' :: 'x' :: digits | '0' :: 'X' :: digits => bounded 16 bound64 digits
    | digits => bounded 10 bound64 digits
  value.map UInt64.ofNat

example : (address "0x10".toList).toOption = some 16 := by decide
example : bounded 10 256 "256".toList = .error .overflow := by rfl

end RiscvToolkit.Numeral
