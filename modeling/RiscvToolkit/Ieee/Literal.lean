import RiscvToolkit.Ieee.Format
import RiscvToolkit.Numeral.Digits

/-!
Floating-point literals: `NaN`, `Infinity`, and decimal numbers with a point or an exponent, read to
the nearest double.
-/
namespace RiscvToolkit.Ieee

/-- A sign and what follows it. -/
def splitSign : List Char → Bool × List Char
  | '-' :: rest => (true, rest)
  | '+' :: rest => (false, rest)
  | rest => (false, rest)

/-- The digits of a numeral around its point, and its exponent. -/
structure DecimalText where
  whole : List Char
  fraction : List Char
  exponent : Int

/-- The exponent after the mark, one or more digits with an optional sign. -/
def exponent? : List Char → Option Int
  | [] => some 0
  | c :: rest =>
    if c = 'e' ∨ c = 'E' then
      let (negative, digits) := splitSign rest
      (Numeral.ofDigits? 10 digits).map fun n => if negative then -(n : Int) else n
    else none

/-- Reads `12`, `12.`, `.5` or `1.5e-3`; a digit must stand before or after the point. -/
def DecimalText.ofChars? (text : List Char) : Option DecimalText :=
  let whole := text.takeWhile Char.isDigit
  let rest := text.dropWhile Char.isDigit
  let (fraction, rest) :=
    match rest with
    | '.' :: rest => (rest.takeWhile Char.isDigit, rest.dropWhile Char.isDigit)
    | rest => ([], rest)
  if whole.isEmpty && fraction.isEmpty then none
  else (exponent? rest).map fun exponent => ⟨whole, fraction, exponent⟩

/-- The bits of the double nearest to `digits * 10 ^ exponent`. Past `10 ^ 400` on either side the
digits do not matter. -/
def ofDecimal (digits : Nat) (exponent : Int) : Nat :=
  let top := exponent + (Nat.toDigits 10 digits).length
  if digits = 0 ∨ top < -400 then 0
  else if 400 < top then binary64.infinity
  else binary64.round (digits * Nat.pow 10 exponent.toNat) (Nat.pow 10 (-exponent).toNat)

def DecimalText.magnitude (t : DecimalText) : Option Nat :=
  (Numeral.ofDigitsFrom 10 0 (t.whole ++ t.fraction)).map fun digits =>
    ofDecimal digits (t.exponent - t.fraction.length)

/-- The value of a floating-point literal. -/
def literal? (text : List Char) : Option Double :=
  if text = "NaN".toList then some .nan
  else if text = "Infinity".toList ∨ text = "+Infinity".toList then some (.infinite false)
  else if text = "-Infinity".toList then some (.infinite true)
  else
    let (negative, body) := splitSign text
    (DecimalText.ofChars? body).bind fun t =>
      t.magnitude.map fun magnitude => ⟨.ofNat (binary64.withSign negative magnitude)⟩

example : literal? "1.5".toList = some ⟨0x3ff8000000000000⟩ := by decide +kernel
example : literal? "1e400".toList = some (.infinite false) := by decide +kernel
example : literal? "-.5e".toList = none := by decide +kernel

end RiscvToolkit.Ieee
