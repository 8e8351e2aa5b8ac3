import RiscvToolkit.Ieee.Format

/-!
The shortest decimal that reads back. For a growing number of digits the two neighbours of a number on
that decimal grid are tried against the interval that rounds to it; the first grid with a hit wins,
and of two hits the nearer, the upper one on a tie.
-/
namespace RiscvToolkit.Ieee

/-- A positive number `value / den` and the ends of the interval that rounds to it, over the same
denominator. -/
structure Interval where
  lower : Nat
  value : Nat
  upper : Nat
  den : Nat
  /-- Whether the ends round to the number as well. -/
  closed : Bool

namespace Interval

/-- The interval of the magnitude `m * 2 ^ k / 2 ^ F.scale`; below a power of two the grid is twice as
fine. -/
def ofMagnitude (F : Format) (m k : Nat) : Interval :=
  let below := if m = 1 <<< (F.precision - 1) ∧ 0 < k then 1 else 2
  { lower := (4 * m - below) <<< k
    value := (4 * m) <<< k
    upper := (4 * m + 2) <<< k
    den := 4 <<< F.scale
    closed := m % 2 = 0 }

/-- Whether `c * 10 ^ up / 10 ^ down` rounds to the number. -/
def contains (I : Interval) (c up down : Nat) : Bool :=
  let c := c * Nat.pow 10 up * I.den
  let lower := I.lower * Nat.pow 10 down
  let upper := I.upper * Nat.pow 10 down
  if I.closed then lower ≤ c && c ≤ upper else lower < c && c < upper

/-- The multiple of `10 ^ up / 10 ^ down` that stands for the number on that grid, if one does. -/
def onGrid? (I : Interval) (up down : Nat) : Option Nat :=
  let n := I.value * Nat.pow 10 down
  let d := I.den * Nat.pow 10 up
  let below := n / d
  match I.contains below up down, I.contains (below + 1) up down with
  | true, true => some (if 2 * (n % d) < d then below else below + 1)
  | true, false => some below
  | false, true => some (below + 1)
  | false, false => none

/-- Tries grids of `10 ^ exponent`, each ten times as fine as the one before. -/
def search (I : Interval) : Nat → Int → Option (Nat × Int)
  | 0, _ => none
  | fuel + 1, exponent =>
    match I.onGrid? exponent.toNat (-exponent).toNat with
    | some c => some (c, exponent)
    | none => search I fuel (exponent - 1)

end Interval

/-- The digits and the decimal exponent of the shortest decimal that reads back as a positive
magnitude. -/
def shortest (F : Format) (m k : Nat) : Nat × Int :=
  let I := Interval.ofMagnitude F m k
  let whole := (Nat.toDigits 10 (I.value / I.den)).length
  let start : Int := if I.den ≤ I.value then whole else -((Nat.toDigits 10 (I.den / I.value)).length : Int)
  (I.search 800 start).getD (0, 0)

/-- The number `digits * 10 ^ exponent` written without an exponent, and without a point if it is whole. -/
def positional (digits : Nat) (exponent : Int) : String :=
  match exponent with
  | .ofNat zeros => toString (digits * Nat.pow 10 zeros)
  | .negSucc n =>
    let places := n + 1
    let whole := digits / Nat.pow 10 places
    let fraction := Nat.toDigits 10 (digits % Nat.pow 10 places)
    let fraction := List.replicate (places - fraction.length) '0' ++ fraction
    let fraction := (fraction.reverse.dropWhile (· = '0')).reverse
    if fraction.isEmpty then toString whole
    else toString whole ++ "." ++ String.ofList fraction

/-- The text of a double: the fewest digits that read back, never an exponent. -/
def Double.text (x : Double) : String :=
  match x.datum with
  | .nan => "NaN"
  | .infinite negative => if negative then "-inf" else "inf"
  | .finite negative m k =>
    let (digits, exponent) := if m = 0 then (0, 0) else shortest binary64 m k
    (if negative then "-" else "") ++ positional digits exponent

end RiscvToolkit.Ieee
