/-! Hexadecimal text. -/
namespace RiscvToolkit.Text

/-- Lower-case digits without leading zeros. -/
def hexDigits (n : Nat) : String :=
  String.ofList (Nat.toDigits 16 n)

/-- Lower-case digits, filled up with zeros on the left to `width`. -/
def hexPadded (width n : Nat) : String :=
  let digits := Nat.toDigits 16 n
  String.ofList (List.replicate (width - digits.length) '0' ++ digits)

/-- A signed number, the minus sign in front of `0x`. -/
def hexSigned (n : Int) : String :=
  match n with
  | .ofNat n => "0x" ++ hexDigits n
  | .negSucc n => "-0x" ++ hexDigits (n + 1)

/-- The text filled up with spaces on the left. -/
def padLeft (width : Nat) (s : String) : String :=
  String.ofList (List.replicate (width - s.length) ' ') ++ s

/-- The text filled up with spaces on the right. -/
def padRight (width : Nat) (s : String) : String :=
  s ++ String.ofList (List.replicate (width - s.length) ' ')

example : hexPadded 8 0x400000 = "00400000" := by decide
example : hexSigned (-10) = "-0xa" := by decide

end RiscvToolkit.Text
