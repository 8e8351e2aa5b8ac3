import RiscvToolkit.Ieee.Format

/-! Numbers with a fixed count of decimal places, a half going to the even neighbour. -/
namespace RiscvToolkit.Ieee

/-- The text of a datum of format `F` with `places` digits behind the point. -/
def Datum.fixed (F : Format) (places : Nat) : Datum → String
  | .nan => "NaN"
  | .infinite negative => if negative then "-inf" else "inf"
  | .finite negative m k =>
    let unit := Nat.pow 10 places
    let scaled := roundHalfEven (m <<< k * unit) (1 <<< F.scale)
    let fraction := Nat.toDigits 10 (scaled % unit)
    (if negative then "-" else "") ++ toString (scaled / unit) ++ "." ++
      String.ofList (List.replicate (places - fraction.length) '0' ++ fraction)

example : (binary32.decode 0x3fc00000).fixed binary32 4 = "1.5000" := by decide +kernel

end RiscvToolkit.Ieee
