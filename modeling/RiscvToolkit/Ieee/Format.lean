/-!
IEEE binary interchange formats. A finite magnitude is `m * 2 ^ k / 2 ^ F.scale` with a significand
`m` and a scaled exponent `k` in `Nat`; `encode` packs the two into bits, `round` chooses them for a
ratio, to nearest with ties to even.
-/
namespace RiscvToolkit.Ieee

structure Format where
  /-- Bits of the significand, the leading one included. -/
  precision : Nat
  exponentBits : Nat

def binary32 : Format := ⟨24, 8⟩
def binary64 : Format := ⟨53, 11⟩

/-- What a bit pattern stands for. -/
inductive Datum where
  | nan
  | infinite (negative : Bool)
  | finite (negative : Bool) (m k : Nat)
  deriving DecidableEq, Repr

/-- The quotient `n / d` rounded to nearest, a half to the even neighbour. -/
def roundHalfEven (n d : Nat) : Nat :=
  let q := n / d
  let r := n % d
  if d < 2 * r ∨ (2 * r = d ∧ q % 2 = 1) then q + 1 else q

namespace Format

/-- The smallest positive magnitude is `1 / 2 ^ F.scale`. -/
def scale (F : Format) : Nat :=
  (1 <<< (F.exponentBits - 1)) + F.precision - 3

/-- The bits of positive infinity. -/
def infinity (F : Format) : Nat :=
  ((1 <<< F.exponentBits) - 1) <<< (F.precision - 1)

/-- The bits of the quiet not-a-number without a payload. -/
def quietNaN (F : Format) : Nat :=
  F.infinity + (1 <<< (F.precision - 2))

def signBit (F : Format) : Nat :=
  1 <<< (F.exponentBits + F.precision - 1)

/-- The bits of the magnitude `m * 2 ^ k / 2 ^ F.scale`. A significand of `2 ^ F.precision` carries
into the exponent, and what is too large is infinite. -/
def encode (F : Format) (m k : Nat) : Nat :=
  min ((k <<< (F.precision - 1)) + m) F.infinity

/-- The bits nearest to `n / d`. -/
def round (F : Format) (n d : Nat) : Nat :=
  let n := n <<< F.scale
  let k := (n / d).log2 - (F.precision - 1)
  F.encode (roundHalfEven n (d <<< k)) k

def withSign (F : Format) (negative : Bool) (magnitude : Nat) : Nat :=
  if negative then F.signBit + magnitude else magnitude

/-- The bits nearest to an integer. -/
def ofInt (F : Format) (n : Int) : Nat :=
  F.withSign (n < 0) (F.round n.natAbs 1)

/-- What `bits` stand for. -/
def decode (F : Format) (bits : Nat) : Datum :=
  let negative := bits / F.signBit % 2 = 1
  let magnitude := bits % F.signBit
  let exponent := magnitude >>> (F.precision - 1)
  let fraction := magnitude % (1 <<< (F.precision - 1))
  if F.infinity < magnitude then .nan
  else if magnitude = F.infinity then .infinite negative
  else if exponent = 0 then .finite negative fraction 0
  else .finite negative ((1 <<< (F.precision - 1)) + fraction) (exponent - 1)

/-- The bits in format `F` nearest to what a datum of format `G` stands for. -/
def convert (F G : Format) : Datum → Nat
  | .nan => F.quietNaN
  | .infinite negative => F.withSign negative F.infinity
  | .finite negative m k => F.withSign negative (F.round (m <<< k) (1 <<< G.scale))

end Format

/-- A number in the format `binary64`, by its bits. -/
structure Double where
  bits : UInt64
  deriving DecidableEq, Repr

namespace Double

def nan : Double := ⟨.ofNat binary64.quietNaN⟩

def infinite (negative : Bool) : Double :=
  ⟨.ofNat (binary64.withSign negative binary64.infinity)⟩

def ofInt (n : Int) : Double :=
  ⟨.ofNat (binary64.ofInt n)⟩

def datum (x : Double) : Datum :=
  binary64.decode x.bits.toNat

/-- The bits of the nearest number in the format `binary32`. -/
def toSingle (x : Double) : UInt32 :=
  .ofNat (binary32.convert binary64 x.datum)

end Double

example : (Double.ofInt 1).bits = 0x3ff0000000000000 := by decide +kernel
example : (Double.ofInt (-3)).toSingle = 0xc0400000 := by decide +kernel

end RiscvToolkit.Ieee
