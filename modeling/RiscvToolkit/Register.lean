import RiscvToolkit.Text.Hex

/-! Registers and register files. -/
namespace RiscvToolkit

/-- A register number. -/
abbrev Reg := Fin 32

namespace Reg

/-- The number modulo thirty-two. -/
def ofNat (n : Nat) : Reg :=
  Fin.ofNat 32 n

/-- The number in the low five bits. -/
def ofBits (bits : UInt32) : Reg :=
  ofNat bits.toNat

/-- The register that is always zero. -/
def zero : Reg := 0

/-- The stack pointer. -/
def sp : Reg := 2

/-- The argument of an environment call. -/
def a0 : Reg := 10

/-- The number of an environment call. -/
def a7 : Reg := 17

end Reg

inductive RegClass where
  | int | float
  deriving DecidableEq, Repr

/-- A register named in a program. -/
structure Register where
  index : Reg
  regClass : RegClass
  deriving DecidableEq, Repr

/-- Thirty-two cells of 64 bits. -/
structure RegisterFile where
  cells : Vector UInt64 32
  deriving DecidableEq, Repr

namespace RegisterFile

/-- All registers zero. -/
def zero : RegisterFile := ⟨Vector.replicate 32 0⟩

def get (file : RegisterFile) (r : Reg) : UInt64 :=
  file.cells[r]

/-- Overwrites a cell, register 0 too. -/
def put (file : RegisterFile) (r : Reg) (value : UInt64) : RegisterFile :=
  ⟨file.cells.set r value⟩

/-- Writes a register; a write to register 0 is dropped. -/
def set (file : RegisterFile) (r : Reg) (value : UInt64) : RegisterFile :=
  if r = 0 then file else file.put r value

/-- The single-precision bits in the low half of a cell. -/
def single (file : RegisterFile) (r : Reg) : UInt32 :=
  (file.get r).toUInt32

/-- Stores single-precision bits and clears the high half of the cell. -/
def putSingle (file : RegisterFile) (r : Reg) (bits : UInt32) : RegisterFile :=
  file.put r bits.toUInt64

/-- All cells under the names of their registers, four in a row. -/
def table (file : RegisterFile) (name : Reg → String) : String :=
  let cell (r : Reg) : String :=
    Text.padLeft 6 (name r) ++ ": 0x" ++ Text.hexPadded 16 (file.get r).toNat ++ "  "
  let rows := (List.finRange 32).map fun r =>
    (if r.val % 4 = 0 then "  " else "") ++ cell r ++ if r.val % 4 = 3 then "\n" else ""
  "reg_file \x7b\n" ++ String.join rows ++ "\x7d"

theorem get_zero (r : Reg) : zero.get r = 0 := by
  simp [zero, get]

theorem get_put (file : RegisterFile) (r s : Reg) (value : UInt64) :
    (file.put r value).get s = if r = s then value else file.get s := by
  simp [put, get, Vector.getElem_set, Fin.ext_iff]

theorem get_set (file : RegisterFile) (r s : Reg) (value : UInt64) :
    (file.set r value).get s = if r = s ∧ r ≠ 0 then value else file.get s := by
  unfold set
  by_cases h : r = 0
  · simp [h]
  · simp [h, get_put]

end RegisterFile

end RiscvToolkit
