import RiscvToolkit.Memory.Basic

/-! Settings of an emulator. -/
namespace RiscvToolkit.Emulator

structure Config where
  stackSize : Nat
  /-- How many steps can be undone. -/
  historyCapacity : Nat
  /-- How many instructions a run executes before it yields. -/
  burstSteps : Nat
  initStackPointer : Bool
  deriving DecidableEq, Repr

namespace Config

def default : Config where
  stackSize := defaultStackSize
  historyCapacity := 1000
  burstSteps := 10000
  initStackPointer := true

/-- Asks for a stack of `size` bytes, rounded up to a multiple of 4 in 64-bit arithmetic and limited to
what the stack may have. -/
def withStackSize (c : Config) (size : UInt64) : Config :=
  { c with stackSize := min (((size + 3) >>> 2) <<< 2).toNat segmentSize }

def withHistoryCapacity (c : Config) (capacity : Nat) : Config :=
  { c with historyCapacity := capacity }

/-- A burst has at least one step. -/
def withBurstSteps (c : Config) (steps : Nat) : Config :=
  { c with burstSteps := max steps 1 }

def withInitStackPointer (c : Config) (enable : Bool) : Config :=
  { c with initStackPointer := enable }

end Config

end RiscvToolkit.Emulator
