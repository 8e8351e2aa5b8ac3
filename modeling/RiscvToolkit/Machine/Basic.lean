import RiscvToolkit.Memory.Basic
import RiscvToolkit.Register

/-! The state of a machine, and the faults that stop it. -/
namespace RiscvToolkit

structure Machine where
  pc : UInt64
  regs : RegisterFile
  /-- Part of the state; no instruction uses them. -/
  floats : RegisterFile
  memory : Memory
  /-- Set by the exit call. -/
  halted : Bool

namespace Machine

/-- A machine at the start of the text region, with all registers zero. -/
def ofMemory (memory : Memory) : Machine where
  pc := UInt64.ofNat textBase
  regs := .zero
  floats := .zero
  memory
  halted := false

/-- Points the machine at its first instruction and, if asked, the stack pointer at the top of the
stack. -/
def enter (m : Machine) (entry : UInt64) (initStackPointer : Bool) : Machine :=
  let regs := if initStackPointer then m.regs.set .sp (UInt64.ofNat stackTop) else m.regs
  { m with pc := entry, regs }

end Machine

/-- Why an instruction could not be executed. -/
inductive Fault where
  | unknownInstruction (word : UInt32)
  | unknownSyscall (number : UInt64)
  | memory (error : AccessError)
  deriving DecidableEq, Repr

def Fault.message : Fault → String
  | unknownInstruction word =>
    "unknown instruction 0x" ++ Text.hexPadded 8 word.toNat ++ " (opcode 0x" ++
      Text.hexPadded 2 (word.toNat % 128) ++ ")"
  | unknownSyscall number => "unknown syscall " ++ toString number.toNat
  | memory error => error.message

end RiscvToolkit
