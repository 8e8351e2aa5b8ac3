import RiscvToolkit.Machine.Step

/-!
The fetch-execute cycle as a machine goes through it, one change after the other. A fault takes nothing
back: an instruction that faults has left no trace only if it does nothing before all of its accesses.
-/
namespace RiscvToolkit

/-- A machine and the console that it talks to. -/
structure Hart where
  machine : Machine
  console : Console

/-- Work on a hart. What was done before a fault stays done. -/
abbrev Action := EStateM Fault Hart

namespace Action

def pc : Action UInt64 :=
  return (← get).machine.pc

def jump (target : UInt64) : Action Unit :=
  modify fun h => { h with machine.pc := target }

/-- Goes on behind the instruction. -/
def advance : Action Unit := do
  jump ((← pc) + 4)

def readRegister (r : Reg) : Action UInt64 :=
  return (← get).machine.regs.get r

def writeRegister (r : Reg) (value : UInt64) : Action Unit :=
  modify fun h => { h with machine.regs := h.machine.regs.set r value }

def send (event : Event) : Action Unit :=
  modify fun h => { h with console := h.console.send [event] }

def halt : Action Unit :=
  modify fun h => { h with machine.halted := true }

/-- Makes a failed access a fault. -/
def access {α : Type} (memory : Memory → Except AccessError α) : Action α := do
  match memory (← get).machine.memory with
  | .ok a => return a
  | .error e => throw (.memory e)

def store (op : Store) (addr value : UInt64) : Action Unit := do
  let memory ← access fun m => m.write op.width addr value
  modify fun h => { h with machine.memory := memory }

/-- The environment call whose number is in `a7`, with its argument in `a0`. Tells whether a run may go
on. -/
def environmentCall : Action Bool := do
  let number ← readRegister .a7
  let arg ← readRegister .a0
  let more ←
    match number.toNat with
    | 1 => do
      send (.output (toString arg.toInt64.toInt))
      pure true
    | 4 => do
      let bytes ← access fun m => m.cString arg
      send (.output (Machine.latin1 bytes))
      pure true
    | 10 => do
      halt
      send (.output Machine.exitNotice)
      send .halted
      pure false
    | 11 => do
      send (.output (Machine.latin1 [arg.toUInt8]))
      pure true
    | _ => throw (.unknownSyscall number)
  advance
  return more

/-- Executes an instruction. Tells whether a run may go on. -/
def perform : Instruction → Action Bool
  | .arith op rd rs1 rs2 => do
    let a ← readRegister rs1
    let b ← readRegister rs2
    writeRegister rd (op.eval a b)
    advance
    return true
  | .arithImm op rd rs1 imm => do
    let a ← readRegister rs1
    writeRegister rd (op.eval a imm)
    advance
    return true
  | .load op rd base offset => do
    let addr := (← readRegister base) + offset
    let value ← access fun m => m.read op.width addr
    writeRegister rd (op.extend value)
    advance
    return true
  | .store op source base offset => do
    let addr := (← readRegister base) + offset
    store op addr (← readRegister source)
    advance
    return true
  | .branch op rs1 rs2 offset => do
    let a ← readRegister rs1
    let b ← readRegister rs2
    if op.holds a b then jump ((← pc) + offset) else advance
    return true
  | .jal rd offset => do
    let link := (← pc) + 4
    jump ((← pc) + offset)
    writeRegister rd link
    return true
  | .jalr rd base offset => do
    let link := (← pc) + 4
    let target := (← readRegister base) + offset
    jump target
    writeRegister rd link
    return true
  | .lui rd imm => do
    writeRegister rd imm
    advance
    return true
  | .auipc rd imm => do
    let value := (← pc) + imm
    writeRegister rd value
    advance
    return true
  | .ecall => environmentCall
  | .ebreak => do
    advance
    return false

/-- Makes register 0 zero again. -/
def clearZero : Action Unit :=
  modify fun h => { h with machine.regs := h.machine.regs.put .zero 0 }

/-- Fetches, decodes and executes one instruction. Tells whether a run may go on. A halted machine stays
as it is. -/
def cycle : Action Bool := do
  if (← get).machine.halted then return false
  let addr ← pc
  let word ← access fun m => m.readWord addr
  match Instruction.ofWord? word with
  | none => throw (.unknownInstruction word)
  | some i => try perform i finally clearZero

end Action

end RiscvToolkit
