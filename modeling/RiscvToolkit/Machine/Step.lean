import RiscvToolkit.Console
import RiscvToolkit.Instruction.Basic
import RiscvToolkit.Machine.Basic

/-!
Execution of one instruction. `step` either gives the whole next state or a fault; a fault leaves
nothing behind. All arithmetic is modulo `2 ^ 64`.
-/
namespace RiscvToolkit

def Arith.eval (op : Arith) (a b : UInt64) : UInt64 :=
  match op with
  | add => a + b
  | sub => a - b
  -- shifts take the amount modulo 64
  | sll => a <<< b
  | srl => a >>> b
  | sra => (a.toInt64 >>> b.toInt64).toUInt64
  | slt => if a.toInt64 < b.toInt64 then 1 else 0
  | sltu => if a < b then 1 else 0
  | xor => a ^^^ b
  | or => a ||| b
  | and => a &&& b

def ArithImm.eval (op : ArithImm) (a imm : UInt64) : UInt64 :=
  match op with
  | addi => Arith.add.eval a imm
  | slti => Arith.slt.eval a imm
  | sltiu => Arith.sltu.eval a imm
  | xori => Arith.xor.eval a imm
  | ori => Arith.or.eval a imm
  | andi => Arith.and.eval a imm
  | slli => Arith.sll.eval a imm
  | srli => Arith.srl.eval a imm
  | srai => Arith.sra.eval a imm
  | addiw => signExtend32 (a + imm).toUInt32

/-- What a load puts into its register for the bytes it read. -/
def Load.extend (op : Load) (value : UInt64) : UInt64 :=
  match op with
  | lb => signExtend value 8
  | lh => signExtend value 16
  | lw => signExtend value 32
  | ld | lbu | lhu => value

/-- True if the branch is taken. -/
def Branch.holds (op : Branch) (a b : UInt64) : Bool :=
  match op with
  | beq => a = b
  | bne => a ≠ b
  | blt => a.toInt64 < b.toInt64
  | bge => b.toInt64 ≤ a.toInt64
  | bltu => a < b
  | bgeu => b ≤ a

/-- What an executed instruction leaves: the next state, what it told the host, and whether a run may
go on. -/
structure Executed where
  machine : Machine
  events : List Event
  more : Bool

namespace Machine

/-- One character for each byte, the code point being the byte. -/
def latin1 (bytes : List UInt8) : String :=
  String.ofList (bytes.map fun b => Char.ofNat b.toNat)

/-- The text that the exit call prints. -/
def exitNotice : String := "\n-- program is finished running (0) --\n\n"

/-- A step that goes on in the next state and tells the host nothing. -/
def quiet (m : Machine) : Executed := ⟨m, [], true⟩

/-- Writes a register and goes on behind the instruction. -/
def writeBack (m : Machine) (rd : Reg) (value : UInt64) : Executed :=
  quiet { m with regs := m.regs.set rd value, pc := m.pc + 4 }

/-- The environment call whose number is in `a7`, with its argument in `a0`. -/
def environmentCall (m : Machine) : Except Fault Executed :=
  let number := m.regs.get .a7
  let arg := m.regs.get .a0
  let next := { m with pc := m.pc + 4 }
  match number.toNat with
  | 1 => .ok ⟨next, [.output (toString arg.toInt64.toInt)], true⟩
  | 4 =>
    match m.memory.cString arg with
    | .ok bytes => .ok ⟨next, [.output (latin1 bytes)], true⟩
    | .error e => .error (.memory e)
  | 10 => .ok ⟨{ next with halted := true }, [.output exitNotice, .halted], false⟩
  | 11 => .ok ⟨next, [.output (latin1 [arg.toUInt8])], true⟩
  | _ => .error (.unknownSyscall number)

/-- Executes an instruction. -/
def execute (m : Machine) : Instruction → Except Fault Executed
  | .arith op rd rs1 rs2 => .ok (m.writeBack rd (op.eval (m.regs.get rs1) (m.regs.get rs2)))
  | .arithImm op rd rs1 imm => .ok (m.writeBack rd (op.eval (m.regs.get rs1) imm))
  | .load op rd base offset =>
    match m.memory.read op.width (m.regs.get base + offset) with
    | .ok value => .ok (m.writeBack rd (op.extend value))
    | .error e => .error (.memory e)
  | .store op source base offset =>
    match m.memory.write op.width (m.regs.get base + offset) (m.regs.get source) with
    | .ok memory => .ok (quiet { m with memory, pc := m.pc + 4 })
    | .error e => .error (.memory e)
  | .branch op rs1 rs2 offset =>
    let taken := op.holds (m.regs.get rs1) (m.regs.get rs2)
    .ok (quiet { m with pc := m.pc + if taken then offset else 4 })
  | .jal rd offset =>
    .ok (quiet { m with pc := m.pc + offset, regs := m.regs.set rd (m.pc + 4) })
  -- the target keeps its lowest bit
  | .jalr rd base offset =>
    .ok (quiet { m with pc := m.regs.get base + offset, regs := m.regs.set rd (m.pc + 4) })
  | .lui rd imm => .ok (m.writeBack rd imm)
  | .auipc rd imm => .ok (m.writeBack rd (m.pc + imm))
  | .ecall => m.environmentCall
  | .ebreak => .ok ⟨{ m with pc := m.pc + 4 }, [], false⟩

/-- Fetches, decodes and executes one instruction. A halted machine stays as it is. -/
def step (m : Machine) : Except Fault Executed :=
  if m.halted then .ok ⟨m, [], false⟩
  else
    match m.memory.readWord m.pc with
    | .error e => .error (.memory e)
    | .ok word =>
      match Instruction.ofWord? word with
      | none => .error (.unknownInstruction word)
      | some i => m.execute i

end Machine

end RiscvToolkit
