import RiscvToolkit.Instruction.Fields

/-!
Instructions that a machine executes, with their operands. Immediates are sign-extended to 64 bits;
an upper immediate stands in place.
-/
namespace RiscvToolkit

/-- Operations on two registers. -/
inductive Arith where
  | add | sub | sll | slt | sltu | xor | srl | sra | or | and
  deriving DecidableEq, Repr

/-- Operations on a register and an immediate. -/
inductive ArithImm where
  | addi | slti | sltiu | xori | ori | andi | slli | srli | srai | addiw
  deriving DecidableEq, Repr

inductive Load where
  | lb | lh | lw | ld | lbu | lhu
  deriving DecidableEq, Repr

inductive Store where
  | sb | sh | sw | sd
  deriving DecidableEq, Repr

inductive Branch where
  | beq | bne | blt | bge | bltu | bgeu
  deriving DecidableEq, Repr

inductive Instruction where
  | arith (op : Arith) (rd rs1 rs2 : Reg)
  | arithImm (op : ArithImm) (rd rs1 : Reg) (imm : UInt64)
  | load (op : Load) (rd base : Reg) (offset : UInt64)
  | store (op : Store) (source base : Reg) (offset : UInt64)
  | branch (op : Branch) (rs1 rs2 : Reg) (offset : UInt64)
  | jal (rd : Reg) (offset : UInt64)
  | jalr (rd base : Reg) (offset : UInt64)
  | lui (rd : Reg) (imm : UInt64)
  | auipc (rd : Reg) (imm : UInt64)
  | ecall
  | ebreak
  deriving DecidableEq, Repr

namespace Arith

def mnemonic : Arith → String
  | add => "add" | sub => "sub" | sll => "sll" | slt => "slt" | sltu => "sltu"
  | xor => "xor" | srl => "srl" | sra => "sra" | or => "or" | and => "and"

def ofFunct? (funct3 funct7 : UInt8) : Option Arith :=
  match funct3.toNat, funct7.toNat with
  | 0, 0x00 => some add
  | 0, 0x20 => some sub
  | 1, 0x00 => some sll
  | 2, 0x00 => some slt
  | 3, 0x00 => some sltu
  | 4, 0x00 => some xor
  | 5, 0x00 => some srl
  | 5, 0x20 => some sra
  | 6, 0x00 => some or
  | 7, 0x00 => some and
  | _, _ => none

end Arith

namespace ArithImm

def mnemonic : ArithImm → String
  | addi => "addi" | slti => "slti" | sltiu => "sltiu" | xori => "xori" | ori => "ori"
  | andi => "andi" | slli => "slli" | srli => "srli" | srai => "srai" | addiw => "addiw"

/-- The operations other than `addiw`; only the shifts look at `funct7`. -/
def ofFunct? (funct3 funct7 : UInt8) : Option ArithImm :=
  match funct3.toNat, funct7.toNat with
  | 0, _ => some addi
  | 2, _ => some slti
  | 3, _ => some sltiu
  | 4, _ => some xori
  | 6, _ => some ori
  | 7, _ => some andi
  | 1, 0x00 => some slli
  | 5, 0x00 => some srli
  | 5, 0x20 => some srai
  | _, _ => none

end ArithImm

namespace Load

def mnemonic : Load → String
  | lb => "lb" | lh => "lh" | lw => "lw" | ld => "ld" | lbu => "lbu" | lhu => "lhu"

def ofFunct? (funct3 : UInt8) : Option Load :=
  match funct3.toNat with
  | 0 => some lb
  | 1 => some lh
  | 2 => some lw
  | 3 => some ld
  | 4 => some lbu
  | 5 => some lhu
  | _ => none

def width : Load → Width
  | lb | lbu => .byte
  | lh | lhu => .half
  | lw => .word
  | ld => .dword

end Load

namespace Store

def mnemonic : Store → String
  | sb => "sb" | sh => "sh" | sw => "sw" | sd => "sd"

def ofFunct? (funct3 : UInt8) : Option Store :=
  match funct3.toNat with
  | 0 => some sb
  | 1 => some sh
  | 2 => some sw
  | 3 => some sd
  | _ => none

def width : Store → Width
  | sb => .byte
  | sh => .half
  | sw => .word
  | sd => .dword

end Store

namespace Branch

def mnemonic : Branch → String
  | beq => "beq" | bne => "bne" | blt => "blt" | bge => "bge" | bltu => "bltu" | bgeu => "bgeu"

def ofFunct? (funct3 : UInt8) : Option Branch :=
  match funct3.toNat with
  | 0 => some beq
  | 1 => some bne
  | 4 => some blt
  | 5 => some bge
  | 6 => some bltu
  | 7 => some bgeu
  | _ => none

end Branch

namespace Instruction

def mnemonic : Instruction → String
  | arith op .. => op.mnemonic
  | arithImm op .. => op.mnemonic
  | load op .. => op.mnemonic
  | store op .. => op.mnemonic
  | branch op .. => op.mnemonic
  | jal .. => "jal"
  | jalr .. => "jalr"
  | lui .. => "lui"
  | auipc .. => "auipc"
  | ecall => "ecall"
  | ebreak => "ebreak"

/-- The instruction that the fields of a word stand for, if they are in use. -/
def ofFields? (f : Fields) : Option Instruction :=
  match f.opcode with
  | .op => (Arith.ofFunct? f.funct3 f.funct7).map (arith · f.rd f.rs1 f.rs2)
  | .opImm => (ArithImm.ofFunct? f.funct3 f.funct7).map (arithImm · f.rd f.rs1 f.operand)
  | .opImm32 => if f.funct3 = 0 then some (arithImm .addiw f.rd f.rs1 f.operand) else none
  | .load => (Load.ofFunct? f.funct3).map (load · f.rd f.rs1 f.operand)
  | .store => (Store.ofFunct? f.funct3).map (store · f.rs2 f.rs1 f.operand)
  | .branch => (Branch.ofFunct? f.funct3).map (branch · f.rs1 f.rs2 f.operand)
  | .jal => some (jal f.rd f.operand)
  | .jalr => if f.funct3 = 0 then some (jalr f.rd f.rs1 f.operand) else none
  | .lui => some (lui f.rd f.operand)
  | .auipc => some (auipc f.rd f.operand)
  | .system =>
    if f.word = 0x00000073 then some ecall
    else if f.word = 0x00100073 then some ebreak
    else none

/-- The instruction that a word stands for, if any. -/
def ofWord? (word : UInt32) : Option Instruction :=
  match Fields.ofWord word with
  | .ok fields => ofFields? fields
  | .error _ => none

example : ofWord? 0x00c58533 = some (arith .add 10 11 12) := by decide
example : ofWord? 0xfff00513 = some (arithImm .addi 10 0 0xffffffffffffffff) := by decide

end Instruction

end RiscvToolkit
