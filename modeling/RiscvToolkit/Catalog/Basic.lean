import RiscvToolkit.Register

/-!
Instruction catalogs: the mnemonics with their encodings and operands, and the names of the registers.
`find?` and `register?` look names up; `reg` gives the name that a register is printed under.
-/
namespace RiscvToolkit

/-- The operands of an instruction with a 12-bit immediate. -/
inductive ImmediateOperands where
  /-- Operands `rd, rs1, imm`. -/
  | immediate (rd rs1 : RegClass)
  /-- Operands `rd, rs1, amount`, with `funct7` above the amount. -/
  | shift (rd rs1 : RegClass) (funct7 : UInt8)
  /-- Operands `rd, offset(base)` or `rd, label`. -/
  | offset (rd : RegClass)
  deriving DecidableEq, Repr

/-- How a mnemonic is encoded. -/
inductive Encoding where
  | r (opcode funct3 funct7 : UInt8) (rd rs1 rs2 : RegClass)
  | i (opcode funct3 : UInt8) (operands : ImmediateOperands)
  | s (opcode funct3 : UInt8) (source : RegClass)
  | b (opcode funct3 : UInt8) (rs1 rs2 : RegClass)
  | j (opcode : UInt8)
  | u (opcode : UInt8)
  /-- A whole word without operands. -/
  | w (word : UInt32)
  /-- Source lines in which `%1`, `%2`, … stand for the operands. -/
  | template (params : Nat) (lines : List String)
  /-- Load an address, in two words. -/
  | la
  /-- Load an integer, in one or two words. -/
  | li
  deriving DecidableEq, Repr

structure Entry where
  name : String
  encoding : Encoding
  deriving DecidableEq, Repr

structure Catalog where
  entries : List Entry
  /-- Every register name, the latest first. -/
  registers : List (String × Register)
  intNames : List String
  floatNames : List String

namespace Catalog

/-- The entry of a mnemonic. -/
def find? (c : Catalog) (name : String) : Option Entry :=
  c.entries.find? (·.name == name)

/-- The register that a name stands for. -/
def register? (c : Catalog) (name : String) : Option Register :=
  c.registers.lookup name

/-- The name of a register number, or `?` past the last one. -/
def nameAt (c : Catalog) (regClass : RegClass) (index : Nat) : String :=
  let names :=
    match regClass with
    | .int => c.intNames
    | .float => c.floatNames
  names.getD index "?"

/-- The first name of a register. -/
def reg (c : Catalog) (regClass : RegClass) (r : Reg) : String :=
  c.nameAt regClass r.val

def intReg (c : Catalog) (r : Reg) : String :=
  c.reg .int r

end Catalog

/-- The names of one class of registers, row by row; the rows that follow come first in the list. -/
def namedRegisters (regClass : RegClass) (rows : List (List String)) : List (String × Register) :=
  let pairs := rows.zipIdx.flatMap fun (names, index) =>
    names.map fun name => (name, ⟨.ofNat index, regClass⟩)
  pairs.reverse

end RiscvToolkit
