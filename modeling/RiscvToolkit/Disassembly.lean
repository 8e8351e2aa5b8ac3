import RiscvToolkit.Catalog.Builtin
import RiscvToolkit.Instruction.Fields

/-!
Source text for instruction words. The first entry of a catalog whose encoding fits a word gives the
mnemonic and the operands.
-/
namespace RiscvToolkit.Disassembly

/-- The text of a word that no entry fits. -/
def unknown : String := "unknown"

/-- True if a word with these fields may be an instance of an encoding. Stores and branches are told
apart by their opcode alone, and so are upper immediates and jumps. -/
def fits (f : Fields) : Encoding → Bool
  | .r opcode funct3 funct7 _ _ _ =>
    f.format = .r && opcode = f.opcode.code && funct3 = f.funct3 && funct7 = f.funct7
  | .i opcode funct3 operands =>
    f.format = .i && opcode = f.opcode.code && funct3 = f.funct3 &&
      match operands with
      | .shift _ _ funct7 => funct7 = f.funct7
      | _ => true
  | .s opcode funct3 _ | .b opcode funct3 _ _ =>
    (f.format = .s || f.format = .b) && opcode = f.opcode.code && funct3 = f.funct3
  | .j opcode | .u opcode => (f.format = .j || f.format = .u) && opcode = f.opcode.code
  | .w word => word = f.word
  | .template .. | .la | .li => false

def find? (c : Catalog) (f : Fields) : Option Entry :=
  c.entries.find? (fits f ·.encoding)

/-- A mnemonic with three operands. -/
def triple (name a b c : String) : String :=
  name ++ " " ++ a ++ "," ++ b ++ "," ++ c

/-- A mnemonic with a register and a memory operand. -/
def memoryAccess (name register : String) (offset : Int) (base : String) : String :=
  name ++ " " ++ register ++ "," ++ Text.hexSigned offset ++ "(" ++ base ++ ")"

/-- The operands of a word behind the mnemonic of its entry. -/
def render (c : Catalog) (f : Fields) (e : Entry) : String :=
  let imm := f.imm.toInt
  match e.encoding with
  | .r _ _ _ rd rs1 rs2 => triple e.name (c.reg rd f.rd) (c.reg rs1 f.rs1) (c.reg rs2 f.rs2)
  | .i _ _ (.immediate rd rs1) =>
    triple e.name (c.reg rd f.rd) (c.reg rs1 f.rs1) (Text.hexSigned imm)
  | .i _ _ (.shift rd rs1 _) =>
    triple e.name (c.reg rd f.rd) (c.reg rs1 f.rs1) (Text.hexSigned (imm % 32))
  | .i _ _ (.offset rd) => memoryAccess e.name (c.reg rd f.rd) imm (c.intReg f.rs1)
  | .s _ _ source => memoryAccess e.name (c.reg source f.rs2) imm (c.intReg f.rs1)
  | .b _ _ rs1 rs2 => triple e.name (c.reg rs1 f.rs1) (c.reg rs2 f.rs2) (Text.hexSigned imm)
  | .u _ => e.name ++ " " ++ c.intReg f.rd ++ "," ++ Text.hexSigned (imm / 4096)
  | .j _ => e.name ++ " " ++ c.intReg f.rd ++ "," ++ Text.hexSigned imm
  | .w _ | .template .. | .la | .li => e.name

/-- The source text of a word, `unknown` if the catalog has none. -/
def text (c : Catalog) (word : UInt32) : String :=
  match Fields.ofWord word with
  | .error _ => unknown
  | .ok f => ((find? c f).map (render c f)).getD unknown

end RiscvToolkit.Disassembly
