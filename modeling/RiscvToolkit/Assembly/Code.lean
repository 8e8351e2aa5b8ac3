import RiscvToolkit.Assembly.Relocation
import RiscvToolkit.Instruction.Fields
import RiscvToolkit.Source.Operand

/-!
The instruction words of a source line. `encode` reads the operands that an encoding asks for; a label
leaves bits open and is linked to the word.
-/
namespace RiscvToolkit.Assembly
open Source (Operand Operands)

/-- A label that completes an instruction word. -/
structure Link where
  kind : RelocationKind
  label : String
  ofWord : kind.dataWidth? = none
  deriving DecidableEq, Repr

/-- An instruction word, and the label that completes it. -/
structure Emission where
  word : UInt32
  link : Option Link
  deriving DecidableEq, Repr

/-- The words of a line in order, and what stops it behind them. -/
structure Code where
  words : List Emission
  failure : Option ErrorKind
  deriving DecidableEq, Repr

namespace Code

def fail (kind : ErrorKind) : Code := ⟨[], some kind⟩

def ofExcept : Except ErrorKind (List Emission) → Code
  | .ok words => ⟨words, none⟩
  | .error kind => fail kind

end Code

def fitsSigned12 (value : Int) : Bool :=
  -2048 ≤ value && value ≤ 2047

/-- A register of one class. -/
def expectRegister (regClass : RegClass) (ops : Operands) : Except ErrorKind (Reg × Operands) := do
  let wrong : ErrorKind :=
    match regClass with
    | .int => .expectedIntRegister
    | .float => .expectedFloatRegister
  match ← ops.required with
  | (.register r, rest) => if r.regClass = regClass then .ok (r.index, rest) else .error wrong
  | _ => .error wrong

def expectInt (ops : Operands) : Except ErrorKind (Int × Operands) := do
  match ← ops.required with
  | (.int value, rest) => .ok (value, rest)
  | (other, _) => .error (.expectedInt other.describe)

def expectLabel (ops : Operands) : Except ErrorKind (String × Operands) := do
  match ← ops.required with
  | (.symbol name, rest) => .ok (name, rest)
  | (other, _) => .error (.expectedLabel other.describe)

/-- A signed 12-bit immediate. -/
def expectSigned12 (ops : Operands) : Except ErrorKind (Int × Operands) := do
  let (value, rest) ← expectInt ops
  if fitsSigned12 value then .ok (value, rest) else .error (.outOfRange12Bit value)

/-- A shift amount. -/
def expectAmount (ops : Operands) : Except ErrorKind (Int × Operands) := do
  let (value, rest) ← expectInt ops
  if 0 ≤ value && value ≤ 31 then .ok (value, rest) else .error (.outOfRange5Bit value)

/-- The one integer register inside parentheses. -/
def baseRegister : List Operand → Except ErrorKind Reg
  | [] => .error .tooFewInParens
  | [.register r] => if r.regClass = .int then .ok r.index else .error .expectedIntRegister
  | [_] => .error .expectedMemoryOperand
  | _ => .error .tooManyInParens

/-- The one label inside parentheses. -/
def labelInParens : List Operand → Except ErrorKind String
  | [] => .error .tooFewInParens
  | [.symbol name] => .ok name
  | [other] => .error (.expectedLabel other.describe)
  | _ => .error .tooManyInParens

/-- A memory operand: the words that prepare it, and what the access itself needs. -/
structure MemoryOperand where
  setup : List Emission
  base : Reg
  offset : UInt32
  /-- The label that completes the offset. -/
  label : Option String
  rest : Operands

/-- A memory operand `offset(base)`, `(base)`, `offset` or `label`. A label, or an offset of more than 12
bits, is prepared in `scratch`; an access without one takes a register after its label. -/
def memoryOperand (scratch : Option Reg) (ops : Operands) : Except ErrorKind MemoryOperand := do
  match ← ops.required with
  | (.int value, .next (.group items) rest) =>
    if fitsSigned12 value then
      return ⟨[], ← baseRegister items, UInt32.ofInt value &&& 0xfff, none, rest⟩
    else .error (.outOfRangeOffset value)
  | (.int _, .next _ _) => .error .expectedMemoryOperand
  | (.int _, .failed kind) => .error kind
  | (.int value, .done) =>
    let low := UInt32.ofInt value &&& 0xfff
    if fitsSigned12 value then return ⟨[], .zero, low, none, .done⟩
    else
      match scratch with
      | some reg =>
        if -0x80000000 ≤ value ∧ value ≤ 0xffffffff then
          let upper := Pack.roundedUpper (UInt32.ofInt value)
          return ⟨[⟨Pack.upper Opcode.lui.code reg upper, none⟩], reg, low, none, .done⟩
        else .error (.outOfRangeOffset value)
      | none => .error (.outOfRangeOffset value)
  | (.group items, rest) => return ⟨[], ← baseRegister items, 0, none, rest⟩
  | (.symbol label, rest) =>
    let (temp, rest) ←
      match scratch with
      | some reg => .ok (reg, rest)
      | none => expectRegister .int rest
    let auipc := Pack.upper Opcode.auipc.code temp 0
    return ⟨[⟨auipc, some ⟨.upperRelative, label, rfl⟩⟩], temp, 0, some label, rest⟩
  | _ => .error .expectedMemoryOperand

/-- The words of an access with a memory operand, which must be the last operand. -/
def accessCode (link : String → Link) (word : Reg → UInt32 → UInt32) :
    Except ErrorKind MemoryOperand → Code
  | .error e => .fail e
  | .ok m =>
    match m.rest.finish with
    | .error e => ⟨m.setup, some e⟩
    | .ok () => ⟨m.setup ++ [⟨word m.base m.offset, m.label.map link⟩], none⟩

/-- The first value for which `lui` of the rounded upper part goes below zero. -/
def wrapStart : Int := 0x7ffff800

/-- The words that load an integer. A value from `wrapStart` on is completed by a 32-bit addition, which
brings it back above zero. -/
def loadInteger (rd : Reg) (value : Int) : Except ErrorKind (List Emission) :=
  let bits := UInt32.ofInt value
  if fitsSigned12 value then
    .ok [⟨Pack.immediate Opcode.opImm.code 0 rd .zero bits, none⟩]
  else if -0x80000000 ≤ value ∧ value ≤ 0x7fffffff then
    let add := if wrapStart ≤ value then Opcode.opImm32 else .opImm
    .ok [⟨Pack.upper Opcode.lui.code rd (Pack.roundedUpper bits), none⟩,
      ⟨Pack.immediate add.code 0 rd rd bits, none⟩]
  else .error (.liOutOfRange value)

/-- The second operand of an instruction with an upper immediate: its bits in place, or a label. -/
def upperOperand (ops : Operands) : Except ErrorKind (UInt32 × Option String × Operands) := do
  match ← ops.required with
  | (.symbol label, rest) => return (0, some label, rest)
  | (.placeholder _, rest) =>
    match ← rest.required with
    | (.group items, rest) => return (0, some (← labelInParens items), rest)
    | _ => .error .expectedLabelInParens
  | (.int value, rest) =>
    if -524288 ≤ value ∧ value ≤ 524287 then return (UInt32.ofInt value <<< 12, none, rest)
    else .error (.outOfRange20Bit value)
  | _ => .error .expectedUpperOperand

/-- The words of a line with this encoding and these operands. A template has no words of its own. -/
def encode (encoding : Encoding) (ops : Operands) : Code :=
  match encoding with
  | .r opcode funct3 funct7 rd rs1 rs2 => .ofExcept do
    let (rd, ops) ← expectRegister rd ops
    let (rs1, ops) ← expectRegister rs1 ops
    let (rs2, ops) ← expectRegister rs2 ops
    ops.finish
    return [⟨Pack.register opcode funct3 funct7 rd rs1 rs2, none⟩]
  | .i opcode funct3 (.immediate rd rs1) => .ofExcept do
    let (rd, ops) ← expectRegister rd ops
    let (rs1, ops) ← expectRegister rs1 ops
    let (imm, ops) ← expectSigned12 ops
    ops.finish
    return [⟨Pack.immediate opcode funct3 rd rs1 (UInt32.ofInt imm), none⟩]
  | .i opcode funct3 (.shift rd rs1 funct7) => .ofExcept do
    let (rd, ops) ← expectRegister rd ops
    let (rs1, ops) ← expectRegister rs1 ops
    let (amount, ops) ← expectAmount ops
    ops.finish
    let imm := UInt32.ofInt amount ||| funct7.toUInt32 <<< 5
    return [⟨Pack.immediate opcode funct3 rd rs1 imm, none⟩]
  | .i opcode funct3 (.offset regClass) =>
    match expectRegister regClass ops with
    | .error kind => .fail kind
    | .ok (rd, ops) =>
      -- a floating-point register cannot hold an address
      let scratch := if regClass = .int then some rd else none
      accessCode (⟨.lowRelative, ·, rfl⟩)
        (fun base offset => Pack.immediate opcode funct3 rd base offset)
        (memoryOperand scratch ops)
  | .s opcode funct3 source =>
    match expectRegister source ops with
    | .error kind => .fail kind
    | .ok (rs2, ops) =>
      accessCode (⟨.lowRelativeStore, ·, rfl⟩)
        (fun base offset => Pack.store opcode funct3 base rs2 offset)
        (memoryOperand none ops)
  | .b opcode funct3 rs1 rs2 => .ofExcept do
    let (rs1, ops) ← expectRegister rs1 ops
    let (rs2, ops) ← expectRegister rs2 ops
    let (label, ops) ← expectLabel ops
    ops.finish
    return [⟨Pack.store opcode funct3 rs1 rs2 0, some ⟨.branch, label, rfl⟩⟩]
  | .j opcode => .ofExcept do
    let (rd, ops) ← expectRegister .int ops
    let (label, ops) ← expectLabel ops
    ops.finish
    return [⟨Pack.upper opcode rd 0, some ⟨.jump, label, rfl⟩⟩]
  | .u opcode => .ofExcept do
    let (rd, ops) ← expectRegister .int ops
    let (upper, label, ops) ← upperOperand ops
    ops.finish
    let link (label : String) : Link :=
      if opcode = Opcode.auipc.code then ⟨.upperRelative, label, rfl⟩ else ⟨.upper, label, rfl⟩
    return [⟨Pack.upper opcode rd upper, label.map link⟩]
  | .w word => .ofExcept do
    ops.finish
    return [⟨word, none⟩]
  | .la => .ofExcept do
    let (rd, ops) ← expectRegister .int ops
    let (label, ops) ← expectLabel ops
    ops.finish
    return [⟨Pack.upper Opcode.auipc.code rd 0, some ⟨.upperRelative, label, rfl⟩⟩,
      ⟨Pack.immediate Opcode.opImm.code 0 rd rd 0, some ⟨.lowRelative, label, rfl⟩⟩]
  | .li => .ofExcept do
    let (rd, ops) ← expectRegister .int ops
    let (value, ops) ← expectInt ops
    ops.finish
    loadInteger rd value
  | .template .. => ⟨[], none⟩

end RiscvToolkit.Assembly
