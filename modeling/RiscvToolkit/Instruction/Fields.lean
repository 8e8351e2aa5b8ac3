import RiscvToolkit.Register
import RiscvToolkit.Text.Hex
import RiscvToolkit.Word

/-! The fields of an instruction word, with the immediate of its format put together. -/
namespace RiscvToolkit

inductive Opcode where
  | op | opImm | load | jalr | opImm32 | store | branch | jal | lui | auipc | system
  deriving DecidableEq, Repr

/-- How the bits of a word are laid out. -/
inductive Format where
  | r | i | s | b | j | u | w
  deriving DecidableEq, Repr

namespace Opcode

def all : List Opcode :=
  [op, opImm, load, jalr, opImm32, store, branch, jal, lui, auipc, system]

/-- The low seven bits of a word with this opcode. -/
def code : Opcode → UInt8
  | op => 0x33
  | opImm => 0x13
  | load => 0x03
  | jalr => 0x67
  | opImm32 => 0x1b
  | store => 0x23
  | branch => 0x63
  | jal => 0x6f
  | lui => 0x37
  | auipc => 0x17
  | system => 0x73

def ofCode? (code : UInt8) : Option Opcode :=
  all.find? (·.code = code)

def format : Opcode → Format
  | op => .r
  | opImm | load | jalr | opImm32 => .i
  | store => .s
  | branch => .b
  | jal => .j
  | lui | auipc => .u
  | system => .w

def name : Opcode → String
  | op => "Op"
  | opImm => "OpImm"
  | load => "Load"
  | jalr => "Jalr"
  | opImm32 => "OpImm32"
  | store => "Store"
  | branch => "Branch"
  | jal => "Jal"
  | lui => "Lui"
  | auipc => "Auipc"
  | system => "System"

end Opcode

/-- A word whose low seven bits are no opcode. -/
structure UnknownOpcode where
  word : UInt32
  deriving DecidableEq, Repr

/-- The low seven bits of a word. -/
def opcodeBits (word : UInt32) : UInt8 :=
  (word &&& 0x7f).toUInt8

def UnknownOpcode.message (e : UnknownOpcode) : String :=
  "unknown opcode 0x" ++ Text.hexPadded 2 (opcodeBits e.word).toNat ++
    " in instruction 0x" ++ Text.hexPadded 8 e.word.toNat

/-- The low `bits` bits of `value` read as a two's-complement number, for `1 ≤ bits ≤ 32`. -/
def signed (value : UInt32) (bits : Nat) : Int32 :=
  let shift := UInt32.ofNat (32 - bits)
  (value <<< shift).toInt32 >>> shift.toInt32

structure Fields where
  word : UInt32
  opcode : Opcode
  funct3 : UInt8
  funct7 : UInt8
  rd : Reg
  rs1 : Reg
  rs2 : Reg
  /-- Sign-extended; an upper immediate keeps its place. -/
  imm : Int32
  deriving DecidableEq, Repr

/-- The immediate that a word holds in a format. -/
def Format.immediate (format : Format) (word : UInt32) : Int32 :=
  match format with
  | .i => signed (word >>> 20) 12
  | .s => signed ((word >>> 25) <<< 5 ||| ((word >>> 7) &&& 0x1f)) 12
  | .b =>
    signed (((word >>> 31) &&& 1) <<< 12 ||| ((word >>> 7) &&& 1) <<< 11 |||
      ((word >>> 25) &&& 0x3f) <<< 5 ||| ((word >>> 8) &&& 0xf) <<< 1) 13
  | .j =>
    signed (((word >>> 31) &&& 1) <<< 20 ||| ((word >>> 12) &&& 0xff) <<< 12 |||
      ((word >>> 20) &&& 1) <<< 11 ||| ((word >>> 21) &&& 0x3ff) <<< 1) 21
  | .u => (word &&& 0xfffff000).toInt32
  | .r | .w => 0

namespace Fields

/-- Takes a word apart. -/
def ofWord (word : UInt32) : Except UnknownOpcode Fields :=
  match Opcode.ofCode? (opcodeBits word) with
  | none => .error ⟨word⟩
  | some opcode =>
    .ok {
      word
      opcode
      funct3 := ((word >>> 12) &&& 7).toUInt8
      funct7 := (word >>> 25).toUInt8
      rd := Reg.ofBits (word >>> 7)
      rs1 := Reg.ofBits (word >>> 15)
      rs2 := Reg.ofBits (word >>> 20)
      imm := opcode.format.immediate word }

def format (f : Fields) : Format :=
  f.opcode.format

/-- The immediate as a register operand. -/
def operand (f : Fields) : UInt64 :=
  f.imm.toInt64.toUInt64

/-- Opcode, word and immediate, for a message. -/
def summary (f : Fields) : String :=
  f.opcode.name ++ "(0x" ++ Text.hexPadded 8 f.word.toNat ++ "), imm " ++ toString f.imm.toInt

end Fields

end RiscvToolkit
