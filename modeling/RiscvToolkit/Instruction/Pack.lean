import RiscvToolkit.Register

/-!
Instruction words put together from their fields. Fields that are too wide for their place run over
into the next one.
-/
namespace RiscvToolkit

def Reg.bits (r : Reg) : UInt32 :=
  UInt32.ofNat r.val

namespace Pack

/-- Two sources and a destination. -/
def register (opcode funct3 funct7 : UInt8) (rd rs1 rs2 : Reg) : UInt32 :=
  opcode.toUInt32 ||| rd.bits <<< 7 ||| funct3.toUInt32 <<< 12 ||| rs1.bits <<< 15 |||
    rs2.bits <<< 20 ||| funct7.toUInt32 <<< 25

/-- A source, a destination and the low 12 bits of `imm`. -/
def immediate (opcode funct3 : UInt8) (rd rs1 : Reg) (imm : UInt32) : UInt32 :=
  opcode.toUInt32 ||| rd.bits <<< 7 ||| funct3.toUInt32 <<< 12 ||| rs1.bits <<< 15 |||
    (imm &&& 0xfff) <<< 20

/-- Two sources and the low 12 bits of `imm`, split around them. -/
def store (opcode funct3 : UInt8) (rs1 rs2 : Reg) (imm : UInt32) : UInt32 :=
  opcode.toUInt32 ||| (imm &&& 0x1f) <<< 7 ||| funct3.toUInt32 <<< 12 ||| rs1.bits <<< 15 |||
    rs2.bits <<< 20 ||| ((imm >>> 5) &&& 0x7f) <<< 25

/-- A destination and the upper 20 bits of `imm` in place. -/
def upper (opcode : UInt8) (rd : Reg) (imm : UInt32) : UInt32 :=
  opcode.toUInt32 ||| rd.bits <<< 7 ||| (imm &&& 0xfffff000)

/-- The bits of a branch offset, spread over its word. -/
def branchOffset (offset : UInt32) : UInt32 :=
  (offset &&& 0x1e) <<< 7 ||| (offset &&& 0x7e0) <<< 20 ||| (offset &&& 0x800) >>> 4 |||
    (offset &&& 0x1000) <<< 19

/-- The bits of a jump offset, spread over its word. -/
def jumpOffset (offset : UInt32) : UInt32 :=
  (offset &&& 0x7fe) <<< 20 ||| (offset &&& 0x800) <<< 9 ||| (offset &&& 0xff000 : UInt32) |||
    (offset &&& 0x100000) <<< 11

/-- The upper 20 bits that a sign-extended low part completes to `value`. -/
def roundedUpper (value : UInt32) : UInt32 :=
  (value + 0x800) &&& 0xfffff000

end Pack

example : Pack.register 0x33 0 0 10 11 12 = 0x00c58533 := by decide
example : Pack.immediate 0x13 0 10 0 0xffffffff = 0xfff00513 := by decide
example : Pack.store 0x23 2 8 15 0xffffffdc = 0xfcf42e23 := by decide
example : Pack.upper 0x37 3 0x12345000 = 0x123451b7 := by decide

end RiscvToolkit
