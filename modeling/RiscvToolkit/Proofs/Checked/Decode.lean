import RiscvToolkit.Proofs.Instruction.Fields

/-! Instruction words taken apart into plain numbers, before anything says that there is a register of such a number. The
opcode tells what the operands look like, all fields together tell what executes them, and the two fit. -/
namespace RiscvToolkit

/-- The fields of an instruction word as numbers. -/
structure RawFields where
  word : UInt32
  opcode : Opcode
  funct3 : UInt8
  funct7 : UInt8
  rd : UInt8
  rs1 : UInt8
  rs2 : UInt8
  imm : Int32

/-- The operands of a format, with registers as numbers. -/
inductive RawOperands where
  | r (rs1 rs2 rd : UInt8)
  | i (rs1 rd : UInt8) (imm : UInt64)
  | s (rs1 rs2 : UInt8) (imm : UInt64)
  | b (rs1 rs2 : UInt8) (imm : UInt64)
  | u (rd : UInt8) (imm : UInt64)
  | j (rd : UInt8) (imm : UInt64)
  | w

namespace RawOperands

def format : RawOperands → Format
  | r .. => .r
  | i .. => .i
  | s .. => .s
  | b .. => .b
  | u .. => .u
  | j .. => .j
  | w => .w

def registers : RawOperands → List UInt8
  | r rs1 rs2 rd => [rs1, rs2, rd]
  | i rs1 rd _ => [rs1, rd]
  | s rs1 rs2 _ | b rs1 rs2 _ => [rs1, rs2]
  | u rd _ | j rd _ => [rd]
  | w => []

end RawOperands

/-- What is computed from two operands. -/
inductive Computation where
  | arith (op : Arith)
  /-- Adds in 32 bits. -/
  | addw

/-- What executes an operation. One that computes takes its second operand from a register or from the immediate. -/
inductive Executor where
  | compute (op : Computation)
  | branch (op : Branch)
  | load (op : Load)
  | store (op : Store)
  | jal | jalr | lui | auipc | ecall | ebreak

def ArithImm.computation : ArithImm → Computation
  | addi => .arith .add
  | slti => .arith .slt
  | sltiu => .arith .sltu
  | xori => .arith .xor
  | ori => .arith .or
  | andi => .arith .and
  | slli => .arith .sll
  | srli => .arith .srl
  | srai => .arith .sra
  | addiw => .addw

def Rv64.Operation.executor : Rv64.Operation → Executor
  | .arith op => .compute (.arith op)
  | .arithImm op => .compute op.computation
  | .load op => .load op
  | .store op => .store op
  | .branch op => .branch op
  | .jal => .jal
  | .jalr => .jalr
  | .lui => .lui
  | .auipc => .auipc
  | .ecall => .ecall
  | .ebreak => .ebreak

/-- The formats whose operands an executor takes. The calls to the environment do not look at theirs. -/
def Executor.formats : Executor → List Format
  | compute _ => [.r, .i]
  | branch _ => [.b]
  | load _ | jalr => [.i]
  | store _ => [.s]
  | jal => [.j]
  | lui | auipc => [.u]
  | ecall | ebreak => [.r, .i, .s, .b, .u, .j, .w]

namespace RawFields

/-- Takes a word apart. -/
def ofWord (word : UInt32) : Except UnknownOpcode RawFields :=
  match Opcode.ofCode? (opcodeBits word) with
  | none => .error ⟨word⟩
  | some opcode =>
    .ok {
      word
      opcode
      funct3 := ((word >>> 12) &&& 7).toUInt8
      funct7 := (word >>> 25).toUInt8
      rd := ((word >>> 7) &&& 0x1f).toUInt8
      rs1 := ((word >>> 15) &&& 0x1f).toUInt8
      rs2 := ((word >>> 20) &&& 0x1f).toUInt8
      imm := opcode.format.immediate word }

/-- The operation that the fields stand for, if they are in use. -/
def operation? (f : RawFields) : Option Rv64.Operation :=
  match f.opcode with
  | .op => (Arith.ofFunct? f.funct3 f.funct7).map .arith
  | .opImm => (ArithImm.ofFunct? f.funct3 f.funct7).map .arithImm
  | .opImm32 => if f.funct3 = 0 then some (.arithImm .addiw) else none
  | .load => (Load.ofFunct? f.funct3).map .load
  | .store => (Store.ofFunct? f.funct3).map .store
  | .branch => (Branch.ofFunct? f.funct3).map .branch
  | .jal => some .jal
  | .jalr => if f.funct3 = 0 then some .jalr else none
  | .lui => some .lui
  | .auipc => some .auipc
  | .system =>
    if f.word = 0x00000073 then some .ecall
    else if f.word = 0x00100073 then some .ebreak
    else none

/-- The operands in the format of the opcode. -/
def operands (f : RawFields) : RawOperands :=
  let imm := f.imm.toInt64.toUInt64
  match f.opcode.format with
  | .r => .r f.rs1 f.rs2 f.rd
  | .i => .i f.rs1 f.rd imm
  | .s => .s f.rs1 f.rs2 imm
  | .b => .b f.rs1 f.rs2 imm
  | .j => .j f.rd imm
  | .u => .u f.rd imm
  | .w => .w

theorem format_operands (f : RawFields) : f.operands.format = f.opcode.format := by
  unfold operands
  cases f.opcode <;> rfl

/-- The operands of a word have a format that the executor of the word takes. -/
theorem format_mem_formats {f : RawFields} {op : Rv64.Operation} (h : f.operation? = some op) :
    f.operands.format ∈ op.executor.formats := by
  rw [format_operands]
  unfold operation? at h
  cases ho : f.opcode with
  | op | opImm | load | store | branch =>
    rw [ho] at h
    obtain ⟨op, -, rfl⟩ := Option.map_eq_some_iff.mp h
    simp [Opcode.format, Rv64.Operation.executor, Executor.formats]
  | opImm32 | jalr =>
    rw [ho] at h
    obtain ⟨-, hop⟩ := Option.ite_none_right_eq_some.mp h
    cases hop
    decide
  | jal | lui | auipc =>
    rw [ho] at h
    cases h
    decide
  | system =>
    rw [ho] at h
    dsimp only at h
    split_ifs at h <;> cases h <;> decide

end RawFields

/-! ### Registers -/

/-- The number of a register. -/
def Reg.raw (r : Reg) : UInt8 :=
  .ofNat r

theorem Reg.toNat_raw (r : Reg) : r.raw.toNat = r.val := by
  have hr := r.isLt
  exact Nat.mod_eq_of_lt (show r.val < 2 ^ 8 by omega)

theorem Reg.raw_ofBits (bits : UInt32) : (Reg.ofBits bits).raw = (bits &&& 0x1f).toUInt8 := by
  have hmask : (bits &&& 0x1f).toNat = bits.toNat % 2 ^ 5 := by
    rw [UInt32.toNat_and]
    exact Nat.and_two_pow_sub_one_eq_mod _ 5
  apply UInt8.toNat_inj.mp
  rw [Reg.toNat_raw, UInt32.toNat_toUInt8, hmask]
  change bits.toNat % 32 = _
  omega

/-- The fields with the numbers of their registers. -/
def Fields.raw (f : Fields) : RawFields :=
  { f with rd := f.rd.raw, rs1 := f.rs1.raw, rs2 := f.rs2.raw }

namespace RawFields

/-- Every register field of a word is the number of a register. -/
theorem ofWord_eq (word : UInt32) : ofWord word = (Fields.ofWord word).map Fields.raw := by
  unfold ofWord Fields.ofWord
  cases Opcode.ofCode? (opcodeBits word) with
  | none => rfl
  | some o => simp only [Except.map, Fields.raw, Reg.raw_ofBits]

theorem operation?_raw (f : Fields) :
    f.raw.operation? = (Instruction.ofFields? f).map Instruction.operation := by
  unfold operation? Instruction.ofFields? Fields.raw
  cases f.opcode with
  | op | opImm | load | store | branch =>
    rw [Option.map_map]
    rfl
  | opImm32 | jalr | system =>
    dsimp only
    split_ifs <;> rfl
  | jal | lui | auipc => rfl

theorem registers_raw (f : Fields) : ∀ n ∈ f.raw.operands.registers, ∃ r : Reg, n = r.raw := by
  unfold operands Fields.raw
  cases f.opcode <;> simp [Opcode.format, RawOperands.registers]

end RawFields

end RiscvToolkit
