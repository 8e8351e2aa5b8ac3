import RiscvToolkit.Proofs.Assembly.Encode
import RiscvToolkit.Proofs.Assembly.LoadInteger
import RiscvToolkit.Proofs.Assembly.Transfer

/-! Machine instructions as lines write them, with a label where a word has an offset. Such a line places one word.
Completed with the address of its label, the word is decoded to the instruction of the line, with the offset that leads
to the label. -/
namespace RiscvToolkit
open Instruction (operand)

/-! ### Codes of operations -/

/-- The `funct3` and `funct7` of an operation. -/
def Arith.code : Arith → UInt8 × UInt8
  | add => (0, 0x00) | sub => (0, 0x20) | sll => (1, 0x00) | slt => (2, 0x00) | sltu => (3, 0x00)
  | xor => (4, 0x00) | srl => (5, 0x00) | sra => (5, 0x20) | or => (6, 0x00) | and => (7, 0x00)

theorem Arith.ofFunct?_code (op : Arith) : ofFunct? op.code.1 op.code.2 = some op := by
  cases op <;> rfl

theorem Arith.code_lt (op : Arith) : op.code.1 < 8 ∧ op.code.2 < 128 := by
  cases op <;> decide

/-- The `funct3` of an operation that takes any 12-bit immediate. -/
def ArithImm.funct3? : ArithImm → Option UInt8
  | addi => some 0 | slti => some 2 | sltiu => some 3 | xori => some 4 | ori => some 6
  | andi => some 7 | slli | srli | srai | addiw => none

theorem ArithImm.ofFunct?_of_funct3? {op : ArithImm} {funct3 : UInt8}
    (h : op.funct3? = some funct3) (funct7 : UInt8) :
    funct3 < 8 ∧ ofFunct? funct3 funct7 = some op := by
  cases op <;> cases h <;> exact ⟨by decide, rfl⟩

def Branch.funct3 : Branch → UInt8
  | beq => 0 | bne => 1 | blt => 4 | bge => 5 | bltu => 6 | bgeu => 7

theorem Branch.ofFunct?_funct3 (op : Branch) : ofFunct? op.funct3 = some op := by
  cases op <;> rfl

theorem Branch.funct3_lt (op : Branch) : op.funct3 < 8 := by
  cases op <;> decide

namespace Instruction

theorem ofWord?_arith (op : Arith) (rd rs1 rs2 : Reg) :
    ofWord? (Pack.register Opcode.op.code op.code.1 op.code.2 rd rs1 rs2) =
      some (.arith op rd rs1 rs2) := by
  obtain ⟨h3, h7⟩ := op.code_lt
  obtain ⟨f, hf, ho, hf3, hf7, hrd, hrs1, hrs2⟩ :=
    Fields.ofWord_register (o := .op) h3 h7 rd rs1 rs2
  unfold ofWord? ofFields?
  rw [hf]
  dsimp only
  rw [ho, hf3, hf7, hrd, hrs1, hrs2]
  dsimp only
  rw [op.ofFunct?_code, Option.map_some]

theorem ofWord?_arithImm {op : ArithImm} {funct3 : UInt8} (h : op.funct3? = some funct3)
    (rd rs1 : Reg) (imm : UInt32) :
    ofWord? (Pack.immediate Opcode.opImm.code funct3 rd rs1 imm) =
      some (.arithImm op rd rs1 (operand (signed imm 12))) := by
  obtain ⟨f, hf, ho, hf3, hrd, hrs1, himm⟩ :=
    Fields.ofWord_immediate (o := .opImm) rfl (ArithImm.ofFunct?_of_funct3? h 0).1 rd rs1 imm
  unfold ofWord? ofFields?
  rw [hf]
  dsimp only
  rw [ho, hf3]
  dsimp only
  rw [(ArithImm.ofFunct?_of_funct3? h f.funct7).2, ← hrd, ← hrs1, ← himm]
  rfl

theorem ofWord?_jalr (rd base : Reg) (imm : UInt32) :
    ofWord? (Pack.immediate Opcode.jalr.code 0 rd base imm) =
      some (.jalr rd base (operand (signed imm 12))) := by
  obtain ⟨f, hf, ho, hf3, hrd, hrs1, himm⟩ :=
    Fields.ofWord_immediate (o := .jalr) rfl (show (0 : UInt8) < 8 by decide) rd base imm
  unfold ofWord? ofFields?
  rw [hf]
  dsimp only
  rw [ho, hf3, ← hrd, ← hrs1, ← himm]
  rfl

end Instruction

namespace Assembly
open Source (Operand)

/-! ### Words and their labels -/

/-- `e.Completed address target word`: at `address`, the word `e` has become `word` once its label is known to be
at `target`. A word without a label is complete as it is. -/
def Emission.Completed (e : Emission) (address target word : UInt32) : Prop :=
  match e.link with
  | none => word = e.word
  | some link => ∃ bits, link.kind.bits address target = .ok bits ∧ word = e.word ||| bits

/-- The offset of a transfer leads to its target. -/
theorem add_ofInt_distance (address target : UInt32) :
    address.toUInt64 + UInt64.ofInt (Transfer.distance address target) = target.toUInt64 := by
  unfold Transfer.distance
  rw [toUInt64_eq_ofInt, toUInt64_eq_ofInt, ← UInt64.ofInt_add, add_sub_cancel]

/-- A completed transfer is the same operation with the distance to its target. -/
theorem Transfer.fields_of_bits (t : Transfer) {address target word bits : UInt32} {f : Fields}
    (hf : Fields.ofWord word = .ok f) (ht : f.opcode = t.opcode) (hz : word &&& t.mask = 0)
    (hb : t.kind.bits address target = .ok bits) :
    ∃ g, Fields.ofWord (word ||| bits) = .ok g ∧ t.Retargeted f g (distance address target) := by
  rw [t.bits_kind, transferOffset_eq] at hb
  split_ifs at hb with hr
  · cases hb
    exact t.retargeted_or_spread hf ht hz hr
  · cases hb

theorem Transfer.exists_bits_iff (t : Transfer) (address target : UInt32) :
    (∃ bits, t.kind.bits address target = .ok bits) ↔ t.CanReach (distance address target) := by
  rw [t.bits_kind, transferOffset_eq]
  split_ifs with hr
  · exact ⟨fun _ => hr, fun _ => ⟨_, rfl⟩⟩
  · constructor
    · rintro ⟨bits, h⟩
      cases h
    · exact fun h => absurd h hr

/-! ### Lines -/

/-- A machine instruction on a line. Branches and `jal` name a label. -/
inductive MachineLine where
  | arith (op : Arith) (rd rs1 rs2 : Reg)
  | arithImm (op : ArithImm) (rd rs1 : Reg) (imm : Int) (funct3 : UInt8)
    (ofOp : op.funct3? = some funct3) (fits : fitsSigned12 imm = true)
  /-- `jalr` without an offset. -/
  | jalr (rd base : Reg)
  | jal (rd : Reg) (label : String)
  | branch (op : Branch) (rs1 rs2 : Reg) (label : String)

namespace MachineLine

def entry : MachineLine → Entry
  | arith op .. => ⟨op.mnemonic, .r Opcode.op.code op.code.1 op.code.2 .int .int .int⟩
  | arithImm op _ _ _ funct3 .. => ⟨op.mnemonic, .i Opcode.opImm.code funct3 (.immediate .int .int)⟩
  | jalr .. => ⟨"jalr", .i Opcode.jalr.code 0 (.immediate .int .int)⟩
  | jal .. => ⟨"jal", .j Opcode.jal.code⟩
  | branch op .. => ⟨op.mnemonic, .b Opcode.branch.code op.funct3 .int .int⟩

def operands : MachineLine → List Operand
  | arith _ rd rs1 rs2 => [.register ⟨rd, .int⟩, .register ⟨rs1, .int⟩, .register ⟨rs2, .int⟩]
  | arithImm _ rd rs1 imm .. => [.register ⟨rd, .int⟩, .register ⟨rs1, .int⟩, .int imm]
  | jalr rd base => [.register ⟨rd, .int⟩, .register ⟨base, .int⟩, .int 0]
  | jal rd label => [.register ⟨rd, .int⟩, .symbol label]
  | branch _ rs1 rs2 label => [.register ⟨rs1, .int⟩, .register ⟨rs2, .int⟩, .symbol label]

/-- The word of a line, and the label that completes it. -/
def emission : MachineLine → Emission
  | arith op rd rs1 rs2 => ⟨Pack.register Opcode.op.code op.code.1 op.code.2 rd rs1 rs2, none⟩
  | arithImm _ rd rs1 imm funct3 .. =>
    ⟨Pack.immediate Opcode.opImm.code funct3 rd rs1 (UInt32.ofInt imm), none⟩
  | jalr rd base => ⟨Pack.immediate Opcode.jalr.code 0 rd base 0, none⟩
  | jal rd label => ⟨Pack.upper Opcode.jal.code rd 0, some ⟨.jump, label, Transfer.jump.dataWidth?_kind⟩⟩
  | branch op rs1 rs2 label =>
    ⟨Pack.store Opcode.branch.code op.funct3 rs1 rs2 0, some ⟨.branch, label, Transfer.branch.dataWidth?_kind⟩⟩

/-- The instruction of a line whose label is `offset` away. -/
def instruction (offset : UInt64) : MachineLine → Instruction
  | arith op rd rs1 rs2 => .arith op rd rs1 rs2
  | arithImm op rd rs1 imm .. => .arithImm op rd rs1 (UInt64.ofInt imm)
  | jalr rd base => .jalr rd base 0
  | jal rd _ => .jal rd offset
  | branch op rs1 rs2 _ => .branch op rs1 rs2 offset

/-- True if the line at `address` can name a label at `target`. -/
def InReach (address target : UInt32) : MachineLine → Prop
  | jal .. => Transfer.jump.CanReach (Transfer.distance address target)
  | branch .. => Transfer.branch.CanReach (Transfer.distance address target)
  | arith .. | arithImm .. | jalr .. => True

theorem ne_template (x : MachineLine) (params : Nat) (lines : List String) :
    x.entry.encoding ≠ .template params lines := by
  cases x <;> exact Encoding.noConfusion

theorem encode_operands (x : MachineLine) :
    encode x.entry.encoding (operandsOf x.operands) = ⟨[x.emission], none⟩ := by
  cases x with
  | arithImm op rd rs1 imm funct3 ofOp hfits =>
    simp only [entry, operands, encode, operandsOf, expectRegister_next, ok_bind,
      expectSigned12_next, hfits, if_true]
    rfl
  | _ => rfl

theorem exists_completed_iff (x : MachineLine) (address target : UInt32) :
    (∃ word, x.emission.Completed address target word) ↔ x.InReach address target := by
  have htransfer (t : Transfer) (first : UInt32) :
      (∃ word bits, t.kind.bits address target = .ok bits ∧ word = first ||| bits) ↔
        t.CanReach (Transfer.distance address target) := by
    rw [← t.exists_bits_iff]
    exact ⟨fun ⟨_, bits, hb, _⟩ => ⟨bits, hb⟩, fun ⟨bits, hb⟩ => ⟨_, bits, hb, rfl⟩⟩
  cases x with
  | arith | arithImm | jalr => exact ⟨fun _ => trivial, fun _ => ⟨_, rfl⟩⟩
  | jal rd label => exact htransfer .jump _
  | branch op rs1 rs2 label => exact htransfer .branch _

private theorem ofWord?_jal {rd : Reg} {address target bits : UInt32}
    (hb : RelocationKind.jump.bits address target = .ok bits) :
    Instruction.ofWord? (Pack.upper Opcode.jal.code rd 0 ||| bits) =
      some (.jal rd (UInt64.ofInt (Transfer.distance address target))) := by
  obtain ⟨f, hf, ho, hrd, -⟩ := Fields.ofWord_destination .jal rd 0
  have hz : Pack.upper Opcode.jal.code rd 0 &&& Transfer.jump.mask = 0 := by
    apply ext_bit
    intro i hi
    unfold Pack.upper Transfer.mask
    interval_cases i <;> simp [bit_reg, bit_code]
  obtain ⟨g, hg, himm, ⟨hop, hgrd⟩, -⟩ := Transfer.jump.fields_of_bits hf ho hz hb
  unfold Instruction.ofWord? Instruction.ofFields?
  rw [hg]
  dsimp only
  rw [← hop, ho, ← himm, ← operand_eq_ofInt, ← hrd, hgrd]
  rfl

private theorem ofWord?_branch {op : Branch} {rs1 rs2 : Reg} {address target bits : UInt32}
    (hb : RelocationKind.branch.bits address target = .ok bits) :
    Instruction.ofWord? (Pack.store Opcode.branch.code op.funct3 rs1 rs2 0 ||| bits) =
      some (.branch op rs1 rs2 (UInt64.ofInt (Transfer.distance address target))) := by
  obtain ⟨f, hf, ho, hf3, hrs1, hrs2, -⟩ :=
    Fields.ofWord_sources .branch op.funct3_lt rs1 rs2 0
  have hz : Pack.store Opcode.branch.code op.funct3 rs1 rs2 0 &&& Transfer.branch.mask = 0 := by
    apply ext_bit
    intro i hi
    unfold Pack.store Transfer.mask
    interval_cases i <;> simp [bit_reg, bit_code, bit_funct3 op.funct3_lt]
  obtain ⟨g, hg, himm, ⟨hop, hg3, hg1, hg2⟩, -⟩ := Transfer.branch.fields_of_bits hf ho hz hb
  unfold Instruction.ofWord? Instruction.ofFields?
  rw [hg]
  dsimp only
  rw [← hop, ho, ← hg3, hf3]
  dsimp only
  rw [op.ofFunct?_funct3, ← himm, ← operand_eq_ofInt, ← hrs1, hg1, ← hrs2, hg2]
  rfl

/-- A completed word is decoded to the instruction of its line, with the offset that leads to the label. -/
theorem ofWord?_of_completed (x : MachineLine) {address target word : UInt32}
    (h : x.emission.Completed address target word) :
    ∃ offset, Instruction.ofWord? word = some (x.instruction offset) ∧
      address.toUInt64 + offset = target.toUInt64 := by
  refine ⟨UInt64.ofInt (Transfer.distance address target), ?_, add_ofInt_distance address target⟩
  cases x with
  | arith op rd rs1 rs2 =>
    cases h
    exact Instruction.ofWord?_arith op rd rs1 rs2
  | arithImm op rd rs1 imm funct3 ofOp fits =>
    cases h
    have himm := operand_signed_ofInt ((fitsSigned12_iff imm).mp fits)
    exact (Instruction.ofWord?_arithImm ofOp rd rs1 _).trans (by rw [himm]; rfl)
  | jalr rd base =>
    cases h
    exact Instruction.ofWord?_jalr rd base 0
  | jal rd label =>
    obtain ⟨bits, hb, rfl⟩ := h
    exact ofWord?_jal hb
  | branch op rs1 rs2 label =>
    obtain ⟨bits, hb, rfl⟩ := h
    exact ofWord?_branch hb

end MachineLine

end Assembly

end RiscvToolkit
