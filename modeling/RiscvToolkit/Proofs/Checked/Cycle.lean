import RiscvToolkit.Proofs.Assembly.LoadInteger
import RiscvToolkit.Proofs.Checked.Basic
import RiscvToolkit.Proofs.Checked.Decode
import RiscvToolkit.Proofs.Machine.Arithmetic
import RiscvToolkit.Proofs.Machine.Cycle

/-! The fetch-execute cycle on plain numbers, which breaks off where operands do not fit what executes them, where there
is no register of a number, and where a shift is too wide. It is the cycle of a hart: none of this happens. -/
namespace RiscvToolkit

/-! ### Arithmetic -/

def Computation.eval (op : Computation) (a b : UInt64) : UInt64 :=
  match op with
  | arith op => op.eval a b
  | addw => signExtend32 (a + b).toUInt32

theorem ArithImm.eval_computation (op : ArithImm) (a imm : UInt64) :
    op.computation.eval a imm = op.eval a imm := by
  cases op <;> rfl

namespace Checked

/-- The amount of a shift, which must be less than the width. -/
def amount (a : UInt64) : Except Defect UInt64 :=
  if a.toNat < 64 then .ok a else .error .overflow

/-- The amount of a shift in the low bits of an operand. -/
def lowAmount (b : UInt64) : Except Defect UInt64 :=
  amount (b &&& 0x3f)

def extend (value : UInt64) (bits : Nat) : Except Defect UInt64 := do
  let n ← amount (.ofNat (← minus 64 bits))
  return ((value <<< n).toInt64 >>> n.toInt64).toUInt64

def arith (op : Arith) (a b : UInt64) : Except Defect UInt64 :=
  match op with
  | .sll => return a <<< (← lowAmount b)
  | .srl => return a >>> (← lowAmount b)
  | .sra => return (a.toInt64 >>> (← lowAmount b).toInt64).toUInt64
  | _ => return op.eval a b

def compute (op : Computation) (a b : UInt64) : Except Defect UInt64 :=
  match op with
  | .arith op => arith op a b
  | .addw => extend ((a + b) &&& 0xffffffff) 32

/-- What a load puts into its register for the bytes it read. -/
def loaded (op : Load) (value : UInt64) : Except Defect UInt64 :=
  match op with
  | .lb | .lh | .lw => extend value (8 * op.width.size)
  | .lbu | .lhu | .ld => return value

theorem toNat_low (b : UInt64) : (b &&& 0x3f).toNat = b.toNat % 64 := by
  rw [UInt64.toNat_and]
  exact Nat.and_two_pow_sub_one_eq_mod b.toNat 6

theorem lowAmount_eq (b : UInt64) : lowAmount b = .ok (b &&& 0x3f) := by
  have hb := toNat_low b
  exact if_pos (by omega)

theorem extend_eq (value : UInt64) {bits : Nat} (h0 : 0 < bits) (h : bits ≤ 64) :
    extend value bits = .ok (signExtend value bits) := by
  have hn : (UInt64.ofNat (64 - bits)).toNat = 64 - bits := by
    rw [UInt64.toNat_ofNat']
    omega
  unfold extend amount
  rw [Checked.minus_of_le h]
  simp only [bind, Except.bind, hn]
  rw [if_pos (by omega)]
  rfl

theorem shiftLeft_low (a b : UInt64) : a <<< (b &&& 0x3f) = a <<< b := by
  apply UInt64.toNat_inj.mp
  rw [UInt64.toNat_shiftLeft, UInt64.toNat_shiftLeft, toNat_low, Nat.mod_mod]

theorem shiftRight_low (a b : UInt64) : a >>> (b &&& 0x3f) = a >>> b := by
  apply UInt64.toNat_inj.mp
  rw [UInt64.toNat_shiftRight, UInt64.toNat_shiftRight, toNat_low, Nat.mod_mod]

theorem sshiftRight_low (a b : UInt64) : a.toInt64 >>> (b &&& 0x3f).toInt64 = a.toInt64 >>> b.toInt64 := by
  apply Int64.toBitVec_inj.mp
  rw [Int64.toBitVec_shiftRight, Int64.toBitVec_shiftRight, RiscvToolkit.sshiftRight_low,
    RiscvToolkit.sshiftRight_low]
  congr 1
  apply BitVec.eq_of_toNat_eq
  rw [toNat_shift, toNat_shift]
  exact (congrArg (· % 64) (toNat_low b)).trans (Nat.mod_mod ..)

theorem arith_eq (op : Arith) (a b : UInt64) : arith op a b = .ok (op.eval a b) := by
  unfold arith
  cases op with
  | sll =>
    rw [lowAmount_eq]
    exact congrArg Except.ok (shiftLeft_low a b)
  | srl =>
    rw [lowAmount_eq]
    exact congrArg Except.ok (shiftRight_low a b)
  | sra =>
    rw [lowAmount_eq]
    exact congrArg (Except.ok ·.toUInt64) (sshiftRight_low a b)
  | _ => rfl

theorem and_low32 (a : UInt64) : a &&& 0xffffffff = a.toUInt32.toUInt64 := by
  apply UInt64.toNat_inj.mp
  rw [UInt64.toNat_and, UInt32.toNat_toUInt64, UInt64.toNat_toUInt32]
  exact Nat.and_two_pow_sub_one_eq_mod a.toNat 32

theorem compute_eq (op : Computation) (a b : UInt64) : compute op a b = .ok (op.eval a b) := by
  cases op with
  | arith op => exact arith_eq op a b
  | addw =>
    unfold compute
    rw [and_low32]
    exact extend_eq _ (by decide) (by decide)

theorem loaded_eq (op : Load) (value : UInt64) : loaded op value = .ok (op.extend value) := by
  cases op with
  | lb | lh | lw => exact extend_eq value (by decide) (by decide)
  | lbu | lhu | ld => rfl

theorem upper_eq (imm : Int32) :
    extend imm.toInt64.toUInt64.toUInt32.toUInt64 32 = .ok imm.toInt64.toUInt64 := by
  have hlow : imm.toInt64.toUInt64.toUInt32.toInt32 = imm := by
    apply Int32.toBitVec_inj.mp
    change (imm.toBitVec.signExtend 64).setWidth 32 = imm.toBitVec
    apply BitVec.eq_of_getLsbD_eq
    intro i hi
    rw [BitVec.getLsbD_setWidth, BitVec.getLsbD_signExtend]
    simp [hi, show i < 64 by omega]
  have h := signExtend32_eq imm.toInt64.toUInt64.toUInt32
  rw [hlow] at h
  rw [extend_eq _ (by decide) (by decide)]
  exact congrArg Except.ok h

end Checked

/-! ### Actions -/

/-- Work on a hart that can break off. -/
def CheckedAction (α : Type) := Hart → Except Defect (EStateM.Result Fault Hart α)

namespace CheckedAction
variable {α β : Type}

def ofAction (x : Action α) : CheckedAction α := fun h => .ok (x h)

def defect (d : Defect) : CheckedAction α := fun _ => .error d

def check (x : Except Defect α) : CheckedAction α := fun h => x.map fun a => .ok a h

instance : Monad CheckedAction where
  pure a := ofAction (pure a)
  bind x f h :=
    match x h with
    | .error d => .error d
    | .ok (.error fault h) => .ok (.error fault h)
    | .ok (.ok a h) => f a h

instance : MonadLift Action CheckedAction := ⟨ofAction⟩

instance : MonadLift (Except Defect) CheckedAction := ⟨check⟩

/-- The register of a number. -/
def register (n : UInt8) : Except Defect Reg :=
  if h : n.toNat < 32 then .ok ⟨n.toNat, h⟩ else .error .index

/-- Reads two registers. -/
def readRegisters (a b : UInt8) : CheckedAction (UInt64 × UInt64) := do
  let x ← Action.readRegister (← register a)
  let y ← Action.readRegister (← register b)
  return (x, y)

/-- Writes a register. A write to register 0 is dropped. -/
def writeRegister (n : UInt8) (value : UInt64) : CheckedAction Unit := do
  if n = 0 then return
  Action.writeRegister (← register n) value

/-- Writes a register and goes on behind the instruction. -/
def writeBack (rd : UInt8) (value : Except Defect UInt64) : CheckedAction Bool := do
  writeRegister rd (← value)
  Action.advance
  return true

/-- Executes on operands. -/
def perform : Executor → RawOperands → CheckedAction Bool
  | .compute op, .r rs1 rs2 rd => do
    let (a, b) ← readRegisters rs1 rs2
    writeBack rd (Checked.compute op a b)
  | .compute op, .i rs1 rd imm => do
    let (a, _) ← readRegisters rs1 0
    writeBack rd (Checked.compute op a imm)
  | .branch op, .b rs1 rs2 imm => do
    let (a, b) ← readRegisters rs1 rs2
    if op.holds a b then Action.jump ((← Action.pc) + imm) else Action.advance
    return true
  | .load op, .i rs1 rd imm => do
    let (a, _) ← readRegisters rs1 0
    let value ← Action.access fun m => m.read op.width (a + imm)
    writeBack rd (Checked.loaded op value)
  | .store op, .s rs1 rs2 imm => do
    let (a, b) ← readRegisters rs1 rs2
    Action.store op (a + imm) b
    Action.advance
    return true
  | .jal, .j rd imm => do
    let link := (← Action.pc) + 4
    Action.jump ((← Action.pc) + imm)
    writeRegister rd link
    return true
  | .jalr, .i rs1 rd imm => do
    let link := (← Action.pc) + 4
    let (a, _) ← readRegisters rs1 0
    Action.jump (a + imm)
    writeRegister rd link
    return true
  | .auipc, .u rd imm => do
    let pc ← Action.pc
    writeBack rd ((Checked.extend imm.toUInt32.toUInt64 32).map (pc + ·))
  | .lui, .u rd imm => writeBack rd (Checked.extend imm.toUInt32.toUInt64 32)
  | .ecall, _ => Action.environmentCall
  | .ebreak, _ => do
    Action.advance
    return false
  | _, _ => defect .unreachable

/-- Makes register 0 zero again, also after a fault. -/
def clearing (x : CheckedAction α) : CheckedAction α := fun h =>
  (x h).map fun
    | .ok a h => .ok a (Action.cleared h)
    | .error fault h => .error fault (Action.cleared h)

/-- Decodes and executes a word. -/
def performWord (word : UInt32) : CheckedAction Bool :=
  match RawFields.ofWord word with
  | .error _ => (throw (.unknownInstruction word) : Action Bool)
  | .ok fields =>
    match fields.operation? with
    | none => (throw (.unknownInstruction word) : Action Bool)
    | some op => clearing (perform op.executor fields.operands)

/-- Fetches, decodes and executes one instruction. -/
def cycle : CheckedAction Bool := do
  if (← (get : Action Hart)).machine.halted then return false
  let addr ← Action.pc
  let word ← Action.access fun m => m.readWord addr
  performWord word

theorem ofAction_apply (x : Action α) (h : Hart) : ofAction x h = .ok (x h) := rfl

theorem bind_apply (x : CheckedAction α) (f : α → CheckedAction β) (h : Hart) :
    (x >>= f) h = match x h with
      | .error d => .error d
      | .ok (.error fault h) => .ok (.error fault h)
      | .ok (.ok a h) => f a h := rfl

theorem ofAction_bind (x : Action α) (f : α → Action β) :
    (ofAction x >>= fun a => ofAction (f a)) = ofAction (x >>= f) := by
  funext h
  rw [bind_apply, ofAction_apply, ofAction_apply, Action.bind_apply]
  cases x h <;> rfl

theorem ofAction_ite (p : Prop) [Decidable p] (x y : Action α) :
    (if p then ofAction x else ofAction y) = ofAction (if p then x else y) :=
  (apply_ite ofAction p x y).symm

theorem check_bind (a : α) (f : α → CheckedAction β) : (check (.ok a) >>= f) = f a := rfl

theorem pure_eq (a : α) : (pure a : CheckedAction α) = ofAction (pure a) := rfl

theorem liftM_action (x : Action α) : (liftM x : CheckedAction α) = ofAction x := rfl

theorem liftM_check (x : Except Defect α) : (liftM x : CheckedAction α) = check x := rfl

/-! ### What an executor takes -/

/-- True of work that never breaks off with a defect. -/
def Avoids (d : Defect) (x : CheckedAction α) : Prop :=
  ∀ h, x h ≠ .error d

theorem avoids_ofAction {d : Defect} (x : Action α) : Avoids d (ofAction x) :=
  fun _ h => nomatch h

theorem avoids_check {d : Defect} {x : Except Defect α} (hx : x ≠ .error d) : Avoids d (check x) := by
  intro h he
  cases x with
  | error d' =>
    cases he
    exact hx rfl
  | ok a => cases he

theorem Avoids.bind {d : Defect} {x : CheckedAction α} {f : α → CheckedAction β} (hx : Avoids d x)
    (hf : ∀ a, Avoids d (f a)) : Avoids d (x >>= f) := by
  intro h
  rw [bind_apply]
  have hne := hx h
  split
  next heq =>
    rw [heq] at hne
    simpa using hne
  next => exact fun he => nomatch he
  next a h' _ => exact hf a h'

theorem avoids_register (n : UInt8) : Avoids .unreachable (check (register n)) := by
  apply avoids_check
  unfold register
  split_ifs <;> exact fun he => nomatch he

theorem avoids_readRegisters (a b : UInt8) : Avoids .unreachable (readRegisters a b) :=
  (avoids_register a).bind fun _ => (avoids_ofAction _).bind fun _ =>
    (avoids_register b).bind fun _ => (avoids_ofAction _).bind fun _ => avoids_ofAction _

theorem avoids_writeRegister (n : UInt8) (value : UInt64) :
    Avoids .unreachable (writeRegister n value) := by
  unfold writeRegister
  split_ifs with hn
  · exact avoids_ofAction _
  · exact (avoids_register n).bind fun _ => avoids_ofAction _

theorem avoids_writeBack (n : UInt8) {x : Except Defect UInt64} {value : UInt64}
    (hx : x = .ok value) : Avoids .unreachable (writeBack n x) := by
  subst hx
  exact (avoids_writeRegister n value).bind fun _ => (avoids_ofAction _).bind fun _ =>
    avoids_ofAction _

theorem avoids_perform {e : Executor} {o : RawOperands} (h : o.format ∈ e.formats) :
    Avoids .unreachable (perform e o) := by
  cases e with
  | compute op =>
    cases o with
    | r rs1 rs2 rd =>
      exact (avoids_readRegisters rs1 rs2).bind fun _ => avoids_writeBack rd (Checked.compute_eq ..)
    | i rs1 rd imm =>
      exact (avoids_readRegisters rs1 0).bind fun _ => avoids_writeBack rd (Checked.compute_eq ..)
    | _ => simp [Executor.formats, RawOperands.format] at h
  | branch op =>
    cases o with
    | b rs1 rs2 imm =>
      refine (avoids_readRegisters rs1 rs2).bind fun _ => ?_
      dsimp only
      split_ifs
      · exact (avoids_ofAction _).bind fun _ => (avoids_ofAction _).bind fun _ => avoids_ofAction _
      · exact (avoids_ofAction _).bind fun _ => avoids_ofAction _
    | _ => simp [Executor.formats, RawOperands.format] at h
  | load op =>
    cases o with
    | i rs1 rd imm =>
      exact (avoids_readRegisters rs1 0).bind fun _ => (avoids_ofAction _).bind fun _ =>
        avoids_writeBack rd (Checked.loaded_eq ..)
    | _ => simp [Executor.formats, RawOperands.format] at h
  | store op =>
    cases o with
    | s rs1 rs2 imm =>
      exact (avoids_readRegisters rs1 rs2).bind fun _ => (avoids_ofAction _).bind fun _ =>
        (avoids_ofAction _).bind fun _ => avoids_ofAction _
    | _ => simp [Executor.formats, RawOperands.format] at h
  | jal =>
    cases o with
    | j rd imm =>
      exact (avoids_ofAction _).bind fun _ => (avoids_ofAction _).bind fun _ =>
        (avoids_ofAction _).bind fun _ => (avoids_writeRegister rd _).bind fun _ => avoids_ofAction _
    | _ => simp [Executor.formats, RawOperands.format] at h
  | jalr =>
    cases o with
    | i rs1 rd imm =>
      exact (avoids_ofAction _).bind fun _ => (avoids_readRegisters rs1 0).bind fun _ =>
        (avoids_ofAction _).bind fun _ => (avoids_writeRegister rd _).bind fun _ => avoids_ofAction _
    | _ => simp [Executor.formats, RawOperands.format] at h
  | auipc =>
    cases o with
    | u rd imm =>
      exact (avoids_ofAction _).bind fun pc => avoids_writeBack rd
        (congrArg (Except.map (pc + ·)) (Checked.extend_eq _ (by decide) (by decide)))
    | _ => simp [Executor.formats, RawOperands.format] at h
  | lui =>
    cases o with
    | u rd imm => exact avoids_writeBack rd (Checked.extend_eq _ (by decide) (by decide))
    | _ => simp [Executor.formats, RawOperands.format] at h
  | ecall => exact avoids_ofAction _
  | ebreak => exact (avoids_ofAction _).bind fun _ => avoids_ofAction _

/-- An executor takes the operands of its formats and no others. -/
theorem perform_eq_unreachable_iff (e : Executor) (o : RawOperands) (h : Hart) :
    perform e o h = .error .unreachable ↔ o.format ∉ e.formats := by
  constructor
  · exact fun he hmem => avoids_perform hmem h he
  · intro hmem
    cases e <;> cases o <;> first | rfl | simp [Executor.formats, RawOperands.format] at hmem

/-! ### Agreement of the cycles -/

theorem register_raw (r : Reg) : register r.raw = .ok r := by
  unfold register
  simp only [Reg.toNat_raw, r.isLt, dif_pos]

theorem readRegisters_raw (r s : Reg) :
    readRegisters r.raw s.raw = ofAction do
      let x ← Action.readRegister r
      let y ← Action.readRegister s
      return (x, y) := by
  simp only [readRegisters, register_raw, liftM_check, liftM_action, check_bind, pure_eq,
    ofAction_bind]

theorem readRegisters_zero (r : Reg) :
    readRegisters r.raw 0 = ofAction do
      let x ← Action.readRegister r
      let y ← Action.readRegister 0
      return (x, y) :=
  readRegisters_raw r 0

theorem writeRegister_raw (r : Reg) (value : UInt64) :
    writeRegister r.raw value = ofAction (Action.writeRegister r value) := by
  unfold writeRegister
  split_ifs with hr
  · have h0 : r = 0 := by
      apply Fin.ext
      rw [← Reg.toNat_raw, hr]
      rfl
    subst h0
    rfl
  · simp only [register_raw, liftM_check, liftM_action, check_bind]

theorem writeBack_raw (r : Reg) (value : UInt64) :
    writeBack r.raw (.ok value) = ofAction do
      Action.writeRegister r value
      Action.advance
      return true := by
  simp only [writeBack, writeRegister_raw, liftM_check, liftM_action, check_bind, pure_eq,
    ofAction_bind]

/-- On the operands that a word has, the executor of the word does what the instruction does. -/
theorem perform_eq {f : Fields} {i : Instruction} (h : Instruction.ofFields? f = some i) :
    perform i.operation.executor f.raw.operands = ofAction (Action.perform i) := by
  unfold Instruction.ofFields? at h
  unfold RawFields.operands
  have hraw : f.raw.opcode = f.opcode := rfl
  rw [hraw]
  cases ho : f.opcode with
  | op | opImm =>
    rw [ho] at h
    obtain ⟨op, -, rfl⟩ := Option.map_eq_some_iff.mp h
    simp only [Opcode.format, Instruction.operation, Rv64.Operation.executor, Fields.raw, perform,
      readRegisters_raw, readRegisters_zero, Checked.compute_eq, ArithImm.eval_computation,
      writeBack_raw, ofAction_bind]
    rfl
  | opImm32 =>
    rw [ho] at h
    obtain ⟨-, hi⟩ := Option.ite_none_right_eq_some.mp h
    cases hi
    simp only [Opcode.format, Instruction.operation, Rv64.Operation.executor, Fields.raw, perform,
      readRegisters_zero, Checked.compute_eq, ArithImm.eval_computation, writeBack_raw, ofAction_bind]
    rfl
  | load =>
    rw [ho] at h
    obtain ⟨op, -, rfl⟩ := Option.map_eq_some_iff.mp h
    simp only [Opcode.format, Instruction.operation, Rv64.Operation.executor, Fields.raw, perform,
      readRegisters_zero, liftM_action, Checked.loaded_eq, writeBack_raw, ofAction_bind]
    rfl
  | store | branch =>
    rw [ho] at h
    obtain ⟨op, -, rfl⟩ := Option.map_eq_some_iff.mp h
    simp only [Opcode.format, Instruction.operation, Rv64.Operation.executor, Fields.raw, perform,
      readRegisters_raw, liftM_action, pure_eq, ofAction_bind, ofAction_ite]
    rfl
  | jal =>
    rw [ho] at h
    cases h
    simp only [Opcode.format, Instruction.operation, Rv64.Operation.executor, Fields.raw, perform,
      writeRegister_raw, liftM_action, pure_eq, ofAction_bind]
    rfl
  | jalr =>
    rw [ho] at h
    obtain ⟨-, hi⟩ := Option.ite_none_right_eq_some.mp h
    cases hi
    simp only [Opcode.format, Instruction.operation, Rv64.Operation.executor, Fields.raw, perform,
      readRegisters_zero, writeRegister_raw, liftM_action, pure_eq, ofAction_bind]
    rfl
  | lui | auipc =>
    rw [ho] at h
    cases h
    simp only [Opcode.format, Instruction.operation, Rv64.Operation.executor, Fields.raw, perform,
      liftM_action, Checked.upper_eq, Except.map, writeBack_raw, ofAction_bind]
    rfl
  | system =>
    rw [ho] at h
    dsimp only at h
    split_ifs at h <;> cases h <;> rfl

theorem clearing_ofAction (x : Action α) :
    clearing (ofAction x) = ofAction (try x finally Action.clearZero) := by
  funext h
  rw [ofAction_apply, Action.finally_apply]
  rfl

theorem performWord_eq (word : UInt32) :
    performWord word = ofAction (match Instruction.ofWord? word with
      | none => throw (.unknownInstruction word)
      | some i => try Action.perform i finally Action.clearZero) := by
  unfold performWord Instruction.ofWord?
  rw [RawFields.ofWord_eq]
  cases Fields.ofWord word with
  | error e => rfl
  | ok f =>
    dsimp only [Except.map]
    rw [RawFields.operation?_raw]
    cases hi : Instruction.ofFields? f with
    | none => rfl
    | some i =>
      dsimp only [Option.map_some]
      rw [perform_eq hi, clearing_ofAction]

theorem cycle_eq : cycle = ofAction Action.cycle := by
  unfold cycle
  simp only [performWord_eq, liftM_action, pure_eq, ofAction_bind, ofAction_ite]
  rfl

/-- What stands for an operation has operands of a format that the executor takes, with registers that exist, and an
executor breaks off as unreachable on operands of all other formats. So a cycle never breaks off, whatever is in memory
and in the registers: it is the cycle of the hart. -/
theorem cycle_never_breaks_off :
    (∀ word fields op, RawFields.ofWord word = .ok fields → fields.operation? = some op →
      fields.operands.format ∈ op.executor.formats ∧ (∀ n ∈ fields.operands.registers, n < 32) ∧
        ∃ i, Instruction.ofWord? word = some i ∧ i.operation = op) ∧
    (∀ e o h, perform e o h = .error .unreachable ↔ o.format ∉ e.formats) ∧
    ∀ h, cycle h = .ok (Action.cycle h) := by
  refine ⟨fun word fields op hf hop => ?_, perform_eq_unreachable_iff, congrFun cycle_eq⟩
  rw [RawFields.ofWord_eq] at hf
  cases hw : Fields.ofWord word with
  | error e =>
    rw [hw] at hf
    cases hf
  | ok f =>
    rw [hw] at hf
    cases hf
    refine ⟨RawFields.format_mem_formats hop, ?_, ?_⟩
    · intro n hn
      obtain ⟨r, rfl⟩ := RawFields.registers_raw f n hn
      rw [UInt8.lt_iff_toNat_lt, Reg.toNat_raw]
      exact r.isLt
    · rw [RawFields.operation?_raw] at hop
      obtain ⟨i, hi, hop⟩ := Option.map_eq_some_iff.mp hop
      refine ⟨i, ?_, hop⟩
      unfold Instruction.ofWord?
      rw [hw]
      exact hi

/-- The immediate of a shift to the right by an immediate also holds what tells it from others, and is more than 63. -/
theorem cycle_never_breaks_off_srai :
    (RawOperands.i 2 1 0x405).format ∈ (Rv64.Operation.arithImm .srai).executor.formats ∧
      (∀ n ∈ (RawOperands.i 2 1 0x405).registers, n < 32) ∧
        ∃ i, Instruction.ofWord? 0x40515093 = some i ∧ i.operation = .arithImm .srai :=
  cycle_never_breaks_off.1 0x40515093 ⟨0x40515093, .opImm, 5, 0x20, 1, 2, 5, 0x405⟩ (.arithImm .srai)
    rfl rfl

end CheckedAction

end RiscvToolkit
