import RiscvToolkit.Proofs.Instruction.Fields
import RiscvToolkit.Proofs.Machine.Arithmetic
import RiscvToolkit.Proofs.Machine.Cycle
import RiscvToolkit.Proofs.Machine.Pair
import RiscvToolkit.Proofs.Memory.Bytes

/-! A machine does what RV64I says its next word does, and faults just if it says nothing. -/
namespace RiscvToolkit

/-- What RV64I sees of a machine. -/
def Machine.arch (m : Machine) : Rv64.State where
  pc := m.pc.toBitVec
  x r := (m.regs.get r).toBitVec
  mem := m.memory.bytes
  halted := m.halted

/-- True of an execution that has an effect, and no other. -/
structure Executed.Has (done : Executed) (m : Machine) (effect : Rv64.Effect) : Prop where
  state : done.machine.arch = effect.state
  events : done.events = effect.events
  more : done.more = effect.more
  floats : done.machine.floats = m.floats

theorem toBitVec_add_ofBitVec (a : UInt64) (b : BitVec 64) :
    (a + .ofBitVec b).toBitVec = a.toBitVec + b := rfl

namespace Machine
variable {m : Machine}

theorem arch_x (r : Reg) : m.arch.x r = (m.regs.get r).toBitVec := rfl

theorem arch_mem : m.arch.mem = m.memory.bytes := rfl

theorem arch_set (m : Machine) (r : Reg) (value : UInt64) :
    { m with regs := m.regs.set r value }.arch = m.arch.put r value.toBitVec := by
  have hx : (fun s => ((m.regs.set r value).get s).toBitVec) =
      if r = .zero then m.arch.x else Function.update m.arch.x r value.toBitVec := by
    funext s
    rw [RegisterFile.get_set]
    by_cases h0 : r = 0
    · simp [h0, Reg.zero, arch]
    · by_cases hs : r = s
      · subst hs
        simp [h0, Reg.zero]
      · simp [h0, hs, Reg.zero, Function.update_of_ne (Ne.symm hs), arch]
  unfold Rv64.State.put
  rw [← hx]
  rfl

theorem has_writeBack (r : Reg) {value : UInt64} {value' : BitVec 64}
    (h : value.toBitVec = value') :
    (m.writeBack r value).Has m (Rv64.quiet (m.arch.put r value').next) := by
  refine ⟨?_, rfl, rfl, rfl⟩
  rw [← h]
  change (({ m with regs := m.regs.set r value } : Machine).arch.next) = _
  rw [arch_set]
  rfl

theorem loadSize_eq (op : Load) : Rv64.loadSize op = op.width.size := by
  cases op <;> rfl

theorem storeSize_eq (op : Store) : Rv64.storeSize op = op.width.size := by
  cases op <;> rfl

theorem toBitVec_extend (op : Load) (v : BitVec (8 * Rv64.loadSize op)) :
    (op.extend (.ofBitVec (v.setWidth 64))).toBitVec = Rv64.extend op v := by
  have hback {n : Nat} (hn : n ≤ 64) (v : BitVec n) : (v.setWidth 64).setWidth n = v := by
    rw [BitVec.setWidth_setWidth_of_le _ hn, BitVec.setWidth_eq]
  have hsign {n : Nat} (h0 : 0 < n) (hn : n ≤ 64) (v : BitVec n) :
      (signExtend (.ofBitVec (v.setWidth 64)) n).toBitVec = v.signExtend 64 := by
    rw [toBitVec_signExtend _ h0 hn]
    exact congrArg _ (hback hn v)
  cases op with
  | lb => exact hsign (by decide) (by decide) v
  | lh => exact hsign (by decide) (by decide) v
  | lw => exact hsign (by decide) (by decide) v
  | ld => exact (BitVec.setWidth_eq v).trans (BitVec.signExtend_eq v).symm
  | lbu => rfl
  | lhu => rfl

section
variable {w : BitVec 32} {op : Rv64.Operation} {effect : Rv64.Effect}

theorem has_of_environmentCall (h : Rv64.Executes w m.arch .ecall effect) :
    ∃ done, m.environmentCall = .ok done ∧ done.Has m effect := by
  cases h with
  | printNumber h =>
    have hn : m.regs.get .a7 = 1 := UInt64.toBitVec_inj.mp h
    have he : m.environmentCall = .ok ⟨{ m with pc := m.pc + 4 },
        [.output (toString (m.regs.get .a0).toInt64.toInt)], true⟩ := by
      rw [environmentCall, hn]
      rfl
    exact ⟨_, he, rfl, rfl, rfl, rfl⟩
  | printString h bytes ht =>
    have hn : m.regs.get .a7 = 4 := UInt64.toBitVec_inj.mp h
    have hmap : (bytes.map UInt8.ofBitVec).map UInt8.toBitVec = bytes := by
      rw [List.map_map]
      exact List.map_id bytes
    rw [← hmap] at ht ⊢
    have hs : m.memory.cString (m.regs.get .a0) = .ok (bytes.map .ofBitVec) :=
      (Memory.cString_eq_ok_iff _).mpr ht
    have he : m.environmentCall = .ok ⟨{ m with pc := m.pc + 4 },
        [.output (latin1 (bytes.map .ofBitVec))], true⟩ := by
      rw [environmentCall_string hn, hs]
    refine ⟨_, he, rfl, ?_, rfl, rfl⟩
    unfold latin1 Rv64.text
    rw [List.map_map (l := bytes.map UInt8.ofBitVec)]
    rfl
  | exit h =>
    have hn : m.regs.get .a7 = 10 := UInt64.toBitVec_inj.mp h
    have he : m.environmentCall = .ok ⟨{ m with pc := m.pc + 4, halted := true },
        [.output exitNotice, .halted], false⟩ := by
      rw [environmentCall, hn]
      rfl
    exact ⟨_, he, rfl, rfl, rfl, rfl⟩
  | printCharacter h =>
    have hn : m.regs.get .a7 = 11 := UInt64.toBitVec_inj.mp h
    have he : m.environmentCall = .ok ⟨{ m with pc := m.pc + 4 },
        [.output (latin1 [(m.regs.get .a0).toUInt8])], true⟩ := by
      rw [environmentCall, hn]
      rfl
    exact ⟨_, he, rfl, rfl, rfl, rfl⟩

/-- What RV64I says is done. -/
theorem has_of_executes (h : Rv64.Executes w m.arch op effect) :
    ∃ done, m.execute (op.instruction w) = .ok done ∧ done.Has m effect := by
  cases h with
  | arith op =>
    exact ⟨_, rfl, has_writeBack _ (op.toBitVec_eval _ _)⟩
  | arithImm op =>
    exact ⟨_, rfl, has_writeBack _ (op.toBitVec_eval _ w)⟩
  | load op v h =>
    rw [arch_x, arch_mem, ← toBitVec_add_ofBitVec] at h
    have hr := Memory.read_of_holds (loadSize_eq op) h
    refine ⟨_, ?_, has_writeBack _ (toBitVec_extend op v)⟩
    simp only [Rv64.Operation.instruction, execute, hr]
  | store op h =>
    rw [arch_x, arch_mem, ← toBitVec_add_ofBitVec, storeSize_eq] at h
    obtain ⟨memory, hw⟩ := (Memory.exists_write_iff op.width (m.regs.get (Rv64.rs2 w))).mpr h
    refine ⟨quiet { m with memory, pc := m.pc + 4 }, ?_, ?_, rfl, rfl, rfl⟩
    · simp only [Rv64.Operation.instruction, execute, hw]
    · have hb := Memory.bytes_of_write hw
      rw [storeSize_eq, arch_x, arch_x, arch_mem, ← toBitVec_add_ofBitVec, ← hb]
      rfl
  | branch op =>
    refine ⟨_, rfl, ?_, rfl, rfl, rfl⟩
    rw [arch_x, arch_x, ← op.holds_eq]
    cases op.holds (m.regs.get (Rv64.rs1 w)) (m.regs.get (Rv64.rs2 w)) <;> rfl
  | jal =>
    refine ⟨_, rfl, ?_, rfl, rfl, rfl⟩
    have hs := m.arch_set (Rv64.rd w) (m.pc + 4)
    exact congrArg (fun s : Rv64.State => { s with pc := m.pc.toBitVec + Rv64.immJ w }) hs
  | jalr =>
    refine ⟨_, rfl, ?_, rfl, rfl, rfl⟩
    have hs := m.arch_set (Rv64.rd w) (m.pc + 4)
    exact congrArg (fun s : Rv64.State =>
      { s with pc := (m.regs.get (Rv64.rs1 w)).toBitVec + Rv64.immI w }) hs
  | lui => exact ⟨_, rfl, has_writeBack _ rfl⟩
  | auipc => exact ⟨_, rfl, has_writeBack _ rfl⟩
  | printNumber h => exact has_of_environmentCall (w := w) (.printNumber h)
  | printString h bytes ht => exact has_of_environmentCall (w := w) (.printString h bytes ht)
  | exit h => exact has_of_environmentCall (w := w) (.exit h)
  | printCharacter h => exact has_of_environmentCall (w := w) (.printCharacter h)
  | ebreak => exact ⟨_, rfl, rfl, rfl, rfl, rfl⟩

theorem executes_of_environmentCall {done : Executed} (h : m.environmentCall = .ok done) :
    ∃ effect, Rv64.Executes w m.arch .ecall effect := by
  have hx {n : Nat} (hn : (m.regs.get .a7).toNat = n) : m.arch.x 17 = BitVec.ofNat 64 n := by
    rw [← hn, ← UInt64.toNat_toBitVec, BitVec.ofNat_toNat, BitVec.setWidth_eq]
    rfl
  unfold environmentCall at h
  dsimp only at h
  split at h
  next hn => exact ⟨_, .printNumber (hx hn)⟩
  next hn =>
    cases hs : m.memory.cString (m.regs.get .a0) with
    | error e =>
      rw [hs] at h
      cases h
    | ok bytes => exact ⟨_, .printString (hx hn) _ ((Memory.cString_eq_ok_iff bytes).mp hs)⟩
  next hn => exact ⟨_, .exit (hx hn)⟩
  next hn => exact ⟨_, .printCharacter (hx hn)⟩
  next => cases h

/-- What is done without a fault is what RV64I says something about. -/
theorem executes_of_execute {done : Executed}
    (h : m.execute (op.instruction w) = .ok done) : ∃ effect, Rv64.Executes w m.arch op effect := by
  cases op with
  | arith op => exact ⟨_, .arith op⟩
  | arithImm op => exact ⟨_, .arithImm op⟩
  | load op =>
    cases hr : m.memory.read op.width (m.regs.get (Rv64.rs1 w) + .ofBitVec (Rv64.immI w)) with
    | error e =>
      simp only [Rv64.Operation.instruction, execute, hr] at h
      cases h
    | ok value =>
      obtain ⟨v, hv⟩ := Memory.holds_of_read (loadSize_eq op) hr
      exact ⟨_, .load op v hv⟩
  | store op =>
    cases hw : m.memory.write op.width (m.regs.get (Rv64.rs1 w) + .ofBitVec (Rv64.immS w))
        (m.regs.get (Rv64.rs2 w)) with
    | error e =>
      simp only [Rv64.Operation.instruction, execute, hw] at h
      cases h
    | ok memory =>
      have hm := (Memory.exists_write_iff ..).mp ⟨memory, hw⟩
      rw [← storeSize_eq] at hm
      exact ⟨_, .store op hm⟩
  | branch op => exact ⟨_, .branch op⟩
  | jal => exact ⟨_, .jal⟩
  | jalr => exact ⟨_, .jalr⟩
  | lui => exact ⟨_, .lui⟩
  | auipc => exact ⟨_, .auipc⟩
  | ecall => exact executes_of_environmentCall h
  | ebreak => exact ⟨_, .ebreak⟩

end

/-- The instruction in the word at `pc` is executed as RV64I says, and nothing else happens. Where it says
nothing, because an access is not mapped or a call is unknown, there is a fault. -/
theorem cycle_conforms {word : UInt32} {i : Instruction} (hz : m.regs.get 0 = 0)
    (hh : m.halted = false) (hw : Rv64.Holds (n := 4) m.arch.mem m.arch.pc word.toBitVec)
    (hi : Instruction.ofWord? word = some i) (console : Console) :
    Rv64.Encodes word.toBitVec i.operation ∧
      (∀ effect, Rv64.Executes word.toBitVec m.arch i.operation effect →
        ∃ m', Action.cycle ⟨m, console⟩ = .ok effect.more ⟨m', console.send effect.events⟩ ∧
          m'.arch = effect.state ∧ m'.floats = m.floats ∧ m'.regs.get 0 = 0) ∧
      ((∃ effect, Rv64.Executes word.toBitVec m.arch i.operation effect) ∨
        ∃ fault, Action.cycle ⟨m, console⟩ = .error fault ⟨m, console⟩) := by
  obtain ⟨hencodes, hinstr⟩ := Instruction.encodes_of_ofWord? hi
  have hstep : m.step = m.execute (i.operation.instruction word.toBitVec) := by
    rw [← hinstr]
    exact step_eq_execute hh (Memory.readWord_eq_ok_iff_holds.mpr hw) hi
  have hcycle : Action.cycle ⟨m, console⟩ =
      Action.leaves ⟨m, console⟩ (m.execute (i.operation.instruction word.toBitVec)) := by
    rw [Action.cycle_eq hz, hstep]
  refine ⟨hencodes, fun effect h => ?_, ?_⟩
  · obtain ⟨done, he, hhas⟩ := has_of_executes h
    refine ⟨done.machine, ?_, hhas.state, hhas.floats, (follows_of_execute he).get_zero.trans hz⟩
    rw [hcycle, he, ← hhas.more, ← hhas.events]
    rfl
  · cases he : m.execute (i.operation.instruction word.toBitVec) with
    | ok done => exact .inl (executes_of_execute he)
    | error fault =>
      rw [hcycle, he]
      exact .inr ⟨fault, rfl⟩

/-- A jump to an odd address through the register that takes the link. -/
theorem cycle_conforms_jalr :
    ∃ m : Machine, m.pc = 0x400000 ∧ m.regs.get 0 = 0 ∧ m.regs.get 1 = 0x400001 ∧
      m.halted = false ∧ Rv64.Holds (n := 4) m.arch.mem m.arch.pc 0x002080e7 ∧
      ∃ m', Action.cycle ⟨m, .empty⟩ = .ok true ⟨m', .empty⟩ ∧ m'.pc = 0x400003 ∧
        m'.regs.get 0 = 0 ∧ m'.regs.get 1 = 0x400004 := by
  obtain ⟨memory, hm⟩ : ∃ memory, Memory.empty.writeWord 0x400000 0x002080e7 = .ok memory :=
    ⟨_, rfl⟩
  let m : Machine :=
    { Machine.ofMemory memory with regs := RegisterFile.zero.set 1 0x400001 }
  have hr : m.memory.readWord m.pc = .ok 0x002080e7 := Memory.readWord_writeWord hm
  have hw : Rv64.Holds (n := 4) m.arch.mem m.arch.pc (0x002080e7 : UInt32).toBitVec :=
    Memory.readWord_eq_ok_iff_holds.mp hr
  have hi : Instruction.ofWord? 0x002080e7 = some (.jalr 1 1 2) := by decide
  obtain ⟨-, hconforms, -⟩ := cycle_conforms (m := m) rfl rfl hw hi .empty
  obtain ⟨m', hc, hs, -, hz⟩ := hconforms _ .jalr
  refine ⟨m, rfl, rfl, rfl, rfl, hw, m', hc, ?_, hz, ?_⟩
  · exact UInt64.toBitVec_inj.mp (congrArg Rv64.State.pc hs)
  · exact UInt64.toBitVec_inj.mp (congrArg (Rv64.State.x · 1) hs)

end Machine

end RiscvToolkit
