import RiscvToolkit.Machine.Cycle
import RiscvToolkit.Proofs.Except

/-! The fetch-execute cycle leaves what `Machine.step` gives, and after a fault it leaves everything as it
was: whatever can fault does so before the first change. -/
namespace RiscvToolkit

theorem RegisterFile.put_get (file : RegisterFile) (r : Reg) : file.put r (file.get r) = file := by
  unfold put get
  simp

@[simp] theorem RegisterFile.get_set_zero (file : RegisterFile) (r : Reg) (value : UInt64) :
    (file.set r value).get 0 = file.get 0 := by
  rw [get_set, if_neg]
  rintro ⟨rfl, h⟩
  exact h rfl

@[simp] theorem Console.send_nil (c : Console) : c.send [] = c := by
  unfold send
  simp

@[simp] theorem Console.send_send (c : Console) (a b : List Event) :
    (c.send a).send b = c.send (a ++ b) := by
  unfold send
  congr 1
  apply Array.ext'
  simp

/-- True of what an instruction leaves of a machine: at most one register and one place in memory are
written. -/
structure Executed.Follows (done : Executed) (m : Machine) : Prop where
  regs : ∃ r value, done.machine.regs = m.regs.set r value
  memory : done.machine.memory = m.memory ∨
    ∃ width addr value, m.memory.write width addr value = .ok done.machine.memory

namespace Machine
variable {m : Machine} {done : Executed}

theorem environmentCall_string (hn : m.regs.get .a7 = 4) :
    m.environmentCall =
      match m.memory.cString (m.regs.get .a0) with
      | .ok bytes => .ok ⟨{ m with pc := m.pc + 4 }, [.output (latin1 bytes)], true⟩
      | .error e => .error (.memory e) := by
  rw [environmentCall, hn]
  rfl

theorem follows_of_same (hr : done.machine.regs = m.regs) (hm : done.machine.memory = m.memory) :
    done.Follows m :=
  ⟨⟨0, 0, hr⟩, .inl hm⟩

theorem follows_of_environmentCall (h : m.environmentCall = .ok done) : done.Follows m := by
  unfold environmentCall at h
  dsimp only at h
  split at h
  next => cases h; exact follows_of_same rfl rfl
  next => split at h <;> cases h; exact follows_of_same rfl rfl
  next => cases h; exact follows_of_same rfl rfl
  next => cases h; exact follows_of_same rfl rfl
  next => cases h

theorem follows_of_execute {i : Instruction} (h : m.execute i = .ok done) : done.Follows m := by
  cases i with
  | load op rd base offset =>
    unfold execute at h
    dsimp only at h
    split at h <;> cases h
    exact ⟨⟨rd, _, rfl⟩, .inl rfl⟩
  | store op source base offset =>
    unfold execute at h
    dsimp only at h
    split at h
    next memory hw =>
      cases h
      exact ⟨⟨0, 0, rfl⟩, .inr ⟨_, _, _, hw⟩⟩
    next => cases h
  | ecall => exact follows_of_environmentCall h
  | branch | ebreak => cases h; exact follows_of_same rfl rfl
  | arith _ rd | arithImm _ rd => cases h; exact ⟨⟨rd, _, rfl⟩, .inl rfl⟩
  | jal rd | jalr rd | lui rd | auipc rd => cases h; exact ⟨⟨rd, _, rfl⟩, .inl rfl⟩

theorem follows_of_step (h : m.step = .ok done) : done.Follows m := by
  unfold step at h
  split_ifs at h with hh
  · cases h
    exact follows_of_same rfl rfl
  · split at h
    next => cases h
    next word _ =>
      split at h
      next => cases h
      next i _ => exact follows_of_execute h

end Machine

/-- No instruction changes register 0. -/
theorem Executed.Follows.get_zero {done : Executed} {m : Machine} (h : done.Follows m) :
    done.machine.regs.get 0 = m.regs.get 0 := by
  obtain ⟨r, value, hr⟩ := h.regs
  rw [hr, RegisterFile.get_set_zero]

namespace Action

/-- How an action ends that leaves the outcome of an instruction. After a fault it leaves what there was
before. -/
def leaves (h : Hart) : Except Fault Executed → EStateM.Result Fault Hart Bool
  | .ok done => .ok done.more ⟨done.machine, h.console.send done.events⟩
  | .error fault => .error fault h

section
variable {α β : Type} (h : Hart)

theorem bind_apply (x : Action α) (f : α → Action β) :
    (x >>= f) h = match x h with
      | .ok a h => f a h
      | .error fault h => .error fault h := by
  rw [bind_run]
  cases x h <;> rfl

theorem pure_apply (a : α) : (pure a : Action α) h = .ok a h := rfl

theorem throw_apply (fault : Fault) : (throw fault : Action α) h = .error fault h := rfl

theorem get_apply : (get : Action Hart) h = .ok h h := rfl

theorem pc_apply : pc h = .ok h.machine.pc h := rfl

theorem advance_apply : advance h = .ok () { h with machine.pc := h.machine.pc + 4 } := rfl

theorem readRegister_apply (r : Reg) : readRegister r h = .ok (h.machine.regs.get r) h := rfl

theorem send_apply (event : Event) :
    send event h = .ok () { h with console := h.console.send [event] } := rfl

theorem halt_apply : halt h = .ok () { h with machine.halted := true } := rfl

theorem access_apply (memory : Memory → Except AccessError α) :
    access memory h =
      match memory h.machine.memory with
      | .ok a => .ok a h
      | .error e => .error (.memory e) h := by
  unfold access
  cases hm : memory h.machine.memory <;>
    simp [bind, EStateM.bind, get, getThe, MonadStateOf.get, EStateM.get, hm] <;> rfl

theorem store_apply (op : Store) (addr value : UInt64) :
    store op addr value h =
      match h.machine.memory.write op.width addr value with
      | .ok memory => .ok () { h with machine.memory := memory }
      | .error e => .error (.memory e) h := by
  unfold store
  rw [bind_apply, access_apply]
  cases h.machine.memory.write op.width addr value <;> rfl

end

theorem environmentCall_eq (h : Hart) : environmentCall h = leaves h h.machine.environmentCall := by
  unfold environmentCall Machine.environmentCall
  simp only [bind_apply, readRegister_apply]
  split
  next hn =>
    rw [hn]
    rfl
  next hn =>
    simp only [hn, bind_apply, access_apply]
    cases h.machine.memory.cString (h.machine.regs.get .a0) <;> rfl
  next hn =>
    simp only [hn, bind_apply, halt_apply, send_apply, pure_apply, advance_apply,
      Console.send_send]
    rfl
  next hn =>
    rw [hn]
    rfl
  next =>
    simp only [bind_apply, throw_apply]
    rfl

theorem perform_eq (i : Instruction) (h : Hart) : perform i h = leaves h (h.machine.execute i) := by
  cases i with
  | load op rd base offset =>
    simp only [perform, Machine.execute, bind_apply, readRegister_apply, access_apply]
    cases h.machine.memory.read op.width (h.machine.regs.get base + offset) <;> rfl
  | store op source base offset =>
    simp only [perform, Machine.execute, bind_apply, readRegister_apply, store_apply]
    cases h.machine.memory.write op.width (h.machine.regs.get base + offset)
      (h.machine.regs.get source) <;> rfl
  | branch op rs1 rs2 offset =>
    simp only [perform, Machine.execute, bind_apply, readRegister_apply]
    cases op.holds (h.machine.regs.get rs1) (h.machine.regs.get rs2) <;> rfl
  | ecall => exact environmentCall_eq h
  | _ => rfl

/-- The hart after register 0 is cleared. -/
def cleared (h : Hart) : Hart :=
  { h with machine.regs := h.machine.regs.put .zero 0 }

theorem cleared_of_zero {h : Hart} (hz : h.machine.regs.get 0 = 0) : cleared h = h := by
  have hr : h.machine.regs.put .zero 0 = h.machine.regs := by
    conv_rhs => rw [← h.machine.regs.put_get .zero]
    exact congrArg _ hz.symm
  unfold cleared
  rw [hr]

theorem finally_apply {α : Type} (x : Action α) (h : Hart) :
    (try x finally clearZero) h = match x h with
      | .ok a h => .ok a (cleared h)
      | .error fault h => .error fault (cleared h) := by
  simp only [tryFinally, Functor.map, EStateM.map, tryFinally']
  cases x h <;> rfl

theorem leaves_finally (i : Instruction) {h : Hart} (hz : h.machine.regs.get 0 = 0) :
    (try perform i finally clearZero) h = leaves h (h.machine.execute i) := by
  rw [finally_apply, perform_eq]
  cases he : h.machine.execute i with
  | error fault =>
    dsimp only [leaves]
    rw [cleared_of_zero hz]
  | ok done =>
    dsimp only [leaves]
    rw [cleared_of_zero ((Machine.follows_of_execute he).get_zero.trans hz)]

/-- A cycle leaves what the step gives. -/
theorem cycle_eq {h : Hart} (hz : h.machine.regs.get 0 = 0) : cycle h = leaves h h.machine.step := by
  unfold cycle Machine.step
  rw [bind_apply, get_apply]
  cases hh : h.machine.halted with
  | true =>
    simp only [hh, if_true, leaves, Console.send_nil, pure_apply]
  | false =>
    simp only [hh, Bool.false_eq_true, if_false, bind_apply, pc_apply, access_apply]
    cases h.machine.memory.readWord h.machine.pc with
    | error e => rfl
    | ok word =>
      dsimp only
      cases Instruction.ofWord? word with
      | none => rfl
      | some i => exact leaves_finally i hz

end Action

end RiscvToolkit
