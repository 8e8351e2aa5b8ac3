import RiscvToolkit.Proofs.Instruction.Fields
import RiscvToolkit.Proofs.Machine.Cycle

/-! Nothing but the exit call halts a machine, and nothing else tells the host so. -/
namespace RiscvToolkit

/-- Only one word stands for the environment call. -/
theorem Instruction.eq_of_ofWord?_ecall {word : UInt32} (h : ofWord? word = some .ecall) :
    word = 0x73 :=
  UInt32.toBitVec_inj.mp (encodes_of_ofWord? h).1

namespace Machine
variable {m : Machine} {done : Executed}

/-- What the exit call leaves. -/
def exited (m : Machine) : Executed :=
  ⟨{ m with pc := m.pc + 4, halted := true }, [.output exitNotice, .halted], false⟩

/-- True of what an instruction leaves that halts nothing. -/
def Continues (m : Machine) (done : Executed) : Prop :=
  done.machine.halted = m.halted ∧ Event.halted ∉ done.events

theorem exited_of_environmentCall (h : m.environmentCall = .ok done) :
    m.Continues done ∨ m.regs.get .a7 = 10 ∧ done = m.exited := by
  unfold environmentCall at h
  dsimp only at h
  split at h
  next => cases h; exact .inl ⟨rfl, by simp⟩
  next => split at h <;> cases h; exact .inl ⟨rfl, by simp⟩
  next hn => cases h; exact .inr ⟨UInt64.toNat_inj.mp hn, rfl⟩
  next => cases h; exact .inl ⟨rfl, by simp⟩
  next => cases h

theorem exited_of_execute {i : Instruction} (h : m.execute i = .ok done) :
    m.Continues done ∨ i = .ecall ∧ m.regs.get .a7 = 10 ∧ done = m.exited := by
  cases i with
  | load | store =>
    unfold execute at h
    dsimp only at h
    split at h <;> cases h
    exact .inl ⟨rfl, List.not_mem_nil⟩
  | ecall => exact (exited_of_environmentCall h).imp_right fun hx => ⟨rfl, hx⟩
  | _ => cases h; exact .inl ⟨rfl, List.not_mem_nil⟩

/-- An instruction after which a run goes on halts nothing. -/
theorem halted_of_execute {i : Instruction} (h : m.execute i = .ok done) (hm : done.more = true) :
    done.machine.halted = m.halted := by
  obtain ⟨hh, -⟩ | ⟨-, -, rfl⟩ := exited_of_execute h
  · exact hh
  · cases hm

theorem exited_of_step (hr : m.halted = false) (h : m.step = .ok done) :
    m.Continues done ∨
      m.memory.readWord m.pc = .ok 0x73 ∧ m.regs.get .a7 = 10 ∧ done = m.exited := by
  unfold step at h
  rw [hr] at h
  cases hw : m.memory.readWord m.pc with
  | error e => rw [hw] at h; cases h
  | ok word =>
    rw [hw] at h
    dsimp only at h
    cases hi : Instruction.ofWord? word with
    | none => rw [hi] at h; cases h
    | some i =>
      rw [hi] at h
      refine (exited_of_execute h).imp_right fun ⟨hecall, hexit⟩ => ?_
      rw [hecall] at hi
      exact ⟨congrArg _ (Instruction.eq_of_ofWord?_ecall hi), hexit⟩

/-- A machine that halts tells so, once. -/
theorem count_halted_of_step (hr : m.halted = false) (h : m.step = .ok done) :
    done.events.count .halted = done.machine.halted.toNat := by
  obtain ⟨hh, hn⟩ | ⟨-, -, rfl⟩ := exited_of_step hr h
  · rw [hh, hr, List.count_eq_zero_of_not_mem hn]
    rfl
  · rfl

end Machine

end RiscvToolkit
