import RiscvToolkit.Machine.Step
import RiscvToolkit.Proofs.Memory.Same

/-! Machines that cannot be told apart, because their memories cannot: they execute alike. -/
namespace RiscvToolkit

structure Machine.Same (m n : Machine) : Prop where
  pc : m.pc = n.pc
  regs : m.regs = n.regs
  floats : m.floats = n.floats
  memory : m.memory.Same n.memory
  halted : m.halted = n.halted

structure Executed.Same (a b : Executed) : Prop where
  machine : a.machine.Same b.machine
  events : a.events = b.events
  more : a.more = b.more

namespace Machine.Same
variable {l m n : Machine}

theorem refl (m : Machine) : m.Same m :=
  ⟨rfl, rfl, rfl, .refl _, rfl⟩

theorem symm (h : m.Same n) : n.Same m :=
  ⟨h.pc.symm, h.regs.symm, h.floats.symm, h.memory.symm, h.halted.symm⟩

theorem trans (h₁ : l.Same m) (h₂ : m.Same n) : l.Same n :=
  ⟨h₁.pc.trans h₂.pc, h₁.regs.trans h₂.regs, h₁.floats.trans h₂.floats,
    h₁.memory.trans h₂.memory, h₁.halted.trans h₂.halted⟩

/-- Only the memories can differ. -/
theorem exists_memory (h : m.Same n) :
    ∃ memory, m.memory.Same memory ∧ n = { m with memory } := by
  obtain ⟨pc, regs, floats, memory, halted⟩ := n
  obtain ⟨rfl, rfl, rfl, hm, rfl⟩ := h
  exact ⟨memory, hm, rfl⟩

theorem environmentCall (h : m.Same n) :
    ExceptRel Executed.Same m.environmentCall n.environmentCall := by
  obtain ⟨memory, hm, rfl⟩ := h.exists_memory
  unfold Machine.environmentCall
  dsimp only
  split
  · exact .ok ⟨⟨rfl, rfl, rfl, hm, rfl⟩, rfl, rfl⟩
  · rw [hm.cString]
    cases memory.cString (m.regs.get .a0) with
    | error e => exact .error _
    | ok bytes => exact .ok ⟨⟨rfl, rfl, rfl, hm, rfl⟩, rfl, rfl⟩
  · exact .ok ⟨⟨rfl, rfl, rfl, hm, rfl⟩, rfl, rfl⟩
  · exact .ok ⟨⟨rfl, rfl, rfl, hm, rfl⟩, rfl, rfl⟩
  · exact .error _

theorem execute (h : m.Same n) (i : Instruction) :
    ExceptRel Executed.Same (m.execute i) (n.execute i) := by
  obtain ⟨memory, hm, rfl⟩ := h.exists_memory
  cases i with
  | load op rd base offset =>
    unfold Machine.execute
    dsimp only
    rw [hm.read]
    cases memory.read op.width (m.regs.get base + offset) with
    | error e => exact .error _
    | ok value => exact .ok ⟨⟨rfl, rfl, rfl, hm, rfl⟩, rfl, rfl⟩
  | store op source base offset =>
    have hw := hm.write op.width (m.regs.get base + offset) (m.regs.get source)
    unfold Machine.execute
    dsimp only
    obtain ⟨a, b, ha, hb, hab⟩ | ⟨e, ha, hb⟩ := hw.ok_or_error
    · rw [ha, hb]
      exact .ok ⟨⟨rfl, rfl, rfl, hab, rfl⟩, rfl, rfl⟩
    · rw [ha, hb]
      exact .error _
  | ecall => exact h.environmentCall
  | _ => exact .ok ⟨⟨rfl, rfl, rfl, hm, rfl⟩, rfl, rfl⟩

theorem step (h : m.Same n) : ExceptRel Executed.Same m.step n.step := by
  unfold Machine.step
  rw [← h.halted, ← h.pc, ← h.memory.readWord]
  split
  · exact .ok ⟨h, rfl, rfl⟩
  · cases m.memory.readWord m.pc with
    | error e => exact .error _
    | ok word =>
      dsimp only
      cases Instruction.ofWord? word with
      | none => exact .error _
      | some i => exact h.execute i

end Machine.Same

end RiscvToolkit
