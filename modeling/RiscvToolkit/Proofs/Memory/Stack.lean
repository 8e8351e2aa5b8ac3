import RiscvToolkit.Proofs.Memory.ByteMap
import RiscvToolkit.Proofs.Memory.Trimmed

/-! New stacks. A stack of another size is a zero one, and a stack of the same size is the one that there is, with all
that has been written to it. The other regions are left alone. -/
namespace RiscvToolkit.Memory

/-- True of a memory whose stack is as new: all zero, with nothing in use. -/
structure FreshStack (m : Memory) : Prop where
  zero : ∀ a ∈ m.range .stack, m.byte? a = some 0
  mark : m.mark .stack = 0

/-- True of memories that hold the same in a region, in the same place and under the same mark. -/
structure Keeps (m m' : Memory) (r : Region) : Prop where
  range : m'.range r = m.range r
  byte : ∀ a ∈ m.range r, m'.byte? a = m.byte? a
  mark : m'.mark r = m.mark r

variable (m : Memory) (size : Nat)

theorem stackSize_withStack : (m.withStack size).stackSize = min size segmentSize := by
  unfold withStack
  split_ifs with h
  · exact h.symm
  · rfl

theorem withStack_of_eq (h : min size segmentSize = m.stackSize) : m.withStack size = m :=
  if_pos h

theorem segment_withStack {r : Region} (hr : r ≠ .stack) :
    (m.withStack size).segment r = m.segment r := by
  unfold withStack
  split_ifs
  · rfl
  · cases r with
    | stack => exact absurd rfl hr
    | _ => rfl

/-- The stack grows down from a fixed address. -/
theorem base_add_stackSize : m.base .stack + m.stackSize = stackTop := by
  have hs := m.stackSize_le
  simp only [segmentSize] at hs
  simp only [base, stackTop]
  omega

theorem keeps_withStack {r : Region} (hr : r ≠ .stack) : m.Keeps (m.withStack size) r := by
  have hb : (m.withStack size).base r = m.base r := by
    cases r with
    | stack => exact absurd rfl hr
    | _ => rfl
  have hs : (m.withStack size).size r = m.size r := by
    cases r with
    | stack => exact absurd rfl hr
    | _ => rfl
  have hseg := m.segment_withStack size hr
  refine ⟨?_, fun a ha => ?_, ?_⟩
  · unfold range
    rw [hb, hs]
  · obtain ⟨b, hbyte⟩ := Option.isSome_iff_exists.mp ((m.isSome_byte?_iff a).mpr ⟨r, ha⟩)
    rw [hbyte]
    obtain ⟨hlo, hhi⟩ := ha
    obtain ⟨r', o, ho, hsize, hget⟩ := (m.byte?_eq_some_iff a b).mp hbyte
    -- both regions hold the address
    have hr' : r' = r :=
      eq_of_holds ((m.holds_iff r' a).mpr ⟨by omega, by omega⟩) ((m.holds_iff r a).mpr ⟨hlo, hhi⟩)
    subst hr'
    exact ((m.withStack size).byte?_eq_some_iff a b).mpr
      ⟨r', o, by rw [hb]; exact ho, by rw [hs]; exact hsize, by rw [hseg]; exact hget⟩
  · unfold mark
    rw [hseg]

theorem freshStack_of_ne (h : min size segmentSize ≠ m.stackSize) :
    (m.withStack size).FreshStack := by
  have hseg : (m.withStack size).segment .stack = .empty := by
    unfold withStack
    rw [if_neg h]
    rfl
  refine ⟨fun a ha => ?_, ?_⟩
  · obtain ⟨hlo, hhi⟩ := ha
    refine ((m.withStack size).byte?_eq_some_iff a 0).mpr
      ⟨.stack, a.toNat - (m.withStack size).base .stack, by omega, by omega, ?_⟩
    rw [hseg]
    exact Pages.get_blank _
  · unfold mark
    rw [hseg]
    rfl

/-- A memory that is given a stack has one of that size, or of as many bytes as a segment may have, which ends at the
fixed top; its data and text are what they were. The stack is as new if its size is another than before, and otherwise
it is kept as it is, so that it is as new only if it was before. -/
theorem withStack_replaces :
    (m.withStack size).stackSize = min size segmentSize ∧
    (m.withStack size).base .stack + (m.withStack size).stackSize = stackTop ∧
    (∀ r ≠ .stack, m.Keeps (m.withStack size) r) ∧
    (min size segmentSize = m.stackSize → m.withStack size = m) ∧
    ((m.withStack size).FreshStack ↔ min size segmentSize ≠ m.stackSize ∨ m.FreshStack) := by
  refine ⟨m.stackSize_withStack size, base_add_stackSize _, fun r hr => m.keeps_withStack size hr,
    m.withStack_of_eq size, fun hf => ?_, ?_⟩
  · by_cases h : min size segmentSize = m.stackSize
    · rw [m.withStack_of_eq size h] at hf
      exact .inr hf
    · exact .inl h
  · rintro (h | hf)
    · exact m.freshStack_of_ne size h
    · by_cases h : min size segmentSize = m.stackSize
      · rwa [m.withStack_of_eq size h]
      · exact m.freshStack_of_ne size h

/-- A byte on the stack outlives a new stack of the size that the stack has. -/
theorem withStack_keeps_written :
    ∃ m : Memory, empty.write .byte 0x7fffeffb 1 = .ok m ∧ m.Reachable ∧
      (m.withStack defaultStackSize).byte? 0x7fffeffb = some 1 ∧
      (m.withStack defaultStackSize).mark .stack = 1 ∧
      ¬(m.withStack defaultStackSize).FreshStack := by
  have hbyte : ((empty.write .byte 0x7fffeffb 1).toOption.map fun m =>
      ((m.withStack defaultStackSize).byte? 0x7fffeffb,
        (m.withStack defaultStackSize).mark .stack)) = some (some 1, 1) := by decide
  obtain ⟨m, hm, h⟩ := Option.map_eq_some_iff.mp hbyte
  obtain ⟨hb, hmark⟩ := Prod.mk.inj h
  rw [toOption_eq_some_iff] at hm
  refine ⟨m, hm, Reachable.empty.write hm, hb, hmark, fun hf => ?_⟩
  have hzero := hf.mark
  omega

end RiscvToolkit.Memory
