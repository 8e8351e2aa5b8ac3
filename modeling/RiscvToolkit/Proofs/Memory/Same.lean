import RiscvToolkit.Proofs.Except
import RiscvToolkit.Proofs.Memory.Access

/-! Memories that cannot be told apart. They may differ as trees of pages, but every access gives the
same on both and leaves them so. -/
namespace RiscvToolkit

theorem Segment.untilZero_congr {s t : Segment} (before : List UInt8) (count offset : Nat)
    (h : ∀ k < count, s.bytes.get (offset + k) = t.bytes.get (offset + k)) :
    s.untilZero before count offset = t.untilZero before count offset := by
  induction count generalizing before offset with
  | zero => rfl
  | succ count ih =>
    have h0 : s.bytes.get offset = t.bytes.get offset := h 0 (Nat.succ_pos count)
    have hrest : ∀ k < count, s.bytes.get (offset + 1 + k) = t.bytes.get (offset + 1 + k) := by
      intro k hk
      rw [Nat.add_right_comm]
      exact h (k + 1) (Nat.succ_lt_succ hk)
    rw [untilZero, untilZero, h0, ih _ _ hrest]

namespace Memory

/-- Where accesses fall depends on the size of the stack alone. -/
theorem locate?_of_stackSize {m n : Memory} (h : m.stackSize = n.stackSize) (addr : UInt64)
    (count : Nat) : m.locate? addr count = n.locate? addr count := by
  have hb (r : Region) : m.base r = n.base r := by
    cases r with
    | stack => exact congrArg (stackTop - ·) h
    | _ => rfl
  have hs (r : Region) : m.size r = n.size r := by
    cases r with
    | stack => exact h
    | _ => rfl
  unfold Memory.locate? region? holds
  rw [funext hb, funext hs]

theorem read_eq_error_iff (m : Memory) (width : Width) (addr : UInt64) (e : AccessError) :
    m.read width addr = .error e ↔ m.locate? addr width.size = none ∧ e = .read addr := by
  unfold Memory.read load
  cases m.locate? addr width.size with
  | none =>
    constructor
    · rintro ⟨⟩
      exact ⟨rfl, rfl⟩
    · rintro ⟨-, rfl⟩
      rfl
  | some place =>
    constructor
    · rintro ⟨⟩
    · rintro ⟨h, -⟩
      cases h

/-- The same bytes in every region, under the same marks. -/
structure Same (m n : Memory) : Prop where
  stackSize : m.stackSize = n.stackSize
  mark (r : Region) : m.mark r = n.mark r
  byte (r : Region) : ∀ offset < m.size r,
    (m.segment r).bytes.get offset = (n.segment r).bytes.get offset

namespace Same
variable {l m n : Memory}

theorem size (h : m.Same n) (r : Region) : m.size r = n.size r := by
  cases r with
  | stack => exact h.stackSize
  | _ => rfl

theorem base (h : m.Same n) (r : Region) : m.base r = n.base r := by
  cases r with
  | stack => exact congrArg (stackTop - ·) h.stackSize
  | _ => rfl

theorem reach (h : m.Same n) (r : Region) (offset count : Nat) :
    m.reach r offset count = n.reach r offset count := by
  cases r with
  | stack => exact congrArg (· - offset) h.stackSize
  | _ => rfl

theorem refl (m : Memory) : m.Same m :=
  ⟨rfl, fun _ => rfl, fun _ _ _ => rfl⟩

theorem symm (h : m.Same n) : n.Same m :=
  ⟨h.stackSize.symm, fun r => (h.mark r).symm,
    fun r offset ho => (h.byte r offset (h.size r ▸ ho)).symm⟩

theorem trans (h₁ : l.Same m) (h₂ : m.Same n) : l.Same n :=
  ⟨h₁.stackSize.trans h₂.stackSize, fun r => (h₁.mark r).trans (h₂.mark r),
    fun r offset ho => (h₁.byte r offset ho).trans (h₂.byte r offset (h₁.size r ▸ ho))⟩

theorem locate? (h : m.Same n) (addr : UInt64) (count : Nat) :
    m.locate? addr count = n.locate? addr count :=
  locate?_of_stackSize h.stackSize addr count

theorem read_segment (h : m.Same n) {r : Region} {offset count : Nat}
    (hc : offset + count ≤ m.size r) :
    (m.segment r).bytes.read offset count = (n.segment r).bytes.read offset count := by
  rw [Pages.read_eq, Pages.read_eq]
  refine List.map_congr_left fun o ho => h.byte r o ?_
  rw [List.mem_range'_1] at ho
  omega

theorem load (h : m.Same n) (addr : UInt64) (count : Nat) :
    m.load addr count = n.load addr count := by
  unfold Memory.load
  rw [← h.locate?]
  cases hl : m.locate? addr count with
  | none => rfl
  | some place =>
    obtain ⟨r, offset⟩ := place
    exact congrArg _ (h.read_segment ((m.locate?_eq_some_iff ..).mp hl).2.2)

theorem read (h : m.Same n) (width : Width) (addr : UInt64) :
    m.read width addr = n.read width addr := by
  unfold Memory.read
  rw [h.load]

theorem readWord (h : m.Same n) (addr : UInt64) : m.readWord addr = n.readWord addr := by
  unfold Memory.readWord
  rw [h.read]

theorem byte? (h : m.Same n) (addr : UInt64) : m.byte? addr = n.byte? addr := by
  rw [byte?_eq_load, byte?_eq_load, h.load]

theorem cString (h : m.Same n) (addr : UInt64) : m.cString addr = n.cString addr := by
  unfold Memory.cString
  rw [← h.locate?]
  cases hl : m.locate? addr 1 with
  | none => rfl
  | some place =>
    obtain ⟨r, offset⟩ := place
    have hfit := ((m.locate?_eq_some_iff ..).mp hl).2.2
    have hs := Segment.untilZero_congr (s := m.segment r) (t := n.segment r) []
      (m.size r - offset) offset fun k hk => h.byte r _ (by omega)
    dsimp only
    rw [← h.size, ← h.base, hs]

theorem overwrite (h : m.Same n) {r : Region} {offset : Nat} {bytes : List UInt8}
    (hc : offset + bytes.length ≤ m.size r) :
    (m.overwrite r offset bytes).Same (n.overwrite r offset bytes) := by
  refine ⟨?_, fun r' => ?_, fun r' o ho => ?_⟩
  · cases r <;> exact h.stackSize
  · unfold Memory.mark
    by_cases hr : r = r'
    · subst hr
      rw [segment_overwrite_self, segment_overwrite_self, h.reach]
      exact congrArg (max · _) (h.mark r)
    · rw [segment_overwrite_of_ne m hr, segment_overwrite_of_ne n hr]
      exact h.mark r'
  · rw [size_overwrite] at ho
    by_cases hr : r = r'
    · subst hr
      have hle := hc.trans (m.size_le r)
      have ho' := ho.trans_le (m.size_le r)
      rw [segment_overwrite_self, segment_overwrite_self, Pages.get_write _ _ _ hle ho',
        Pages.get_write _ _ _ hle ho', h.byte r o ho]
    · rw [segment_overwrite_of_ne m hr, segment_overwrite_of_ne n hr]
      exact h.byte r' o ho

theorem store (h : m.Same n) (addr : UInt64) (bytes : List UInt8) :
    ExceptRel Same (m.store addr bytes) (n.store addr bytes) := by
  unfold Memory.store
  rw [← h.locate?]
  cases hl : m.locate? addr bytes.length with
  | none => exact .error _
  | some place =>
    obtain ⟨r, offset⟩ := place
    exact .ok (h.overwrite ((m.locate?_eq_some_iff ..).mp hl).2.2)

theorem write (h : m.Same n) (width : Width) (addr value : UInt64) :
    ExceptRel Same (m.write width addr value) (n.write width addr value) :=
  h.store addr _

end Same

end Memory

end RiscvToolkit
