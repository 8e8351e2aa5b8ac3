import RiscvToolkit.Memory.Trimmed
import RiscvToolkit.Proofs.Memory.Same

/-! Trimmed memories hold all that there is: beyond its mark a region is zero, whatever has been done to
the memory. -/
namespace RiscvToolkit

namespace Pages
variable {depth : Nat}

theorem length_read (pages : Pages depth) (offset count : Nat) :
    (pages.read offset count).length = count := by
  rw [read_eq, List.length_map, List.length_range']

/-- A cut-out is put back in its place, into zeros. -/
theorem get_write_read (pages : Pages depth) {offset count a : Nat}
    (h : offset + count ≤ 64 * pageCount depth) (ha : a < 64 * pageCount depth) :
    ((blank : Pages depth).write offset (pages.read offset count)).get a =
      if offset ≤ a ∧ a < offset + count then pages.get a else 0 := by
  have hl := pages.length_read offset count
  rw [get_write _ _ _ (hl.symm ▸ h) ha, hl, get_blank]
  split
  next hin =>
    have hi : a - offset < count := by omega
    have hs : offset + 1 * (a - offset) = a := by omega
    rw [read_eq, List.getD_eq_getElem _ _ (by simpa using hi), List.getElem_map,
      List.getElem_range', hs]
  next => rfl

end Pages

namespace Memory

/-- The memories that a host can make: zero ones, and what writes, sections, new stacks and copies from
trimmed memories turn them into. -/
inductive Reachable : Memory → Prop
  | empty : Reachable .empty
  | ofStackSize (size : Nat) : Reachable (.ofStackSize size)
  | write {m m' : Memory} {width : Width} {addr value : UInt64} (hm : Reachable m)
      (h : m.write width addr value = .ok m') : Reachable m'
  | store {m m' : Memory} {addr : UInt64} {bytes : List UInt8} (hm : Reachable m)
      (h : m.store addr bytes = .ok m') : Reachable m'
  | withStack {m : Memory} (hm : Reachable m) (size : Nat) : Reachable (m.withStack size)
  | expand {m : Memory} (hm : Reachable m) : Reachable m.trim.expand

/-- True of the offsets up to which a region has been written. -/
def Covers (m : Memory) (r : Region) (offset : Nat) : Prop :=
  m.reach r offset 1 ≤ m.mark r

/-- No mark is beyond its region, and no byte that is not zero is beyond a mark. -/
structure Marked (m : Memory) : Prop where
  mark_le (r : Region) : m.mark r ≤ m.size r
  zero (r : Region) : ∀ offset < m.size r, ¬m.Covers r offset → (m.segment r).bytes.get offset = 0

theorem reach_le_size {m : Memory} {r : Region} {offset count : Nat}
    (h : offset + count ≤ m.size r) : m.reach r offset count ≤ m.size r := by
  cases r with
  | stack => exact Nat.sub_le _ _
  | _ => exact h

/-- A write reaches all of its bytes. -/
theorem reach_le_reach (m : Memory) {r : Region} {offset count a : Nat} (h : offset ≤ a)
    (ha : a < offset + count) : m.reach r a 1 ≤ m.reach r offset count := by
  cases r with
  | stack => exact Nat.sub_le_sub_left h _
  | _ => exact ha

@[simp] theorem reach_overwrite (m : Memory) (r r' : Region) (o offset count : Nat)
    (bytes : List UInt8) : (m.overwrite r o bytes).reach r' offset count = m.reach r' offset count := by
  cases r <;> rfl

theorem mark_overwrite (m : Memory) (r r' : Region) (o : Nat) (bytes : List UInt8) :
    (m.overwrite r o bytes).mark r' =
      if r = r' then max (m.mark r') (m.reach r' o bytes.length) else m.mark r' := by
  unfold mark
  split
  next h =>
    subst h
    rw [segment_overwrite_self]
  next h => rw [segment_overwrite_of_ne m h]

namespace Marked
variable {m n : Memory}

theorem ofStackSize (size : Nat) : (Memory.ofStackSize size).Marked := by
  refine ⟨fun r => ?_, fun r offset _ _ => ?_⟩
  · cases r <;> exact Nat.zero_le _
  · cases r <;> exact Pages.get_blank offset

theorem congr (h : m.Same n) (hm : m.Marked) : n.Marked := by
  refine ⟨fun r => ?_, fun r offset ho hc => ?_⟩
  · rw [← h.mark, ← h.size]
    exact hm.mark_le r
  · rw [← h.size] at ho
    rw [← h.byte r offset ho]
    refine hm.zero r offset ho fun hcov => hc ?_
    unfold Covers
    rwa [← h.reach, ← h.mark]

theorem overwrite (hm : m.Marked) {r : Region} {o : Nat} {bytes : List UInt8}
    (h : o + bytes.length ≤ m.size r) : (m.overwrite r o bytes).Marked := by
  refine ⟨fun r' => ?_, fun r' a ha hc => ?_⟩
  · rw [mark_overwrite, size_overwrite]
    split
    next hr =>
      subst hr
      exact max_le (hm.mark_le r) (reach_le_size h)
    next => exact hm.mark_le r'
  · rw [size_overwrite] at ha
    unfold Covers at hc
    rw [reach_overwrite, mark_overwrite] at hc
    by_cases hr : r = r'
    · subst hr
      rw [if_pos rfl, le_max_iff, not_or] at hc
      -- a byte of the write would be covered
      have hout : ¬(o ≤ a ∧ a < o + bytes.length) := fun hin =>
        hc.2 (m.reach_le_reach hin.1 hin.2)
      rw [segment_overwrite_self, Pages.get_write _ _ _ (h.trans (m.size_le r))
        (ha.trans_le (m.size_le r)), if_neg hout]
      exact hm.zero r a ha hc.1
    · rw [if_neg hr] at hc
      rw [segment_overwrite_of_ne m hr]
      exact hm.zero r' a ha hc

theorem store {m' : Memory} {addr : UInt64} {bytes : List UInt8} (hm : m.Marked)
    (h : m.store addr bytes = .ok m') : m'.Marked := by
  obtain ⟨r, o, hl, rfl⟩ := (m.store_eq_ok_iff m' addr bytes).mp h
  exact hm.overwrite ((m.locate?_eq_some_iff ..).mp hl).2.2

theorem withStack (hm : m.Marked) (size : Nat) : (m.withStack size).Marked := by
  unfold Memory.withStack
  split
  · exact hm
  · refine ⟨fun r => ?_, fun r offset ho hc => ?_⟩
    · cases r with
      | stack => exact Nat.zero_le _
      | data => exact hm.mark_le .data
      | text => exact hm.mark_le .text
    · cases r with
      | stack => exact Pages.get_blank offset
      | data => exact hm.zero .data offset ho hc
      | text => exact hm.zero .text offset ho hc

end Marked

theorem le_keptBytes {mark size : Nat} (h : mark ≤ size) : mark ≤ keptBytes mark size := by
  unfold keptBytes
  omega

theorem keptBytes_le (mark size : Nat) : keptBytes mark size ≤ size :=
  Nat.min_le_right _ _

/-- A region that counts from its base is given back by the bytes under its mark. -/
private theorem get_expand_low {m : Memory} (hm : m.Marked) {r : Region} {a : Nat}
    (hr : ∀ offset, m.reach r offset 1 = offset + 1) (ha : a < m.size r) :
    ((Pages.blank : Pages 16).write 0
      ((m.segment r).bytes.read 0 (keptBytes (m.mark r) (m.size r)))).get a =
      (m.segment r).bytes.get a := by
  have hle := m.size_le r
  have hk := keptBytes_le (m.mark r) (m.size r)
  rw [Pages.get_write_read _ (by omega) (by omega)]
  split
  next => rfl
  next hout =>
    have hmark := le_keptBytes (hm.mark_le r)
    refine (hm.zero r a ha fun hc => hout ⟨Nat.zero_le a, ?_⟩).symm
    unfold Covers at hc
    rw [hr] at hc
    omega

private theorem get_expand_stack {m : Memory} (hm : m.Marked) {a : Nat} (ha : a < m.stackSize) :
    (m.trim.expand.stack.bytes).get a = m.stack.bytes.get a := by
  have hle := m.size_le .stack
  have hk := keptBytes_le m.stack.mark m.stackSize
  have hmark : m.stack.mark ≤ keptBytes m.stack.mark m.stackSize := le_keptBytes (hm.mark_le .stack)
  change m.stackSize ≤ _ at hle
  unfold trim TrimmedMemory.expand
  dsimp only
  rw [Pages.length_read, Pages.get_write_read _ (by omega) (by omega)]
  split
  next => rfl
  next hout =>
    refine (hm.zero .stack a ha fun hc => hout ?_).symm
    change m.stackSize - a ≤ m.stack.mark at hc
    omega

theorem same_expand_trim {m : Memory} (hm : m.Marked) : m.trim.expand.Same m := by
  refine ⟨rfl, fun r => ?_, fun r a ha => ?_⟩
  · cases r <;> rfl
  · cases r with
    | data => exact get_expand_low hm (r := .data) (fun _ => rfl) ha
    | text => exact get_expand_low hm (r := .text) (fun _ => rfl) ha
    | stack => exact get_expand_stack hm ha

theorem Reachable.marked {m : Memory} (h : m.Reachable) : m.Marked := by
  induction h with
  | empty => exact .ofStackSize _
  | ofStackSize size => exact .ofStackSize size
  | write _ h ih => exact ih.store h
  | store _ h ih => exact ih.store h
  | withStack _ size ih => exact ih.withStack size
  | expand _ ih => exact ih.congr (same_expand_trim ih).symm

theorem keptBytes_eq_ceilDiv (mark size : Nat) :
    keptBytes mark size = min (4 * (mark ⌈/⌉ 4)) size := by
  unfold keptBytes
  rw [Nat.ceilDiv_eq_add_pred_div, Nat.mul_comm]
  rfl

/-- Cutting a memory at its marks loses nothing, and keeps no more than the marks ask for. -/
theorem expand_trim {m : Memory} (h : m.Reachable) :
    m.trim.expand.Same m ∧ (∀ addr, m.trim.expand.byte? addr = m.byte? addr) ∧
      m.trim.byteCount =
        min (4 * (m.mark .data ⌈/⌉ 4)) (m.size .data) +
          min (4 * (m.mark .text ⌈/⌉ 4)) (m.size .text) +
          min (4 * (m.mark .stack ⌈/⌉ 4)) (m.size .stack) := by
  have hs := same_expand_trim h.marked
  refine ⟨hs, hs.byte?, ?_⟩
  unfold TrimmedMemory.byteCount trim
  simp only [Pages.length_read, keptBytes_eq_ceilDiv]
  rfl

/-- A byte at the bottom of a stack of six: the mark is rounded up past the region. -/
theorem expand_trim_oddStack :
    ∃ m : Memory, (Memory.ofStackSize 6).store 0x7fffeff6 [0x5a] = .ok m ∧ m.Reachable ∧
      m.trim.expand.Same m ∧ m.trim.byteCount = 6 := by
  have hs : (Memory.ofStackSize 6).store 0x7fffeff6 [0x5a] =
      .ok ((Memory.ofStackSize 6).overwrite .stack 0 [0x5a]) :=
    (store_eq_ok_iff ..).mpr ⟨.stack, 0, by decide, rfl⟩
  have hr := Reachable.store (.ofStackSize 6) hs
  obtain ⟨same, -, count⟩ := expand_trim hr
  refine ⟨_, hs, hr, same, count.trans ?_⟩
  rw [mark_overwrite, mark_overwrite, mark_overwrite]
  decide

end Memory

end RiscvToolkit
