/-!
Bounded histories. `entries` lists what can be undone, the latest first; a push on a full history drops
the oldest entry (`entries_push`), and `pop?` takes the latest (`entries_of_pop?`).
-/
namespace RiscvToolkit.Emulator

/-- The first `size` items of `kept` can be undone; those behind them are dropped in bulk, so that a
push takes constant time on average. -/
structure History (α : Type) where
  capacity : Nat
  kept : List α
  size : Nat
  /-- Pushes since the last time that items were dropped. -/
  pushes : Nat
  size_le_capacity : size ≤ capacity
  size_le_length : size ≤ kept.length

namespace History

variable {α : Type}

def empty (capacity : Nat) : History α where
  capacity
  kept := []
  size := 0
  pushes := 0
  size_le_capacity := Nat.zero_le _
  size_le_length := Nat.zero_le _

/-- What can be undone, the latest first. -/
def entries (h : History α) : List α :=
  h.kept.take h.size

def push (h : History α) (a : α) : History α :=
  if h.pushes < h.capacity then
    { capacity := h.capacity
      kept := a :: h.kept
      size := min (h.size + 1) h.capacity
      pushes := h.pushes + 1
      size_le_capacity := Nat.min_le_right _ _
      size_le_length :=
        Nat.le_trans (Nat.min_le_left _ _) (Nat.succ_le_succ h.size_le_length) }
  else
    { capacity := h.capacity
      kept := (a :: h.kept).take h.capacity
      size := min (h.size + 1) h.capacity
      pushes := 0
      size_le_capacity := Nat.min_le_right _ _
      size_le_length := by
        have := h.size_le_length
        rw [List.length_take, List.length_cons]
        omega }

/-- The latest entry, and the history without it. -/
def pop? (h : History α) : Option (α × History α) :=
  match hs : h.size, hk : h.kept with
  | size + 1, a :: kept =>
    some (a, {
      capacity := h.capacity
      kept
      size
      pushes := h.pushes
      size_le_capacity := by
        have := h.size_le_capacity
        omega
      size_le_length := by
        have := h.size_le_length
        rw [hs, hk, List.length_cons] at this
        omega })
  | _, _ => none

def clear (h : History α) : History α := empty h.capacity

def isEmpty (h : History α) : Bool := h.size == 0

@[simp] theorem entries_empty (capacity : Nat) : (empty capacity : History α).entries = [] := rfl

@[simp] theorem length_entries (h : History α) : h.entries.length = h.size := by
  rw [entries, List.length_take, Nat.min_eq_left h.size_le_length]

@[simp] theorem entries_push (h : History α) (a : α) :
    (h.push a).entries = (a :: h.entries).take h.capacity := by
  unfold push
  split
  · show (a :: h.kept).take (min (h.size + 1) h.capacity) =
      ((a :: h.kept).take (h.size + 1)).take h.capacity
    rw [List.take_take, Nat.min_comm]
  · show ((a :: h.kept).take h.capacity).take (min (h.size + 1) h.capacity) =
      ((a :: h.kept).take (h.size + 1)).take h.capacity
    rw [List.take_take, List.take_take, Nat.min_assoc, Nat.min_self, Nat.min_comm]

theorem eq_or_mem_of_mem_push {h : History α} {a b : α} (hb : b ∈ (h.push a).entries) :
    b = a ∨ b ∈ h.entries := by
  rw [entries_push] at hb
  exact List.mem_cons.mp (List.mem_of_mem_take hb)

@[simp] theorem capacity_push (h : History α) (a : α) : (h.push a).capacity = h.capacity := by
  unfold push
  split <;> rfl

theorem capacity_of_pop? {h h' : History α} {a : α} (hp : h.pop? = some (a, h')) :
    h'.capacity = h.capacity := by
  unfold pop? at hp
  split at hp <;> cases hp
  rfl

theorem entries_of_pop? {h h' : History α} {a : α} (hp : h.pop? = some (a, h')) :
    h.entries = a :: h'.entries := by
  unfold pop? at hp
  split at hp
  next n b rest hs hk =>
    cases hp
    have taken : h.kept.take h.size = a :: rest.take n := by rw [hs, hk, List.take_succ_cons]
    exact taken
  next => cases hp

theorem pop?_eq_none_iff (h : History α) : h.pop? = none ↔ h.entries = [] := by
  have size_le := h.size_le_length
  unfold pop?
  split
  next hs hk => simp [entries, hs, hk]
  next none =>
    refine ⟨fun _ => ?_, fun _ => rfl⟩
    cases hs : h.size with
    | zero => rw [entries, hs, List.take_zero]
    | succ size =>
      cases hk : h.kept with
      | nil =>
        rw [hs, hk] at size_le
        cases size_le
      | cons a kept => exact (none size a kept hs hk).elim

end History

end RiscvToolkit.Emulator
