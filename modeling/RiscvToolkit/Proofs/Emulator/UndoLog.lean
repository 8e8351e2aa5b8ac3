import RiscvToolkit.Proofs.Emulator.Operation
import RiscvToolkit.Proofs.Machine.Snapshot

/-! The states before successful steps as a plain list, cut to the capacity. An emulator, with its trimmed
snapshots, cannot be told apart from a machine that keeps this list. -/
namespace RiscvToolkit
open Emulator (Config StopFlag Outcome Operation Answer History)

/-- A machine that keeps the states before its successful steps, the latest first. -/
structure UndoLog where
  config : Config
  initial : Machine
  machine : Machine
  log : List Machine
  breakpoints : Finset UInt64
  pausedAt : Option UInt64

namespace UndoLog

def load (memory : Memory) (entry : UInt64) (config : Config) : UndoLog :=
  let machine :=
    (Machine.ofMemory (memory.withStack config.stackSize)).enter entry config.initStackPointer
  { config, machine, initial := machine, log := [], breakpoints := ∅, pausedAt := none }

/-- The log after a step that succeeds: no longer than the capacity. -/
def advanced (u : UndoLog) (done : Executed) : UndoLog :=
  { u with
    machine := done.machine
    log := (u.machine :: u.log).take u.config.historyCapacity
    pausedAt := none }

def tryStep (u : UndoLog) : Except Fault Bool × UndoLog :=
  if u.machine.halted then (.ok false, u)
  else match u.machine.step with
    | .ok done => (.ok done.more, u.advanced done)
    | .error fault => (.error fault, u)

def step (u : UndoLog) : Bool × UndoLog :=
  match u.tryStep with
  | (.ok more, u) => (more, u)
  | (.error _, u) => (false, u)

def runBurst (flag : StopFlag) (looks : Nat) : Nat → UndoLog → Outcome × UndoLog
  | 0, u => (.yielded, u)
  | budget + 1, u =>
    if flag.isUp looks then (.stopped, u)
    else if u.machine.pc ∈ u.breakpoints ∧ u.pausedAt ≠ some u.machine.pc then
      (.breakpoint u.machine.pc, { u with pausedAt := some u.machine.pc })
    else match u.tryStep with
      | (.ok true, u) => u.runBurst flag (looks + 1) budget
      | (.ok false, u) => (if u.machine.halted then .halted else .paused, u)
      | (.error fault, u) => (.faulted fault, u)

def runFrom (flag : StopFlag) (looks : Nat) (u : UndoLog) : Outcome × UndoLog :=
  if u.machine.halted then (.halted, u) else u.runBurst flag looks u.config.burstSteps

def runToEndFrom (flag : StopFlag) (looks : Nat) : Nat → UndoLog → Outcome × UndoLog
  | 0, u => (.yielded, u)
  | bursts + 1, u =>
    match u.runFrom flag looks with
    | (.yielded, u) => u.runToEndFrom flag (looks + u.config.burstSteps) bursts
    | result => result

def stepBack (u : UndoLog) : Bool × UndoLog :=
  match u.log with
  | before :: log => (true, { u with machine := before, log, pausedAt := none })
  | [] => (false, u)

def perform (u : UndoLog) : Operation → Answer × UndoLog
  | .step => u.step.map .told id
  | .tryStep => u.tryStep.map .tried id
  | .run flag => (u.runFrom flag 0).map .ran id
  | .runToEnd flag bursts => (u.runToEndFrom flag 0 bursts).map .ran id
  | .stepBack => u.stepBack.map .told id
  | .reset => (.done, { u with machine := u.initial, log := [], pausedAt := none })
  | .setBreakpoint addr =>
    (.told (addr ∉ u.breakpoints), { u with breakpoints := insert addr u.breakpoints })
  | .clearBreakpoint addr =>
    (.told (addr ∈ u.breakpoints), { u with breakpoints := u.breakpoints.erase addr })
  | .clearBreakpoints => (.done, { u with breakpoints := ∅ })
  | .setConsole _ => (.done, u)

def performAll (u : UndoLog) : List Operation → List Answer × UndoLog
  | [] => ([], u)
  | op :: rest =>
    let (answers, last) := (u.perform op).2.performAll rest
    ((u.perform op).1 :: answers, last)

end UndoLog

/-- No state that the log stands for has a byte beyond a mark. -/
structure UndoLog.Marked (u : UndoLog) : Prop where
  machine : u.machine.memory.Marked
  initial : u.initial.memory.Marked
  log : ∀ m ∈ u.log, m.memory.Marked

namespace Emulator

theorem toFinset_insertAddress (addr : UInt64) (addrs : List UInt64) :
    (insertAddress addr addrs).toFinset = insert addr addrs.toFinset := by
  induction addrs with
  | nil => rfl
  | cons a rest ih =>
    unfold insertAddress
    split_ifs with hlt heq
    · rw [List.toFinset_cons]
    · rw [heq, List.toFinset_cons, Finset.insert_idem]
    · rw [List.toFinset_cons, List.toFinset_cons, ih, Finset.insert_comm]

/-- True of an emulator and a log that stand for the same states. -/
structure Tracks (e : Emulator) (u : UndoLog) : Prop where
  config : e.config = u.config
  capacity : e.history.capacity = u.config.historyCapacity
  machine : e.machine.Same u.machine
  initial : e.initial.restore.Same u.initial
  history : List.Forall₂ (fun s m => s.restore.Same m) e.history.entries u.log
  breakpoints : e.breakpoints.toFinset = u.breakpoints
  pausedAt : e.pausedAt = u.pausedAt
  zeroed : e.Zeroed
  marked : u.Marked

/-- The same answer, and then the same states. -/
structure Agree {α : Type} (a : α × Emulator) (b : α × UndoLog) : Prop where
  answer : a.1 = b.1
  tracks : a.2.Tracks b.2

theorem Agree.map {α β : Type} {a : α × Emulator} {b : α × UndoLog} (h : Agree a b) (f : α → β) :
    Agree (f a.1, a.2) (b.map f id) :=
  ⟨congrArg f h.answer, h.tracks⟩

theorem tracks_load {memory : Memory} (hm : memory.Marked) (entry : UInt64) (config : Config) :
    (load memory entry config).Tracks (.load memory entry config) := by
  have hs : ((Machine.ofMemory (memory.withStack config.stackSize)).enter entry
      config.initStackPointer).memory.Marked := hm.withStack _
  exact {
    config := rfl
    capacity := rfl
    machine := .refl _
    initial := Machine.same_restore_snapshot hs
    history := .nil
    breakpoints := rfl
    pausedAt := rfl
    zeroed := zeroed_load memory entry config
    marked := ⟨hs, hs, fun m hmem => nomatch hmem⟩ }

namespace Tracks
variable {e : Emulator} {u : UndoLog}

theorem console (h : e.Tracks u) (console : Console) : { e with console }.Tracks u :=
  { h with zeroed := kept_zeroed.console h.zeroed console }

theorem pause (h : e.Tracks u) :
    { e with pausedAt := some e.machine.pc }.Tracks
      { u with pausedAt := some u.machine.pc } :=
  { h with
    pausedAt := by rw [h.machine.pc]
    zeroed := kept_zeroed.pause h.zeroed
    marked := { h.marked with } }

theorem advanced (h : e.Tracks u) (hh : e.machine.halted = false) {done done' : Executed}
    (hs : e.machine.step = .ok done) (hs' : u.machine.step = .ok done')
    (hd : done.Same done') : (e.advanced done).Tracks (u.advanced done') := by
  have he : e.tryStep = .ok done.more (e.advanced done) := by
    rw [tryStep_eq h.zeroed.machine, hh, hs]
    rfl
  have hsnap : e.machine.snapshot.restore.Same u.machine :=
    (Machine.same_restore_snapshot (h.marked.machine.congr h.machine.memory.symm)).trans h.machine
  exact {
    config := h.config
    capacity := (History.capacity_push ..).trans h.capacity
    machine := hd.machine
    initial := h.initial
    history := by
      have hcons : List.Forall₂ (fun (s : Snapshot) m => s.restore.Same m)
          (e.machine.snapshot :: e.history.entries) (u.machine :: u.log) := .cons hsnap h.history
      change List.Forall₂ _ (e.history.push e.machine.snapshot).entries _
      rw [History.entries_push, h.capacity]
      exact List.forall₂_take _ hcons
    breakpoints := h.breakpoints
    pausedAt := rfl
    zeroed := kept_zeroed.advance h.zeroed he
    marked := {
      machine := (Machine.follows_of_step hs').marked h.marked.machine
      initial := h.marked.initial
      log := fun m hmem => by
        rcases List.mem_cons.mp (List.mem_of_mem_take hmem) with rfl | hmem
        · exact h.marked.machine
        · exact h.marked.log m hmem } }

/-- A step of a running machine: both go on, or neither changes. -/
theorem tryStep_of_running (h : e.Tracks u) (hh : e.machine.halted = false) :
    (∃ done done', e.tryStep = .ok done.more (e.advanced done) ∧
      u.tryStep = (.ok done.more, u.advanced done') ∧
      (e.advanced done).Tracks (u.advanced done')) ∨
      ∃ fault, e.tryStep = .error fault e ∧ u.tryStep = (.error fault, u) := by
  rw [tryStep_eq h.zeroed.machine, UndoLog.tryStep, ← h.machine.halted, hh]
  obtain ⟨done, done', hs, hs', hd⟩ | ⟨fault, hs, hs'⟩ := h.machine.step.ok_or_error
  · have ht := h.advanced hh hs hs' hd
    rw [hs, hs']
    refine .inl ⟨done, done', rfl, ?_, ht⟩
    rw [hd.more]
    rfl
  · rw [hs, hs']
    exact .inr ⟨fault, rfl, rfl⟩

theorem tryStep (h : e.Tracks u) :
    (∃ more e' u', e.tryStep = .ok more e' ∧ u.tryStep = (.ok more, u') ∧ e'.Tracks u') ∨
      ∃ fault, e.tryStep = .error fault e ∧ u.tryStep = (.error fault, u) := by
  cases hh : e.machine.halted with
  | true =>
    refine .inl ⟨false, e, u, ?_, ?_, h⟩
    · rw [tryStep_eq h.zeroed.machine, hh]
      rfl
    · rw [UndoLog.tryStep, ← h.machine.halted, hh]
      rfl
  | false =>
    obtain ⟨done, done', he, hu, ht⟩ | hf := h.tryStep_of_running hh
    · exact .inl ⟨_, _, _, he, hu, ht⟩
    · exact .inr hf

theorem step (h : e.Tracks u) : Agree e.step u.step := by
  unfold Emulator.step UndoLog.step
  obtain ⟨more, e', u', he, hu, ht⟩ | ⟨fault, he, hu⟩ := h.tryStep
  · rw [he, hu]
    exact ⟨rfl, ht⟩
  · rw [he, hu]
    exact ⟨rfl, h.console _⟩

theorem atBreakpoint_iff (h : e.Tracks u) :
    e.atBreakpoint = true ↔
      u.machine.pc ∈ u.breakpoints ∧ u.pausedAt ≠ some u.machine.pc := by
  unfold atBreakpoint
  rw [← h.breakpoints, ← h.pausedAt, ← h.machine.pc]
  simp

theorem runBurst (h : e.Tracks u) (flag : StopFlag) (looks budget : Nat) :
    Agree (e.runBurst flag looks budget) (u.runBurst flag looks budget) := by
  induction budget generalizing e u looks with
  | zero => exact ⟨rfl, h⟩
  | succ budget ih =>
    unfold Emulator.runBurst UndoLog.runBurst
    by_cases hf : flag.isUp looks = true
    · rw [if_pos hf, if_pos hf]
      exact ⟨rfl, h⟩
    rw [if_neg hf, if_neg hf]
    by_cases hb : e.atBreakpoint = true
    · rw [if_pos hb, if_pos (h.atBreakpoint_iff.mp hb)]
      exact ⟨congrArg Outcome.breakpoint h.machine.pc, h.pause⟩
    rw [if_neg hb, if_neg (mt h.atBreakpoint_iff.mpr hb)]
    obtain ⟨more, e', u', he, hu, ht⟩ | ⟨fault, he, hu⟩ := h.tryStep
    · rw [he, hu]
      cases more with
      | true => exact ih ht (looks + 1)
      | false => exact ⟨by dsimp only; rw [ht.machine.halted], ht⟩
    · rw [he, hu]
      exact ⟨rfl, h.console _⟩

theorem runFrom (h : e.Tracks u) (flag : StopFlag) (looks : Nat) :
    Agree (e.runFrom flag looks) (u.runFrom flag looks) := by
  unfold Emulator.runFrom UndoLog.runFrom
  rw [← h.machine.halted, ← h.config]
  split
  · exact ⟨rfl, h⟩
  · exact h.runBurst flag looks _

theorem runToEndFrom (h : e.Tracks u) (flag : StopFlag) (looks bursts : Nat) :
    Agree (e.runToEndFrom flag looks bursts) (u.runToEndFrom flag looks bursts) := by
  induction bursts generalizing e u looks with
  | zero => exact ⟨rfl, h⟩
  | succ bursts ih =>
    obtain ⟨ho, ht⟩ := h.runFrom flag looks
    unfold Emulator.runToEndFrom UndoLog.runToEndFrom
    generalize e.runFrom flag looks = a at ho ht ⊢
    generalize u.runFrom flag looks = b at ho ht ⊢
    obtain ⟨outcome, e'⟩ := a
    obtain ⟨_, u'⟩ := b
    obtain rfl : outcome = _ := ho
    cases outcome with
    | yielded =>
      have hc : e'.config = u'.config := ht.config
      dsimp only
      rw [hc]
      exact ih ht _
    | _ => exact ⟨rfl, ht⟩

/-- Going back takes the same state from both. -/
theorem stepBack (h : e.Tracks u) :
    (∃ e' before log, e.stepBack? = some e' ∧ u.log = before :: log ∧
      e'.Tracks { u with machine := before, log, pausedAt := none }) ∨
      e.stepBack? = none ∧ u.log = [] := by
  have hh := h.history
  unfold stepBack?
  cases hp : e.history.pop? with
  | none =>
    rw [(History.pop?_eq_none_iff _).mp hp] at hh
    exact .inr ⟨rfl, List.forall₂_nil_left_iff.mp hh⟩
  | some popped =>
    obtain ⟨s, history⟩ := popped
    rw [History.entries_of_pop? hp] at hh
    obtain ⟨before, log, hs, hl, hu⟩ := List.forall₂_cons_left_iff.mp hh
    have hb : e.stepBack? =
        some { e with machine := s.restore, history, pausedAt := none } := by
      unfold stepBack?
      rw [hp]
      rfl
    have hmem : ∀ m ∈ before :: log, m.memory.Marked := hu ▸ h.marked.log
    refine .inl ⟨_, before, log, rfl, hu, { h with
      capacity := (History.capacity_of_pop? hp).trans h.capacity
      machine := hs
      history := hl
      pausedAt := rfl
      zeroed := kept_zeroed.stepBack h.zeroed hb
      marked := ⟨hmem before List.mem_cons_self, h.marked.initial,
        fun m hm => hmem m (List.mem_cons_of_mem before hm)⟩ }⟩

theorem perform (h : e.Tracks u) (op : Operation) : Agree (e.perform op) (u.perform op) := by
  cases op with
  | step => exact h.step.map Answer.told
  | tryStep =>
    unfold Emulator.perform UndoLog.perform
    obtain ⟨more, e', u', he, hu, ht⟩ | ⟨fault, he, hu⟩ := h.tryStep
    · dsimp only
      rw [he, hu]
      exact ⟨rfl, ht⟩
    · dsimp only
      rw [he, hu]
      exact ⟨rfl, h⟩
  | run flag => exact (h.runFrom flag 0).map Answer.ran
  | runToEnd flag bursts => exact (h.runToEndFrom flag 0 bursts).map Answer.ran
  | stepBack =>
    unfold Emulator.perform UndoLog.perform UndoLog.stepBack
    obtain ⟨e', before, log, he, hu, ht⟩ | ⟨he, hu⟩ := h.stepBack
    · dsimp only
      rw [he, hu]
      exact ⟨rfl, ht⟩
    · dsimp only
      rw [he, hu]
      exact ⟨rfl, h⟩
  | reset =>
    exact ⟨rfl, { h with
      machine := h.initial
      history := .nil
      pausedAt := rfl
      zeroed := kept_zeroed.reset h.zeroed
      marked := ⟨h.marked.initial, h.marked.initial, fun m hm => nomatch hm⟩ }⟩
  | setBreakpoint addr =>
    have hb := toFinset_insertAddress addr e.breakpoints
    refine ⟨?_, { h with
      breakpoints := hb.trans (congrArg _ h.breakpoints)
      zeroed := kept_zeroed.breakpoints h.zeroed _
      marked := { h.marked with } }⟩
    change Answer.told (!e.breakpoints.contains addr) = .told (addr ∉ u.breakpoints)
    rw [← h.breakpoints]
    simp
  | clearBreakpoint addr =>
    refine ⟨?_, { h with
      breakpoints := ?_
      zeroed := kept_zeroed.breakpoints h.zeroed _
      marked := { h.marked with } }⟩
    · change Answer.told (e.breakpoints.contains addr) = .told (addr ∈ u.breakpoints)
      rw [← h.breakpoints]
      simp
    · change (e.breakpoints.filter (· ≠ addr)).toFinset = u.breakpoints.erase addr
      rw [← h.breakpoints]
      ext a
      simp [and_comm]
  | clearBreakpoints =>
    exact ⟨rfl, { h with
      breakpoints := rfl
      zeroed := kept_zeroed.breakpoints h.zeroed _
      marked := { h.marked with } }⟩
  | setConsole console => exact ⟨rfl, h.console console⟩

theorem performAll (h : e.Tracks u) (ops : List Operation) :
    Agree (e.performAll ops) (u.performAll ops) := by
  induction ops generalizing e u with
  | nil => exact ⟨rfl, h⟩
  | cons op rest ih =>
    have hop := h.perform op
    have hrest := ih hop.tracks
    exact ⟨congrArg₂ List.cons hop.answer hrest.answer, hrest.tracks⟩

end Tracks

end Emulator

end RiscvToolkit
