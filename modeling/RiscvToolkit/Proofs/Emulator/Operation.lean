import RiscvToolkit.Emulator.Basic
import RiscvToolkit.Proofs.Machine.Cycle

/-! What a host can ask of an emulator, what it can bring it to in this way, and what holds all the time. -/
namespace RiscvToolkit.Emulator

/-- What a host can do with an emulator. The console is its own, to change as it likes. -/
inductive Operation where
  | step
  | tryStep
  | run (flag : StopFlag)
  | runToEnd (flag : StopFlag) (bursts : Nat)
  | stepBack
  | reset
  | setBreakpoint (addr : UInt64)
  | clearBreakpoint (addr : UInt64)
  | clearBreakpoints
  | setConsole (console : Console)

inductive Answer where
  | done
  | told (value : Bool)
  | tried (result : Except Fault Bool)
  | ran (outcome : Outcome)
  deriving DecidableEq, Repr

/-- Does what is asked for. -/
def perform (e : Emulator) : Operation → Answer × Emulator
  | .step => (.told e.step.1, e.step.2)
  | .tryStep =>
    match e.tryStep with
    | .ok more e => (.tried (.ok more), e)
    | .error fault e => (.tried (.error fault), e)
  | .run flag => (.ran (e.run flag).1, (e.run flag).2)
  | .runToEnd flag bursts => (.ran (e.runToEnd flag bursts).1, (e.runToEnd flag bursts).2)
  | .stepBack =>
    match e.stepBack? with
    | some e => (.told true, e)
    | none => (.told false, e)
  | .reset => (.done, e.reset)
  | .setBreakpoint addr => (.told (e.setBreakpoint addr).1, (e.setBreakpoint addr).2)
  | .clearBreakpoint addr => (.told (e.clearBreakpoint addr).1, (e.clearBreakpoint addr).2)
  | .clearBreakpoints => (.done, e.clearBreakpoints)
  | .setConsole console => (.done, { e with console })

/-- Does one thing after the other. -/
def performAll (e : Emulator) : List Operation → List Answer × Emulator
  | [] => ([], e)
  | op :: rest =>
    let (answers, last) := (e.perform op).2.performAll rest
    ((e.perform op).1 :: answers, last)

/-- What a host can bring a loaded program to. -/
inductive Reachable : Emulator → Prop
  | load (memory : Memory) (entry : UInt64) (config : Config) : Reachable (load memory entry config)
  | perform {e : Emulator} (he : Reachable e) (op : Operation) : Reachable (e.perform op).2

/-- True of a property that neither a step takes away nor what runs do beside their steps. -/
structure KeptByRuns (P : Emulator → Prop) : Prop where
  advance {e e' : Emulator} {more : Bool} (h : P e) (ht : e.tryStep = .ok more e') : P e'
  fault {e e' : Emulator} {fault : Fault} (h : P e) (ht : e.tryStep = .error fault e') : P e'
  report {e : Emulator} (h : P e) (fault : Fault) : P (e.report fault)
  pause {e : Emulator} (h : P e) : P { e with pausedAt := some e.machine.pc }

namespace KeptByRuns
variable {P : Emulator → Prop} {e : Emulator}

theorem step (hP : KeptByRuns P) (h : P e) : P e.step.2 := by
  unfold Emulator.step
  cases ht : e.tryStep with
  | ok more e' => exact hP.advance h ht
  | error fault e' => exact hP.report (hP.fault h ht) fault

theorem tryStep (hP : KeptByRuns P) (h : P e) : P (e.perform .tryStep).2 := by
  unfold Emulator.perform
  dsimp only
  cases ht : e.tryStep with
  | ok more e' => exact hP.advance h ht
  | error fault e' => exact hP.fault h ht

theorem runBurst (hP : KeptByRuns P) (flag : StopFlag) (looks budget : Nat) (h : P e) :
    P (e.runBurst flag looks budget).2 := by
  induction budget generalizing e looks with
  | zero => exact h
  | succ budget ih =>
    unfold Emulator.runBurst
    split_ifs
    · exact h
    · exact hP.pause h
    · split
      next e' ht => exact ih (looks + 1) (hP.advance h ht)
      next e' ht => exact hP.advance h ht
      next fault e' ht => exact hP.report (hP.fault h ht) fault

theorem runFrom (hP : KeptByRuns P) (flag : StopFlag) (looks : Nat) (h : P e) :
    P (e.runFrom flag looks).2 := by
  unfold Emulator.runFrom
  split
  · exact h
  · exact hP.runBurst flag looks _ h

theorem runToEndFrom (hP : KeptByRuns P) (flag : StopFlag) (looks bursts : Nat) (h : P e) :
    P (e.runToEndFrom flag looks bursts).2 := by
  induction bursts generalizing e looks with
  | zero => exact h
  | succ bursts ih =>
    have hr := hP.runFrom flag looks h
    unfold Emulator.runToEndFrom
    split
    next e' he =>
      rw [he] at hr
      exact ih _ hr
    next => exact hr

end KeptByRuns

/-- True of a property that nothing takes away that operations are made of. -/
structure Kept (P : Emulator → Prop) : Prop where
  advance {e e' : Emulator} {more : Bool} (h : P e) (ht : e.tryStep = .ok more e') : P e'
  fault {e e' : Emulator} {fault : Fault} (h : P e) (ht : e.tryStep = .error fault e') : P e'
  pause {e : Emulator} (h : P e) : P { e with pausedAt := some e.machine.pc }
  stepBack {e e' : Emulator} (h : P e) (hb : e.stepBack? = some e') : P e'
  reset {e : Emulator} (h : P e) : P e.reset
  breakpoints {e : Emulator} (h : P e) (breakpoints : List UInt64) : P { e with breakpoints }
  console {e : Emulator} (h : P e) (console : Console) : P { e with console }

namespace Kept
variable {P : Emulator → Prop} {e : Emulator}

theorem byRuns (hP : Kept P) : KeptByRuns P where
  advance := hP.advance
  fault := hP.fault
  report h _ := hP.console h _
  pause := hP.pause

theorem runBurst (hP : Kept P) (flag : StopFlag) (looks budget : Nat) (h : P e) :
    P (e.runBurst flag looks budget).2 :=
  hP.byRuns.runBurst flag looks budget h

theorem perform (hP : Kept P) (h : P e) (op : Operation) : P (e.perform op).2 := by
  cases op with
  | step => exact hP.byRuns.step h
  | tryStep => exact hP.byRuns.tryStep h
  | run flag => exact hP.byRuns.runFrom flag 0 h
  | runToEnd flag bursts => exact hP.byRuns.runToEndFrom flag 0 bursts h
  | stepBack =>
    unfold Emulator.perform
    dsimp only
    cases hb : e.stepBack? with
    | some e' => exact hP.stepBack h hb
    | none => exact h
  | reset => exact hP.reset h
  | setBreakpoint addr => exact hP.breakpoints h _
  | clearBreakpoint addr => exact hP.breakpoints h _
  | clearBreakpoints => exact hP.breakpoints h _
  | setConsole console => exact hP.console h console

theorem performAll (hP : Kept P) (h : P e) (ops : List Operation) : P (e.performAll ops).2 := by
  induction ops generalizing e with
  | nil => exact h
  | cons op rest ih => exact ih (hP.perform h op)

/-- What holds of every loaded program holds whatever a host does. -/
theorem of_reachable (hP : Kept P)
    (hload : ∀ memory entry config, P (load memory entry config)) (he : e.Reachable) : P e := by
  induction he with
  | load memory entry config => exact hload memory entry config
  | perform _ op ih => exact hP.perform ih op

end Kept

/-- The settings and the state after loading stay as they are. -/
theorem kept_loaded (config : Config) (initial : Snapshot) :
    Kept fun e => e.config = config ∧ e.initial = initial where
  advance {e e' more} h ht := by
    unfold tryStep at ht
    grind
  fault {e e' fault} h ht := by
    unfold tryStep at ht
    grind
  pause h := h
  stepBack {e e'} h hb := by
    obtain ⟨popped, -, rfl⟩ := Option.map_eq_some_iff.mp hb
    exact h
  reset h := h
  breakpoints h _ := h
  console h _ := h

theorem config_performAll (e : Emulator) (ops : List Operation) :
    (e.performAll ops).2.config = e.config :=
  ((kept_loaded e.config e.initial).performAll ⟨rfl, rfl⟩ ops).1

theorem config_runBurst (flag : StopFlag) (looks budget : Nat) (e : Emulator) :
    (e.runBurst flag looks budget).2.config = e.config :=
  ((kept_loaded e.config e.initial).runBurst flag looks budget ⟨rfl, rfl⟩).1

/-- What a step makes of an emulator. -/
def advanced (e : Emulator) (done : Executed) : Emulator :=
  { e with
    machine := done.machine
    history := e.history.push e.machine.snapshot
    console := e.console.send done.events
    pausedAt := none }

/-- A step gives what its instruction gives, and a fault leaves everything as it was. -/
theorem tryStep_eq {e : Emulator} (hz : e.machine.regs.get 0 = 0) :
    e.tryStep =
      if e.machine.halted then .ok false e
      else match e.machine.step with
        | .ok done => .ok done.more (e.advanced done)
        | .error fault => .error fault e := by
  obtain ⟨config, machine, initial, history, console, breakpoints, pausedAt⟩ := e
  have hcycle := Action.cycle_eq (h := ⟨machine, console⟩) hz
  unfold tryStep
  dsimp only
  rw [hcycle]
  cases machine.halted with
  | true => rfl
  | false => cases machine.step <;> rfl

section
variable {e x : Emulator} {more : Bool} {fault : Fault}

/-- A step that succeeds executes an instruction, if the machine has not halted. -/
theorem advanced_of_tryStep (hz : e.machine.regs.get 0 = 0) (h : e.tryStep = .ok more x) :
    (e.machine.halted = true ∧ more = false ∧ x = e) ∨
      ∃ done, e.machine.halted = false ∧ e.machine.step = .ok done ∧ more = done.more ∧
        x = e.advanced done := by
  rw [tryStep_eq hz] at h
  cases hh : e.machine.halted with
  | true =>
    rw [hh] at h
    cases h
    exact .inl ⟨rfl, rfl, rfl⟩
  | false =>
    rw [hh] at h
    cases hs : e.machine.step with
    | error fault => rw [hs] at h; cases h
    | ok done =>
      rw [hs] at h
      cases h
      exact .inr ⟨done, rfl, rfl, rfl, rfl⟩

theorem eq_of_fault (hz : e.machine.regs.get 0 = 0) (h : e.tryStep = .error fault x) : x = e := by
  rw [tryStep_eq hz] at h
  split_ifs at h
  cases hs : e.machine.step with
  | ok done => rw [hs] at h; cases h
  | error fault' => rw [hs] at h; cases h; rfl

end

/-- Register 0 is zero, now and in all that can be gone back to. -/
structure Zeroed (e : Emulator) : Prop where
  machine : e.machine.regs.get 0 = 0
  initial : e.initial.regs.get 0 = 0
  history : ∀ s ∈ e.history.entries, s.regs.get 0 = 0

theorem kept_zeroed : Kept Zeroed where
  advance {e e' more} h ht := by
    obtain ⟨-, -, rfl⟩ | ⟨done, -, hs, -, rfl⟩ := advanced_of_tryStep h.machine ht
    · exact h
    · refine ⟨(Machine.follows_of_step hs).get_zero.trans h.machine, h.initial, fun s hmem => ?_⟩
      rcases History.eq_or_mem_of_mem_push hmem with rfl | hmem
      · exact h.machine
      · exact h.history s hmem
  fault h ht := by
    rw [eq_of_fault h.machine ht]
    exact h
  pause h := ⟨h.machine, h.initial, h.history⟩
  stepBack {e e'} h hb := by
    obtain ⟨⟨s, history⟩, hp, rfl⟩ := Option.map_eq_some_iff.mp hb
    have he := History.entries_of_pop? hp
    have hs : ∀ t ∈ s :: history.entries, t.regs.get 0 = 0 := he ▸ h.history
    exact ⟨hs s List.mem_cons_self, h.initial, fun t ht => hs t (List.mem_cons_of_mem s ht)⟩
  reset h := ⟨h.initial, h.initial, fun s hs => nomatch hs⟩
  breakpoints h _ := ⟨h.machine, h.initial, h.history⟩
  console h _ := ⟨h.machine, h.initial, h.history⟩

theorem zeroed_load (memory : Memory) (entry : UInt64) (config : Config) :
    (load memory entry config).Zeroed := by
  have hz : (load memory entry config).machine.regs.get 0 = 0 := by
    cases hc : config.initStackPointer <;>
      simp [load, Machine.enter, Machine.ofMemory, hc, RegisterFile.get_zero]
  exact ⟨hz, hz, fun s hs => nomatch hs⟩

theorem Reachable.zeroed {e : Emulator} (he : e.Reachable) : e.Zeroed :=
  kept_zeroed.of_reachable zeroed_load he

end RiscvToolkit.Emulator
