import RiscvToolkit.Proofs.Emulator.Operation
import RiscvToolkit.Proofs.Machine.Exit

/-! Runs do not depend on how they are cut into bursts, nor on how much of them can be undone. Without
breakpoints they end where single steps do. -/
namespace RiscvToolkit

theorem Action.running_of_cycle {h h' : Hart} (hc : cycle h = .ok true h') :
    h'.machine.halted = false := by
  unfold cycle at hc
  rw [bind_apply, get_apply] at hc
  cases hh : h.machine.halted with
  | true =>
    simp only [hh, if_true, pure_apply] at hc
    cases hc
  | false =>
    simp only [hh, Bool.false_eq_true, if_false, bind_apply, pc_apply, access_apply] at hc
    cases hw : h.machine.memory.readWord h.machine.pc with
    | error e => rw [hw] at hc; cases hc
    | ok word =>
      rw [hw] at hc
      dsimp only at hc
      cases hi : Instruction.ofWord? word with
      | none => rw [hi] at hc; cases hc
      | some i =>
        rw [hi] at hc
        dsimp only at hc
        rw [finally_apply, perform_eq] at hc
        cases he : h.machine.execute i with
        | error fault => rw [he] at hc; cases hc
        | ok done =>
          rw [he] at hc
          dsimp only [leaves] at hc
          injection hc with hm hc
          rw [← hc]
          exact (Machine.halted_of_execute he hm).trans hh

namespace Emulator

/-- The emulator with another burst length and history. -/
def tuned (e : Emulator) (steps capacity : Nat) (history : History Snapshot) : Emulator :=
  { e with
    config := (e.config.withBurstSteps steps).withHistoryCapacity capacity
    history }

/-- True if a run to the end comes back with an outcome, and leaves a machine and a console so. -/
def Ends (e : Emulator) (flag : StopFlag) (outcome : Outcome) (machine : Machine) (console : Console) :
    Prop :=
  ∃ bursts e', e.runToEnd flag bursts = (outcome, e') ∧ outcome ≠ .yielded ∧
    e'.machine = machine ∧ e'.console = console

/-- True if steps up to the first that says to stop leave a machine and a console so. -/
inductive StepsTo : Emulator → Machine → Console → Prop
  | last {e e' : Emulator} (h : e.step = (false, e')) : StepsTo e e'.machine e'.console
  | more {e e' : Emulator} {machine : Machine} {console : Console} (h : e.step = (true, e'))
      (rest : StepsTo e' machine console) : StepsTo e machine console

/-- True of emulators that hold the same, but for their settings and what can be undone. -/
structure Matches (e e' : Emulator) : Prop where
  machine : e.machine = e'.machine
  console : e.console = e'.console
  breakpoints : e.breakpoints = e'.breakpoints
  pausedAt : e.pausedAt = e'.pausedAt

theorem Matches.symm {e e' : Emulator} (h : e.Matches e') : e'.Matches e :=
  ⟨h.machine.symm, h.console.symm, h.breakpoints.symm, h.pausedAt.symm⟩

theorem Matches.trans {e e' e'' : Emulator} (h : e.Matches e') (h' : e'.Matches e'') :
    e.Matches e'' :=
  ⟨h.machine.trans h'.machine, h.console.trans h'.console, h.breakpoints.trans h'.breakpoints,
    h.pausedAt.trans h'.pausedAt⟩

theorem matches_tuned (e : Emulator) (steps capacity : Nat) (history : History Snapshot) :
    e.Matches (e.tuned steps capacity history) :=
  ⟨rfl, rfl, rfl, rfl⟩

section
variable {e e' x : Emulator} {more : Bool} {fault : Fault} {flag : StopFlag} {outcome : Outcome}
  {looks : Nat}

theorem running_of_tryStep (h : e.tryStep = .ok true x) : x.machine.halted = false := by
  unfold tryStep at h
  dsimp only at h
  split at h
  · cases h
  · split at h
    next hc =>
      cases h
      exact Action.running_of_cycle hc
    next => cases h

theorem breakpoints_of_tryStep (h : e.tryStep = .ok more x) : x.breakpoints = e.breakpoints := by
  unfold tryStep at h
  grind

/-- Two emulators that match take the same step. -/
theorem Matches.tryStep (h : e.Matches e') :
    (∃ more x x', e.tryStep = .ok more x ∧ e'.tryStep = .ok more x' ∧ x.Matches x') ∨
    ∃ fault x x', e.tryStep = .error fault x ∧ e'.tryStep = .error fault x' ∧ x.Matches x' := by
  obtain ⟨config, machine, initial, history, console, breakpoints, pausedAt⟩ := e
  obtain ⟨config', machine', initial', history', console', breakpoints', pausedAt'⟩ := e'
  obtain ⟨rfl, rfl, rfl, rfl⟩ := h
  unfold Emulator.tryStep
  dsimp only
  by_cases hh : machine.halted = true
  · rw [if_pos hh, if_pos hh]
    exact .inl ⟨_, _, _, rfl, rfl, rfl, rfl, rfl, rfl⟩
  · rw [if_neg hh, if_neg hh]
    cases Action.cycle ⟨machine, console⟩ with
    | ok more h => exact .inl ⟨_, _, _, rfl, rfl, rfl, rfl, rfl, rfl⟩
    | error fault h => exact .inr ⟨_, _, _, rfl, rfl, rfl, rfl, rfl, rfl⟩

theorem Matches.report (h : e.Matches e') (fault : Fault) :
    (e.report fault).Matches (e'.report fault) := by
  obtain ⟨hm, hc, hb, hp⟩ := h
  refine ⟨hm, ?_, hb, hp⟩
  unfold Emulator.report
  rw [hm, hc]

theorem Matches.runBurst (h : e.Matches e') (flag : StopFlag) (looks budget : Nat) :
    (e.runBurst flag looks budget).1 = (e'.runBurst flag looks budget).1 ∧
      (e.runBurst flag looks budget).2.Matches (e'.runBurst flag looks budget).2 := by
  induction budget generalizing e e' looks with
  | zero => exact ⟨rfl, h⟩
  | succ budget ih =>
    have hat : e.atBreakpoint = e'.atBreakpoint := by
      unfold atBreakpoint
      rw [h.breakpoints, h.machine, h.pausedAt]
    unfold Emulator.runBurst
    rw [hat]
    split_ifs
    · exact ⟨rfl, h⟩
    · rw [h.machine]
      exact ⟨rfl, rfl, h.console, h.breakpoints, rfl⟩
    · obtain ⟨more, x, x', hx, hx', hm⟩ | ⟨fault, x, x', hx, hx', hm⟩ := h.tryStep
      · rw [hx, hx']
        cases more with
        | true => exact ih hm (looks + 1)
        | false =>
          dsimp only
          rw [hm.machine]
          exact ⟨rfl, hm⟩
      · rw [hx, hx']
        exact ⟨rfl, hm.report fault⟩

/-- A burst may be cut in two. -/
theorem runBurst_add (flag : StopFlag) (looks a b : Nat) (e : Emulator) :
    e.runBurst flag looks (a + b) =
      match e.runBurst flag looks a with
      | (.yielded, x) => x.runBurst flag (looks + a) b
      | result => result := by
  induction a generalizing e looks with
  | zero => rw [Nat.zero_add]; rfl
  | succ a ih =>
    rw [Nat.succ_add, runBurst, runBurst]
    split_ifs
    · rfl
    · rfl
    · cases e.tryStep with
      | error fault x => rfl
      | ok more x =>
        cases more with
        | true =>
          dsimp only
          rw [ih, Nat.add_assoc, Nat.add_comm 1 a]
        | false =>
          dsimp only
          split_ifs <;> rfl

/-- A run that is over stays so with a longer burst. -/
theorem runBurst_of_le {a b : Nat} (hab : a ≤ b) (h : e.runBurst flag looks a = (outcome, x))
    (ho : outcome ≠ .yielded) : e.runBurst flag looks b = (outcome, x) := by
  obtain ⟨k, rfl⟩ := Nat.exists_eq_add_of_le hab
  rw [runBurst_add, h]
  split
  next hy =>
    cases hy
    exact absurd rfl ho
  next => rfl

theorem running_of_runBurst {budget : Nat} (hr : e.machine.halted = false)
    (h : e.runBurst flag looks budget = (.yielded, x)) : x.machine.halted = false := by
  induction budget generalizing e looks with
  | zero =>
    cases h
    exact hr
  | succ budget ih =>
    unfold runBurst at h
    split_ifs at h
    · cases h
    · cases h
    · split at h
      next e' ht => exact ih (running_of_tryStep ht) h
      next e' ht => split_ifs at h <;> cases h
      next => cases h

/-- Bursts one after the other are one long burst. -/
theorem runToEndFrom_eq (hr : e.machine.halted = false) (flag : StopFlag) (looks bursts : Nat) :
    e.runToEndFrom flag looks bursts = e.runBurst flag looks (bursts * e.config.burstSteps) := by
  induction bursts generalizing e looks with
  | zero => rw [Nat.zero_mul]; rfl
  | succ bursts ih =>
    have hfrom : e.runFrom flag looks = e.runBurst flag looks e.config.burstSteps := by
      rw [runFrom, hr]
      rfl
    rw [runToEndFrom, hfrom, Nat.succ_mul, Nat.add_comm, runBurst_add]
    cases hburst : e.runBurst flag looks e.config.burstSteps with
    | mk outcome x =>
      cases outcome with
      | yielded =>
        have hconfig := config_runBurst flag looks e.config.burstSteps e
        rw [hburst] at hconfig
        dsimp only
        rw [ih (running_of_runBurst hr hburst), hconfig]
      | _ => rfl

end

section
variable {e : Emulator} {outcome : Outcome} {machine : Machine} {console : Console}

/-- A run ends as one burst does that is long enough. -/
theorem ends_iff_runBurst (hr : e.machine.halted = false) (hb : 0 < e.config.burstSteps)
    (flag : StopFlag) :
    e.Ends flag outcome machine console ↔
      ∃ steps x, e.runBurst flag 0 steps = (outcome, x) ∧ outcome ≠ .yielded ∧
        x.machine = machine ∧ x.console = console := by
  constructor
  · intro h
    obtain ⟨bursts, x, hx, hrest⟩ := h
    exact ⟨_, x, (runToEndFrom_eq hr flag 0 bursts).symm.trans hx, hrest⟩
  · intro h
    obtain ⟨steps, x, hx, ho, hrest⟩ := h
    refine ⟨steps, x, ?_, ho, hrest⟩
    rw [runToEnd, runToEndFrom_eq hr]
    exact runBurst_of_le (Nat.le_mul_of_pos_right steps hb) hx ho

theorem ends_iff_of_halted (hh : e.machine.halted = true) (flag : StopFlag) :
    e.Ends flag outcome machine console ↔
      outcome = .halted ∧ e.machine = machine ∧ e.console = console := by
  have hrun (bursts : Nat) : e.runToEnd flag (bursts + 1) = (.halted, e) := by
    rw [runToEnd, runToEndFrom, runFrom, if_pos hh]
  constructor
  · intro h
    obtain ⟨bursts, x, hx, ho, hm, hc⟩ := h
    cases bursts with
    | zero =>
      cases hx
      exact absurd rfl ho
    | succ bursts =>
      rw [hrun] at hx
      cases hx
      exact ⟨rfl, hm, hc⟩
  · intro h
    obtain ⟨rfl, hm, hc⟩ := h
    exact ⟨1, e, hrun 0, nofun, hm, hc⟩

theorem Matches.ends {e' : Emulator} (h : e.Matches e') (hb : 0 < e.config.burstSteps)
    (hb' : 0 < e'.config.burstSteps) {flag : StopFlag}
    (he : e.Ends flag outcome machine console) : e'.Ends flag outcome machine console := by
  cases hh : e.machine.halted with
  | true =>
    rw [ends_iff_of_halted hh] at he
    rw [ends_iff_of_halted (h.machine ▸ hh), ← h.machine, ← h.console]
    exact he
  | false =>
    obtain ⟨steps, x, hx, ho, rfl, rfl⟩ := (ends_iff_runBurst hh hb flag).mp he
    obtain ⟨houtcome, hm⟩ := h.runBurst flag 0 steps
    rw [hx] at houtcome hm
    rw [ends_iff_runBurst (h.machine ▸ hh) hb']
    refine ⟨steps, (e'.runBurst flag 0 steps).2, ?_, ho, hm.machine.symm, hm.console.symm⟩
    exact Prod.ext houtcome.symm rfl

/-- Where nothing is in its way, a burst begins with a step. -/
theorem runBurst_succ (hb : e.breakpoints = []) (looks budget : Nat) :
    e.runBurst false looks (budget + 1) =
      match e.tryStep with
      | .ok true e => e.runBurst false (looks + 1) budget
      | .ok false e => (if e.machine.halted then .halted else .paused, e)
      | .error fault e => (.faulted fault, e.report fault) := by
  have hat : e.atBreakpoint = false := by
    rw [atBreakpoint, hb]
    rfl
  rw [runBurst, hat]
  rfl

theorem StepsTo.runBurst (h : e.StepsTo machine console) (hb : e.breakpoints = []) (looks : Nat) :
    ∃ steps outcome x, e.runBurst false looks steps = (outcome, x) ∧ outcome ≠ .yielded ∧
      x.machine = machine ∧ x.console = console := by
  induction h generalizing looks with
  | @last e e' h =>
    have hone := runBurst_succ hb looks 0
    unfold step at h
    cases ht : e.tryStep with
    | ok more x =>
      rw [ht] at h hone
      cases h
      refine ⟨1, _, e', hone, ?_, rfl, rfl⟩
      split_ifs <;> nofun
    | error fault x =>
      rw [ht] at h hone
      cases h
      exact ⟨1, _, _, hone, nofun, rfl, rfl⟩
  | @more e e' _ _ h _ ih =>
    unfold step at h
    cases ht : e.tryStep with
    | ok more x =>
      rw [ht] at h
      cases h
      obtain ⟨steps, outcome, y, hy, hrest⟩ := ih ((breakpoints_of_tryStep ht).trans hb) (looks + 1)
      refine ⟨steps + 1, outcome, y, ?_, hrest⟩
      rw [runBurst_succ hb, ht]
      exact hy
    | error fault x =>
      rw [ht] at h
      cases h

theorem stepsTo_of_runBurst {steps looks : Nat} {x : Emulator} (hb : e.breakpoints = [])
    (h : e.runBurst false looks steps = (outcome, x)) (ho : outcome ≠ .yielded) :
    e.StepsTo x.machine x.console := by
  induction steps generalizing e looks with
  | zero =>
    cases h
    exact absurd rfl ho
  | succ steps ih =>
    rw [runBurst_succ hb] at h
    split at h
    next y ht =>
      have hstep : e.step = (true, y) := by rw [step, ht]
      exact .more hstep (ih ((breakpoints_of_tryStep ht).trans hb) h)
    next y ht =>
      have hstep : e.step = (false, y) := by rw [step, ht]
      cases h
      exact .last hstep
    next fault y ht =>
      have hstep : e.step = (false, y.report fault) := by rw [step, ht]
      cases h
      exact .last hstep

theorem exists_ends_iff_stepsTo (hb : 0 < e.config.burstSteps) (hn : e.breakpoints = []) :
    (∃ outcome, e.Ends false outcome machine console) ↔ e.StepsTo machine console := by
  cases hh : e.machine.halted with
  | true =>
    have hstep : e.step = (false, e) := by
      unfold step tryStep
      dsimp only
      rw [if_pos hh]
    simp only [ends_iff_of_halted hh]
    constructor
    · intro h
      obtain ⟨_, -, rfl, rfl⟩ := h
      exact .last hstep
    · intro h
      cases h with
      | last h =>
        rw [hstep] at h
        cases h
        exact ⟨_, rfl, rfl, rfl⟩
      | more h =>
        rw [hstep] at h
        cases h
  | false =>
    simp only [ends_iff_runBurst hh hb]
    constructor
    · intro h
      obtain ⟨outcome, steps, x, hx, ho, rfl, rfl⟩ := h
      exact stepsTo_of_runBurst hn hx ho
    · intro h
      obtain ⟨steps, outcome, x, hx⟩ := h.runBurst hn 0
      exact ⟨outcome, steps, x, hx⟩

end

/-- How long a burst is and how much can be undone makes no difference to a run, and without breakpoints
it ends where single steps do. -/
theorem runToEnd_of_tuned (e : Emulator) (steps capacity : Nat) (history : History Snapshot)
    (steps' capacity' : Nat) (history' : History Snapshot) :
    (∀ outcome machine console,
      (e.tuned steps capacity history).Ends false outcome machine console ↔
        (e.tuned steps' capacity' history').Ends false outcome machine console) ∧
    (e.breakpoints = [] → ∀ machine console,
      (∃ outcome, (e.tuned steps capacity history).Ends false outcome machine console) ↔
        (e.tuned steps capacity history).StepsTo machine console) := by
  have hpos (steps capacity : Nat) (history : History Snapshot) :
      0 < (e.tuned steps capacity history).config.burstSteps := Nat.le_max_right steps 1
  have hmatch := (e.matches_tuned steps capacity history).symm.trans
    (e.matches_tuned steps' capacity' history')
  constructor
  · intro outcome machine console
    constructor
    · exact hmatch.ends (hpos ..) (hpos ..)
    · exact hmatch.symm.ends (hpos ..) (hpos ..)
  · intro hb machine console
    exact exists_ends_iff_stepsTo (hpos ..) hb

/-- An addition and an `ebreak`, in bursts of one step. -/
theorem runToEnd_of_tuned_ebreak :
    ∃ e machine console, e = load (Memory.empty.overwrite .text 0
        [0x13, 0x05, 0x15, 0x00, 0x73, 0x00, 0x10, 0x00]) 0x400000 .default ∧
      e.breakpoints = [] ∧ machine.regs.get 10 = 1 ∧
      (e.tuned 1 0 (.empty 0)).Ends false .paused machine console ∧
      (e.tuned 100 5 (.empty 5)).Ends false .paused machine console ∧
      (e.tuned 1 0 (.empty 0)).StepsTo machine console := by
  have h := runToEnd_of_tuned
    (load (Memory.empty.overwrite .text 0 [0x13, 0x05, 0x15, 0x00, 0x73, 0x00, 0x10, 0x00])
      0x400000 .default) 1 0 (.empty 0) 100 5 (.empty 5)
  refine ⟨_, _, _, rfl, rfl, ?_, ⟨2, _, rfl, nofun, rfl, rfl⟩, (h.1 ..).mp ⟨2, _, rfl, nofun, rfl, rfl⟩,
    (h.2 rfl ..).mp ⟨.paused, 2, _, rfl, nofun, rfl, rfl⟩⟩
  rfl

end Emulator

end RiscvToolkit
