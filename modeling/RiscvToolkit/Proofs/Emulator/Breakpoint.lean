import RiscvToolkit.Proofs.Emulator.Course

/-! Breakpoints: a run stops in front of each, but for the one that it starts at if a run has stopped there
before and nothing has moved since. -/
namespace RiscvToolkit.Emulator

/-- True of an operation that executes an instruction, undoes one or starts over. -/
def Moves (e : Emulator) (op : Operation) : Prop :=
  e.executed op ≠ [] ∨ op = .stepBack ∧ (e.perform op).1 = .told true ∨ op = .reset

/-- True if one of the operations has come back with a breakpoint at `pc`, and none after it has moved. -/
inductive Awaits (start : Emulator) (pc : UInt64) : List Operation → Prop
  | stopped {ops : List Operation} {op : Operation}
    (h : ((start.performAll ops).2.perform op).1 = .ran (.breakpoint pc)) :
    Awaits start pc (ops ++ [op])
  | kept {ops : List Operation} {op : Operation} (h : Awaits start pc ops)
    (hm : ¬(start.performAll ops).2.Moves op) : Awaits start pc (ops ++ [op])

/-- True of a run from `e` that its program has ended: it had halted before, or its last instruction says not
to go on. -/
def Course.Ended (c : Course) (e : Emulator) : Prop :=
  e.machine.halted = true ∨ ∃ y ∈ c.executed.getLast?, ∃ x, y.tryStep = .ok false x

/-- True of a run from `e` that goes past no breakpoint but the one it starts at, and past that only if it
`passes`. -/
structure Course.Respects (c : Course) (e : Emulator) (flag : StopFlag) (looks budget : Nat)
    (passes : Prop) : Prop where
  executed : ∀ k (hk : k < c.executed.length), c.executed[k].machine.pc ∈ e.breakpoints →
    k = 0 ∧ c.executed[k] = e ∧ passes
  /-- Why a run comes back in front of an instruction at a breakpoint. -/
  stopped : c.last.machine.pc ∈ e.breakpoints →
    c.Ended e ∨ (c.executed = [] ∧ c.last.machine = e.machine ∧ passes) ∨
      c.outcome = .breakpoint c.last.machine.pc ∨
      (c.outcome = .stopped ∧ flag.isUp (looks + c.executed.length) = true) ∨
      (c.outcome = .yielded ∧ c.executed.length = budget)
  /-- A run that goes past a breakpoint does not stop at it again. -/
  resumed : passes → ∀ pc, c.outcome = .breakpoint pc → c.executed ≠ []

section
variable {e x : Emulator} {more : Bool} {fault : Fault}

theorem pausedAt_of_not_atBreakpoint (h : ¬e.atBreakpoint = true)
    (hb : e.machine.pc ∈ e.breakpoints) : e.pausedAt = some e.machine.pc := by
  unfold atBreakpoint at h
  simpa [hb] using h

theorem pausedAt_of_tryStep (hr : e.machine.halted = false) (h : e.tryStep = .ok more x) :
    x.pausedAt = none := by
  unfold tryStep at h
  grind

theorem pausedAt_of_fault (h : e.tryStep = .error fault x) : x.pausedAt = e.pausedAt := by
  unfold tryStep at h
  grind

theorem eq_of_halted (hh : e.machine.halted = true) (h : e.tryStep = .ok more x) : x = e := by
  unfold tryStep at h
  dsimp only at h
  rw [if_pos hh] at h
  cases h
  rfl

end

namespace Course.Respects
variable {c : Course} {e x : Emulator} {flag : StopFlag} {looks budget : Nat} {passes : Prop}

theorem imp {passes' : Prop} (h : c.Respects e flag looks budget passes)
    (hp : passes ↔ passes') : c.Respects e flag looks budget passes' := by
  rwa [← propext hp]

/-- A run that executes nothing. -/
theorem of_executed_eq_nil (hc : c.executed = [])
    (hs : c.last.machine.pc ∈ e.breakpoints →
      c.Ended e ∨ (c.last.machine = e.machine ∧ passes) ∨ c.outcome = .breakpoint c.last.machine.pc ∨
        (c.outcome = .stopped ∧ flag.isUp looks = true) ∨ (c.outcome = .yielded ∧ budget = 0))
    (hr : passes → ∀ pc, c.outcome ≠ .breakpoint pc) : c.Respects e flag looks budget passes := by
  obtain ⟨executed, outcome, last⟩ := c
  subst hc
  refine ⟨fun k hk => absurd hk (Nat.not_lt_zero k), fun hm => ?_,
    fun hp pc ho => absurd ho (hr hp pc)⟩
  obtain hend | ⟨hsame, hp⟩ | hout | hflag | ⟨hout, hbudget⟩ := hs hm
  · exact .inl hend
  · exact .inr (.inl ⟨rfl, hsame, hp⟩)
  · exact .inr (.inr (.inl hout))
  · exact .inr (.inr (.inr (.inl hflag)))
  · exact .inr (.inr (.inr (.inr ⟨hout, hbudget.symm⟩)))

/-- One instruction more in front of a run that may pass no breakpoint. -/
theorem cons (hx : c.Respects x flag (looks + 1) budget False)
    (hb : x.breakpoints = e.breakpoints) (hr : x.machine.halted = false)
    (hpass : e.machine.pc ∈ e.breakpoints → passes) :
    (c.after [e]).Respects e flag looks (budget + 1) passes := by
  refine ⟨fun k hk hm => ?_, fun hm => ?_, fun _ _ _ => List.cons_ne_nil _ _⟩
  · cases k with
    | zero => exact ⟨rfl, rfl, hpass hm⟩
    | succ k => exact (hx.executed k (Nat.lt_of_succ_lt_succ hk) (hb ▸ hm)).2.2.elim
  · obtain hend | ⟨-, -, hp⟩ | hout | ⟨hout, hflag⟩ | ⟨hout, hlen⟩ := hx.stopped (hb ▸ hm)
    · rcases hend with hh | ⟨y, hy, z, hz⟩
      · rw [hr] at hh
        cases hh
      · refine .inl (.inr ⟨y, ?_, z, hz⟩)
        simp [after, List.getLast?_cons, Option.mem_def.mp hy]
    · exact hp.elim
    · exact .inr (.inr (.inl hout))
    · have hlooks : looks + (c.after [e]).executed.length =
          looks + 1 + c.executed.length := by
        simp only [after, List.singleton_append, List.length_cons]
        omega
      exact .inr (.inr (.inr (.inl ⟨hout, hlooks ▸ hflag⟩)))
    · exact .inr (.inr (.inr (.inr ⟨hout, congrArg Nat.succ hlen⟩)))

end Course.Respects

section
variable {e : Emulator}

theorem respects_burstCourse (hz : e.Zeroed) (hr : e.machine.halted = false) (flag : StopFlag)
    (looks budget : Nat) :
    (e.burstCourse flag looks budget).Respects e flag looks budget
      (e.pausedAt = some e.machine.pc) := by
  induction budget generalizing e looks with
  | zero =>
    exact .of_executed_eq_nil rfl (fun _ => .inr (.inr (.inr (.inr ⟨rfl, rfl⟩))))
      fun _ _ => Outcome.noConfusion
  | succ budget ih =>
    unfold burstCourse
    split_ifs with hf hb
    · exact .of_executed_eq_nil rfl (fun _ => .inr (.inr (.inr (.inl ⟨rfl, hf⟩))))
        fun _ _ => Outcome.noConfusion
    · refine .of_executed_eq_nil rfl (fun _ => .inr (.inr (.inl rfl))) fun hp => ?_
      unfold atBreakpoint at hb
      rw [hp] at hb
      simp at hb
    · have hpass := pausedAt_of_not_atBreakpoint hb
      cases ht : e.tryStep with
      | error fault x =>
        obtain rfl := eq_of_fault hz.machine ht
        exact .of_executed_eq_nil rfl (fun hm => .inr (.inl ⟨rfl, hpass hm⟩))
          fun _ _ => Outcome.noConfusion
      | ok more x =>
        cases more with
        | false =>
          refine ⟨fun k hk hm => ?_, fun _ => .inl (.inr ⟨e, rfl, x, ht⟩),
            fun _ _ _ => List.cons_ne_nil _ _⟩
          obtain rfl : k = 0 := Nat.lt_one_iff.mp hk
          exact ⟨rfl, rfl, hpass hm⟩
        | true =>
          -- the pause is over, so that the rest passes no breakpoint
          have hnone : ¬x.pausedAt = some x.machine.pc := by
            rw [pausedAt_of_tryStep hr ht]
            exact Option.some_ne_none _ ∘ Eq.symm
          have hrun := running_of_tryStep ht
          exact ((ih (kept_zeroed.advance hz ht) hrun (looks + 1)).imp (iff_false_intro hnone)).cons
            (breakpoints_of_tryStep ht) hrun hpass

theorem respects_courseFrom (hz : e.Zeroed) (flag : StopFlag) (looks : Nat) :
    (e.courseFrom flag looks).Respects e flag looks e.config.burstSteps
      (e.pausedAt = some e.machine.pc) := by
  unfold courseFrom
  split
  next hh => exact .of_executed_eq_nil rfl (fun _ => .inl (.inl hh)) fun _ _ => Outcome.noConfusion
  next hr => exact respects_burstCourse hz (Bool.eq_false_iff.mpr hr) flag looks _

theorem respects_courseToEndFrom (hz : e.Zeroed) (flag : StopFlag) (looks bursts : Nat) :
    (e.courseToEndFrom flag looks bursts).Respects e flag looks (bursts * e.config.burstSteps)
      (e.pausedAt = some e.machine.pc) := by
  cases hh : e.machine.halted with
  | true =>
    obtain ⟨outcome, hc, ho⟩ := courseToEndFrom_of_halted hh flag looks bursts
    rw [hc]
    exact .of_executed_eq_nil rfl (fun _ => .inl (.inl hh)) fun _ => ho
  | false =>
    rw [courseToEndFrom_eq hh]
    exact respects_burstCourse hz hh flag looks _

end

/-! ### The remembered pause -/

/-- The pause that a run from `e` leaves: it remembers the breakpoint it stopped at, and forgets an older one
with its first instruction. -/
def Course.pause (c : Course) (e : Emulator) : Option UInt64 :=
  match c.outcome with
  | .breakpoint pc => some pc
  | _ => if c.executed.isEmpty then e.pausedAt else none

section
variable {e : Emulator}

theorem Course.pause_after {c : Course} {x : Emulator} (hx : x.pausedAt = none) :
    (c.after [e]).pause e = c.pause x := by
  obtain ⟨executed, outcome, last⟩ := c
  cases outcome <;> simp [Course.pause, Course.after, hx]

theorem pausedAt_burstCourse (hr : e.machine.halted = false) (flag : StopFlag)
    (looks budget : Nat) :
    (e.burstCourse flag looks budget).last.pausedAt = (e.burstCourse flag looks budget).pause e := by
  induction budget generalizing e looks with
  | zero => rfl
  | succ budget ih =>
    unfold burstCourse
    split_ifs
    · rfl
    · rfl
    · cases ht : e.tryStep with
      | error fault x =>
        have hsame := pausedAt_of_fault ht
        exact hsame
      | ok more x =>
        have hnone := pausedAt_of_tryStep hr ht
        cases more with
        | true => exact (ih (running_of_tryStep ht) (looks + 1)).trans (Course.pause_after hnone).symm
        | false =>
          dsimp only
          rw [hnone]
          split_ifs <;> rfl

theorem pausedAt_courseFrom (flag : StopFlag) (looks : Nat) :
    (e.courseFrom flag looks).last.pausedAt = (e.courseFrom flag looks).pause e := by
  unfold courseFrom
  split
  next => rfl
  next hr => exact pausedAt_burstCourse (Bool.eq_false_iff.mpr hr) flag looks _

theorem pausedAt_courseToEndFrom (flag : StopFlag) (looks bursts : Nat) :
    (e.courseToEndFrom flag looks bursts).last.pausedAt =
      (e.courseToEndFrom flag looks bursts).pause e := by
  cases hh : e.machine.halted with
  | true =>
    obtain ⟨outcome, hc, ho⟩ := courseToEndFrom_of_halted hh flag looks bursts
    rw [hc]
    cases outcome with
    | breakpoint pc => exact absurd rfl (ho pc)
    | _ => rfl
  | false =>
    rw [courseToEndFrom_eq hh]
    exact pausedAt_burstCourse hh flag looks _

/-- True of a pause that is none, or at the next instruction. -/
def PausesHere (e : Emulator) : Prop :=
  e.pausedAt = none ∨ e.pausedAt = some e.machine.pc

theorem kept_pausesHere : Kept fun e => e.Zeroed ∧ e.PausesHere where
  advance h ht := by
    refine ⟨kept_zeroed.advance h.1 ht, ?_⟩
    obtain ⟨-, -, rfl⟩ | ⟨done, -, -, -, rfl⟩ := advanced_of_tryStep h.1.machine ht
    · exact h.2
    · exact .inl rfl
  fault h ht := by
    rw [eq_of_fault h.1.machine ht]
    exact h
  pause h := ⟨kept_zeroed.pause h.1, .inr rfl⟩
  stepBack {e e'} h hb := by
    refine ⟨kept_zeroed.stepBack h.1 hb, ?_⟩
    obtain ⟨popped, -, rfl⟩ := Option.map_eq_some_iff.mp hb
    exact .inl rfl
  reset h := ⟨kept_zeroed.reset h.1, .inl rfl⟩
  breakpoints h breakpoints := ⟨kept_zeroed.breakpoints h.1 breakpoints, h.2⟩
  console h console := ⟨kept_zeroed.console h.1 console, h.2⟩

theorem Course.pause_eq_some_iff {c : Course} {flag : StopFlag} {looks budget : Nat}
    (h : c.Respects e flag looks budget (e.pausedAt = some e.machine.pc)) (hp : e.PausesHere)
    (pc : UInt64) :
    c.pause e = some pc ↔ c.outcome = .breakpoint pc ∨ c.executed = [] ∧ e.pausedAt = some pc := by
  have hresumed (hpc : e.pausedAt = some pc) (pc' : UInt64) (ho : c.outcome = .breakpoint pc') :
      c.executed ≠ [] := by
    rcases hp with hp | hp
    · rw [hp] at hpc
      cases hpc
    · exact h.resumed hp pc' ho
  unfold Course.pause
  split
  next pc' ho =>
    rw [ho, Option.some_inj, Outcome.breakpoint.injEq]
    exact ⟨.inl, fun h => h.resolve_right fun h => hresumed h.2 pc' ho h.1⟩
  next hne =>
    have hne : c.outcome ≠ .breakpoint pc := hne pc
    cases c.executed <;> simp [hne]

/-- What an operation makes of the pause. -/
theorem pausedAt_perform_iff (hz : e.Zeroed) (hp : e.PausesHere) (op : Operation) (pc : UInt64) :
    (e.perform op).2.pausedAt = some pc ↔
      (e.perform op).1 = .ran (.breakpoint pc) ∨ ¬e.Moves op ∧ e.pausedAt = some pc := by
  have hrun {c : Course} {flag : StopFlag} {looks budget : Nat}
      (h : c.Respects e flag looks budget (e.pausedAt = some e.machine.pc))
      (hc : c.last.pausedAt = c.pause e) (hop : (e.perform op) = (.ran c.outcome, c.last))
      (hm : e.Moves op ↔ c.executed ≠ []) :
      (e.perform op).2.pausedAt = some pc ↔
        (e.perform op).1 = .ran (.breakpoint pc) ∨ ¬e.Moves op ∧ e.pausedAt = some pc := by
    rw [hop, hc, Course.pause_eq_some_iff h hp, hm, not_not, Answer.ran.injEq]
  cases op with
  | run flag =>
    exact hrun (respects_courseFrom hz flag 0) (pausedAt_courseFrom flag 0) (perform_run flag e)
      (by simp [Moves, executed])
  | runToEnd flag bursts =>
    exact hrun (respects_courseToEndFrom hz flag 0 bursts) (pausedAt_courseToEndFrom flag 0 bursts)
      (perform_runToEnd flag bursts e) (by simp [Moves, executed])
  | step =>
    unfold Moves Emulator.perform step executed
    cases ht : e.tryStep with
    | error fault x => simp [report, pausedAt_of_fault ht]
    | ok more x =>
      cases hh : e.machine.halted with
      | true => simp [eq_of_halted hh ht]
      | false => simp [pausedAt_of_tryStep hh ht]
  | tryStep =>
    unfold Moves Emulator.perform executed
    cases ht : e.tryStep with
    | error fault x => simp [pausedAt_of_fault ht]
    | ok more x =>
      cases hh : e.machine.halted with
      | true => simp [eq_of_halted hh ht]
      | false => simp [pausedAt_of_tryStep hh ht]
  | stepBack =>
    unfold Moves Emulator.perform executed
    cases hb : e.stepBack? with
    | none => simp
    | some x =>
      obtain ⟨popped, -, rfl⟩ := Option.map_eq_some_iff.mp hb
      simp
  | reset => simp [Moves, Emulator.perform, reset]
  | setBreakpoint | clearBreakpoint | clearBreakpoints | setConsole =>
    simp [Moves, executed, Emulator.perform, setBreakpoint, clearBreakpoint, clearBreakpoints]

theorem performAll_append (ops : List Operation) (op : Operation) :
    (e.performAll (ops ++ [op])).2 = ((e.performAll ops).2.perform op).2 := by
  induction ops generalizing e with
  | nil => rfl
  | cons first rest ih => exact ih

/-- A pause is remembered just as long as a run that stopped at a breakpoint is to go past it. -/
theorem pausedAt_eq_some_iff (memory : Memory) (entry : UInt64) (config : Config)
    (ops : List Operation) (pc : UInt64) :
    ((load memory entry config).performAll ops).2.pausedAt = some pc ↔
      (load memory entry config).Awaits pc ops := by
  have hkept (ops : List Operation) := kept_pausesHere.performAll
    ⟨zeroed_load memory entry config, .inl rfl⟩ ops
  constructor
  · intro h
    induction ops using List.reverseRecOn with
    | nil => cases h
    | append_singleton ops op ih =>
      rw [performAll_append, pausedAt_perform_iff (hkept ops).1 (hkept ops).2] at h
      rcases h with ha | ⟨hm, hp⟩
      · exact .stopped ha
      · exact .kept (ih hp) hm
  · intro h
    induction h with
    | @stopped ops op ha =>
      rw [performAll_append, pausedAt_perform_iff (hkept ops).1 (hkept ops).2]
      exact .inl ha
    | @kept ops op _ hm ih =>
      rw [performAll_append, pausedAt_perform_iff (hkept ops).1 (hkept ops).2]
      exact .inr ⟨hm, ih⟩

end

/-- Whatever a host does with a program, a run executes an instruction at a breakpoint only as its first and only
if a run has stopped there before and nothing has moved since; in front of any other it comes back. -/
theorem runs_stop_at_breakpoints (memory : Memory) (entry : UInt64) (config : Config)
    (ops : List Operation) :
    ∃ e, ((load memory entry config).performAll ops).2 = e ∧
      (e.pausedAt = none ∨ e.pausedAt = some e.machine.pc) ∧
      (∀ pc, e.pausedAt = some pc ↔ (load memory entry config).Awaits pc ops) ∧
      (∀ flag, ∃ c : Course, c = e.courseFrom flag 0 ∧ e.run flag = (c.outcome, c.last) ∧
        c.Stepped e ∧ c.Respects e flag 0 config.burstSteps
          ((load memory entry config).Awaits e.machine.pc ops)) ∧
      ∀ flag bursts, ∃ c : Course, c = e.courseToEndFrom flag 0 bursts ∧
        e.runToEnd flag bursts = (c.outcome, c.last) ∧ c.Stepped e ∧
        c.Respects e flag 0 (bursts * config.burstSteps)
          ((load memory entry config).Awaits e.machine.pc ops) := by
  obtain ⟨hz, hp⟩ := kept_pausesHere.performAll
    ⟨zeroed_load memory entry config, .inl rfl⟩ ops
  have hconfig := config_performAll (load memory entry config) ops
  have hiff := pausedAt_eq_some_iff memory entry config ops
  set e := ((load memory entry config).performAll ops).2
  refine ⟨e, rfl, hp, hiff,
    fun flag => ⟨_, rfl, (result_courseFrom flag 0 e).symm, stepped_courseFrom hz flag 0, ?_⟩,
    fun flag bursts => ⟨_, rfl, (result_courseToEndFrom flag 0 bursts e).symm,
      stepped_courseToEndFrom hz flag 0 bursts, ?_⟩⟩
  · have h := (respects_courseFrom hz flag 0).imp (hiff _)
    rwa [hconfig] at h
  · have h := (respects_courseToEndFrom hz flag 0 bursts).imp (hiff _)
    rwa [hconfig] at h

end RiscvToolkit.Emulator
