import RiscvToolkit.Proofs.Emulator.Bursts

/-! Runs with what happens on the way: the states in which they execute an instruction. -/
namespace RiscvToolkit.Emulator

/-- A run, with the states in which it executes an instruction, in order. -/
structure Course where
  executed : List Emulator
  outcome : Outcome
  last : Emulator

namespace Course

/-- The course of a run that goes on after it has executed instructions. -/
def after (executed : List Emulator) (c : Course) : Course :=
  { c with executed := executed ++ c.executed }

def result (c : Course) : Outcome × Emulator :=
  (c.outcome, c.last)

end Course

/-- The course of `runBurst`. -/
def burstCourse (flag : StopFlag) (looks : Nat) : Nat → Emulator → Course
  | 0, e => ⟨[], .yielded, e⟩
  | budget + 1, e =>
    if flag.isUp looks then ⟨[], .stopped, e⟩
    else if e.atBreakpoint then
      ⟨[], .breakpoint e.machine.pc, { e with pausedAt := some e.machine.pc }⟩
    else
      match e.tryStep with
      | .ok true e' => (burstCourse flag (looks + 1) budget e').after [e]
      | .ok false e' => ⟨[e], if e'.machine.halted then .halted else .paused, e'⟩
      | .error fault e' => ⟨[], .faulted fault, e'.report fault⟩

/-- The course of `runFrom`. -/
def courseFrom (flag : StopFlag) (looks : Nat) (e : Emulator) : Course :=
  if e.machine.halted then ⟨[], .halted, e⟩ else burstCourse flag looks e.config.burstSteps e

/-- The course of `runToEndFrom`. -/
def courseToEndFrom (flag : StopFlag) (looks : Nat) : Nat → Emulator → Course
  | 0, e => ⟨[], .yielded, e⟩
  | bursts + 1, e =>
    match e.courseFrom flag looks with
    | ⟨executed, .yielded, e⟩ =>
      (courseToEndFrom flag (looks + e.config.burstSteps) bursts e).after executed
    | c => c

section
variable {e : Emulator} {flag : StopFlag}

theorem result_burstCourse (flag : StopFlag) (looks budget : Nat) (e : Emulator) :
    (e.burstCourse flag looks budget).result = e.runBurst flag looks budget := by
  induction budget generalizing e looks with
  | zero => rfl
  | succ budget ih =>
    unfold burstCourse runBurst
    split_ifs
    · rfl
    · rfl
    · cases e.tryStep with
      | error fault e' => rfl
      | ok more e' =>
        cases more with
        | true => exact ih (looks + 1) e'
        | false => rfl

theorem result_courseFrom (flag : StopFlag) (looks : Nat) (e : Emulator) :
    (e.courseFrom flag looks).result = e.runFrom flag looks := by
  unfold courseFrom runFrom
  split
  · rfl
  · exact result_burstCourse flag looks _ e

theorem result_courseToEndFrom (flag : StopFlag) (looks bursts : Nat) (e : Emulator) :
    (e.courseToEndFrom flag looks bursts).result = e.runToEndFrom flag looks bursts := by
  induction bursts generalizing e looks with
  | zero => rfl
  | succ bursts ih =>
    unfold courseToEndFrom runToEndFrom
    rw [← result_courseFrom]
    obtain ⟨executed, outcome, e'⟩ := e.courseFrom flag looks
    cases outcome with
    | yielded => exact ih _ e'
    | _ => rfl

/-- The course of a burst that is cut in two. -/
theorem burstCourse_add (flag : StopFlag) (looks a b : Nat) (e : Emulator) :
    e.burstCourse flag looks (a + b) =
      match e.burstCourse flag looks a with
      | ⟨executed, .yielded, x⟩ => (x.burstCourse flag (looks + a) b).after executed
      | c => c := by
  induction a generalizing e looks with
  | zero => rw [Nat.zero_add]; rfl
  | succ a ih =>
    rw [Nat.succ_add, burstCourse, burstCourse]
    split_ifs
    · rfl
    · rfl
    · cases e.tryStep with
      | error fault x => rfl
      | ok more x =>
        cases more with
        | true =>
          dsimp only
          rw [ih, Nat.add_assoc, Nat.add_comm 1 a]
          obtain ⟨executed, outcome, y⟩ := x.burstCourse flag (looks + 1) a
          cases outcome <;> rfl
        | false =>
          dsimp only
          split_ifs <;> rfl

theorem courseToEndFrom_of_halted (hh : e.machine.halted = true) (flag : StopFlag)
    (looks bursts : Nat) :
    ∃ outcome, e.courseToEndFrom flag looks bursts = ⟨[], outcome, e⟩ ∧
      ∀ pc, outcome ≠ .breakpoint pc := by
  cases bursts with
  | zero => exact ⟨_, rfl, fun _ => nofun⟩
  | succ bursts =>
    refine ⟨.halted, ?_, fun _ => nofun⟩
    rw [courseToEndFrom, courseFrom, if_pos hh]

/-- The course of bursts one after the other is that of one long burst. -/
theorem courseToEndFrom_eq (hr : e.machine.halted = false) (flag : StopFlag) (looks bursts : Nat) :
    e.courseToEndFrom flag looks bursts =
      e.burstCourse flag looks (bursts * e.config.burstSteps) := by
  induction bursts generalizing e looks with
  | zero => rw [Nat.zero_mul]; rfl
  | succ bursts ih =>
    have hfrom : e.courseFrom flag looks = e.burstCourse flag looks e.config.burstSteps := by
      rw [courseFrom, hr]
      rfl
    have hresult := result_burstCourse flag looks e.config.burstSteps e
    rw [courseToEndFrom, hfrom, Nat.succ_mul, Nat.add_comm, burstCourse_add]
    rcases hcourse : e.burstCourse flag looks e.config.burstSteps with ⟨executed, outcome, x⟩
    cases outcome with
    | yielded =>
      rw [hcourse] at hresult
      have hconfig := config_runBurst flag looks e.config.burstSteps e
      rw [← hresult] at hconfig
      dsimp only
      rw [ih (running_of_runBurst hr hresult.symm)]
      change (x.burstCourse flag _ (bursts * x.config.burstSteps)).after executed = _
      rw [show x.config = e.config from hconfig]
    | _ => rfl

end

theorem perform_run (flag : StopFlag) (e : Emulator) :
    e.perform (.run flag) =
      (.ran (e.courseFrom flag 0).outcome, (e.courseFrom flag 0).last) :=
  congrArg (Prod.map Answer.ran id) (result_courseFrom flag 0 e).symm

theorem perform_runToEnd (flag : StopFlag) (bursts : Nat) (e : Emulator) :
    e.perform (.runToEnd flag bursts) =
      (.ran (e.courseToEndFrom flag 0 bursts).outcome, (e.courseToEndFrom flag 0 bursts).last) :=
  congrArg (Prod.map Answer.ran id) (result_courseToEndFrom flag 0 bursts e).symm

/-- The states in which an operation executes an instruction. -/
def executed (e : Emulator) : Operation → List Emulator
  | .step | .tryStep =>
    match e.tryStep with
    | .ok _ _ => if e.machine.halted then [] else [e]
    | .error _ _ => []
  | .run flag => (e.courseFrom flag 0).executed
  | .runToEnd flag bursts => (e.courseToEndFrom flag 0 bursts).executed
  | _ => []

/-- True of states in which steps execute an instruction, one after the other, on the way to the last. -/
inductive LeadsThrough : Emulator → List Emulator → Emulator → Prop
  | here (e : Emulator) : LeadsThrough e [] e
  | step {e e' x : Emulator} {more : Bool} {passed : List Emulator} (hr : e.machine.halted = false)
    (h : e.tryStep = .ok more e') (rest : LeadsThrough e' passed x) :
    LeadsThrough e (e :: passed) x

theorem LeadsThrough.running {e x : Emulator} {passed : List Emulator}
    (h : e.LeadsThrough passed x) : ∀ y ∈ passed, y.machine.halted = false := by
  induction h with
  | here => exact List.forall_mem_nil _
  | step hr _ _ ih => exact List.forall_mem_cons.mpr ⟨hr, ih⟩

/-- True of a run whose states are those that steps from `e` lead through, to the machine that it ends with. -/
def Course.Stepped (c : Course) (e : Emulator) : Prop :=
  ∃ x, e.LeadsThrough c.executed x ∧ c.last.machine = x.machine

section
variable {e : Emulator}

theorem stepped_burstCourse (hz : e.Zeroed) (hr : e.machine.halted = false) (flag : StopFlag)
    (looks budget : Nat) : (e.burstCourse flag looks budget).Stepped e := by
  induction budget generalizing e looks with
  | zero => exact ⟨e, .here e, rfl⟩
  | succ budget ih =>
    unfold burstCourse
    split_ifs
    · exact ⟨e, .here e, rfl⟩
    · exact ⟨e, .here e, rfl⟩
    · cases ht : e.tryStep with
      | error fault x =>
        obtain rfl := eq_of_fault hz.machine ht
        exact ⟨x, .here x, rfl⟩
      | ok more x =>
        cases more with
        | false => exact ⟨x, .step hr ht (.here x), rfl⟩
        | true =>
          obtain ⟨y, hy, hlast⟩ := ih (kept_zeroed.advance hz ht) (running_of_tryStep ht) (looks + 1)
          exact ⟨y, .step hr ht hy, hlast⟩

theorem stepped_courseFrom (hz : e.Zeroed) (flag : StopFlag) (looks : Nat) :
    (e.courseFrom flag looks).Stepped e := by
  unfold courseFrom
  split
  next => exact ⟨e, .here e, rfl⟩
  next hr => exact stepped_burstCourse hz (Bool.eq_false_iff.mpr hr) flag looks _

theorem stepped_courseToEndFrom (hz : e.Zeroed) (flag : StopFlag) (looks bursts : Nat) :
    (e.courseToEndFrom flag looks bursts).Stepped e := by
  cases hh : e.machine.halted with
  | true =>
    obtain ⟨outcome, hc, -⟩ := courseToEndFrom_of_halted hh flag looks bursts
    rw [hc]
    exact ⟨e, .here e, rfl⟩
  | false =>
    rw [courseToEndFrom_eq hh]
    exact stepped_burstCourse hz hh flag looks _

/-- What an operation executes, steps execute one after the other. -/
theorem exists_leadsThrough_executed (hz : e.Zeroed) (op : Operation) :
    ∃ x, e.LeadsThrough (e.executed op) x := by
  unfold executed
  cases op with
  | step | tryStep =>
    dsimp only
    cases ht : e.tryStep with
    | error fault x => exact ⟨e, .here e⟩
    | ok more x =>
      dsimp only
      split_ifs with hh
      · exact ⟨e, .here e⟩
      · exact ⟨x, .step (Bool.eq_false_iff.mpr hh) ht (.here x)⟩
  | run flag =>
    obtain ⟨x, hx, -⟩ := stepped_courseFrom hz flag 0
    exact ⟨x, hx⟩
  | runToEnd flag bursts =>
    obtain ⟨x, hx, -⟩ := stepped_courseToEndFrom hz flag 0 bursts
    exact ⟨x, hx⟩
  | _ => exact ⟨e, .here e⟩

end

end RiscvToolkit.Emulator
