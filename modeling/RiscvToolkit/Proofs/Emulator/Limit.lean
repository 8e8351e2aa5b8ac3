import RiscvToolkit.Proofs.Emulator.Course

/-! How many instructions runs execute. A burst that comes to its end has executed as many as it may, and one that ends
before executes what every longer one does. So a burst executes the least of its length and what a run without a limit
executes. -/
namespace RiscvToolkit.Emulator

/-- True of an emulator that executes a number of instructions, none of which ends a run, and of what it comes to. -/
inductive Passes : Emulator → Nat → Emulator → Prop
  | here (e : Emulator) : Passes e 0 e
  | step {e e' x : Emulator} {n : Nat} (h : e.tryStep = .ok true e') (rest : Passes e' n x) :
    Passes e (n + 1) x

/-- How many instructions a run to the end executes; there is no bound if it never ends. -/
noncomputable def instructions (e : Emulator) : ℕ∞ :=
  ⨆ bursts, ((e.executed (.runToEnd false bursts)).length : ℕ∞)

section
variable {e x : Emulator}

theorem length_executed_le (flag : StopFlag) (looks budget : Nat) (e : Emulator) :
    (e.burstCourse flag looks budget).executed.length ≤ budget := by
  induction budget generalizing e looks with
  | zero => exact le_rfl
  | succ budget ih =>
    unfold burstCourse
    split_ifs
    · exact Nat.zero_le _
    · exact Nat.zero_le _
    · cases e.tryStep with
      | error fault x => exact Nat.zero_le _
      | ok more x =>
        cases more with
        | true => exact Nat.succ_le_succ (ih (looks + 1) x)
        | false => exact Nat.succ_le_succ (Nat.zero_le budget)

/-- A burst that is used up has executed as many instructions as it may. -/
theorem length_executed_of_yielded {flag : StopFlag} {looks budget : Nat}
    (h : (e.burstCourse flag looks budget).outcome = .yielded) :
    (e.burstCourse flag looks budget).executed.length = budget := by
  induction budget generalizing e looks with
  | zero => rfl
  | succ budget ih =>
    unfold burstCourse at h ⊢
    split_ifs at h ⊢
    cases ht : e.tryStep with
    | error fault x =>
      rw [ht] at h
      cases h
    | ok more x =>
      rw [ht] at h
      cases more with
      | true => exact congrArg Nat.succ (ih h)
      | false =>
        dsimp only at h
        split_ifs at h

/-- A burst that ends before it is used up is the same however long it may be. -/
theorem burstCourse_of_ended {flag : StopFlag} {looks a b : Nat} (hab : a ≤ b)
    (h : (e.burstCourse flag looks a).outcome ≠ .yielded) :
    e.burstCourse flag looks b = e.burstCourse flag looks a := by
  obtain ⟨k, rfl⟩ := Nat.exists_eq_add_of_le hab
  rw [burstCourse_add]
  split
  next hc =>
    rw [hc] at h
    exact absurd rfl h
  next => rfl

theorem length_executed_mono {flag : StopFlag} {looks a b : Nat} (hab : a ≤ b) :
    (e.burstCourse flag looks a).executed.length ≤ (e.burstCourse flag looks b).executed.length := by
  by_cases hb : (e.burstCourse flag looks b).outcome = .yielded
  · have ha := length_executed_le flag looks a e
    rw [length_executed_of_yielded hb]
    exact ha.trans hab
  · by_cases ha : (e.burstCourse flag looks a).outcome = .yielded
    · obtain ⟨k, rfl⟩ := Nat.exists_eq_add_of_le hab
      rw [burstCourse_add]
      split
      next executed x hc =>
        rw [hc]
        simp [Course.after]
      next => exact le_rfl
    · rw [burstCourse_of_ended hab ha]

/-- A burst executes the least of its length and what the longest bursts execute. -/
theorem length_executed_eq_min (budget : Nat) (e : Emulator) :
    ((e.burstCourse false 0 budget).executed.length : ℕ∞) =
      min (budget : ℕ∞) (⨆ n, ((e.burstCourse false 0 n).executed.length : ℕ∞)) := by
  have hsup := le_iSup (fun n => ((e.burstCourse false 0 n).executed.length : ℕ∞)) budget
  by_cases h : (e.burstCourse false 0 budget).outcome = .yielded
  · rw [length_executed_of_yielded h] at hsup ⊢
    exact (min_eq_left hsup).symm
  · have hle : ((e.burstCourse false 0 budget).executed.length : ℕ∞) ≤ budget :=
      Nat.cast_le.mpr (length_executed_le false 0 budget e)
    refine le_antisymm (le_min hle hsup) (min_le_of_right_le (iSup_le fun n => Nat.cast_le.mpr ?_))
    rcases le_total n budget with hn | hn
    · exact length_executed_mono hn
    · rw [burstCourse_of_ended hn h]

/-- Bursts one after the other execute what one long burst does. -/
theorem instructions_eq (hr : e.machine.halted = false) (hs : 0 < e.config.burstSteps) :
    e.instructions = ⨆ n, ((e.burstCourse false 0 n).executed.length : ℕ∞) := by
  have hcourse (bursts : Nat) : e.executed (.runToEnd false bursts) =
      (e.burstCourse false 0 (bursts * e.config.burstSteps)).executed :=
    congrArg Course.executed (courseToEndFrom_eq hr false 0 bursts)
  unfold instructions
  refine le_antisymm (iSup_le fun bursts => ?_) (iSup_le fun n => ?_)
  · rw [hcourse]
    exact le_iSup (fun n => ((e.burstCourse false 0 n).executed.length : ℕ∞)) _
  · refine le_iSup_of_le n (Nat.cast_le.mpr ?_)
    rw [hcourse]
    exact length_executed_mono (Nat.le_mul_of_pos_right n hs)

/-- A run executes the least of the length of its burst and what a run to the end executes. -/
theorem length_executed_run (hr : e.machine.halted = false) (hs : 0 < e.config.burstSteps) :
    ((e.executed (.run false)).length : ℕ∞) = min (e.config.burstSteps : ℕ∞) e.instructions := by
  have hcourse : e.executed (.run false) =
      (e.burstCourse false 0 e.config.burstSteps).executed := by
    unfold executed courseFrom
    rw [hr]
    rfl
  rw [hcourse, instructions_eq hr hs]
  exact length_executed_eq_min e.config.burstSteps e

/-! ### Without breakpoints -/

theorem passes_zero_iff : e.Passes 0 x ↔ e = x := by
  constructor
  · intro h
    cases h
    rfl
  · rintro rfl
    exact .here e

theorem passes_succ_iff {n : Nat} :
    e.Passes (n + 1) x ↔ ∃ e', e.tryStep = .ok true e' ∧ e'.Passes n x := by
  constructor
  · intro h
    cases h with
    | step ht rest => exact ⟨_, ht, rest⟩
  · rintro ⟨e', ht, rest⟩
    exact .step ht rest

theorem passes_iff_runBurst (hb : e.breakpoints = []) (looks n : Nat) :
    e.Passes n x ↔ e.runBurst false looks n = (.yielded, x) := by
  induction n generalizing e looks with
  | zero =>
    rw [passes_zero_iff, runBurst]
    exact ⟨congrArg (Prod.mk _), congrArg Prod.snd⟩
  | succ n ih =>
    rw [passes_succ_iff, runBurst_succ hb]
    cases ht : e.tryStep with
    | error fault y => simp
    | ok more y =>
      cases more with
      | true => simpa using ih ((breakpoints_of_tryStep ht).trans hb) (looks + 1)
      | false =>
        dsimp only
        split_ifs <;> simp

/-- Without breakpoints and stops, a run that ends does so by an exit, by an `ebreak` or by a fault. -/
theorem outcome_of_ended {looks n : Nat} {outcome : Outcome} (hb : e.breakpoints = [])
    (h : e.runBurst false looks n = (outcome, x)) (ho : outcome ≠ .yielded) :
    outcome = .halted ∨ outcome = .paused ∨ ∃ fault, outcome = .faulted fault := by
  induction n generalizing e looks with
  | zero =>
    cases h
    exact absurd rfl ho
  | succ n ih =>
    rw [runBurst_succ hb] at h
    cases ht : e.tryStep with
    | error fault y =>
      rw [ht] at h
      cases h
      exact .inr (.inr ⟨fault, rfl⟩)
    | ok more y =>
      rw [ht] at h
      cases more with
      | true => exact ih ((breakpoints_of_tryStep ht).trans hb) h
      | false =>
        dsimp only at h
        split_ifs at h
        · cases h
          exact .inl rfl
        · cases h
          exact .inr (.inl rfl)

theorem burstCourse_succ (hb : e.breakpoints = []) (looks budget : Nat) :
    e.burstCourse false looks (budget + 1) =
      match e.tryStep with
      | .ok true e' => (burstCourse false (looks + 1) budget e').after [e]
      | .ok false e' => ⟨[e], if e'.machine.halted then .halted else .paused, e'⟩
      | .error fault e' => ⟨[], .faulted fault, e'.report fault⟩ := by
  have hat : e.atBreakpoint = false := by
    rw [atBreakpoint, hb]
    rfl
  rw [burstCourse, hat]
  rfl

theorem lt_length_executed_iff (hb : e.breakpoints = []) (looks n : Nat) :
    n < (e.burstCourse false looks (n + 1)).executed.length ↔
      ∃ x more x', e.Passes n x ∧ x.tryStep = .ok more x' := by
  induction n generalizing e looks with
  | zero =>
    rw [burstCourse_succ hb]
    simp only [passes_zero_iff, exists_and_left, exists_eq_left']
    cases e.tryStep with
    | error fault y => simp
    | ok more y => cases more <;> simp [Course.after]
  | succ n ih =>
    rw [burstCourse_succ hb]
    simp only [passes_succ_iff]
    cases ht : e.tryStep with
    | error fault y => simp
    | ok more y =>
      cases more with
      | true =>
        have hn := ih ((breakpoints_of_tryStep ht).trans hb) (looks + 1)
        simpa [Course.after, Nat.add_comm 1] using hn
      | false => simp

/-- A run to the end executes more than a number of instructions just if it gets past as many and can execute one
more. -/
theorem lt_instructions_iff (hr : e.machine.halted = false) (hs : 0 < e.config.burstSteps)
    (hb : e.breakpoints = []) (n : Nat) :
    (n : ℕ∞) < e.instructions ↔ ∃ x more x', e.Passes n x ∧ x.tryStep = .ok more x' := by
  rw [← lt_length_executed_iff hb 0 n, instructions_eq hr hs, ← Nat.cast_lt (α := ℕ∞),
    length_executed_eq_min, lt_min_iff]
  exact (and_iff_right (Nat.cast_lt.mpr n.lt_succ_self)).symm

end

namespace Matches
variable {e e' x : Emulator} {n : Nat}

theorem exists_passes (h : e.Matches e') (hp : e.Passes n x) :
    ∃ x', e'.Passes n x' ∧ x.Matches x' := by
  induction hp generalizing e' with
  | here e => exact ⟨e', .here e', h⟩
  | step ht rest ih =>
    obtain ⟨more, y, y', hy, hy', hm⟩ | ⟨fault, y, y', hy, hy', hm⟩ := h.tryStep
    · cases hy.symm.trans ht
      obtain ⟨x', hx', hmatch⟩ := ih hm
      exact ⟨x', .step hy' hx', hmatch⟩
    · cases hy.symm.trans ht

theorem exists_passes_iff (h : e.Matches e') : (∃ x, e.Passes n x) ↔ ∃ x', e'.Passes n x' := by
  constructor
  · rintro ⟨x, hx⟩
    obtain ⟨x', hx', -⟩ := h.exists_passes hx
    exact ⟨x', hx'⟩
  · rintro ⟨x', hx'⟩
    obtain ⟨x, hx, -⟩ := h.symm.exists_passes hx'
    exact ⟨x, hx⟩

/-- What a run to the end executes does not depend on the length of its bursts. -/
theorem instructions_le (h : e.Matches e') (hr : e.machine.halted = false)
    (hs : 0 < e.config.burstSteps) (hs' : 0 < e'.config.burstSteps) (hb : e.breakpoints = []) :
    e.instructions ≤ e'.instructions := by
  have hr' : e'.machine.halted = false := h.machine ▸ hr
  have hb' : e'.breakpoints = [] := h.breakpoints ▸ hb
  refine ENat.forall_natCast_le_iff_le.mp fun n hn => ?_
  cases n with
  | zero => exact zero_le
  | succ n =>
    have hlt : (n : ℕ∞) < e.instructions := (Nat.cast_lt.mpr n.lt_succ_self).trans_le hn
    obtain ⟨x, more, y, hx, hy⟩ := (lt_instructions_iff hr hs hb n).mp hlt
    obtain ⟨x', hx', hm⟩ := h.exists_passes hx
    have hlt' : (n : ℕ∞) < e'.instructions := by
      refine (lt_instructions_iff hr' hs' hb' n).mpr ?_
      obtain ⟨more', z, z', hz, hz', -⟩ | ⟨fault, z, z', hz, hz', -⟩ := hm.tryStep
      · exact ⟨x', more', z', hx', hz'⟩
      · cases hz.symm.trans hy
    exact Order.add_one_le_of_lt hlt'

end Matches

end RiscvToolkit.Emulator
