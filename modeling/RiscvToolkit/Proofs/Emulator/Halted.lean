import RiscvToolkit.Proofs.Emulator.Course
import RiscvToolkit.Proofs.Emulator.Transcript

/-! Programs that have exited: how they have, that nothing but going back wakes them, and that the host is told
each time. -/
namespace RiscvToolkit

/-- True of a machine that, if it has halted, stands behind the exit call. -/
def Machine.HaltedByExit (m : Machine) : Prop :=
  m.halted = true → m.memory.readWord (m.pc - 4) = .ok 0x73 ∧ m.regs.get .a7 = 10

theorem Machine.haltedByExit_of_running {m : Machine} (hr : m.halted = false) : m.HaltedByExit :=
  fun hh => nomatch hr.symm.trans hh

theorem Machine.haltedByExit_of_step {m : Machine} {done : Executed} (hr : m.halted = false)
    (h : m.step = .ok done) : done.machine.HaltedByExit := by
  obtain ⟨hsame, -⟩ | ⟨hw, ha, rfl⟩ := exited_of_step hr h
  · exact haltedByExit_of_running (hsame.trans hr)
  · refine fun _ => ⟨?_, ha⟩
    have hpc : m.exited.machine.pc - 4 = m.pc := UInt64.add_sub_cancel m.pc 4
    rw [hpc]
    exact hw

namespace Emulator

/-- Only a machine at work can have halted, and not one of those that can be gone back to. -/
structure Awake (e : Emulator) : Prop where
  zeroed : e.Zeroed
  machine : e.machine.HaltedByExit
  initial : e.initial.halted = false
  history : ∀ s ∈ e.history.entries, s.halted = false

section
variable {e : Emulator}

theorem Awake.running_of_stepBack? {e' : Emulator} (h : e.Awake) (hb : e.stepBack? = some e') :
    e'.machine.halted = false := by
  obtain ⟨⟨s, history⟩, hp, rfl⟩ := Option.map_eq_some_iff.mp hb
  exact h.history s (History.entries_of_pop? hp ▸ List.mem_cons_self)

theorem kept_awake : Kept Awake where
  advance h ht := by
    have hz := kept_zeroed.advance h.zeroed ht
    obtain ⟨-, -, rfl⟩ | ⟨done, hr, hs, -, rfl⟩ := advanced_of_tryStep h.zeroed.machine ht
    · exact h
    · refine ⟨hz, Machine.haltedByExit_of_step hr hs, h.initial, fun s hmem => ?_⟩
      rcases History.eq_or_mem_of_mem_push hmem with rfl | hmem
      · exact hr
      · exact h.history s hmem
  fault h ht := by
    rw [eq_of_fault h.zeroed.machine ht]
    exact h
  pause h := ⟨kept_zeroed.pause h.zeroed, h.machine, h.initial, h.history⟩
  stepBack h hb := by
    have hz := kept_zeroed.stepBack h.zeroed hb
    have hr := h.running_of_stepBack? hb
    obtain ⟨⟨s, history⟩, hp, rfl⟩ := Option.map_eq_some_iff.mp hb
    exact ⟨hz, Machine.haltedByExit_of_running hr, h.initial, fun t ht => h.history t
      (History.entries_of_pop? hp ▸ List.mem_cons_of_mem s ht)⟩
  reset h := ⟨kept_zeroed.reset h.zeroed, Machine.haltedByExit_of_running h.initial, h.initial,
    fun s hs => nomatch hs⟩
  breakpoints h breakpoints :=
    ⟨kept_zeroed.breakpoints h.zeroed breakpoints, h.machine, h.initial, h.history⟩
  console h console := ⟨kept_zeroed.console h.zeroed console, h.machine, h.initial, h.history⟩

theorem awake_load (memory : Memory) (entry : UInt64) (config : Config) :
    (load memory entry config).Awake :=
  ⟨zeroed_load memory entry config, Machine.haltedByExit_of_running rfl, rfl, fun _ hs => nomatch hs⟩

end

/-! ### Nothing happens in a program that has exited -/

/-- What an operation that executes instructions answers of a program that has exited. -/
inductive Operation.Idles : Operation → Answer → Prop
  | step : Idles .step (.told false)
  | tryStep : Idles .tryStep (.tried (.ok false))
  | run (flag : StopFlag) : Idles (.run flag) (.ran .halted)
  | runToEnd (flag : StopFlag) (bursts : Nat) : Idles (.runToEnd flag (bursts + 1)) (.ran .halted)

section
variable {e : Emulator}

theorem tryStep_of_halted (hh : e.machine.halted = true) : e.tryStep = .ok false e := by
  unfold tryStep
  dsimp only
  rw [if_pos hh]

theorem runFrom_of_halted (hh : e.machine.halted = true) (flag : StopFlag) (looks : Nat) :
    e.runFrom flag looks = (.halted, e) :=
  if_pos hh

theorem perform_of_idles (hh : e.machine.halted = true) {op : Operation} {answer : Answer}
    (hop : op.Idles answer) : e.perform op = (answer, e) := by
  cases hop with
  | step =>
    unfold perform step
    rw [tryStep_of_halted hh]
  | tryStep =>
    unfold perform
    dsimp only
    rw [tryStep_of_halted hh]
  | run flag => exact congrArg (Prod.map Answer.ran id) (runFrom_of_halted hh flag 0)
  | runToEnd flag bursts =>
    have hrun : e.runToEnd flag (bursts + 1) = (.halted, e) := by
      rw [runToEnd, runToEndFrom, runFrom_of_halted hh]
    exact congrArg (Prod.map Answer.ran id) hrun

theorem performAll_of_idles (hh : e.machine.halted = true) {ops : List Operation}
    {answers : List Answer} (hops : List.Forall₂ Operation.Idles ops answers) :
    e.performAll ops = (answers, e) := by
  induction hops with
  | nil => rfl
  | cons hop _ ih => rw [performAll, perform_of_idles hh hop, ih]

end

/-! ### The notices of exits -/

/-- How many of the operations find the program running and leave it exited. -/
def exits (e : Emulator) : List Operation → Nat
  | [] => 0
  | op :: rest =>
    (if !e.machine.halted && (e.perform op).2.machine.halted then 1 else 0) +
      (e.perform op).2.exits rest

/-- How many notices of an exit are on the console. -/
def notices (e : Emulator) : Nat :=
  e.console.events.toList.count .halted

section
variable {e : Emulator}

/-- Runs add a notice just when they halt the machine: both sides grow by one or stay. -/
theorem keptByRuns_notices (a b : Nat) :
    KeptByRuns fun e => e.Zeroed ∧ e.notices + a = e.machine.halted.toNat + b where
  advance h ht := by
    refine ⟨kept_zeroed.advance h.1 ht, ?_⟩
    obtain ⟨-, -, rfl⟩ | ⟨done, hr, hs, -, rfl⟩ := advanced_of_tryStep h.1.machine ht
    · exact h.2
    · have hcount := Machine.count_halted_of_step hr hs
      have hbefore := h.2
      simp only [notices, advanced, Console.toList_events_send, List.count_append, hcount, hr,
        Bool.toNat_false] at hbefore ⊢
      omega
  fault h ht := by
    rw [eq_of_fault h.1.machine ht]
    exact h
  report h fault := by
    refine ⟨kept_zeroed.byRuns.report h.1 fault, ?_⟩
    have hbefore := h.2
    simpa [notices, report] using hbefore
  pause h := ⟨kept_zeroed.pause h.1, h.2⟩

/-- No instruction is executed once a program has exited. -/
theorem running_of_mem_executed (hz : e.Zeroed) (op : Operation) :
    ∀ x ∈ e.executed op, x.machine.halted = false := by
  obtain ⟨x, hx⟩ := exists_leadsThrough_executed hz op
  exact hx.running

/-- An operation that sends nothing, and halts no machine. -/
theorem count_halted_sent_of_quiet {op : Operation} (hs : e.sent op = [])
    (hh : (e.perform op).2.machine.halted = true → e.machine.halted = true) :
    (e.sent op).count .halted =
      if !e.machine.halted && (e.perform op).2.machine.halted then 1 else 0 := by
  rw [hs]
  cases hb : e.machine.halted <;> cases ha : (e.perform op).2.machine.halted <;>
    simp_all

theorem count_halted_sent (hw : e.Awake) (op : Operation) :
    (e.sent op).count .halted =
      if !e.machine.halted && (e.perform op).2.machine.halted then 1 else 0 := by
  have hrun (hc : e.consoleAt op = e.console)
      (h : (e.perform op).2.notices + e.machine.halted.toNat =
        (e.perform op).2.machine.halted.toNat + e.notices) :
      (e.sent op).count .halted =
        if !e.machine.halted && (e.perform op).2.machine.halted then 1 else 0 := by
    have hsent := console_perform hw.zeroed op
    unfold notices at h
    rw [hsent, hc, Console.toList_events_send, List.count_append] at h
    cases hb : e.machine.halted <;> cases ha : (e.perform op).2.machine.halted <;>
      simp [hb, ha] at h ⊢ <;> omega
  have hkept := keptByRuns_notices e.machine.halted.toNat e.notices
  have hself : e.Zeroed ∧ e.notices + e.machine.halted.toNat = e.machine.halted.toNat + e.notices :=
    ⟨hw.zeroed, Nat.add_comm _ _⟩
  cases op with
  | step => exact hrun rfl (hkept.step hself).2
  | tryStep => exact hrun rfl (hkept.tryStep hself).2
  | run flag => exact hrun rfl (hkept.runFrom flag 0 hself).2
  | runToEnd flag bursts => exact hrun rfl (hkept.runToEndFrom flag 0 bursts hself).2
  | stepBack =>
    refine count_halted_sent_of_quiet (sent_eq_nil console_stepBack) ?_
    unfold perform
    dsimp only
    cases hb : e.stepBack? with
    | none => exact id
    | some e' => exact fun hh => nomatch (hw.running_of_stepBack? hb).symm.trans hh
  | reset =>
    refine count_halted_sent_of_quiet (sent_eq_nil rfl) fun hh => ?_
    exact nomatch hw.initial.symm.trans hh
  | setBreakpoint | clearBreakpoint | clearBreakpoints | setConsole =>
    exact count_halted_sent_of_quiet (sent_eq_nil rfl) id

theorem count_halted_transcript (hw : e.Awake) (ops : List Operation) :
    (e.transcript ops).flatten.count .halted = e.exits ops := by
  induction ops generalizing e with
  | nil => rfl
  | cons op rest ih =>
    rw [transcript, List.flatten_cons, List.count_append, count_halted_sent hw op,
      ih (kept_awake.perform hw op), exits]

end

/-- Whatever a host does with a program, a machine that has halted has just executed the exit call. None that can be
gone back to has halted; steps and runs change nothing once it has; and the console gets one notice each time. -/
theorem exits_once {e : Emulator} (he : e.Reachable) :
    (e.machine.halted = true →
      e.machine.memory.readWord (e.machine.pc - 4) = .ok 0x73 ∧ e.machine.regs.get .a7 = 10) ∧
    (∀ s ∈ e.history.entries, s.halted = false) ∧
    (∀ e', e.stepBack? = some e' → e'.machine.halted = false) ∧
    e.reset.machine.halted = false ∧
    (e.machine.halted = true → ∀ ops answers, List.Forall₂ Operation.Idles ops answers →
      e.performAll ops = (answers, e)) ∧
    (∀ op, ∀ x ∈ e.executed op, x.machine.halted = false) ∧
    ∀ ops, (e.transcript ops).flatten.count .halted = e.exits ops := by
  have hw : e.Awake := kept_awake.of_reachable awake_load he
  exact ⟨hw.machine, hw.history, fun _ => hw.running_of_stepBack?, hw.initial,
    fun hh _ _ => performAll_of_idles hh, running_of_mem_executed hw.zeroed, count_halted_transcript hw⟩

/-- A program that exits with its second instruction, and once more after a reset. -/
theorem exits_once_again :
    ∃ memory, Memory.empty.store 0x400000
        [0x93, 0x08, 0xa0, 0x00, 0x73, 0x00, 0x00, 0x00] = .ok memory ∧
      ∃ e, (load memory 0x400000 .default).performAll [.step, .step] =
          ([.told true, .told false], e) ∧
        e.Reachable ∧ e.machine.halted = true ∧
        e.machine.memory.readWord (e.machine.pc - 4) = .ok 0x73 ∧ e.machine.regs.get .a7 = 10 ∧
        e.performAll [.tryStep, .run false] = ([.tried (.ok false), .ran .halted], e) ∧
        (e.transcript [.run false, .reset, .step, .step]).flatten.count .halted = 1 := by
  have hs : Memory.empty.store 0x400000 [0x93, 0x08, 0xa0, 0x00, 0x73, 0x00, 0x00, 0x00] =
      .ok (Memory.empty.overwrite .text 0 [0x93, 0x08, 0xa0, 0x00, 0x73, 0x00, 0x00, 0x00]) := rfl
  have hr := ((Reachable.load (Memory.empty.overwrite .text 0
    [0x93, 0x08, 0xa0, 0x00, 0x73, 0x00, 0x00, 0x00]) 0x400000 .default).perform .step).perform .step
  obtain ⟨hexit, -, -, -, hidle, -, hcount⟩ := exits_once hr
  obtain ⟨hword, hnumber⟩ := hexit rfl
  exact ⟨_, hs, _, rfl, hr, rfl, hword, hnumber,
    hidle rfl _ _ (.cons .tryStep (.cons (.run _) .nil)),
    (hcount [.run false, .reset, .step, .step]).trans rfl⟩

end Emulator

end RiscvToolkit
