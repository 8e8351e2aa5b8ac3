import RiscvToolkit.Proofs.Emulator.Bursts
import RiscvToolkit.Proofs.Emulator.Transcript
import RiscvToolkit.Proofs.Emulator.UndoLog

/-! A reset starts over: from there on, an emulator does what a freshly loaded one does that has its
breakpoints. -/
namespace RiscvToolkit.Emulator

/-- True of emulators whose states cannot be told apart, now or after going back. -/
structure Alike (e f : Emulator) : Prop where
  config : e.config = f.config
  machine : e.machine.Same f.machine
  initial : e.initial.restore.Same f.initial.restore
  history : List.Forall₂ (fun s t => s.restore.Same t.restore) e.history.entries f.history.entries
  breakpoints : ∀ addr, addr ∈ e.breakpoints ↔ addr ∈ f.breakpoints
  pausedAt : e.pausedAt = f.pausedAt

/-- Snapshots of the same states. -/
theorem forall₂_restore {ss ts : List Snapshot} {ms : List Machine}
    (hs : List.Forall₂ (fun (s : Snapshot) m => s.restore.Same m) ss ms)
    (ht : List.Forall₂ (fun (s : Snapshot) m => s.restore.Same m) ts ms) :
    List.Forall₂ (fun s t => s.restore.Same t.restore) ss ts := by
  induction hs generalizing ts with
  | nil =>
    cases ht
    exact .nil
  | cons hsame _ ih =>
    cases ht with
    | cons hsame' ht => exact .cons (hsame.trans hsame'.symm) (ih ht)

theorem Tracks.alike {e f : Emulator} {u : UndoLog} (he : e.Tracks u) (hf : f.Tracks u) :
    e.Alike f where
  config := he.config.trans hf.config.symm
  machine := he.machine.trans hf.machine.symm
  initial := he.initial.trans hf.initial.symm
  history := forall₂_restore he.history hf.history
  breakpoints addr := by
    rw [← List.mem_toFinset, he.breakpoints, ← hf.breakpoints, List.mem_toFinset]
  pausedAt := he.pausedAt.trans hf.pausedAt.symm

/-! ### What two of them send -/

/-- True of emulators that stand for the same states, and have sent the same since their consoles were `c` and
`d`. -/
structure Abreast (c d : Console) (e f : Emulator) : Prop where
  tracks : ∃ u, e.Tracks u ∧ f.Tracks u
  console : ∃ events, e.console = c.send events ∧ f.console = d.send events

namespace Abreast
variable {c d : Console} {e f : Emulator}

theorem send (h : Abreast c d e f) (events : List Event) :
    Abreast c d { e with console := e.console.send events }
      { f with console := f.console.send events } := by
  obtain ⟨u, he, hf⟩ := h.tracks
  obtain ⟨before, hc, hd⟩ := h.console
  refine ⟨⟨u, he.console _, hf.console _⟩, before ++ events, ?_, ?_⟩
  · rw [hc, Console.send_send]
  · rw [hd, Console.send_send]

theorem report (h : Abreast c d e f) (fault : Fault) :
    Abreast c d (e.report fault) (f.report fault) := by
  obtain ⟨u, he, hf⟩ := h.tracks
  have hpc : e.machine.pc = f.machine.pc := he.machine.pc.trans hf.machine.pc.symm
  unfold Emulator.report
  dsimp only
  rw [hpc]
  exact h.send _

theorem pause (h : Abreast c d e f) :
    Abreast c d { e with pausedAt := some e.machine.pc }
      { f with pausedAt := some f.machine.pc } := by
  obtain ⟨u, he, hf⟩ := h.tracks
  exact ⟨⟨_, he.pause, hf.pause⟩, h.console⟩

theorem tryStep (h : Abreast c d e f) :
    (∃ more e' f', e.tryStep = .ok more e' ∧ f.tryStep = .ok more f' ∧ Abreast c d e' f') ∨
      ∃ fault, e.tryStep = .error fault e ∧ f.tryStep = .error fault f := by
  obtain ⟨u, he, hf⟩ := h.tracks
  have hsame : e.machine.Same f.machine := he.machine.trans hf.machine.symm
  rw [tryStep_eq he.zeroed.machine, tryStep_eq hf.zeroed.machine, ← hsame.halted]
  cases hh : e.machine.halted with
  | true => exact .inl ⟨false, e, f, rfl, rfl, h⟩
  | false =>
    -- both execute what the log's machine executes
    obtain ⟨done, d, hs, hu, hd⟩ | ⟨fault, hs, hu⟩ := he.machine.step.ok_or_error
    · obtain ⟨done', d', hs', hu', hd'⟩ | ⟨fault', -, hu'⟩ := hf.machine.step.ok_or_error
      · obtain rfl : d = d' := Except.ok.inj (hu.symm.trans hu')
        have hevents : done.events = done'.events := hd.events.trans hd'.events.symm
        have hmore : done.more = done'.more := hd.more.trans hd'.more.symm
        obtain ⟨before, hc, hd₀⟩ := h.console
        rw [hs, hs']
        refine .inl ⟨done.more, e.advanced done, f.advanced done', rfl, ?_,
          ⟨_, he.advanced hh hs hu hd, hf.advanced (hsame.halted ▸ hh) hs' hu hd'⟩,
          before ++ done.events, ?_, ?_⟩
        · rw [hmore]
          rfl
        · rw [advanced, hc, Console.send_send]
        · rw [advanced, hd₀, hevents, Console.send_send]
      · cases hu.symm.trans hu'
    · obtain ⟨_, _, -, hu', -⟩ | ⟨fault', hs', hu'⟩ := hf.machine.step.ok_or_error
      · cases hu.symm.trans hu'
      · obtain rfl : fault = fault' := Except.error.inj (hu.symm.trans hu')
        rw [hs, hs']
        exact .inr ⟨fault, rfl, rfl⟩

theorem step (h : Abreast c d e f) : Abreast c d e.step.2 f.step.2 := by
  unfold Emulator.step
  obtain ⟨more, e', f', he, hf, h'⟩ | ⟨fault, he, hf⟩ := h.tryStep
  · rw [he, hf]
    exact h'
  · rw [he, hf]
    exact h.report fault

theorem runBurst (h : Abreast c d e f) (flag : StopFlag) (looks budget : Nat) :
    Abreast c d (e.runBurst flag looks budget).2 (f.runBurst flag looks budget).2 := by
  induction budget generalizing e f looks with
  | zero => exact h
  | succ budget ih =>
    obtain ⟨u, he, hf⟩ := h.tracks
    have hat : e.atBreakpoint = f.atBreakpoint :=
      Bool.eq_iff_iff.mpr (he.atBreakpoint_iff.trans hf.atBreakpoint_iff.symm)
    unfold Emulator.runBurst
    rw [hat]
    split_ifs
    · exact h
    · exact h.pause
    · obtain ⟨more, e', f', he, hf, h'⟩ | ⟨fault, he, hf⟩ := h.tryStep
      · rw [he, hf]
        cases more with
        | true => exact ih h' (looks + 1)
        | false => exact h'
      · rw [he, hf]
        exact h.report fault

theorem runFrom (h : Abreast c d e f) (flag : StopFlag) (looks : Nat) :
    Abreast c d (e.runFrom flag looks).2 (f.runFrom flag looks).2 := by
  obtain ⟨u, he, hf⟩ := h.tracks
  unfold Emulator.runFrom
  rw [he.machine.halted, ← hf.machine.halted, he.config, ← hf.config]
  split
  · exact h
  · exact h.runBurst flag looks _

theorem runToEndFrom (h : Abreast c d e f) (flag : StopFlag) (looks bursts : Nat) :
    Abreast c d (e.runToEndFrom flag looks bursts).2 (f.runToEndFrom flag looks bursts).2 := by
  induction bursts generalizing e f looks with
  | zero => exact h
  | succ bursts ih =>
    obtain ⟨u, he, hf⟩ := h.tracks
    have ho := (he.runFrom flag looks).answer.trans (hf.runFrom flag looks).answer.symm
    have h' := h.runFrom flag looks
    unfold Emulator.runToEndFrom
    generalize e.runFrom flag looks = a at ho h' ⊢
    generalize f.runFrom flag looks = b at ho h' ⊢
    obtain ⟨outcome, e'⟩ := a
    obtain ⟨_, f'⟩ := b
    obtain rfl : outcome = _ := ho
    cases outcome with
    | yielded =>
      obtain ⟨u', he', hf'⟩ := h'.tracks
      have hc : e'.config = f'.config := he'.config.trans hf'.config.symm
      dsimp only
      rw [hc]
      exact ih h' _
    | _ => exact h'

theorem tryStep_perform (h : Abreast c d e f) :
    Abreast c d (e.perform .tryStep).2 (f.perform .tryStep).2 := by
  unfold Emulator.perform
  dsimp only
  obtain ⟨more, e', f', he, hf, h'⟩ | ⟨fault, he, hf⟩ := h.tryStep
  · rw [he, hf]
    exact h'
  · rw [he, hf]
    exact h

end Abreast

section
variable {e f : Emulator} {u : UndoLog}

/-- Emulators that stand for the same states send the same. -/
theorem Tracks.sent_eq (he : e.Tracks u) (hf : f.Tracks u) (op : Operation) :
    e.sent op = f.sent op := by
  have h : Abreast e.console f.console e f :=
    ⟨⟨u, he, hf⟩, [], (Console.send_nil _).symm, (Console.send_nil _).symm⟩
  have hrun (hop : Abreast e.console f.console (e.perform op).2 (f.perform op).2)
      (hce : e.consoleAt op = e.console) (hcf : f.consoleAt op = f.console) :
      e.sent op = f.sent op := by
    obtain ⟨events, hc, hd⟩ := hop.console
    rw [Emulator.sent_eq (hce ▸ hc), Emulator.sent_eq (hcf ▸ hd)]
  cases op with
  | step => exact hrun h.step rfl rfl
  | tryStep => exact hrun h.tryStep_perform rfl rfl
  | run flag => exact hrun (h.runFrom flag 0) rfl rfl
  | runToEnd flag bursts => exact hrun (h.runToEndFrom flag 0 bursts) rfl rfl
  | stepBack => rw [sent_eq_nil console_stepBack, sent_eq_nil console_stepBack]
  | reset | setBreakpoint | clearBreakpoint | clearBreakpoints | setConsole =>
    rw [sent_eq_nil rfl, sent_eq_nil rfl]

theorem Tracks.transcript_eq (he : e.Tracks u) (hf : f.Tracks u) (ops : List Operation) :
    e.transcript ops = f.transcript ops := by
  induction ops generalizing e f u with
  | nil => rfl
  | cons op rest ih =>
    rw [transcript, transcript, he.sent_eq hf op, ih (he.perform op).tracks (hf.perform op).tracks]

/-- The log of a loaded program with breakpoints. -/
theorem Tracks.breakpoints_eq (h : e.Tracks u) (addrs : List UInt64) :
    { e with breakpoints := addrs }.Tracks { u with breakpoints := addrs.toFinset } :=
  { h with
    breakpoints := rfl
    zeroed := kept_zeroed.breakpoints h.zeroed addrs
    marked := { h.marked with } }

theorem performAll_setBreakpoint (addrs : List UInt64) :
    (e.performAll (addrs.map .setBreakpoint)).2 =
      { e with breakpoints := addrs.foldl (fun set addr => insertAddress addr set) e.breakpoints } := by
  induction addrs generalizing e with
  | nil => rfl
  | cons addr rest ih => exact ih

theorem toFinset_foldl_insertAddress (addrs set : List UInt64) :
    (addrs.foldl (fun set addr => insertAddress addr set) set).toFinset =
      addrs.toFinset ∪ set.toFinset := by
  induction addrs generalizing set with
  | nil => simp
  | cons addr rest ih =>
    rw [List.foldl_cons, ih, toFinset_insertAddress, List.toFinset_cons, Finset.insert_union,
      Finset.union_insert]

end

/-- After a reset, as after loading: everything is at its start but the breakpoints. -/
theorem tracks_reset {memory : Memory} (hm : memory.Marked) (entry : UInt64) (config : Config)
    (ops : List Operation) {e : Emulator}
    (he : ((load memory entry config).performAll ops).2 = e) :
    e.reset.Tracks { UndoLog.load memory entry config with
      breakpoints := e.breakpoints.toFinset } := by
  have hload := tracks_load hm entry config
  have ht := (hload.performAll ops).tracks
  obtain ⟨hconfig, hinitial⟩ := (kept_loaded config (load memory entry config).initial).performAll
    ⟨rfl, rfl⟩ ops
  rw [he] at ht hconfig hinitial
  have hreset : e.initial.restore.Same (UndoLog.load memory entry config).initial := by
    rw [hinitial]
    exact hload.initial
  exact {
    config := hconfig
    capacity := ht.capacity.trans (by rw [← ht.config, hconfig]; rfl)
    machine := hreset
    initial := hreset
    history := .nil
    breakpoints := rfl
    pausedAt := rfl
    zeroed := kept_zeroed.reset ht.zeroed
    marked := { hload.marked with } }

/-- The log of a loaded program with breakpoints. -/
theorem tracks_setBreakpoints {memory : Memory} (hm : memory.Marked) (entry : UInt64)
    (config : Config) (addrs : List UInt64) :
    ((load memory entry config).performAll (addrs.map .setBreakpoint)).2.Tracks
      { UndoLog.load memory entry config with breakpoints := addrs.toFinset } := by
  rw [performAll_setBreakpoint]
  have h := (tracks_load hm entry config).breakpoints_eq
    (addrs.foldl (fun set addr => insertAddress addr set) [])
  rw [toFinset_foldl_insertAddress, List.toFinset_nil, Finset.union_empty] at h
  exact h

/-- Whatever a host does with a program, a reset brings it back to where it was loaded but for its breakpoints.
From there on it answers what a freshly loaded one answers with the same breakpoints, goes through the same
states and sends the same to the console. -/
theorem reset_restarts {memory : Memory} (hm : memory.Reachable) (entry : UInt64) (config : Config)
    (ops later : List Operation) :
    ∃ e fresh, ((load memory entry config).performAll ops).2 = e ∧
      ((load memory entry config).performAll (e.breakpoints.map .setBreakpoint)).2 = fresh ∧
      e.reset.machine.Same (load memory entry config).machine ∧
      e.reset.history.entries = [] ∧ e.reset.breakpoints = e.breakpoints ∧
      ∃ answers x y, e.reset.performAll later = (answers, x) ∧
        fresh.performAll later = (answers, y) ∧ x.Alike y ∧
        e.reset.transcript later = fresh.transcript later := by
  set e := ((load memory entry config).performAll ops).2 with he
  set fresh := ((load memory entry config).performAll (e.breakpoints.map .setBreakpoint)).2
  have hr := tracks_reset hm.marked entry config ops he.symm
  have hf : fresh.Tracks _ := tracks_setBreakpoints hm.marked entry config e.breakpoints
  have hrest := hr.performAll later
  have hrest' := hf.performAll later
  have hanswers : (e.reset.performAll later).1 = (fresh.performAll later).1 :=
    hrest.answer.trans hrest'.answer.symm
  exact ⟨e, fresh, rfl, rfl, hr.machine, rfl, rfl, _, _, (fresh.performAll later).2, rfl,
    Prod.ext hanswers.symm rfl, hrest.tracks.alike hrest'.tracks, hr.transcript_eq hf later⟩

/-- A program that exits with its second instruction, reset after it has. -/
theorem reset_restarts_exited :
    ∃ memory, Memory.empty.store 0x400000
        [0x93, 0x08, 0xa0, 0x00, 0x73, 0x00, 0x00, 0x00] = .ok memory ∧
      memory.Reachable ∧
      ∃ e fresh, ((load memory 0x400000 .default).performAll
          [.setBreakpoint 0x400004, .step, .step]).2 = e ∧ e.machine.halted = true ∧
        ((load memory 0x400000 .default).performAll [.setBreakpoint 0x400004]).2 = fresh ∧
        e.reset.machine.Same (load memory 0x400000 .default).machine ∧
        ∃ x y, e.reset.performAll [.step, .run false, .step] =
            ([.told true, .ran (.breakpoint 0x400004), .told false], x) ∧
          fresh.performAll [.step, .run false, .step] =
            ([.told true, .ran (.breakpoint 0x400004), .told false], y) ∧
          x.Alike y ∧
          fresh.transcript [.step, .run false, .step] =
            [[], [], [.output Machine.exitNotice, .halted]] := by
  have hs : Memory.empty.store 0x400000 [0x93, 0x08, 0xa0, 0x00, 0x73, 0x00, 0x00, 0x00] =
      .ok (Memory.empty.overwrite .text 0 [0x93, 0x08, 0xa0, 0x00, 0x73, 0x00, 0x00, 0x00]) := rfl
  have hr := Memory.Reachable.store .empty hs
  obtain ⟨e, fresh, he, hf, hsame, -, -, answers, x, y, hx, hy, hxy, ht⟩ :=
    reset_restarts hr 0x400000 .default [.setBreakpoint 0x400004, .step, .step]
      [.step, .run false, .step]
  subst he
  subst hf
  have ha : _ = answers := congrArg Prod.fst hx
  subst ha
  exact ⟨_, hs, hr, _, _, rfl, rfl, rfl, hsame, x, y, hx, hy, hxy, ht.symm.trans rfl⟩

end RiscvToolkit.Emulator
