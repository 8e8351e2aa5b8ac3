import RiscvToolkit.Proofs.Emulator.UndoLog

/-! Going back undoes successful steps one by one, as many as the capacity allows. -/
namespace RiscvToolkit.Emulator

namespace Tracks
variable {e : Emulator} {u : UndoLog}

theorem length_log (h : e.Tracks u) : e.history.size = u.log.length := by
  rw [← History.length_entries, h.history.length_eq]

theorem length_log_le (h : e.Tracks u) : u.log.length ≤ u.config.historyCapacity := by
  rw [← h.length_log, ← h.capacity]
  exact e.history.size_le_capacity

theorem undone {before : Machine} {log : List Machine} (h : e.Tracks u)
    (hu : u.log = before :: log) :
    ∃ e', e.perform .stepBack = (.told true, e') ∧
      e'.Tracks { u with machine := before, log, pausedAt := none } := by
  obtain ⟨e', b, l, he, hu', ht⟩ | ⟨-, hu'⟩ := h.stepBack
  · rw [hu] at hu'
    cases hu'
    refine ⟨e', ?_, ht⟩
    unfold Emulator.perform
    dsimp only
    rw [he]
  · rw [hu] at hu'
    cases hu'

/-- Going back so many times leads to the state that the log has there. -/
theorem stepBacks {k : Nat} {m : Machine} (h : e.Tracks u) (hk : u.log[k]? = some m) :
    ∃ e', e.performAll (List.replicate (k + 1) .stepBack) =
        (List.replicate (k + 1) (.told true), e') ∧ e'.machine.Same m := by
  induction k generalizing e u with
  | zero =>
    cases hu : u.log with
    | nil => rw [hu] at hk; cases hk
    | cons before log =>
      rw [hu] at hk
      cases hk
      obtain ⟨e₁, hop, ht⟩ := h.undone hu
      refine ⟨e₁, ?_, ht.machine⟩
      simp only [List.replicate, Emulator.performAll, hop]
  | succ k ih =>
    cases hu : u.log with
    | nil => rw [hu] at hk; cases hk
    | cons before log =>
      rw [hu] at hk
      obtain ⟨e₁, hop, ht⟩ := h.undone hu
      obtain ⟨e', he', hm⟩ := ih ht hk
      refine ⟨e', ?_, hm⟩
      rw [List.replicate_succ, Emulator.performAll, hop]
      dsimp only
      rw [he']
      rfl

end Tracks

/-- Cutting a list before it grows makes no difference to cutting it after. -/
theorem take_cons_take {α : Type} (n : Nat) (a : α) (as : List α) :
    (a :: as.take n).take n = (a :: as).take n := by
  cases n with
  | zero => rfl
  | succ n => rw [List.take_succ_cons, List.take_succ_cons, List.take_take, Nat.min_eq_left n.le_succ]

/-- Successful steps, with the states before them, the latest first. -/
inductive Stepped (e : Emulator) : List Machine → Emulator → Prop
  | refl : Stepped e [] e
  | step {past : List Machine} {e₁ e₂ : Emulator} {more : Bool} (h : Stepped e past e₁)
      (hh : e₁.machine.halted = false) (ht : e₁.tryStep = .ok more e₂) :
      Stepped e (e₁.machine :: past) e₂

/-- What successful steps put on the log. -/
theorem Stepped.tracks {e e' : Emulator} {u : UndoLog} {past : List Machine}
    (hs : e.Stepped past e') (h : e.Tracks u) :
    ∃ u' states, e'.Tracks u' ∧ u'.config = u.config ∧
      List.Forall₂ Machine.Same past states ∧
      u'.log = (states ++ u.log).take u.config.historyCapacity := by
  induction hs with
  | refl => exact ⟨u, [], h, rfl, .nil, (List.take_of_length_le h.length_log_le).symm⟩
  | step _ hh ht ih =>
    obtain ⟨u₁, states, h₁, hc, hall, hlog⟩ := ih
    obtain ⟨done, done', he, -, h₂⟩ | ⟨fault, he, -⟩ := h₁.tryStep_of_running hh
    · rw [ht] at he
      cases he
      refine ⟨_, u₁.machine :: states, h₂, hc, .cons h₁.machine hall, ?_⟩
      change (u₁.machine :: u₁.log).take _ = _
      rw [hlog, hc, List.cons_append]
      exact take_cons_take _ _ _
    · rw [ht] at he
      cases he

/-- Whatever is done with a program, it answers and its machine is as if whole states were kept. Nothing is
kept of a step that fails or of a machine that has halted; successful steps are undone one by one, as many as
the capacity allows. -/
theorem undoes_like_log {memory : Memory} (hm : memory.Reachable) (entry : UInt64)
    (config : Config) (ops : List Operation) :
    ∃ answers e u, (load memory entry config).performAll ops = (answers, e) ∧
      (UndoLog.load memory entry config).performAll ops = (answers, u) ∧
      e.machine.Same u.machine ∧ e.history.size = u.log.length ∧
      (∀ fault e', e.tryStep = .error fault e' → e' = e) ∧
      (e.machine.halted = true → e.tryStep = .ok false e) ∧
      ∀ past e', e.Stepped past e' → ∀ k (hk : k < past.length), k < config.historyCapacity →
        ∃ e'', e'.performAll (List.replicate (k + 1) .stepBack) =
          (List.replicate (k + 1) (.told true), e'') ∧ e''.machine.Same past[k] := by
  have ⟨hanswer, ht⟩ := (tracks_load hm.marked entry config).performAll ops
  set e := ((load memory entry config).performAll ops).2
  set u := ((UndoLog.load memory entry config).performAll ops).2
  refine ⟨_, e, u, rfl, Prod.ext hanswer.symm rfl, ht.machine, ht.length_log, ?_, ?_, ?_⟩
  · intro fault e' he
    obtain ⟨_, _, _, he', -, -⟩ | ⟨_, he', -⟩ := ht.tryStep
    · rw [he] at he'
      cases he'
    · rw [he] at he'
      cases he'
      rfl
  · intro hh
    rw [tryStep_eq ht.zeroed.machine, if_pos hh]
  · intro past e' hs k hk hc
    obtain ⟨u', states, ht', hc', hall, hlog⟩ := hs.tracks ht
    have hconfig : u.config = config := ht.config ▸ config_performAll _ ops
    have hk' : k < states.length := hall.length_eq ▸ hk
    have hget : u'.log[k]? = some states[k] := by
      rw [hlog, hconfig, List.getElem?_take_of_lt hc, List.getElem?_append_left hk',
        List.getElem?_eq_getElem hk']
    obtain ⟨e'', he'', hsame⟩ := ht'.stepBacks hget
    exact ⟨e'', he'', hsame.trans (hall.get hk hk').symm⟩

/-- Three additions with room for two states: the first of them cannot be undone. -/
theorem undoes_like_log_full :
    ∃ memory, Memory.empty.store 0x400000
        [0x13, 0x05, 0x15, 0x00, 0x13, 0x05, 0x15, 0x00, 0x13, 0x05, 0x15, 0x00] = .ok memory ∧
      memory.Reachable ∧
      ∃ e u, (load memory 0x400000 (Config.default.withHistoryCapacity 2)).performAll
          [.step, .step, .step, .stepBack, .stepBack, .stepBack] =
            ([.told true, .told true, .told true, .told true, .told true, .told false], e) ∧
        (UndoLog.load memory 0x400000 (Config.default.withHistoryCapacity 2)).performAll
          [.step, .step, .step, .stepBack, .stepBack, .stepBack] =
            ([.told true, .told true, .told true, .told true, .told true, .told false], u) ∧
        e.machine.Same u.machine ∧ e.machine.regs.get 10 = 1 := by
  have hs : Memory.empty.store 0x400000
      [0x13, 0x05, 0x15, 0x00, 0x13, 0x05, 0x15, 0x00, 0x13, 0x05, 0x15, 0x00] =
        .ok (Memory.empty.overwrite .text 0
          [0x13, 0x05, 0x15, 0x00, 0x13, 0x05, 0x15, 0x00, 0x13, 0x05, 0x15, 0x00]) := rfl
  have hr := Memory.Reachable.store .empty hs
  obtain ⟨answers, e, u, he, hu, hm, -⟩ := undoes_like_log hr 0x400000
    (Config.default.withHistoryCapacity 2)
    [.step, .step, .step, .stepBack, .stepBack, .stepBack]
  have ha : _ = answers := congrArg Prod.fst he
  have hlast : _ = e := congrArg Prod.snd he
  subst ha
  refine ⟨_, hs, hr, e, u, he, hu, hm, ?_⟩
  rw [← hlast]
  rfl

end RiscvToolkit.Emulator
