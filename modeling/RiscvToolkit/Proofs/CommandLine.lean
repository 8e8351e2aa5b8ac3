import RiscvToolkit.CommandLine
import RiscvToolkit.Proofs.Emulator.Limit
import RiscvToolkit.Proofs.Terminal.Options

/-! Runs from the command line with a limit on their steps. Up to the limit they are runs without one: they execute the
same instructions and report the same end. The limit is the length of a single burst, which is never zero: a limit of no
steps is one of a single step. -/
namespace RiscvToolkit.CommandLine
open Terminal (Arguments Piece coloured readArguments)

/-! ### Words -/

theorem ok_of_valued {α : Type} {read : String → Except String α} {text : String}
    (h : (valued read).Takes text) : ∃ value, read text = .ok value := by
  obtain ⟨value, hv, -⟩ := map_eq_ok_iff.mp h
  exact ⟨value, hv⟩

/-- A value has been checked when it is read. -/
theorem readValue_eq {a : Arguments} (h : a.Sound optionNames) {name : String} {α : Type}
    {read : String → Except String α} (hn : ⟨name, none, valued read⟩ ∈ optionNames) :
    readValue a name read = .ok ((a.value? name).bind fun text => (read text).toOption) := by
  unfold readValue
  cases hv : a.value? name with
  | none => rfl
  | some text =>
    obtain ⟨option, ho, hlong, ht⟩ := h.values _ (Arguments.mem_of_value? hv)
    have hnodup : (optionNames.map (·.long)).Nodup := by decide
    obtain rfl := List.inj_on_of_nodup_map hnodup ho hn hlong
    obtain ⟨value, hvalue⟩ := ok_of_valued ht
    dsimp only [Option.bind]
    rw [hvalue]
    rfl

/-- Words that can be read are those of an invocation if they name a file. The number of steps is the one that is
given. -/
theorem exists_parse {args : List String} {a : Arguments}
    (h : readArguments optionNames args = .ok a) (hf : a.positionals ≠ []) :
    ∃ i, Invocation.parse args = .ok i ∧ i.files = a.positionals ∧
      ∀ n, i.maxSteps = some n ↔
        ∃ text, a.value? "max-steps" = some text ∧ number text = .ok n := by
  have hs := Terminal.sound_readArguments h
  have hsteps : readValue a "max-steps" number = _ := readValue_eq hs (by simp [optionNames])
  have hstack : readValue a "stack-size" number = _ := readValue_eq hs (by simp [optionNames])
  have hhistory : readValue a "history" number = _ := readValue_eq hs (by simp [optionNames])
  have hlevel : readValue a "loglevel" logLevel = _ := readValue_eq hs (by simp [optionNames])
  unfold Invocation.parse
  rw [h, ok_bind, if_neg (by simpa using hf)]
  dsimp only
  rw [hsteps, hstack, hhistory, hlevel]
  refine ⟨_, rfl, rfl, fun n => ?_⟩
  dsimp only
  rw [Option.bind_eq_some_iff]
  simp only [toOption_eq_some_iff]

/-! ### Runs -/

/-- True of arguments that ask for a run of a program, and of what is read from them. -/
structure Runs (read : String → Except String String) (args : List String) (i : Invocation)
    (p : Program) : Prop where
  parsed : Invocation.parse args = .ok i
  assembled : ∃ files, readFiles read i.files = .ok files ∧
    Assembly.assemble .builtin defaultStackSize files = .ok p
  listing : i.listing = false
  debug : i.debug = false

/-- The same invocation without a limit on its steps. -/
def Invocation.unlimited (i : Invocation) : Invocation :=
  { i with maxSteps := none }

/-- The emulator that an invocation runs a program with. -/
def Invocation.emulator (i : Invocation) (p : Program) : Emulator :=
  Emulator.load p.memory p.entry i.config

/-- What is reported of a run that came back so: the exit code, and the pieces that are printed. -/
def report (result : Emulator.Outcome × Emulator) : Nat × List Piece :=
  ((conclude result.1 result.2).1, Debugger.showEvents 0 result.2 ++ (conclude result.1 result.2).2)

/-- The line that tells where the limit was reached. -/
def limitLine (pc : UInt64) : Piece :=
  .errLine ("step limit reached at pc = " ++ Debugger.showWord pc)

section
variable {read : String → Except String String} {args : List String} {i : Invocation} {p : Program}

theorem execute_eq (h : Runs read args i p) (bursts : Nat) (input : List String) :
    execute bursts read args input =
      report (if i.maxSteps.isSome then (i.emulator p).run false
        else (i.emulator p).runToEnd false bursts) := by
  obtain ⟨files, hfiles, hp⟩ := h.assembled
  have hprepare : prepare read args = .run (i.emulator p) i.maxSteps.isSome := by
    simp only [prepare, h.parsed, hfiles, hp, h.listing, h.debug, Bool.false_eq_true, if_false]
    rfl
  simp only [execute, hprepare]
  rfl

/-- A limit changes nothing of an emulator but the length of its bursts. -/
theorem matches_emulator (i : Invocation) (p : Program) :
    (i.emulator p).Matches (i.unlimited.emulator p) := by
  obtain ⟨files, debug, listing, maxSteps, stackSize, history, logsErrors⟩ := i
  cases maxSteps <;> exact ⟨rfl, rfl, rfl, rfl⟩

theorem halted_emulator (i : Invocation) (p : Program) :
    (i.emulator p).machine.halted = false := by
  have h (initStackPointer : Bool) (memory : Memory) (entry : UInt64) :
      ((Machine.ofMemory memory).enter entry initStackPointer).halted = false := by
    cases initStackPointer <;> rfl
  exact h ..

theorem burstSteps_emulator (i : Invocation) (p : Program) :
    (i.emulator p).config.burstSteps = (i.maxSteps.map (max · 1)).getD 10000 := by
  obtain ⟨files, debug, listing, maxSteps, stackSize, history, logsErrors⟩ := i
  cases maxSteps <;> rfl

theorem report_congr {e e' : Emulator} (h : e.Matches e') (outcome : Emulator.Outcome) :
    report (outcome, e) = report (outcome, e') := by
  unfold report conclude Debugger.showEvents
  rw [h.machine, h.console]

/-- No event looks like that line: what a program prints goes to the other channel, and errors are coloured. -/
theorem limitLine_notMem_showEvents (pc : UInt64) (count : Nat) (e : Emulator) :
    limitLine pc ∉ Debugger.showEvents count e := by
  intro h
  obtain ⟨event, -, h⟩ := List.mem_flatMap.mp h
  cases event with
  | output text => cases List.mem_singleton.mp h
  | error message =>
    have htext := Piece.err.inj (List.mem_singleton.mp h)
    have hhead := congrArg (·.toList.head?) htext
    simp [String.toList_append, Terminal.head?_coloured] at hhead
  | halted => cases h

/-- The limit is told just of runs that are used up. -/
theorem exists_limitLine_iff (outcome : Emulator.Outcome) (e : Emulator) :
    (∃ pc, limitLine pc ∈ (report (outcome, e)).2) ↔ outcome = .yielded := by
  have hstopped {pc pc' : UInt64}
      (h : limitLine pc = .errLine ("stopped at pc = " ++ Debugger.showWord pc')) : False := by
    have hhead := congrArg (·.toList.take 3) (Piece.err.inj h)
    simp [String.toList_append] at hhead
  constructor
  · rintro ⟨pc, h⟩
    rcases List.mem_append.mp h with h | h
    · exact absurd h (limitLine_notMem_showEvents pc 0 e)
    · cases outcome with
      | yielded => rfl
      | paused | breakpoint => exact (hstopped (List.mem_singleton.mp h)).elim
      | halted | stopped | faulted => cases h
  · rintro rfl
    exact ⟨_, List.mem_append_right _ (List.mem_singleton_self _)⟩

/-- A limited run is a single burst. -/
theorem run_emulator {limit : Nat} (hl : i.maxSteps = some limit) (p : Program) :
    (i.emulator p).run false = (i.emulator p).runBurst false 0 (max limit 1) := by
  rw [Emulator.run, Emulator.runFrom, halted_emulator, burstSteps_emulator, hl]
  rfl

/-- A limited run is used up just if a run without a limit gets past as many instructions. -/
theorem yielded_iff {limit : Nat} (hl : i.maxSteps = some limit) (p : Program) :
    ((i.emulator p).run false).1 = .yielded ↔ ∃ x, (i.unlimited.emulator p).Passes (max limit 1) x := by
  rw [run_emulator hl, ← (matches_emulator i p).exists_passes_iff]
  simp only [Emulator.passes_iff_runBurst (e := i.emulator p) rfl 0]
  constructor
  · intro h
    exact ⟨_, Prod.ext h rfl⟩
  · rintro ⟨x, hx⟩
    rw [hx]

/-- As many steps without a limit lead to the same. -/
theorem runBurst_unlimited {limit : Nat} (hl : i.maxSteps = some limit) (p : Program) :
    ∃ x, (i.unlimited.emulator p).runBurst false 0 (max limit 1) =
        (((i.emulator p).run false).1, x) ∧ ((i.emulator p).run false).2.Matches x := by
  obtain ⟨houtcome, hmatch⟩ := (matches_emulator i p).runBurst false 0 (max limit 1)
  rw [run_emulator hl]
  exact ⟨((i.unlimited.emulator p).runBurst false 0 (max limit 1)).2, Prod.ext houtcome.symm rfl, hmatch⟩

theorem runToEnd_unlimited {n enough : Nat} {outcome : Emulator.Outcome} {x : Emulator}
    (h : (i.unlimited.emulator p).runBurst false 0 n = (outcome, x)) (ho : outcome ≠ .yielded)
    (hn : n ≤ enough) : (i.unlimited.emulator p).runToEnd false enough = (outcome, x) := by
  have hs : (i.unlimited.emulator p).config.burstSteps = 10000 :=
    burstSteps_emulator i.unlimited p
  rw [Emulator.runToEnd, Emulator.runToEndFrom_eq (halted_emulator _ p), hs]
  exact Emulator.runBurst_of_le (by omega) h ho

/-- A run with a limit of some steps, or of one step if it is zero, executes the least of the limit and of what a run
without one executes. It tells that the limit is reached, and fails, just if as many instructions are executed and none
of them ends the run; else it is over like the run without a limit, and reports the same. -/
theorem limited_run (h : Runs read args i p) {limit : Nat} (hl : i.maxSteps = some limit)
    (bursts : Nat) (input : List String) :
    let u := i.unlimited.emulator p
    let answer := execute bursts read args input
    (((i.emulator p).executed (.run false)).length : ℕ∞) =
      min ((max limit 1 : Nat) : ℕ∞) u.instructions ∧
    (∀ n : Nat, (n : ℕ∞) < u.instructions ↔
      ∃ x more x', u.Passes n x ∧ x.tryStep = .ok more x') ∧
    ((∃ pc, limitLine pc ∈ answer.2) ∧ answer.1 = 1 ↔ ∃ x, u.Passes (max limit 1) x) ∧
    (∀ x, u.Passes (max limit 1) x →
      answer = (1, Debugger.showEvents 0 x ++ [limitLine x.machine.pc])) ∧
    ((¬∃ x, u.Passes (max limit 1) x) →
      (∃ outcome machine console, u.Ends false outcome machine console ∧
        (outcome = .halted ∨ outcome = .paused ∨ ∃ fault, outcome = .faulted fault)) ∧
      ∀ enough ≥ max limit 1, ∀ args', Runs read args' i.unlimited p →
        answer = execute enough read args' input) := by
  intro u answer
  have hm : (i.emulator p).Matches u := matches_emulator i p
  have hsteps : (i.emulator p).config.burstSteps = max limit 1 := by
    rw [burstSteps_emulator, hl]
    rfl
  have hsteps' : u.config.burstSteps = 10000 := burstSteps_emulator i.unlimited p
  have hr : (i.emulator p).machine.halted = false := halted_emulator i p
  have hr' : u.machine.halted = false := halted_emulator i.unlimited p
  have hs : 0 < (i.emulator p).config.burstSteps := by omega
  have hs' : 0 < u.config.burstSteps := by omega
  have hanswer : answer = report ((i.emulator p).run false) := by
    have heq := execute_eq h bursts input
    rwa [hl] at heq
  have hyielded := yielded_iff hl p
  refine ⟨?_, Emulator.lt_instructions_iff hr' hs' rfl, ?_, fun x hx => ?_, fun hnot => ⟨?_, ?_⟩⟩
  · have hsame : (i.emulator p).instructions = u.instructions :=
      le_antisymm (hm.instructions_le hr hs hs' rfl) (hm.symm.instructions_le hr' hs' hs rfl)
    rw [Emulator.length_executed_run hr hs, hsteps, hsame]
  · rw [hanswer, exists_limitLine_iff, ← hyielded]
    refine and_iff_left_of_imp fun hy => ?_
    rw [report, hy]
    rfl
  · obtain ⟨x', hx', hmatch⟩ := hm.symm.exists_passes hx
    rw [hanswer, run_emulator hl, (Emulator.passes_iff_runBurst rfl 0 _).mp hx',
      ← report_congr hmatch]
    rfl
  · have hy : ((i.emulator p).run false).1 ≠ .yielded := fun hy => hnot (hyielded.mp hy)
    obtain ⟨x, hx, -⟩ := runBurst_unlimited hl p
    refine ⟨_, x.machine, x.console, (Emulator.ends_iff_runBurst hr' hs' false).mpr ⟨_, x, hx, hy, rfl, rfl⟩,
      Emulator.outcome_of_ended rfl hx hy⟩
  · intro enough henough args' h'
    have hy : ((i.emulator p).run false).1 ≠ .yielded := fun hy => hnot (hyielded.mp hy)
    obtain ⟨x, hx, hmatch⟩ := runBurst_unlimited hl p
    have heq := execute_eq h' enough input
    rw [hanswer, heq]
    exact (report_congr hmatch _).trans (congrArg report (runToEnd_unlimited hx hy henough).symm)

end

/-- The invocation of a file with a limit, all else as it is by default. -/
def invocation (name : String) (maxSteps : Option Nat) : Invocation :=
  ⟨[name], false, false, maxSteps, UInt64.ofNat defaultStackSize, 1000, true⟩

/-- A program of one `ebreak`. -/
def breakProgram : Program where
  memory := Memory.empty.overwrite .text 0 [0x73, 0x00, 0x10, 0x00]
  entry := 0x400000
  textSize := 4
  dataSize := 0
  globals := []

theorem runs_breakProgram (args : List String) (maxSteps : Option Nat)
    (hparse : Invocation.parse args = .ok (invocation "a.s" maxSteps)) :
    Runs (fun _ => .ok "ebreak") args (invocation "a.s" maxSteps) breakProgram :=
  ⟨hparse, ⟨[⟨"a.s", "ebreak"⟩], rfl, rfl⟩, rfl, rfl⟩

/-- The end of the run and the limit coincide. -/
theorem limited_run_ebreak :
    ∃ i p, Runs (fun _ => .ok "ebreak") ["a.s", "--max-steps", "1"] i p ∧ i.maxSteps = some 1 ∧
      execute 0 (fun _ => .ok "ebreak") ["a.s", "--max-steps", "1"] [] =
        execute 1 (fun _ => .ok "ebreak") ["a.s"] [] := by
  have h := runs_breakProgram ["a.s", "--max-steps", "1"] (some 1) rfl
  have h' := runs_breakProgram ["a.s"] none rfl
  obtain ⟨-, -, htold, -, hover⟩ := limited_run h rfl 0 []
  refine ⟨_, _, h, rfl, (hover fun hpass => ?_).2 1 le_rfl ["a.s"] h'⟩
  have hfails := (htold.mpr hpass).2
  rw [execute_eq h] at hfails
  exact absurd hfails Nat.zero_ne_one

/-- A limit of no steps lets one instruction be executed. -/
theorem limit_of_no_steps :
    ∃ i p, Runs (fun _ => .ok "ebreak") ["a.s", "--max-steps", "0"] i p ∧ i.maxSteps = some 0 ∧
      ((i.emulator p).executed (.run false)).length = 1 ∧
      execute 0 (fun _ => .ok "ebreak") ["a.s", "--max-steps", "0"] [] =
        (0, [.errLine "stopped at pc = 0x00400004"]) := by
  have h := runs_breakProgram ["a.s", "--max-steps", "0"] (some 0) rfl
  refine ⟨_, _, h, rfl, rfl, ?_⟩
  rw [execute_eq h]
  rfl

end RiscvToolkit.CommandLine
