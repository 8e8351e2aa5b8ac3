import RiscvToolkit.Catalog.Builtin
import RiscvToolkit.Disassembly
import RiscvToolkit.Emulator.Config
import RiscvToolkit.Emulator.History
import RiscvToolkit.Emulator.Snapshot
import RiscvToolkit.Machine.Cycle

/-!
Programs under control of a host: steps and runs, undoing, breakpoints. A run stops at a breakpoint
before its instruction and goes past it the next time.
-/
namespace RiscvToolkit

structure Emulator where
  config : Emulator.Config
  machine : Machine
  /-- The state right after loading. -/
  initial : Snapshot
  /-- The states before the latest steps. -/
  history : Emulator.History Snapshot
  console : Console
  /-- In ascending order, without repetition. -/
  breakpoints : List UInt64
  /-- The breakpoint that the last run stopped at, if nothing has moved since. -/
  pausedAt : Option UInt64

namespace Emulator

/-- The flag by which a host stops a run: whether it is up at each of the looks that the run takes at it,
one before every instruction. -/
structure StopFlag where
  isUp : Nat → Bool

/-- A flag that stays as it is. -/
instance : Coe Bool StopFlag := ⟨fun up => ⟨fun _ => up⟩⟩

/-- Why a run came back. -/
inductive Outcome where
  /-- The burst is used up. -/
  | yielded
  /-- The program has exited. -/
  | halted
  /-- An `ebreak`. -/
  | paused
  /-- The host asked to stop. -/
  | stopped
  | breakpoint (pc : UInt64)
  | faulted (fault : Fault)
  deriving DecidableEq, Repr

/-- Loads a memory image. -/
def load (memory : Memory) (entry : UInt64) (config : Config) : Emulator :=
  let machine :=
    (Machine.ofMemory (memory.withStack config.stackSize)).enter entry config.initStackPointer
  { config, machine
    initial := machine.snapshot
    history := .empty config.historyCapacity
    console := .empty
    breakpoints := []
    pausedAt := none }

/-- Executes one instruction, and tells whether execution may go on. -/
def tryStep : Emulator → EStateM.Result Fault Emulator Bool
  | ⟨config, machine, initial, history, console, breakpoints, pausedAt⟩ =>
    if machine.halted then
      .ok false ⟨config, machine, initial, history, console, breakpoints, pausedAt⟩
    else
      -- kept only if the step succeeds
      let before := machine.snapshot
      match Action.cycle ⟨machine, console⟩ with
      | .ok more ⟨machine, console⟩ =>
        .ok more ⟨config, machine, initial, history.push before, console, breakpoints, none⟩
      | .error fault ⟨machine, console⟩ =>
        .error fault ⟨config, machine, initial, history, console, breakpoints, pausedAt⟩

/-- Reports a fault to the console. -/
def report (e : Emulator) (fault : Fault) : Emulator :=
  let place := " (pc = 0x" ++ Text.hexPadded 8 e.machine.pc.toNat ++ ")"
  { e with console := e.console.send [.error (fault.message ++ place)] }

/-- Executes one instruction; a fault is reported and ends the step. -/
def step (e : Emulator) : Bool × Emulator :=
  match e.tryStep with
  | .ok more e => (more, e)
  | .error fault e => (false, e.report fault)

/-- True if a run stops here before it executes anything. -/
def atBreakpoint (e : Emulator) : Bool :=
  e.breakpoints.contains e.machine.pc && e.pausedAt != some e.machine.pc

/-- Runs at most `budget` instructions, after `looks` looks at the flag. -/
def runBurst (flag : StopFlag) (looks : Nat) : Nat → Emulator → Outcome × Emulator
  | 0, e => (.yielded, e)
  | budget + 1, e =>
    if flag.isUp looks then (.stopped, e)
    else if e.atBreakpoint then
      (.breakpoint e.machine.pc, { e with pausedAt := some e.machine.pc })
    else
      match e.tryStep with
      | .ok true e => runBurst flag (looks + 1) budget e
      | .ok false e => (if e.machine.halted then .halted else .paused, e)
      | .error fault e => (.faulted fault, e.report fault)

/-- Runs one burst, after `looks` looks at the flag. -/
def runFrom (flag : StopFlag) (looks : Nat) (e : Emulator) : Outcome × Emulator :=
  if e.machine.halted then (.halted, e) else runBurst flag looks e.config.burstSteps e

/-- Runs one burst. -/
def run (flag : StopFlag) (e : Emulator) : Outcome × Emulator :=
  e.runFrom flag 0

/-- Runs burst after burst until one does not yield, or `bursts` of them have. -/
def runToEndFrom (flag : StopFlag) (looks : Nat) : Nat → Emulator → Outcome × Emulator
  | 0, e => (.yielded, e)
  | bursts + 1, e =>
    match e.runFrom flag looks with
    | (.yielded, e) => runToEndFrom flag (looks + e.config.burstSteps) bursts e
    | result => result

/-- Runs until something other than the end of a burst comes up, or `bursts` bursts have ended. -/
def runToEnd (flag : StopFlag) (bursts : Nat) (e : Emulator) : Outcome × Emulator :=
  e.runToEndFrom flag 0 bursts

/-- Undoes the latest step, if the history has one. -/
def stepBack? (e : Emulator) : Option Emulator :=
  e.history.pop?.map fun (before, history) =>
    { e with machine := before.restore, history, pausedAt := none }

/-- Goes back to the state right after loading. Breakpoints stay. -/
def reset (e : Emulator) : Emulator :=
  { e with machine := e.initial.restore, history := e.history.clear, pausedAt := none }

/-- Repeats `step` up to `count` times, until one says to stop. -/
def stepMany : Nat → Emulator → Emulator
  | 0, e => e
  | count + 1, e =>
    match e.step with
    | (true, e) => stepMany count e
    | (false, e) => e

/-- Undoes up to `count` steps; `undone` were undone before. -/
def backMany (undone : Nat) : Nat → Emulator → Nat × Emulator
  | 0, e => (undone, e)
  | count + 1, e =>
    match e.stepBack? with
    | some e => backMany (undone + 1) count e
    | none => (undone, e)

/-- Puts an address into an ascending list. -/
def insertAddress (addr : UInt64) : List UInt64 → List UInt64
  | [] => [addr]
  | a :: rest =>
    if addr < a then addr :: a :: rest
    else if addr = a then a :: rest
    else a :: insertAddress addr rest

/-- Sets a breakpoint; `false` if it was set before. -/
def setBreakpoint (e : Emulator) (addr : UInt64) : Bool × Emulator :=
  (!e.breakpoints.contains addr, { e with breakpoints := insertAddress addr e.breakpoints })

/-- Clears a breakpoint; `false` if there was none. -/
def clearBreakpoint (e : Emulator) (addr : UInt64) : Bool × Emulator :=
  (e.breakpoints.contains addr, { e with breakpoints := e.breakpoints.filter (· ≠ addr) })

def clearBreakpoints (e : Emulator) : Emulator :=
  { e with breakpoints := [] }

/-- The source text of the word at an address, by the built-in catalog. -/
def disassembleAt? (e : Emulator) (addr : UInt64) : Option String :=
  (e.machine.memory.readWord addr).toOption.map (Disassembly.text .builtin)

end Emulator

end RiscvToolkit
