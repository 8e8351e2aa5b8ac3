import RiscvToolkit.Assembly.Program
import RiscvToolkit.Debugger.Session

/-!
The command line: assembles the files that it names, and prints a listing, runs the program, or opens a
debugger on it. `prepare` does all that comes before the program runs.
-/
namespace RiscvToolkit.CommandLine
open Terminal (Arguments Interruption OptionName OptionRole Piece coloured readArguments)

structure Invocation where
  files : List String
  debug : Bool
  listing : Bool
  /-- The most instructions that a run may take. -/
  maxSteps : Option Nat
  stackSize : UInt64
  history : Nat
  /-- Whether assembly errors go to the log as well. -/
  logsErrors : Bool

def number (text : String) : Except String Nat :=
  (Numeral.bounded 10 Numeral.bound64 text.toList).mapError fun e =>
    "error: invalid value '" ++ text ++ "': " ++ e.message

def logLevels : List String := ["off", "error", "warn", "info", "debug", "trace"]

def logLevel (text : String) : Except String String :=
  if logLevels.contains text then .ok text
  else .error ("error: invalid value '" ++ text ++ "' for '--loglevel'")

def defaultLogLevel : String := "warn"

/-- What the program says about itself. -/
def helpText : String := "\n".intercalate [
  "RV32I assembler and emulator",
  "",
  "Usage: riscv-asm-emulator [OPTIONS] <FILES>...",
  "",
  "Arguments:",
  "  <FILES>...  Assembly source files, linked in the given order",
  "",
  "Options:",
  "  -g, --debug                    Enable debugger REPL",
  "      --listing                  Print the assembled text segment instead of running it",
  "      --max-steps <MAX_STEPS>    Stop after this many instructions",
  "      --stack-size <STACK_SIZE>  Stack size in bytes [default: " ++
    toString defaultStackSize ++ "]",
  "      --history <HISTORY>        How many steps the debugger can undo [default: " ++
    toString Emulator.Config.default.historyCapacity ++ "]",
  "      --loglevel <LOG_LEVEL>     Switch log level [default: " ++ defaultLogLevel ++
    "] [possible values: " ++ ", ".intercalate logLevels ++ "]",
  "  -h, --help                     Print help",
  "  -V, --version                  Print version"]

def versionText : String := "riscv-asm-emulator 0.1.0"

/-- The role of an option whose value is read with `read`. -/
def valued {α : Type} (read : String → Except String α) : OptionRole :=
  .value fun text => (read text).map fun _ => ()

def optionNames : List OptionName := [
  ⟨"debug", some 'g', .flag⟩,
  ⟨"listing", none, .flag⟩,
  ⟨"max-steps", none, valued number⟩,
  ⟨"stack-size", none, valued number⟩,
  ⟨"history", none, valued number⟩,
  ⟨"loglevel", none, valued logLevel⟩,
  ⟨"help", some 'h', .answer helpText⟩,
  ⟨"version", some 'V', .answer versionText⟩]

/-- What the value of an option is read as, if it is given. -/
def readValue {α : Type} (a : Arguments) (name : String) (read : String → Except String α) :
    Except Interruption (Option α) :=
  match a.value? name with
  | some text => ((read text).mapError .usage).map some
  | none => return none

def Invocation.parse (args : List String) : Except Interruption Invocation := do
  let a ← readArguments optionNames args
  if a.positionals.isEmpty then
    .error (.usage
      "error: the following required arguments were not provided:\n  <FILES>...")
  let maxSteps ← readValue a "max-steps" number
  let stackSize ← readValue a "stack-size" number
  let history ← readValue a "history" number
  let level ← readValue a "loglevel" logLevel
  return {
    files := a.positionals
    debug := a.has "debug"
    listing := a.has "listing"
    maxSteps
    stackSize := UInt64.ofNat (stackSize.getD defaultStackSize)
    history := history.getD Emulator.Config.default.historyCapacity
    logsErrors := level.getD defaultLogLevel != "off" }

/-- Settings of the emulator for an invocation. -/
def Invocation.config (i : Invocation) : Emulator.Config :=
  let c := (Emulator.Config.default.withStackSize i.stackSize).withHistoryCapacity i.history
  match i.maxSteps with
  | some steps => c.withBurstSteps steps
  | none => c

/-- What is left to do. -/
inductive Task where
  /-- Nothing; the exit code. -/
  | finished (code : Nat) (pieces : List Piece)
  /-- Run the program, a single burst of it if `limited`. -/
  | run (emulator : Emulator) (limited : Bool)
  | debug (session : Debugger.Session)

/-- Gets the source files in order; `read` gives the text of a file or why it cannot be read. -/
def readFiles (read : String → Except String String) :
    List String → Except String (List Source.File)
  | [] => .ok []
  | name :: rest =>
    match read name with
    | .error reason => .error ("cannot read " ++ name ++ ": " ++ reason)
    | .ok text => do return ⟨name, text⟩ :: (← readFiles read rest)

/-- The pieces that report an assembly error. -/
def reportError (logged : Bool) (e : Assembly.Error) : List Piece :=
  let log := "ERROR [riscv_asm_emulator] assembly failed: " ++ e.message
  (if logged then [.errLine log] else []) ++
    [.errLine (coloured .red ("error: " ++ e.message))]

def prepare (read : String → Except String String) (args : List String) : Task :=
  match Invocation.parse args with
  | .error (.usage message) => .finished 2 [.errLine message]
  | .error (.answer text) => .finished 0 [.line text]
  | .ok i =>
    match readFiles read i.files with
    | .error message => .finished 1 [.errLine (coloured .red message)]
    | .ok files =>
      match Assembly.assemble .builtin defaultStackSize files with
      | .error e => .finished 1 (reportError i.logsErrors e)
      | .ok p =>
        if i.listing then .finished 0 ((p.listing .builtin).map .line)
        else
          let emulator := Emulator.load p.memory p.entry i.config
          if i.debug then .debug (.start emulator) else .run emulator i.maxSteps.isSome

/-- The exit code and the last pieces of a run. -/
def conclude (outcome : Emulator.Outcome) (e : Emulator) : Nat × List Piece :=
  let pc := Debugger.showWord e.machine.pc
  match outcome with
  | .halted => (0, [])
  | .yielded => (1, [.errLine ("step limit reached at pc = " ++ pc)])
  | .paused | .breakpoint _ => (0, [.errLine ("stopped at pc = " ++ pc)])
  | .stopped | .faulted _ => (1, [])

/-- Does the whole of an invocation on given input, with at most `bursts` bursts for a run. -/
def execute (bursts : Nat) (read : String → Except String String) (args input : List String) :
    Nat × List Piece :=
  match prepare read args with
  | .finished code pieces => (code, pieces)
  | .run e limited =>
    let (outcome, e) := if limited then e.run false else Emulator.runToEnd false bursts e
    let (code, last) := conclude outcome e
    (code, Debugger.showEvents 0 e ++ last)
  | .debug session => (0, session.feedAll bursts input)

end RiscvToolkit.CommandLine
