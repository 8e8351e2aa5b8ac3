import RiscvToolkit.Catalog.Builtin
import RiscvToolkit.Directory
import RiscvToolkit.Numeral.Bounded
import RiscvToolkit.Terminal.Options
import RiscvToolkit.Text.Blank

/-! Commands of the debugger, read from the words of a line. They have no help to show: a word that asks for it is
refused, which does nothing either. -/
namespace RiscvToolkit.Debugger
open Terminal (Arguments OptionName)

/-- Something that can be shown. -/
inductive View where
  | pc
  | reg (r : Reg)
  | regs (start count : Nat)
  | mem (addr : UInt64) (count : Nat)
  | floatReg (r : Reg)
  deriving DecidableEq, Repr

inductive Command where
  | print (view : View)
  /-- Show a view whenever the program stops. -/
  | display (view : View)
  | undisplay (view : View)
  /-- Show the code around the program counter. -/
  | list
  | step (count : Nat)
  | back (count : Nat)
  | continue
  | setBreakpoint (addr : UInt64)
  | deleteBreakpoint (addr : UInt64)
  | breakpoints
  | reset
  | quit
  deriving DecidableEq, Repr

private def usage (what : String) : String := "error: " ++ what

private def number (bound : Nat) (text : String) : Except String Nat :=
  (Numeral.bounded 10 bound text.toList).mapError fun e =>
    usage ("invalid value '" ++ text ++ "': " ++ e.message)

private def address (text : String) : Except String UInt64 :=
  (Numeral.address text.toList).mapError (·.message)

private def register (regClass : RegClass) (name : String) : Except String Reg :=
  match Catalog.builtin.register? name with
  | some r =>
    if r.regClass = regClass then .ok r.index else .error ("invalid register: " ++ name)
  | none => .error ("invalid register: " ++ name)

/-- A number in an option, where zero may have a minus sign. -/
private def signedNumber (bound : Nat) (text : String) : Except String Nat :=
  match text.toList with
  | '-' :: '0' :: digits => if digits.all (· = '0') then .ok 0 else number bound text
  | _ => number bound text

/-- The value of an option with a number, or the number it has by default. -/
private def numberOr (a : Arguments) (name : String) (bound default : Nat) : Except String Nat :=
  match a.value? name with
  | some text => signedNumber bound text
  | none => .ok default

/-- An option with a number. -/
private def numberOption (long : String) (short : Option Char) (bound : Nat) : OptionName :=
  ⟨long, short, .value fun text => (signedNumber bound text).map fun _ => ()⟩

private def lenOption (bound : Nat) : OptionName := numberOption "len" (some 'l') bound

private def startOption : OptionName := numberOption "start" none 256

private def deleteOption : OptionName := ⟨"delete", some 'd', .flag⟩

/-- Sorts the words behind the name of a command. -/
private def readArguments (names : List OptionName) (words : List String) :
    Except String Arguments :=
  (Terminal.readArguments names words).mapError (·.text)

/-- Refuses words besides the options. -/
private def noWords (a : Arguments) : Except String Unit :=
  match a.positionals with
  | [] => .ok ()
  | word :: _ => .error (usage ("unexpected argument '" ++ word ++ "'"))

/-- The only word besides the options. -/
private def oneWord (what : String) (a : Arguments) : Except String String :=
  match a.positionals with
  | [word] => .ok word
  | _ => .error (usage ("one " ++ what ++ " is required"))

/-- The view that the words of an item give. -/
def View.parse : List String → Except String View
  | "pc" :: rest => do
    noWords (← readArguments [] rest)
    return .pc
  | "reg" :: rest => do
    let name ← oneWord "register" (← readArguments [] rest)
    return .reg (← register .int name)
  | "f-reg" :: rest => do
    let name ← oneWord "register" (← readArguments [] rest)
    return .floatReg (← register .float name)
  | "regs" :: rest => do
    let a ← readArguments [startOption, lenOption 256] rest
    noWords a
    return .regs (← numberOr a "start" 256 0) (← numberOr a "len" 256 32)
  | "mem" :: rest => do
    let a ← readArguments [lenOption 0x100000000] rest
    let addr ← oneWord "address" a
    let count ← numberOr a "len" 0x100000000 16
    return .mem (← address addr) count
  | _ => .error (usage "unrecognized item")

/-- Gives a command that takes no words. -/
private def alone (command : Command) (words : List String) : Except String Command := do
  noWords (← readArguments [] words)
  return command

/-- How often to do a command: once unless its word says otherwise. -/
private def count (words : List String) : Except String Nat := do
  match (← readArguments [] words).positionals with
  | [] => return 1
  | [text] => number Numeral.bound64 text
  | _ => .error (usage "too many arguments")

private def breakpoint (words : List String) : Except String Command := do
  let a ← readArguments [deleteOption] words
  let addr ← address (← oneWord "address" a)
  return if a.has "delete" then .deleteBreakpoint addr else .setBreakpoint addr

/-- The name in a word that may be a path: its last part without an extension. -/
def Command.name? (word : String) : Option String :=
  (Directory.parts word).getLast?.bind fun part =>
    let stem := (part.toList.reverse.dropWhile (· ≠ '.')).tail.reverse
    if part = ".." then none
    else if stem.isEmpty then some part
    else some (String.ofList stem)

/-- The command of a name, given the words after the name. -/
def Command.parseNamed (name : String) (rest : List String) : Except String Command :=
  match name with
  | "print" | "p" => return .print (← View.parse rest)
  | "display" | "d" => return .display (← View.parse rest)
  | "undisplay" => return .undisplay (← View.parse rest)
  | "list" | "l" | "ls" => alone .list rest
  | "si" | "s" | "step" => return .step (← count rest)
  | "step-back" | "bs" | "back" => return .back (← count rest)
  | "continue" | "c" => alone .continue rest
  | "break" | "b" => breakpoint rest
  | "info" =>
    match rest with
    | "breakpoints" :: rest | "b" :: rest | "bp" :: rest | "break" :: rest =>
      alone .breakpoints rest
    | _ => .error (usage "unrecognized item")
  | "reset" => alone .reset rest
  | "quit" | "q" | "exit" => alone .quit rest
  | _ => .error (usage "unrecognized command")

/-- The command that the words of a line give. A first word without a name is passed over together with
the word after it. -/
def Command.parse : List String → Except String Command
  | [] => .error (usage "a command is required")
  | word :: rest =>
    match Command.name? word, rest with
    | some name, rest => parseNamed name rest
    | none, _ :: name :: rest => parseNamed name rest
    | none, _ => .error (usage "a command is required")

end RiscvToolkit.Debugger
