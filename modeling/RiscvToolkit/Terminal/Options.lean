/-!
Words of a command line. Options may stand anywhere before `--`, each of them once; one with a value takes the
next word, or what follows `=`, or what follows its letter. Letters of options without values may share a word.
-/
namespace RiscvToolkit.Terminal

/-- What an option is for. -/
inductive OptionRole where
  | flag
  /-- It has a value; `check` says what is wrong with a text that is none. -/
  | value (check : String → Except String Unit)
  /-- It is answered with a text as soon as it is read, and nothing else is done. -/
  | answer (text : String)

/-- Says what is wrong with a value. -/
def OptionRole.check (text : String) : OptionRole → Except String Unit
  | value check => check text
  | flag | answer _ => .ok ()

structure OptionName where
  long : String
  short : Option Char
  role : OptionRole

/-- Why words are not read to their end. -/
inductive Interruption where
  | usage (message : String)
  | answer (text : String)

def Interruption.text : Interruption → String
  | usage message => message
  | answer text => text

/-- Says what is wrong with the words. -/
private def refuse {α : Type} (what : String) : Except Interruption α :=
  .error (.usage ("error: " ++ what))

/-- The options of a command line by their long names, and the other words. A flag has an empty value. -/
structure Arguments where
  options : List (String × String)
  positionals : List String

namespace Arguments

def value? (a : Arguments) (long : String) : Option String :=
  a.options.lookup long

def has (a : Arguments) (long : String) : Bool :=
  (a.value? long).isSome

/-- Adds an option with its value. -/
def give (a : Arguments) (option : OptionName) (value : String) : Except Interruption Arguments :=
  if a.has option.long then
    refuse ("the argument '--" ++ option.long ++ "' cannot be used multiple times")
  else do
    (option.role.check value).mapError .usage
    return { a with options := (option.long, value) :: a.options }

/-- Adds a word that is no option. -/
def add (a : Arguments) (word : String) : Except Interruption Arguments :=
  if word.isEmpty then refuse "a value is required"
  else return { a with positionals := a.positionals ++ [word] }

end Arguments

section
variable (names : List OptionName)

/-- Reads an option that is written out, without its dashes, and tells whether its value is still to come. -/
def readLong (a : Arguments) (text : List Char) :
    Except Interruption (Arguments × Option OptionName) :=
  let name := String.ofList (text.takeWhile (· ≠ '='))
  match names.find? (·.long == name) with
  | none => refuse ("unexpected argument '--" ++ name ++ "'")
  | some option =>
    match option.role, text.dropWhile (· ≠ '=') with
    | .flag, [] => do return (← a.give option "", none)
    | .answer text, [] => .error (.answer text)
    | .value _, [] => return (a, some option)
    | .value _, _ :: value => do return (← a.give option (String.ofList value), none)
    | _, _ => refuse ("unexpected value for '--" ++ name ++ "'")

/-- Reads options by their letters; what is left behind the letter of an option with a value is the value. -/
def readLetters (a : Arguments) :
    List Char → Except Interruption (Arguments × Option OptionName)
  | [] => return (a, none)
  | letter :: rest =>
    match names.find? (·.short == some letter) with
    | none => refuse ("unexpected argument '-" ++ String.singleton letter ++ "'")
    | some option =>
      match option.role, rest with
      | .flag, rest => do readLetters (← a.give option "") rest
      | .answer text, _ => .error (.answer text)
      | .value _, [] => return (a, some option)
      | .value _, '=' :: value | .value _, value => do
        return (← a.give option (String.ofList value), none)

/-- Reads a word where no value is to come. -/
def readWord (a : Arguments) (word : String) :
    Except Interruption (Arguments × Option OptionName) :=
  match word.toList with
  | '-' :: '-' :: text => readLong names a text
  | '-' :: letter :: letters => readLetters names a (letter :: letters)
  | _ => do return (← a.add word, none)

def isOption (word : String) : Bool :=
  match word.toList with
  | '-' :: _ :: _ => true
  | _ => false

/-- Reads the words that follow an option whose value is still to come, if there is one. -/
def readFrom (a : Arguments) : Option OptionName → List String → Except Interruption Arguments
  | none, [] => return a
  | some option, [] => refuse ("a value is required for '--" ++ option.long ++ "'")
  | some option, word :: rest =>
    if isOption word then refuse ("a value is required for '--" ++ option.long ++ "'")
    else do readFrom (← a.give option word) none rest
  | none, "--" :: rest => rest.foldlM Arguments.add a
  | none, word :: rest => do
    let (a, pending) ← readWord names a word
    readFrom a pending rest

/-- Sorts the words of a command line. -/
def readArguments (words : List String) : Except Interruption Arguments :=
  readFrom names ⟨[], []⟩ none words

end

end RiscvToolkit.Terminal
