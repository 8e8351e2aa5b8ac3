/-!
What can be wrong with a source text. An error has the line it was raised on and the lines of the
macro calls that led there.
-/
namespace RiscvToolkit.Assembly

/-- The segment that code or data goes to. -/
inductive Place where
  | text | data
  deriving DecidableEq, Repr

def Place.name : Place → String
  | text => "text"
  | data => "data"

/-- A transfer of control with an offset of limited reach. -/
inductive Transfer where
  | branch | jump
  deriving DecidableEq, Repr

def Transfer.name : Transfer → String
  | branch => "branch"
  | jump => "jump"

inductive ErrorKind where
  -- tokens
  | unterminatedString
  | unterminatedChar
  | charLength
  | invalidEscape (c : Char)
  | unmatchedParen
  | tooManyInParens
  | tooFewInParens
  | strayParenthesis
  -- directives and data
  | unknownDirective (name : String)
  | dataDirectiveInText (name : String)
  | dataInText (item : String)
  | notAString (found : String)
  | stringOutsideDirective
  | floatOutsideDirective
  | labelAsFloat
  | globalWithoutLabel (directive : String)
  | globalNonLabel (directive : String)
  -- operands
  | loneRegister (name : String)
  | unboundVariable (name : String)
  | expectedIntRegister
  | expectedFloatRegister
  | expectedInt (found : String)
  | expectedLabel (found : String)
  | expectedMemoryOperand
  | expectedLabelInParens
  | expectedUpperOperand
  | outOfRange5Bit (value : Int)
  | outOfRange12Bit (value : Int)
  | outOfRange20Bit (value : Int)
  | outOfRangeOffset (value : Int)
  | liOutOfRange (value : Int)
  | tooManyArguments
  | tooFewArguments
  -- macros
  | tooManyMacroArgs (name : String) (expected found : Nat)
  | tooFewMacroArgs (name : String) (expected found : Nat)
  | expectedMacroName
  | expectedParameter
  | unterminatedMacro
  | strayEndMacro
  | misplacedMacro
  | expansionTooDeep (limit : Nat)
  -- linking
  | unresolvedLabel (name : String)
  | oddTarget
  | targetOutOfRange (transfer : Transfer) (offset : Int)
  | segmentOverflow (place : Place)
  deriving DecidableEq, Repr

namespace ErrorKind

private def tick (s : String) : String := "`" ++ s ++ "`"

private def argumentCount (name : String) (expected found : Nat) : String :=
  tick name ++ " takes " ++ toString expected ++ " arguments, " ++ toString found ++ " given"

def message : ErrorKind → String
  | unterminatedString => "unterminated string literal"
  | unterminatedChar => "unterminated character literal"
  | charLength => "a character literal holds exactly one character"
  | invalidEscape c => "unknown escape sequence " ++ tick ("\\" ++ String.ofList [c])
  | unmatchedParen => "unmatched parenthesis"
  | tooManyInParens => "too many values inside parentheses"
  | tooFewInParens => "nothing inside parentheses"
  | strayParenthesis => "parentheses outside of an operand"
  | unknownDirective name => "unknown directive " ++ tick ("." ++ name)
  | dataDirectiveInText name => tick ("." ++ name) ++ " can only be used in the data segment"
  | dataInText item => tick item ++ " cannot be placed in the text segment"
  | notAString found => "`.ascii` and `.asciz` take strings, found " ++ found
  | stringOutsideDirective => "strings can only be placed with `.ascii` or `.asciz`"
  | floatOutsideDirective => "floating point values need `.float` or `.double`"
  | labelAsFloat => "a label address cannot be stored as a floating point value"
  | globalWithoutLabel directive => tick ("." ++ directive) ++ " takes at least one label"
  | globalNonLabel directive => tick ("." ++ directive) ++ " only takes labels"
  | loneRegister name => "register " ++ tick name ++ " outside of an instruction"
  | unboundVariable name => tick ("%" ++ name) ++ " is not bound here"
  | expectedIntRegister => "expected an integer register"
  | expectedFloatRegister => "expected a floating point register"
  | expectedInt found => "expected an integer, found " ++ found
  | expectedLabel found => "expected a label, found " ++ found
  | expectedMemoryOperand => "expected `offset(register)` or a label"
  | expectedLabelInParens => "expected a label inside the parentheses"
  | expectedUpperOperand => "expected a label, `%modifier(label)` or an integer"
  | outOfRange5Bit value => toString value ++ " does not fit in 5 bits"
  | outOfRange12Bit value => toString value ++ " does not fit in 12 bits"
  | outOfRange20Bit value => toString value ++ " does not fit in 20 bits"
  | outOfRangeOffset value => "offset " ++ toString value ++ " does not fit in 12 bits"
  | liOutOfRange value => "`li` only loads 32-bit values, " ++ toString value ++ " is out of range"
  | tooManyArguments => "too many arguments"
  | tooFewArguments => "not enough arguments"
  | tooManyMacroArgs name expected found => argumentCount name expected found
  | tooFewMacroArgs name expected found => argumentCount name expected found
  | expectedMacroName => "expected a macro name after `.macro`"
  | expectedParameter => "macro parameters are written `%name`"
  | unterminatedMacro => "`.macro` without a matching `.end_macro`"
  | strayEndMacro => "`.end_macro` without a matching `.macro`"
  | misplacedMacro => "`.macro` has to start its line"
  | expansionTooDeep limit => "expansions nested more than " ++ toString limit ++ " deep"
  | unresolvedLabel name => "label " ++ tick name ++ " is never defined"
  | oddTarget => "jump target is not 2-byte aligned"
  | targetOutOfRange transfer offset =>
    transfer.name ++ " target " ++ toString offset ++ " bytes away is out of range"
  | segmentOverflow place => "the " ++ place.name ++ " segment is full"

end ErrorKind

/-- A line of a source file, counted from 1. -/
structure Location where
  line : Nat
  file : String
  deriving DecidableEq, Repr

def Location.text (l : Location) : String :=
  l.file ++ ":" ++ toString l.line

structure Error where
  kind : ErrorKind
  location : Location
  /-- The macro calls that the error came through, the innermost first. -/
  trace : List Location
  deriving DecidableEq, Repr

namespace Error

def message (e : Error) : String :=
  e.location.text ++ ": " ++ e.kind.message ++
    String.join (e.trace.map fun frame => "\n  in expansion at " ++ frame.text)

/-- Adds a macro call around those recorded. -/
def within (e : Error) (call : Location) : Error :=
  { e with trace := e.trace ++ [call] }

end Error

/-- Gives an error its place. -/
def located {α : Type} (line : Nat) (file : String) : Except ErrorKind α → Except Error α
  | .ok a => .ok a
  | .error kind => .error ⟨kind, ⟨line, file⟩, []⟩

end RiscvToolkit.Assembly
