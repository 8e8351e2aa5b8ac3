import RiscvToolkit.Assembly.Error
import RiscvToolkit.Source.Token
import RiscvToolkit.Text.Quoted

/-!
Operands of a source line: tokens with their literals decoded, their placeholders replaced and their
parentheses paired. A line is read from the left, so `Operands` ends either at the end of the line or
at the first token that cannot be read.
-/
namespace RiscvToolkit.Source
open Assembly (ErrorKind)

inductive Operand where
  | int (value : Int)
  | float (value : Ieee.Double)
  | string (text : String)
  /-- The definition of a label, without the colon. -/
  | label (name : String)
  /-- A directive, without the point. -/
  | directive (name : String)
  | instruction (entry : Entry)
  | register (register : Register)
  /-- A placeholder that nothing is bound to. -/
  | placeholder (name : String)
  | symbol (name : String)
  | group (items : List Operand)
  deriving Repr

/-- What an operand is, for a message. -/
def Operand.describe : Operand → String
  | int _ => "an integer"
  | float _ => "a float"
  | string _ => "a string"
  | label _ => "a label definition"
  | directive _ => "a directive"
  | instruction _ => "an instruction"
  | register _ => "a register"
  | placeholder _ => "a variable"
  | symbol _ => "a label"
  | group _ => "parentheses"

/-- What the placeholders of an expansion stand for, the latest binding first. -/
abbrev Bindings := List (String × Operand)

/-- The operands of a line from some point on. -/
inductive Operands where
  | done
  /-- The next token is wrong. -/
  | failed (kind : ErrorKind)
  | next (head : Operand) (tail : Operands)
  deriving Repr

namespace Operands

/-- All operands, unless one is wrong. -/
def toList : Operands → Except ErrorKind (List Operand)
  | done => .ok []
  | failed kind => .error kind
  | next head tail => tail.toList.map (head :: ·)

/-- The first operand, which must be there. -/
def required : Operands → Except ErrorKind (Operand × Operands)
  | done => .error .tooFewArguments
  | failed kind => .error kind
  | next head tail => .ok (head, tail)

/-- Accepts the end of the line alone. -/
def finish : Operands → Except ErrorKind Unit
  | done => .ok ()
  | failed kind => .error kind
  | next _ _ => .error .tooManyArguments

end Operands

/-- The characters that a literal stands for. -/
def Token.decoded (t : Token) : Except ErrorKind (List Char) :=
  (Text.Quoted.decode t.inner).mapError .invalidEscape

/-- The operand that one token makes, for tokens other than parentheses, spaces and comments. A
character literal stands for the first byte of its one character. -/
def Token.operand (bindings : Bindings) (t : Token) : Except ErrorKind Operand :=
  match t.kind with
  | .instruction entry => .ok (.instruction entry)
  | .int value => .ok (.int value)
  | .float value => .ok (.float value)
  | .register register => .ok (.register register)
  | .placeholder =>
    let name := String.ofList t.text.tail
    .ok ((bindings.lookup name).getD (.placeholder name))
  | .label => .ok (.label (String.ofList t.text.dropLast))
  | .directive => .ok (.directive (String.ofList t.text.tail))
  | .symbol => .ok (.symbol (String.ofList t.text))
  | .string => t.decoded.map fun cs => .string (String.ofList cs)
  | .char =>
    match t.decoded with
    | .ok [c] => .ok (.int ((String.utf8EncodeChar c).headD 0).toNat)
    | .ok _ => .error .charLength
    | .error kind => .error kind
  | .openString => .error .unterminatedString
  | .openChar => .error .unterminatedChar
  | .openParen | .closeParen | .space | .comment => .error .unmatchedParen

/-- The operands of a list of tokens. `outer` holds the groups that are open, the innermost first, each
with its items in reverse. -/
def operandsFrom (bindings : Bindings) : List (List Operand) → List Token → Operands
  | [], [] => .done
  | _ :: _, [] => .failed .unmatchedParen
  | outer, t :: rest =>
    match t.kind, outer with
    | .space, _ | .comment, _ => operandsFrom bindings outer rest
    | .openParen, _ => operandsFrom bindings ([] :: outer) rest
    | .closeParen, [] => .failed .unmatchedParen
    | .closeParen, [items] => .next (.group items.reverse) (operandsFrom bindings [] rest)
    | .closeParen, items :: items' :: outer =>
      operandsFrom bindings ((.group items.reverse :: items') :: outer) rest
    | _, _ =>
      match t.operand bindings, outer with
      | .error kind, _ => .failed kind
      | .ok operand, [] => .next operand (operandsFrom bindings [] rest)
      | .ok operand, items :: outer => operandsFrom bindings ((operand :: items) :: outer) rest

/-- The operands of a line. -/
def operands (bindings : Bindings) (tokens : List Token) : Operands :=
  operandsFrom bindings [] tokens

end RiscvToolkit.Source
