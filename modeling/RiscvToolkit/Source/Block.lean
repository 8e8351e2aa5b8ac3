import RiscvToolkit.Source.Operand
import RiscvToolkit.Text.Lines

/-!
Blocks of source lines. A macro definition reaches from a line that starts with `.macro` to the next
line that starts with `.end_macro`; `items` finds the definitions of a block and leaves all other lines
as they are.
-/
namespace RiscvToolkit.Source
open Assembly (ErrorKind)

structure Line where
  number : Nat
  tokens : List Token
  deriving DecidableEq, Repr

/-- The directive that a line starts with, without its point. -/
def Line.leading? (l : Line) : Option (List Char) :=
  match l.tokens.find? (·.kind ≠ .space) with
  | some t => if t.kind = .directive then some t.text.tail else none
  | none => none

/-- The lines of a file, counted from 1. -/
def linesOf (catalog : Catalog) (text : String) : List Line :=
  (Text.lines text.toList).zipIdx.map fun (line, i) => ⟨i + 1, tokenize catalog line⟩

/-- A file to assemble. -/
structure File where
  name : String
  text : String
  deriving DecidableEq, Repr

structure Macro where
  params : List String
  body : List Line
  deriving DecidableEq, Repr

/-- What stands in a block. -/
inductive Item where
  | line (line : Line)
  /-- A macro definition, or what is wrong with it, with the number of its first line. -/
  | definition (number : Nat) (result : Except ErrorKind (String × Macro))

/-- A parameter of a macro. -/
def parameter : Operand → Except ErrorKind String
  | .placeholder name => .ok name
  | _ => .error .expectedParameter

/-- The parameters among the operands of a macro header, in parentheses or not. -/
def parameters : List Operand → Except ErrorKind (List String)
  | [] => .ok []
  | .group items :: rest => do return (← items.mapM parameter) ++ (← parameters rest)
  | operand :: rest => do return (← parameter operand) :: (← parameters rest)

/-- The name and the parameters in a macro header. -/
def header (l : Line) : Except ErrorKind (String × List String) :=
  match operands [] l.tokens with
  | .next _ (.next (.symbol name) rest) => do return (name, ← parameters (← rest.toList))
  | .next _ (.failed kind) => .error kind
  | _ => .error .expectedMacroName

/-- A definition whose end has not been reached. -/
structure Unfinished where
  number : Nat
  name : String
  params : List String
  /-- In reverse. -/
  body : List Line

/-- The items of the lines that follow an unfinished definition, or follow none. -/
def itemsFrom : Option Unfinished → List Line → List Item
  | none, [] => []
  | some u, [] => [.definition u.number (.error .unterminatedMacro)]
  | none, l :: rest =>
    if l.leading? = some "macro".toList then
      match header l with
      | .ok (name, params) => itemsFrom (some ⟨l.number, name, params, []⟩) rest
      | .error kind => .definition l.number (.error kind) :: itemsFrom none rest
    else .line l :: itemsFrom none rest
  | some u, l :: rest =>
    if l.leading? = some "end_macro".toList then
      .definition u.number (.ok (u.name, ⟨u.params, u.body.reverse⟩)) :: itemsFrom none rest
    else itemsFrom (some { u with body := l :: u.body }) rest

/-- The lines of a block that are outside of definitions, and the definitions, in order. -/
def items (lines : List Line) : List Item :=
  itemsFrom none lines

end RiscvToolkit.Source
