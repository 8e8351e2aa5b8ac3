import RiscvToolkit.Assembly.Code
import RiscvToolkit.Assembly.Scope

/-!
Assembly of a block of lines. A call of a macro or of a template assembles its body in a scope of its
own. Expansions nest `maxDepth` deep at most.
-/
namespace RiscvToolkit.Assembly
open Source (Operand Operands Bindings)

/-- How deep expansions nest. -/
def maxDepth : Nat := 64

/-- A call to expand. -/
structure Expansion where
  bindings : Bindings
  body : List Source.Line
  /-- The line of the call. -/
  line : Nat
  /-- Whether errors name the call. -/
  traced : Bool

/-- Adds a call, if any, to the trace of an error. -/
def within {α : Type} (call : Option Location) (result : Except Error α) : Except Error α :=
  match call with
  | none => result
  | some location => result.mapError (·.within location)

/-- How calls are expanded at some depth. -/
abbrev Expander := Expansion → State → Except Error State

/-- What the lines of a block have in common. -/
structure Context where
  catalog : Catalog
  file : String
  bindings : Bindings

/-- The arguments of a call, with or without parentheses around them. -/
def callArguments (name : String) (expected : Nat) (ops : Operands) :
    Except ErrorKind (List Operand) := do
  let args ←
    match ← ops.toList with
    | [.group items] => .ok items
    | args => .ok args
  let found := args.length
  if expected < found then .error (.tooManyMacroArgs name expected found)
  else if found < expected then .error (.tooFewMacroArgs name expected found)
  else .ok args

/-- The names of labels. -/
def labelNames (directive : String) : List Operand → Except ErrorKind (List String)
  | [] => .ok []
  | .symbol name :: rest => (labelNames directive rest).map (name :: ·)
  | _ :: _ => .error (.globalNonLabel directive)

/-- The labels that a `.global` directive names. -/
def globalNames (directive : String) (ops : Operands) : Except ErrorKind (List String) := do
  match ← ops.toList with
  | [] => .error (.globalWithoutLabel directive)
  | labels => labelNames directive labels

/-- Carries out a directive other than `.global`. -/
def applyDirective (name : String) (m : Mode) : Except ErrorKind Mode :=
  match Directive.ofName? name with
  | some (.segment place) => .ok { m with place }
  | some (.data format) =>
    match m.place with
    | .text => .error (.dataDirectiveInText name)
    | .data => .ok { m with format }
  | some .macroStart => .error .misplacedMacro
  | some .macroEnd => .error .strayEndMacro
  | some .global => .ok m
  | none => .error (.unknownDirective name)

/-- The call of a template. -/
def templateCall (catalog : Catalog) (line : Nat) (name : String) (params : Nat)
    (body : List String) (ops : Operands) : Except ErrorKind Expansion := do
  let args ← callArguments name params ops
  return {
    bindings := args.zipIdx.map fun (arg, i) => (toString (i + 1), arg)
    body := body.map fun text => ⟨line, Source.tokenize catalog text.toList⟩
    line
    traced := false }

/-- The call of a macro. -/
def macroCall (line : Nat) (name : String) (m : Source.Macro) (ops : Operands) :
    Except ErrorKind Expansion := do
  let args ← callArguments name m.params.length ops
  return { bindings := (m.params.zip args).reverse, body := m.body, line, traced := true }

/-- Places a data item. -/
def placeDatum (location : Location) (item : Datum) (s : State) : Except ErrorKind State := do
  s.add .data location (.datum (← s.store item))

/-- Assembles a line that a mnemonic has been read from. -/
def assembleInstruction (expand : Expander) (c : Context) (line : Nat) (entry : Entry)
    (ops : Operands) (s : State) : Except Error State :=
  match entry with
  | ⟨name, .template params body⟩ => do
    expand (← located line c.file (templateCall c.catalog line name params body ops)) s
  | ⟨_, encoding⟩ => located line c.file do
    let code := encode encoding ops
    let s ← s.add s.place ⟨line, c.file⟩ (.code code.words)
    match code.failure with
    | none => .ok s
    | some kind => .error kind

/-- Assembles the rest of a line. -/
def assembleOperands (expand : Expander) (c : Context) (line : Nat) :
    Operands → State → Except Error State
  | .done, s => .ok s
  | .failed kind, _ => located line c.file (.error kind)
  | .next (.label name) rest, s => assembleOperands expand c line rest (s.define s.place name)
  | .next (.directive name) rest, s =>
    if Directive.ofName? name = some .global then do
      return s.declare (← located line c.file (globalNames name rest)) line
    else do
      let mode ← located line c.file (applyDirective name s.toMode)
      assembleOperands expand c line rest { s with toMode := mode }
  | .next (.instruction entry) rest, s => assembleInstruction expand c line entry rest s
  | .next (.register r) _, _ =>
    located line c.file (.error (.loneRegister (c.catalog.reg r.regClass r.index)))
  | .next (.placeholder name) _, _ => located line c.file (.error (.unboundVariable name))
  | .next (.group _) _, _ => located line c.file (.error .strayParenthesis)
  | .next (.symbol name) rest, s =>
    match s.macros.lookup name with
    | some m => do expand (← located line c.file (macroCall line name m rest)) s
    | none => do
      let s ← located line c.file (placeDatum ⟨line, c.file⟩ (.label name) s)
      assembleOperands expand c line rest s
  | .next (.int value) rest, s => do
    let s ← located line c.file (placeDatum ⟨line, c.file⟩ (.int value) s)
    assembleOperands expand c line rest s
  | .next (.float value) rest, s => do
    let s ← located line c.file (placeDatum ⟨line, c.file⟩ (.float value) s)
    assembleOperands expand c line rest s
  | .next (.string text) rest, s => do
    let s ← located line c.file (placeDatum ⟨line, c.file⟩ (.string text) s)
    assembleOperands expand c line rest s

/-- Assembles what stands in a block, in order. -/
def assembleItems (expand : Expander) (c : Context) :
    List Source.Item → State → Except Error State
  | [], s => .ok s
  | .definition number result :: rest, s => do
    let named ← located number c.file result
    assembleItems expand c rest { s with macros := named :: s.macros }
  | .line l :: rest, s => do
    let s ← assembleOperands expand c l.number (Source.operands c.bindings l.tokens) s
    assembleItems expand c rest s

/-- The block that a call expands to. -/
def Expansion.context (e : Expansion) (catalog : Catalog) (file : String) : Context :=
  ⟨catalog, file, e.bindings⟩

/-- The call that errors of an expansion name. -/
def Expansion.call? (e : Expansion) (file : String) : Option Location :=
  if e.traced then some ⟨e.line, file⟩ else none

/-- Expands calls while at most `depth` of them are active below. -/
def expand (catalog : Catalog) (file : String) : Nat → Expander
  | 0, e, _ => located e.line file (.error (.expansionTooDeep maxDepth))
  | depth + 1, e, s =>
    within (e.call? file)
      (inScope (assembleItems (expand catalog file depth) (e.context catalog file)
        (Source.items e.body)) s)

/-- Assembles the lines of a file. -/
def assembleLines (catalog : Catalog) (file : String) (lines : List Source.Line) (s : State) :
    Except Error State :=
  assembleItems (expand catalog file maxDepth) ⟨catalog, file, []⟩ (Source.items lines) s

end RiscvToolkit.Assembly
