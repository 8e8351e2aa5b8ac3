import RiscvToolkit.Catalog.Basic
import RiscvToolkit.Json.Record
import RiscvToolkit.Text.Lines

/-!
Catalogs read from JSON documents. `Document.parse?` reads the shape of a document, `ofDocument`
checks what it says: thirty-two named registers of each class, operands that fit the formats, and no
mnemonic twice.
-/
namespace RiscvToolkit.Catalog

inductive Error where
  /-- No JSON text, or one of another shape. -/
  | malformed
  | unknownPseudo (name : String)
  | badArgs (name : String)
  | missingTemplate (name : String)
  | registerCount (regClass : RegClass) (found : Nat)
  | duplicateInstruction (name : String)
  deriving DecidableEq, Repr

def Error.message : Error → String
  | malformed => "catalog is not valid JSON"
  | unknownPseudo name => "unknown hand-built pseudo instruction `" ++ name ++ "`"
  | badArgs name => "bad operand shapes for `" ++ name ++ "`"
  | missingTemplate name => "pseudo instruction `" ++ name ++ "` has no template"
  | registerCount regClass found =>
    let word := match regClass with | .int => "integer" | .float => "float"
    "expected 32 " ++ word ++ " registers, found " ++ toString found
  | duplicateInstruction name => "instruction `" ++ name ++ "` is defined twice"

/-- What an operand of an entry may be. -/
inductive Arg where
  | reg | freg | offreg | label | imm5 | imm12 | imm20 | int
  deriving DecidableEq, Repr

def Arg.ofName? : String → Option Arg
  | "reg" => some reg
  | "freg" => some freg
  | "offreg" => some offreg
  | "label" => some label
  | "5bit" => some imm5
  | "12bit" => some imm12
  | "20bit" => some imm20
  | "int" => some int
  | _ => none

def Arg.regClass? : Arg → Option RegClass
  | reg => some .int
  | freg => some .float
  | _ => none

/-- The format of an entry. -/
inductive EntryFormat where
  | r | i | s | b | j | u | w | template | handBuilt
  deriving DecidableEq, Repr

def EntryFormat.ofName? : String → Option EntryFormat
  | "R" => some r
  | "I" => some i
  | "S" => some s
  | "B" => some b
  | "J" => some j
  | "U" => some u
  | "W" => some w
  | "fake" => some template
  | "reallyfake" => some handBuilt
  | _ => none

/-- An entry as a document has it, with the values of fields that were left out. -/
structure RawEntry where
  name : String
  format : EntryFormat
  opcode : UInt8
  funct3 : UInt8
  funct7 : UInt8
  pimm : Option UInt8
  code : UInt32
  args : List Arg
  replace : Option String
  deriving DecidableEq, Repr

structure Document where
  intRows : List (List String)
  floatRows : List (List String)
  entries : List RawEntry
  deriving DecidableEq, Repr

namespace RawEntry

def ofJson? (json : Json) : Option RawEntry := do
  let [name, format, opcode, funct3, funct7, pimm, code, args, replace] ← json.fields?
    ["name", "type", "opcode", "funct3", "funct7", "pimm", "code", "args", "replace"] | none
  pure {
    name := ← (← name).string?
    format := ← (← format).choice? EntryFormat.ofName?
    opcode := ← opcode |> Json.orDefault 0 Json.byte?
    funct3 := ← funct3 |> Json.orDefault 0 Json.byte?
    funct7 := ← funct7 |> Json.orDefault 0 Json.byte?
    pimm := ← pimm |> Json.orDefault none (Json.nullable? Json.byte?)
    code := ← code |> Json.orDefault 0 Json.word?
    args := ← args |> Json.orDefault [] (Json.list? (Json.choice? Arg.ofName?))
    replace := ← replace |> Json.orDefault none (Json.nullable? Json.string?) }

/-- The class of the register operand at a place. -/
def classAt (e : RawEntry) (place : Nat) : Except Error RegClass :=
  match e.args[place]?.bind Arg.regClass? with
  | some regClass => .ok regClass
  | none => .error (.badArgs e.name)

def immediateOperands (e : RawEntry) : Except Error ImmediateOperands := do
  if e.args[1]? = some .offreg then
    return .offset (← e.classAt 0)
  match e.pimm with
  | some funct7 => return .shift (← e.classAt 0) (← e.classAt 1) funct7
  | none => return .immediate (← e.classAt 0) (← e.classAt 1)

def encoding (e : RawEntry) : Except Error Encoding :=
  match e.format with
  | .r => return .r e.opcode e.funct3 e.funct7 (← e.classAt 0) (← e.classAt 1) (← e.classAt 2)
  | .i => return .i e.opcode e.funct3 (← e.immediateOperands)
  | .s => return .s e.opcode e.funct3 (← e.classAt 0)
  | .b => return .b e.opcode e.funct3 (← e.classAt 0) (← e.classAt 1)
  | .j => .ok (.j e.opcode)
  | .u => .ok (.u e.opcode)
  | .w => .ok (.w e.code)
  | .template =>
    match e.replace with
    | none => .error (.missingTemplate e.name)
    | some text => .ok (.template e.args.length ((Text.lines text.toList).map String.ofList))
  | .handBuilt =>
    if e.name = "la" then .ok .la
    else if e.name = "li" then .ok .li
    else .error (.unknownPseudo e.name)

end RawEntry

namespace Document

def ofJson? (json : Json) : Option Document := do
  let [registers, instructions] ← json.fields? ["registers", "instructions"] | none
  let [int, float] ← (← registers).fields? ["int", "float"] | none
  let rows? := Json.list? (Json.list? Json.string?)
  pure {
    intRows := ← rows? (← int)
    floatRows := ← rows? (← float)
    entries := ← (← instructions).list? RawEntry.ofJson? }

def parse? (text : String) : Option Document :=
  (Json.parse? text).bind ofJson?

end Document

/-- Accepts a register table of thirty-two rows, none of them empty. -/
def checkRows (regClass : RegClass) (rows : List (List String)) : Except Error Unit :=
  if rows.length ≠ 32 then .error (.registerCount regClass rows.length)
  else
    match rows.findIdx? (·.isEmpty) with
    | some row => .error (.registerCount regClass row)
    | none => .ok ()

/-- The entries of a document in order, given those before them. -/
def entriesFrom (before : List Entry) : List RawEntry → Except Error (List Entry)
  | [] => .ok before.reverse
  | e :: rest => do
    let encoding ← e.encoding
    if before.any (·.name == e.name) then .error (.duplicateInstruction e.name)
    else entriesFrom (⟨e.name, encoding⟩ :: before) rest

def ofDocument (d : Document) : Except Error Catalog := do
  checkRows .int d.intRows
  checkRows .float d.floatRows
  let entries ← entriesFrom [] d.entries
  return {
    entries
    registers := namedRegisters .float d.floatRows ++ namedRegisters .int d.intRows
    intNames := d.intRows.map (·.headD "?")
    floatNames := d.floatRows.map (·.headD "?") }

/-- Reads a catalog. -/
def parse (text : String) : Except Error Catalog :=
  match Document.parse? text with
  | some d => ofDocument d
  | none => .error .malformed

end RiscvToolkit.Catalog
