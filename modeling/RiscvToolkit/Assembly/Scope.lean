import RiscvToolkit.Assembly.Code
import RiscvToolkit.Assembly.Datum
import RiscvToolkit.Assembly.Image
import RiscvToolkit.Source.Block

/-! The state in which the lines of a file are assembled. -/
namespace RiscvToolkit.Assembly

/-- Addresses by name, the latest first. -/
abbrev Symbols := List (String × UInt32)

/-- What is placed at a cursor: the words of a line or one data item. -/
inductive Piece where
  | code (words : List Emission)
  | datum (stored : Stored)
  deriving DecidableEq, Repr

/-- Places the words of a line. -/
def Image.putWords (place : Place) : List Emission → Image → Except ErrorKind Image
  | [], i => .ok i
  | e :: rest, i => do Image.putWords place rest (← i.putWord place e.word)

/-- The relocation of a word at `address`, if it waits for a label. -/
def Emission.relocation? (e : Emission) (location : Location) (address : UInt32) :
    Option Relocation :=
  e.link.map fun link => ⟨address, link.label, link.kind, location⟩

/-- The relocations of the words of a line, the first of which is at `address`. -/
def linksFrom (location : Location) : UInt32 → List Emission → List Relocation
  | _, [] => []
  | address, e :: rest =>
    (e.relocation? location address).toList ++ linksFrom location (address + 4) rest

namespace Piece

def put (place : Place) (piece : Piece) (i : Image) : Except ErrorKind Image :=
  match piece with
  | .code words => Image.putWords place words i
  | .datum (.bytes bytes) => i.put place bytes
  | .datum (.address width _) => i.reserve place width.size

/-- The relocations of a piece at `address`. -/
def relocations (location : Location) (address : UInt32) : Piece → List Relocation
  | .code words => linksFrom location address words
  | .datum (.bytes _) => []
  | .datum (.address width label) => [⟨address, label, relocationOf width, location⟩]

end Piece

/-- What decides how a line is read. -/
structure Mode where
  /-- The segment in force. -/
  place : Place
  /-- The data format in force. -/
  format : DataFormat
  macros : List (String × Source.Macro)

namespace Mode

/-- The mode at the start of a file. -/
def start : Mode := ⟨.text, .int .word, []⟩

/-- What a data item puts into the segment in force. -/
def store (m : Mode) (item : Datum) : Except ErrorKind Stored :=
  match m.place with
  | .text => .error (.dataInText item.text)
  | .data => m.format.store item

end Mode

structure State extends Mode where
  image : Image
  /-- The names declared `.global`, with the lines that declare them. -/
  globals : Array (String × Nat)
  /-- The labels of the innermost expansion, or of the file outside of all. -/
  labels : Symbols
  /-- The relocations recorded there. -/
  relocations : Array Relocation

namespace State

/-- The state at the start of a file. -/
def start (image : Image) : State where
  toMode := .start
  image
  globals := #[]
  labels := []
  relocations := #[]

/-- Binds a label to the cursor of a segment. -/
def define (s : State) (place : Place) (name : String) : State :=
  { s with labels := (name, s.image.cursor place) :: s.labels }

/-- Declares labels `.global`. -/
def declare (s : State) (names : List String) (line : Nat) : State :=
  { s with globals := s.globals ++ names.map (·, line) }

/-- Places a piece at the cursor of a segment and records its relocations. -/
def add (s : State) (place : Place) (location : Location) (piece : Piece) :
    Except ErrorKind State := do
  let address := s.image.cursor place
  let image ← piece.put place s.image
  return { s with
    image
    relocations := s.relocations ++ piece.relocations location address }

end State

/-- Applies the relocations whose label has an address here; the others are handed back in order. -/
def resolve (labels : Symbols) (memory : Memory) (unresolved : Array Relocation) :
    List Relocation → Except Error (Memory × Array Relocation)
  | [] => .ok (memory, unresolved)
  | r :: rest =>
    match labels.lookup r.label with
    | none => resolve labels memory (unresolved.push r) rest
    | some target =>
      match r.kind.apply memory r.address target with
      | .ok memory => resolve labels memory unresolved rest
      | .error kind => .error ⟨kind, r.location, []⟩

/-- Runs `body` in a scope of its own: labels defined there stay there, the mode is restored after it, and
relocations that its labels do not resolve go to the caller. -/
def inScope (body : State → Except Error State) (s : State) : Except Error State := do
  let inner ← body { s with labels := [], relocations := #[] }
  let (memory, relocations) ←
    resolve inner.labels inner.image.memory s.relocations inner.relocations.toList
  return { inner with
    toMode := s.toMode
    image := { inner.image with memory }
    labels := s.labels
    relocations }

end RiscvToolkit.Assembly
