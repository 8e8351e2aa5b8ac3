import RiscvToolkit.Assembly.Block
import RiscvToolkit.Disassembly

/-!
Programs: files assembled one after the other into one image and linked. Labels belong to their file
unless it declares them `.global`; relocations that a file leaves open are resolved against the exported
labels once all files are done.
-/
namespace RiscvToolkit

/-- A linked image, ready to run. -/
structure Program where
  memory : Memory
  entry : UInt64
  textSize : Nat
  dataSize : Nat
  /-- The exported labels. -/
  globals : Assembly.Symbols

namespace Assembly

/-- What the files so far leave to the link. -/
structure Linkage where
  image : Image
  globals : Symbols
  /-- Names declared `.global` in a file that does not define them. -/
  pending : Array (String × Location)
  deferred : Array Relocation

namespace Linkage

/-- Sorts the `.global` declarations of a file into exports and pending names. -/
def exports (file : String) (labels : Symbols) :
    List (String × Nat) → Linkage → Linkage
  | [], l => l
  | (name, line) :: rest, l =>
    match labels.lookup name with
    | some address =>
      exports file labels rest { l with globals := (name, address) :: l.globals }
    | none =>
      exports file labels rest { l with pending := l.pending.push (name, ⟨line, file⟩) }

/-- Assembles a file. -/
def add (catalog : Catalog) (file : Source.File) (l : Linkage) : Except Error Linkage := do
  let lines := Source.linesOf catalog file.text
  let s ← assembleLines catalog file.name lines (.start l.image)
  let l := exports file.name s.labels s.globals.toList l
  let (memory, deferred) ← resolve s.labels s.image.memory l.deferred s.relocations.toList
  return { l with image := { s.image with memory }, deferred }

def addAll (catalog : Catalog) : List Source.File → Linkage → Except Error Linkage
  | [], l => .ok l
  | file :: rest, l => do addAll catalog rest (← l.add catalog file)

/-- Resolves what is open against the exported labels. -/
def link (l : Linkage) : Except Error Program :=
  match l.pending.toList.find? fun (name, _) => (l.globals.lookup name).isNone with
  | some (name, location) => .error ⟨.unresolvedLabel name, location, []⟩
  | none => do
    let (memory, unresolved) ← resolve l.globals l.image.memory #[] l.deferred.toList
    match unresolved.toList with
    | r :: _ => .error ⟨.unresolvedLabel r.label, r.location, []⟩
    | [] =>
      return {
        memory
        entry := ((l.globals.lookup "main").getD (UInt32.ofNat textBase)).toUInt64
        textSize := l.image.textSize
        dataSize := l.image.dataSize
        globals := l.globals }

end Linkage

/-- Assembles and links files, for a stack of `stackSize` bytes. -/
def assemble (catalog : Catalog) (stackSize : Nat) (files : List Source.File) :
    Except Error Program := do
  let start : Linkage := ⟨.empty stackSize, [], #[], #[]⟩
  (← start.addAll catalog files).link

end Assembly

namespace Program

/-- The address of an exported label. -/
def symbol? (p : Program) (name : String) : Option UInt32 :=
  p.globals.lookup name

/-- The words of the text segment with their addresses. -/
def words (p : Program) : List (UInt32 × UInt32) :=
  (List.range ((p.textSize + 3) / 4)).filterMap fun i =>
    let address := textBase + 4 * i
    (p.memory.readWord (UInt64.ofNat address)).toOption.map (UInt32.ofNat address, ·)

/-- One line of a listing: address, word, source text. -/
def listingLine (catalog : Catalog) (address word : UInt32) : String :=
  "0x" ++ Text.hexPadded 8 address.toNat ++ "  " ++ Text.hexPadded 8 word.toNat ++ "  " ++
    Disassembly.text catalog word

/-- The text segment, one word a line. -/
def listing (catalog : Catalog) (p : Program) : List String :=
  p.words.map fun (address, word) => listingLine catalog address word

end Program

end RiscvToolkit
