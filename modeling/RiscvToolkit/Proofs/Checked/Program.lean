import RiscvToolkit.Proofs.Checked.Catalog

/-! Programs assembled and linked with all that can break off. -/
namespace RiscvToolkit.Checked
open Assembly (Error Linkage State)

/-- Assembles a file. -/
def addFile (catalog : Catalog) (file : Source.File) (l : Linkage) : Checked Error Linkage := do
  let lines ← linesOf catalog file.text
  let s ← assembleItems (expand catalog file.name Assembly.maxDepth) ⟨catalog, file.name, []⟩
    (← items lines) (.start l.image)
  let l := Linkage.exports file.name s.labels s.globals.toList l
  let (memory, deferred) ← resolve s.labels s.image.memory l.deferred s.relocations.toList
  return { l with image := { s.image with memory }, deferred }

def addFiles (catalog : Catalog) : List Source.File → Linkage → Checked Error Linkage
  | [], l => return l
  | file :: rest, l => do addFiles catalog rest (← addFile catalog file l)

/-- Resolves what is open against the exported labels. -/
def link (l : Linkage) : Checked Error Program :=
  match l.pending.toList.find? fun (name, _) => (l.globals.lookup name).isNone with
  | some (name, location) => throw ⟨.unresolvedLabel name, location, []⟩
  | none => do
    let (memory, unresolved) ← resolve l.globals l.image.memory #[] l.deferred.toList
    match unresolved.toList with
    | r :: _ => throw ⟨.unresolvedLabel r.label, r.location, []⟩
    | [] =>
      return {
        memory
        entry := ((l.globals.lookup "main").getD (UInt32.ofNat textBase)).toUInt64
        textSize := l.image.textSize
        dataSize := l.image.dataSize
        globals := l.globals }

/-- Assembles and links files. -/
def assemble (catalog : Catalog) (stackSize : Nat) (files : List Source.File) :
    Checked Error Program := do
  let start : Linkage := ⟨.empty stackSize, [], #[], #[]⟩
  link (← addFiles catalog files start)

section
variable {catalog : Catalog}

theorem addFile_eq (htemplates : SoundTemplates catalog) {file : Source.File}
    (hfile : file.text.utf8ByteSize < textLimit) (l : Linkage) :
    addFile catalog file l = of (l.add catalog file) := by
  have hlines : ∀ l ∈ Source.linesOf catalog file.text, SoundLine catalog l :=
    soundLine_of_linesOf ((byteSize_toList file.text).trans_lt hfile)
  have hagree := agree_expand htemplates file.name Assembly.maxDepth
  have hstart : SoundMode catalog (State.start l.image).toMode := List.forall_mem_nil _
  rw [addFile, linesOf_eq, liftM_ok, of_ok_bind, items_eq hlines, liftM_ok, of_ok_bind]
  refine bind_eq_of (assembleItems_eq htemplates hagree rfl (List.forall_mem_nil _)
    (soundItem_of_items hlines) hstart) fun s _ => ?_
  exact bind_eq_of (resolve_eq ..) fun _ _ => rfl

theorem addFiles_eq (htemplates : SoundTemplates catalog) {files : List Source.File}
    (hfiles : ∀ file ∈ files, file.text.utf8ByteSize < textLimit) (l : Linkage) :
    addFiles catalog files l = of (Linkage.addAll catalog files l) := by
  induction files generalizing l with
  | nil => rfl
  | cons file rest ih =>
    obtain ⟨hfile, hrest⟩ := List.forall_mem_cons.mp hfiles
    exact bind_eq_of (addFile_eq htemplates hfile l) fun m _ => ih hrest m

theorem link_eq (l : Linkage) : link l = of l.link := by
  unfold link Linkage.link
  cases l.pending.toList.find? fun (name, _) => (l.globals.lookup name).isNone with
  | some declared => rfl
  | none =>
    refine bind_eq_of (resolve_eq ..) fun p _ => ?_
    obtain ⟨memory, unresolved⟩ := p
    dsimp only
    cases unresolved.toList <;> rfl

/-- Assembly with a catalog of sound templates ends with the result that it has, and breaks off nowhere. -/
theorem assemble_eq (htemplates : SoundTemplates catalog) (stackSize : Nat)
    {files : List Source.File} (hfiles : ∀ file ∈ files, file.text.utf8ByteSize < textLimit) :
    assemble catalog stackSize files = of (Assembly.assemble catalog stackSize files) :=
  bind_eq_of (addFiles_eq htemplates hfiles _) fun l _ => link_eq l

end

/-- With a catalog that is accepted, assembly of any files has a result: a program or an error of the files. -/
theorem assemble_of_parse {document : String} (hdocument : document.utf8ByteSize < textLimit)
    {catalog : Catalog} (hparse : Catalog.parse document = .ok catalog) (stackSize : Nat)
    {files : List Source.File} (hfiles : ∀ file ∈ files, file.text.utf8ByteSize < textLimit) :
    (assemble catalog stackSize files).run = .ok (Assembly.assemble catalog stackSize files) := by
  have htemplates := Catalog.soundTemplates_of_parse hdocument hparse
  rw [assemble_eq htemplates stackSize hfiles]
  rfl

/-- A catalog with a jump and a shorthand for it. -/
private def jumpDocument : String :=
  let rows (name : String) := "[" ++ ",".intercalate (List.replicate 32 name) ++ "]"
  "[[" ++ rows "[\"r\"]" ++ "," ++ rows "[\"f\"]" ++ "],[" ++
    "[\"jal\",\"J\",111]," ++
    "[\"jump\",\"fake\",0,0,0,null,0,[\"label\"],\"jal r, %1\"]]]"

private def jumpFile : Source.File :=
  ⟨"a.s", ".macro go(%to, %text)\njump %to\n.data\n.asciz %text\n.end_macro\n" ++
    ".global main\nmain: go(main, \"é\\n\")\n"⟩

theorem assemble_of_parse_jump : ∃ catalog, Catalog.parse jumpDocument = .ok catalog ∧
    jumpDocument.utf8ByteSize < textLimit ∧ jumpFile.text.utf8ByteSize < textLimit ∧
    (assemble catalog 0 [jumpFile]).run = .ok (Assembly.assemble catalog 0 [jumpFile]) := by
  have haccepted : (Catalog.parse jumpDocument).toOption.isSome = true := by
    rw [Catalog.parse, Catalog.Document.parse?, Json.parse?]
    -- the characters of a short literal are quick to find, those of a long one are not
    simp only [jumpDocument, String.toList_append, String.toList_intercalate, List.map_replicate]
    decide +kernel
  have hdocument : jumpDocument.utf8ByteSize < textLimit := by decide +kernel
  have hfile : jumpFile.text.utf8ByteSize < textLimit := by decide +kernel
  obtain ⟨catalog, hcatalog⟩ := Option.isSome_iff_exists.mp haccepted
  have hparse := (toOption_eq_some_iff _ _).mp hcatalog
  exact ⟨catalog, hparse, hdocument, hfile,
    assemble_of_parse hdocument hparse 0 (List.forall_mem_singleton.mpr hfile)⟩

end RiscvToolkit.Checked
