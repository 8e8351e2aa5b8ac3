import RiscvToolkit.Catalog.Document
import RiscvToolkit.Proofs.Checked.Assembly
import RiscvToolkit.Proofs.Checked.Json

/-! The entries of an accepted catalog come out of its document. The lines of its templates are lines of texts of the
document, and no longer than it. -/
namespace RiscvToolkit.Catalog
open Checked (SoundTemplates byteSize byteSize_le_of_linesFrom byteSize_toList textLimit
  utf8ByteSize_ofList)

section
variable {n : Nat} {json : Json}

theorem size_nullable_string {value : Option Json} (hv : ∀ v ∈ value, Json.Within n v)
    {text? : Option String} (h : Json.orDefault none (Json.nullable? Json.string?) value = some text?) :
    ∀ text ∈ text?, text.utf8ByteSize ≤ n := by
  intro text htext
  cases htext
  cases value with
  | none => cases h
  | some v =>
    have hwithin := hv v rfl
    cases hwithin with
    | string hsize =>
      obtain ⟨t, ht, heq⟩ := Option.map_eq_some_iff.mp h
      cases heq
      exact hsize _ ht
    | _ => cases h

/-- The text that an entry is replaced with is one of the document. -/
theorem size_replace (hj : json.Within n) {e : RawEntry} (h : RawEntry.ofJson? json = some e) :
    ∀ text ∈ e.replace, text.utf8ByteSize ≤ n := by
  unfold RawEntry.ofJson? at h
  obtain ⟨values, hvalues, h⟩ := Option.bind_eq_some_iff.mp h
  have hwithin := Json.within_of_fields? hj hvalues
  split at h
  next name format opcode funct3 funct7 pimm code args replace =>
    simp only [Option.bind_eq_bind, Option.bind_eq_some_iff] at h
    obtain ⟨_, -, _, -, _, -, _, -, _, -, _, -, _, -, _, -, _, -, _, -, text?, htext, h⟩ := h
    cases h
    exact size_nullable_string (hwithin replace (by simp)) htext
  next => cases h

theorem size_entries (hj : json.Within n) {d : Document} (h : Document.ofJson? json = some d) :
    ∀ e ∈ d.entries, ∀ text ∈ e.replace, text.utf8ByteSize ≤ n := by
  unfold Document.ofJson? at h
  obtain ⟨values, hvalues, h⟩ := Option.bind_eq_some_iff.mp h
  have hwithin := Json.within_of_fields? hj hvalues
  split at h
  next registers instructions =>
    simp only [Option.bind_eq_bind, Option.bind_eq_some_iff] at h
    obtain ⟨_, -, _, -, h⟩ := h
    split at h
    next int float =>
      simp only [Option.bind_eq_some_iff] at h
      obtain ⟨_, -, _, -, _, -, _, -, list, hlist, entries, hentries, h⟩ := h
      cases h
      intro e he
      have hl := hwithin instructions (by simp) list hlist
      obtain ⟨item, hitem, hread⟩ := Json.of_mem_list? hl hentries he
      exact size_replace hitem hread
    next => cases h
  next => cases h

end

/-- The entries of a catalog are those of its document. -/
theorem exists_raw_of_entriesFrom {before : List Entry} {raws : List RawEntry} {entries : List Entry}
    (h : entriesFrom before raws = .ok entries) : ∀ entry ∈ entries,
      entry ∈ before ∨ ∃ e ∈ raws, e.name = entry.name ∧ e.encoding = .ok entry.encoding := by
  induction raws generalizing before with
  | nil =>
    cases h
    exact fun entry hentry => .inl (List.mem_reverse.mp hentry)
  | cons e rest ih =>
    rw [entriesFrom] at h
    obtain ⟨encoding, he, h⟩ := bind_eq_ok_iff.mp h
    split_ifs at h with hname
    intro entry hentry
    rcases ih h entry hentry with hmem | ⟨raw, hraw, hsame⟩
    · rcases List.mem_cons.mp hmem with rfl | hmem
      · exact .inr ⟨e, List.mem_cons_self, rfl, he⟩
      · exact .inl hmem
    · exact .inr ⟨raw, List.mem_cons_of_mem e hraw, hsame⟩

theorem exists_raw_of_ofDocument {d : Document} {catalog : Catalog}
    (h : ofDocument d = .ok catalog) : ∀ entry ∈ catalog.entries,
      ∃ e ∈ d.entries, e.name = entry.name ∧ e.encoding = .ok entry.encoding := by
  unfold ofDocument at h
  cases hi : checkRows .int d.intRows with
  | error e =>
    rw [hi] at h
    cases h
  | ok =>
    cases hf : checkRows .float d.floatRows with
    | error e =>
      rw [hi, hf] at h
      cases h
    | ok =>
      cases he : entriesFrom [] d.entries with
      | error e =>
        rw [hi, hf, he] at h
        cases h
      | ok entries =>
        rw [hi, hf, he] at h
        cases h
        intro entry hentry
        exact (exists_raw_of_entriesFrom he entry hentry).resolve_left (List.not_mem_nil)

/-- The lines of a template are those of the text that its entry is replaced with. -/
theorem exists_replace_of_encoding {e : RawEntry} {params : Nat} {body : List String}
    (h : e.encoding = .ok (.template params body)) :
    ∃ text, e.replace = some text ∧ body = (Text.lines text.toList).map String.ofList := by
  unfold RawEntry.encoding at h
  cases hf : e.format with
  | template =>
    rw [hf] at h
    dsimp only at h
    cases hr : e.replace with
    | none =>
      rw [hr] at h
      cases h
    | some text =>
      rw [hr] at h
      cases h
      exact ⟨text, rfl, rfl⟩
  | handBuilt =>
    rw [hf] at h
    dsimp only at h
    split_ifs at h <;> cases h
  | i =>
    rw [hf] at h
    cases hi : e.immediateOperands <;> simp [hi] at h
  -- the other encodings take the classes of at most three operands, and are no templates
  | _ =>
    rw [hf] at h
    cases h0 : e.classAt 0 <;> cases h1 : e.classAt 1 <;> cases h2 : e.classAt 2 <;>
      simp [h0, h1, h2] at h

/-- A catalog has no template line that is longer than its document. -/
theorem soundTemplates_of_parse {document : String} (hsize : document.utf8ByteSize < textLimit)
    {catalog : Catalog} (h : parse document = .ok catalog) : SoundTemplates catalog := by
  unfold parse at h
  cases hd : Document.parse? document with
  | none =>
    rw [hd] at h
    cases h
  | some d =>
    rw [hd] at h
    obtain ⟨json, hjson, hread⟩ := Option.bind_eq_some_iff.mp hd
    have hentries := size_entries (Json.within_of_parse? hjson) hread
    intro entry hentry params body hbody line hline
    obtain ⟨e, he, -, hencoding⟩ := exists_raw_of_ofDocument h entry hentry
    rw [hbody] at hencoding
    obtain ⟨text, htext, rfl⟩ := exists_replace_of_encoding hencoding
    obtain ⟨cs, hcs, rfl⟩ := List.mem_map.mp hline
    calc (String.ofList cs).utf8ByteSize = byteSize cs := utf8ByteSize_ofList cs
      _ ≤ byteSize text.toList := by simpa using byteSize_le_of_linesFrom hcs
      _ = text.utf8ByteSize := byteSize_toList text
      _ ≤ document.utf8ByteSize := hentries e he text htext
      _ < textLimit := hsize

end RiscvToolkit.Catalog
