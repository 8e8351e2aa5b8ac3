import RiscvToolkit.Proofs.Checked.Catalog
import RiscvToolkit.Proofs.Source.Token

/-! What a catalog answers against the document that it is read from: which register a name stands for, how the names
that registers are printed under are read back, and which entry a mnemonic has. -/
namespace RiscvToolkit
open Source (IsWord StartsApart identify lineOperands)

/-! ### Names in rows -/

section
variable {regClass : RegClass} {rows : List (List String)} {name : String} {r : Register}

theorem namedRegisters_concat (row : List String) :
    namedRegisters regClass (rows ++ [row]) =
      (row.map fun name => (name, (⟨.ofNat rows.length, regClass⟩ : Register))).reverse ++
        namedRegisters regClass rows := by
  simp [namedRegisters, List.zipIdx_append]

theorem lookup_reverse_names (names : List String) :
    (names.map fun name => (name, r)).reverse.lookup name =
      if name ∈ names then some r else none := by
  induction names with
  | nil => rfl
  | cons first names ih =>
    rw [List.map_cons, List.reverse_cons, List.lookup_append, ih]
    by_cases hrest : name ∈ names
    · simp [hrest]
    · by_cases hfirst : name = first
      · subst hfirst
        simp [hrest]
      · have hne : (name == first) = false := by simpa using hfirst
        simp [hrest, hfirst, List.lookup, hne]

theorem lt_length_of_mem_getD {i : Nat} (h : name ∈ rows.getD i []) : i < rows.length := by
  by_contra hi
  rw [List.getD_eq_default _ _ (by omega)] at h
  exact List.not_mem_nil h

theorem mem_getD_concat {row : List String} {i : Nat} :
    name ∈ (rows ++ [row]).getD i [] ↔ name ∈ rows.getD i [] ∨ i = rows.length ∧ name ∈ row := by
  rcases lt_trichotomy i rows.length with hlt | rfl | hgt
  · rw [List.getD_append _ _ _ _ hlt]
    simp [hlt.ne]
  · simp
  · rw [List.getD_eq_default _ _ (by simp; omega), List.getD_eq_default _ _ (by omega)]
    simp [hgt.ne']

/-- A name that several rows list stands for the last of them. -/
theorem lookup_namedRegisters_eq_some_iff :
    (namedRegisters regClass rows).lookup name = some r ↔
      ∃ i, name ∈ rows.getD i [] ∧ (∀ j, i < j → name ∉ rows.getD j []) ∧
        r = ⟨.ofNat i, regClass⟩ := by
  induction rows using List.reverseRecOn with
  | nil => simp [namedRegisters]
  | append_singleton rows row ih =>
    rw [namedRegisters_concat, List.lookup_append, lookup_reverse_names]
    simp only [mem_getD_concat]
    by_cases hname : name ∈ row
    · rw [if_pos hname, Option.some_or]
      constructor
      · intro h
        cases h
        refine ⟨rows.length, .inr ⟨rfl, hname⟩, fun j hj hmem => ?_, rfl⟩
        rcases hmem with hmem | ⟨rfl, -⟩
        · exact (lt_length_of_mem_getD hmem).not_gt hj
        · exact lt_irrefl _ hj
      · rintro ⟨i, hi | ⟨rfl, -⟩, hlater, rfl⟩
        · exact absurd (.inr ⟨rfl, hname⟩) (hlater rows.length (lt_length_of_mem_getD hi))
        · rfl
    · simp [hname, ih]

theorem lookup_namedRegisters_eq_none_iff :
    (namedRegisters regClass rows).lookup name = none ↔ ∀ i, name ∉ rows.getD i [] := by
  induction rows using List.reverseRecOn with
  | nil => simp [namedRegisters]
  | append_singleton rows row ih =>
    rw [namedRegisters_concat, List.lookup_append, lookup_reverse_names]
    simp only [mem_getD_concat]
    by_cases hname : name ∈ row
    · rw [if_pos hname, Option.some_or]
      exact ⟨fun h => (by cases h), fun h => absurd (.inr ⟨rfl, hname⟩) (h rows.length)⟩
    · simp [hname, ih]

end

/-- True if a register comes before another. The integer registers come before the floating-point registers. -/
def Register.Before (r s : Register) : Prop :=
  r.regClass = s.regClass ∧ r.index < s.index ∨ r.regClass = .int ∧ s.regClass = .float

theorem Register.Before.ne {r s : Register} (h : r.Before s) : s ≠ r := by
  rintro rfl
  rcases h with ⟨-, hlt⟩ | ⟨hint, hfloat⟩
  · exact lt_irrefl _ hlt
  · cases hint.symm.trans hfloat

namespace Catalog
namespace Document

/-- The names of the registers of a class, row by row. -/
def rows (d : Document) : RegClass → List (List String)
  | .int => d.intRows
  | .float => d.floatRows

/-- The names of a register. -/
def names (d : Document) (r : Register) : List String :=
  (d.rows r.regClass).getD r.index.val []

/-- True if a document lists a name for one register alone. -/
structure Names (d : Document) (name : String) (r : Register) : Prop where
  listed : name ∈ d.names r
  alone : ∀ s, name ∈ d.names s → s = r

end Document

/-- The name that a register is printed under. -/
def nameOf (c : Catalog) (r : Register) : String :=
  c.reg r.regClass r.index

/-- True of a name that is one word, no mnemonic and no number. -/
structure IsPlain (c : Catalog) (name : String) : Prop where
  isWord : IsWord name.toList
  find? : c.find? name = none
  integer? : Numeral.literal? name.toList = none
  float? : Ieee.literal? name.toList = none

/-! ### Accepted documents -/

theorem checkRows_eq_ok_iff {regClass : RegClass} {rows : List (List String)} :
    checkRows regClass rows = .ok () ↔ rows.length = 32 ∧ ∀ row ∈ rows, row ≠ [] := by
  unfold checkRows
  split_ifs with hlength
  · simp [hlength]
  · rw [not_not] at hlength
    cases hrow : rows.findIdx? (·.isEmpty) with
    | none => simpa [hlength] using hrow
    | some i =>
      have hempty : rows.any (·.isEmpty) = true := by
        rw [← List.findIdx?_isSome, hrow]
        rfl
      simpa [hlength] using hempty

theorem ofDocument_eq_ok_iff {d : Document} {c : Catalog} :
    ofDocument d = .ok c ↔ checkRows .int d.intRows = .ok () ∧ checkRows .float d.floatRows = .ok () ∧
      ∃ entries, entriesFrom [] d.entries = .ok entries ∧
        c = ⟨entries, namedRegisters .float d.floatRows ++ namedRegisters .int d.intRows,
          d.intRows.map (·.headD "?"), d.floatRows.map (·.headD "?")⟩ := by
  unfold ofDocument
  cases checkRows .int d.intRows with
  | error e => simp
  | ok =>
    cases checkRows .float d.floatRows with
    | error e => simp
    | ok =>
      cases entriesFrom [] d.entries with
      | error e => simp
      | ok entries => simp [eq_comm]

/-- The entries of a catalog are those of its document, in order and with different names. -/
theorem forall₂_of_entriesFrom {before : List Entry} {raws : List RawEntry} {entries : List Entry}
    (h : entriesFrom before raws = .ok entries) (hbefore : (before.map (·.name)).Nodup) :
    (entries.map (·.name)).Nodup ∧ ∃ rest, entries = before.reverse ++ rest ∧
      List.Forall₂ (fun raw e => raw.name = e.name ∧ raw.encoding = .ok e.encoding) raws rest := by
  induction raws generalizing before with
  | nil =>
    cases h
    exact ⟨by simpa [List.nodup_reverse] using hbefore, [], by simp, .nil⟩
  | cons raw raws ih =>
    rw [entriesFrom] at h
    obtain ⟨encoding, hraw, h⟩ := bind_eq_ok_iff.mp h
    split_ifs at h with hname
    have hnew : raw.name ∉ before.map (·.name) := by simpa using hname
    obtain ⟨hnodup, rest, rfl, hrest⟩ := ih h (List.nodup_cons.mpr ⟨hnew, hbefore⟩)
    exact ⟨hnodup, ⟨raw.name, encoding⟩ :: rest, by simp, .cons ⟨rfl, hraw⟩ hrest⟩

theorem find?_eq_some_iff {c : Catalog} (h : (c.entries.map (·.name)).Nodup) {name : String}
    {e : Entry} : c.find? name = some e ↔ e ∈ c.entries ∧ e.name = name := by
  constructor
  · intro he
    exact ⟨List.mem_of_find?_eq_some he, by simpa using List.find?_some he⟩
  · rintro ⟨he, rfl⟩
    obtain ⟨before, behind, hentries⟩ := List.mem_iff_append.mp he
    refine List.find?_eq_some_iff_append.mpr
      ⟨by simp, before, behind, hentries, fun other hother => ?_⟩
    rw [hentries, List.map_append, List.map_cons] at h
    have hne := (List.nodup_append.mp h).2.2 other.name (List.mem_map_of_mem hother) e.name
      List.mem_cons_self
    simpa using hne

section
variable {d : Document} {c : Catalog} {name : String} {r : Register}

theorem length_rows (h : ofDocument d = .ok c) (regClass : RegClass) :
    (d.rows regClass).length = 32 := by
  obtain ⟨hint, hfloat, -⟩ := ofDocument_eq_ok_iff.mp h
  cases regClass with
  | int => exact (checkRows_eq_ok_iff.mp hint).1
  | float => exact (checkRows_eq_ok_iff.mp hfloat).1

theorem lt_of_mem_row (h : ofDocument d = .ok c) {regClass : RegClass} {i : Nat}
    (hi : name ∈ (d.rows regClass).getD i []) : i < 32 :=
  length_rows h regClass ▸ lt_length_of_mem_getD hi

theorem lookup_rows_eq_some_iff (h : ofDocument d = .ok c) (regClass : RegClass) :
    (namedRegisters regClass (d.rows regClass)).lookup name = some r ↔ r.regClass = regClass ∧
      name ∈ d.names r ∧ ∀ s, s.regClass = regClass → r.index < s.index → name ∉ d.names s := by
  rw [lookup_namedRegisters_eq_some_iff]
  constructor
  · rintro ⟨i, hi, hlater, rfl⟩
    have hindex : (Reg.ofNat i).val = i := Nat.mod_eq_of_lt (lt_of_mem_row h hi)
    refine ⟨rfl, by rwa [Document.names, hindex], ?_⟩
    rintro s rfl hj
    exact hlater s.index.val (by simpa [Fin.lt_def, hindex] using hj)
  · rintro ⟨rfl, hr, hlater⟩
    refine ⟨r.index.val, hr, fun j hj hmem => ?_, ?_⟩
    · exact hlater ⟨⟨j, lt_of_mem_row h hmem⟩, r.regClass⟩ rfl hj hmem
    · rw [Reg.ofNat, Fin.ofNat_val_eq_self]

theorem lookup_rows_eq_none_iff (h : ofDocument d = .ok c) (regClass : RegClass) :
    (namedRegisters regClass (d.rows regClass)).lookup name = none ↔
      ∀ s, s.regClass = regClass → name ∉ d.names s := by
  rw [lookup_namedRegisters_eq_none_iff]
  constructor
  · rintro hnone s rfl
    exact hnone s.index.val
  · intro hnone i hi
    exact hnone ⟨⟨i, lt_of_mem_row h hi⟩, regClass⟩ rfl hi

/-- A name is looked up among the floating-point registers first. -/
theorem register?_eq (h : ofDocument d = .ok c) (name : String) :
    c.register? name = ((namedRegisters .float (d.rows .float)).lookup name).or
      ((namedRegisters .int (d.rows .int)).lookup name) := by
  obtain ⟨-, -, entries, -, rfl⟩ := ofDocument_eq_ok_iff.mp h
  exact List.lookup_append

/-- A name stands for the last register that it is listed for. -/
theorem register?_eq_some_iff (h : ofDocument d = .ok c) :
    c.register? name = some r ↔ name ∈ d.names r ∧ ∀ s, r.Before s → name ∉ d.names s := by
  rw [register?_eq h, Option.or_eq_some_iff, lookup_rows_eq_some_iff h, lookup_rows_eq_none_iff h,
    lookup_rows_eq_some_iff h]
  unfold Register.Before
  cases r.regClass with
  | int =>
    constructor
    · rintro (⟨hclass, -⟩ | ⟨hother, -, hr, hlater⟩)
      · cases hclass
      · refine ⟨hr, fun s hs => ?_⟩
        rcases hs with ⟨hsame, hlt⟩ | ⟨-, hclass⟩
        · exact hlater s hsame.symm hlt
        · exact hother s hclass
    · rintro ⟨hr, hlater⟩
      exact .inr ⟨fun s hclass => hlater s (.inr ⟨rfl, hclass⟩), rfl, hr,
        fun s hclass hlt => hlater s (.inl ⟨hclass.symm, hlt⟩)⟩
  | float =>
    constructor
    · rintro (⟨-, hr, hlater⟩ | ⟨-, hclass, -⟩)
      · refine ⟨hr, fun s hs => ?_⟩
        rcases hs with ⟨hsame, hlt⟩ | ⟨hclass, -⟩
        · exact hlater s hsame.symm hlt
        · cases hclass
      · cases hclass
    · rintro ⟨hr, hlater⟩
      exact .inl ⟨rfl, hr, fun s hclass hlt => hlater s (.inl ⟨hclass.symm, hlt⟩)⟩

theorem register?_of_names (h : ofDocument d = .ok c) (hn : d.Names name r) :
    c.register? name = some r :=
  (register?_eq_some_iff h).mpr ⟨hn.listed, fun s hs hmem => hs.ne (hn.alone s hmem)⟩

theorem isSome_register?_iff (h : ofDocument d = .ok c) :
    (c.register? name).isSome ↔ ∃ r, name ∈ d.names r := by
  rw [← not_iff_not, Option.not_isSome_iff_eq_none, register?_eq h, Option.or_eq_none_iff,
    lookup_rows_eq_none_iff h, lookup_rows_eq_none_iff h, not_exists]
  refine ⟨fun ⟨hf, hi⟩ r => ?_, fun hnone => ⟨fun r _ => hnone r, fun r _ => hnone r⟩⟩
  cases hclass : r.regClass with
  | int => exact hi r hclass
  | float => exact hf r hclass

theorem entries_of_ofDocument (h : ofDocument d = .ok c) :
    (c.entries.map (·.name)).Nodup ∧
      List.Forall₂ (fun raw e => raw.name = e.name ∧ raw.encoding = .ok e.encoding) d.entries
        c.entries := by
  obtain ⟨-, -, entries, hentries, rfl⟩ := ofDocument_eq_ok_iff.mp h
  obtain ⟨hnodup, rest, rfl, hrest⟩ := forall₂_of_entriesFrom hentries List.nodup_nil
  exact ⟨hnodup, hrest⟩

/-- A register is printed under the first of its names. -/
theorem head?_names (h : ofDocument d = .ok c) (r : Register) :
    (d.names r).head? = some (c.nameOf r) := by
  have hlength := length_rows h r.regClass
  obtain ⟨hint, hfloat, entries, -, rfl⟩ := ofDocument_eq_ok_iff.mp h
  have hrow {rows : List (List String)} (hl : rows.length = 32) (hne : ∀ row ∈ rows, row ≠ []) :
      (rows.getD r.index.val []).head? = some ((rows.map (·.headD "?")).getD r.index.val "?") := by
    have hlt : r.index.val < rows.length := by omega
    have hrow : rows[r.index.val] ≠ [] := hne _ (List.getElem_mem hlt)
    cases h : rows[r.index.val] <;> simp_all
  obtain ⟨i, regClass⟩ := r
  cases regClass with
  | int => exact hrow hlength (checkRows_eq_ok_iff.mp hint).2
  | float => exact hrow hlength (checkRows_eq_ok_iff.mp hfloat).2

/-! ### Names in a line -/

theorem operand?_identify (hplain : c.IsPlain name) (hr : c.register? name = some r) :
    (identify c name.toList).operand? = some (.register r) := by
  unfold identify
  simp only [String.ofList_toList, hplain.find?, hplain.integer?, hplain.float?, hr]
  rfl

end

/-- What an accepted catalog answers. A name that its document lists for one register alone stands for that register,
and a name that stands for a register is one of its names. The name that a register is printed under leads back to it
if no other register has it, also from a line of source text if it is a word, no mnemonic and no number. The
entries are those of the document, in order and under different names. -/
theorem answers_of_parse {text : String} {c : Catalog} (h : parse text = .ok c) :
    ∃ d, Document.parse? text = some d ∧
      (∀ regClass, (d.rows regClass).length = 32) ∧
      (∀ name r, d.Names name r → c.register? name = some r) ∧
      (∀ name r, c.register? name = some r → name ∈ d.names r) ∧
      (∀ name, (c.register? name).isSome ↔ ∃ r, name ∈ d.names r) ∧
      (∀ r, (d.names r).head? = some (c.nameOf r)) ∧
      (∀ r, d.Names (c.nameOf r) r → c.register? (c.nameOf r) = some r ∧
        (c.register? (c.nameOf r)).map c.nameOf = some (c.nameOf r)) ∧
      (∀ r, d.Names (c.nameOf r) r → c.IsPlain (c.nameOf r) → ∀ rest,
        (StartsApart rest → lineOperands c ((c.nameOf r).toList ++ rest) =
          .next (.register r) (lineOperands c rest)) ∧
        lineOperands c ('(' :: ((c.nameOf r).toList ++ ')' :: rest)) =
          .next (.group [.register r]) (lineOperands c rest)) ∧
      List.Forall₂ (fun raw e => raw.name = e.name ∧ raw.encoding = .ok e.encoding)
        d.entries c.entries ∧
      (c.entries.map (·.name)).Nodup ∧
      ∀ name e, c.find? name = some e ↔ e ∈ c.entries ∧ e.name = name := by
  unfold parse at h
  cases hd : Document.parse? text with
  | none =>
    rw [hd] at h
    cases h
  | some d =>
    rw [hd] at h
    have hregister {name : String} {r : Register} (hn : d.Names name r) :
        c.register? name = some r := register?_of_names h hn
    obtain ⟨hnodup, hentries⟩ := entries_of_ofDocument h
    refine ⟨d, rfl, length_rows h, fun _ _ => hregister, fun name r hr => ?_,
      fun _ => isSome_register?_iff h, head?_names h, fun r hn => ?_, fun r hn hplain rest => ?_,
      hentries, hnodup, fun _ _ => find?_eq_some_iff hnodup⟩
    · exact ((register?_eq_some_iff h).mp hr).1
    · rw [hregister hn]
      exact ⟨rfl, rfl⟩
    · have ho := operand?_identify hplain (hregister hn)
      exact ⟨fun hrest => Source.lineOperands_word hplain.isWord hrest ho,
        Source.lineOperands_group hplain.isWord rest ho⟩

/-- Tables in which every register has a name of its own, and another name that it shares. The names that the
floating-point registers have to themselves are numbers, but for one that is two words, and an instruction is named like
a register. -/
private def tables : Document where
  intRows := (List.range 32).map fun i => ["x" ++ toString i, "r" ++ toString i]
  floatRows := (List.range 32).map fun i =>
    [if i = 6 then "x7 x8" else toString i, "r" ++ toString i]
  entries := [⟨"x1", .w, 0, 0, 0, none, 0x73, [], none⟩]

private def tablesCatalog : Catalog where
  entries := [⟨"x1", .w 0x73⟩]
  registers := namedRegisters .float tables.floatRows ++ namedRegisters .int tables.intRows
  intNames := tables.intRows.map (·.headD "?")
  floatNames := tables.floatRows.map (·.headD "?")

private def rowsText (rows : List (List String)) : List Char :=
  let row (names : List String) : List Char :=
    "[\"".toList ++ "\",\"".toList.intercalate (names.map String.toList) ++ "\"]".toList
  '[' :: ",".toList.intercalate (rows.map row) ++ "]".toList

/-- The tables as JSON. -/
private def tablesChars : List Char :=
  "\x7b\"registers\":\x7b\"int\":".toList ++ rowsText tables.intRows ++
    ",\"float\":".toList ++ rowsText tables.floatRows ++ "\x7d,".toList ++
    "\"instructions\":[\x7b\"name\":\"x1\",\"type\":\"W\",\"code\":115\x7d]\x7d".toList

private def tablesText : String :=
  String.ofList tablesChars

private theorem parse?_tablesText : Document.parse? tablesText = some tables := by
  have hchars : tablesText.toList = tablesChars := String.toList_ofList
  rw [Document.parse?, Json.parse?, hchars]
  decide +kernel

private theorem parse_tablesText : parse tablesText = .ok tablesCatalog := by
  rw [parse, parse?_tablesText]
  rfl

private theorem names_tables_x8 : tables.Names "x8" ⟨8, .int⟩ where
  listed := by decide
  alone := by
    rintro ⟨i, regClass⟩ h
    cases regClass <;> revert i <;> decide

private theorem isPlain_x8 : tablesCatalog.IsPlain "x8" where
  isWord := by decide
  find? := by decide
  integer? := by decide
  float? := by decide

theorem answers_of_parse_tables : parse tablesText = .ok tablesCatalog ∧
    tablesCatalog.register? "x8" = some ⟨8, .int⟩ ∧ tablesCatalog.nameOf ⟨8, .int⟩ = "x8" ∧
    lineOperands tablesCatalog "x8".toList =
      .next (.register ⟨8, .int⟩) (lineOperands tablesCatalog []) ∧
    tablesCatalog.find? "x1" = some ⟨"x1", .w 0x73⟩ := by
  have hname : tablesCatalog.nameOf ⟨8, .int⟩ = "x8" := by decide
  obtain ⟨d, hd, -, hregister, -, -, -, -, hline, -, -, hfind⟩ := answers_of_parse parse_tablesText
  cases parse?_tablesText.symm.trans hd
  have hx8 := hline ⟨8, .int⟩ (hname ▸ names_tables_x8) (hname ▸ isPlain_x8) []
  rw [hname, List.append_nil] at hx8
  exact ⟨parse_tablesText, hregister "x8" _ names_tables_x8, hname, hx8.1 .nil,
    (hfind "x1" _).mpr ⟨List.mem_singleton_self _, rfl⟩⟩

/-- A name that two registers share stands for one of them, and a line does not have a register where it has a name
that is a number or a mnemonic too, or that is not one word. -/
theorem shared_names : parse tablesText = .ok tablesCatalog ∧
    Document.parse? tablesText = some tables ∧
    "r8" ∈ tables.names ⟨8, .int⟩ ∧ tablesCatalog.register? "r8" = some ⟨8, .float⟩ ∧
    tablesCatalog.nameOf ⟨5, .float⟩ = "5" ∧ tablesCatalog.register? "5" = some ⟨5, .float⟩ ∧
    lineOperands tablesCatalog "5".toList = .next (.int 5) (lineOperands tablesCatalog []) ∧
    tablesCatalog.nameOf ⟨1, .int⟩ = "x1" ∧ tablesCatalog.register? "x1" = some ⟨1, .int⟩ ∧
    lineOperands tablesCatalog "x1".toList =
      .next (.instruction ⟨"x1", .w 0x73⟩) (lineOperands tablesCatalog []) ∧
    tablesCatalog.nameOf ⟨6, .float⟩ = "x7 x8" ∧
    tablesCatalog.register? "x7 x8" = some ⟨6, .float⟩ ∧
    lineOperands tablesCatalog "x7 x8".toList =
      .next (.register ⟨7, .int⟩) (.next (.register ⟨8, .int⟩) (lineOperands tablesCatalog [])) := by
  have hnumber : identify tablesCatalog "5".toList = .int 5 := by decide
  have hmnemonic : identify tablesCatalog "x1".toList = .instruction ⟨"x1", .w 0x73⟩ := by decide
  have hseven : identify tablesCatalog "x7".toList = .register ⟨7, .int⟩ := by decide
  have height : identify tablesCatalog "x8".toList = .register ⟨8, .int⟩ := by decide
  have hline {word : List Char} (hw : IsWord word) {o : Source.Operand}
      (ho : (identify tablesCatalog word).operand? = some o) :
      lineOperands tablesCatalog word = .next o (lineOperands tablesCatalog []) := by
    simpa using Source.lineOperands_word hw .nil ho
  have hnext : ∀ c ∈ "x8".toList.head?, Source.isSpace c = false := by
    rintro c ⟨⟩
    rfl
  have hwords : lineOperands tablesCatalog "x7 x8".toList =
      .next (.register ⟨7, .int⟩) (.next (.register ⟨8, .int⟩) (lineOperands tablesCatalog [])) := by
    calc lineOperands tablesCatalog ("x7".toList ++ " x8".toList)
        = .next (.register ⟨7, .int⟩) (lineOperands tablesCatalog " x8".toList) :=
          Source.lineOperands_word (by decide) (.cons rfl _) (hseven ▸ rfl)
      _ = .next (.register ⟨7, .int⟩) (lineOperands tablesCatalog "x8".toList) :=
          congrArg _ (Source.lineOperands_space rfl hnext)
      _ = _ := congrArg _ (hline (by decide) (height ▸ rfl))
  exact ⟨parse_tablesText, parse?_tablesText, by decide, by decide, by decide, by decide,
    hline (by decide) (hnumber ▸ rfl), by decide, by decide,
    hline (by decide) (hmnemonic ▸ rfl), by decide, by decide, hwords⟩

end Catalog
end RiscvToolkit
