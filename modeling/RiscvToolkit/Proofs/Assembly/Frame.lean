import RiscvToolkit.Proofs.Assembly.Request
import RiscvToolkit.Proofs.Assembly.Static

/-! The frame of a call. What a call may leave changed behind it is the image, the names declared `.global`, and the
relocations of the caller, which are followed by those that the body hands over. -/
namespace RiscvToolkit.Assembly
open Source (Operands)

section
variable {s s' : State}

/-- What closing a scope leaves of it. -/
theorem exists_of_inScope {body : State → Except Error State} (h : inScope body s = .ok s') :
    ∃ inner memory, body { s with labels := [], relocations := #[] } = .ok inner ∧
      s' = { s with
        image := { inner.image with memory }
        globals := inner.globals
        relocations := s.relocations ++ unsettled inner.labels inner.relocations.toList } := by
  obtain ⟨inner, resolved, hb, hr, rfl⟩ := ok_of_inScope h
  exact ⟨inner, resolved.1, hb, by rw [← eq_append_of_resolve hr]⟩

/-- A script binds its names in order, and what has been declared before it stays declared. -/
theorem Script.run_binds {x : Script} (h : x.run s = .ok s') :
    s'.labels.map Prod.fst = x.labels.reverse ++ s.labels.map Prod.fst ∧
      s.globals.toList <+: s'.globals.toList := by
  induction x generalizing s s' with
  | done mode =>
    cases h
    exact ⟨rfl, List.prefix_rfl⟩
  | failed error => cases h
  | label place name rest ih =>
    obtain ⟨hlabels, hglobals⟩ := ih (s := s.define place name) h
    refine ⟨hlabels.trans ?_, hglobals⟩
    simp [Script.labels, State.define]
  | globals names line rest ih =>
    obtain ⟨hlabels, hglobals⟩ := ih (s := s.declare names line) h
    refine ⟨hlabels, .trans ?_ hglobals⟩
    simp [State.declare]
  | piece place location p rest ih =>
    obtain ⟨t, ht, hrest⟩ := ok_of_run_piece h
    obtain ⟨hlabels, hglobals⟩ := ih hrest
    obtain ⟨image, -, rfl⟩ := State.exists_of_add ht
    exact ⟨hlabels, hglobals⟩
  | expansion call body rest ihb ih =>
    obtain ⟨t, ht, hrest⟩ := ok_of_run_expansion h
    obtain ⟨inner, memory, hinner, rfl⟩ := exists_of_inScope ht
    obtain ⟨hlabels, hglobals⟩ := ih hrest
    exact ⟨hlabels, (ihb hinner).2.trans hglobals⟩

end

/-- The names that the body of a call binds itself, when no more than `depth` calls may be active below it. -/
def Expansion.names (e : Expansion) (catalog : Catalog) (file : String) (depth : Nat) (m : Mode) :
    List String :=
  (Script.ofItems (Script.ofExpansion catalog file depth) (e.context catalog file)
    (Source.items e.body) m).labels

/-- `Restores own s s'`: the state `s'` behind a call is that in front of it, but for the image, for names declared
`.global`, and for relocations that are handed over for labels other than `own`. -/
structure Restores (own : List String) (s s' : State) : Prop where
  place : s'.place = s.place
  format : s'.format = s.format
  macros : s'.macros = s.macros
  labels : s'.labels = s.labels
  globals : ∃ declared : List (String × Nat), s'.globals = s.globals ++ declared
  relocations : ∃ handed : List Relocation, s'.relocations = s.relocations ++ handed ∧
    ∀ r ∈ handed, r.label ∉ own

theorem restores_of_expand {catalog : Catalog} {file : String} {depth : Nat} {e : Expansion}
    {s s' : State} (h : expand catalog file (depth + 1) e s = .ok s') :
    Restores (e.names catalog file depth s.toMode) s s' := by
  rw [expand] at h
  obtain ⟨inner, memory, hinner, rfl⟩ := exists_of_inScope (ok_of_within h)
  rw [← Script.run_ofItems (Script.run_ofExpansion catalog file depth)] at hinner
  obtain ⟨hlabels, declared, hdeclared⟩ := Script.run_binds hinner
  rw [List.map_nil, List.append_nil] at hlabels
  refine ⟨rfl, rfl, rfl, rfl, ⟨declared, ?_⟩, ⟨_, rfl, fun r hr hown => ?_⟩⟩
  · apply Array.toList_inj.mp
    rw [Array.toList_appendList]
    exact hdeclared.symm
  · have hnone := List.lookup_eq_none_iff.mp (Option.isNone_iff_eq_none.mp (List.mem_filter.mp hr).2)
    have hmem : r.label ∈ inner.labels.map Prod.fst := by
      rw [hlabels]
      exact List.mem_reverse.mpr hown
    obtain ⟨named, hn, heq⟩ := List.mem_map.mp hmem
    simpa [heq] using hnone named hn

/-- Whatever its body does, a call of a macro or of a template that succeeds gives back the labels, the macros, the
segment and the data format of its caller, who goes on with the bindings and at the depth that it had. The
relocations of the caller are followed by some for labels that the body does not bind; only the image and the names
declared `.global` change besides. -/
theorem call_restores_caller {c : Context} {depth : Nat} {l : Source.Line} {e : Expansion}
    {s t s' : State}
    (hcall : LineRequests c l.number (Source.operands c.bindings l.tokens) s e t)
    (hs : assembleOperands (expand c.catalog c.file depth) c l.number
      (Source.operands c.bindings l.tokens) s = .ok s') :
    ∃ below inner, depth = below + 1 ∧
      assembleItems (expand c.catalog c.file below) (e.context c.catalog c.file)
        (Source.items e.body) { t with labels := [], relocations := #[] } = .ok inner ∧
      inner.labels.map Prod.fst = (e.names c.catalog c.file below t.toMode).reverse ∧
      Restores (e.names c.catalog c.file below t.toMode) t s' ∧
      ∀ rest, assembleItems (expand c.catalog c.file depth) c (.line l :: rest) s =
        assembleItems (expand c.catalog c.file depth) c rest s' := by
  have hexpand := hcall.assembleOperands_eq.symm.trans hs
  cases depth with
  | zero => cases hexpand
  | succ below =>
    obtain ⟨inner, memory, hinner, -⟩ := exists_of_inScope (ok_of_within hexpand)
    have hbinds := hinner
    rw [← Script.run_ofItems (Script.run_ofExpansion c.catalog c.file below)] at hbinds
    refine ⟨below, inner, rfl, hinner, ?_, restores_of_expand hexpand, fun rest => ?_⟩
    · exact (Script.run_binds hbinds).1.trans (List.append_nil _)
    · rw [assembleItems, hs]
      rfl

private def framedText : String :=
  ".macro inner\n.data\n.word y\n.global g\n.end_macro\n" ++
    ".macro m\nx: inner\n.data\n.half x\n.end_macro\nm"

private def framedCall : Source.Line := ⟨11, Source.tokenize Catalog.builtin "m".toList⟩

private def framedStart : State :=
  { State.start (.empty 0) with
    macros := Source.definitions (Source.items (Source.linesOf Catalog.builtin framedText)) }

/-- A body that binds a label, changes the segment and calls a macro on the way. -/
theorem call_restores_caller_nested :
    ∃ e s', LineRequests ⟨Catalog.builtin, "a.s", []⟩ 11 (Source.operands [] framedCall.tokens)
        framedStart e framedStart ∧
      assembleOperands (expand Catalog.builtin "a.s" 2) ⟨Catalog.builtin, "a.s", []⟩ 11
        (Source.operands [] framedCall.tokens) framedStart = .ok s' ∧
      Restores ["x"] framedStart s' ∧ s'.place = .text ∧ s'.labels = [] ∧
      s'.relocations.toList.map (·.label) = ["y"] ∧ s'.globals.toList = [("g", 4)] := by
  have hops : Source.operands [] framedCall.tokens = .next (.symbol "m") .done := rfl
  have hm : (framedStart.macros.lookup "m").map (·.params) = some [] := by decide +kernel
  obtain ⟨d, hd, hparams⟩ := Option.map_eq_some_iff.mp hm
  have hreq : LineRequests ⟨Catalog.builtin, "a.s", []⟩ 11 (Source.operands [] framedCall.tokens)
      framedStart ⟨[], d.body, 11, true⟩ framedStart := by
    rw [hops]
    refine .call hd ?_
    unfold macroCall
    rw [hparams]
    rfl
  have hrun : (assembleOperands (expand Catalog.builtin "a.s" 2) ⟨Catalog.builtin, "a.s", []⟩ 11
      (Source.operands [] framedCall.tokens) framedStart).toOption.map
        (fun s => (s.relocations.toList.map (·.label), s.globals.toList)) =
      some (["y"], [("g", 4)]) := by decide +kernel
  obtain ⟨s', hs, hends⟩ := Option.map_eq_some_iff.mp hrun
  obtain ⟨hrelocations, hglobals⟩ := Prod.mk.inj hends
  rw [toOption_eq_some_iff] at hs
  obtain ⟨below, inner, hdepth, -, -, hrestores, -⟩ :=
    call_restores_caller (c := ⟨Catalog.builtin, "a.s", []⟩) (l := framedCall) hreq hs
  obtain rfl : below = 1 := by omega
  have hnames : (framedStart.macros.lookup "m").map
      (fun d => Expansion.names ⟨[], d.body, 11, true⟩ Catalog.builtin "a.s" 1 framedStart.toMode) =
      some ["x"] := by decide +kernel
  rw [hd] at hnames
  have hown : Expansion.names ⟨[], d.body, 11, true⟩ Catalog.builtin "a.s" 1 framedStart.toMode =
      ["x"] := Option.some.inj hnames
  dsimp only at hrestores
  rw [hown] at hrestores
  exact ⟨_, s', hreq, hs, hrestores, hrestores.place, hrestores.labels, hrelocations, hglobals⟩

end RiscvToolkit.Assembly
