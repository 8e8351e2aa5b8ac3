import RiscvToolkit.Proofs.Assembly.UnderWay

/-! Where errors are raised. An error is raised in a line or behind a block, where some calls are active; the macros
among them are its trace, and all that it names are lines of one file. -/
namespace RiscvToolkit.Assembly
open Source (Operands)

/-- `Raises catalog file start active kind location`: while a file is assembled from state `start` on, an error is
raised at `location` in the body of the innermost of `active`, or in the file if there is none. -/
inductive Raises (catalog : Catalog) (file : Source.File) (start : State) :
    List Expansion → ErrorKind → Location → Prop
  /-- A macro definition is wrong. -/
  | definition {depth active c before number kind after s t}
    (h : UnderWay catalog file start depth active c
      (before ++ .definition number (.error kind) :: after) s)
    (hs : assembleItems (expand catalog file.name depth) c before s = .ok t) :
    Raises catalog file start active kind ⟨number, file.name⟩
  /-- A line is wrong that comes to no call. -/
  | line {depth active c before l after s t kind}
    (h : UnderWay catalog file start depth active c (before ++ .line l :: after) s)
    (hs : assembleItems (expand catalog file.name depth) c before s = .ok t)
    (hl : ∀ e u, ¬LineRequests c l.number (Source.operands c.bindings l.tokens) t e u)
    (he : assembleOperands (expand catalog file.name depth) c l.number
      (Source.operands c.bindings l.tokens) t = .error ⟨kind, ⟨l.number, file.name⟩, []⟩) :
    Raises catalog file start active kind ⟨l.number, file.name⟩
  /-- A line comes to a call where no more may be active. -/
  | refused {active e t} (h : Requested catalog file start 0 active e t) :
    Raises catalog file start active (.expansionTooDeep maxDepth) ⟨e.line, file.name⟩
  /-- All items are assembled, and the labels of the block do not fit where they are put. -/
  | patch {depth active c items s t kind location}
    (h : UnderWay catalog file start depth active c items s)
    (hs : assembleItems (expand catalog file.name depth) c items s = .ok t)
    (he : resolve t.labels t.image.memory #[] t.relocations.toList =
      .error ⟨kind, location, []⟩) :
    Raises catalog file start active kind location

/-! ### Patches -/

theorem resolve_error_of_unresolved {labels : Symbols} {m : Memory} {us vs : Array Relocation}
    {rs : List Relocation} {error : Error} (h : resolve labels m us rs = .error error) :
    resolve labels m vs rs = .error error := by
  induction rs generalizing m us vs with
  | nil => cases h
  | cons r rest ih =>
    unfold resolve at h ⊢
    cases hl : labels.lookup r.label with
    | none =>
      rw [hl] at h
      exact ih h
    | some target =>
      rw [hl] at h
      dsimp only at h ⊢
      cases ha : r.kind.apply m r.address target with
      | ok m' =>
        rw [ha] at h
        exact ih h
      | error kind =>
        rw [ha] at h
        exact h

theorem location_of_resolve {labels : Symbols} {m : Memory} {us : Array Relocation}
    {rs : List Relocation} {error : Error} (h : resolve labels m us rs = .error error) :
    error.trace = [] ∧ ∃ r ∈ rs, error.location = r.location := by
  obtain ⟨ht, r, hr, hl, -⟩ := exists_of_resolve_error h
  exact ⟨ht, r, hr, hl⟩

/-! ### Blocks -/

/-- A block fails in one of its items, those before it assembled. -/
theorem exists_item_of_error {expand : Expander} {c : Context} {items : List Source.Item}
    {s : State} {error : Error} (h : assembleItems expand c items s = .error error) :
    ∃ before item after t, items = before ++ item :: after ∧
      assembleItems expand c before s = .ok t ∧ assembleItems expand c [item] t = .error error := by
  induction items generalizing s with
  | nil => cases h
  | cons item rest ih =>
    rw [← List.singleton_append, assembleItems_append] at h
    cases hi : assembleItems expand c [item] s with
    | error error' =>
      rw [hi] at h
      cases h
      exact ⟨[], item, rest, s, rfl, rfl, hi⟩
    | ok t =>
      rw [hi, ok_bind] at h
      obtain ⟨before, item', after, u, rfl, hb, he⟩ := ih h
      refine ⟨item :: before, item', after, u, rfl, ?_, he⟩
      rw [← List.singleton_append, assembleItems_append, hi]
      exact hb

theorem assembleItems_of_item {expand : Expander} {c : Context} {before : List Source.Item}
    {item : Source.Item} {s t : State} {error : Error}
    (hs : assembleItems expand c before s = .ok t)
    (he : assembleItems expand c [item] t = .error error) (after : List Source.Item) :
    assembleItems expand c (before ++ item :: after) s = .error error := by
  rw [assembleItems_append, hs, ok_bind, ← List.singleton_append, assembleItems_append, he]
  rfl

theorem assembleItems_line (expand : Expander) (c : Context) (l : Source.Line) (s : State) :
    assembleItems expand c [.line l] s =
      assembleOperands expand c l.number (Source.operands c.bindings l.tokens) s := by
  simp only [assembleItems]
  exact bind_pure _

section
variable {catalog : Catalog} {file : Source.File} {start s : State} {depth : Nat}
variable {active : List Expansion} {c : Context} {items : List Source.Item} {error : Error}
variable {kind : ErrorKind} {location : Location}

private theorem raises_of_calls
    (hcall : ∀ e u error, Requested catalog file start depth active e u →
      expand catalog file.name depth e u = .error error →
        ∃ calls kind location, Raises catalog file start calls kind location)
    (h : UnderWay catalog file start depth active c items s)
    (he : assembleItems (expand catalog file.name depth) c items s = .error error) :
    ∃ calls kind location, Raises catalog file start calls kind location := by
  obtain ⟨before, item, after, t, rfl, hs, hi⟩ := exists_item_of_error he
  cases item with
  | definition number result =>
    cases result with
    | error kind => exact ⟨active, kind, _, .definition h hs⟩
    | ok named => cases hi
  | line l =>
    rw [assembleItems_line] at hi
    by_cases hl : ∃ e u, LineRequests c l.number (Source.operands c.bindings l.tokens) t e u
    · obtain ⟨e, u, hreq⟩ := hl
      have hexpand := hreq.assembleOperands_eq.symm.trans hi
      exact hcall e u error (h.requested (.of_append hs (.here hreq))) hexpand
    · obtain ⟨-, hfile⟩ := h.context_eq
      have hown := (requests_or_own (expand catalog file.name depth) c l.number
        (Source.operands c.bindings l.tokens) t).resolve_left
          fun ⟨e, u, hreq, _⟩ => hl ⟨e, u, hreq⟩
      rw [hi, hfile] at hown
      cases hown with
      | error kind =>
        exact ⟨active, kind, _, .line h hs (fun e u hreq => hl ⟨e, u, hreq⟩) hi⟩

theorem Requested.exists_raises {e : Expansion}
    (h : Requested catalog file start depth active e s)
    (he : expand catalog file.name depth e s = .error error) :
    ∃ calls kind location, Raises catalog file start calls kind location := by
  induction depth generalizing active e s error with
  | zero => exact ⟨active, _, _, .refused h⟩
  | succ depth ih =>
    rw [expand] at he
    obtain ⟨inner, hinner, -, -⟩ := error_of_within he
    rcases error_of_inScope hinner with hbody | ⟨t, hbody, hres⟩
    · exact raises_of_calls (fun e u error hr hexpand => ih hr hexpand) (.body h) hbody
    · obtain ⟨htrace, -⟩ := location_of_resolve hres
      obtain ⟨kind, location, trace⟩ := inner
      cases htrace
      exact ⟨_, kind, location, .patch (.body h) hbody (resolve_error_of_unresolved hres)⟩

/-- A block fails because something is wrong in it or in a call that it makes. -/
theorem UnderWay.exists_raises (h : UnderWay catalog file start depth active c items s)
    (he : assembleItems (expand catalog file.name depth) c items s = .error error) :
    ∃ calls kind location, Raises catalog file start calls kind location :=
  raises_of_calls (fun _ _ _ hr hexpand => hr.exists_raises hexpand) h he

/-- Where an error is raised, in an item of the block or, if a patch is wrong, in a call that the block has made. -/
theorem Raises.reaches (h : Raises catalog file start active kind location)
    (hs : start.relocations = #[]) :
    ∃ inner, Reaches catalog file start (inner ++ active) location := by
  cases h with
  | definition h hb => exact ⟨[], _, _, _, _, _, _, _, h, hb, rfl⟩
  | line h hb hl he => exact ⟨[], _, _, _, _, _, _, _, h, hb, rfl⟩
  | refused h => exact ⟨[], h.reaches⟩
  | @patch depth active c items s t kind location h hb he =>
    obtain ⟨-, r, hr, hlocation⟩ := location_of_resolve he
    dsimp only at hlocation
    subst hlocation
    refine (h.remembers hb .relocation _ (List.mem_map_of_mem hr)).resolve_left fun hm => ?_
    -- a block begins with no relocations of its own
    cases h with
    | file =>
      rw [State.locations, hs] at hm
      cases hm
    | body h => cases hm

theorem Requested.calls_in {e : Expansion} (h : Requested catalog file start depth active e s)
    (hs : start.macros = []) : ∀ e' ∈ e :: active, Location.In ⟨e'.line, file.name⟩ file := by
  induction h with
  | file h => exact List.forall_mem_singleton.mpr ((Requested.file h).reaches.location_in hs)
  | body hr h ih => exact List.forall_mem_cons.mpr ⟨(hr.body h).reaches.location_in hs, ih⟩

/-- The calls that are active stand in lines of the file. -/
theorem UnderWay.calls_in (h : UnderWay catalog file start depth active c items s)
    (hs : start.macros = []) : ∀ e ∈ active, Location.In ⟨e.line, file.name⟩ file := by
  cases h with
  | file => exact List.forall_mem_nil _
  | body h => exact h.calls_in hs

theorem Raises.calls_in (h : Raises catalog file start active kind location)
    (hs : start.macros = []) : ∀ e ∈ active, Location.In ⟨e.line, file.name⟩ file := by
  cases h with
  | definition h _ => exact h.calls_in hs
  | line h _ _ _ => exact h.calls_in hs
  | patch h _ _ => exact h.calls_in hs
  | refused h => exact (List.forall_mem_cons.mp (h.calls_in hs)).2

end

/-! ### Files -/

section
variable {catalog : Catalog} {stackSize : Nat} {files : List Source.File} {file : Source.File}
variable {start : State} {active : List Expansion} {kind : ErrorKind} {location : Location}

theorem UnderWay.assemble_of_error {s : State} {depth : Nat} {c : Context}
    {items : List Source.Item} (h : UnderWay catalog file start depth active c items s)
    (hb : Begins catalog stackSize files file start)
    (he : assembleItems (expand catalog file.name depth) c items s = .error ⟨kind, location, []⟩) :
    assemble catalog stackSize files =
      .error ⟨kind, location, active.filterMap (·.call? file.name)⟩ :=
  assemble_of_begins hb (h.assembleLines_of_error he)

/-- What is raised is the error of the assembly, with the macros among the calls that are active as its trace. -/
theorem Raises.assemble_eq (h : Raises catalog file start active kind location)
    (hb : Begins catalog stackSize files file start) :
    assemble catalog stackSize files =
      .error ⟨kind, location, active.filterMap (·.call? file.name)⟩ := by
  cases h with
  | definition h hs =>
    obtain ⟨-, hfile⟩ := h.context_eq
    refine h.assemble_of_error hb (assembleItems_of_item hs ?_ _)
    rw [assembleItems, hfile]
    rfl
  | line h hs hl he =>
    refine h.assemble_of_error hb (assembleItems_of_item hs ?_ _)
    rw [assembleItems_line, he]
  | refused h => exact h.assemble_of_error hb rfl
  | @patch depth active c items s t kind location h hs he =>
    cases h with
    | @body depth active e u h =>
      have hscope : inScope (assembleItems (expand catalog file.name depth)
          (e.context catalog file.name) (Source.items e.body)) u = .error ⟨kind, location, []⟩ := by
        rw [inScope, hs, ok_bind, resolve_error_of_unresolved he]
        rfl
      rw [h.assemble_of_error hb (expand_of_inScope_error hscope), Error.through_append]
      rfl
    | file =>
      obtain ⟨before, after, l, rfl, hl, rfl⟩ := hb
      have hlines : assembleLines catalog file.name (Source.linesOf catalog file.text)
          (.start l.image) = .ok t := hs
      refine assemble_of_add hl ?_
      unfold Linkage.add
      dsimp only
      rw [hlines, ok_bind, Linkage.exports_eq]
      dsimp only
      rw [resolve_error_of_unresolved he]
      rfl

/-- An error is one that is raised in a file, or one of the link. -/
theorem raises_or_link {error : Error} (h : assemble catalog stackSize files = .error error) :
    (∃ file start active kind location, Begins catalog stackSize files file start ∧
      Raises catalog file start active kind location) ∨
    ∃ l, Linkage.addAll catalog files ⟨.empty stackSize, [], #[], #[]⟩ = .ok l ∧
      l.link = .error error := by
  unfold assemble at h
  dsimp only at h
  rcases bind_eq_error_iff.mp h with hl | ⟨l, hl, h⟩
  · obtain ⟨before, file, after, l, hfiles, hb, he⟩ := Linkage.exists_add_of_error hl
    have hbegins : Begins catalog stackSize files file (.start l.image) :=
      ⟨before, after, l, hfiles, hb, rfl⟩
    refine .inl ⟨file, .start l.image, ?_⟩
    rcases Linkage.error_of_add he with he | ⟨s, hs, hres⟩
    · obtain ⟨calls, kind, location, hr⟩ := UnderWay.exists_raises .file he
      exact ⟨calls, kind, location, hbegins, hr⟩
    · obtain ⟨htrace, -⟩ := location_of_resolve hres
      obtain ⟨kind, location, trace⟩ := error
      cases htrace
      exact ⟨[], kind, location, hbegins, .patch .file hs (resolve_error_of_unresolved hres)⟩
  · exact .inr ⟨l, hl, h⟩

/-- The locations that a linkage holds: of the names that no file has defined yet, and of the relocations that no
file has settled. -/
def Linkage.locations (l : Linkage) : List Location :=
  l.pending.toList.map (·.2) ++ l.deferred.toList.map (·.location)

theorem Linkage.locations_add {l l' : Linkage} (h : l.add catalog file = .ok l') :
    ∀ location ∈ l'.locations, location ∈ l.locations ∨ location.In file := by
  obtain ⟨s, memory, hs, rfl⟩ := exists_of_add h
  have hin (note : Note) (location : Location) (hl : location ∈ s.locations file.name note) :
      location.In file := by
    have hlines := (Script.run_ofLines catalog file.name _ (.start l.image)).symm.trans hs
    rcases UnderWay.remembers .file hlines note location hl with hl | ⟨calls, hr⟩
    · cases note <;> cases hl
    · exact hr.location_in rfl
  intro location hl
  unfold locations at hl ⊢
  rw [exports_eq] at hl
  dsimp only at hl
  rw [Array.toList_appendList, Array.toList_appendList, List.map_append, List.map_append] at hl
  simp only [List.mem_append] at hl ⊢
  rcases hl with (hl | hl) | hl | hl
  · exact .inl (.inl hl)
  · refine .inr (hin .declaration location ?_)
    rw [List.map_map] at hl
    obtain ⟨named, hn, rfl⟩ := List.mem_map.mp hl
    exact List.mem_map_of_mem (List.mem_filter.mp hn).1
  · exact .inl (.inr hl)
  · refine .inr (hin .relocation location ?_)
    obtain ⟨r, hr, rfl⟩ := List.mem_map.mp hl
    exact List.mem_map_of_mem (List.mem_filter.mp hr).1

theorem Linkage.locations_addAll {l l' : Linkage} (h : addAll catalog files l = .ok l') :
    ∀ location ∈ l'.locations, location ∈ l.locations ∨ ∃ file ∈ files, location.In file := by
  induction files generalizing l with
  | nil =>
    cases h
    exact fun _ hl => .inl hl
  | cons file rest ih =>
    simp only [addAll] at h
    obtain ⟨l₁, ha, h⟩ := bind_eq_ok_iff.mp h
    intro location hl
    rcases ih h location hl with hl | ⟨file', hf, hl⟩
    · exact (locations_add ha location hl).imp_right fun hl => ⟨file, List.mem_cons_self, hl⟩
    · exact .inr ⟨file', List.mem_cons_of_mem _ hf, hl⟩

/-- An error of the link is at a place that has been left to it. -/
theorem Linkage.location_of_link {l : Linkage} {error : Error} (h : l.link = .error error) :
    error.trace = [] ∧ error.location ∈ l.locations := by
  unfold link at h
  split at h
  next name location hp =>
    cases h
    exact ⟨rfl, List.mem_append_left _ (List.mem_map_of_mem (List.mem_of_find?_eq_some hp))⟩
  next =>
    cases hres : resolve l.globals l.image.memory #[] l.deferred.toList with
    | error e =>
      rw [hres] at h
      cases h
      obtain ⟨htrace, r, hr, hl⟩ := location_of_resolve hres
      rw [hl]
      exact ⟨htrace, List.mem_append_right _ (List.mem_map_of_mem hr)⟩
    | ok resolved =>
      rw [hres, ok_bind] at h
      have hopen := eq_append_of_resolve hres
      dsimp only at h
      split at h
      next r rest hr =>
        cases h
        have hmem : r ∈ unsettled l.globals l.deferred.toList := by
          have hlist := congrArg Array.toList hopen
          rw [hr, Array.toList_appendList] at hlist
          exact (List.nil_append _ ▸ hlist) ▸ List.mem_cons_self
        exact ⟨rfl, List.mem_append_right _ (List.mem_map_of_mem (List.mem_filter.mp hmem).1)⟩
      next => cases h

theorem Begins.mem (h : Begins catalog stackSize files file start) : file ∈ files := by
  obtain ⟨before, after, l, rfl, -, -⟩ := h
  exact List.mem_append_right _ List.mem_cons_self

theorem Begins.relocations_eq (h : Begins catalog stackSize files file start) :
    start.relocations = #[] := by
  obtain ⟨before, after, l, -, -, rfl⟩ := h
  rfl

/-- All that an error names are lines of one file. -/
theorem locations_in_file {error : Error} (h : assemble catalog stackSize files = .error error) :
    ∃ file ∈ files, ∀ location ∈ error.location :: error.trace, location.In file := by
  rcases raises_or_link h with ⟨file, start, active, kind, location, hb, hr⟩ | ⟨l, hl, hlink⟩
  · obtain rfl := Except.error.inj (h.symm.trans (hr.assemble_eq hb))
    obtain ⟨inner, hreach⟩ := hr.reaches hb.relocations_eq
    refine ⟨file, hb.mem, List.forall_mem_cons.mpr ⟨hreach.location_in hb.macros_eq, ?_⟩⟩
    intro frame hframe
    obtain ⟨e, he, hcall⟩ := List.mem_filterMap.mp hframe
    unfold Expansion.call? at hcall
    split_ifs at hcall
    cases hcall
    exact hr.calls_in hb.macros_eq e he
  · obtain ⟨htrace, hmem⟩ := Linkage.location_of_link hlink
    rcases Linkage.locations_addAll hl _ hmem with hstart | ⟨file, hf, hin⟩
    · cases hstart
    · rw [htrace]
      exact ⟨file, hf, List.forall_mem_singleton.mpr hin⟩

end

section
variable {catalog : Catalog} {file : Source.File} {start t : State} {depth : Nat}
variable {active : List Expansion} {e : Expansion}

/-- A call is of a macro, which errors name, or of a template, which they do not. -/
theorem LineRequests.call_or_template {c : Context} {line : Nat} {ops : Operands} {s : State}
    (h : LineRequests c line ops s e t) :
    (∃ name m rest, t.macros.lookup name = some m ∧ macroCall line name m rest = .ok e) ∨
      ∃ name params body rest, templateCall c.catalog line name params body rest = .ok e := by
  induction h with
  | label h ih => exact ih
  | directive hn hm h ih => exact ih
  | datum hd hs h ih => exact ih
  | template h => exact .inr ⟨_, _, _, _, h⟩
  | call hm h => exact .inl ⟨_, _, _, hm, h⟩

theorem Requested.call_or_template (h : Requested catalog file start depth active e t) :
    (∃ name m rest, t.macros.lookup name = some m ∧ macroCall e.line name m rest = .ok e) ∨
      ∃ name params body rest, templateCall catalog e.line name params body rest = .ok e := by
  obtain ⟨c, before, l, after, s, u, hway, -, hl⟩ := h.exists_line
  rw [hl.line_eq, ← hway.context_eq.1]
  exact hl.call_or_template

/-- What is come to in the body of a template has the line of its call. -/
theorem Reaches.line_eq {location : Location}
    (h : Reaches catalog file start (e :: active) location) (ht : e.traced = false) :
    location.line = e.line := by
  obtain ⟨depth, c, before, item, after, s, u, hway, -, rfl⟩ := h
  generalize hi : before ++ item :: after = items at hway
  cases hway with
  | body hr =>
    have hmem : item ∈ Source.items e.body := hi ▸ List.mem_append_right _ List.mem_cons_self
    rcases hr.call_or_template with ⟨name, m, rest, -, hcall⟩ | ⟨name, params, body, rest, hcall⟩
    · rw [(body_of_macroCall hcall).2.1] at ht
      cases ht
    · exact (Source.numbered_items (P := (· = e.line)) (number_of_templateCall hcall).2.2
        item hmem).1

end

/-- An error names lines of one of the files, its own line and those of its trace. One that is raised while calls are
active, in an item that the innermost of them has come to or by a patch behind its body, has as its trace the macros
among these calls, each by the line that it is called in and the innermost first. Calls of templates leave no trace,
and what is wrong in their bodies is reported at the line of the call. All other errors are found by the link and have
no trace. -/
theorem errors_located (catalog : Catalog) (stackSize : Nat) (files : List Source.File) :
    (∀ error, assemble catalog stackSize files = .error error →
      ∃ file ∈ files, ∀ location ∈ error.location :: error.trace, location.In file) ∧
    (∀ file start active kind location, Begins catalog stackSize files file start →
      Raises catalog file start active kind location →
        assemble catalog stackSize files =
            .error ⟨kind, location, active.filterMap (·.call? file.name)⟩ ∧
          ∃ inner, Reaches catalog file start (inner ++ active) location) ∧
    (∀ file start depth active e t, Requested catalog file start depth active e t →
      Reaches catalog file start active ⟨e.line, file.name⟩ ∧
        ((∃ name m ops, t.macros.lookup name = some m ∧ macroCall e.line name m ops = .ok e ∧
            e.call? file.name = some ⟨e.line, file.name⟩) ∨
          (∃ name params body ops, templateCall catalog e.line name params body ops = .ok e ∧
            e.call? file.name = none ∧
            ∀ location, Reaches catalog file start (e :: active) location →
              location.line = e.line))) ∧
    ∀ error, assemble catalog stackSize files = .error error →
      (∃ file start active kind location, Begins catalog stackSize files file start ∧
        Raises catalog file start active kind location) ∨
      error.trace = [] ∧
        ∃ l, Linkage.addAll catalog files ⟨.empty stackSize, [], #[], #[]⟩ = .ok l ∧
          l.link = .error error := by
  refine ⟨fun error h => locations_in_file h,
    fun file start active kind location hb hr => ⟨hr.assemble_eq hb, hr.reaches hb.relocations_eq⟩,
    fun file start depth active e t h => ⟨h.reaches, ?_⟩, fun error h => ?_⟩
  · refine h.call_or_template.imp ?_ ?_
    · rintro ⟨name, m, ops, hm, hcall⟩
      refine ⟨name, m, ops, hm, hcall, ?_⟩
      rw [Expansion.call?, (body_of_macroCall hcall).2.1, if_pos rfl]
    · rintro ⟨name, params, body, ops, hcall⟩
      obtain ⟨-, htraced, -⟩ := number_of_templateCall hcall
      refine ⟨name, params, body, ops, hcall, ?_, fun location hr => hr.line_eq htraced⟩
      rw [Expansion.call?, htraced, if_neg Bool.false_ne_true]
  · refine (raises_or_link h).imp_right fun ⟨l, hl, hlink⟩ => ?_
    exact ⟨(Linkage.location_of_link hlink).1, l, hl, hlink⟩

private def nestedFile : Source.File :=
  ⟨"main.s", ".macro bad(%x)\nmv %x, 5000\n.end_macro\n.macro outer\nbad(a0)\n.end_macro\nouter"⟩

/-- What stops an assembly. -/
private def errorOf (result : Except Error Program) : Option Error :=
  match result with
  | .ok _ => none
  | .error e => some e

/-- A template that is used wrong in a macro that another macro calls. -/
theorem errors_located_nested :
    (∃ error active, assemble Catalog.builtin 0 [nestedFile] = .error error ∧
      error.location = ⟨2, "main.s"⟩ ∧ error.trace = [⟨5, "main.s"⟩, ⟨7, "main.s"⟩] ∧
      (∀ location ∈ error.location :: error.trace, location.In nestedFile) ∧
      Raises Catalog.builtin nestedFile (.start (.empty 0)) active error.kind error.location ∧
      active.filterMap (·.call? "main.s") = error.trace) ∧
    ∃ e t, Requested Catalog.builtin nestedFile (.start (.empty 0)) 64 [] e t ∧
      e.call? "main.s" = some ⟨7, "main.s"⟩ := by
  obtain ⟨hin, hraised, hcalls, hends⟩ := errors_located Catalog.builtin 0 [nestedFile]
  constructor
  · have hfails : errorOf (assemble Catalog.builtin 0 [nestedFile]) =
        some ⟨.expectedIntRegister, ⟨2, "main.s"⟩, [⟨5, "main.s"⟩, ⟨7, "main.s"⟩]⟩ := by
      decide +kernel
    cases herror : assemble Catalog.builtin 0 [nestedFile] with
    | ok p =>
      rw [herror] at hfails
      cases hfails
    | error error =>
      rw [herror] at hfails
      obtain rfl := Option.some.inj hfails
      obtain ⟨file, hf, hlines⟩ := hin _ herror
      obtain rfl := List.mem_singleton.mp hf
      rcases hends _ herror with ⟨file, start, active, kind, location, hb, hr⟩ | ⟨htrace, -⟩
      · obtain rfl := List.mem_singleton.mp hb.mem
        obtain ⟨before, after, l, hfiles, hl, rfl⟩ := hb
        obtain ⟨rfl, -⟩ : before = [] ∧ after = [] := by
          rcases before with _ | ⟨first, before⟩
          · exact ⟨rfl, (List.cons.inj hfiles).2.symm⟩
          · exact absurd (congrArg List.length hfiles) (by simp)
        cases hl
        obtain ⟨heq, -⟩ := hraised nestedFile _ active kind location ⟨[], [], _, rfl, rfl, rfl⟩ hr
        obtain ⟨rfl, rfl, htrace⟩ := Error.mk.inj (Except.error.inj (herror.symm.trans heq))
        exact ⟨_, active, rfl, rfl, rfl, hlines, hr, htrace.symm⟩
      · cases htrace
  · obtain ⟨tokens, bad, outer, hitems, hops⟩ : ∃ tokens bad outer,
        Source.items (Source.linesOf Catalog.builtin nestedFile.text) =
          [.definition 1 (.ok ("bad", ⟨["x"], bad⟩)), .definition 4 (.ok ("outer", ⟨[], outer⟩)),
            .line ⟨7, tokens⟩] ∧
        Source.operands [] tokens = .next (.symbol "outer") .done := ⟨_, _, _, rfl, rfl⟩
    have hreq : Requested Catalog.builtin nestedFile (.start (.empty 0)) 64 []
        ⟨[], outer, 7, true⟩ { State.start (.empty 0) with
          macros := [("outer", ⟨[], outer⟩), ("bad", ⟨["x"], bad⟩)] } := by
      refine .file ?_
      rw [hitems]
      refine .definition (.definition (.here ?_))
      dsimp only
      rw [hops]
      exact .call (m := ⟨[], outer⟩) rfl rfl
    refine ⟨_, _, hreq, ?_⟩
    rcases (hcalls nestedFile _ 64 [] _ _ hreq).2 with ⟨-, -, -, -, -, hcall⟩ | ⟨-, -, -, -, -, hcall, -⟩
    · exact hcall
    · cases hcall

end RiscvToolkit.Assembly
