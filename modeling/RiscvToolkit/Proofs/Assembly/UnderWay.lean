import RiscvToolkit.Proofs.Assembly.Frame
import RiscvToolkit.Proofs.Assembly.Recursion
import RiscvToolkit.Proofs.Source.Numbers

/-! Blocks under way. A file and the bodies of the calls in it are assembled item by item; whatever is left to be
patched or exported behind them has the location of an item that has been come to. -/
namespace RiscvToolkit.Assembly
open Source (Operands)

/-- `UnderWay catalog file start depth active c items s`: while a file is assembled from state `start` on, `items`
are assembled in `c` from state `s` on. They are the body of the innermost of `active`, or the file if there is none,
and `depth` more calls may be active. -/
inductive UnderWay (catalog : Catalog) (file : Source.File) (start : State) :
    Nat → List Expansion → Context → List Source.Item → State → Prop
  | file : UnderWay catalog file start maxDepth [] ⟨catalog, file.name, []⟩
    (Source.items (Source.linesOf catalog file.text)) start
  | body {depth active e t} (h : Requested catalog file start (depth + 1) active e t) :
    UnderWay catalog file start depth (e :: active) (e.context catalog file.name)
      (Source.items e.body) { t with labels := [], relocations := #[] }

/-- `Reaches catalog file start active location`: assembling the file comes to an item at `location` in the block of
which the bodies of `active` are under way. -/
def Reaches (catalog : Catalog) (file : Source.File) (start : State) (active : List Expansion)
    (location : Location) : Prop :=
  ∃ depth c before item after s t,
    UnderWay catalog file start depth active c (before ++ item :: after) s ∧
      assembleItems (expand catalog file.name depth) c before s = .ok t ∧
      location = ⟨item.number, file.name⟩

/-- What a state remembers the location of: the relocations that wait, and the names declared `.global`. -/
inductive Note where
  | relocation
  | declaration

/-- The locations that a state of a file remembers. -/
def State.locations (s : State) (file : String) : Note → List Location
  | .relocation => s.relocations.toList.map (·.location)
  | .declaration => s.globals.toList.map fun named => ⟨named.2, file⟩

/-- `Records location s s'`: the state `s'` remembers nothing that `s` does not, but for `location`. -/
def Records (location : Location) (s s' : State) : Prop :=
  ∀ note, ∀ l ∈ s'.locations location.file note, l ∈ s.locations location.file note ∨ l = location

namespace Records
variable {location : Location} {s s' s'' : State}

theorem refl (location : Location) (s : State) : Records location s s :=
  fun _ _ h => .inl h

theorem trans (h : Records location s s') (h' : Records location s' s'') :
    Records location s s'' :=
  fun note l hl => (h' note l hl).elim (h note l) .inr

end Records

/-! ### Lines -/

section
variable {s s' : State} {location : Location}

theorem location_of_mem_relocations {address : UInt32} {p : Piece} {r : Relocation}
    (h : r ∈ p.relocations location address) : r.location = location := by
  cases p with
  | code words =>
    simp only [Piece.relocations] at h
    induction words generalizing address with
    | nil => cases h
    | cons e rest ih =>
      rcases List.mem_append.mp h with h | h
      · obtain ⟨link, -, rfl⟩ := Option.map_eq_some_iff.mp (Option.mem_toList.mp h)
        rfl
      · exact ih h
  | datum stored =>
    cases stored with
    | bytes bytes => cases h
    | address width label =>
      cases List.mem_singleton.mp h
      rfl

theorem records_of_add {place : Place} {p : Piece} (h : s.add place location p = .ok s') :
    Records location s s' := by
  obtain ⟨image, -, rfl⟩ := State.exists_of_add h
  intro note l hl
  cases note with
  | declaration => exact .inl hl
  | relocation =>
    simp only [State.locations, Array.toList_appendList, List.map_append, List.mem_append] at hl
    refine hl.imp_right fun hl => ?_
    obtain ⟨r, hr, rfl⟩ := List.mem_map.mp hl
    exact location_of_mem_relocations hr

theorem records_of_declare (names : List String) :
    Records location s (s.declare names location.line) := by
  intro note l hl
  cases note with
  | relocation => exact .inl hl
  | declaration =>
    simp only [State.locations, State.declare, Array.toList_appendList, List.map_append,
      List.mem_append] at hl
    refine hl.imp_right fun hl => ?_
    simp only [List.map_map, List.mem_map] at hl
    obtain ⟨name, -, rfl⟩ := hl
    rfl

theorem records_of_placeDatum {item : Datum} (h : placeDatum location item s = .ok s') :
    Records location s s' := by
  unfold placeDatum at h
  obtain ⟨stored, -, h⟩ := bind_eq_ok_iff.mp h
  exact records_of_add h

end

/-- What a line comes to by itself: a state that remembers nothing new but the line, or an error at it. -/
inductive OwnResult (location : Location) (s : State) : Except Error State → Prop
  | ok {s' : State} (h : Records location s s') : OwnResult location s (.ok s')
  | error (kind : ErrorKind) : OwnResult location s (.error ⟨kind, location, []⟩)

theorem OwnResult.located_bind {α : Type} (location : Location) {s : State}
    {x : Except ErrorKind α} {f : α → Except Error State}
    (h : ∀ a, x = .ok a → OwnResult location s (f a)) :
    OwnResult location s (located location.line location.file x >>= f) := by
  cases x with
  | error kind => exact .error kind
  | ok a => exact h a rfl

theorem OwnResult.of_records {location : Location} {s s' : State} {x : Except Error State}
    (hr : Records location s s') (h : OwnResult location s' x) : OwnResult location s x := by
  cases h with
  | ok h => exact .ok (hr.trans h)
  | error kind => exact .error kind

section
variable (expand : Expander) (c : Context) (line : Nat)

private theorem own_instruction (entry : Entry) (ops : Operands) (s : State) :
    (∃ e, LineRequests c line (.next (.instruction entry) ops) s e s) ∨
      OwnResult ⟨line, c.file⟩ s (assembleInstruction expand c line entry ops s) := by
  obtain ⟨name, encoding⟩ := entry
  cases encoding with
  | template params body =>
    cases ht : templateCall c.catalog line name params body ops with
    | ok e => exact .inl ⟨e, .template ht⟩
    | error kind =>
      refine .inr ?_
      simp only [assembleInstruction, ht]
      exact .error kind
  | _ =>
    refine .inr ?_
    simp only [assembleInstruction]
    rw [located_bind]
    refine OwnResult.located_bind ⟨line, c.file⟩ fun t ht => ?_
    have hr := records_of_add ht
    cases (encode _ ops).failure with
    | none => exact .ok hr
    | some kind => exact .error kind

/-- A line comes to a call, having remembered no more than itself on the way, or to a result of its own. -/
theorem requests_or_own (ops : Operands) (s : State) :
    (∃ e t, LineRequests c line ops s e t ∧ Records ⟨line, c.file⟩ s t) ∨
      OwnResult ⟨line, c.file⟩ s (assembleOperands expand c line ops s) := by
  induction ops generalizing s with
  | done => exact .inr (.ok (.refl _ s))
  | failed kind => exact .inr (.error kind)
  | next head rest ih =>
    have hdatum {item : Datum} (hd : datum? s.macros head = some item) :
        (∃ e t, LineRequests c line (.next head rest) s e t ∧ Records ⟨line, c.file⟩ s t) ∨
          OwnResult ⟨line, c.file⟩ s (assembleOperands expand c line (.next head rest) s) := by
      rw [assembleOperands_datum hd]
      cases hp : placeDatum ⟨line, c.file⟩ item s with
      | error kind => exact .inr (.error kind)
      | ok s' =>
        have hr := records_of_placeDatum hp
        rcases ih s' with ⟨e, t, hreq, ht⟩ | hown
        · exact .inl ⟨e, t, .datum hd hp hreq, hr.trans ht⟩
        · exact .inr (hown.of_records hr)
    cases head with
    | label name =>
      have hr : Records ⟨line, c.file⟩ s (s.define s.place name) := fun note _ h => by
        cases note <;> exact .inl h
      rcases ih (s.define s.place name) with ⟨e, t, hreq, ht⟩ | hown
      · exact .inl ⟨e, t, .label hreq, hr.trans ht⟩
      · exact .inr (hown.of_records hr)
    | directive name =>
      by_cases hn : Directive.ofName? name = some .global
      · refine .inr ?_
        simp only [assembleOperands, if_pos hn]
        refine OwnResult.located_bind ⟨line, c.file⟩ fun names _ => ?_
        exact .ok (records_of_declare names)
      · cases hm : applyDirective name s.toMode with
        | error kind =>
          refine .inr ?_
          simp only [assembleOperands, if_neg hn, hm]
          exact .error kind
        | ok mode =>
          have hr : Records ⟨line, c.file⟩ s { s with toMode := mode } := fun note _ h => by
            cases note <;> exact .inl h
          rcases ih { s with toMode := mode } with ⟨e, t, hreq, ht⟩ | hown
          · exact .inl ⟨e, t, .directive hn hm hreq, hr.trans ht⟩
          · refine .inr ?_
            simp only [assembleOperands, if_neg hn, hm]
            exact hown.of_records hr
    | instruction entry =>
      rcases own_instruction expand c line entry rest s with ⟨e, hreq⟩ | hown
      · exact .inl ⟨e, s, hreq, .refl _ s⟩
      · exact .inr hown
    | symbol name =>
      cases hm : s.macros.lookup name with
      | none => exact hdatum (if_pos (by rw [hm]; rfl))
      | some m =>
        cases hc : macroCall line name m rest with
        | ok e => exact .inl ⟨e, s, .call hm hc, .refl _ s⟩
        | error kind =>
          refine .inr ?_
          simp only [assembleOperands, hm, hc]
          exact .error kind
    | int value => exact hdatum rfl
    | float value => exact hdatum rfl
    | string text => exact hdatum rfl
    | register r | placeholder name | group items => exact .inr (.error _)

end

/-! ### Blocks -/

section
variable {expand : Expander} {c : Context} {s t : State} {e : Expansion}

theorem BlockRequests.of_append {before after : List Source.Item} {u : State}
    (hs : assembleItems expand c before s = .ok u) (h : BlockRequests expand c after u e t) :
    BlockRequests expand c (before ++ after) s e t := by
  induction before generalizing s with
  | nil =>
    cases hs
    exact h
  | cons item before ih =>
    cases item with
    | line l =>
      simp only [assembleItems] at hs
      obtain ⟨v, hl, hs⟩ := bind_eq_ok_iff.mp hs
      exact .later hl (ih hs)
    | definition number result =>
      cases result with
      | error kind => cases hs
      | ok named => exact .definition (ih hs)

/-- A block comes to a call in one of its lines, the items before it assembled. -/
theorem BlockRequests.exists_line {items : List Source.Item}
    (h : BlockRequests expand c items s e t) :
    ∃ before l after u, items = before ++ .line l :: after ∧
      assembleItems expand c before s = .ok u ∧
      LineRequests c l.number (Source.operands c.bindings l.tokens) u e t := by
  induction h with
  | here h => exact ⟨[], _, _, _, rfl, rfl, h⟩
  | @later l rest s s' e t hs h ih =>
    obtain ⟨before, l', after, u, rfl, hb, hl⟩ := ih
    refine ⟨.line l :: before, l', after, u, rfl, ?_, hl⟩
    rw [assembleItems, hs]
    exact hb
  | @definition number named rest s e t h ih =>
    obtain ⟨before, l', after, u, rfl, hb, hl⟩ := ih
    exact ⟨.definition number (.ok named) :: before, l', after, u, rfl, hb, hl⟩

end

section
variable {catalog : Catalog} {file : Source.File} {start s t : State} {depth : Nat}
variable {active : List Expansion} {c : Context} {items : List Source.Item} {e : Expansion}

theorem UnderWay.context_eq (h : UnderWay catalog file start depth active c items s) :
    c.catalog = catalog ∧ c.file = file.name := by
  cases h <;> exact ⟨rfl, rfl⟩

theorem UnderWay.requested (h : UnderWay catalog file start depth active c items s)
    (hreq : BlockRequests (expand catalog file.name depth) c items s e t) :
    Requested catalog file start depth active e t := by
  cases h with
  | file => exact .file hreq
  | body hr => exact .body hr hreq

/-- What is asked for is asked for in a line of a block that is under way. -/
theorem Requested.exists_line (h : Requested catalog file start depth active e t) :
    ∃ c before l after s u,
      UnderWay catalog file start depth active c (before ++ .line l :: after) s ∧
        assembleItems (expand catalog file.name depth) c before s = .ok u ∧
        LineRequests c l.number (Source.operands c.bindings l.tokens) u e t := by
  cases h with
  | file h =>
    obtain ⟨before, l, after, u, hi, hb, hl⟩ := h.exists_line
    exact ⟨_, before, l, after, _, u, hi ▸ .file, hb, hl⟩
  | body hr h =>
    obtain ⟨before, l, after, u, hi, hb, hl⟩ := h.exists_line
    exact ⟨_, before, l, after, _, u, hi ▸ .body hr, hb, hl⟩

theorem Requested.reaches (h : Requested catalog file start depth active e t) :
    Reaches catalog file start active ⟨e.line, file.name⟩ := by
  obtain ⟨c, before, l, after, s, u, hway, hb, hl⟩ := h.exists_line
  rw [hl.line_eq]
  exact ⟨depth, c, before, .line l, after, s, u, hway, hb, rfl⟩

/-- The error of a block is that of the file, with the calls that are active in its trace. -/
theorem UnderWay.assembleLines_of_error {error : Error}
    (h : UnderWay catalog file start depth active c items s)
    (he : assembleItems (expand catalog file.name depth) c items s = .error error) :
    assembleLines catalog file.name (Source.linesOf catalog file.text) start =
      .error (error.through file.name active) := by
  cases h with
  | file =>
    rw [Error.through, List.filterMap_nil, List.append_nil]
    exact he
  | body hr =>
    rw [hr.assembleLines_of_error (expand_of_inScope_error (by rw [inScope, he]; rfl)),
      Error.through_append, List.singleton_append]

/-- True of a location that `s` remembers, or that is come to in `active` or in a call under way there. -/
def Remembers (catalog : Catalog) (file : Source.File) (start : State) (active : List Expansion)
    (s : State) (note : Note) (location : Location) : Prop :=
  location ∈ s.locations file.name note ∨
    ∃ inner, Reaches catalog file start (inner ++ active) location

/-- If calls remember no more than what is come to, then so does a block. -/
private theorem remembers_of_calls
    (hcall : ∀ e u t, Requested catalog file start depth active e u →
      expand catalog file.name depth e u = .ok t →
        ∀ note, ∀ l ∈ t.locations file.name note, Remembers catalog file start active u note l)
    {before after : List Source.Item}
    (h : UnderWay catalog file start depth active c (before ++ after) s)
    (hs : assembleItems (expand catalog file.name depth) c before s = .ok t) (note : Note) :
    ∀ l ∈ t.locations file.name note, Remembers catalog file start active s note l := by
  induction before using List.reverseRecOn generalizing after t with
  | nil =>
    cases hs
    exact fun l hl => .inl hl
  | append_singleton before item ih =>
    rw [List.append_assoc, List.singleton_append] at h
    rw [assembleItems_append] at hs
    obtain ⟨u, hu, hs⟩ := bind_eq_ok_iff.mp hs
    have hbefore := ih h hu
    have hreach : Reaches catalog file start active ⟨item.number, file.name⟩ :=
      ⟨depth, c, before, item, after, s, u, h, hu, rfl⟩
    -- what is recorded at the item adds nothing to what the items before it do
    have hstep {v : State} (hv : Records ⟨item.number, file.name⟩ u v) (l : Location)
        (hl : Remembers catalog file start active v note l) :
        Remembers catalog file start active s note l := by
      rcases hl with hl | hl
      · rcases hv note l hl with hl | rfl
        · exact hbefore l hl
        · exact .inr ⟨[], hreach⟩
      · exact .inr hl
    intro l hl
    cases item with
    | definition number result =>
      cases result with
      | error kind => cases hs
      | ok named =>
        cases hs
        exact hbefore l (by cases note <;> exact hl)
    | line line =>
      simp only [assembleItems] at hs
      obtain ⟨v, hline, hs⟩ := bind_eq_ok_iff.mp hs
      cases hs
      obtain ⟨-, hfile⟩ := h.context_eq
      have hown := requests_or_own (expand catalog file.name depth) c line.number
        (Source.operands c.bindings line.tokens) u
      rw [hline, hfile] at hown
      rcases hown with ⟨e, w, hreq, hw⟩ | hown
      · have hexpand := hreq.assembleOperands_eq.symm.trans hline
        exact hstep hw l
          (hcall e w _ (h.requested (.of_append hu (.here hreq))) hexpand note l hl)
      · cases hown with
        | ok hv => exact hstep hv l (.inl hl)

theorem Requested.remembers (h : Requested catalog file start depth active e s)
    (he : expand catalog file.name depth e s = .ok t) (note : Note) :
    ∀ l ∈ t.locations file.name note, Remembers catalog file start active s note l := by
  induction depth generalizing active e s t note with
  | zero => cases he
  | succ depth ih =>
    rw [expand] at he
    obtain ⟨inner, memory, hinner, rfl⟩ := exists_of_inScope (ok_of_within he)
    have hway : UnderWay catalog file start depth (e :: active) (e.context catalog file.name)
        (Source.items e.body ++ []) { s with labels := [], relocations := #[] } := by
      rw [List.append_nil]
      exact .body h
    have hbody := remembers_of_calls (fun e' u t hr hexpand => ih hr hexpand) hway hinner
    have hinside {l : Location} (h : ∃ calls,
        Reaches catalog file start (calls ++ e :: active) l) :
        Remembers catalog file start active s note l := by
      obtain ⟨calls, h⟩ := h
      refine .inr ⟨calls ++ [e], ?_⟩
      rw [List.append_assoc, List.singleton_append]
      exact h
    intro l hl
    cases note with
    | relocation =>
      simp only [State.locations, Array.toList_appendList, List.map_append, List.mem_append] at hl
      rcases hl with hl | hl
      · exact .inl hl
      · obtain ⟨r, hr, rfl⟩ := List.mem_map.mp hl
        rcases hbody .relocation r.location
          (List.mem_map_of_mem (List.mem_filter.mp hr).1) with hr | hr
        · cases hr
        · exact hinside hr
    | declaration =>
      rcases hbody .declaration l hl with hl | hl
      · exact .inl hl
      · exact hinside hl

/-- What a block remembers when it has been assembled is of items that have been come to, in it or in the calls
that it makes. -/
theorem UnderWay.remembers (h : UnderWay catalog file start depth active c items s)
    (hs : assembleItems (expand catalog file.name depth) c items s = .ok t) (note : Note) :
    ∀ l ∈ t.locations file.name note, Remembers catalog file start active s note l := by
  rw [← List.append_nil items] at h
  exact remembers_of_calls (fun e u t hr he => hr.remembers he) h hs note

end

/-! ### Line numbers -/

section
variable {P : Nat → Prop}

/-- True of macros whose lines all have a number with `P`. -/
def Numbered (P : Nat → Prop) (macros : List (String × Source.Macro)) : Prop :=
  ∀ named ∈ macros, named.2.Numbered P

section
variable {c : Context} {s t : State} {e : Expansion}

theorem LineRequests.body_numbered {line : Nat} {ops : Operands}
    (h : LineRequests c line ops s e t) (hline : P line) (hs : Numbered P s.macros) :
    ∀ l ∈ e.body, P l.number := by
  induction h with
  | label h ih => exact ih hs
  | directive hn hm h ih => exact ih (Script.macros_applyDirective hm ▸ hs)
  | datum hd hp h ih => exact ih (congrArg Mode.macros (toMode_placeDatum hp) ▸ hs)
  | template h =>
    intro l hl
    rw [(number_of_templateCall h).2.2 l hl]
    exact hline
  | @call name m rest s e hm h =>
    obtain ⟨-, -, hbody⟩ := body_of_macroCall h
    obtain ⟨before, after, hsplit, -⟩ := List.lookup_eq_some_iff.mp hm
    rw [hbody]
    exact hs (name, m) (hsplit ▸ List.mem_append_right _ List.mem_cons_self)

end

section
variable {catalog : Catalog} {file : Source.File} {start s t : State} {depth : Nat}
variable {active : List Expansion} {c : Context} {items : List Source.Item} {e : Expansion}

theorem BlockRequests.numbered {file : String}
    (h : BlockRequests (expand catalog file depth) c items s e t)
    (hi : ∀ item ∈ items, item.Numbered P) (hs : Numbered P s.macros) :
    (∀ l ∈ e.body, P l.number) ∧ Numbered P t.macros := by
  induction h with
  | here h =>
    refine ⟨h.body_numbered (hi _ List.mem_cons_self).1 hs, ?_⟩
    rw [h.macros_eq]
    exact hs
  | later hl h ih =>
    refine ih (fun item hm => hi item (List.mem_cons_of_mem _ hm)) ?_
    rw [macros_assembleOperands hl]
    exact hs
  | definition h ih =>
    refine ih (fun item hm => hi item (List.mem_cons_of_mem _ hm)) ?_
    exact List.forall_mem_cons.mpr ⟨(hi _ List.mem_cons_self).2 _ _ rfl, hs⟩

theorem Requested.numbered (h : Requested catalog file start depth active e t)
    (hl : ∀ l ∈ Source.linesOf catalog file.text, P l.number) (hs : Numbered P start.macros) :
    (∀ l ∈ e.body, P l.number) ∧ Numbered P t.macros := by
  induction h with
  | file h => exact h.numbered (Source.numbered_items hl) hs
  | body hr h ih => exact h.numbered (Source.numbered_items ih.1) ih.2

theorem UnderWay.numbered (h : UnderWay catalog file start depth active c items s)
    (hl : ∀ l ∈ Source.linesOf catalog file.text, P l.number) (hs : Numbered P start.macros) :
    ∀ item ∈ items, item.Numbered P := by
  cases h with
  | file => exact Source.numbered_items hl
  | body hr => exact Source.numbered_items (hr.numbered hl hs).1

end

end

/-- True of the lines of a file. -/
def Location.In (l : Location) (file : Source.File) : Prop :=
  l.file = file.name ∧ 1 ≤ l.line ∧ l.line ≤ (Text.lines file.text.toList).length

/-- What is come to is a line of the file. -/
theorem Reaches.location_in {catalog : Catalog} {file : Source.File} {start : State}
    {active : List Expansion} {location : Location}
    (h : Reaches catalog file start active location) (hs : start.macros = []) :
    location.In file := by
  obtain ⟨depth, c, before, item, after, s, t, hway, -, rfl⟩ := h
  have hnumbered := hway.numbered
    (P := fun n => 1 ≤ n ∧ n ≤ (Text.lines file.text.toList).length)
    (fun l hl => Source.number_of_mem_linesOf hl) (by rw [hs]; exact List.forall_mem_nil _)
  exact ⟨rfl, (hnumbered item (List.mem_append_right _ List.mem_cons_self)).1⟩

end RiscvToolkit.Assembly
