import RiscvToolkit.Proofs.Except
import RiscvToolkit.Proofs.Source.Stripped

/-! Assembly does not depend on the layout of lines. The layout of macros is kept in a state, but nothing else in
it comes from a layout. -/
namespace RiscvToolkit.Assembly
open Source (Operand Operands Item)

def Mode.stripped (m : Mode) : Mode :=
  { m with macros := m.macros.map fun (name, definition) => (name, definition.stripped) }

def State.stripped (s : State) : State :=
  { s with toMode := s.toMode.stripped }

def Expansion.stripped (e : Expansion) : Expansion :=
  { e with body := e.body.map Source.Line.stripped }

theorem Expansion.stripped_eq_iff {d e : Expansion} :
    d.stripped = e.stripped ↔
      d.bindings = e.bindings ∧ d.body.map Source.Line.stripped = e.body.map Source.Line.stripped ∧
        d.line = e.line ∧ d.traced = e.traced := by
  unfold Expansion.stripped
  rw [Expansion.mk.injEq]

theorem State.stripped_eq_iff {s t : State} :
    s.stripped = t.stripped ↔
      s.toMode.stripped = t.toMode.stripped ∧ s.image = t.image ∧ s.globals = t.globals ∧
        s.labels = t.labels ∧ s.relocations = t.relocations := by
  unfold State.stripped
  rw [State.mk.injEq]

theorem lookup_stripped (m : Mode) (name : String) :
    m.stripped.macros.lookup name = (m.macros.lookup name).map Source.Macro.stripped := by
  obtain ⟨place, format, macros⟩ := m
  unfold Mode.stripped
  dsimp only
  induction macros with
  | nil => rfl
  | cons named rest ih =>
    rw [List.map_cons, List.lookup_cons, List.lookup_cons]
    cases name == named.1 with
    | true => rfl
    | false => exact ih

theorem applyDirective_stripped (name : String) (m : Mode) :
    applyDirective name m.stripped = (applyDirective name m).map Mode.stripped := by
  unfold applyDirective
  cases Directive.ofName? name with
  | none => rfl
  | some directive =>
    cases directive with
    | data format =>
      have hplace : m.stripped.place = m.place := rfl
      dsimp only
      rw [hplace]
      cases m.place <;> rfl
    | _ => rfl

theorem macroCall_stripped (line : Nat) (name : String) (m : Source.Macro) (ops : Operands) :
    macroCall line name m.stripped ops = (macroCall line name m ops).map Expansion.stripped := by
  have hparams : m.stripped.params = m.params := rfl
  unfold macroCall
  rw [hparams]
  cases callArguments name m.params.length ops <;> rfl

theorem add_stripped (s : State) (place : Place) (location : Location) (p : Piece) :
    s.stripped.add place location p = (s.add place location p).map State.stripped := by
  have himage : s.stripped.image = s.image := rfl
  unfold State.add
  dsimp only
  rw [himage]
  cases p.put place s.image <;> rfl

theorem placeDatum_stripped (location : Location) (item : Datum) (s : State) :
    placeDatum location item s.stripped = (placeDatum location item s).map State.stripped := by
  have hstore : s.stripped.store item = s.store item := rfl
  unfold placeDatum
  rw [hstore]
  cases s.store item with
  | error kind => rfl
  | ok stored => exact add_stripped s .data location (.datum stored)

/-- True of ways to assemble that give the same for states that differ in layout only. -/
def LayoutFree (f g : State → Except Error State) : Prop :=
  ∀ s t, s.stripped = t.stripped → (f s).map State.stripped = (g t).map State.stripped

/-- True of a way to expand calls that depends on no layout. -/
def ExpandsFree (expand : Expander) : Prop :=
  ∀ d e, d.stripped = e.stripped → LayoutFree (expand d) (expand e)

theorem LayoutFree.of_map_stripped {f : State → Except Error State}
    (h : ∀ s, f s.stripped = (f s).map State.stripped) : LayoutFree f f := by
  intro s t hst
  rw [← h, ← h, hst]

theorem LayoutFree.bind {f g f' g' : State → Except Error State} (h : LayoutFree f g)
    (h' : LayoutFree f' g') : LayoutFree (fun s => f s >>= f') fun s => g s >>= g' :=
  fun s t hst => map_bind_congr (h s t hst) h'

theorem LayoutFree.inScope {f g : State → Except Error State} (h : LayoutFree f g) :
    LayoutFree (inScope f) (inScope g) := by
  intro s t hst
  obtain ⟨hmode, himage, hglobals, hlabels, hrelocations⟩ := State.stripped_eq_iff.mp hst
  have hcalled : State.stripped { s with labels := [], relocations := #[] } =
      State.stripped { t with labels := [], relocations := #[] } :=
    State.stripped_eq_iff.mpr ⟨hmode, himage, hglobals, rfl, rfl⟩
  refine map_bind_congr (h _ _ hcalled) fun a b hab => ?_
  obtain ⟨-, himage', hglobals', hlabels', hrelocations'⟩ := State.stripped_eq_iff.mp hab
  rw [hlabels', himage', hrelocations', hrelocations]
  cases resolve b.labels b.image.memory t.relocations b.relocations.toList with
  | error e => rfl
  | ok resolved =>
    exact congrArg Except.ok (State.stripped_eq_iff.mpr ⟨hmode, rfl, hglobals', hlabels, rfl⟩)

theorem LayoutFree.within {f g : State → Except Error State} (h : LayoutFree f g)
    (call : Option Location) :
    LayoutFree (fun s => Assembly.within call (f s)) fun s => Assembly.within call (g s) := by
  intro s t hst
  rw [← within_map, ← within_map, h s t hst]

theorem layoutFree_located {line : Nat} {file : String} {f : State → Except ErrorKind State}
    (h : ∀ s, f s.stripped = (f s).map State.stripped) :
    LayoutFree (fun s => located line file (f s)) fun s => located line file (f s) :=
  .of_map_stripped fun s => by rw [h, located_map]

section
variable {expand : Expander} (he : ExpandsFree expand) (c : Context) (line : Nat)
include he

theorem layoutFree_assembleInstruction (entry : Entry) (ops : Operands) :
    LayoutFree (assembleInstruction expand c line entry ops)
      (assembleInstruction expand c line entry ops) := by
  intro s t hst
  unfold assembleInstruction
  split
  next =>
    cases located line c.file (templateCall c.catalog line _ _ _ ops) with
    | error e => rfl
    | ok e => exact he e e rfl s t hst
  next _ encoding _ =>
    have hplace : s.place = t.place := congrArg (·.place) hst
    have hadd : (s.add s.place ⟨line, c.file⟩ (.code (encode encoding ops).words)).map
        State.stripped =
          (t.add t.place ⟨line, c.file⟩ (.code (encode encoding ops).words)).map
            State.stripped := by
      rw [← add_stripped, ← add_stripped, hst, hplace]
    rw [← located_map, ← located_map]
    refine congrArg (located line c.file) (map_bind_congr hadd fun a b hab => ?_)
    cases (encode encoding ops).failure with
    | none => exact congrArg Except.ok hab
    | some kind => rfl

theorem layoutFree_assembleOperands (ops : Operands) :
    LayoutFree (assembleOperands expand c line ops) (assembleOperands expand c line ops) := by
  induction ops with
  | done => exact fun s t hst => congrArg Except.ok hst
  | failed kind => exact fun s t hst => rfl
  | next head rest ih =>
    have hdatum (item : Datum) : LayoutFree
        (fun s => do
          let s ← located line c.file (placeDatum ⟨line, c.file⟩ item s)
          assembleOperands expand c line rest s)
        (fun s => do
          let s ← located line c.file (placeDatum ⟨line, c.file⟩ item s)
          assembleOperands expand c line rest s) :=
      (layoutFree_located (placeDatum_stripped ⟨line, c.file⟩ item)).bind ih
    intro s t hst
    cases head with
    | label name =>
      have hplace : s.place = t.place := congrArg (·.place) hst
      refine ih (s.define s.place name) (t.define t.place name) ?_
      rw [hplace]
      exact congrArg (·.define t.place name) hst
    | directive name =>
      unfold assembleOperands
      split_ifs
      · cases located line c.file (globalNames name rest) with
        | error e => rfl
        | ok names => exact congrArg (fun s : State => Except.ok (s.declare names line)) hst
      · have hmode := (State.stripped_eq_iff.mp hst).1
        refine map_bind_congr (p := Mode.stripped) ?_ fun m n hmn => ih _ _ ?_
        · rw [← located_map, ← located_map, ← applyDirective_stripped, ← applyDirective_stripped,
            hmode]
        · exact congrArg₂ (fun (s : State) (m : Mode) => { s with toMode := m }) hst hmn
    | instruction entry => exact layoutFree_assembleInstruction he c line entry rest s t hst
    | register r => rfl
    | placeholder name => rfl
    | group items => rfl
    | symbol name =>
      have hlookup : (s.macros.lookup name).map Source.Macro.stripped =
          (t.macros.lookup name).map Source.Macro.stripped := by
        rw [← lookup_stripped, ← lookup_stripped, (State.stripped_eq_iff.mp hst).1]
      unfold assembleOperands
      cases hs : s.macros.lookup name with
      | none =>
        rw [hs, Option.map_none] at hlookup
        rw [Option.map_eq_none_iff.mp hlookup.symm]
        exact hdatum (.label name) s t hst
      | some d =>
        rw [hs, Option.map_some] at hlookup
        obtain ⟨e, ht, hde⟩ := Option.map_eq_some_iff.mp hlookup.symm
        rw [ht]
        refine map_bind_congr (p := Expansion.stripped) ?_ fun a b hab => he a b hab s t hst
        rw [← located_map, ← located_map, ← macroCall_stripped, ← macroCall_stripped, hde]
    | int value => exact hdatum (.int value) s t hst
    | float value => exact hdatum (.float value) s t hst
    | string text => exact hdatum (.string text) s t hst

theorem layoutFree_assembleItems {is js : List Item}
    (h : is.map Item.stripped = js.map Item.stripped) :
    LayoutFree (assembleItems expand c is) (assembleItems expand c js) := by
  induction is generalizing js with
  | nil =>
    obtain rfl : js = [] := List.map_eq_nil_iff.mp h.symm
    exact fun s t hst => congrArg Except.ok hst
  | cons i is ih =>
    obtain ⟨j, js, rfl, hij, hmap⟩ := List.map_eq_cons_iff.mp h.symm
    have hrest := ih hmap.symm
    cases i with
    | line l =>
      cases j with
      | definition number result => cases hij
      | line r =>
        obtain ⟨hnumber, hops⟩ := Source.Line.read_eq (Item.line.inj hij.symm) c.bindings
        change LayoutFree (fun s => assembleOperands expand c l.number
          (Source.operands c.bindings l.tokens) s >>= assembleItems expand c is) _
        rw [hnumber, hops]
        exact (layoutFree_assembleOperands he c r.number _).bind hrest
    | definition number result =>
      cases j with
      | line r => cases hij
      | definition number' result' =>
        obtain ⟨rfl, hresult⟩ := Item.definition.inj hij
        intro s t hst
        unfold assembleItems
        refine map_bind_congr (p := fun (name, m) => (name, Source.Macro.stripped m)) ?_
          fun a b hab => hrest _ _ ?_
        · rw [← located_map, ← located_map, hresult]
        · exact congrArg₂ (fun (s : State) named => { s with macros := named :: s.macros }) hst hab

end

theorem expandsFree_expand (catalog : Catalog) (file : String) (depth : Nat) :
    ExpandsFree (expand catalog file depth) := by
  induction depth with
  | zero =>
    intro d e hde s t hst
    obtain ⟨-, -, hline, -⟩ := Expansion.stripped_eq_iff.mp hde
    unfold expand
    rw [hline]
  | succ depth ih =>
    intro d e hde
    obtain ⟨hbindings, hbody, hline, htraced⟩ := Expansion.stripped_eq_iff.mp hde
    have hcall : d.call? file = e.call? file := by
      unfold Expansion.call?
      rw [hline, htraced]
    have hcontext : d.context catalog file = e.context catalog file := by
      unfold Expansion.context
      rw [hbindings]
    have hitems : (Source.items d.body).map Item.stripped = (Source.items e.body).map Item.stripped := by
      rw [← Source.items_stripped, hbody, Source.items_stripped]
    have hblock := layoutFree_assembleItems ih (e.context catalog file) hitems
    intro s t hst
    unfold expand
    rw [hcall, hcontext]
    exact hblock.inScope.within (e.call? file) s t hst

end RiscvToolkit.Assembly
