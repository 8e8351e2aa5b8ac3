import RiscvToolkit.Proofs.Assembly.Image
import RiscvToolkit.Proofs.Assembly.Script

/-! Outlines. Laying a script out places its pieces without patching any, and tells where every label and every
piece has come to stand. Running the script then comes to the same as patching the image afterwards. -/
namespace RiscvToolkit.Assembly
open Image (Extension)

theorem append_list_assoc {α : Type} (xs : Array α) (ys zs : List α) :
    xs ++ ys ++ zs = xs ++ (ys ++ zs) := by
  apply Array.toList_inj.mp
  simp

/-- The patches of the relocations whose label has an address. -/
def settle (labels : Symbols) (rs : List Relocation) : List Patch :=
  rs.filterMap fun r => (labels.lookup r.label).map (Patch.mk r)

/-- The relocations whose label has none. -/
def unsettled (labels : Symbols) (rs : List Relocation) : List Relocation :=
  rs.filter fun r => (labels.lookup r.label).isNone

section
variable {labels : Symbols} {r : Relocation} {rs : List Relocation} {target : UInt32}

theorem settle_cons_of_none (h : labels.lookup r.label = none) :
    settle labels (r :: rs) = settle labels rs := by
  simp [settle, h]

theorem settle_cons_of_some (h : labels.lookup r.label = some target) :
    settle labels (r :: rs) = ⟨r, target⟩ :: settle labels rs := by
  simp [settle, h]

theorem unsettled_cons_of_none (h : labels.lookup r.label = none) :
    unsettled labels (r :: rs) = r :: unsettled labels rs := by
  simp [unsettled, h]

theorem unsettled_cons_of_some (h : labels.lookup r.label = some target) :
    unsettled labels (r :: rs) = unsettled labels rs := by
  simp [unsettled, h]

end

theorem toOption_resolve (labels : Symbols) (m : Memory) (before : Array Relocation)
    (rs : List Relocation) :
    (resolve labels m before rs).toOption =
      (Patch.applyAll (settle labels rs) m).map fun m => (m, before ++ unsettled labels rs) := by
  induction rs generalizing m before with
  | nil => simp [resolve, settle, unsettled, Patch.applyAll]
  | cons r rest ih =>
    unfold resolve
    cases hl : labels.lookup r.label with
    | none =>
      rw [settle_cons_of_none hl, unsettled_cons_of_none hl]
      dsimp only
      rw [ih]
      simp
    | some target =>
      rw [settle_cons_of_some hl, unsettled_cons_of_some hl]
      simp only [Patch.applyAll, Patch.apply]
      cases r.kind.apply m r.address target with
      | error e => rfl
      | ok m' => exact ih m' before

theorem eq_append_of_resolve {labels : Symbols} {m : Memory} {before : Array Relocation}
    {rs : List Relocation} {resolved : Memory × Array Relocation}
    (h : resolve labels m before rs = .ok resolved) :
    resolved.2 = before ++ unsettled labels rs := by
  have hu := toOption_resolve labels m before rs
  rw [h] at hu
  obtain ⟨memory, -, hm⟩ := Option.map_eq_some_iff.mp hu.symm
  exact (Prod.mk.inj hm).2.symm

/-- A block with the addresses of its labels and pieces. -/
inductive Outline where
  | done
  | label (name : String) (address : UInt32) (rest : Outline)
  | globals (names : List String) (line : Nat) (rest : Outline)
  | piece (address : UInt32) (location : Location) (piece : Piece) (rest : Outline)
  | expansion (body rest : Outline)

namespace Outline

/-- The labels of a block without those of its expansions, the latest first. -/
def labels : Outline → Symbols
  | done => []
  | label name address rest => rest.labels ++ [(name, address)]
  | globals _ _ rest | piece _ _ _ rest | expansion _ rest => rest.labels

/-- The names declared `.global` in a block and its expansions, with their lines. -/
def declared : Outline → List (String × Nat)
  | done => []
  | label _ _ rest | piece _ _ _ rest => rest.declared
  | globals names line rest => names.map (·, line) ++ rest.declared
  | expansion body rest => body.declared ++ rest.declared

/-- The relocations of a block and its expansions in order of their places in the source. -/
def relocations : Outline → List Relocation
  | done => []
  | label _ _ rest | globals _ _ rest => rest.relocations
  | piece address location p rest => p.relocations location address ++ rest.relocations
  | expansion body rest => body.relocations ++ rest.relocations

/-- The relocations that the expansions of a block leave to it, and its own. -/
def opened : Outline → List Relocation
  | done => []
  | label _ _ rest | globals _ _ rest => rest.opened
  | piece address location p rest => p.relocations location address ++ rest.opened
  | expansion body rest => unsettled body.labels body.opened ++ rest.opened

/-- The patches that the expansions of a block make, in order. -/
def settled : Outline → List Patch
  | done => []
  | label _ _ rest | globals _ _ rest | piece _ _ _ rest => rest.settled
  | expansion body rest => body.settled ++ settle body.labels body.opened ++ rest.settled

end Outline

theorem settle_append_unsettled_perm (labels : Symbols) (rs : List Relocation) :
    rs.Perm ((settle labels rs).map (·.relocation) ++ unsettled labels rs) := by
  have hs : (settle labels rs).map (·.relocation) =
      rs.filter fun r => !(labels.lookup r.label).isNone := by
    induction rs with
    | nil => rfl
    | cons r rest ih =>
      unfold settle at ih ⊢
      cases hl : labels.lookup r.label <;> simp [hl, ih]
  rw [hs]
  exact (List.filter_append_perm _ rs).symm.trans List.perm_append_comm

theorem Outline.relocations_perm (o : Outline) :
    o.relocations.Perm (o.settled.map (·.relocation) ++ o.opened) := by
  induction o with
  | done => exact .refl _
  | label name address rest ih => exact ih
  | globals names line rest ih => exact ih
  | piece address location p rest ih =>
    exact (ih.append_left _).trans (List.perm_append_comm_assoc ..)
  | expansion body rest hb hr =>
    have hc := settle_append_unsettled_perm body.labels body.opened
    have ho := (hb.trans (hc.append_left _)).append hr
    simp only [relocations, settled, opened, List.map_append]
    refine ho.trans ?_
    rw [List.append_assoc, List.append_assoc, List.append_assoc, List.append_assoc]
    exact ((List.perm_append_comm_assoc ..).append_left _).append_left _

/-- The patches that a block makes, its own at the end. -/
def Outline.closed (o : Outline) : List Patch :=
  o.settled ++ settle o.labels o.opened

/-- The relocations that a block leaves to what is around it. -/
def Outline.deferred (o : Outline) : List Relocation :=
  unsettled o.labels o.opened

theorem Outline.relocations_perm_closed (o : Outline) :
    o.relocations.Perm (o.closed.map (·.relocation) ++ o.deferred) := by
  have hc := settle_append_unsettled_perm o.labels o.opened
  unfold closed deferred
  rw [List.map_append, List.append_assoc]
  exact o.relocations_perm.trans (hc.append_left _)

theorem Outline.mem_relocations_of_closed {o : Outline} {p : Patch} (h : p ∈ o.closed) :
    p.relocation ∈ o.relocations :=
  o.relocations_perm_closed.mem_iff.mpr
    (List.mem_append_left _ (List.mem_map_of_mem h))

/-- What laying out a script gives. -/
structure Layout where
  outline : Outline
  mode : Mode
  image : Image

/-- Places the pieces of a script without patching any. -/
def Script.lay : Script → Image → Option Layout
  | done mode, i => some ⟨.done, mode, i⟩
  | failed _, _ => none
  | label place name rest, i =>
    (rest.lay i).map fun l => { l with outline := .label name (i.cursor place) l.outline }
  | globals names line rest, i =>
    (rest.lay i).map fun l => { l with outline := .globals names line l.outline }
  | piece place location p rest, i =>
    (p.put place i).toOption.bind fun j =>
      (rest.lay j).map fun l =>
        { l with outline := .piece (i.cursor place) location p l.outline }
  | expansion _ body rest, i =>
    (body.lay i).bind fun b =>
      (rest.lay b.image).map fun l => { l with outline := .expansion b.outline l.outline }

namespace Script

/-- Induction over a script that has been laid out. -/
@[elab_as_elim]
theorem lay_induction
    {motive : ∀ (x : Script) (i : Image) (l : Layout), x.lay i = some l → Prop}
    (done : ∀ mode i, motive (.done mode) i ⟨.done, mode, i⟩ rfl)
    (label : ∀ place name rest i l (h : rest.lay i = some l), motive rest i l h →
      motive (.label place name rest) i
        { l with outline := .label name (i.cursor place) l.outline } (by rw [lay, h]; rfl))
    (globals : ∀ names line rest i l (h : rest.lay i = some l), motive rest i l h →
      motive (.globals names line rest) i
        { l with outline := .globals names line l.outline } (by rw [lay, h]; rfl))
    (piece : ∀ place location p rest i j l (hp : p.put place i = .ok j)
      (h : rest.lay j = some l), motive rest j l h →
      motive (.piece place location p rest) i
        { l with outline := .piece (i.cursor place) location p l.outline }
        (by rw [lay, hp, toOption_ok, Option.bind_some, h]; rfl))
    (expansion : ∀ call body rest i b l (hb : body.lay i = some b)
      (h : rest.lay b.image = some l), motive body i b hb → motive rest b.image l h →
      motive (.expansion call body rest) i
        { l with outline := .expansion b.outline l.outline }
        (by rw [lay, hb, Option.bind_some, h]; rfl))
    {x : Script} {i : Image} {l : Layout} (h : x.lay i = some l) : motive x i l h := by
  induction x generalizing i l with
  | done mode =>
    cases h
    exact done mode i
  | failed error => cases h
  | label place name rest ih =>
    obtain ⟨l, hl, rfl⟩ := Option.map_eq_some_iff.mp h
    exact label _ _ _ _ _ hl (ih hl)
  | globals names line rest ih =>
    obtain ⟨l, hl, rfl⟩ := Option.map_eq_some_iff.mp h
    exact globals _ _ _ _ _ hl (ih hl)
  | piece place location p rest ih =>
    obtain ⟨j, hj, hr⟩ := Option.bind_eq_some_iff.mp h
    obtain ⟨l, hl, rfl⟩ := Option.map_eq_some_iff.mp hr
    exact piece _ _ _ _ _ _ _ ((toOption_eq_some_iff _ _).mp hj) hl (ih hl)
  | expansion call body rest ihb ihr =>
    obtain ⟨b, hb, hr⟩ := Option.bind_eq_some_iff.mp h
    obtain ⟨l, hl, rfl⟩ := Option.map_eq_some_iff.mp hr
    exact expansion _ _ _ _ _ _ hb hl (ihb hb) (ihr hl)

theorem extension_lay {x : Script} {i : Image} {l : Layout} (h : x.lay i = some l) :
    Extension i l.image l.outline.relocations := by
  induction h using lay_induction with
  | done mode i => exact .refl i
  | label place name rest i l _ ih => exact ih
  | globals names line rest i l _ ih => exact ih
  | piece place location p rest i j l hp _ ih => exact (Piece.extension_put location hp).trans ih
  | expansion call body rest i b l _ _ ihb ihr => exact ihb.trans ihr

/-- The state that a block leaves, its image apart. -/
def after (s : State) (l : Layout) (image : Image) : State where
  toMode := l.mode
  image
  globals := s.globals ++ l.outline.declared
  labels := l.outline.labels ++ s.labels
  relocations := s.relocations ++ l.outline.opened

/-- Closing a scope settles what its labels settle. -/
theorem toOption_inScope (x : Script) (s : State) (i : Image) :
    (inScope x.run { s with image := i }).toOption =
      (x.run { s with image := i, labels := [], relocations := #[] }).toOption.bind fun inner =>
        (inner.image.patched (settle inner.labels inner.relocations.toList)).map fun j =>
          { inner with
            toMode := s.toMode
            image := j
            labels := s.labels
            relocations := s.relocations ++ unsettled inner.labels inner.relocations.toList } := by
  unfold inScope
  rw [toOption_bind]
  refine Option.bind_congr fun inner _ => ?_
  rw [toOption_bind, toOption_resolve]
  unfold Image.patched
  rw [Option.bind_map, Option.map_map, Option.map_eq_bind]
  rfl

section
variable {i : Image} {ps : List Patch}

private theorem run_label (s : State) (place : Place) (name : String) (rest : Script) :
    ((i.patched ps).bind fun j => ((label place name rest).run { s with image := j }).toOption) =
      (i.patched ps).bind fun j =>
        (rest.run { s with image := j, labels := (name, i.cursor place) :: s.labels }).toOption := by
  refine Option.bind_congr fun j hj => ?_
  rw [← Image.cursor_of_patched hj place]
  rfl

private theorem run_piece (s : State) (place : Place) (location : Location) (p : Piece)
    (rest : Script) (h : ∀ p ∈ ps, i.Inside p.relocation.address p.relocation.kind.size) :
    ((i.patched ps).bind fun j =>
        ((piece place location p rest).run { s with image := j }).toOption) =
      (p.put place i).toOption.bind fun i' => (i'.patched ps).bind fun j =>
        (rest.run { s with
          image := j
          relocations := s.relocations ++ p.relocations location (i.cursor place) }).toOption := by
  rw [← Option.bind_assoc, ← Piece.put_patched h, Option.bind_assoc]
  refine Option.bind_congr fun j hj => ?_
  rw [← Image.cursor_of_patched hj place]
  simp only [run, toOption_bind, toOption_located, State.add]
  rw [Option.bind_assoc]
  rfl

private theorem run_expansion (s : State) (call : Option Location) (body rest : Script) :
    ((i.patched ps).bind fun j =>
        ((expansion call body rest).run { s with image := j }).toOption) =
      ((i.patched ps).bind fun j =>
        (body.run { s with image := j, labels := [], relocations := #[] }).toOption).bind
          fun inner =>
            (inner.image.patched (settle inner.labels inner.relocations.toList)).bind fun j =>
              (rest.run { inner with
                toMode := s.toMode
                image := j
                labels := s.labels
                relocations :=
                  s.relocations ++ unsettled inner.labels inner.relocations.toList }).toOption := by
  rw [Option.bind_assoc]
  refine Option.bind_congr fun j _ => ?_
  simp only [run, toOption_bind, toOption_within]
  rw [toOption_inScope, Option.bind_assoc]
  refine Option.bind_congr fun inner _ => ?_
  rw [Option.bind_map]
  rfl

end

theorem after_label (s : State) (name : String) (address : UInt32) (l : Layout) :
    after { s with labels := (name, address) :: s.labels } l =
      after s { l with outline := .label name address l.outline } := by
  funext image
  simp [after, Outline.declared, Outline.labels, Outline.opened]

theorem after_globals (s : State) (names : List String) (line : Nat) (l : Layout) :
    after { s with globals := s.globals ++ names.map (·, line) } l =
      after s { l with outline := .globals names line l.outline } := by
  funext image
  simp [after, Outline.declared, Outline.labels, Outline.opened, append_list_assoc]

theorem after_piece (s : State) (address : UInt32) (location : Location) (p : Piece)
    (l : Layout) :
    after { s with relocations := s.relocations ++ p.relocations location address } l =
      after s { l with outline := .piece address location p l.outline } := by
  funext image
  simp [after, Outline.declared, Outline.labels, Outline.opened, append_list_assoc]

theorem after_expansion (s : State) (body : Outline) (l : Layout) :
    after { s with
        globals := s.globals ++ body.declared
        relocations := s.relocations ++ unsettled body.labels body.opened } l =
      after s { l with outline := .expansion body l.outline } := by
  funext image
  simp [after, Outline.declared, Outline.labels, Outline.opened, append_list_assoc]

/-- Running a script in a patched image is laying it out in the image and patching it afterwards. -/
theorem run_eq_lay (x : Script) (s : State) {i : Image} {ps : List Patch}
    (h : ∀ p ∈ ps, i.Inside p.relocation.address p.relocation.kind.size) :
    ((i.patched ps).bind fun j => (x.run { s with image := j }).toOption) =
      (x.lay i).bind fun l =>
        (l.image.patched (ps ++ l.outline.settled)).map (after s l) := by
  induction x generalizing s i ps with
  | done mode =>
    simp only [lay, Option.bind_some, Outline.settled, List.append_nil]
    rw [Option.map_eq_bind]
    refine Option.bind_congr fun j _ => ?_
    simp [run, after, Outline.declared, Outline.labels, Outline.opened]
  | failed error => cases i.patched ps <;> rfl
  | label place name rest ih =>
    rw [run_label, ih { s with labels := (name, i.cursor place) :: s.labels } h, lay,
      Option.bind_map]
    refine Option.bind_congr fun l _ => ?_
    rw [after_label]
    rfl
  | globals names line rest ih =>
    rw [lay, Option.bind_map]
    refine (ih (s.declare names line) h).trans (Option.bind_congr fun l _ => ?_)
    rw [State.declare, after_globals]
    rfl
  | piece place location p rest ih =>
    rw [run_piece s place location p rest h, lay, Option.bind_assoc]
    refine Option.bind_congr fun i' hi' => ?_
    rw [toOption_eq_some_iff] at hi'
    have hg := (Piece.extension_put location hi').grows
    rw [Option.bind_map,
      ih { s with relocations := s.relocations ++ p.relocations location (i.cursor place) }
        fun q hq => (h q hq).mono hg]
    refine Option.bind_congr fun l _ => ?_
    rw [after_piece]
    rfl
  | expansion call body rest ihb ihr =>
    rw [run_expansion, ihb { s with labels := [], relocations := #[] } h, lay, Option.bind_assoc,
      Option.bind_assoc]
    refine Option.bind_congr fun b hb => ?_
    have hx := extension_lay hb
    have hin : ∀ p ∈ ps ++ b.outline.settled ++ settle b.outline.labels b.outline.opened,
        b.image.Inside p.relocation.address p.relocation.kind.size := by
      intro p hp
      rw [List.append_assoc] at hp
      rcases List.mem_append.mp hp with hp | hp
      · exact (h p hp).mono hx.grows
      · exact hx.inside _ (Outline.mem_relocations_of_closed hp)
    have hr := ihr { s with
      globals := s.globals ++ b.outline.declared
      relocations := s.relocations ++ unsettled b.outline.labels b.outline.opened } hin
    rw [Image.patched_append, Option.bind_assoc] at hr
    rw [Option.bind_map, Option.bind_map]
    simp only [Function.comp_def, after, List.append_nil, Array.toList_appendList,
      List.nil_append]
    refine hr.trans (Option.bind_congr fun l _ => ?_)
    rw [after_expansion]
    simp [Outline.settled]

end Script

end RiscvToolkit.Assembly
