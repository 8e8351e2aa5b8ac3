import RiscvToolkit.Proofs.Assembly.Parts

/-! Files that assemble alike. Where one file is laid out to the image of another, with the same labels, the same
declared names and the same choices, it can stand in its place. -/
namespace RiscvToolkit.Assembly

namespace Outline

/-- True of outlines that bind, declare and choose the same, whatever expansions and locations they have. -/
structure Agrees (a b : Outline) : Prop where
  labels : a.labels = b.labels
  names : a.declared.map Prod.fst = b.declared.map Prod.fst
  choices : ∀ scopes, (a.choices scopes).map (fun c => (c.1.bare, c.2)) =
    (b.choices scopes).map fun c => (c.1.bare, c.2)

theorem Agrees.refl (o : Outline) : o.Agrees o :=
  ⟨rfl, rfl, fun _ => rfl⟩

theorem Agrees.of_bare {a b : Outline} (h : a.bare = b.bare) : a.Agrees b where
  labels := by rw [← a.labels_bare, h, b.labels_bare]
  names := by rw [← a.names_bare, h, b.names_bare]
  choices scopes := by rw [← a.choices_bare, h, b.choices_bare]

theorem Agrees.trans {a b c : Outline} (h : a.Agrees b) (h' : b.Agrees c) : a.Agrees c where
  labels := h.labels.trans h'.labels
  names := h.names.trans h'.names
  choices scopes := (h.choices scopes).trans (h'.choices scopes)

theorem Agrees.append {a b c d : Outline} (h : a.Agrees b) (h' : c.Agrees d) :
    (a.append c).Agrees (b.append d) where
  labels := by rw [labels_append, labels_append, h.labels, h'.labels]
  names := by
    rw [declared_append, declared_append, List.map_append, List.map_append, h.names, h'.names]
  choices scopes := by
    rw [choices_append, choices_append, List.map_append, List.map_append, h.choices, h'.choices]

/-- A scope of its own makes no difference to a body without labels. -/
theorem agrees_expansion {body : Outline} (h : body.labels = []) :
    (expansion body done).Agrees body where
  labels := h.symm
  names := by simp [declared]
  choices scopes := by
    have hc (name : String) : choose (body.labels.scope :: scopes) name = choose scopes name := by
      rw [h]
      rfl
    simp only [choices, List.append_nil]
    rw [choices_congr hc]

theorem Agrees.exports {a b : Outline} (h : a.Agrees b) : a.exports = b.exports := by
  have hnames (o : Outline) : o.exports =
      ((o.declared.map Prod.fst).filterMap fun name =>
        (o.labels.lookup name).map (name, ·)).reverse := by
    unfold Outline.exports
    rw [List.filterMap_map]
    rfl
  rw [hnames, hnames, h.labels, h.names]

end Outline

section
variable {os ps : List Outline} (h : List.Forall₂ Outline.Agrees os ps)
include h

theorem allExports_agrees : Outline.allExports os = Outline.allExports ps := by
  induction h with
  | nil => rfl
  | cons h _ ih => rw [Outline.allExports_cons, Outline.allExports_cons, ih, h.exports]

theorem exported_agrees : exported os = exported ps := by
  funext name
  rw [← lookup_allExports, ← lookup_allExports, allExports_agrees h]

theorem flatMap_agrees {β : Type} {f : Outline → List β}
    (hf : ∀ a b : Outline, a.Agrees b → f a = f b) : os.flatMap f = ps.flatMap f := by
  induction h with
  | nil => rfl
  | cons h _ ih => rw [List.flatMap_cons, List.flatMap_cons, hf _ _ h, ih]

theorem linked_agrees {laid : Image} {p : Program} (hl : Linked os laid p) :
    Linked ps laid p := by
  have hnames : os.flatMap (·.declared.map Prod.fst) = ps.flatMap (·.declared.map Prod.fst) :=
    flatMap_agrees h fun _ _ hab => hab.names
  have hchoices : (choicesOf os).map (fun c => (c.1.bare, c.2)) =
      (choicesOf ps).map fun c => (c.1.bare, c.2) := by
    unfold choicesOf
    rw [exported_agrees h, List.map_flatMap, List.map_flatMap]
    refine flatMap_agrees h fun a b hab => ?_
    rw [hab.labels]
    exact hab.choices _
  have hp : p = { p with globals := Outline.allExports ps } := by
    rw [← allExports_agrees h, ← hl.globals]
  rw [hp]
  exact hl.congr (exported_agrees h) hnames hchoices

end

/-- True of files of which the second is laid out to the image of the first wherever that can be laid out. -/
def LaysLike (catalog : Catalog) (file other : Source.File) : Prop :=
  ∀ i l, (Script.ofFile catalog file).lay i = some l →
    ∃ l', (Script.ofFile catalog other).lay i = some l' ∧ l'.image = l.image ∧
      l.outline.Agrees l'.outline

theorem LaysLike.refl (catalog : Catalog) (file : Source.File) : LaysLike catalog file file :=
  fun _ l hl => ⟨l, hl, rfl, .refl _⟩

theorem layAll_agrees {catalog : Catalog} {fs gs : List Source.File}
    (h : List.Forall₂ (LaysLike catalog) fs gs) {i laid : Image} {os : List Outline}
    (hl : Linkage.layAll catalog fs i = some (os, laid)) :
    ∃ ps, Linkage.layAll catalog gs i = some (ps, laid) ∧ List.Forall₂ Outline.Agrees os ps := by
  induction hl using Linkage.layAll_induction generalizing gs with
  | nil i =>
    cases h
    exact ⟨[], rfl, .nil⟩
  | cons file files i j y os hy _ ih =>
    obtain ⟨other, rest, hfile, hrest, rfl⟩ := List.forall₂_cons_left_iff.mp h
    obtain ⟨y', hy', himage, hagrees⟩ := hfile i y hy
    obtain ⟨ps, hps, hall⟩ := ih hrest
    refine ⟨y'.outline :: ps, ?_, .cons hagrees hall⟩
    rw [Linkage.layAll, hy', Option.bind_some, himage, hps]
    rfl

/-- Files that are laid out alike assemble to the same program. -/
theorem assemble_of_laysLike {catalog : Catalog} {fs gs : List Source.File}
    (h : List.Forall₂ (LaysLike catalog) fs gs) {stackSize : Nat} {p : Program}
    (hp : assemble catalog stackSize fs = .ok p) : assemble catalog stackSize gs = .ok p := by
  rw [assemble_eq_ok_iff] at hp ⊢
  obtain ⟨os, laid, hl, hlinked⟩ := hp
  obtain ⟨ps, hl', hall⟩ := layAll_agrees h hl
  exact ⟨ps, laid, hl', linked_agrees hall hlinked⟩

end RiscvToolkit.Assembly
