import RiscvToolkit.Proofs.Assembly.Resolution

/-! Parts of a file. Where every label is exported by the part that defines it, and none is defined twice, it makes
no difference whether the parts are one file or several. -/
namespace RiscvToolkit.Assembly

def Relocation.bare (r : Relocation) : Relocation :=
  { r with location := ⟨0, ""⟩ }

namespace Outline

/-- An outline without locations. -/
def bare : Outline → Outline
  | done => done
  | label name address rest => label name address rest.bare
  | globals names _ rest => globals names 0 rest.bare
  | piece address _ p rest => piece address ⟨0, ""⟩ p rest.bare
  | expansion body rest => expansion body.bare rest.bare

/-- The outline of a block cut in two. -/
def append : Outline → Outline → Outline
  | done, o => o
  | label name address rest, o => label name address (rest.append o)
  | globals names line rest, o => globals names line (rest.append o)
  | piece address location p rest, o => piece address location p (rest.append o)
  | expansion body rest, o => expansion body (rest.append o)

theorem labels_append (a b : Outline) : (a.append b).labels = b.labels ++ a.labels := by
  induction a with
  | done => exact (List.append_nil _).symm
  | label name address rest ih => simp [append, labels, ih]
  | globals names line rest ih => exact ih
  | piece address location p rest ih => exact ih
  | expansion body rest _ ih => exact ih

theorem declared_append (a b : Outline) : (a.append b).declared = a.declared ++ b.declared := by
  induction a with
  | done => rfl
  | label name address rest ih => exact ih
  | globals names line rest ih => simp [append, declared, ih]
  | piece address location p rest ih => exact ih
  | expansion body rest _ ih => simp [append, declared, ih]

theorem choices_append (scopes : List Scope) (a b : Outline) :
    (a.append b).choices scopes = a.choices scopes ++ b.choices scopes := by
  induction a with
  | done => rfl
  | label name address rest ih => exact ih
  | globals names line rest ih => exact ih
  | piece address location p rest ih => simp [append, choices, ih]
  | expansion body rest _ ih => simp [append, choices, ih]

theorem bare_append (a b : Outline) : (a.append b).bare = a.bare.append b.bare := by
  induction a with
  | done => rfl
  | label name address rest ih => simp [append, bare, ih]
  | globals names line rest ih => simp [append, bare, ih]
  | piece address location p rest ih => simp [append, bare, ih]
  | expansion body rest _ ih => simp [append, bare, ih]

theorem labels_bare (o : Outline) : o.bare.labels = o.labels := by
  induction o with
  | done => rfl
  | label name address rest ih => simp [bare, labels, ih]
  | globals names line rest ih => exact ih
  | piece address location p rest ih => exact ih
  | expansion body rest _ ih => exact ih

theorem names_bare (o : Outline) :
    o.bare.declared.map Prod.fst = o.declared.map Prod.fst := by
  induction o with
  | done => rfl
  | label name address rest ih => exact ih
  | globals names line rest ih => simp [bare, declared, ih, Function.comp_def]
  | piece address location p rest ih => exact ih
  | expansion body rest hb hr => simp [bare, declared, hb, hr]

private theorem linksFrom_bare (location : Location) (address : UInt32) (words : List Emission) :
    linksFrom ⟨0, ""⟩ address words = (linksFrom location address words).map Relocation.bare := by
  induction words generalizing address with
  | nil => rfl
  | cons e rest ih =>
    unfold linksFrom
    rw [ih, List.map_append]
    cases hl : e.link <;> simp [Emission.relocation?, hl, Relocation.bare]

private theorem relocations_bare (location : Location) (address : UInt32) (p : Piece) :
    p.relocations ⟨0, ""⟩ address = (p.relocations location address).map Relocation.bare := by
  cases p with
  | code words => exact linksFrom_bare location address words
  | datum stored => cases stored <;> rfl

theorem choices_bare (scopes : List Scope) (o : Outline) :
    o.bare.choices scopes = (o.choices scopes).map fun c => (c.1.bare, c.2) := by
  induction o generalizing scopes with
  | done => rfl
  | label name address rest ih => exact ih scopes
  | globals names line rest ih => exact ih scopes
  | piece address location p rest ih =>
    simp [bare, choices, ih, relocations_bare location, Function.comp_def, Relocation.bare]
  | expansion body rest hb hr => simp [bare, choices, hb, hr, labels_bare]

/-- Scopes that give every name one meaning make the same choices. -/
theorem choices_congr {ss ts : List Scope} (h : ∀ name, choose ss name = choose ts name)
    (o : Outline) : o.choices ss = o.choices ts := by
  induction o generalizing ss ts with
  | done => rfl
  | label name address rest ih => exact ih h
  | globals names line rest ih => exact ih h
  | piece address location p rest ih => simp [choices, ih h, h]
  | expansion body rest hb hr =>
    have hc (name : String) :
        choose (body.labels.scope :: ss) name = choose (body.labels.scope :: ts) name := by
      unfold choose at h ⊢
      rw [List.findSome?_cons, List.findSome?_cons, h]
    simp [choices, hb hc, hr h]

theorem exported_of_declared {o : Outline}
    (h : ∀ e ∈ o.labels, e.1 ∈ o.declared.map Prod.fst) : o.exported = o.labels.scope := by
  funext name
  unfold exported
  split_ifs with hn
  · rfl
  · cases hl : o.labels.lookup name with
    | none => exact hl.symm
    | some address =>
      obtain ⟨l₁, l₂, he, -⟩ := List.lookup_eq_some_iff.mp hl
      exact absurd (h (name, address) (he ▸ List.mem_append_right _ List.mem_cons_self)) hn

end Outline

/-- True of a file cut into parts that export the labels that they define. -/
structure Parts (o a b : Outline) : Prop where
  bare : o.bare = a.bare.append b.bare
  nodup : (o.labels.map Prod.fst).Nodup
  left : ∀ e ∈ a.labels, e.1 ∈ a.declared.map Prod.fst
  right : ∀ e ∈ b.labels, e.1 ∈ b.declared.map Prod.fst

theorem choose_twice (scope : Scope) (name : String) : choose [scope, scope] name = scope name := by
  unfold choose
  cases h : scope name <;> simp [h]

namespace Parts
open Outline
variable {o a b : Outline} (h : Parts o a b)
include h

theorem labels : o.labels = b.labels ++ a.labels := by
  rw [← o.labels_bare, h.bare, labels_append, labels_bare, labels_bare]

theorem names : o.declared.map Prod.fst = a.declared.map Prod.fst ++ b.declared.map Prod.fst := by
  rw [← o.names_bare, h.bare, declared_append, List.map_append, names_bare, names_bare]

theorem exported_whole : exported [o] = o.labels.scope := by
  have ho : ∀ e ∈ o.labels, e.1 ∈ o.declared.map Prod.fst := by
    intro e he
    rw [h.names]
    rw [h.labels] at he
    rcases List.mem_append.mp he with he | he
    · exact List.mem_append_right _ (h.right e he)
    · exact List.mem_append_left _ (h.left e he)
  rw [← exported_of_declared ho]
  funext name
  simp [exported, choose]

theorem exported_parts : exported [a, b] = o.labels.scope := by
  funext name
  unfold Symbols.scope
  rw [h.labels, List.lookup_append]
  have hc : exported [a, b] name = (b.exported name).or (a.exported name) := by
    unfold exported choose
    cases hb : b.exported name <;> simp [hb]
  rw [hc, exported_of_declared h.left, exported_of_declared h.right]
  rfl

/-- Below its own labels, the labels of a whole file are as good as those of a part. -/
theorem choose_left (name : String) :
    choose [a.labels.scope, o.labels.scope] name = o.labels.scope name := by
  unfold choose Symbols.scope
  rw [h.labels]
  cases ha : a.labels.lookup name with
  | none => simp [ha]
  | some address =>
    have hn : b.labels.lookup name = none := by
      have hd := h.nodup
      rw [h.labels, List.map_append, List.nodup_append] at hd
      obtain ⟨l₁, l₂, he, -⟩ := List.lookup_eq_some_iff.mp ha
      refine List.lookup_eq_none_iff.mpr fun e hm => ?_
      have hne := hd.2.2 e.1 (List.mem_map_of_mem hm) name
        (List.mem_map.mpr ⟨(name, address), he ▸ List.mem_append_right _ List.mem_cons_self, rfl⟩)
      exact bne_iff_ne.mpr (Ne.symm hne)
    simp [List.lookup_append, ha, hn]

theorem choose_right (name : String) :
    choose [b.labels.scope, o.labels.scope] name = o.labels.scope name := by
  unfold choose Symbols.scope
  rw [h.labels]
  cases hb : b.labels.lookup name <;> simp [List.lookup_append, hb]

/-- The parts choose for every label what the whole file does. -/
theorem choices :
    (choicesOf [o]).map (fun c => (c.1.bare, c.2)) =
      (choicesOf [a, b]).map fun c => (c.1.bare, c.2) := by
  unfold choicesOf
  rw [h.exported_whole, h.exported_parts]
  simp only [List.flatMap_cons, List.flatMap_nil, List.append_nil, List.map_append,
    ← choices_bare]
  rw [h.bare, choices_append]
  congr 1
  · exact choices_congr (fun name => (choose_twice _ name).trans (h.choose_left name).symm) _
  · exact choices_congr (fun name => (choose_twice _ name).trans (h.choose_right name).symm) _

end Parts

def Patch.bare (p : Patch) : Patch :=
  ⟨p.relocation.bare, p.target⟩

theorem applyAll_bare (ps : List Patch) (m : Memory) :
    Patch.applyAll (ps.map Patch.bare) m = Patch.applyAll ps m := by
  induction ps generalizing m with
  | nil => rfl
  | cons p rest ih =>
    simp only [List.map_cons, Patch.applyAll]
    exact Option.bind_congr fun m _ => ih m

theorem patchesOf_bare (os : List Outline) :
    (patchesOf os).map Patch.bare =
      ((choicesOf os).map fun c => (c.1.bare, c.2)).filterMap fun (r, target) =>
        target.map (Patch.mk r) := by
  unfold patchesOf
  rw [List.map_filterMap, List.filterMap_map]
  refine List.filterMap_congr fun c _ => ?_
  rw [Option.map_map]
  rfl

/-- What is linked depends on the names that are declared and on the choices, not on locations. -/
theorem Linked.congr {os ps : List Outline} {laid : Image} {p : Program} (hl : Linked os laid p)
    (he : exported os = exported ps)
    (hn : os.flatMap (·.declared.map Prod.fst) = ps.flatMap (·.declared.map Prod.fst))
    (hc : (choicesOf os).map (fun c => (c.1.bare, c.2)) =
      (choicesOf ps).map fun c => (c.1.bare, c.2)) :
    Linked ps laid { p with globals := Outline.allExports ps } where
  declared := by
    intro o ho d hd
    have hm : d.1 ∈ os.flatMap (·.declared.map Prod.fst) := by
      rw [hn]
      exact List.mem_flatMap.mpr ⟨o, ho, List.mem_map_of_mem hd⟩
    obtain ⟨o', ho', hd'⟩ := List.mem_flatMap.mp hm
    obtain ⟨d', hd', h⟩ := List.mem_map.mp hd'
    rw [← he, ← h]
    exact hl.declared o' ho' d' hd'
  chosen := by
    intro c hm
    have hb := List.mem_map_of_mem (f := fun c : Relocation × Option UInt32 => (c.1.bare, c.2)) hm
    rw [← hc] at hb
    obtain ⟨c', hm', h⟩ := List.mem_map.mp hb
    rw [← (Prod.mk.inj h).2]
    exact hl.chosen c' hm'
  memory := by
    rw [← applyAll_bare, patchesOf_bare, ← hc, ← patchesOf_bare, applyAll_bare]
    exact hl.memory
  entry := he ▸ hl.entry
  textSize := hl.textSize
  dataSize := hl.dataSize
  globals := rfl

namespace Parts
variable {o a b : Outline} (h : Parts o a b) {laid : Image} {p q : Program}
include h

theorem linked_parts (hl : Linked [o] laid p) :
    Linked [a, b] laid { p with globals := Outline.allExports [a, b] } :=
  hl.congr (h.exported_whole.trans h.exported_parts.symm) (by simp [h.names]) h.choices

theorem linked_whole (hl : Linked [a, b] laid p) :
    Linked [o] laid { p with globals := Outline.allExports [o] } :=
  hl.congr (h.exported_parts.trans h.exported_whole.symm) (by simp [h.names]) h.choices.symm

theorem symbol?_eq (hp : p.globals = Outline.allExports [o])
    (hq : q.globals = Outline.allExports [a, b]) (name : String) :
    p.symbol? name = q.symbol? name := by
  unfold Program.symbol?
  rw [hp, hq, lookup_allExports, lookup_allExports, h.exported_whole, h.exported_parts]

end Parts

end RiscvToolkit.Assembly
