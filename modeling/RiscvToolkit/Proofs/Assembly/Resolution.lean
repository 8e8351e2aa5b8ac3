import RiscvToolkit.Proofs.Assembly.Outline

/-! Resolution of labels. Relocations are handed from expansions to their callers, from files to the link; what
comes of it is that every label is looked up in the scopes around its use, the innermost first. -/
namespace RiscvToolkit.Assembly
open Image (Extension)
open Memory (Apart)

/-- What a name stands for in one place. -/
abbrev Scope := String → Option UInt32

def Symbols.scope (labels : Symbols) : Scope := fun name => labels.lookup name

/-- What a name stands for in the innermost of some scopes that knows it. -/
def choose (scopes : List Scope) (name : String) : Option UInt32 :=
  scopes.findSome? (· name)

namespace Outline

/-- Every relocation of a block in order of its place in the source, with the address that its label has
there. `scopes` are those around the block and its own. -/
def choices (scopes : List Scope) : Outline → List (Relocation × Option UInt32)
  | done => []
  | label _ _ rest | globals _ _ rest => rest.choices scopes
  | piece address location p rest =>
    (p.relocations location address).map (fun r => (r, choose scopes r.label)) ++
      rest.choices scopes
  | expansion body rest => body.choices (body.labels.scope :: scopes) ++ rest.choices scopes

theorem map_fst_choices (scopes : List Scope) (o : Outline) :
    (o.choices scopes).map Prod.fst = o.relocations := by
  induction o generalizing scopes with
  | done => rfl
  | label name address rest ih => exact ih scopes
  | globals names line rest ih => exact ih scopes
  | piece address location p rest ih => simp [choices, relocations, ih, Function.comp_def]
  | expansion body rest hb hr => simp [choices, relocations, hb, hr]


private def made (p : Patch) : Relocation × Option UInt32 :=
  (p.relocation, some p.target)

private theorem map_choose_perm (labels : Symbols) (scopes : List Scope) (rs : List Relocation) :
    (rs.map fun r => (r, choose (labels.scope :: scopes) r.label)).Perm
      ((settle labels rs).map made ++
        (unsettled labels rs).map fun r => (r, choose scopes r.label)) := by
  induction rs with
  | nil => exact .refl _
  | cons r rest ih =>
    cases hl : labels.lookup r.label with
    | none =>
      have hc : choose (labels.scope :: scopes) r.label = choose scopes r.label := by
        simp [choose, Symbols.scope, hl]
      rw [settle_cons_of_none hl, unsettled_cons_of_none hl, List.map_cons, List.map_cons, hc]
      exact (ih.cons _).trans List.perm_middle.symm
    | some target =>
      have hc : choose (labels.scope :: scopes) r.label = some target := by
        simp [choose, Symbols.scope, hl]
      rw [settle_cons_of_some hl, unsettled_cons_of_some hl, List.map_cons, List.map_cons, hc]
      exact ih.cons _

/-- Handing relocations up comes to looking every label up where it is used. -/
theorem choices_perm (scopes : List Scope) (o : Outline) :
    (o.choices scopes).Perm
      (o.settled.map made ++ o.opened.map fun r => (r, choose scopes r.label)) := by
  induction o generalizing scopes with
  | done => exact .refl _
  | label name address rest ih => exact ih scopes
  | globals names line rest ih => exact ih scopes
  | piece address location p rest ih =>
    simp only [choices, settled, opened, List.map_append]
    exact ((ih scopes).append_left _).trans (List.perm_append_comm_assoc ..)
  | expansion body rest hb hr =>
    have hc := map_choose_perm body.labels scopes body.opened
    have ho := ((hb (body.labels.scope :: scopes)).trans (hc.append_left _)).append (hr scopes)
    simp only [choices, settled, opened, List.map_append]
    refine ho.trans ?_
    rw [List.append_assoc, List.append_assoc, List.append_assoc, List.append_assoc]
    exact ((List.perm_append_comm_assoc ..).append_left _).append_left _

theorem choices_perm_closed (scopes : List Scope) (o : Outline) :
    (o.choices (o.labels.scope :: scopes)).Perm
      (o.closed.map made ++ o.deferred.map fun r => (r, choose scopes r.label)) := by
  have hc := map_choose_perm o.labels scopes o.opened
  unfold closed deferred
  rw [List.map_append, List.append_assoc]
  exact (o.choices_perm _).trans (hc.append_left _)

/-- The labels that a file exports, the latest declaration first. -/
def exports (o : Outline) : Symbols :=
  (o.declared.filterMap fun d => (o.labels.lookup d.1).map (d.1, ·)).reverse

/-- The names that a file declares and does not define. -/
def pending (file : String) (o : Outline) : List (String × Location) :=
  (o.declared.filter fun d => (o.labels.lookup d.1).isNone).map fun d => (d.1, ⟨d.2, file⟩)

/-- The exports of files, those of the last file first. -/
def allExports (os : List Outline) : Symbols :=
  os.reverse.flatMap exports

theorem allExports_cons (o : Outline) (os : List Outline) :
    allExports (o :: os) = allExports os ++ o.exports := by
  simp [allExports]

end Outline

namespace Linkage

/-- What a file adds to the linkage, the image apart. -/
def after (l : Linkage) (file : String) (o : Outline) (image : Image) : Linkage where
  image
  globals := o.exports ++ l.globals
  pending := l.pending ++ o.pending file
  deferred := l.deferred ++ o.deferred

theorem exports_eq (file : String) (labels : Symbols) (declared : List (String × Nat))
    (l : Linkage) :
    exports file labels declared l = { l with
      globals := (declared.filterMap fun d => (labels.lookup d.1).map (d.1, ·)).reverse ++ l.globals
      pending := l.pending ++ (declared.filter fun d => (labels.lookup d.1).isNone).map
        fun d => (d.1, (⟨d.2, file⟩ : Location)) } := by
  induction declared generalizing l with
  | nil => simp [exports]
  | cons d rest ih =>
    obtain ⟨name, line⟩ := d
    unfold exports
    cases hl : labels.lookup name <;> simp [ih, hl]

/-- Assembling a file in a patched image is laying it out and patching the image afterwards. -/
theorem add_eq_lay (catalog : Catalog) (file : Source.File) (l : Linkage) {i : Image}
    {ps : List Patch} (h : ∀ p ∈ ps, i.Inside p.relocation.address p.relocation.kind.size) :
    ((i.patched ps).bind fun j => (add catalog file { l with image := j }).toOption) =
      ((Script.ofFile catalog file).lay i).bind fun y =>
        (y.image.patched (ps ++ y.outline.closed)).map (after l file.name y.outline) := by
  have hr := (Script.ofFile catalog file).run_eq_lay (.start i) h
  have ha (j : Image) : (add catalog file { l with image := j }).toOption =
      ((Script.ofFile catalog file).run (.start j)).toOption.bind fun s =>
        (s.image.patched (settle s.labels s.relocations.toList)).map fun k => {
          exports file.name s.labels s.globals.toList l with
          image := k
          deferred := l.deferred ++ unsettled s.labels s.relocations.toList } := by
    have hl : (Script.ofFile catalog file).run (.start j) =
        assembleLines catalog file.name (Source.linesOf catalog file.text) (.start j) :=
      Script.run_ofLines catalog file.name _ (.start j)
    unfold add
    rw [toOption_bind, hl]
    refine Option.bind_congr fun s _ => ?_
    rw [toOption_bind, toOption_resolve]
    unfold Image.patched
    rw [Option.bind_map, Option.map_map, Option.map_eq_bind, exports_eq, exports_eq]
    rfl
  simp only [ha]
  rw [← Option.bind_assoc]
  refine (congrArg (Option.bind · _) hr).trans ?_
  rw [Option.bind_assoc]
  refine Option.bind_congr fun y _ => ?_
  rw [Option.bind_map, Outline.closed, ← List.append_assoc, Image.patched_append _ (settle _ _),
    Option.map_bind]
  refine Option.bind_congr fun j _ => ?_
  simp only [Function.comp_def, Script.after, State.start, List.append_nil,
    Array.toList_appendList, List.nil_append, exports_eq]
  rfl

/-- Lays files out one behind the other. -/
def layAll (catalog : Catalog) : List Source.File → Image → Option (List Outline × Image)
  | [], i => some ([], i)
  | file :: rest, i =>
    ((Script.ofFile catalog file).lay i).bind fun y =>
      (layAll catalog rest y.image).map fun (os, j) => (y.outline :: os, j)

/-- Induction over files that have been laid out. -/
@[elab_as_elim]
theorem layAll_induction {catalog : Catalog}
    {motive : ∀ (files : List Source.File) (i j : Image) (os : List Outline),
      layAll catalog files i = some (os, j) → Prop}
    (nil : ∀ i, motive [] i i [] rfl)
    (cons : ∀ file files i j y os (hy : (Script.ofFile catalog file).lay i = some y)
      (h : layAll catalog files y.image = some (os, j)), motive files y.image j os h →
      motive (file :: files) i j (y.outline :: os)
        (by rw [layAll, hy, Option.bind_some, h]; rfl))
    {files : List Source.File} {i j : Image} {os : List Outline}
    (h : layAll catalog files i = some (os, j)) : motive files i j os h := by
  induction files generalizing i os with
  | nil =>
    cases h
    exact nil _
  | cons file rest ih =>
    obtain ⟨y, hy, hr⟩ := Option.bind_eq_some_iff.mp h
    obtain ⟨⟨os, k⟩, hk, he⟩ := Option.map_eq_some_iff.mp hr
    cases he
    exact cons _ _ _ _ _ _ hy hk (ih hk)

theorem extension_layAll {catalog : Catalog} {files : List Source.File} {i j : Image}
    {os : List Outline} (h : layAll catalog files i = some (os, j)) :
    Extension i j (os.flatMap Outline.relocations) := by
  induction h using layAll_induction with
  | nil i => exact .refl i
  | cons file files i j y os hy _ ih => exact (Script.extension_lay hy).trans ih

def afterAll (l : Linkage) (files : List Source.File) (os : List Outline) (image : Image) :
    Linkage where
  image
  globals := Outline.allExports os ++ l.globals
  pending := l.pending ++ (files.zip os).flatMap fun (file, o) => o.pending file.name
  deferred := l.deferred ++ os.flatMap Outline.deferred

theorem afterAll_cons (l : Linkage) (file : Source.File) (files : List Source.File)
    (o : Outline) (os : List Outline) (i : Image) :
    afterAll (after l file.name o i) files os = afterAll l (file :: files) (o :: os) := by
  funext image
  simp [after, afterAll, Outline.allExports_cons, append_list_assoc]

theorem addAll_eq_layAll (catalog : Catalog) (files : List Source.File) (l : Linkage) {i : Image}
    {ps : List Patch} (h : ∀ p ∈ ps, i.Inside p.relocation.address p.relocation.kind.size) :
    ((i.patched ps).bind fun j => (addAll catalog files { l with image := j }).toOption) =
      (layAll catalog files i).bind fun (os, k) =>
        (k.patched (ps ++ os.flatMap Outline.closed)).map (afterAll l files os) := by
  induction files generalizing l i ps with
  | nil =>
    simp only [layAll, Option.bind_some, List.flatMap_nil, List.append_nil]
    rw [Option.map_eq_bind]
    refine Option.bind_congr fun j _ => ?_
    simp [addAll, afterAll, Outline.allExports]
  | cons file rest ih =>
    simp only [addAll, toOption_bind]
    rw [← Option.bind_assoc, add_eq_lay catalog file l h, Option.bind_assoc, layAll,
      Option.bind_assoc]
    refine Option.bind_congr fun y hy => ?_
    have hx := Script.extension_lay hy
    have hin : ∀ p ∈ ps ++ y.outline.closed,
        y.image.Inside p.relocation.address p.relocation.kind.size := by
      intro p hp
      rcases List.mem_append.mp hp with hp | hp
      · exact (h p hp).mono hx.grows
      · exact hx.inside _ (Outline.mem_relocations_of_closed hp)
    have hi := ih (after l file.name y.outline i) hin
    rw [Option.bind_map, Option.bind_map]
    refine hi.trans (Option.bind_congr fun z _ => ?_)
    obtain ⟨os, k⟩ := z
    dsimp only [Function.comp_apply]
    rw [afterAll_cons, List.append_assoc]
    rfl

private theorem find?_eq_none_iff (globals : Symbols) (pending : List (String × Location)) :
    pending.find? (fun (name, _) => (globals.lookup name).isNone) = none ↔
      ∀ d ∈ pending, (globals.lookup d.1).isSome := by
  rw [List.find?_eq_none]
  simp

theorem link_eq_ok_iff (l : Linkage) (p : Program) :
    l.link = .ok p ↔
      (∀ d ∈ l.pending.toList, (l.globals.lookup d.1).isSome) ∧
        unsettled l.globals l.deferred.toList = [] ∧
        Patch.applyAll (settle l.globals l.deferred.toList) l.image.memory = some p.memory ∧
        p.entry = ((l.globals.lookup "main").getD (UInt32.ofNat textBase)).toUInt64 ∧
        p.textSize = l.image.textSize ∧ p.dataSize = l.image.dataSize ∧
        p.globals = l.globals := by
  have hr := toOption_resolve l.globals l.image.memory #[] l.deferred.toList
  unfold link
  cases hf : l.pending.toList.find? fun (name, _) => (l.globals.lookup name).isNone with
  | some d =>
    have hn : ¬∀ d ∈ l.pending.toList, (l.globals.lookup d.1).isSome := by
      rw [← find?_eq_none_iff, hf]
      exact Option.some_ne_none d
    exact ⟨fun h => (nomatch h), fun h => absurd h.1 hn⟩
  | none =>
    rw [find?_eq_none_iff] at hf
    dsimp only
    cases hm : resolve l.globals l.image.memory #[] l.deferred.toList with
    | error e =>
      rw [hm, toOption_error, eq_comm, Option.map_eq_none_iff] at hr
      rw [hr]
      exact ⟨fun h => (nomatch h), fun h => (nomatch h.2.2.1)⟩
    | ok resolved =>
      rw [hm, toOption_ok, eq_comm, Option.map_eq_some_iff] at hr
      obtain ⟨m, ha, rfl⟩ := hr
      rw [ok_bind, ha]
      dsimp only
      rw [Array.toList_appendList, List.nil_append]
      cases unsettled l.globals l.deferred.toList with
      | cons r rest => exact ⟨fun h => (nomatch h), fun h => (nomatch h.2.1)⟩
      | nil =>
        constructor
        · intro h
          cases h
          exact ⟨hf, rfl, rfl, rfl, rfl, rfl, rfl⟩
        · rintro ⟨-, -, hp, he, ht, hd, hg⟩
          cases p
          cases hp
          cases he
          cases ht
          cases hd
          cases hg
          rfl

end Linkage

namespace Outline

/-- The labels that a file lets others use. -/
def exported (o : Outline) : Scope := fun name =>
  if name ∈ o.declared.map Prod.fst then o.labels.lookup name else none

private theorem mem_exports_iff (o : Outline) (name : String) (address : UInt32) :
    (name, address) ∈ o.exports ↔
      name ∈ o.declared.map Prod.fst ∧ o.labels.lookup name = some address := by
  unfold exports
  simp only [List.mem_reverse, List.mem_filterMap, Option.map_eq_some_iff, List.mem_map]
  constructor
  · rintro ⟨d, hd, a, ha, h⟩
    cases h
    exact ⟨⟨d, hd, rfl⟩, ha⟩
  · rintro ⟨⟨d, hd, rfl⟩, ha⟩
    exact ⟨d, hd, address, ha, rfl⟩

theorem lookup_exports (o : Outline) (name : String) :
    o.exports.lookup name = o.exported name := by
  have hm (a : UInt32) (h : o.exports.lookup name = some a) :
      name ∈ o.declared.map Prod.fst ∧ o.labels.lookup name = some a := by
    obtain ⟨l₁, l₂, hl, -⟩ := List.lookup_eq_some_iff.mp h
    rw [← mem_exports_iff, hl]
    exact List.mem_append_right _ List.mem_cons_self
  unfold exported
  split_ifs with hd
  · cases hl : o.exports.lookup name with
    | some a => exact (hm a hl).2.symm
    | none =>
      cases ha : o.labels.lookup name with
      | none => rfl
      | some a =>
        have he := (mem_exports_iff o name a).mpr ⟨hd, ha⟩
        have hne := List.lookup_eq_none_iff.mp hl _ he
        simp at hne
  · cases hl : o.exports.lookup name with
    | some a => exact absurd (hm a hl).1 hd
    | none => rfl

end Outline

/-- What a name stands for at the link: its address in the last file that exports it. -/
def exported (os : List Outline) : Scope :=
  choose (os.reverse.map Outline.exported)

theorem lookup_allExports (os : List Outline) (name : String) :
    (Outline.allExports os).lookup name = exported os name := by
  unfold Outline.allExports exported choose
  induction os.reverse with
  | nil => rfl
  | cons o rest ih =>
    rw [List.flatMap_cons, List.lookup_append, ih, Outline.lookup_exports, List.map_cons,
      List.findSome?_cons]
    cases o.exported name <;> rfl

/-- Every relocation of a program with the address that its label has. -/
def choicesOf (os : List Outline) : List (Relocation × Option UInt32) :=
  os.flatMap fun o => o.choices [o.labels.scope, exported os]

def patchesOf (os : List Outline) : List Patch :=
  (choicesOf os).filterMap fun (r, target) => target.map (Patch.mk r)

/-- What a program is made from files that are laid out. -/
structure Linked (os : List Outline) (laid : Image) (p : Program) : Prop where
  declared : ∀ o ∈ os, ∀ d ∈ o.declared, (exported os d.1).isSome
  chosen : ∀ c ∈ choicesOf os, c.2.isSome
  memory : Patch.applyAll (patchesOf os) laid.memory = some p.memory
  entry : p.entry = ((exported os "main").getD (UInt32.ofNat textBase)).toUInt64
  textSize : p.textSize = laid.textSize
  dataSize : p.dataSize = laid.dataSize
  globals : p.globals = Outline.allExports os

theorem map_fst_choicesOf (os : List Outline) :
    (choicesOf os).map Prod.fst = os.flatMap Outline.relocations := by
  unfold choicesOf
  rw [List.map_flatMap]
  exact congrArg (List.flatMap · os) (funext fun o => o.map_fst_choices _)

theorem choicesOf_perm (os : List Outline) :
    (choicesOf os).Perm
      ((os.flatMap Outline.closed ++
          settle (Outline.allExports os) (os.flatMap Outline.deferred)).map Outline.made ++
        (unsettled (Outline.allExports os) (os.flatMap Outline.deferred)).map (·, none)) := by
  have hf (scope : Scope) (os : List Outline) :
      (os.flatMap fun o => o.choices [o.labels.scope, scope]).Perm
        ((os.flatMap Outline.closed).map Outline.made ++
          (os.flatMap Outline.deferred).map fun r => (r, choose [scope] r.label)) := by
    induction os with
    | nil => exact .refl _
    | cons o rest ih =>
      simp only [List.flatMap_cons, List.map_append]
      refine ((o.choices_perm_closed [scope]).append ih).trans ?_
      rw [List.append_assoc, List.append_assoc]
      exact (List.perm_append_comm_assoc ..).append_left _
  have he : exported os = (Outline.allExports os).scope :=
    funext fun name => (lookup_allExports os name).symm
  have hc := Outline.map_choose_perm (Outline.allExports os) [] (os.flatMap Outline.deferred)
  unfold choicesOf
  rw [List.map_append, List.append_assoc, he]
  exact (hf _ os).trans (hc.append_left _)

theorem chosen_iff (os : List Outline) :
    (∀ c ∈ choicesOf os, c.2.isSome) ↔
      unsettled (Outline.allExports os) (os.flatMap Outline.deferred) = [] := by
  have hp := choicesOf_perm os
  constructor
  · intro h
    rw [List.eq_nil_iff_forall_not_mem]
    intro r hr
    have hn := h (r, none) (hp.mem_iff.mpr (List.mem_append_right _ (List.mem_map_of_mem hr)))
    cases hn
  · intro h c hc
    rw [h, List.map_nil, List.append_nil] at hp
    obtain ⟨p, -, rfl⟩ := List.mem_map.mp (hp.mem_iff.mp hc)
    rfl

theorem patchesOf_perm (os : List Outline) :
    (patchesOf os).Perm (os.flatMap Outline.closed ++
      settle (Outline.allExports os) (os.flatMap Outline.deferred)) := by
  have hm (ps : List Patch) :
      (ps.map Outline.made).filterMap (fun (r, target) => target.map (Patch.mk r)) = ps := by
    rw [List.filterMap_map]
    exact List.filterMap_some
  have hn (rs : List Relocation) :
      (rs.map (·, (none : Option UInt32))).filterMap
        (fun (r, target) => target.map (Patch.mk r)) = [] := by
    rw [List.filterMap_map, List.filterMap_eq_nil_iff]
    exact fun _ _ => rfl
  have hp := (choicesOf_perm os).filterMap fun (r, target) => target.map (Patch.mk r)
  rwa [List.filterMap_append, hm, hn, List.append_nil] at hp

theorem separate_patchesOf {catalog : Catalog} {files : List Source.File} {i j : Image}
    {os : List Outline} (h : Linkage.layAll catalog files i = some (os, j)) :
    (patchesOf os).Pairwise fun p q => p.relocation.Separate q.relocation := by
  have hs := (Linkage.extension_layAll h).separate
  rw [← map_fst_choicesOf, List.pairwise_map] at hs
  refine hs.filterMap _ fun c d hcd p hp q hq => ?_
  obtain ⟨t, -, rfl⟩ := Option.map_eq_some_iff.mp hp
  obtain ⟨u, -, rfl⟩ := Option.map_eq_some_iff.mp hq
  exact hcd

private theorem length_layAll {catalog : Catalog} {files : List Source.File} {i j : Image}
    {os : List Outline} (h : Linkage.layAll catalog files i = some (os, j)) :
    files.length = os.length := by
  induction h using Linkage.layAll_induction with
  | nil i => rfl
  | cons file files i j y os _ _ ih => rw [List.length_cons, List.length_cons, ih]

private theorem isSome_exported {os : List Outline} {o : Outline} (ho : o ∈ os) {name : String}
    (h : (o.exported name).isSome) : (exported os name).isSome := by
  unfold exported choose
  rw [List.findSome?_isSome_iff]
  exact ⟨_, List.mem_map_of_mem (List.mem_reverse.mpr ho), h⟩

private theorem pending_iff {files : List Source.File} {os : List Outline}
    (hl : files.length = os.length) :
    (∀ d ∈ (files.zip os).flatMap fun (file, o) => o.pending file.name,
        ((Outline.allExports os).lookup d.1).isSome) ↔
      ∀ o ∈ os, ∀ d ∈ o.declared, (exported os d.1).isSome := by
  simp only [lookup_allExports, List.mem_flatMap, Outline.pending, List.mem_map, List.mem_filter]
  constructor
  · intro h o ho d hd
    cases ha : o.labels.lookup d.1 with
    | some a =>
      refine isSome_exported ho ?_
      unfold Outline.exported
      rw [if_pos (List.mem_map_of_mem hd), ha]
      rfl
    | none =>
      have hz : (files.zip os).map Prod.snd = os := List.map_snd_zip (by omega)
      rw [← hz] at ho
      obtain ⟨⟨file, o⟩, hz, rfl⟩ := List.mem_map.mp ho
      exact h (d.1, ⟨d.2, file.name⟩) ⟨_, hz, d, ⟨hd, by simp [ha]⟩, rfl⟩
  · rintro h _ ⟨⟨file, o⟩, hz, d, ⟨hd, -⟩, rfl⟩
    exact h o (List.of_mem_zip hz).2 d hd

private def start (image : Image) : Linkage := ⟨image, [], #[], #[]⟩

private theorem link_afterAll_eq_ok_iff (i j : Image) {files : List Source.File}
    {os : List Outline} (hl : files.length = os.length) (p : Program) :
    (Linkage.afterAll (start i) files os j).link = .ok p ↔
      (∀ o ∈ os, ∀ d ∈ o.declared, (exported os d.1).isSome) ∧
        (∀ c ∈ choicesOf os, c.2.isSome) ∧
        Patch.applyAll (settle (Outline.allExports os) (os.flatMap Outline.deferred)) j.memory =
          some p.memory ∧
        p.entry = ((exported os "main").getD (UInt32.ofNat textBase)).toUInt64 ∧
        p.textSize = j.textSize ∧ p.dataSize = j.dataSize ∧ p.globals = Outline.allExports os := by
  rw [Linkage.link_eq_ok_iff, ← pending_iff hl, chosen_iff, ← lookup_allExports]
  simp only [Linkage.afterAll, start, List.append_nil, Array.toList_appendList, List.nil_append]

private theorem addAll_start_eq_ok_iff (catalog : Catalog) (files : List Source.File) (i : Image)
    (l : Linkage) :
    Linkage.addAll catalog files (start i) = .ok l ↔
      ∃ os laid j, Linkage.layAll catalog files i = some (os, laid) ∧
        laid.patched (os.flatMap Outline.closed) = some j ∧
        Linkage.afterAll (start i) files os j = l := by
  have ha : (Linkage.addAll catalog files (start i)).toOption =
      (Linkage.layAll catalog files i).bind fun z =>
        (z.2.patched (z.1.flatMap Outline.closed)).map
          (Linkage.afterAll (start i) files z.1) :=
    Linkage.addAll_eq_layAll catalog files (start i) fun p (h : p ∈ []) => nomatch h
  rw [← toOption_eq_some_iff, ha, Option.bind_eq_some_iff]
  simp only [Option.map_eq_some_iff, Prod.exists]
  constructor
  · rintro ⟨os, laid, hlay, j, hj, hl⟩
    exact ⟨os, laid, j, hlay, hj, hl⟩
  · rintro ⟨os, laid, j, hlay, hj, hl⟩
    exact ⟨os, laid, hlay, j, hj, hl⟩

private theorem assemble_eq_bind (catalog : Catalog) (stackSize : Nat)
    (files : List Source.File) (p : Program) :
    assemble catalog stackSize files = .ok p ↔
      ∃ l, Linkage.addAll catalog files (start (.empty stackSize)) = .ok l ∧ l.link = .ok p := by
  change (Linkage.addAll catalog files (start (.empty stackSize)) >>= Linkage.link) = _ ↔ _
  cases Linkage.addAll catalog files (start (.empty stackSize)) <;> simp

/-- Patching all that is laid out is patching file after file, and at the link what is left. -/
private theorem applyAll_patchesOf {catalog : Catalog} {files : List Source.File}
    {i laid : Image} {os : List Outline}
    (h : Linkage.layAll catalog files i = some (os, laid)) :
    Patch.applyAll (patchesOf os) laid.memory =
      (laid.patched (os.flatMap Outline.closed)).bind fun j =>
        Patch.applyAll (settle (Outline.allExports os) (os.flatMap Outline.deferred)) j.memory := by
  rw [Patch.applyAll_perm (patchesOf_perm os) (separate_patchesOf h), Patch.applyAll_append]
  unfold Image.patched
  rw [Option.bind_map]
  rfl

/-- Assembling files is laying them out and patching every relocation with what its label stands for. -/
theorem assemble_eq_ok_iff (catalog : Catalog) (stackSize : Nat) (files : List Source.File)
    (p : Program) :
    assemble catalog stackSize files = .ok p ↔
      ∃ os laid, Linkage.layAll catalog files (.empty stackSize) = some (os, laid) ∧
        Linked os laid p := by
  rw [assemble_eq_bind]
  simp only [addAll_start_eq_ok_iff]
  constructor
  · rintro ⟨_, ⟨os, laid, j, hlay, hj, rfl⟩, hp⟩
    obtain ⟨hd, hc, hm, he, ht, hs, hg⟩ :=
      (link_afterAll_eq_ok_iff _ j (length_layAll hlay) p).mp hp
    obtain ⟨-, hu⟩ := (Image.patched_eq_some_iff _ laid j).mp hj
    refine ⟨os, laid, hlay, hd, hc, ?_, he, ht.trans (hu .text), hs.trans (hu .data), hg⟩
    rw [applyAll_patchesOf hlay, hj, Option.bind_some, hm]
  · rintro ⟨os, laid, hlay, hl⟩
    have hm := hl.memory
    rw [applyAll_patchesOf hlay, Option.bind_eq_some_iff] at hm
    obtain ⟨j, hj, hm⟩ := hm
    obtain ⟨-, hu⟩ := (Image.patched_eq_some_iff _ laid j).mp hj
    refine ⟨_, ⟨os, laid, j, hlay, hj, rfl⟩, ?_⟩
    exact (link_afterAll_eq_ok_iff _ j (length_layAll hlay) p).mpr
      ⟨hl.declared, hl.chosen, hm, hl.entry, hl.textSize.trans (hu .text).symm,
        hl.dataSize.trans (hu .data).symm, hl.globals⟩

/-- What the rules of scope make of files that are laid out: every relocation stands for one address, and
its place, which no other shares, holds that address. -/
structure Resolved (os : List Outline) (laid : Image) (p : Program) : Prop
    extends Linked os laid p where
  relocations : (choicesOf os).map Prod.fst = os.flatMap Outline.relocations
  separate : (os.flatMap Outline.relocations).Pairwise Relocation.Separate
  patched : ∀ r target, (r, some target) ∈ choicesOf os → ∃ old new,
    laid.memory.load r.address.toUInt64 r.kind.size = .ok old ∧
      r.kind.fill r.address target old = some new ∧
      p.memory.load r.address.toUInt64 r.kind.size = .ok new
  unpatched : ∀ address count,
    (∀ r ∈ os.flatMap Outline.relocations,
      Apart r.address.toUInt64 r.kind.size address count) →
        p.memory.load address count = laid.memory.load address count

theorem Linked.patched {catalog : Catalog} {files : List Source.File} {i laid : Image}
    {os : List Outline} {p : Program} (hl : Linked os laid p)
    (h : Linkage.layAll catalog files i = some (os, laid)) {r : Relocation} {target : UInt32}
    (hr : (r, some target) ∈ choicesOf os) :
    ∃ old new, laid.memory.load r.address.toUInt64 r.kind.size = .ok old ∧
      r.kind.fill r.address target old = some new ∧
      p.memory.load r.address.toUInt64 r.kind.size = .ok new :=
  Patch.load_applyAll_of_mem (p := ⟨r, target⟩) hl.memory (separate_patchesOf h)
    (List.mem_filterMap.mpr ⟨_, hr, rfl⟩)

theorem Linked.unpatched {os : List Outline} {laid : Image} {p : Program}
    (hl : Linked os laid p) {address : UInt64} {count : Nat}
    (h : ∀ r ∈ os.flatMap Outline.relocations,
      Apart r.address.toUInt64 r.kind.size address count) :
    p.memory.load address count = laid.memory.load address count := by
  refine Patch.load_applyAll_of_apart hl.memory fun q hq => h q.relocation ?_
  obtain ⟨c, hc, hq⟩ := List.mem_filterMap.mp hq
  obtain ⟨t, -, rfl⟩ := Option.map_eq_some_iff.mp hq
  rw [← map_fst_choicesOf]
  exact List.mem_map_of_mem hc

theorem Linked.resolved {catalog : Catalog} {files : List Source.File} {i laid : Image}
    {os : List Outline} {p : Program} (hl : Linked os laid p)
    (h : Linkage.layAll catalog files i = some (os, laid)) : Resolved os laid p :=
  { hl with
    relocations := map_fst_choicesOf os
    separate := (Linkage.extension_layAll h).separate
    patched := fun _ _ hr => hl.patched h hr
    unpatched := fun _ _ h => hl.unpatched h }

end RiscvToolkit.Assembly
