import RiscvToolkit.Proofs.Assembly.Alike
import RiscvToolkit.Proofs.Assembly.Static

/-! Separate assembly. A file cut where the mode is that of a fresh file gives the same program as its two parts,
if they share no macros and export their labels. -/
namespace RiscvToolkit
open Source (Item Mentions MentionsOnly SameText)

/-- True of programs that no user of them can tell apart. -/
structure Program.Same (p q : Program) : Prop where
  memory : p.memory = q.memory
  entry : p.entry = q.entry
  textSize : p.textSize = q.textSize
  dataSize : p.dataSize = q.dataSize
  symbols : ∀ name, p.symbol? name = q.symbol? name

namespace Assembly

/-- True of layouts that differ at most in locations and macros. -/
structure Layout.Alike (a b : Layout) : Prop where
  outline : a.outline.bare = b.outline.bare
  image : a.image = b.image

namespace Script

theorem Alike.mode? {catalog : Catalog} {known : String → Prop} {x y : Script}
    (h : x.Alike catalog known y) :
    Option.Rel (Mode.Alike catalog known) x.mode? y.mode? := by
  induction h with
  | done hm => exact .some hm
  | failed => exact .none
  | label _ ih => exact ih
  | globals _ ih => exact ih
  | piece _ ih => exact ih
  | expansion _ _ ihb ih => exact rel_bind ihb fun _ _ _ _ _ => ih

/-- Like scripts are laid out alike. -/
theorem Alike.lay {catalog : Catalog} {known : String → Prop} {x y : Script}
    (h : x.Alike catalog known y) (i : Image) : Option.Rel Layout.Alike (x.lay i) (y.lay i) := by
  induction h generalizing i with
  | done hm => exact .some ⟨rfl, rfl⟩
  | failed => exact .none
  | @label place name _ _ _ ih =>
    exact rel_map (ih i) fun a _ b _ h => ⟨congrArg (Outline.label name _) h.outline, h.image⟩
  | @globals names _ _ _ _ _ ih =>
    exact rel_map (ih i) fun a _ b _ h => ⟨congrArg (Outline.globals names 0) h.outline, h.image⟩
  | @piece place _ _ p _ _ _ ih =>
    simp only [Script.lay]
    cases (p.put place i).toOption with
    | none => exact .none
    | some j =>
      exact rel_map (ih j) fun a _ b _ h => ⟨congrArg (Outline.piece _ _ p) h.outline, h.image⟩
  | expansion _ _ ihb ih =>
    refine rel_bind (ihb i) fun m _ n _ hb => ?_
    rw [← hb.image]
    exact rel_map (ih m.image) fun a _ b _ h =>
      ⟨congrArg₂ Outline.expansion hb.outline h.outline, h.image⟩

theorem Alike.exists_lay {catalog : Catalog} {known : String → Prop} {x y : Script}
    (h : x.Alike catalog known y) {i : Image} {a : Layout} (hx : x.lay i = some a) :
    ∃ b, y.lay i = some b ∧ a.Alike b := by
  have hr := h.lay i
  rw [hx] at hr
  generalize y.lay i = b? at hr ⊢
  cases hr with
  | some hab => exact ⟨_, rfl, hab⟩

end Script

/-- True of a file cut at a line boundary, outside of macro definitions and where the mode is that of a fresh
file, into parts that share no macro and no label but by `.global`. -/
structure Splits (catalog : Catalog) (whole first second : Source.File) : Prop where
  lines : Text.lines whole.text.toList =
    Text.lines first.text.toList ++ Text.lines second.text.toList
  closed : ∀ item ∈ Source.items (Source.linesOf catalog first.text), item.isOpen = false
  mode : ∀ m, (Script.ofFile catalog first).mode? = some m →
    m.place = .text ∧ m.format = .int .word
  macros : ∀ name ∈ Source.defined (Source.items (Source.linesOf catalog first.text)),
    ∀ l ∈ Source.linesOf catalog second.text, ¬Mentions catalog name l.tokens
  labels : (Script.ofFile catalog whole).labels.Nodup
  first_declared : (Script.ofFile catalog first).labels ⊆ (Script.ofFile catalog first).declared
  second_declared :
    (Script.ofFile catalog second).labels ⊆ (Script.ofFile catalog second).declared

private theorem declared_of_lay {x : Script} {i : Image} {l : Layout} (hl : x.lay i = some l)
    (h : x.labels ⊆ x.declared) :
    ∀ e ∈ l.outline.labels, e.1 ∈ l.outline.declared.map Prod.fst := by
  obtain ⟨-, hn, hd⟩ := Script.static_of_lay hl
  intro e he
  rw [hd]
  apply h
  rw [← List.mem_reverse, ← hn]
  exact List.mem_map_of_mem he

namespace Splits
variable {catalog : Catalog} {whole first second : Source.File}
variable (h : Splits catalog whole first second)
include h

/-- The script of the whole file is that of the first part, gone on with that of the second. -/
theorem exists_bind :
    ∃ (x : Script) (f : Mode → Script), Script.ofFile catalog whole = x.bind f ∧
      x.Alike catalog (fun _ => True) (Script.ofFile catalog first) ∧
      ∃ known, ∀ m, x.mode? = some m →
        (f m).Alike catalog known (Script.ofFile catalog second) := by
  obtain ⟨rest, hl, hrest⟩ := Source.linesOf_append catalog h.lines
  have hfirst : (Script.ofLines catalog whole.name (Source.linesOf catalog first.text) .start).Alike
      catalog (fun _ => True) (Script.ofFile catalog first) :=
    Script.alike_ofLines _ _ rfl (fun _ _ _ _ => trivial) ⟨rfl, rfl, fun _ _ => .none⟩
  refine ⟨Script.ofLines catalog whole.name (Source.linesOf catalog first.text) .start,
    Script.ofLines catalog whole.name rest, ?_, hfirst, fun name => name ∉ Source.defined
      (Source.items (Source.linesOf catalog first.text)), fun m hm => ?_⟩
  · unfold Script.ofFile
    rw [hl, Script.ofLines_append catalog whole.name h.closed]
  · have hmode := hfirst.mode?
    rw [hm] at hmode
    cases hn : (Script.ofFile catalog first).mode? with
    | none =>
      rw [hn] at hmode
      cases hmode
    | some n =>
      rw [hn] at hmode
      obtain ⟨hp, hf⟩ := h.mode n hn
      cases hmode with
      | some hmn =>
        refine Script.alike_ofLines _ _ hrest ?_
          ⟨hmn.place.trans hp, hmn.format.trans hf, fun name hk => ?_⟩
        · refine MentionsOnly.of_sameText hrest fun l hl name hmention hd => ?_
          exact h.macros name hd l hl hmention
        · rw [Script.lookup_ofLines hm hk]
          exact .none

/-- The whole file is laid out as its parts are, one behind the other. -/
theorem lay_bare (i : Image) :
    Option.Rel
      (fun l (z : Layout × Layout) =>
        l.outline.bare = z.1.outline.bare.append z.2.outline.bare ∧ l.image = z.2.image)
      ((Script.ofFile catalog whole).lay i)
      (((Script.ofFile catalog first).lay i).bind fun a =>
        ((Script.ofFile catalog second).lay a.image).map (a, ·)) := by
  obtain ⟨x, f, hx, hfirst, known, hsecond⟩ := h.exists_bind
  rw [hx, Script.lay_bind]
  refine rel_bind (hfirst.lay i) fun a ha b _ hab => ?_
  obtain ⟨hm, -⟩ := Script.static_of_lay ha
  rw [← hab.image]
  refine rel_map ((hsecond a.mode hm).lay a.image) fun c _ d _ hcd => ⟨?_, hcd.image⟩
  rw [Outline.bare_append, hab.outline, hcd.outline]

theorem parts_of_lay {i j k : Image} {l a b : Layout}
    (hl : (Script.ofFile catalog whole).lay i = some l)
    (ha : (Script.ofFile catalog first).lay j = some a)
    (hb : (Script.ofFile catalog second).lay k = some b)
    (hbare : l.outline.bare = a.outline.bare.append b.outline.bare) :
    Parts l.outline a.outline b.outline where
  bare := hbare
  nodup := by
    rw [(Script.static_of_lay hl).2.1, List.nodup_reverse]
    exact h.labels
  left := declared_of_lay ha h.first_declared
  right := declared_of_lay hb h.second_declared

/-- The whole file is laid out just if its parts are, and to the same image. -/
theorem layAll_parts (i : Image) :
    Option.Rel (fun z w => ∃ o a b, z.1 = [o] ∧ w.1 = [a, b] ∧ Parts o a b ∧ z.2 = w.2)
      (Linkage.layAll catalog [whole] i) (Linkage.layAll catalog [first, second] i) := by
  have hone : Linkage.layAll catalog [whole] i =
      ((Script.ofFile catalog whole).lay i).map fun l => ([l.outline], l.image) :=
    Option.map_eq_bind.symm
  have htwo : Linkage.layAll catalog [first, second] i =
      (((Script.ofFile catalog first).lay i).bind fun a =>
        ((Script.ofFile catalog second).lay a.image).map (a, ·)).map
          fun z => ([z.1.outline, z.2.outline], z.2.image) := by
    rw [Linkage.layAll, Option.map_bind]
    refine Option.bind_congr fun a _ => ?_
    rw [Linkage.layAll]
    cases hb : (Script.ofFile catalog second).lay a.image <;> simp [hb, Linkage.layAll]
  rw [hone, htwo]
  refine rel_map (h.lay_bare i) fun l hl z hz hr => ?_
  obtain ⟨a, ha, hz⟩ := Option.bind_eq_some_iff.mp hz
  obtain ⟨b, hb, rfl⟩ := Option.map_eq_some_iff.mp hz
  exact ⟨_, _, _, rfl, rfl, h.parts_of_lay hl ha hb hr.1, hr.2⟩

end Splits

/-- A file assembles just if its parts do, and to the same program. -/
theorem assemble_separately {catalog : Catalog} {whole first second : Source.File}
    (h : Splits catalog whole first second) (stackSize : Nat) :
    (∀ p, assemble catalog stackSize [whole] = .ok p →
        ∃ q, assemble catalog stackSize [first, second] = .ok q ∧ p.Same q) ∧
      ∀ q, assemble catalog stackSize [first, second] = .ok q →
        ∃ p, assemble catalog stackSize [whole] = .ok p ∧ p.Same q := by
  have hr := h.layAll_parts (.empty stackSize)
  simp only [assemble_eq_ok_iff]
  generalize Linkage.layAll catalog [whole] (.empty stackSize) = z,
    Linkage.layAll catalog [first, second] (.empty stackSize) = w at hr ⊢
  cases hr with
  | none => exact ⟨fun p hp => by simp at hp, fun q hq => by simp at hq⟩
  | @some z w hr =>
    obtain ⟨⟨os, laid⟩, ⟨ps, laid'⟩⟩ := z, w
    obtain ⟨o, a, b, rfl, rfl, hparts, rfl⟩ := hr
    constructor
    · rintro p ⟨os, laid, hs, hl⟩
      cases hs
      exact ⟨_, ⟨_, _, rfl, hparts.linked_parts hl⟩, rfl, rfl, rfl, rfl,
        hparts.symbol?_eq hl.globals rfl⟩
    · rintro q ⟨os, laid, hs, hl⟩
      cases hs
      exact ⟨_, ⟨_, _, rfl, hparts.linked_whole hl⟩, rfl, rfl, rfl, rfl,
        hparts.symbol?_eq rfl hl.globals⟩

private def callerFile : Source.File :=
  ⟨"a.s", ".macro one(%r)\nli %r, 1\n.end_macro\n.global main\nmain:\none(a0)\njal ra, next\n"⟩

private def calleeFile : Source.File :=
  ⟨"b.s", ".global next\nnext:\nla a1, main\nret"⟩

private def joinedFile : Source.File :=
  ⟨"c.s", callerFile.text ++ calleeFile.text⟩

private theorem splits_joinedFile : Splits Catalog.builtin joinedFile callerFile calleeFile where
  lines := by
    rw [joinedFile, String.toList_append]
    exact Source.lines_append (by decide +kernel) _
  closed := by decide +kernel
  mode := by
    have hm : (Script.ofFile Catalog.builtin callerFile).mode?.map (fun m => (m.place, m.format)) =
        some (.text, .int .word) := by decide +kernel
    intro m h
    rw [h] at hm
    exact Prod.mk.inj (Option.some.inj hm)
  macros := by
    have hw : ∀ name ∈ Source.defined
          (Source.items (Source.linesOf Catalog.builtin callerFile.text)),
        ∀ l ∈ Source.linesOf Catalog.builtin calleeFile.text, ∀ t ∈ l.tokens,
          t.kind = .symbol → String.ofList t.text ≠ name := by decide +kernel
    intro name hn l hl hm
    obtain ⟨line, ht⟩ := Source.exists_tokenize_of_mem hl
    rw [ht, Source.mentions_builtin_iff, ← ht] at hm
    obtain ⟨t, hm, hk, hname⟩ := hm
    exact hw name hn l hl t hm hk hname
  labels := by decide +kernel
  first_declared := by decide +kernel
  second_declared := by decide +kernel

theorem assemble_separately_calls :
    ∃ p q, assemble Catalog.builtin 0 [joinedFile] = .ok p ∧
      assemble Catalog.builtin 0 [callerFile, calleeFile] = .ok q ∧ p.Same q := by
  have hok : (assemble Catalog.builtin 0 [joinedFile]).toOption.isSome = true := by
    decide +kernel
  obtain ⟨p, hp⟩ := Option.isSome_iff_exists.mp hok
  rw [toOption_eq_some_iff] at hp
  obtain ⟨q, hq, hs⟩ := (assemble_separately splits_joinedFile 0).1 p hp
  exact ⟨p, q, hp, hq, hs⟩

end Assembly

end RiscvToolkit
