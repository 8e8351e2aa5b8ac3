import RiscvToolkit.Proofs.Assembly.Parts
import RiscvToolkit.Proofs.Source.Block

/-! What a script tells before it is laid out: the mode at its end, the macros that its block has defined, and the
names that it binds and declares. -/
namespace RiscvToolkit.Assembly
open Source (Item Operands)

namespace Script

/-- The mode at the end of a script. -/
def mode? : Script → Option Mode
  | done mode => some mode
  | failed _ => none
  | label _ _ rest | globals _ _ rest | piece _ _ _ rest => rest.mode?
  | expansion _ body rest => body.mode?.bind fun _ => rest.mode?

/-- The names that a script binds outside of its expansions. -/
def labels : Script → List String
  | done _ | failed _ => []
  | label _ name rest => name :: rest.labels
  | globals _ _ rest | piece _ _ _ rest | expansion _ _ rest => rest.labels

/-- The names that a script declares `.global`. -/
def declared : Script → List String
  | done _ | failed _ => []
  | label _ _ rest | piece _ _ _ rest => rest.declared
  | globals names _ rest => names ++ rest.declared
  | expansion _ body rest => body.declared ++ rest.declared

/-- What laying out makes of a script is in the script already. -/
theorem static_of_lay {x : Script} {i : Image} {l : Layout} (h : x.lay i = some l) :
    x.mode? = some l.mode ∧ l.outline.labels.map Prod.fst = x.labels.reverse ∧
      l.outline.declared.map Prod.fst = x.declared := by
  induction h using lay_induction with
  | done mode i => exact ⟨rfl, rfl, rfl⟩
  | label place name rest i l _ ih =>
    obtain ⟨hm, hn, hd⟩ := ih
    exact ⟨hm, by simp [Outline.labels, labels, hn], hd⟩
  | globals names line rest i l _ ih =>
    obtain ⟨hm, hn, hd⟩ := ih
    exact ⟨hm, hn, by simp [Outline.declared, declared, hd, Function.comp_def]⟩
  | piece place location p rest i j l _ _ ih => exact ih
  | expansion call body rest i b l _ _ ihb ihr =>
    obtain ⟨hbm, -, hbd⟩ := ihb
    obtain ⟨hm, hn, hd⟩ := ihr
    exact ⟨by rw [mode?, hbm, Option.bind_some, hm], hn,
      by simp [Outline.declared, declared, hbd, hd]⟩

theorem mode?_bind (x : Script) (f : Mode → Script) :
    (x.bind f).mode? = x.mode?.bind fun m => (f m).mode? := by
  induction x with
  | done mode => rfl
  | failed error => rfl
  | label place name rest ih => exact ih
  | globals names line rest ih => exact ih
  | piece place location p rest ih => exact ih
  | expansion call body rest _ ih =>
    simp only [bind, mode?, ih]
    exact (Option.bind_assoc ..).symm

theorem mode?_check {α : Type} (line : Nat) (file : String) (result : Except ErrorKind α)
    (next : α → Script) :
    (check line file result next).mode? = result.toOption.bind fun a => (next a).mode? := by
  cases result <;> rfl

theorem bind_assoc (x : Script) (f g : Mode → Script) :
    (x.bind f).bind g = x.bind fun m => (f m).bind g := by
  induction x with
  | done mode => rfl
  | failed error => rfl
  | label place name rest ih => simp [bind, ih]
  | globals names line rest ih => simp [bind, ih]
  | piece place location p rest ih => simp [bind, ih]
  | expansion call body rest _ ih => simp [bind, ih]

theorem ofItems_append (expand : Expansion → Mode → Script) (c : Context) (ls rs : List Item)
    (m : Mode) :
    ofItems expand c (ls ++ rs) m = (ofItems expand c ls m).bind (ofItems expand c rs) := by
  induction ls generalizing m with
  | nil => rfl
  | cons item rest ih =>
    cases item with
    | line l =>
      simp only [List.cons_append, ofItems, bind_assoc]
      exact congrArg _ (funext ih)
    | definition number result =>
      simp only [List.cons_append, ofItems]
      cases result with
      | error kind => rfl
      | ok named => exact ih _

theorem ofLines_append (catalog : Catalog) (file : String) {ls : List Source.Line}
    (h : ∀ item ∈ Source.items ls, item.isOpen = false) (rs : List Source.Line) (m : Mode) :
    ofLines catalog file (ls ++ rs) m =
      (ofLines catalog file ls m).bind (ofLines catalog file rs) := by
  unfold ofLines
  rw [Source.items_append h, ofItems_append]

/-- A continued script is laid out one part behind the other. -/
theorem lay_bind (x : Script) (f : Mode → Script) (i : Image) :
    (x.bind f).lay i = (x.lay i).bind fun a => ((f a.mode).lay a.image).map fun b =>
      { b with outline := a.outline.append b.outline } := by
  induction x generalizing i with
  | done mode =>
    simp only [bind, lay, Option.bind_some, Outline.append]
    exact Option.map_id'.symm
  | failed error => rfl
  | label place name rest ih =>
    simp only [bind, lay, ih, Option.map_bind, Option.bind_map, Function.comp_def, Option.map_map,
      Outline.append]
  | globals names line rest ih =>
    simp only [bind, lay, ih, Option.map_bind, Option.bind_map, Function.comp_def, Option.map_map,
      Outline.append]
  | piece place location p rest ih =>
    simp only [bind, lay, ih, Option.map_bind, Option.bind_map, Function.comp_def, Option.map_map,
      Option.bind_assoc, Outline.append]
  | expansion call body rest _ ih =>
    simp only [bind, lay, ih, Option.map_bind, Option.bind_map, Function.comp_def, Option.map_map,
      Option.bind_assoc, Outline.append]

theorem lay_bind_eq_some_iff {x : Script} {f : Mode → Script} {i : Image} {l : Layout} :
    (x.bind f).lay i = some l ↔
      ∃ a b, x.lay i = some a ∧ (f a.mode).lay a.image = some b ∧
        { b with outline := a.outline.append b.outline } = l := by
  rw [lay_bind, Option.bind_eq_some_iff]
  simp only [Option.map_eq_some_iff, exists_and_left]

/-- Calls leave the mode as it is. -/
def KeepsMode (expand : Expansion → Mode → Script) : Prop :=
  ∀ e m n, (expand e m).mode? = some n → n = m

theorem keepsMode_ofExpansion (catalog : Catalog) (file : String) (depth : Nat) :
    KeepsMode (ofExpansion catalog file depth) := by
  intro e m n h
  cases depth with
  | zero => cases h
  | succ depth =>
    obtain ⟨inner, -, h⟩ := Option.bind_eq_some_iff.mp h
    cases h
    rfl

theorem macros_applyDirective {name : String} {m n : Mode} (h : applyDirective name m = .ok n) :
    n.macros = m.macros := by
  unfold applyDirective at h
  split at h
  · cases h
    rfl
  · cases hp : m.place <;> rw [hp] at h <;> cases h
    rfl
  all_goals
    cases h
    try rfl

section
variable {expand : Expansion → Mode → Script} (he : KeepsMode expand) {c : Context} {m n : Mode}

private theorem mode?_ofDatum {line : Nat} {item : Datum} {rest : Script}
    (h : (ofDatum c line item m rest).mode? = some n) : rest.mode? = some n := by
  unfold ofDatum at h
  rw [mode?_check] at h
  obtain ⟨stored, -, h⟩ := Option.bind_eq_some_iff.mp h
  exact h

include he

theorem macros_ofOperands {line : Nat} {ops : Operands}
    (h : (ofOperands expand c line ops m).mode? = some n) : n.macros = m.macros := by
  induction ops generalizing m with
  | done =>
    cases h
    rfl
  | failed kind => cases h
  | next head rest ih =>
    cases head with
    | label name => exact ih h
    | directive name =>
      simp only [ofOperands] at h
      split_ifs at h
      · rw [mode?_check] at h
        obtain ⟨names, -, h⟩ := Option.bind_eq_some_iff.mp h
        cases h
        rfl
      · rw [mode?_check] at h
        obtain ⟨k, hk, h⟩ := Option.bind_eq_some_iff.mp h
        rw [toOption_eq_some_iff] at hk
        exact (ih h).trans (macros_applyDirective hk)
    | instruction entry =>
      simp only [ofOperands] at h
      unfold ofInstruction at h
      split at h
      · rw [mode?_check] at h
        obtain ⟨e, -, h⟩ := Option.bind_eq_some_iff.mp h
        rw [he e m n h]
      · dsimp only [mode?] at h
        split at h <;> cases h
        rfl
    | register r => cases h
    | placeholder name => cases h
    | group items => cases h
    | symbol name =>
      simp only [ofOperands] at h
      split at h
      · rw [mode?_check] at h
        obtain ⟨e, -, h⟩ := Option.bind_eq_some_iff.mp h
        rw [he e m n h]
      · exact ih (mode?_ofDatum h)
    | int value => exact ih (mode?_ofDatum h)
    | float value => exact ih (mode?_ofDatum h)
    | string text => exact ih (mode?_ofDatum h)

/-- The macros at the end of a block are those at its start and those that it defines. -/
theorem macros_ofItems {items : List Item} (h : (ofItems expand c items m).mode? = some n) :
    ∀ e ∈ n.macros, e ∈ m.macros ∨ e.1 ∈ Source.defined items := by
  induction items generalizing m with
  | nil =>
    cases h
    exact fun e hm => .inl hm
  | cons item rest ih =>
    intro e hm
    cases item with
    | line l =>
      simp only [ofItems] at h
      rw [mode?_bind] at h
      obtain ⟨k, hk, h⟩ := Option.bind_eq_some_iff.mp h
      rw [← macros_ofOperands he hk]
      exact ih h e hm
    | definition number result =>
      simp only [ofItems] at h
      rw [mode?_check] at h
      obtain ⟨named, hn, h⟩ := Option.bind_eq_some_iff.mp h
      rw [toOption_eq_some_iff] at hn
      subst hn
      rcases ih h e hm with hm | hm
      · rcases List.mem_cons.mp hm with rfl | hm
        · exact .inr List.mem_cons_self
        · exact .inl hm
      · exact .inr (List.mem_cons_of_mem _ hm)

end

/-- Behind the lines of a file, no name but those that it defines stands for a macro. -/
theorem lookup_ofLines {catalog : Catalog} {file : String} {ls : List Source.Line} {m : Mode}
    (h : (ofLines catalog file ls .start).mode? = some m) {name : String}
    (hn : name ∉ Source.defined (Source.items ls)) : m.macros.lookup name = none := by
  refine List.lookup_eq_none_iff.mpr fun e he => ?_
  rcases macros_ofItems (keepsMode_ofExpansion catalog file maxDepth) h e he with hm | hm
  · cases hm
  · exact bne_iff_ne.mpr fun heq => hn (heq ▸ hm)

end Script

end RiscvToolkit.Assembly
