import RiscvToolkit.Proofs.Assembly.Static
import RiscvToolkit.Proofs.Source.Definitions

/-! Scripts without a failure in them. They are the same scripts where more calls may be active, and the
definitions of their blocks are whole. -/
namespace RiscvToolkit.Assembly
open Source (Item Operands)

namespace Script

/-- Only what a script goes on to behind its end matters. -/
theorem bind_congr {x : Script} {n : Mode} (h : x.mode? = some n) {f g : Mode → Script}
    (hn : f n = g n) : x.bind f = x.bind g := by
  induction x with
  | done mode =>
    cases h
    exact hn
  | failed error => rfl
  | label place name rest ih => exact congrArg (Script.label place name) (ih h)
  | globals names line rest ih => exact congrArg (Script.globals names line) (ih h)
  | piece place location p rest ih => exact congrArg (Script.piece place location p) (ih h)
  | expansion call body rest _ ih =>
    obtain ⟨inner, -, h⟩ := Option.bind_eq_some_iff.mp h
    exact congrArg (Script.expansion call body) (ih h)

/-- True if a script has no failure in it. -/
def Succeeds (x : Script) : Prop :=
  ∃ n, x.mode? = some n

/-- True of ways to expand calls of which the second makes the scripts of the first, if they succeed. -/
def Extends (expand expand' : Expansion → Mode → Script) : Prop :=
  ∀ e m, (expand e m).Succeeds → expand' e m = expand e m

theorem check_extends {α : Type} {line : Nat} {file : String} {result : Except ErrorKind α}
    {f g : α → Script} (hs : (check line file result f).Succeeds)
    (h : ∀ a, (f a).Succeeds → g a = f a) :
    check line file result g = check line file result f := by
  cases result with
  | error kind => rfl
  | ok a => exact h a hs

section
variable {expand expand' : Expansion → Mode → Script} (he : Extends expand expand')
variable {c : Context} {m : Mode}
include he

private theorem ofOperands_extends {line : Nat} {ops : Operands}
    (hs : (ofOperands expand c line ops m).Succeeds) :
    ofOperands expand' c line ops m = ofOperands expand c line ops m := by
  induction ops generalizing m with
  | done => rfl
  | failed kind => rfl
  | next head rest ih =>
    have hdatum (item : Datum)
        (hs : (ofDatum c line item m (ofOperands expand c line rest m)).Succeeds) :
        ofDatum c line item m (ofOperands expand' c line rest m) =
          ofDatum c line item m (ofOperands expand c line rest m) :=
      check_extends hs fun stored hs => congrArg (Script.piece _ _ _) (ih hs)
    cases head with
    | label name => exact congrArg (Script.label m.place name) (ih hs)
    | directive name =>
      simp only [ofOperands] at hs ⊢
      split_ifs at hs ⊢
      · rfl
      · exact check_extends hs fun n hs => ih hs
    | instruction entry =>
      simp only [ofOperands] at hs ⊢
      unfold ofInstruction at hs ⊢
      split at hs
      · exact check_extends hs fun e hs => he e m hs
      · rfl
    | register r => rfl
    | placeholder name => rfl
    | group items => rfl
    | symbol name =>
      simp only [ofOperands] at hs ⊢
      cases hl : m.macros.lookup name with
      | some definition =>
        rw [hl] at hs
        exact check_extends hs fun e hs => he e m hs
      | none =>
        rw [hl] at hs
        exact hdatum _ hs
    | int value => exact hdatum _ hs
    | float value => exact hdatum _ hs
    | string text => exact hdatum _ hs

theorem ofItems_extends {items : List Item} (hs : (ofItems expand c items m).Succeeds) :
    ofItems expand' c items m = ofItems expand c items m := by
  induction items generalizing m with
  | nil => rfl
  | cons item rest ih =>
    cases item with
    | definition number result => exact check_extends hs fun named hs => ih hs
    | line l =>
      simp only [ofItems] at hs ⊢
      obtain ⟨n, hn⟩ := hs
      rw [mode?_bind] at hn
      obtain ⟨k, hk, hn⟩ := Option.bind_eq_some_iff.mp hn
      rw [ofOperands_extends he ⟨k, hk⟩]
      exact bind_congr hk (ih ⟨n, hn⟩)

end

/-- One more call may be active without making a difference to calls that succeed. -/
theorem ofExpansion_extends (catalog : Catalog) (file : String) (depth : Nat) :
    Extends (ofExpansion catalog file depth) (ofExpansion catalog file (depth + 1)) := by
  induction depth with
  | zero =>
    rintro e m ⟨n, hn⟩
    cases hn
  | succ depth ih =>
    rintro e m ⟨n, hn⟩
    obtain ⟨k, hk, -⟩ := Option.bind_eq_some_iff.mp hn
    exact congrArg (Script.expansion _ · _) (ofItems_extends ih ⟨k, hk⟩)

section
variable {expand : Expansion → Mode → Script} {c : Context} {m : Mode}

/-- Lines that are read to their end start no definition. -/
theorem leading?_of_succeeds {ls : List Source.Line} (h : (ofItems expand c (ls.map .line) m).Succeeds) :
    ∀ l ∈ ls, l.leading? ≠ some "macro".toList := by
  induction ls generalizing m with
  | nil => exact fun _ h => nomatch h
  | cons l ls ih =>
    obtain ⟨n, hn⟩ := h
    simp only [List.map_cons, ofItems] at hn
    rw [mode?_bind] at hn
    obtain ⟨k, hk, hn⟩ := Option.bind_eq_some_iff.mp hn
    refine List.forall_mem_cons.mpr ⟨fun hl => ?_, ih ⟨n, hn⟩⟩
    have hops : ∃ rest, Source.operands c.bindings l.tokens =
        .next (.directive (String.ofList "macro".toList)) rest := Source.operands_of_leading? hl
    obtain ⟨rest, hops⟩ := hops
    rw [hops] at hk
    cases hk

/-- A block that is read to its end has no definition in it that is wrong. -/
theorem isFailed_of_succeeds {items : List Source.Item}
    (h : (ofItems expand c items m).Succeeds) : ∀ item ∈ items, item.isFailed = false := by
  induction items generalizing m with
  | nil => exact fun _ h => nomatch h
  | cons item rest ih =>
    obtain ⟨n, hn⟩ := h
    cases item with
    | line l =>
      simp only [ofItems] at hn
      rw [mode?_bind] at hn
      obtain ⟨k, hk, hn⟩ := Option.bind_eq_some_iff.mp hn
      exact List.forall_mem_cons.mpr ⟨rfl, ih ⟨n, hn⟩⟩
    | definition number result =>
      cases result with
      | error kind => cases hn
      | ok named => exact List.forall_mem_cons.mpr ⟨rfl, ih ⟨n, hn⟩⟩

/-- The macros at the end of a block are its definitions and those at its start. -/
theorem macros_eq_definitions (he : KeepsMode expand) {n : Mode} {items : List Source.Item}
    (h : (ofItems expand c items m).mode? = some n) :
    n.macros = Source.definitions items ++ m.macros := by
  induction items generalizing m with
  | nil =>
    cases h
    rfl
  | cons item rest ih =>
    rw [Source.definitions_cons]
    cases item with
    | line l =>
      simp only [ofItems] at h
      rw [mode?_bind] at h
      obtain ⟨k, hk, h⟩ := Option.bind_eq_some_iff.mp h
      rw [ih h, macros_ofOperands he hk]
      exact congrArg (· ++ m.macros) (List.append_nil _).symm
    | definition number result =>
      cases result with
      | error kind => cases h
      | ok named =>
        rw [ih h]
        exact List.append_assoc (Source.definitions rest) [named] m.macros ▸ rfl

end

end Script

end RiscvToolkit.Assembly
