import RiscvToolkit.Proofs.Assembly.Script
import RiscvToolkit.Proofs.Source.Block

/-! Scripts that are alike up to locations. A block that mentions known names only makes such scripts in all modes
that agree on what those names stand for. -/
namespace RiscvToolkit.Assembly
open Source (Operand Operands Item SameText MentionsOnly)

section
variable (catalog : Catalog) (known : String → Prop)

/-- True of modes in which the same is in force and the known names stand for the same macros. -/
structure Mode.Alike (m n : Mode) : Prop where
  place : m.place = n.place
  format : m.format = n.format
  macros : ∀ name, known name →
    Option.Rel (Source.Macro.Alike catalog known) (m.macros.lookup name) (n.macros.lookup name)

structure Expansion.Alike (d e : Expansion) : Prop where
  bindings : d.bindings = e.bindings
  body : SameText d.body e.body
  mentions : MentionsOnly catalog known d.body
  bound : ∀ name, d.bindings.Mentions catalog name → known name

inductive Script.Alike : Script → Script → Prop
  | done {m n : Mode} (h : m.Alike catalog known n) : Script.Alike (.done m) (.done n)
  | failed {d e : Error} : Script.Alike (.failed d) (.failed e)
  | label {place : Place} {name : String} {x y : Script} (h : Script.Alike x y) :
    Script.Alike (.label place name x) (.label place name y)
  | globals {names : List String} {i j : Nat} {x y : Script} (h : Script.Alike x y) :
    Script.Alike (.globals names i x) (.globals names j y)
  | piece {place : Place} {i j : Location} {p : Piece} {x y : Script} (h : Script.Alike x y) :
    Script.Alike (.piece place i p x) (.piece place j p y)
  | expansion {c d : Option Location} {b b' x y : Script} (hb : Script.Alike b b')
    (h : Script.Alike x y) : Script.Alike (.expansion c b x) (.expansion d b' y)

/-- True of ways to expand calls that make like scripts of like calls. -/
def ExpandAlike (expand expand' : Expansion → Mode → Script) : Prop :=
  ∀ d e m n, Expansion.Alike catalog known d e → Mode.Alike catalog known m n →
    Script.Alike catalog known (expand d m) (expand' e n)

end

section
variable {catalog : Catalog} {known : String → Prop}

theorem Mode.Alike.refl (catalog : Catalog) (m : Mode) :
    m.Alike catalog (fun _ => True) m := by
  refine ⟨rfl, rfl, fun name _ => ?_⟩
  cases m.macros.lookup name with
  | none => exact .none
  | some definition => exact .some ⟨rfl, rfl, fun _ _ _ _ => trivial⟩

theorem Mode.Alike.define {m n : Mode} (h : m.Alike catalog known n) {name : String}
    {d e : Source.Macro} (hd : d.Alike catalog known e) :
    Mode.Alike catalog known { m with macros := (name, d) :: m.macros }
      { n with macros := (name, e) :: n.macros } := by
  refine ⟨h.place, h.format, fun other ho => ?_⟩
  rw [List.lookup_cons, List.lookup_cons]
  cases other == name with
  | true => exact .some hd
  | false => exact h.macros other ho

theorem Mode.Alike.store {m n : Mode} (h : m.Alike catalog known n) (item : Datum) :
    m.store item = n.store item := by
  unfold Mode.store
  rw [h.place, h.format]

theorem Mode.Alike.applyDirective {m n : Mode} (h : m.Alike catalog known n) (name : String) :
    Option.Rel (Mode.Alike catalog known) (applyDirective name m).toOption
      (applyDirective name n).toOption := by
  unfold Assembly.applyDirective
  rw [← h.place]
  cases Directive.ofName? name with
  | none => exact .none
  | some directive =>
    cases directive with
    | segment place => exact .some ⟨rfl, h.format, h.macros⟩
    | data format =>
      dsimp only
      cases m.place with
      | text => exact .none
      | data => exact .some ⟨rfl, rfl, h.macros⟩
    | global => exact .some h
    | macroStart => exact .none
    | macroEnd => exact .none

theorem mentions_of_mem_callArguments {called name : String} {count : Nat} {ops : Operands}
    {args : List Operand} (h : callArguments called count ops = .ok args) {o : Operand}
    (ho : o ∈ args) (hm : o.Mentions catalog name) : ops.Mentions catalog name := by
  unfold callArguments at h
  obtain ⟨list, hl, h⟩ := bind_eq_ok_iff.mp h
  split at h
  all_goals
    rw [ok_bind] at h
    dsimp only at h
    split_ifs at h
    cases h
  · exact Operands.mentions_of_mem_toList hl (List.mem_singleton_self _) (.group ho hm)
  · exact Operands.mentions_of_mem_toList hl ho hm

theorem alike_macroCall {i j : Nat} {name : String} {d e : Source.Macro}
    (h : d.Alike catalog known e) {ops : Operands}
    (hops : ∀ name, ops.Mentions catalog name → known name) :
    Option.Rel (Expansion.Alike catalog known) (macroCall i name d ops).toOption
      (macroCall j name e ops).toOption := by
  unfold macroCall
  rw [← h.params]
  cases ha : callArguments name d.params.length ops with
  | error kind => exact .none
  | ok args =>
    refine .some ⟨rfl, h.body, h.mentions, ?_⟩
    rintro other ⟨b, hb, hm⟩
    obtain ⟨-, hb⟩ := List.of_mem_zip (List.mem_reverse.mp hb)
    exact hops other (mentions_of_mem_callArguments ha hb hm)

theorem alike_templateCall {i j : Nat} {name : String} {params : Nat} {body : List String}
    (hbody : ∀ text ∈ body, ∀ name,
      Source.Mentions catalog name (Source.tokenize catalog text.toList) → known name)
    {ops : Operands} (hops : ∀ name, ops.Mentions catalog name → known name) :
    Option.Rel (Expansion.Alike catalog known) (templateCall catalog i name params body ops).toOption
      (templateCall catalog j name params body ops).toOption := by
  unfold templateCall
  cases ha : callArguments name params ops with
  | error kind => exact .none
  | ok args =>
    refine .some ⟨rfl, ?_, ?_, ?_⟩
    · unfold SameText
      rw [List.map_map, List.map_map]
      rfl
    · intro l hl other hm
      obtain ⟨text, ht, rfl⟩ := List.mem_map.mp hl
      exact hbody text ht other hm
    · rintro other ⟨b, hb, hm⟩
      obtain ⟨⟨arg, i⟩, hz, rfl⟩ := List.mem_map.mp hb
      exact hops other (mentions_of_mem_callArguments ha (List.fst_mem_of_mem_zipIdx hz) hm)

namespace Script

theorem Alike.bind {x y : Script} (h : x.Alike catalog known y) {f g : Mode → Script}
    (hn : ∀ m n, m.Alike catalog known n → (f m).Alike catalog known (g n)) :
    (x.bind f).Alike catalog known (y.bind g) := by
  induction h with
  | done hm => exact hn _ _ hm
  | failed => exact .failed
  | label _ ih => exact .label ih
  | globals _ ih => exact .globals ih
  | piece _ ih => exact .piece ih
  | expansion hb _ _ ih => exact .expansion hb ih

theorem alike_check {α : Type} {R : α → α → Prop} {i j : Nat} {file file' : String}
    {a b : Except ErrorKind α} (h : Option.Rel R a.toOption b.toOption) {f g : α → Script}
    (hn : ∀ x y, R x y → (f x).Alike catalog known (g y)) :
    (check i file a f).Alike catalog known (check j file' b g) := by
  cases a with
  | error kind =>
    cases b with
    | error kind' => exact .failed
    | ok y => cases h
  | ok x =>
    cases b with
    | error kind' => cases h
    | ok y =>
      cases h with
      | some hr => exact hn x y hr

theorem alike_check_same {α : Type} {i j : Nat} {file file' : String} (a : Except ErrorKind α)
    {f g : α → Script} (hn : ∀ x, (f x).Alike catalog known (g x)) :
    (check i file a f).Alike catalog known (check j file' a g) := by
  cases a with
  | error kind => exact .failed
  | ok x => exact hn x

section
variable {expand expand' : Expansion → Mode → Script}
variable (he : ExpandAlike catalog known expand expand') {file file' : String}
variable {bindings bindings' : Source.Bindings} {m n : Mode}

theorem alike_ofDatum {c d : Context} {i j : Nat} (item : Datum) (hm : m.Alike catalog known n)
    {x y : Script} (h : x.Alike catalog known y) :
    (ofDatum c i item m x).Alike catalog known (ofDatum d j item n y) := by
  unfold ofDatum
  rw [hm.store item]
  exact alike_check_same _ fun stored => .piece h

include he

theorem alike_ofInstruction {i j : Nat} {entry : Entry} {ops : Operands}
    (hops : ∀ name, (Operands.next (.instruction entry) ops).Mentions catalog name → known name)
    (hm : m.Alike catalog known n) :
    (ofInstruction expand ⟨catalog, file, bindings⟩ i entry ops m).Alike catalog known
      (ofInstruction expand' ⟨catalog, file', bindings'⟩ j entry ops n) := by
  unfold ofInstruction
  split
  · refine alike_check (alike_templateCall ?_ fun name h => hops name (.inr h)) fun d e h =>
      he d e m n h hm
    exact fun text ht name h => hops name (.inl (.template ht h))
  · dsimp only
    rw [← hm.place]
    refine .piece ?_
    cases Code.failure _ with
    | none => exact .done hm
    | some kind => exact .failed

/-- Operands that mention known names only, read in like modes. -/
theorem alike_ofOperands {i j : Nat} {ops : Operands}
    (hops : ∀ name, ops.Mentions catalog name → known name) (hm : m.Alike catalog known n) :
    (ofOperands expand ⟨catalog, file, bindings⟩ i ops m).Alike catalog known
      (ofOperands expand' ⟨catalog, file', bindings'⟩ j ops n) := by
  induction ops generalizing m n with
  | done => exact .done hm
  | failed kind => exact .failed
  | next head rest ih =>
    have hrest : ∀ name, rest.Mentions catalog name → known name :=
      fun name h => hops name (.inr h)
    cases head with
    | label name =>
      simp only [ofOperands]
      rw [← hm.place]
      exact .label (ih hrest hm)
    | directive name =>
      simp only [ofOperands]
      split_ifs
      · exact alike_check_same _ fun names => .globals (.done hm)
      · exact alike_check (hm.applyDirective name) fun m n h => ih hrest h
    | instruction entry => exact alike_ofInstruction he hops hm
    | register r => exact .failed
    | placeholder name => exact .failed
    | group items => exact .failed
    | symbol name =>
      simp only [ofOperands]
      have hl := hm.macros name (hops name (.inl .symbol))
      generalize m.macros.lookup name = d, n.macros.lookup name = e at hl ⊢
      cases hl with
      | none => exact alike_ofDatum _ hm (ih hrest hm)
      | some hl => exact alike_check (alike_macroCall hl hrest) fun d e h => he d e m n h hm
    | int value => exact alike_ofDatum _ hm (ih hrest hm)
    | float value => exact alike_ofDatum _ hm (ih hrest hm)
    | string text => exact alike_ofDatum _ hm (ih hrest hm)

theorem alike_ofItems (hb : ∀ name, bindings.Mentions catalog name → known name)
    {ls rs : List Item} (h : List.Forall₂ (Item.Alike catalog known) ls rs)
    (hm : m.Alike catalog known n) :
    (ofItems expand ⟨catalog, file, bindings⟩ ls m).Alike catalog known
      (ofItems expand' ⟨catalog, file', bindings⟩ rs n) := by
  induction h generalizing m n with
  | nil => exact .done hm
  | cons hi _ ih =>
    cases hi with
    | line ht hl =>
      simp only [ofItems]
      rw [← ht]
      refine (alike_ofOperands he (fun name h => ?_) hm).bind fun m n h => ih h
      rcases Source.mentions_of_operands h with h | h
      · exact hl _ (List.mem_singleton_self _) name h
      · exact hb name h
    | definition hd => exact ih (hm.define hd)
    | failed => exact .failed

end

/-- Lines with the same operands, whatever is bound where they are read. -/
theorem alike_of_operands {expand expand' : Expansion → Mode → Script}
    (he : ExpandAlike catalog (fun _ => True) expand expand') {file : String}
    {bindings bindings' : Source.Bindings} {ls rs : List Source.Line}
    (h : List.Forall₂ (fun (l r : Source.Line) =>
      Source.operands bindings l.tokens = Source.operands bindings' r.tokens) ls rs)
    {m n : Mode} (hm : m.Alike catalog (fun _ => True) n) :
    (ofItems expand ⟨catalog, file, bindings⟩ (ls.map .line) m).Alike catalog (fun _ => True)
      (ofItems expand' ⟨catalog, file, bindings'⟩ (rs.map .line) n) := by
  induction h generalizing m n with
  | nil => exact .done hm
  | cons hl _ ih =>
    simp only [List.map_cons, ofItems]
    rw [hl]
    exact (alike_ofOperands he (fun _ _ => trivial) hm).bind fun m n h => ih h

theorem alike_ofExpansion (file file' : String) (depth : Nat) :
    ExpandAlike catalog known (ofExpansion catalog file depth) (ofExpansion catalog file' depth) := by
  induction depth with
  | zero => exact fun d e m n _ _ => .failed
  | succ depth ih =>
    intro d e m n h hm
    simp only [ofExpansion, Expansion.context]
    rw [← h.bindings]
    exact .expansion (alike_ofItems ih h.bound (Source.alike_items h.body h.mentions) hm) (.done hm)

/-- Lines that read the same and mention known names only, in like modes. -/
theorem alike_ofLines (file file' : String) {ls rs : List Source.Line} (ht : SameText ls rs)
    (hl : MentionsOnly catalog known ls) {m n : Mode} (hm : m.Alike catalog known n) :
    (ofLines catalog file ls m).Alike catalog known (ofLines catalog file' rs n) := by
  refine alike_ofItems (alike_ofExpansion file file' maxDepth) ?_ (Source.alike_items ht hl) hm
  rintro name ⟨b, hb, -⟩
  cases hb

end Script

end

end RiscvToolkit.Assembly
