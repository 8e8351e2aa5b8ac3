import RiscvToolkit.Proofs.Assembly.Static
import RiscvToolkit.Proofs.Source.Definitions

/-! The lead of a line: the labels, directives and data items in front of its statement. A line can be cut behind
its lead, and one without labels and directives there leaves labels and mode as they are. -/
namespace RiscvToolkit.Assembly
open Source (Item Operand Operands Token operands operandsFrom)

/-- True of the definition of a label, and of a directive that sets the segment or the data format. -/
def alters (t : Token) : Bool :=
  match t.kind, Directive.ofName? (String.ofList t.text.tail) with
  | .label, _ | .directive, some (.segment _) | .directive, some (.data _) => true
  | _, _ => false

/-- True of a token that a line goes on behind, where these are the macros. -/
def leads (macros : List (String × Source.Macro)) (t : Token) : Bool :=
  match t.kind with
  | .label | .directive => alters t
  | .symbol => (macros.lookup (String.ofList t.text)).isNone
  | .int _ | .float _ | .string | .char | .space | .comment => true
  | _ => false

/-- True of a line that neither defines a label nor sets the segment or the data format. Behind its statement a line
does neither: what stands there are operands. -/
def Plain (macros : List (String × Source.Macro)) (tokens : List Token) : Prop :=
  ∀ t ∈ tokens.takeWhile (leads macros), alters t = false

instance (macros : List (String × Source.Macro)) (tokens : List Token) :
    Decidable (Plain macros tokens) :=
  inferInstanceAs (Decidable (∀ t ∈ tokens.takeWhile (leads macros), alters t = false))

/-- The data item that an operand in front of a statement is. -/
def datum? (macros : List (String × Source.Macro)) : Operand → Option Datum
  | .int value => some (.int value)
  | .float value => some (.float value)
  | .string text => some (.string text)
  | .symbol name => if (macros.lookup name).isNone then some (.label name) else none
  | _ => none

/-- What a token in front of a statement can be. -/
inductive Leading (macros : List (String × Source.Macro)) (t : Token) : Prop
  | trivia (ht : t.isTrivia = true)
  | failed {kind : ErrorKind} (hs : t.kind.isSingle = true) (ho : t.operand [] = .error kind)
  | label {name : String} (ho : t.operand [] = .ok (.label name)) (ha : alters t = true)
  | directive {name : String} (ho : t.operand [] = .ok (.directive name))
    (hn : Directive.ofName? name ≠ some .global) (ha : alters t = true)
  | datum {o : Operand} {item : Datum} (ho : t.operand [] = .ok o)
    (hd : datum? macros o = some item)

theorem leading_of_leads {macros : List (String × Source.Macro)} {t : Token}
    (h : leads macros t = true) : Leading macros t := by
  obtain ⟨kind, text⟩ := t
  cases kind with
  | int value => exact .datum rfl rfl
  | float value => exact .datum rfl rfl
  | label => exact .label rfl h
  | directive =>
    refine .directive rfl (fun hn => ?_) h
    simp only [leads, alters] at h
    rw [hn] at h
    cases h
  | symbol => exact .datum rfl (if_pos h)
  | string =>
    cases hd : Token.decoded ⟨.string, text⟩ with
    | error kind => exact .failed rfl (by simp [Token.operand, hd]; rfl)
    | ok cs => exact .datum (by simp [Token.operand, hd]; rfl) rfl
  | char =>
    cases ho : Token.operand [] ⟨.char, text⟩ with
    | error kind => exact .failed rfl ho
    | ok o =>
      unfold Token.operand at ho
      dsimp only at ho
      split at ho <;> cases ho
      exact .datum (by unfold Token.operand; simp [*]; rfl) rfl
  | space => exact .trivia rfl
  | comment => exact .trivia rfl
  | _ => cases h

namespace Script
variable {expand : Expansion → Mode → Script} {c : Context} {line : Nat} {m : Mode}

theorem ofOperands_datum {o : Operand} {item : Datum} (hd : datum? m.macros o = some item)
    (rest : Operands) :
    ofOperands expand c line (.next o rest) m =
      ofDatum c line item m (ofOperands expand c line rest m) := by
  cases o with
  | symbol name =>
    simp only [datum?] at hd
    split_ifs at hd with hn
    cases hd
    rw [Option.isNone_iff_eq_none] at hn
    simp only [ofOperands, hn]
  | int value =>
    cases hd
    rfl
  | float value =>
    cases hd
    rfl
  | string text =>
    cases hd
    rfl
  | _ => cases hd

theorem ofOperands_directive {name : String} (hn : Directive.ofName? name ≠ some .global)
    (rest : Operands) :
    ofOperands expand c line (.next (.directive name) rest) m =
      check line c.file (applyDirective name m) (ofOperands expand c line rest) := by
  simp only [ofOperands, if_neg hn]

theorem bind_check {α : Type} (file : String) (result : Except ErrorKind α) (f : α → Script)
    (g : Mode → Script) :
    (check line file result f).bind g = check line file result fun a => (f a).bind g := by
  cases result <;> rfl

/-- A line can be cut behind tokens that lead it. -/
theorem ofOperands_append {lead : List Token} (h : ∀ t ∈ lead, leads m.macros t = true)
    (rest : List Token) :
    ofOperands expand c line (operands [] (lead ++ rest)) m =
      (ofOperands expand c line (operands [] lead) m).bind
        (ofOperands expand c line (operands [] rest)) := by
  induction lead generalizing m with
  | nil => rfl
  | cons t lead ih =>
    obtain ⟨ht, hlead⟩ := List.forall_mem_cons.mp h
    have hnext {o : Operand} (ho : t.operand [] = .ok o) (ts : List Token) :
        operands [] (t :: ts) = .next o (operands [] ts) := Source.operandsFrom_operand ho [] ts
    rw [List.cons_append]
    cases leading_of_leads ht with
    | trivia ht =>
      unfold operands
      rw [Source.operandsFrom_trivia ht, Source.operandsFrom_trivia ht]
      exact ih hlead
    | failed hs ho =>
      unfold operands
      rw [Source.operandsFrom_single hs, Source.operandsFrom_single hs, ho]
      rfl
    | label ho =>
      rw [hnext ho, hnext ho]
      exact congrArg (Script.label m.place _) (ih hlead)
    | directive ho hn =>
      rw [hnext ho, hnext ho, ofOperands_directive hn, ofOperands_directive hn, bind_check]
      cases ha : applyDirective _ m with
      | error kind => rfl
      | ok n =>
        rw [← macros_applyDirective ha] at hlead
        exact ih hlead
    | datum ho hd =>
      rw [hnext ho, hnext ho, ofOperands_datum hd, ofOperands_datum hd, ih hlead]
      unfold ofDatum
      rw [bind_check]
      rfl

/-- True of a script that binds no labels and ends in the mode that it began in, if it does not fail. -/
def Keeps (m : Mode) (x : Script) : Prop :=
  ∀ n, x.mode? = some n → n = m ∧ x.labels = []

theorem Keeps.done (m : Mode) : (Script.done m).Keeps m :=
  fun _ h => ⟨(Option.some.inj h).symm, rfl⟩

theorem Keeps.failed (m : Mode) (e : Error) : (Script.failed e).Keeps m :=
  fun _ h => nomatch h

theorem Keeps.check {α : Type} {file : String} (result : Except ErrorKind α) {f : α → Script}
    (h : ∀ a, (f a).Keeps m) : (check line file result f).Keeps m := by
  cases result with
  | error kind => exact .failed m _
  | ok a => exact h a

theorem labels_bind {x : Script} {n : Mode} (h : x.mode? = some n) (f : Mode → Script) :
    (x.bind f).labels = x.labels ++ (f n).labels := by
  induction x with
  | done mode =>
    cases h
    rfl
  | failed error => cases h
  | label place name rest ih => exact congrArg (name :: ·) (ih h)
  | globals names line rest ih => exact ih h
  | piece place location p rest ih => exact ih h
  | expansion call body rest _ ih =>
    obtain ⟨inner, -, h⟩ := Option.bind_eq_some_iff.mp h
    exact ih h

theorem Keeps.bind {x : Script} {f : Mode → Script} (h : x.Keeps m) (hf : (f m).Keeps m) :
    (x.bind f).Keeps m := by
  intro n hn
  rw [mode?_bind] at hn
  obtain ⟨k, hk, hn⟩ := Option.bind_eq_some_iff.mp hn
  obtain ⟨rfl, hlabels⟩ := h k hk
  obtain ⟨hmode, hlabels'⟩ := hf n hn
  refine ⟨hmode, ?_⟩
  rw [labels_bind hk, hlabels, hlabels']
  rfl

theorem keeps_ofExpansion (catalog : Catalog) (file : String) (depth : Nat) (e : Expansion)
    (m : Mode) : (ofExpansion catalog file depth e m).Keeps m := by
  intro n hn
  refine ⟨keepsMode_ofExpansion catalog file depth e m n hn, ?_⟩
  cases depth <;> rfl

private theorem operandsFrom_inside {bindings : Source.Bindings} (items : List Operand)
    (outer : List (List Operand)) (ts : List Token) :
    (∃ kind, operandsFrom bindings (items :: outer) ts = .failed kind) ∨
      ∃ js rest, operandsFrom bindings (items :: outer) ts = .next (.group js) rest := by
  induction ts generalizing items outer with
  | nil => exact .inl ⟨_, rfl⟩
  | cons t ts ih =>
    by_cases ht : t.isTrivia = true
    · rw [Source.operandsFrom_trivia ht]
      exact ih items outer
    by_cases ho : t.kind = .openParen
    · rw [Source.operandsFrom_openParen ho]
      exact ih [] (items :: outer)
    by_cases hc : t.kind = .closeParen
    · rw [Source.operandsFrom_closeParen hc]
      cases outer with
      | nil => exact .inr ⟨_, _, rfl⟩
      | cons items' outer => exact ih _ outer
    rw [Source.operandsFrom_single (Source.isSingle_of_not ht ho hc)]
    cases t.operand bindings with
    | error kind => exact .inl ⟨kind, rfl⟩
    | ok o => exact ih (o :: items) outer

/-- A directive that neither sets the segment or the data format nor exports labels is an error. -/
private theorem applyDirective_of_not_alters {text : List Char}
    (ha : alters ⟨.directive, text⟩ = false)
    (hg : Directive.ofName? (String.ofList text.tail) ≠ some .global) (m : Mode) :
    ∃ kind, applyDirective (String.ofList text.tail) m = .error kind := by
  simp only [alters] at ha
  unfold applyDirective
  cases hd : Directive.ofName? (String.ofList text.tail) with
  | none => exact ⟨_, rfl⟩
  | some directive =>
    rw [hd] at ha hg
    cases directive with
    | segment place => cases ha
    | data format => cases ha
    | global => exact absurd rfl hg
    | macroStart => exact ⟨_, rfl⟩
    | macroEnd => exact ⟨_, rfl⟩

section
variable (he : ∀ e m, (expand e m).Keeps m)
include he

theorem keeps_ofInstruction (entry : Entry) (ops : Operands) (m : Mode) :
    (ofInstruction expand c line entry ops m).Keeps m := by
  unfold ofInstruction
  split
  · exact .check _ fun e => he e m
  · dsimp only
    cases Code.failure _ with
    | none => exact Keeps.done m
    | some kind => exact Keeps.failed m ⟨kind, ⟨line, c.file⟩, []⟩

/-- A statement binds no labels and leaves the mode as it is. -/
theorem keeps_statement {t : Token} (ht : leads m.macros t = false) (rest : List Token) :
    (ofOperands expand c line (operands [] (t :: rest)) m).Keeps m := by
  have hnext {o : Operand} (ho : t.operand [] = .ok o) :
      operands [] (t :: rest) = .next o (operands [] rest) := Source.operandsFrom_operand ho [] rest
  obtain ⟨kind, text⟩ := t
  cases kind with
  | instruction entry =>
    rw [hnext rfl]
    exact keeps_ofInstruction he entry _ m
  | register r => exact .failed m _
  | placeholder => exact .failed m _
  | directive =>
    rw [hnext rfl]
    simp only [ofOperands]
    split_ifs with hg
    · exact .check _ fun names => Keeps.done m
    · obtain ⟨kind, ha⟩ := applyDirective_of_not_alters ht hg m
      rw [ha]
      exact .failed m _
  | symbol =>
    rw [hnext rfl]
    have hm : m.macros.lookup (String.ofList text) ≠ none := by
      intro hn
      simp [leads, hn] at ht
    obtain ⟨definition, hm⟩ := Option.ne_none_iff_exists'.mp hm
    simp only [ofOperands, hm]
    exact .check _ fun e => he e m
  | openString => exact .failed m _
  | openChar => exact .failed m _
  | openParen =>
    have ho : operands [] (⟨.openParen, text⟩ :: rest) = operandsFrom [] [[]] rest :=
      Source.operandsFrom_openParen rfl [] rest
    rw [ho]
    rcases operandsFrom_inside [] [] rest with ⟨kind, h⟩ | ⟨js, ops, h⟩
    · rw [h]
      exact .failed m _
    · rw [h]
      exact .failed m _
  | closeParen => exact .failed m _
  | label => cases ht
  | _ => cases ht

/-- A plain line binds no labels and leaves the mode as it is. -/
theorem keeps_of_plain {tokens : List Token} (h : Plain m.macros tokens) :
    (ofOperands expand c line (operands [] tokens) m).Keeps m := by
  unfold Plain at h
  induction tokens with
  | nil => exact .done m
  | cons t rest ih =>
    have hnext {o : Operand} (ho : t.operand [] = .ok o) :
        operands [] (t :: rest) = .next o (operands [] rest) :=
      Source.operandsFrom_operand ho [] rest
    cases hl : leads m.macros t with
    | false => exact keeps_statement he hl rest
    | true =>
      rw [List.takeWhile_cons_of_pos hl, List.forall_mem_cons] at h
      obtain ⟨ht, h⟩ := h
      cases leading_of_leads hl with
      | trivia hs =>
        unfold operands
        rw [Source.operandsFrom_trivia hs]
        exact ih h
      | failed hs ho =>
        unfold operands
        rw [Source.operandsFrom_single hs, ho]
        exact .failed m _
      | label ho ha => exact absurd ha (by simp [ht])
      | directive ho hn ha => exact absurd ha (by simp [ht])
      | datum ho hd =>
        rw [hnext ho, ofOperands_datum hd]
        exact .check _ fun stored => ih h

/-- Lines with the operands of plain lines bind no labels and leave the mode as it is. -/
theorem keeps_ofItems {ls : List Source.Line}
    (h : ∀ l ∈ ls, ∃ tokens, operands c.bindings l.tokens = operands [] tokens ∧
      Plain m.macros tokens) : (ofItems expand c (ls.map .line) m).Keeps m := by
  induction ls with
  | nil => exact .done m
  | cons l ls ih =>
    obtain ⟨⟨tokens, ht, hplain⟩, hls⟩ := List.forall_mem_cons.mp h
    simp only [List.map_cons, ofItems]
    rw [ht]
    exact (keeps_of_plain he hplain).bind (ih hls)

end

end Script

end RiscvToolkit.Assembly
