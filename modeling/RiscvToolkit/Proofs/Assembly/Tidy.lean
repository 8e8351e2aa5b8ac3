import RiscvToolkit.Proofs.Assembly.Reading
import RiscvToolkit.Proofs.Assembly.Script

/-! Tidy scripts. A script puts nothing but the words of lines into the text segment, and where it fails by itself it is
for what stands in the text or for calls that nest too deep, never for a label or for room. -/
namespace RiscvToolkit.Assembly
open Source (Operands)

/-- True of errors that are raised by what stands in a text and by calls that nest too deep. -/
def ErrorKind.Early (kind : ErrorKind) : Prop :=
  kind.Textual ∨ ∃ limit, kind = .expansionTooDeep limit

theorem ErrorKind.early_of_textual (kind : ErrorKind) (h : kind.Textual) : kind.Early := .inl h

namespace Script

def Tidy : Script → Prop
  | done _ => True
  | failed error => error.kind.Early
  | label _ _ rest | globals _ _ rest => rest.Tidy
  | piece place _ p rest => (place = .text → ∃ words, p = .code words) ∧ rest.Tidy
  | expansion _ body rest => body.Tidy ∧ rest.Tidy

theorem Tidy.bind {x : Script} (h : x.Tidy) {next : Mode → Script} (hn : ∀ m, (next m).Tidy) :
    (x.bind next).Tidy := by
  induction x with
  | done mode => exact hn mode
  | failed error => exact h
  | label place name rest ih => exact ih h
  | globals names line rest ih => exact ih h
  | piece place location p rest ih => exact ⟨h.1, ih h.2⟩
  | expansion call body rest _ ih => exact ⟨h.1, ih h.2⟩

theorem tidy_check {α : Type} {line : Nat} {file : String} {result : Except ErrorKind α}
    (h : Reading ErrorKind.Early (fun _ => True) result) {next : α → Script}
    (hn : ∀ a, (next a).Tidy) : (check line file result next).Tidy := by
  cases result with
  | ok a => exact hn a
  | error kind => exact h

section
variable {expand : Expansion → Mode → Script} (he : ∀ e m, (expand e m).Tidy)
variable {c : Context} {line : Nat} {ops : Operands}
include he

theorem tidy_ofInstruction (entry : Entry) (h : Readable ErrorKind.Early ops) (m : Mode) :
    (ofInstruction expand c line entry ops m).Tidy := by
  unfold ofInstruction
  split
  · exact tidy_check (reading_templateCall ErrorKind.early_of_textual _ _ _ _ _ h) fun e => he e m
  next encoding _ =>
    refine ⟨fun _ => ⟨_, rfl⟩, ?_⟩
    split
    next => trivial
    next kind hk => exact fails_encode ErrorKind.early_of_textual encoding h kind hk

omit he in
theorem tidy_ofDatum (item : Datum) (m : Mode) {rest : Script} (h : rest.Tidy) :
    (ofDatum c line item m rest).Tidy :=
  tidy_check (reading_store ErrorKind.early_of_textual m item) fun _ => ⟨nofun, h⟩

theorem tidy_ofOperands (h : Readable ErrorKind.Early ops) (m : Mode) :
    (ofOperands expand c line ops m).Tidy := by
  induction ops generalizing m with
  | done => trivial
  | failed kind => exact h
  | next head rest ih =>
    have ih := ih h.2
    cases head with
    | label name => exact ih m
    | directive name =>
      simp only [ofOperands]
      split
      · exact tidy_check (reading_globalNames ErrorKind.early_of_textual name h.2) fun _ => trivial
      · exact tidy_check (reading_applyDirective ErrorKind.early_of_textual name m) ih
    | instruction entry => exact tidy_ofInstruction he entry h.2 m
    | symbol name =>
      simp only [ofOperands]
      split
      next d _ =>
        exact tidy_check (reading_macroCall ErrorKind.early_of_textual line name d h.2)
          fun e => he e m
      next => exact tidy_ofDatum _ m (ih m)
    | int value | float value | string text => exact tidy_ofDatum _ m (ih m)
    | register r | placeholder name | group items => exact .inl trivial

theorem tidy_ofItems {items : List Source.Item}
    (hi : ∀ number result, .definition number result ∈ items →
      Reading ErrorKind.Early (fun _ => True) result) (m : Mode) :
    (ofItems expand c items m).Tidy := by
  induction items generalizing m with
  | nil => trivial
  | cons item rest ih =>
    have ih := ih fun number result hm => hi number result (List.mem_cons_of_mem _ hm)
    cases item with
    | definition number result => exact tidy_check (hi number result List.mem_cons_self) fun _ => ih _
    | line l =>
      exact (tidy_ofOperands he (readable_operands ErrorKind.early_of_textual _ _) m).bind ih

end

theorem tidy_ofExpansion (catalog : Catalog) (file : String) (depth : Nat) (e : Expansion)
    (m : Mode) : (ofExpansion catalog file depth e m).Tidy := by
  induction depth generalizing e m with
  | zero => exact .inr ⟨maxDepth, rfl⟩
  | succ depth ih =>
    have hi (number result) (h : .definition number result ∈ Source.items e.body) :=
      reading_definition ErrorKind.early_of_textual e.body h
    exact ⟨tidy_ofItems ih hi m, trivial⟩

theorem tidy_ofFile (catalog : Catalog) (file : Source.File) : (ofFile catalog file).Tidy :=
  tidy_ofItems (tidy_ofExpansion catalog file.name maxDepth)
    (fun _ _ h => reading_definition ErrorKind.early_of_textual _ h) .start

end Script

end RiscvToolkit.Assembly
