import RiscvToolkit.Proofs.Source.Spans

/-! What is true of all operands of a line follows from what is true of its tokens. -/
namespace RiscvToolkit.Source
open Assembly (ErrorKind)

namespace Operands

/-- True of operands that are all `P`, and end with an error that is `Q`, if with one. -/
def All (P : Operand → Prop) (Q : ErrorKind → Prop) : Operands → Prop
  | done => True
  | failed kind => Q kind
  | next head tail => P head ∧ tail.All P Q

variable {P : Operand → Prop} {Q : ErrorKind → Prop}

theorem All.of_toList {ops : Operands} (h : ops.All P Q) {os : List Operand}
    (ho : ops.toList = .ok os) : ∀ o ∈ os, P o := by
  induction ops generalizing os with
  | done =>
    cases ho
    exact List.forall_mem_nil _
  | failed kind => cases ho
  | next head tail ih =>
    obtain ⟨rest, rfl, hrest⟩ := toList_next ho
    exact List.forall_mem_cons.mpr ⟨h.1, ih h.2 hrest⟩

theorem All.of_toList_error {ops : Operands} (h : ops.All P Q) {kind : ErrorKind}
    (ho : ops.toList = .error kind) : Q kind := by
  induction ops with
  | done => cases ho
  | failed kind =>
    cases ho
    exact h
  | next head tail ih =>
    unfold Operands.toList at ho
    cases ht : tail.toList with
    | error kind =>
      rw [ht] at ho
      cases ho
      exact ih h.2 ht
    | ok rest =>
      rw [ht] at ho
      cases ho

end Operands

section
variable {bindings : Bindings} {P : Operand → Prop} {Q : ErrorKind → Prop}

private theorem all_put {ts : List Token}
    (ih : ∀ outer : List (List Operand), (∀ items ∈ outer, ∀ o ∈ items, P o) →
      (operandsFrom bindings outer ts).All P Q)
    {o : Operand} (ho : P o) {outer : List (List Operand)}
    (hout : ∀ items ∈ outer, ∀ o ∈ items, P o) : (put bindings o outer ts).All P Q := by
  cases outer with
  | nil => exact ⟨ho, ih [] hout⟩
  | cons items outer =>
    obtain ⟨hitems, hout⟩ := List.forall_mem_cons.mp hout
    exact ih _ (List.forall_mem_cons.mpr ⟨List.forall_mem_cons.mpr ⟨ho, hitems⟩, hout⟩)

/-- Operands are made of what the tokens make, in groups or not. -/
theorem all_operandsFrom (hg : ∀ items, (∀ o ∈ items, P o) → P (.group items))
    (hq : Q .unmatchedParen) {ts : List Token}
    (hok : ∀ t ∈ ts, ∀ o, t.operand bindings = .ok o → P o)
    (herror : ∀ t ∈ ts, ∀ kind, t.operand bindings = .error kind → Q kind)
    {outer : List (List Operand)} (hout : ∀ items ∈ outer, ∀ o ∈ items, P o) :
    (operandsFrom bindings outer ts).All P Q := by
  induction ts generalizing outer with
  | nil =>
    cases outer with
    | nil => trivial
    | cons items outer => exact hq
  | cons t ts ih =>
    obtain ⟨htok, hok⟩ := List.forall_mem_cons.mp hok
    obtain ⟨hterror, herror⟩ := List.forall_mem_cons.mp herror
    have hrest (outer : List (List Operand)) (hout : ∀ items ∈ outer, ∀ o ∈ items, P o) :=
      ih hok herror hout
    by_cases ht : t.isTrivia = true
    · rw [operandsFrom_trivia ht]
      exact hrest outer hout
    by_cases hopen : t.kind = .openParen
    · rw [operandsFrom_openParen hopen]
      exact hrest _ (List.forall_mem_cons.mpr ⟨List.forall_mem_nil _, hout⟩)
    by_cases hclose : t.kind = .closeParen
    · cases outer with
      | nil =>
        rw [operandsFrom_stray hclose]
        exact hq
      | cons items outer =>
        obtain ⟨hitems, hout⟩ := List.forall_mem_cons.mp hout
        rw [operandsFrom_closeParen hclose]
        exact all_put hrest (hg _ fun o ho => hitems o (List.mem_reverse.mp ho)) hout
    rw [operandsFrom_single (isSingle_of_not ht hopen hclose)]
    cases ho : t.operand bindings with
    | error kind => exact hterror kind ho
    | ok o => exact all_put hrest (htok o ho) hout

end

end RiscvToolkit.Source
