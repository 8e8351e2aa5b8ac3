import RiscvToolkit.Proofs.Source.Block

/-! Line numbers. The items of a block, and the lines of the macros among them, have the numbers of its lines. -/
namespace RiscvToolkit.Source

/-- The number of the line that an item begins with. -/
def Item.number : Item → Nat
  | .line l => l.number
  | .definition number _ => number

/-- True of a macro whose lines all have a number with `P`. -/
def Macro.Numbered (P : Nat → Prop) (m : Macro) : Prop :=
  ∀ l ∈ m.body, P l.number

/-- True of an item that begins with a number with `P`, as all lines do of the macro that it may define. -/
def Item.Numbered (P : Nat → Prop) (item : Item) : Prop :=
  P item.number ∧ ∀ number named, item = .definition number (.ok named) → named.2.Numbered P

section
variable {P : Nat → Prop}

theorem Item.numbered_line {l : Line} (h : P l.number) : (Item.line l).Numbered P := by
  refine ⟨h, ?_⟩
  rintro number named ⟨⟩

theorem Item.numbered_failed {number : Nat} {kind : Assembly.ErrorKind} (h : P number) :
    (Item.definition number (.error kind)).Numbered P := by
  refine ⟨h, ?_⟩
  rintro number named ⟨⟩

private theorem numbered_itemsFrom {u : Option Unfinished} {ls : List Line}
    (hu : ∀ v ∈ u, P v.number ∧ ∀ l ∈ v.body, P l.number) (h : ∀ l ∈ ls, P l.number) :
    ∀ item ∈ itemsFrom u ls, item.Numbered P := by
  fun_induction itemsFrom u ls with
  | case1 => exact List.forall_mem_nil _
  | case2 u => exact List.forall_mem_singleton.mpr (Item.numbered_failed (hu u rfl).1)
  | case3 l rest hl name params hh ih =>
    obtain ⟨hn, hrest⟩ := List.forall_mem_cons.mp h
    refine ih ?_ hrest
    rintro _ ⟨⟩
    exact ⟨hn, List.forall_mem_nil _⟩
  | case4 l rest hl kind hh ih =>
    obtain ⟨hn, hrest⟩ := List.forall_mem_cons.mp h
    exact List.forall_mem_cons.mpr ⟨Item.numbered_failed hn, ih hu hrest⟩
  | case5 l rest hl ih =>
    obtain ⟨hn, hrest⟩ := List.forall_mem_cons.mp h
    exact List.forall_mem_cons.mpr ⟨Item.numbered_line hn, ih hu hrest⟩
  | case6 u l rest hl ih =>
    obtain ⟨-, hrest⟩ := List.forall_mem_cons.mp h
    obtain ⟨hn, hbody⟩ := hu u rfl
    refine List.forall_mem_cons.mpr ⟨⟨hn, ?_⟩, ih (by rintro _ ⟨⟩) hrest⟩
    rintro _ _ ⟨⟩ r hr
    exact hbody r (List.mem_reverse.mp hr)
  | case7 u l rest hl ih =>
    obtain ⟨hn, hrest⟩ := List.forall_mem_cons.mp h
    obtain ⟨hfirst, hbody⟩ := hu u rfl
    refine ih ?_ hrest
    rintro _ ⟨⟩
    exact ⟨hfirst, List.forall_mem_cons.mpr ⟨hn, hbody⟩⟩

theorem numbered_items {ls : List Line} (h : ∀ l ∈ ls, P l.number) :
    ∀ item ∈ items ls, item.Numbered P :=
  numbered_itemsFrom (by rintro _ ⟨⟩) h

end

/-- The lines of a text are counted from 1. -/
theorem number_of_mem_linesOf {catalog : Catalog} {text : String} {l : Line}
    (h : l ∈ linesOf catalog text) :
    1 ≤ l.number ∧ l.number ≤ (Text.lines text.toList).length := by
  obtain ⟨⟨line, i⟩, hi, rfl⟩ := List.mem_map.mp h
  have hlt := List.snd_lt_of_mem_zipIdx hi
  dsimp only at hlt ⊢
  omega

end RiscvToolkit.Source
