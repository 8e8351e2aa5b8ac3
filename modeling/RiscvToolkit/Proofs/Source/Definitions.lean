import RiscvToolkit.Proofs.Source.Block
import RiscvToolkit.Proofs.Source.Spans

/-! The macros of a block. Their bodies are lines of the block; read as a block of its own, such a body has either
no definition or one that fails. -/
namespace RiscvToolkit.Source

/-- The macros that a block defines, the latest first. -/
def definitions (items : List Item) : List (String × Macro) :=
  (items.filterMap fun
    | .definition _ (.ok named) => some named
    | _ => none).reverse

theorem definitions_cons (item : Item) (items : List Item) :
    definitions (item :: items) = definitions items ++ definitions [item] := by
  unfold definitions
  rw [← List.reverse_append, ← List.filterMap_append, List.singleton_append]

private theorem body_of_mem_itemsFrom {u : Option Unfinished} {ls : List Line} {i : Nat}
    {named : String × Macro} (h : .definition i (.ok named) ∈ itemsFrom u ls) :
    ∀ l ∈ named.2.body,
      (∃ v ∈ u, l ∈ v.body) ∨ l ∈ ls ∧ l.leading? ≠ some "end_macro".toList := by
  have hcons {u : Option Unfinished} {l r : Line} {rest : List Line}
      (h : (∃ v ∈ u, l ∈ v.body) ∨ l ∈ rest ∧ l.leading? ≠ some "end_macro".toList) :
      (∃ v ∈ u, l ∈ v.body) ∨ l ∈ r :: rest ∧ l.leading? ≠ some "end_macro".toList :=
    h.imp_right fun h => ⟨List.mem_cons_of_mem _ h.1, h.2⟩
  fun_induction itemsFrom u ls with
  | case1 => cases h
  | case2 u =>
    cases List.mem_singleton.mp h
  | case3 l rest hl name params hh ih =>
    intro r hr
    rcases ih h r hr with ⟨v, ⟨⟩, hv⟩ | hr
    · cases hv
    · exact hcons (.inr hr)
  | case4 l rest hl kind hh ih =>
    intro r hr
    rcases List.mem_cons.mp h with h | h
    · cases h
    · exact hcons (ih h r hr)
  | case5 l rest hl ih =>
    intro r hr
    rcases List.mem_cons.mp h with h | h
    · cases h
    · exact hcons (ih h r hr)
  | case6 u l rest hl ih =>
    intro r hr
    rcases List.mem_cons.mp h with h | h
    · cases h
      exact .inl ⟨u, rfl, List.mem_reverse.mp hr⟩
    · rcases ih h r hr with ⟨v, ⟨⟩, -⟩ | hr
      exact hcons (.inr hr)
  | case7 u l rest hl ih =>
    intro r hr
    rcases ih h r hr with ⟨v, hv, hr⟩ | hr
    · cases hv
      rcases List.mem_cons.mp hr with rfl | hr
      · exact .inr ⟨List.mem_cons_self, hl⟩
      · exact .inl ⟨u, rfl, hr⟩
    · exact hcons (.inr hr)

theorem body_of_mem_definitions {ls : List Line} {named : String × Macro}
    (h : named ∈ definitions (items ls)) :
    ∀ l ∈ named.2.body, l ∈ ls ∧ l.leading? ≠ some "end_macro".toList := by
  obtain ⟨item, hi, hn⟩ := List.mem_filterMap.mp (List.mem_reverse.mp h)
  intro l hl
  split at hn
  · cases hn
    rcases body_of_mem_itemsFrom hi l hl with ⟨v, ⟨⟩, -⟩ | hl
    exact hl
  · cases hn

/-- A block that begins with lines outside of definitions. -/
theorem items_append_of_leading? {ls : List Line}
    (h : ∀ l ∈ ls, l.leading? ≠ some "macro".toList) (rs : List Line) :
    items (ls ++ rs) = ls.map .line ++ items rs := by
  induction ls with
  | nil => rfl
  | cons l ls ih =>
    obtain ⟨hl, hls⟩ := List.forall_mem_cons.mp h
    have hi : items (l :: (ls ++ rs)) = .line l :: items (ls ++ rs) := by
      unfold items
      rw [itemsFrom, if_neg hl]
    rw [List.cons_append, hi, ih hls]
    rfl

/-- True of a definition that is wrong. -/
def Item.isFailed : Item → Bool
  | .definition _ (.error _) => true
  | _ => false

private theorem itemsFrom_some {ls : List Line}
    (h : ∀ l ∈ ls, l.leading? ≠ some "end_macro".toList) (u : Unfinished) :
    itemsFrom (some u) ls = [.definition u.number (.error .unterminatedMacro)] := by
  induction ls generalizing u with
  | nil => rfl
  | cons l ls ih =>
    obtain ⟨hl, hls⟩ := List.forall_mem_cons.mp h
    rw [itemsFrom, if_neg hl, ih hls]

/-- Lines without the end of a definition have no definition in them but one that fails. -/
theorem items_eq_map_of_body {ls : List Line}
    (hend : ∀ l ∈ ls, l.leading? ≠ some "end_macro".toList)
    (h : ∀ item ∈ items ls, item.isFailed = false) : items ls = ls.map .line := by
  induction ls with
  | nil => rfl
  | cons l ls ih =>
    obtain ⟨-, hls⟩ := List.forall_mem_cons.mp hend
    unfold items at h ih ⊢
    rw [itemsFrom] at h ⊢
    split_ifs at h ⊢ with hl
    · exfalso
      cases hh : header l with
      | error kind =>
        rw [hh] at h
        exact absurd (h _ List.mem_cons_self) (by simp [Item.isFailed])
      | ok named =>
        rw [hh] at h
        dsimp only at h
        rw [itemsFrom_some hls] at h
        exact absurd (h _ List.mem_cons_self) (by simp [Item.isFailed])
    · rw [ih hls fun item hi => h item (List.mem_cons_of_mem _ hi)]
      rfl

/-- A line that starts with a directive reads as one. -/
theorem operands_of_leading? {bindings : Bindings} {l : Line} {name : List Char}
    (h : l.leading? = some name) :
    ∃ rest, operands bindings l.tokens = .next (.directive (String.ofList name)) rest := by
  unfold Line.leading? at h
  unfold operands
  generalize l.tokens = ts at h ⊢
  induction ts with
  | nil => cases h
  | cons t ts ih =>
    by_cases hs : t.kind = .space
    · rw [List.find?_cons_of_neg (by simp [hs])] at h
      rw [operandsFrom_trivia (Token.isTrivia_iff.mpr (.inl hs))]
      exact ih h
    · rw [List.find?_cons_of_pos (by simp [hs])] at h
      dsimp only at h
      split_ifs at h with hd
      cases h
      have ho : t.operand bindings = .ok (.directive (String.ofList t.text.tail)) := by
        unfold Token.operand
        rw [hd]
      exact ⟨_, operandsFrom_operand ho [] ts⟩

end RiscvToolkit.Source
