import RiscvToolkit.Proofs.Source.Substitute
import RiscvToolkit.Source.Block

/-! Lines without their layout: the tokens that are left once spaces and trailing comments are gone. What reads
a line reads the same without it. -/
namespace RiscvToolkit.Source
open Assembly (ErrorKind)

/-- Tokens without space and without the comments at their end. -/
def stripped : List Token → List Token
  | [] => []
  | t :: rest =>
    if t.kind = .space ∨ t.kind = .comment ∧ stripped rest = [] then stripped rest
    else t :: stripped rest

theorem significant_stripped (tokens : List Token) :
    significant (stripped tokens) = significant tokens := by
  induction tokens with
  | nil => rfl
  | cons t rest ih =>
    rw [stripped]
    split_ifs with h
    · rw [ih, significant_trivia (Token.isTrivia_iff.mpr (h.imp_right And.left))]
    · rw [significant_cons t (stripped rest), ih, ← significant_cons]

theorem operands_stripped (bindings : Bindings) (tokens : List Token) :
    operands bindings (stripped tokens) = operands bindings tokens := by
  unfold operands
  rw [← operandsFrom_significant, significant_stripped, operandsFrom_significant]

/-- Comments stand at the end of a line, so that nothing is left but what operands are read from. -/
theorem Joined.stripped_eq {catalog : Catalog} {tokens : List Token} (h : Joined catalog tokens) :
    stripped tokens = significant tokens := by
  induction tokens with
  | nil => rfl
  | cons t rest ih =>
    obtain ⟨-, hnext, hrest⟩ := joined_cons.mp h
    rw [stripped, ih hrest]
    by_cases ht : t.isTrivia = true
    · have hdrop : t.kind = .space ∨ t.kind = .comment ∧ significant rest = [] := by
        refine (Token.isTrivia_iff.mp ht).imp_right fun hc => ⟨hc, ?_⟩
        cases rest with
        | nil => rfl
        | cons u rest =>
          have hmore := (hnext u rfl).more
          rw [hc] at hmore
          cases hmore
      rw [if_pos hdrop, significant_trivia ht]
    · rw [if_neg fun h => ht (Token.isTrivia_iff.mpr (h.imp_right And.left)), significant_token ht]

def Line.stripped (l : Line) : Line :=
  { l with tokens := Source.stripped l.tokens }

def Macro.stripped (m : Macro) : Macro :=
  { m with body := m.body.map Line.stripped }

def Item.stripped : Item → Item
  | .line l => .line l.stripped
  | .definition number result => .definition number (result.map fun (name, m) => (name, m.stripped))

/-- What is read from a line. -/
theorem Line.read_eq {l r : Line} (h : l.stripped = r.stripped) (bindings : Bindings) :
    l.number = r.number ∧ operands bindings l.tokens = operands bindings r.tokens := by
  obtain ⟨hnumber, htokens⟩ := Line.mk.inj h
  refine ⟨hnumber, ?_⟩
  rw [← operands_stripped, htokens, operands_stripped]

theorem leading?_stripped (l : Line) : l.stripped.leading? = l.leading? := by
  obtain ⟨number, tokens⟩ := l
  unfold Line.stripped Line.leading?
  dsimp only
  induction tokens with
  | nil => rfl
  | cons t rest ih =>
    rw [Source.stripped]
    by_cases hs : t.kind = .space
    · rw [if_pos (.inl hs), ih, List.find?_cons_of_neg (by simp [hs])]
    · have hfirst (more : List Token) : (t :: more).find? (·.kind ≠ .space) = some t :=
        List.find?_cons_of_pos (by simpa using hs)
      by_cases hdrop : t.kind = .comment ∧ Source.stripped rest = []
      · rw [if_pos (.inr hdrop), hdrop.2, hfirst, List.find?_nil]
        simp [hdrop.1]
      · rw [if_neg fun h => hdrop (h.resolve_left hs), hfirst, hfirst]

theorem header_stripped (l : Line) : header l.stripped = header l := by
  unfold header Line.stripped
  rw [operands_stripped]

def Unfinished.stripped (u : Unfinished) : Unfinished :=
  { u with body := u.body.map Line.stripped }

private theorem itemsFrom_stripped (u : Option Unfinished) (ls : List Line) :
    itemsFrom (u.map Unfinished.stripped) (ls.map Line.stripped) =
      (itemsFrom u ls).map Item.stripped := by
  fun_induction itemsFrom u ls with
  | case1 => rfl
  | case2 u => rfl
  | case3 l rest hl name params hh ih =>
    rw [List.map_cons, Option.map_none, itemsFrom, leading?_stripped, if_pos hl, header_stripped, hh]
    exact ih
  | case4 l rest hl kind hh ih =>
    rw [List.map_cons, Option.map_none, itemsFrom, leading?_stripped, if_pos hl, header_stripped, hh]
    exact congrArg _ ih
  | case5 l rest hl ih =>
    rw [List.map_cons, Option.map_none, itemsFrom, leading?_stripped, if_neg hl]
    exact congrArg _ ih
  | case6 u l rest hl ih =>
    rw [List.map_cons, Option.map_some, itemsFrom, leading?_stripped, if_pos hl, List.map_cons]
    refine congrArg₂ _ ?_ ih
    simp [Item.stripped, Unfinished.stripped, Macro.stripped, Except.map]
  | case7 u l rest hl ih =>
    rw [List.map_cons, Option.map_some, itemsFrom, leading?_stripped, if_neg hl]
    exact ih

/-- A block has the items of the lines that it has without layout. -/
theorem items_stripped (ls : List Line) :
    items (ls.map Line.stripped) = (items ls).map Item.stripped :=
  itemsFrom_stripped none ls

/-- A line that defines nothing, at the end of a block. -/
private theorem itemsFrom_append_line {l : Line} (hl : l.leading? = none) (u : Option Unfinished)
    (ls : List Line) :
    itemsFrom u (ls ++ [l]) = itemsFrom u ls ∨
      itemsFrom u (ls ++ [l]) = itemsFrom u ls ++ [.line l] := by
  have hmacro : ¬l.leading? = some "macro".toList := by simp [hl]
  have hend : ¬l.leading? = some "end_macro".toList := by simp [hl]
  fun_induction itemsFrom u ls with
  | case1 =>
    right
    rw [List.nil_append, itemsFrom, if_neg hmacro]
    rfl
  | case2 u =>
    left
    rw [List.nil_append, itemsFrom, if_neg hend]
    rfl
  | case3 m rest hm name params hh ih =>
    simp only [List.cons_append, itemsFrom, if_pos hm, hh]
    exact ih
  | case4 m rest hm kind hh ih =>
    simp only [List.cons_append, itemsFrom, if_pos hm, hh]
    exact ih.imp (congrArg _) (congrArg _)
  | case5 m rest hm ih =>
    simp only [List.cons_append, itemsFrom, if_neg hm]
    exact ih.imp (congrArg _) (congrArg _)
  | case6 u m rest hm ih =>
    simp only [List.cons_append, itemsFrom, if_pos hm]
    exact ih.imp (congrArg _) (congrArg _)
  | case7 u m rest hm ih =>
    simp only [List.cons_append, itemsFrom, if_neg hm]
    exact ih

/-- A line that is no directive adds an item or none, at the end of a block. -/
theorem items_append_line {l : Line} (hl : l.leading? = none) (ls : List Line) :
    items (ls ++ [l]) = items ls ∨ items (ls ++ [l]) = items ls ++ [.line l] :=
  itemsFrom_append_line hl none ls

end RiscvToolkit.Source
