import RiscvToolkit.Proofs.Checked.Operand

/-! Blocks of lines with slices by byte. -/
namespace RiscvToolkit.Checked
open Source (Item Line Operands Unfinished)
open Assembly (ErrorKind)

/-- The directive that a line starts with, without its point. -/
def leading? (l : Line) : Except Defect (Option (List Char)) :=
  match l.tokens.find? (·.kind ≠ .space) with
  | some t => if t.kind = .directive then (after 1 t.text).map some else .ok none
  | none => .ok none

def linesOf (catalog : Catalog) (text : String) : Except Defect (List Line) :=
  (Text.lines text.toList).zipIdx.mapM fun (line, i) => do return ⟨i + 1, ← tokenize catalog line⟩

/-- The name and the parameters in a macro header. -/
def header (l : Line) : Except Defect (Except ErrorKind (String × List String)) := do
  match ← operands [] l.tokens with
  | .next _ (.next (.symbol name) rest) =>
    return do return (name, ← Source.parameters (← rest.toList))
  | .next _ (.failed kind) => return .error kind
  | _ => return .error .expectedMacroName

/-- The items of the lines that follow an unfinished definition, or follow none. -/
def itemsFrom : Option Unfinished → List Line → Except Defect (List Item)
  | none, [] => .ok []
  | some u, [] => .ok [.definition u.number (.error .unterminatedMacro)]
  | none, l :: rest => do
    if (← leading? l) = some "macro".toList then
      match ← header l with
      | .ok (name, params) => itemsFrom (some ⟨l.number, name, params, []⟩) rest
      | .error kind => return .definition l.number (.error kind) :: (← itemsFrom none rest)
    else return .line l :: (← itemsFrom none rest)
  | some u, l :: rest => do
    if (← leading? l) = some "end_macro".toList then
      return .definition u.number (.ok (u.name, ⟨u.params, u.body.reverse⟩)) ::
        (← itemsFrom none rest)
    else itemsFrom (some { u with body := l :: u.body }) rest

def items (lines : List Line) : Except Defect (List Item) :=
  itemsFrom none lines

/-! ### Agreement -/

/-- True of lines that are made of tokens of their catalog. -/
def SoundLine (catalog : Catalog) (l : Line) : Prop :=
  ∀ t ∈ l.tokens, Shaped catalog t ∧ byteSize t.text < textLimit

section
variable {catalog : Catalog}

theorem soundLine_tokenize {line : List Char} (h : byteSize line < textLimit) (number : Nat) :
    SoundLine catalog ⟨number, Source.tokenize catalog line⟩ := fun _ ht =>
  ⟨shaped_tokenize ht, (byteSize_le_of_mem ht).trans_lt h⟩

theorem leading?_eq {l : Line} (h : SoundLine catalog l) : leading? l = .ok l.leading? := by
  unfold leading? Line.leading?
  cases hf : l.tokens.find? (·.kind ≠ .space) with
  | none => rfl
  | some t =>
    obtain ⟨hshaped, -⟩ := h t (List.mem_of_find?_eq_some hf)
    by_cases hk : t.kind = .directive
    · unfold Shaped at hshaped
      rw [hk] at hshaped
      dsimp only
      rw [if_pos hk, if_pos hk, after_one_of_head? rfl hshaped]
      rfl
    · dsimp only
      rw [if_neg hk, if_neg hk]

theorem header_eq {l : Line} (h : SoundLine catalog l) : header l = .ok (Source.header l) := by
  have hread := operands_eq [] fun t ht => (h t ht).1
  unfold header Source.header
  rw [hread, ok_bind]
  rcases Source.operands [] l.tokens with _ | kind | ⟨first, _ | kind | ⟨o, rest⟩⟩
  · rfl
  · rfl
  · rfl
  · rfl
  · cases o <;> rfl

theorem itemsFrom_eq (u? : Option Unfinished) {lines : List Line}
    (h : ∀ l ∈ lines, SoundLine catalog l) :
    itemsFrom u? lines = .ok (Source.itemsFrom u? lines) := by
  induction lines generalizing u? with
  | nil => cases u? <;> rfl
  | cons l rest ih =>
    obtain ⟨hl, hrest⟩ := List.forall_mem_cons.mp h
    have hread (u? : Option Unfinished) := ih u? hrest
    cases u? with
    | none =>
      rw [itemsFrom, Source.itemsFrom, leading?_eq hl, ok_bind]
      split_ifs with hm
      · rw [header_eq hl, ok_bind]
        cases Source.header l with
        | ok named => exact hread _
        | error kind =>
          dsimp only
          rw [hread]
          rfl
      · rw [hread]
        rfl
    | some u =>
      rw [itemsFrom, Source.itemsFrom, leading?_eq hl, ok_bind]
      split_ifs with he
      · rw [hread]
        rfl
      · exact hread _

theorem items_eq {lines : List Line} (h : ∀ l ∈ lines, SoundLine catalog l) :
    items lines = .ok (Source.items lines) :=
  itemsFrom_eq none h

end

/-! ### Lines -/

/-- True of a macro whose body is made of tokens of the catalog. -/
def SoundMacro (catalog : Catalog) (m : Source.Macro) : Prop :=
  ∀ l ∈ m.body, SoundLine catalog l

/-- True of what stands in a block of tokens of the catalog. -/
def SoundItem (catalog : Catalog) : Item → Prop
  | .line l => SoundLine catalog l
  | .definition _ (.ok (_, m)) => SoundMacro catalog m
  | .definition _ (.error _) => True

section
variable {catalog : Catalog}

theorem soundItem_of_itemsFrom {u? : Option Unfinished}
    (hu : ∀ u ∈ u?, ∀ l ∈ u.body, SoundLine catalog l) {lines : List Line}
    (h : ∀ l ∈ lines, SoundLine catalog l) :
    ∀ item ∈ Source.itemsFrom u? lines, SoundItem catalog item := by
  induction lines generalizing u? with
  | nil =>
    cases u? with
    | none => exact List.forall_mem_nil _
    | some u => exact List.forall_mem_singleton.mpr trivial
  | cons l rest ih =>
    obtain ⟨hl, hrest⟩ := List.forall_mem_cons.mp h
    have hnone : ∀ item ∈ Source.itemsFrom none rest, SoundItem catalog item :=
      ih (fun _ hu => absurd hu (Option.not_mem_none _)) hrest
    cases u? with
    | none =>
      rw [Source.itemsFrom]
      split_ifs with hm
      · cases Source.header l with
        | ok named =>
          refine ih (fun u hu => ?_) hrest
          cases hu
          exact List.forall_mem_nil _
        | error kind => exact List.forall_mem_cons.mpr ⟨trivial, hnone⟩
      · exact List.forall_mem_cons.mpr ⟨hl, hnone⟩
    | some u =>
      have hbody := hu u rfl
      rw [Source.itemsFrom]
      split_ifs with he
      · refine List.forall_mem_cons.mpr ⟨fun k hk => ?_, hnone⟩
        exact hbody k (List.mem_reverse.mp hk)
      · refine ih (fun v hv => ?_) hrest
        cases hv
        exact List.forall_mem_cons.mpr ⟨hl, hbody⟩

theorem soundItem_of_items {lines : List Line} (h : ∀ l ∈ lines, SoundLine catalog l) :
    ∀ item ∈ Source.items lines, SoundItem catalog item :=
  soundItem_of_itemsFrom (fun _ hu => absurd hu (Option.not_mem_none _)) h

theorem linesOf_eq (text : String) : linesOf catalog text = .ok (Source.linesOf catalog text) := by
  unfold linesOf Source.linesOf
  simp only [tokenize_eq, ok_bind]
  exact List.mapM_pure

/-- A line is no longer than its text. -/
theorem byteSize_le_of_linesFrom {before text l : List Char} (h : l ∈ Text.linesFrom before text) :
    byteSize l ≤ byteSize before + byteSize text := by
  have hreverse (cs : List Char) : byteSize cs.reverse = byteSize cs := by
    simp [byteSize, List.sum_reverse]
  fun_induction Text.linesFrom before text with
  | case1 before hb => cases h
  | case2 before hb =>
    cases List.mem_singleton.mp h
    exact (hreverse before).le
  | case3 before rest ih =>
    rcases List.mem_cons.mp h with rfl | h
    · unfold Text.closeLine
      split <;> rw [hreverse] <;> simp only [byteSize_cons] <;> omega
    · have hle := ih h
      simp only [byteSize_cons, byteSize_nil] at hle ⊢
      omega
  | case4 before c rest hc ih =>
    have hle := ih h
    simp only [byteSize_cons] at hle ⊢
    omega

theorem soundLine_of_linesOf {text : String} (h : byteSize text.toList < textLimit) :
    ∀ l ∈ Source.linesOf catalog text, SoundLine catalog l := by
  intro l hl
  obtain ⟨⟨line, i⟩, hline, rfl⟩ := List.mem_map.mp hl
  have hmem : line ∈ Text.lines text.toList := List.fst_mem_of_mem_zipIdx hline
  have hle := byteSize_le_of_linesFrom hmem
  rw [byteSize_nil, Nat.zero_add] at hle
  exact soundLine_tokenize (hle.trans_lt h) (i + 1)

end

end RiscvToolkit.Checked
