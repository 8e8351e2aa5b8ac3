import RiscvToolkit.Proofs.Source.Mention

/-! Blocks that read the same. The number of a line is for messages only; a block cut between its definitions
has the items of its parts. -/
namespace RiscvToolkit.Source

/-- True of a definition that its block ends in. -/
def Item.isOpen : Item → Bool
  | .definition _ (.error .unterminatedMacro) => true
  | _ => false

/-- The names of the macros that a block defines. -/
def defined (items : List Item) : List String :=
  items.filterMap fun
    | .definition _ (.ok (name, _)) => some name
    | _ => none

private theorem itemsFrom_append {u : Option Unfinished} {ls rs : List Line}
    (h : ∀ item ∈ itemsFrom u ls, item.isOpen = false) :
    itemsFrom u (ls ++ rs) = itemsFrom u ls ++ itemsFrom none rs := by
  fun_induction itemsFrom u ls with
  | case1 => rfl
  | case2 u => exact absurd (h _ List.mem_cons_self) (by simp [Item.isOpen])
  | case3 l rest hl name params hh ih =>
    simp only [List.cons_append, itemsFrom, if_pos hl, hh]
    exact ih h
  | case4 l rest hl kind hh ih =>
    simp only [List.cons_append, itemsFrom, if_pos hl, hh]
    rw [ih fun item hi => h item (List.mem_cons_of_mem _ hi)]
  | case5 l rest hl ih =>
    simp only [List.cons_append, itemsFrom, if_neg hl]
    rw [ih fun item hi => h item (List.mem_cons_of_mem _ hi)]
  | case6 u l rest hl ih =>
    simp only [List.cons_append, itemsFrom, if_pos hl]
    rw [ih fun item hi => h item (List.mem_cons_of_mem _ hi)]
  | case7 u l rest hl ih =>
    simp only [List.cons_append, itemsFrom, if_neg hl]
    exact ih h

theorem items_append {ls rs : List Line} (h : ∀ item ∈ items ls, item.isOpen = false) :
    items (ls ++ rs) = items ls ++ items rs :=
  itemsFrom_append h

/-- True of blocks that differ at most in the numbers of their lines. -/
def SameText (ls rs : List Line) : Prop :=
  ls.map (·.tokens) = rs.map (·.tokens)

private theorem linesFrom_append {line ls : List Char} (h : ls.getLast? = some '\n')
    (rs : List Char) :
    Text.linesFrom line (ls ++ rs) = Text.linesFrom line ls ++ Text.lines rs := by
  fun_induction Text.linesFrom line ls with
  | case1 => cases h
  | case2 => cases h
  | case3 line rest ih =>
    simp only [List.cons_append, Text.linesFrom]
    cases rest with
    | nil => rfl
    | cons c rest => rw [ih (by simpa using h)]
  | case4 line c rest hc ih =>
    simp only [List.cons_append, Text.linesFrom]
    cases rest with
    | nil => exact absurd (Option.some.inj h) hc
    | cons d rest => exact ih (by simpa using h)

/-- A text cut behind a line feed is cut at a line boundary. -/
theorem lines_append {ls : List Char} (h : ls.getLast? = some '\n') (rs : List Char) :
    Text.lines (ls ++ rs) = Text.lines ls ++ Text.lines rs :=
  linesFrom_append h rs

private theorem newline_notMem_linesFrom {line text : List Char} (h : '\n' ∉ line) :
    ∀ l ∈ Text.linesFrom line text, '\n' ∉ l := by
  fun_induction Text.linesFrom line text with
  | case1 => exact fun _ hl => nomatch hl
  | case2 line => simpa using h
  | case3 line rest ih =>
    refine List.forall_mem_cons.mpr ⟨?_, ih List.not_mem_nil⟩
    unfold Text.closeLine
    split
    · rw [List.mem_reverse]
      exact fun hm => h (List.mem_cons_of_mem _ hm)
    · rwa [List.mem_reverse]
  | case4 line c rest hc ih =>
    refine ih fun hm => ?_
    rcases List.mem_cons.mp hm with hm | hm
    · exact hc hm.symm
    · exact h hm

theorem newline_notMem_of_mem_lines {text l : List Char} (h : l ∈ Text.lines text) : '\n' ∉ l :=
  newline_notMem_linesFrom List.not_mem_nil l h

/-- Lines with their ends make a text of these lines. -/
theorem lines_flatMap {ls : List (List Char)} (h : ∀ l ∈ ls, '\n' ∉ l) :
    Text.lines (ls.flatMap (· ++ ['\r', '\n'])) = ls := by
  have hline (line l rest : List Char) (hl : '\n' ∉ l) :
      Text.linesFrom line (l ++ '\r' :: '\n' :: rest) =
        (line.reverse ++ l) :: Text.lines rest := by
    induction l generalizing line with
    | nil => simp [Text.linesFrom, Text.closeLine, Text.lines]
    | cons c l ih =>
      have hc : c ≠ '\n' := fun hc => hl (hc ▸ List.mem_cons_self)
      rw [List.cons_append, Text.linesFrom.eq_3 line c _ hc,
        ih (c :: line) fun hm => hl (List.mem_cons_of_mem c hm)]
      simp
  induction ls with
  | nil => rfl
  | cons l ls ih =>
    obtain ⟨hl, hls⟩ := List.forall_mem_cons.mp h
    rw [List.flatMap_cons, List.append_assoc]
    exact (hline [] l _ hl).trans (congrArg (l :: ·) (ih hls))

theorem exists_tokenize_of_mem {catalog : Catalog} {text : String} {l : Line}
    (h : l ∈ linesOf catalog text) : ∃ line, l.tokens = tokenize catalog line := by
  obtain ⟨⟨line, i⟩, -, rfl⟩ := List.mem_map.mp h
  exact ⟨line, rfl⟩

/-- Lines with `n` lines before them. -/
def numbered (catalog : Catalog) (n : Nat) (ls : List (List Char)) : List Line :=
  (ls.zipIdx n).map fun (line, i) => ⟨i + 1, tokenize catalog line⟩

theorem tokens_numbered (catalog : Catalog) (n : Nat) (ls : List (List Char)) :
    (numbered catalog n ls).map (·.tokens) = ls.map (tokenize catalog) := by
  induction ls generalizing n with
  | nil => rfl
  | cons l rest ih => exact congrArg _ (ih (n + 1))

theorem numbered_append (catalog : Catalog) (n : Nat) (ls rs : List (List Char)) :
    numbered catalog n (ls ++ rs) =
      numbered catalog n ls ++ numbered catalog (n + ls.length) rs := by
  unfold numbered
  rw [List.zipIdx_append, List.map_append]

theorem exists_tokenize_of_mem_numbered {catalog : Catalog} {n : Nat} {ls : List (List Char)}
    {l : Line} (h : l ∈ numbered catalog n ls) : ∃ line ∈ ls, l.tokens = tokenize catalog line := by
  obtain ⟨⟨line, i⟩, hi, rfl⟩ := List.mem_map.mp h
  exact ⟨line, List.fst_mem_of_mem_zipIdx hi, rfl⟩

theorem forall₂_numbered {α : Type} {catalog : Catalog} {n : Nat} {f : α → List Char}
    {R : α → List Token → Prop} {xs : List α} (h : ∀ x ∈ xs, R x (tokenize catalog (f x))) :
    List.Forall₂ (fun x (l : Line) => R x l.tokens) xs (numbered catalog n (xs.map f)) := by
  induction xs generalizing n with
  | nil => exact .nil
  | cons x xs ih =>
    obtain ⟨hx, hxs⟩ := List.forall_mem_cons.mp h
    exact .cons hx (ih hxs)

/-- The number of a line is no part of its text. -/
theorem sameText_numbered (catalog : Catalog) (m n : Nat) (ls : List (List Char)) :
    SameText (numbered catalog m ls) (numbered catalog n ls) :=
  (tokens_numbered catalog m ls).trans (tokens_numbered catalog n ls).symm

/-- The lines of a text cut at a line boundary, whose second part is numbered anew. -/
theorem linesOf_append (catalog : Catalog) {whole first second : String}
    (h : Text.lines whole.toList = Text.lines first.toList ++ Text.lines second.toList) :
    ∃ rest, linesOf catalog whole = linesOf catalog first ++ rest ∧
      SameText rest (linesOf catalog second) := by
  refine ⟨numbered catalog (0 + (Text.lines first.toList).length) (Text.lines second.toList),
    ?_, sameText_numbered catalog _ 0 _⟩
  change numbered catalog 0 (Text.lines whole.toList) = _
  rw [h, numbered_append]
  rfl

section
variable (catalog : Catalog) (known : String → Prop)

/-- True if every name that lines mention is known. -/
def MentionsOnly (ls : List Line) : Prop :=
  ∀ l ∈ ls, ∀ name, Mentions catalog name l.tokens → known name

structure Macro.Alike (m n : Macro) : Prop where
  params : m.params = n.params
  body : SameText m.body n.body
  mentions : MentionsOnly catalog known m.body

/-- True of items of blocks that read the same. -/
inductive Item.Alike : Item → Item → Prop
  | line {l r : Line} (ht : l.tokens = r.tokens) (hm : MentionsOnly catalog known [l]) :
    Item.Alike (.line l) (.line r)
  | definition {i j : Nat} {name : String} {m n : Macro} (h : m.Alike catalog known n) :
    Item.Alike (.definition i (.ok (name, m))) (.definition j (.ok (name, n)))
  | failed {i j : Nat} {kind : Assembly.ErrorKind} :
    Item.Alike (.definition i (.error kind)) (.definition j (.error kind))

private structure Unfinished.Alike (u v : Unfinished) : Prop where
  name : u.name = v.name
  params : u.params = v.params
  body : SameText u.body v.body
  mentions : MentionsOnly catalog known u.body

end

section
variable {catalog : Catalog} {known : String → Prop}

theorem mentionsOnly_cons {l : Line} {ls : List Line} :
    MentionsOnly catalog known (l :: ls) ↔
      MentionsOnly catalog known [l] ∧ MentionsOnly catalog known ls := by
  unfold MentionsOnly
  rw [List.forall_mem_cons, List.forall_mem_singleton]

theorem MentionsOnly.of_sameText {ls rs : List Line} (h : SameText ls rs)
    (hr : MentionsOnly catalog known rs) : MentionsOnly catalog known ls := by
  intro l hl name hm
  have ht : l.tokens ∈ rs.map (·.tokens) := h ▸ List.mem_map_of_mem hl
  obtain ⟨r, hr', he⟩ := List.mem_map.mp ht
  exact hr r hr' name (he ▸ hm)

private theorem alike_itemsFrom {ls rs : List Line} (ht : SameText ls rs)
    (hm : MentionsOnly catalog known ls) :
    List.Forall₂ (Item.Alike catalog known) (itemsFrom none ls) (itemsFrom none rs) ∧
      ∀ u v : Unfinished, u.Alike catalog known v →
        List.Forall₂ (Item.Alike catalog known) (itemsFrom (some u) ls) (itemsFrom (some v) rs) := by
  induction ls generalizing rs with
  | nil =>
    obtain rfl : rs = [] := List.map_eq_nil_iff.mp ht.symm
    exact ⟨.nil, fun u v _ => .cons .failed .nil⟩
  | cons l ls ih =>
    obtain ⟨r, rs, rfl, hr, hrs⟩ := List.map_eq_cons_iff.mp ht.symm
    obtain ⟨hl, hls⟩ := mentionsOnly_cons.mp hm
    obtain ⟨hnone, hsome⟩ := ih (show SameText ls rs from hrs.symm) hls
    have hlead : r.leading? = l.leading? := by
      unfold Line.leading?
      rw [hr]
    have hhead : header r = header l := by
      unfold header
      rw [hr]
    constructor
    · unfold itemsFrom
      rw [hlead, hhead]
      split_ifs
      · cases header l with
        | error kind => exact .cons .failed hnone
        | ok named => exact hsome _ _ ⟨rfl, rfl, rfl, fun _ h => (nomatch h)⟩
      · exact .cons (.line hr.symm hl) hnone
    · intro u v huv
      unfold itemsFrom
      rw [hlead]
      split_ifs
      · rw [huv.name, huv.params]
        refine .cons (.definition ⟨rfl, ?_, ?_⟩) hnone
        · unfold SameText
          rw [List.map_reverse, List.map_reverse, huv.body]
        · exact fun l hl => huv.mentions l (List.mem_reverse.mp hl)
      · refine hsome _ _ ⟨huv.name, huv.params, ?_, ?_⟩
        · unfold SameText
          rw [List.map_cons, List.map_cons, hr, huv.body]
        · exact mentionsOnly_cons.mpr ⟨hl, huv.mentions⟩

theorem alike_items {ls rs : List Line} (ht : SameText ls rs)
    (hm : MentionsOnly catalog known ls) :
    List.Forall₂ (Item.Alike catalog known) (items ls) (items rs) :=
  (alike_itemsFrom ht hm).1

end

end RiscvToolkit.Source
