import RiscvToolkit.Proofs.Source.Block
import RiscvToolkit.Proofs.Source.Stripped

/-! Lines laid out anew: with other runs of space between tokens and at the ends, or without their comments. They
keep their significant tokens, also where the end of the line in a text takes a carriage return with it. -/
namespace RiscvToolkit.Source

/-- True of what may stand between tokens of one line. -/
def IsRun (cs : List Char) : Prop :=
  cs ≠ [] ∧ ∀ c ∈ cs, isSpace c = true ∧ c ≠ '\n'

instance (cs : List Char) : Decidable (IsRun cs) :=
  decidable_of_iff (cs ≠ [] ∧ cs.all fun c => isSpace c && c != '\n') (by simp [IsRun])

section
variable (catalog : Catalog)

/-- One change in the layout of a line. -/
inductive Relaid : List Char → List Char → Prop
  | replace {line run : List Char} {before after : List Token} {space : Token}
    (h : tokenize catalog line = before ++ space :: after) (hs : space.kind = .space)
    (hr : IsRun run) : Relaid line (textOf before ++ run ++ textOf after)
  /-- Nothing is put behind a literal that is not closed: it would become a part of it. -/
  | insert {line run : List Char} {before after : List Token}
    (h : tokenize catalog line = before ++ after)
    (ho : ∀ t ∈ before.getLast?, t.kind ≠ .openString ∧ t.kind ≠ .openChar) (hr : IsRun run) :
    Relaid line (textOf before ++ run ++ textOf after)
  | uncomment {line : List Char} {before : List Token} {comment : Token}
    (h : tokenize catalog line = before ++ [comment]) (hc : comment.kind = .comment) :
    Relaid line (textOf before)

/-- True of what may stand behind a line of a text. -/
inductive EndsLine (line : List Char) : List Char → Prop
  | last : EndsLine line []
  | feed {rest : List Char} (h : line.getLast? ≠ some '\r') : EndsLine line ('\n' :: rest)
  | returnFeed {rest : List Char} : EndsLine line ('\r' :: '\n' :: rest)

/-- One change in the layout of one line of a text. -/
inductive TextRelaid : List Char → List Char → Prop
  | line {before line line' after : List Char} (hb : before = [] ∨ before.getLast? = some '\n')
    (hn : '\n' ∉ line) (ha : EndsLine line after) (h : Relaid catalog line line') :
    TextRelaid (before ++ line ++ after) (before ++ line' ++ after)

/-- One change in the layout of one of a list of files. -/
def FilesRelaid (files files' : List File) : Prop :=
  ∃ before file file' after, files = before ++ file :: after ∧ files' = before ++ file' :: after ∧
    file.name = file'.name ∧ TextRelaid catalog file.text.toList file'.text.toList

end

section
variable {catalog : Catalog}

theorem textOf_append (ts us : List Token) : textOf (ts ++ us) = textOf ts ++ textOf us :=
  List.flatMap_append

theorem textOf_singleton (t : Token) : textOf [t] = t.text :=
  List.flatMap_singleton ..

/-! ### Tokens that stand in for others -/

theorem begins_space {run : List Char} (hne : run ≠ []) (hr : ∀ c ∈ run, isSpace c = true) :
    Token.Begins catalog ⟨.space, run⟩ := by
  cases run with
  | nil => exact absurd rfl hne
  | cons c rest =>
    obtain ⟨hc, hrest⟩ := List.forall_mem_cons.mp hr
    refine ⟨c, rest, ?_⟩
    rw [nextToken_space hc, List.takeWhile_eq_self_iff.mpr hrest]

theorem begins_comment (cs : List Char) : Token.Begins catalog ⟨.comment, '#' :: cs⟩ :=
  ⟨'#', cs, rfl⟩

theorem exists_text_of_comment {t : Token} (ht : t.Begins catalog) (hc : t.kind = .comment) :
    ∃ cs, t = ⟨.comment, '#' :: cs⟩ := by
  obtain ⟨c, rest, rfl⟩ := ht
  unfold nextToken at hc ⊢
  split_ifs at hc ⊢ with hq ha hh ho hcl hs
  · dsimp only at hc
    split_ifs at hc
  · dsimp only at hc
    split_ifs at hc
  · subst hh
    exact ⟨rest, rfl⟩
  · have hword : (identify catalog (c :: rest.takeWhile (!endsWord ·))).isWord = true :=
      isWord_identify _
    rw [show identify catalog (c :: rest.takeWhile (!endsWord ·)) = .comment from hc] at hword
    cases hword

theorem isSpace_of_kind {t : Token} (ht : t.Begins catalog) (hs : t.kind = .space) :
    ∀ c ∈ t.text, isSpace c = true := by
  obtain ⟨c, rest, rfl⟩ := ht
  exact isSpace_of_nextToken hs

theorem eq_comment_of_isLast {kind : TokenKind} (hl : kind.isLast = true)
    (ho : kind ≠ .openString ∧ kind ≠ .openChar) : kind = .comment := by
  cases kind <;> simp_all [TokenKind.isLast]

/-- Space may stand between all tokens, but behind none that reach to the end of the line. -/
theorem Joined.space_between {before after : List Token} {run : List Char}
    (hb : Joined catalog before) (ha : Joined catalog after)
    (hmore : ∀ t ∈ before.getLast?, t.kind.isLast = false) (hne : run ≠ [])
    (hr : ∀ c ∈ run, isSpace c = true) : Joined catalog (before ++ ⟨.space, run⟩ :: after) := by
  refine joined_append.mpr ⟨hb, joined_cons.mpr ⟨begins_space hne hr, fun u _ => ⟨rfl, nofun⟩, ha⟩,
    fun t ht u hu => ?_⟩
  cases hu
  refine ⟨hmore t ht, fun _ c hc => ?_⟩
  have hspace := hr c (List.mem_of_mem_head? hc)
  simp [endsWord, hspace]

/-- The last token may become another that starts as it does. -/
theorem Joined.replace_last {before : List Token} {t u : Token} (h : Joined catalog (before ++ [t]))
    (hu : u.Begins catalog) (hhead : u.text.head? = t.text.head?) :
    Joined catalog (before ++ [u]) := by
  obtain ⟨hb, -, hlast⟩ := joined_append.mp h
  refine joined_append.mpr ⟨hb, joined_cons.mpr ⟨hu, nofun, .nil⟩, fun p hp v hv => ?_⟩
  cases hv
  have hbeside := hlast p hp t rfl
  refine ⟨hbeside.more, fun hword c hc => ?_⟩
  exact hbeside.apart hword c (hhead ▸ hc)

/-- A token that reaches to the end of the line is the last. -/
theorem Joined.eq_append_of_isLast {tokens : List Token} {t : Token} (h : Joined catalog tokens)
    (ht : t ∈ tokens) (hl : t.kind.isLast = true) : ∃ before, tokens = before ++ [t] := by
  obtain ⟨before, after, rfl⟩ := List.append_of_mem ht
  cases after with
  | nil => exact ⟨before, rfl⟩
  | cons u after =>
    have hmore := ((joined_cons.mp (joined_append.mp h).2.1).2.1 u rfl).more
    rw [hl] at hmore
    cases hmore

/-! ### What a line keeps -/

theorem significant_space (before after : List Token) {space : Token} (hs : space.kind = .space) :
    significant (before ++ space :: after) = significant (before ++ after) := by
  rw [significant_append, significant_trivia (Token.isTrivia_iff.mpr (.inl hs)), significant_append]

theorem significant_concat (before : List Token) {t : Token} (ht : t.isTrivia = true) :
    significant (before ++ [t]) = significant before := by
  rw [significant_append, significant_trivia ht]
  exact List.append_nil _

/-- A line laid out anew keeps its significant tokens. -/
theorem Relaid.significant_eq {line line' : List Char} (h : Relaid catalog line line') :
    significant (tokenize catalog line') = significant (tokenize catalog line) := by
  have hjoined : Joined catalog (tokenize catalog line) := joined_tokenize line
  have hspaced (before after : List Token) (run : List Char) :
      textOf before ++ run ++ textOf after = textOf (before ++ ⟨.space, run⟩ :: after) := by
    rw [textOf_append, List.append_assoc]
    rfl
  cases h with
  | @replace run before after space h hs hr =>
    rw [h] at hjoined ⊢
    obtain ⟨hb, hsa, hlast⟩ := joined_append.mp hjoined
    have hnew := hb.space_between (joined_cons.mp hsa).2.2 (fun t ht => (hlast t ht space rfl).more)
      hr.1 fun c hc => (hr.2 c hc).1
    rw [hspaced, hnew.significant_tokenize, significant_space _ _ rfl, significant_space _ _ hs]
  | @insert run before after h ho hr =>
    rw [h] at hjoined ⊢
    obtain ⟨hb, ha, hlast⟩ := joined_append.mp hjoined
    by_cases hmore : ∀ t ∈ before.getLast?, t.kind.isLast = false
    · have hnew := hb.space_between ha hmore hr.1 fun c hc => (hr.2 c hc).1
      rw [hspaced, hnew.significant_tokenize, significant_space _ _ rfl]
    · -- the run becomes a part of the comment that the line ends in
      push Not at hmore
      obtain ⟨t, ht, hl⟩ := hmore
      have hc := eq_comment_of_isLast (by simpa using hl) (ho t ht)
      obtain rfl : after = [] := by
        cases after with
        | nil => rfl
        | cons u after => exact absurd (hlast t ht u rfl).more hl
      obtain ⟨before, rfl⟩ := List.getLast?_eq_some_iff.mp ht
      obtain ⟨cs, rfl⟩ := exists_text_of_comment (hb.begins t (by simp)) hc
      have hnew := hb.replace_last (begins_comment (cs ++ run)) rfl
      have htext : textOf (before ++ [⟨.comment, '#' :: cs⟩]) ++ run ++ textOf [] =
          textOf (before ++ [⟨.comment, '#' :: (cs ++ run)⟩]) := by
        simp [textOf]
      rw [htext, hnew.significant_tokenize, List.append_nil,
        significant_concat _ rfl, significant_concat _ rfl]
  | @uncomment before comment h hc =>
    rw [h] at hjoined ⊢
    rw [(joined_append.mp hjoined).1.significant_tokenize,
      significant_concat _ (Token.isTrivia_iff.mpr (.inr hc))]

/-! ### Carriage returns at the ends of lines -/

/-- A literal that is closed ends in its quote. -/
theorem getLast?_splitQuoted {quote : Char} {line inner rest : List Char}
    (h : splitQuoted quote line = (inner, rest, true)) : inner.getLast? = some quote := by
  fun_induction splitQuoted quote line generalizing inner with
  | case1 => cases h
  | case2 => cases h
  | case3 c line inner' rest' closed hs ih =>
    cases h
    simp [List.getLast?_cons, ih hs]
  | case4 line h₁ h₂ =>
    cases h
    rfl
  | case5 c line h₁ h₂ hc inner' rest' closed hs ih =>
    cases h
    simp [List.getLast?_cons, ih hs]

/-- A token that ends in space is space, or reaches to the end of the line. -/
theorem space_or_isLast {t : Token} (ht : t.Begins catalog) {c : Char}
    (hc : t.text.getLast? = some c) (hs : isSpace c = true) :
    t.kind = .space ∨ t.kind.isLast = true := by
  obtain ⟨d, rest, rfl⟩ := ht
  have hquoted {quote : Char} (hq : isSpace quote = false) (kind kind' : TokenKind)
      (hl : kind'.isLast = true)
      (h : (d :: (splitQuoted quote rest).1).getLast? = some c) :
      (if (splitQuoted quote rest).2.2 then kind else kind').isLast = true := by
    rcases hsplit : splitQuoted quote rest with ⟨inner, left, closed⟩
    cases closed with
    | false => exact hl
    | true =>
      rw [hsplit] at h
      dsimp only at h
      rw [List.getLast?_cons, getLast?_splitQuoted hsplit] at h
      obtain rfl : quote = c := Option.some.inj h
      rw [hs] at hq
      cases hq
  unfold nextToken at hc ⊢
  split_ifs at hc ⊢ with hq ha hh ho hcl hsp
  · exact .inr (hquoted (by decide) _ _ rfl hc)
  · exact .inr (hquoted (by decide) _ _ rfl hc)
  · exact .inr rfl
  · cases hc
    subst ho
    cases hs
  · cases hc
    subst hcl
    cases hs
  · exact .inl rfl
  · have hword : IsWord (d :: rest.takeWhile (!endsWord ·)) :=
      isWord_of_not_endsWord (by simp [endsWord, *]) rest
    have hend := hword.2 c (List.mem_of_getLast? hc)
    simp [endsWord, hs] at hend

theorem Token.Begins.text_ne_nil {t : Token} (ht : t.Begins catalog) : t.text ≠ [] := by
  obtain ⟨c, hc⟩ := ht.head?
  exact List.ne_nil_of_mem (List.mem_of_mem_head? hc)

/-- A line ends as the token does that reaches to its end. -/
theorem getLast?_of_isLast {line : List Char} {t : Token} (ht : t ∈ tokenize catalog line)
    (hl : t.kind.isLast = true) : line.getLast? = t.text.getLast? := by
  have hjoined : Joined catalog (tokenize catalog line) := joined_tokenize line
  obtain ⟨before, hb⟩ := hjoined.eq_append_of_isLast ht hl
  have hne := (hjoined.begins t ht).text_ne_nil
  rw [← textOf_tokenize catalog line, hb, textOf_append, textOf_singleton, List.getLast?_append,
    List.getLast?_eq_some_getLast hne]
  rfl

/-- The last character of a line makes no difference if it is space, outside of literals that are not closed. -/
theorem significant_space_last {line : List Char} {c : Char} (hc : isSpace c = true)
    (ho : ∀ t ∈ tokenize catalog (line ++ [c]), t.kind ≠ .openString ∧ t.kind ≠ .openChar) :
    significant (tokenize catalog line) = significant (tokenize catalog (line ++ [c])) := by
  have hjoined : Joined catalog (tokenize catalog (line ++ [c])) := joined_tokenize _
  have htext := textOf_tokenize catalog (line ++ [c])
  obtain hnil | ⟨before, t, hts⟩ := List.eq_nil_or_concat' (tokenize catalog (line ++ [c]))
  · rw [hnil] at htext
    simp [textOf] at htext
  rw [hts] at hjoined htext ho ⊢
  have ht : t.Begins catalog := hjoined.begins t (by simp)
  obtain ⟨ends, hline, hends⟩ : ∃ ends, line = textOf before ++ ends ∧ t.text = ends ++ [c] := by
    rw [textOf_append, textOf_singleton] at htext
    obtain hend | ⟨more, hbefore, hmore⟩ := List.append_eq_append_iff.mp htext
    · exact hend
    · obtain ⟨rfl, hlast⟩ | ⟨-, hnil⟩ := List.singleton_eq_append_iff.mp hmore
      · exact ⟨[], by rw [hbefore, List.append_nil, List.append_nil], hlast⟩
      · exact absurd hnil ht.text_ne_nil
  have hkind : t.kind = .space ∨ t.kind = .comment := by
    refine (space_or_isLast ht (by rw [hends, List.getLast?_concat]) hc).imp_right fun hl => ?_
    exact eq_comment_of_isLast hl (ho t (by simp))
  have htrivia : t.isTrivia = true := Token.isTrivia_iff.mpr hkind
  -- what is left of the last token, if anything, is a token that starts in the same way
  have hrest : ends = [] ∨ Token.Begins catalog ⟨t.kind, ends⟩ := by
    rcases hkind with hs | hcomment
    · refine or_iff_not_imp_left.mpr fun hne => ?_
      rw [hs]
      refine begins_space hne fun d hd => isSpace_of_kind ht hs d ?_
      rw [hends]
      exact List.mem_append_left [c] hd
    · right
      obtain ⟨cs, rfl⟩ := exists_text_of_comment ht hcomment
      cases ends with
      | nil =>
        cases hends
        cases hc
      | cons d ends =>
        obtain rfl : '#' = d := (List.cons.inj hends).1
        exact begins_comment ends
  rw [hline, significant_concat _ htrivia]
  rcases hrest with rfl | hu
  · rw [List.append_nil, (joined_append.mp hjoined).1.significant_tokenize]
  · have hhead : ends.head? = t.text.head? := by
      rw [hends, List.head?_append_of_ne_nil _ hu.text_ne_nil]
    have hnew := hjoined.replace_last hu hhead
    have htext' : textOf before ++ ends = textOf (before ++ [⟨t.kind, ends⟩]) := by
      rw [textOf_append, textOf_singleton]
    have hsame : Token.isTrivia ⟨t.kind, ends⟩ = true := htrivia
    rw [htext', hnew.significant_tokenize, significant_concat _ hsame]

theorem closeLine_concat (line : List Char) :
    Text.closeLine (line ++ ['\r']).reverse = line := by
  simp [Text.closeLine]

theorem closeLine_of_ne {line : List Char} (h : line.getLast? ≠ some '\r') :
    Text.closeLine line.reverse = line := by
  rw [← List.head?_reverse] at h
  unfold Text.closeLine
  split
  next rest hr => exact absurd (congrArg List.head? hr) h
  next => exact List.reverse_reverse line

/-- The return that a line feed takes with it makes no difference to a line laid out anew. -/
theorem significant_closeLine {line line' : List Char}
    (h : significant (tokenize catalog line') = significant (tokenize catalog line))
    (hline : line.getLast? ≠ some '\r') :
    significant (tokenize catalog (Text.closeLine line'.reverse)) =
      significant (tokenize catalog line) := by
  by_cases hend : line'.getLast? = some '\r'
  · obtain ⟨short, rfl⟩ := List.getLast?_eq_some_iff.mp hend
    rw [closeLine_concat, ← h]
    refine significant_space_last (by decide) fun t ht => ?_
    -- a literal that is not closed would end the line that was laid out, with the same return
    have hopen (hl : t.kind.isLast = true) (hk : t.isTrivia = false) : False := by
      have hmem : t ∈ significant (tokenize catalog line) := by
        rw [← h]
        exact List.mem_filter.mpr ⟨ht, by simp [hk]⟩
      refine hline ?_
      rw [getLast?_of_isLast (List.mem_of_mem_filter hmem) hl, ← getLast?_of_isLast ht hl, hend]
    constructor
    · exact fun hk => hopen (by rw [hk]; rfl) (by unfold Token.isTrivia; rw [hk])
    · exact fun hk => hopen (by rw [hk]; rfl) (by unfold Token.isTrivia; rw [hk])
  · rw [closeLine_of_ne hend, h]

/-! ### Lines of texts -/

theorem Relaid.newline_notMem {line line' : List Char} (h : Relaid catalog line line')
    (hn : '\n' ∉ line) : '\n' ∉ line' := by
  have htext := textOf_tokenize catalog line
  have hrun {before after run : List Char} (hr : IsRun run) (hb : ∀ c ∈ before, c ∈ line)
      (ha : ∀ c ∈ after, c ∈ line) : '\n' ∉ before ++ run ++ after := by
    rw [List.mem_append, List.mem_append]
    rintro ((hm | hm) | hm)
    · exact hn (hb _ hm)
    · exact (hr.2 _ hm).2 rfl
    · exact hn (ha _ hm)
  cases h with
  | @replace run before after space h _ hr =>
    rw [h, textOf_append] at htext
    refine hrun hr (fun c hc => ?_) fun c hc => ?_
    · exact htext ▸ List.mem_append_left _ hc
    · exact htext ▸ List.mem_append_right _ (List.mem_append_right space.text hc)
  | insert h _ hr =>
    rw [h, textOf_append] at htext
    exact hrun hr (fun c hc => htext ▸ List.mem_append_left _ hc)
      fun c hc => htext ▸ List.mem_append_right _ hc
  | uncomment h _ =>
    rw [h, textOf_append] at htext
    exact fun hm => hn (htext ▸ List.mem_append_left _ hm)

theorem linesFrom_append_feed {line : List Char} (hn : '\n' ∉ line) (start rest : List Char) :
    Text.linesFrom start (line ++ '\n' :: rest) =
      Text.closeLine (line.reverse ++ start) :: Text.lines rest := by
  induction line generalizing start with
  | nil => simp [Text.linesFrom, Text.lines]
  | cons c line ih =>
    obtain ⟨hc, hline⟩ := not_or.mp (mt List.mem_cons.mpr hn)
    rw [List.cons_append, Text.linesFrom.eq_3 start c _ (Ne.symm hc), ih hline]
    simp

theorem lines_append_feed {line : List Char} (hn : '\n' ∉ line) (rest : List Char) :
    Text.lines (line ++ '\n' :: rest) = Text.closeLine line.reverse :: Text.lines rest := by
  have h := linesFrom_append_feed hn [] rest
  rwa [List.append_nil] at h

theorem lines_append_returnFeed {line : List Char} (hn : '\n' ∉ line) (rest : List Char) :
    Text.lines (line ++ '\r' :: '\n' :: rest) = line :: Text.lines rest := by
  have hn' : '\n' ∉ line ++ ['\r'] := by simp [hn]
  rw [← closeLine_concat line, ← lines_append_feed hn', List.append_assoc, closeLine_concat]
  rfl

theorem linesFrom_of_notMem {line : List Char} (hn : '\n' ∉ line) (start : List Char) :
    Text.linesFrom start line =
      if (line.reverse ++ start).isEmpty then [] else [(line.reverse ++ start).reverse] := by
  induction line generalizing start with
  | nil => rfl
  | cons c line ih =>
    obtain ⟨hc, hline⟩ := not_or.mp (mt List.mem_cons.mpr hn)
    rw [Text.linesFrom.eq_3 start c _ (Ne.symm hc), ih hline]
    simp

/-- True of the lines of a text, or of these and an empty one. -/
def HasLines (text : List Char) (ls : List (List Char)) : Prop :=
  Text.lines text = ls ∨ Text.lines text ++ [[]] = ls

theorem hasLines_last {line : List Char} (hn : '\n' ∉ line) : HasLines line [line] := by
  unfold HasLines Text.lines
  rw [linesFrom_of_notMem hn]
  cases line with
  | nil => exact .inr rfl
  | cons c line => exact .inl (by simp)

theorem HasLines.append {before : List Char} (hb : before = [] ∨ before.getLast? = some '\n')
    {text : List Char} {ls : List (List Char)} (h : HasLines text ls) :
    HasLines (before ++ text) (Text.lines before ++ ls) := by
  have hlines : Text.lines (before ++ text) = Text.lines before ++ Text.lines text := by
    rcases hb with rfl | hb
    · rfl
    · exact lines_append hb text
  unfold HasLines
  rw [hlines, List.append_assoc]
  exact h.imp (congrArg _) (congrArg _)

/-- A text laid out anew has as many lines, but for an empty last one, with the same significant tokens. -/
theorem TextRelaid.exists_lines {text text' : List Char} (h : TextRelaid catalog text text') :
    ∃ ls ls', HasLines text ls ∧ HasLines text' ls' ∧
      ls'.map (fun l => significant (tokenize catalog l)) =
        ls.map (fun l => significant (tokenize catalog l)) := by
  obtain ⟨hb, hn, ha, h⟩ := h
  have hn' := h.newline_notMem hn
  have hsame := h.significant_eq
  cases ha with
  | last =>
    rw [List.append_nil, List.append_nil]
    refine ⟨_, _, (hasLines_last hn).append hb, (hasLines_last hn').append hb, ?_⟩
    simp [hsame]
  | @feed rest hr =>
    rw [List.append_assoc, List.append_assoc]
    refine ⟨_, _, HasLines.append hb (.inl (lines_append_feed hn rest)),
      HasLines.append hb (.inl (lines_append_feed hn' rest)), ?_⟩
    simp [significant_closeLine hsame hr, closeLine_of_ne hr]
  | @returnFeed rest =>
    rw [List.append_assoc, List.append_assoc]
    refine ⟨_, _, HasLines.append hb (.inl (lines_append_returnFeed hn rest)),
      HasLines.append hb (.inl (lines_append_returnFeed hn' rest)), ?_⟩
    simp [hsame]

/-- Lines with the same significant tokens are the same without their layout. -/
theorem stripped_numbered {ls ls' : List (List Char)}
    (h : ls'.map (fun l => significant (tokenize catalog l)) =
      ls.map (fun l => significant (tokenize catalog l))) (n : Nat) :
    (numbered catalog n ls').map Line.stripped = (numbered catalog n ls).map Line.stripped := by
  induction ls generalizing ls' n with
  | nil =>
    obtain rfl : ls' = [] := List.map_eq_nil_iff.mp h
    rfl
  | cons l ls ih =>
    obtain ⟨l', ls', rfl, hl, hls⟩ := List.map_eq_cons_iff.mp h
    have hline : stripped (tokenize catalog l') = stripped (tokenize catalog l) := by
      rw [(joined_tokenize l').stripped_eq, (joined_tokenize l).stripped_eq, hl]
    exact congrArg₂ (fun (tokens : List Token) rest => (⟨n + 1, tokens⟩ : Line) :: rest) hline
      (ih hls (n + 1))

end

end RiscvToolkit.Source
