import RiscvToolkit.Proofs.Source.Token

/-! Tokens put together. Tokens that stand apart where they must are the tokens of the line that their texts make
up, but for the space between them. -/
namespace RiscvToolkit.Source

/-- The line that tokens make up. -/
def textOf (tokens : List Token) : List Char :=
  tokens.flatMap (·.text)

/-- The tokens that operands are read from. -/
def significant (tokens : List Token) : List Token :=
  tokens.filter (!·.isTrivia)

/-- True of tokens that reach to the end of their line. -/
def TokenKind.isLast : TokenKind → Bool
  | .comment | .openString | .openChar => true
  | _ => false

def TokenKind.isWord : TokenKind → Bool
  | .string | .char | .openString | .openChar | .comment | .space | .openParen | .closeParen => false
  | _ => true

section
variable (catalog : Catalog)

/-- True of a token that some line begins with. -/
def Token.Begins (t : Token) : Prop :=
  ∃ c rest, (nextToken catalog c rest).1 = t

/-- True of tokens that may stand side by side. -/
structure Token.Beside (t u : Token) : Prop where
  more : t.kind.isLast = false
  apart : t.kind.isWord = true → StartsApart u.text

/-- True of tokens that some line may consist of. -/
structure Joined (tokens : List Token) : Prop where
  begins : ∀ t ∈ tokens, t.Begins catalog
  beside : tokens.IsChain Token.Beside

end

theorem significant_cons (t : Token) (ts : List Token) :
    significant (t :: ts) = significant [t] ++ significant ts := by
  unfold significant
  rw [← List.filter_append, List.singleton_append]

theorem significant_append (ts us : List Token) :
    significant (ts ++ us) = significant ts ++ significant us :=
  List.filter_append ..

theorem significant_trivia {t : Token} (ht : t.isTrivia = true) (ts : List Token) :
    significant (t :: ts) = significant ts := by
  simp [significant, ht]

theorem significant_token {t : Token} (ht : ¬t.isTrivia = true) (ts : List Token) :
    significant (t :: ts) = t :: significant ts := by
  simp [significant, ht]

theorem Token.isTrivia_iff {t : Token} :
    t.isTrivia = true ↔ t.kind = .space ∨ t.kind = .comment := by
  unfold Token.isTrivia
  cases t.kind <;> simp

section
variable {catalog : Catalog}

theorem isWord_identify (word : List Char) : (identify catalog word).isWord = true := by
  unfold identify
  dsimp only
  split
  · rfl
  split
  · rfl
  split
  · rfl
  split
  · rfl
  split_ifs <;> rfl

theorem isLast_of_isWord {kind : TokenKind} (h : kind.isWord = true) : kind.isLast = false := by
  cases kind <;> first | rfl | cases h

/-! ### A token that is read again -/

/-- A character that is no backslash stands for itself or ends the literal. -/
theorem splitQuoted_cons {quote c : Char} (h : c ≠ '\\') (line : List Char) :
    splitQuoted quote (c :: line) =
      if c = quote then ([c], line, true)
      else
        let (inner, rest, closed) := splitQuoted quote line
        (c :: inner, rest, closed) := by
  cases line with
  | nil => exact splitQuoted.eq_4 quote c [] (fun hc _ => h hc) (fun _ _ hc _ => h hc)
  | cons d line => exact splitQuoted.eq_4 quote c _ (fun hc _ => h hc) (fun _ _ hc _ => h hc)

theorem ne_backslash {c : Char} {line : List Char} (h : c = '\\' → line = [] → False)
    (h' : ∀ d rest, c = '\\' → line = d :: rest → False) : c ≠ '\\' := by
  intro hc
  cases line with
  | nil => exact h hc rfl
  | cons d rest => exact h' d rest hc rfl

/-- A literal that is closed ends where it ends whatever follows. -/
theorem splitQuoted_append {quote : Char} {line inner rest : List Char}
    (h : splitQuoted quote line = (inner, rest, true)) (more : List Char) :
    splitQuoted quote (inner ++ more) = (inner, more, true) := by
  fun_induction splitQuoted quote line generalizing inner with
  | case1 => cases h
  | case2 => cases h
  | case3 c line inner' rest' closed hs ih =>
    cases h
    simp only [List.cons_append, splitQuoted]
    rw [ih hs]
  | case4 line h₁ h₂ =>
    cases h
    rw [List.cons_append, splitQuoted_cons (ne_backslash h₁ h₂), if_pos rfl]
    rfl
  | case5 c line h₁ h₂ hc inner' rest' closed hs ih =>
    cases h
    rw [List.cons_append, splitQuoted_cons (ne_backslash h₁ h₂), if_neg hc, ih hs]

/-- A literal that is not closed takes the rest of the line. -/
theorem splitQuoted_open {quote : Char} {line inner rest : List Char}
    (h : splitQuoted quote line = (inner, rest, false)) : inner = line ∧ rest = [] := by
  fun_induction splitQuoted quote line generalizing inner with
  | case1 =>
    cases h
    exact ⟨rfl, rfl⟩
  | case2 =>
    cases h
    exact ⟨rfl, rfl⟩
  | case3 c line inner' rest' closed hs ih =>
    cases h
    obtain ⟨rfl, hr⟩ := ih hs
    exact ⟨rfl, hr⟩
  | case4 => cases h
  | case5 c line h₁ h₂ hc inner' rest' closed hs ih =>
    cases h
    obtain ⟨rfl, hr⟩ := ih hs
    exact ⟨rfl, hr⟩

/-- A quoted token is read again, at the end of a line or where it is closed. -/
private theorem splitQuoted_again {quote : Char} {line rest : List Char}
    (h : (splitQuoted quote line).2.2 = false → rest = []) :
    splitQuoted quote ((splitQuoted quote line).1 ++ rest) =
      ((splitQuoted quote line).1, rest, (splitQuoted quote line).2.2) := by
  rcases hs : splitQuoted quote line with ⟨inner, left, closed⟩
  rw [hs] at h
  cases closed with
  | true => exact splitQuoted_append hs rest
  | false =>
    obtain rfl : rest = [] := h rfl
    obtain ⟨rfl, rfl⟩ := splitQuoted_open hs
    rw [List.append_nil, hs]

theorem isWord_of_not_endsWord {c : Char} (hc : endsWord c = false) (line : List Char) :
    IsWord (c :: line.takeWhile (!endsWord ·)) := by
  refine ⟨List.cons_ne_nil _ _, fun d hd => ?_⟩
  rcases List.mem_cons.mp hd with rfl | hd
  · exact hc
  · simpa using List.mem_takeWhile_imp hd

/-- A token that is followed as a token of its kind may be is read again. -/
theorem tokenize_again {t : Token} (ht : t.Begins catalog) (hs : t.kind ≠ .space)
    {rest : List Char} (hl : t.kind.isLast = true → rest = [])
    (hw : t.kind.isWord = true → StartsApart rest) :
    tokenize catalog (t.text ++ rest) = t :: tokenize catalog rest := by
  obtain ⟨c, line, rfl⟩ := ht
  have again {text : List Char} (h : nextToken catalog c (text ++ rest) =
      (⟨(nextToken catalog c line).1.kind, c :: text⟩, rest)) :
      tokenize catalog (c :: text ++ rest) =
        ⟨(nextToken catalog c line).1.kind, c :: text⟩ :: tokenize catalog rest := by
    rw [List.cons_append, tokenize_cons, h]
  unfold nextToken at hs hl hw again ⊢
  split_ifs at hs hl hw again ⊢ with hq ha hh ho hc hb
  · refine again ?_
    rw [splitQuoted_again]
    intro hf
    exact hl (by dsimp only; rw [hf]; rfl)
  · refine again ?_
    rw [splitQuoted_again]
    intro hf
    exact hl (by dsimp only; rw [hf]; rfl)
  · obtain rfl : rest = [] := hl rfl
    exact again (by rw [List.append_nil])
  · exact again (by rfl)
  · exact again (by rfl)
  · exact absurd rfl hs
  · have hword : IsWord (c :: line.takeWhile (!endsWord ·)) :=
      isWord_of_not_endsWord (by simp [endsWord, *]) line
    exact tokenize_word catalog hword (hw (isWord_identify _))

theorem nextToken_space {c : Char} (hs : isSpace c = true) (rest : List Char) :
    nextToken catalog c rest =
      (⟨.space, c :: rest.takeWhile isSpace⟩, rest.dropWhile isSpace) := by
  have hne {d : Char} (hd : isSpace d = false) : c ≠ d := by
    rintro rfl
    exact absurd hs (by simp [hd])
  unfold nextToken
  rw [if_neg (hne (by decide)), if_neg (hne (by decide)), if_neg (hne (by decide)),
    if_neg (hne (by decide)), if_neg (hne (by decide)), if_pos hs]

/-- Space in front of a line makes no difference. -/
theorem significant_dropWhile (line : List Char) :
    significant (tokenize catalog (line.dropWhile isSpace)) =
      significant (tokenize catalog line) := by
  cases line with
  | nil => rfl
  | cons c rest =>
    by_cases hs : isSpace c = true
    · rw [List.dropWhile_cons_of_pos hs, tokenize_cons, nextToken_space hs]
      rfl
    · rw [List.dropWhile_cons_of_neg hs]

theorem significant_spaces {spaces : List Char} (h : ∀ c ∈ spaces, isSpace c = true)
    (rest : List Char) :
    significant (tokenize catalog (spaces ++ rest)) = significant (tokenize catalog rest) := by
  rw [← significant_dropWhile, List.dropWhile_append_of_pos h, significant_dropWhile]

/-! ### What stands where in a line -/

theorem splitQuoted_eq (quote : Char) (line : List Char) :
    (splitQuoted quote line).1 ++ (splitQuoted quote line).2.1 = line := by
  fun_induction splitQuoted quote line with
  | case1 => rfl
  | case2 => rfl
  | case3 c line inner rest closed hs ih =>
    rw [hs] at ih
    exact congrArg ('\\' :: c :: ·) ih
  | case4 line _ => rfl
  | case5 c line _ _ _ inner rest closed hs ih =>
    rw [hs] at ih
    exact congrArg (c :: ·) ih

theorem nextToken_eq (c : Char) (rest : List Char) :
    (nextToken catalog c rest).1.text ++ (nextToken catalog c rest).2 = c :: rest := by
  unfold nextToken
  split_ifs
  · exact congrArg (c :: ·) (splitQuoted_eq _ rest)
  · exact congrArg (c :: ·) (splitQuoted_eq _ rest)
  · exact List.append_nil _
  · rfl
  · rfl
  · exact congrArg (c :: ·) List.takeWhile_append_dropWhile
  · exact congrArg (c :: ·) List.takeWhile_append_dropWhile

variable (catalog) in
/-- Induction over a line, token by token. -/
@[elab_as_elim]
theorem tokenize_induction {motive : List Char → Prop} (nil : motive [])
    (cons : ∀ c rest, motive (nextToken catalog c rest).2 → motive (c :: rest))
    (line : List Char) : motive line := by
  induction hn : line.length using Nat.strong_induction_on generalizing line with
  | _ n ih =>
    cases line with
    | nil => exact nil
    | cons c rest =>
      have hle := length_nextToken_le catalog c rest
      rw [List.length_cons] at hn
      exact cons c rest (ih _ (by omega) _ rfl)

variable (catalog) in
/-- The tokens of a line make it up. -/
theorem textOf_tokenize (line : List Char) : textOf (tokenize catalog line) = line := by
  induction line using tokenize_induction catalog with
  | nil => rfl
  | cons c rest ih =>
    rw [tokenize_cons]
    change (nextToken catalog c rest).1.text ++ textOf (tokenize catalog _) = _
    rw [ih, nextToken_eq]

theorem head?_nextToken (c : Char) (rest : List Char) :
    (nextToken catalog c rest).1.text.head? = some c := by
  unfold nextToken
  split_ifs <;> rfl

theorem isSpace_of_nextToken {c : Char} {rest : List Char}
    (h : (nextToken catalog c rest).1.kind = .space) :
    ∀ d ∈ (nextToken catalog c rest).1.text, isSpace d = true := by
  unfold nextToken at h ⊢
  split_ifs at h ⊢ with hq ha hh ho hc hb
  · dsimp only at h
    split_ifs at h
  · dsimp only at h
    split_ifs at h
  · intro d hd
    rcases List.mem_cons.mp hd with rfl | hd
    · exact hb
    · exact List.mem_takeWhile_imp hd
  · have hword : (identify catalog (c :: rest.takeWhile (!endsWord ·))).isWord = true :=
      isWord_identify _
    rw [show identify catalog (c :: rest.takeWhile (!endsWord ·)) = .space from h] at hword
    cases hword

variable (catalog) in
/-- What a token leaves of a line may follow it. -/
theorem follows_nextToken (c : Char) (rest : List Char) :
    ((nextToken catalog c rest).1.kind.isLast = true → (nextToken catalog c rest).2 = []) ∧
      ((nextToken catalog c rest).1.kind.isWord = true →
        StartsApart (nextToken catalog c rest).2) := by
  have hquoted (quote : Char) (kind kind' : TokenKind) (hk : kind.isLast = false)
      (h : (if (splitQuoted quote rest).2.2 then kind else kind').isLast = true) :
      (splitQuoted quote rest).2.1 = [] := by
    rcases hs : splitQuoted quote rest with ⟨inner, left, closed⟩
    rw [hs] at h
    cases closed with
    | true => exact absurd h (by simp [hk])
    | false => exact (splitQuoted_open hs).2
  unfold nextToken
  split_ifs
  · refine ⟨hquoted '"' _ _ rfl, fun h => ?_⟩
    dsimp only at h
    split_ifs at h <;> cases h
  · refine ⟨hquoted '\'' _ _ rfl, fun h => ?_⟩
    dsimp only at h
    split_ifs at h <;> cases h
  · exact ⟨fun _ => rfl, fun h => nomatch h⟩
  · exact ⟨fun h => (nomatch h), fun h => nomatch h⟩
  · exact ⟨fun h => (nomatch h), fun h => nomatch h⟩
  · exact ⟨fun h => (nomatch h), fun h => nomatch h⟩
  · constructor
    · intro h
      rw [isLast_of_isWord (isWord_identify _)] at h
      cases h
    · intro _ d hd
      have hstop := List.head?_dropWhile_not (fun d => !endsWord d) rest
      rw [Option.mem_def.mp hd] at hstop
      simpa using hstop

theorem Token.Begins.head? {t : Token} (ht : t.Begins catalog) : ∃ c, t.text.head? = some c := by
  obtain ⟨c, rest, rfl⟩ := ht
  exact ⟨c, head?_nextToken c rest⟩

theorem startsApart_append {text : List Char} {c : Char} (h : text.head? = some c)
    (rest : List Char) : StartsApart (text ++ rest) ↔ StartsApart text := by
  unfold StartsApart
  rw [List.head?_append, h]
  rfl

theorem joined_cons {t : Token} {ts : List Token} :
    Joined catalog (t :: ts) ↔
      t.Begins catalog ∧ (∀ u ∈ ts.head?, t.Beside u) ∧ Joined catalog ts := by
  constructor
  · rintro ⟨hb, hc⟩
    rw [List.forall_mem_cons] at hb
    rw [List.isChain_cons] at hc
    exact ⟨hb.1, hc.1, hb.2, hc.2⟩
  · rintro ⟨ht, hu, hb, hc⟩
    exact ⟨List.forall_mem_cons.mpr ⟨ht, hb⟩, List.isChain_cons.mpr ⟨hu, hc⟩⟩

theorem Joined.nil : Joined catalog [] :=
  ⟨fun _ h => (nomatch h), .nil⟩

/-- The tokens of a line can be put together. -/
theorem joined_tokenize (line : List Char) : Joined catalog (tokenize catalog line) := by
  induction line using tokenize_induction catalog with
  | nil => exact .nil
  | cons c rest ih =>
    rw [tokenize_cons, joined_cons]
    obtain ⟨hlast, hword⟩ := follows_nextToken catalog c rest
    refine ⟨⟨c, rest, rfl⟩, ?_, ih⟩
    generalize (nextToken catalog c rest).2 = left at hlast hword
    cases left with
    | nil => exact fun u hu => nomatch hu
    | cons d left =>
      rw [tokenize_cons]
      rintro u ⟨⟩
      constructor
      · exact Bool.eq_false_iff.mpr fun h => nomatch hlast h
      · intro h e he
        rw [head?_nextToken] at he
        exact hword h e he

/-- Tokens that can be put together are those of the line that they make up, but for space. -/
theorem Joined.significant_tokenize {tokens : List Token} (h : Joined catalog tokens) :
    significant (tokenize catalog (textOf tokens)) = significant tokens := by
  induction tokens with
  | nil => rfl
  | cons t ts ih =>
    obtain ⟨ht, hu, hts⟩ := joined_cons.mp h
    rw [significant_cons, ← ih hts]
    change significant (tokenize catalog (t.text ++ textOf ts)) = _
    by_cases hs : t.kind = .space
    · obtain ⟨c, rest, rfl⟩ := ht
      rw [significant_spaces (isSpace_of_nextToken hs),
        significant_trivia (Token.isTrivia_iff.mpr (.inl hs))]
      rfl
    · rw [tokenize_again ht hs, ← significant_cons]
      · intro hl
        cases ts with
        | nil => rfl
        | cons u us => exact absurd hl (by simp [(hu u rfl).more])
      · intro hw
        cases ts with
        | nil => exact .nil
        | cons u us =>
          obtain ⟨c, hc⟩ := (joined_cons.mp hts).1.head?
          exact (startsApart_append hc (textOf us)).mpr ((hu u rfl).apart hw)

end

end RiscvToolkit.Source
