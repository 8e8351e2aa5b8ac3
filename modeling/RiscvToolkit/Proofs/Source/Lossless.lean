import RiscvToolkit.Proofs.Checked.Token

/-! A line is the same thing as its tokens: they make it up, each of them is read again on its own, and no two that stand
side by side could have been one. -/
namespace RiscvToolkit.Source
variable {catalog : Catalog}

/-- True of neighbours that could not have been one token. -/
structure Token.Parted (t u : Token) : Prop where
  /-- A comment or a literal without its closing quote has no token behind it. -/
  more : t.kind.isLast = false
  words : ¬(t.kind.isWord = true ∧ u.kind.isWord = true)
  spaces : ¬(t.kind = .space ∧ u.kind = .space)

/-- A word begins with a character that ends no word. -/
theorem Token.Begins.endsWord {t : Token} (ht : t.Begins catalog) (hw : t.kind.isWord = true) :
    ∀ c ∈ t.text.head?, Source.endsWord c = false := by
  obtain ⟨c, rest, rfl⟩ := ht
  intro d hd
  rw [head?_nextToken] at hd
  cases hd
  unfold nextToken at hw
  have hquoted {closed : Bool} {kind kind' : TokenKind} (hk : kind.isWord = false)
      (hk' : kind'.isWord = false) : (if closed then kind else kind').isWord ≠ true := by
    cases closed <;> simp [hk, hk']
  split_ifs at hw with hs ha hh ho hc hb
  · exact absurd hw (hquoted rfl rfl)
  · exact absurd hw (hquoted rfl rfl)
  · cases hw
  · cases hw
  · cases hw
  · cases hw
  · simp [Source.endsWord, *]

/-- Space begins with space. -/
theorem Token.Begins.isSpace {t : Token} (ht : t.Begins catalog) (hs : t.kind = .space) :
    ∀ c ∈ t.text, Source.isSpace c = true := by
  obtain ⟨c, rest, rfl⟩ := ht
  exact isSpace_of_nextToken hs

/-- A run of space is one token. -/
theorem tokenize_spaces {spaces : List Char} (hne : spaces ≠ [])
    (h : ∀ c ∈ spaces, isSpace c = true) : tokenize catalog spaces = [⟨.space, spaces⟩] := by
  cases spaces with
  | nil => exact absurd rfl hne
  | cons c rest =>
    have hrest : ∀ d ∈ rest, isSpace d = true := fun d hd => h d (List.mem_cons_of_mem c hd)
    rw [tokenize_cons, nextToken_space (h c List.mem_cons_self), List.takeWhile_eq_self_iff.mpr hrest,
      List.dropWhile_eq_nil_iff.mpr hrest]
    rfl

/-- Every token is the only one in its text. -/
theorem Token.Begins.tokenize_text {t : Token} (ht : t.Begins catalog) :
    tokenize catalog t.text = [t] := by
  by_cases hs : t.kind = .space
  · obtain ⟨c, hc⟩ := ht.head?
    have hne : t.text ≠ [] := by
      intro h
      rw [h] at hc
      cases hc
    rw [tokenize_spaces hne (ht.isSpace hs), ← hs]
  · have h := tokenize_again ht hs (fun _ => rfl) (fun _ => .nil)
    rwa [List.append_nil] at h

/-- What space leaves of a line does not begin with space. -/
theorem isSpace_of_left {c : Char} {rest : List Char}
    (h : (nextToken catalog c rest).1.kind = .space) :
    ∀ d ∈ (nextToken catalog c rest).2.head?, isSpace d = false := by
  have hc : isSpace c = true :=
    isSpace_of_nextToken h c (List.mem_of_mem_head? (head?_nextToken c rest))
  rw [nextToken_space hc]
  intro d hd
  have hstop := List.head?_dropWhile_not isSpace rest
  rw [Option.mem_def.mp hd] at hstop
  simpa using hstop

/-- Neighbours in a line are parted. -/
theorem parted_tokenize (line : List Char) : (tokenize catalog line).IsChain Token.Parted := by
  induction line using tokenize_induction catalog with
  | nil => exact .nil
  | cons c rest ih =>
    rw [tokenize_cons, List.isChain_cons]
    refine ⟨?_, ih⟩
    obtain ⟨hlast, hword⟩ := follows_nextToken catalog c rest
    have hspace : (nextToken catalog c rest).1.kind = .space →
        ∀ d ∈ (nextToken catalog c rest).2.head?, isSpace d = false := isSpace_of_left
    generalize (nextToken catalog c rest).2 = left at hlast hword hspace
    cases left with
    | nil => exact fun u hu => nomatch hu
    | cons d left =>
      rw [tokenize_cons]
      rintro u ⟨⟩
      have hbegins : (nextToken catalog d left).1.Begins catalog := ⟨d, left, rfl⟩
      have hhead : (nextToken catalog d left).1.text.head? = some d := head?_nextToken d left
      refine ⟨Bool.eq_false_iff.mpr fun h => (nomatch hlast h), ?_, ?_⟩
      · rintro ⟨ht, hu⟩
        have hends := hword ht d rfl
        rw [hbegins.endsWord hu d hhead] at hends
        cases hends
      · rintro ⟨ht, hu⟩
        have hsep := hspace ht d rfl
        rw [hbegins.isSpace hu d (List.mem_of_mem_head? hhead)] at hsep
        cases hsep

/-- A line, cut by byte, comes to its end with tokens that have texts and make it up, that are read again one by one, and
of which no two neighbours are space or words and none but the last is a comment or a literal without its closing
quote. -/
theorem tokenize_lossless (catalog : Catalog) (line : List Char) :
    Checked.tokenize catalog line = .ok (tokenize catalog line) ∧
    (∀ t ∈ tokenize catalog line, t.text ≠ []) ∧
    textOf (tokenize catalog line) = line ∧
    (∀ t ∈ tokenize catalog line, tokenize catalog t.text = [t]) ∧
    (tokenize catalog line).IsChain Token.Parted := by
  refine ⟨Checked.tokenize_eq catalog line, fun t ht h => ?_, textOf_tokenize catalog line,
    fun t ht => ((joined_tokenize line).begins t ht).tokenize_text, parted_tokenize line⟩
  obtain ⟨c, hc⟩ := ((joined_tokenize line).begins t ht).head?
  rw [h] at hc
  cases hc

end RiscvToolkit.Source
