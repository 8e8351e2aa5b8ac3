import RiscvToolkit.Proofs.Source.Spans

/-! Arguments in place of parameters. A line with the source of the arguments put in reads without bindings as the
line itself reads with the operands of the arguments bound to its placeholders. -/
namespace RiscvToolkit.Source

/-- The tokens of each argument of a call, with or without parentheses around them. -/
def argumentSpans (tokens : List Token) : List (List Token) :=
  match spans tokens with
  | [⟨.openParen, _⟩ :: inner] => spans inner.dropLast
  | found => found

/-- The arguments among the operands of a call. -/
def unwrap : List Operand → List Operand
  | [.group items] => items
  | os => os

def blank : Token := ⟨.space, [' ']⟩

/-- What stands for a token once arguments are put in, each with a space on either side. -/
def Token.substitute (args : List (String × List Token)) (t : Token) : List Token :=
  match t.kind, args.lookup (String.ofList t.text.tail) with
  | .placeholder, some span => blank :: (span ++ [blank])
  | _, _ => [t]

/-- A line with arguments put in for its parameters. -/
def substitute (args : List (String × List Token)) (tokens : List Token) : List Token :=
  tokens.flatMap (Token.substitute args)

/-- True of sources of arguments and of the operands that are bound to the same parameters. -/
def Spell (catalog : Catalog) (args : List (String × List Token)) (bindings : Bindings) : Prop :=
  List.Forall₂ (fun a b => a.1 = b.1 ∧ Spans [] a.2 b.2 ∧ Joined catalog a.2) args bindings

section
variable {catalog : Catalog}

theorem unwrap_of_ne {os : List Operand} (h : ∀ items, os ≠ [.group items]) : unwrap os = os := by
  unfold unwrap
  split
  · exact absurd rfl (h _)
  · rfl

theorem operand_ne_group {t : Token} (items : List Operand) :
    t.operand [] ≠ .ok (.group items) := by
  obtain ⟨kind, text⟩ := t
  intro h
  unfold Token.operand at h
  cases kind
  case string =>
    dsimp only at h
    cases hd : Token.decoded ⟨.string, text⟩ <;> rw [hd] at h <;> cases h
  case char =>
    dsimp only at h
    split at h <;> cases h
  all_goals cases h

/-- The spans of the arguments of a call make the arguments. -/
theorem Reads.argumentSpans {ts : List Token} {os : List Operand} (h : Reads [] ts os) :
    List.Forall₂ (fun span o => Spans [] span o ∧ span <:+: ts) (argumentSpans ts) (unwrap os) := by
  have hs := h.spans
  unfold Source.argumentSpans
  split
  · rename_i text inner hfound
    rw [hfound] at hs
    obtain ⟨o, os, ⟨hspan, hinfix⟩, hnil, rfl⟩ := List.forall₂_cons_left_iff.mp hs
    obtain rfl := List.forall₂_nil_left_iff.mp hnil
    cases hspan with
    | single ht => cases isSingle_of_operand ht
    | @group _ closing inner items ho hc hi =>
      rw [List.dropLast_concat]
      refine hi.spans.imp fun span o hspan => ⟨hspan.1, hspan.2.trans (.trans ?_ hinfix)⟩
      exact ⟨[⟨.openParen, text⟩], [closing], by simp⟩
  · rename_i hfound
    have hne (items : List Operand) : os ≠ [.group items] := by
      rintro rfl
      obtain ⟨span, found, ⟨hspan, -⟩, hnil, hs⟩ := List.forall₂_cons_right_iff.mp hs
      obtain rfl := List.forall₂_nil_right_iff.mp hnil
      cases hspan with
      | single ht => exact operand_ne_group items ht
      | @group opening closing inner _ ho hc hi =>
        obtain ⟨kind, text⟩ := opening
        obtain rfl : kind = .openParen := ho
        exact hfound text _ hs
    rwa [unwrap_of_ne hne]

/-- Arguments have no tokens but those of the call. -/
theorem mem_of_mem_argumentSpans {ts span : List Token} (hs : span ∈ argumentSpans ts) {t : Token}
    (ht : t ∈ span) : t ∈ ts := by
  unfold Source.argumentSpans at hs
  split at hs
  · rename_i text inner hfound
    have hinner : t ∈ ⟨.openParen, text⟩ :: inner :=
      List.mem_cons_of_mem _ (List.mem_of_mem_dropLast (mem_of_mem_spans hs ht))
    exact mem_of_mem_spans (hfound ▸ List.mem_singleton_self _) hinner
  · exact mem_of_mem_spans hs ht

/-- A line with arguments put in has tokens of its own and of the arguments, and spaces. -/
theorem mem_substitute {args : List (String × List Token)} {tokens : List Token} {t : Token}
    (h : t ∈ substitute args tokens) : t = blank ∨ t ∈ tokens ∨ ∃ a ∈ args, t ∈ a.2 := by
  obtain ⟨u, hu, ht⟩ := List.mem_flatMap.mp h
  unfold Token.substitute at ht
  split at ht
  · rename_i span _ hl
    obtain ⟨ls, rs, rfl, -⟩ := List.lookup_eq_some_iff.mp hl
    simp only [List.mem_cons, List.mem_append, List.not_mem_nil, or_false] at ht
    rcases ht with rfl | ht | rfl
    · exact .inl rfl
    · exact .inr (.inr ⟨_, List.mem_append_right _ List.mem_cons_self, ht⟩)
    · exact .inl rfl
  · exact .inr (.inl (List.mem_singleton.mp ht ▸ hu))

theorem Joined.infix {ts us : List Token} (h : Joined catalog ts) (hs : us <:+: ts) :
    Joined catalog us :=
  ⟨fun t ht => h.begins t (hs.subset ht), h.beside.infix hs⟩

theorem joined_append {ts us : List Token} :
    Joined catalog (ts ++ us) ↔
      Joined catalog ts ∧ Joined catalog us ∧
        ∀ t ∈ ts.getLast?, ∀ u ∈ us.head?, t.Beside u := by
  constructor
  · rintro ⟨hb, hc⟩
    rw [List.forall_mem_append] at hb
    obtain ⟨hts, hus, h⟩ := List.isChain_append.mp hc
    exact ⟨⟨hb.1, hts⟩, ⟨hb.2, hus⟩, h⟩
  · rintro ⟨hts, hus, h⟩
    exact ⟨List.forall_mem_append.mpr ⟨hts.begins, hus.begins⟩,
      List.isChain_append.mpr ⟨hts.beside, hus.beside, h⟩⟩

theorem begins_blank : blank.Begins catalog :=
  ⟨' ', [], congrArg Prod.fst (nextToken_space (by decide) [])⟩

theorem beside_blank {t : Token} (h : t.kind.isLast = false) : t.Beside blank :=
  ⟨h, fun _ => .cons (by decide) []⟩

theorem blank_beside (t : Token) : blank.Beside t :=
  ⟨rfl, fun h => nomatch h⟩

theorem Spans.isLast_getLast? {span : List Token} {o : Operand} (h : Spans [] span o) :
    ∀ t ∈ span.getLast?, t.kind.isLast = false := by
  cases h with
  | @single t _ ht =>
    rintro _ ⟨⟩
    obtain ⟨kind, text⟩ := t
    cases kind <;> first | rfl | cases ht
  | @group opening closing inner items ho hc hi =>
    intro t ht
    rw [← List.cons_append, List.getLast?_concat] at ht
    cases ht
    rw [hc]
    rfl

/-- An argument with a space on either side. -/
private theorem Spans.joined {span : List Token} {o : Operand} (h : Spans [] span o)
    (hj : Joined catalog span) : Joined catalog (blank :: (span ++ [blank])) := by
  have hblank : Joined catalog [blank] :=
    joined_cons.mpr ⟨begins_blank, fun _ hu => (nomatch hu), .nil⟩
  refine joined_cons.mpr ⟨begins_blank, fun u _ => blank_beside u, joined_append.mpr
    ⟨hj, hblank, ?_⟩⟩
  rintro t ht _ ⟨⟩
  exact beside_blank (h.isLast_getLast? t ht)

section
variable {args : List (String × List Token)} {bindings : Bindings}

theorem Spell.lookup (h : Spell catalog args bindings) (name : String) :
    Option.Rel (fun span o => Spans [] span o ∧ Joined catalog span) (args.lookup name)
      (bindings.lookup name) := by
  unfold Spell at h
  induction h with
  | nil => exact .none
  | @cons a b _ _ hab _ ih =>
    obtain ⟨hn, hab⟩ := hab
    rw [List.lookup_cons, List.lookup_cons, ← hn]
    cases name == a.1 with
    | true => exact .some hab
    | false => exact ih

/-- A token stands for itself or for an argument. -/
theorem Spell.substitute_cases (h : Spell catalog args bindings) (t : Token) :
    (∃ span o, t.substitute args = blank :: (span ++ [blank]) ∧ t.operand bindings = .ok o ∧
        Spans [] span o ∧ Joined catalog span) ∨
      t.substitute args = [t] ∧ t.operand bindings = t.operand [] := by
  have hl := h.lookup (String.ofList t.text.tail)
  obtain ⟨kind, text⟩ := t
  cases kind with
  | placeholder =>
    generalize ha : args.lookup (String.ofList (Token.mk .placeholder text).text.tail) = span?,
      hb : bindings.lookup (String.ofList (Token.mk .placeholder text).text.tail) = o? at hl
    cases hl with
    | none =>
      right
      simp [Token.substitute, Token.operand, ha, hb]
    | @some span o hs =>
      left
      exact ⟨span, o, by simp [Token.substitute, ha], by simp [Token.operand, hb], hs⟩
  | _ => exact .inr ⟨rfl, rfl⟩

/-- With the source of the arguments put in, nothing needs to be bound. -/
theorem Spell.operandsFrom_substitute (h : Spell catalog args bindings)
    (outer : List (List Operand)) (tokens : List Token) :
    operandsFrom [] outer (substitute args tokens) = operandsFrom bindings outer tokens := by
  induction tokens generalizing outer with
  | nil => cases outer <;> rfl
  | cons t rest ih =>
    change operandsFrom [] outer (t.substitute args ++ substitute args rest) = _
    rcases h.substitute_cases t with ⟨span, o, hs, ho, hspan, -⟩ | ⟨hs, ho⟩
    · have hblank (outer : List (List Operand)) (rest : List Token) :
          operandsFrom [] outer (blank :: rest) = operandsFrom [] outer rest :=
        operandsFrom_trivia rfl outer rest
      have hblank' : put [] o outer (blank :: substitute args rest) =
          put [] o outer (substitute args rest) := by
        cases outer <;> simp [put, hblank]
      rw [hs, operandsFrom_operand ho, List.cons_append, hblank, List.append_assoc,
        hspan.operandsFrom, List.singleton_append, hblank', put_congr ih]
    · rw [hs, List.singleton_append]
      exact operandsFrom_cons_congr ho.symm ih outer

/-- The source of the arguments stands apart from what is around it. -/
theorem Spell.joined_substitute (h : Spell catalog args bindings) {tokens : List Token}
    (ht : Joined catalog tokens) : Joined catalog (substitute args tokens) := by
  induction tokens with
  | nil => exact .nil
  | cons t rest ih =>
    obtain ⟨hb, hu, hrest⟩ := joined_cons.mp ht
    change Joined catalog (t.substitute args ++ substitute args rest)
    rcases h.substitute_cases t with ⟨span, o, hs, -, hspan, hj⟩ | ⟨hs, -⟩
    · rw [hs, joined_append]
      refine ⟨hspan.joined hj, ih hrest, ?_⟩
      rw [← List.cons_append, List.getLast?_concat]
      rintro _ ⟨⟩ u -
      exact blank_beside u
    · rw [hs, List.singleton_append, joined_cons]
      refine ⟨hb, ?_, ih hrest⟩
      cases rest with
      | nil => exact hu
      | cons u us =>
        have hbeside := hu u rfl
        change ∀ v ∈ (u.substitute args ++ substitute args us).head?, t.Beside v
        rcases h.substitute_cases u with ⟨span, o, hs, -⟩ | ⟨hs, -⟩
        · rw [hs]
          rintro _ ⟨⟩
          exact beside_blank hbeside.more
        · rw [hs]
          rintro _ ⟨⟩
          exact hbeside

end

/-! ### Lines put together -/

theorem not_startsApart_of_isWord {t : Token} (ht : t.Begins catalog)
    (hw : t.kind.isWord = true) : ¬StartsApart t.text := by
  obtain ⟨c, rest, rfl⟩ := ht
  intro h
  have hc : endsWord c = true := h c (head?_nextToken c rest)
  unfold nextToken at hw
  split_ifs at hw
  · dsimp only at hw
    split_ifs at hw <;> cases hw
  · dsimp only at hw
    split_ifs at hw <;> cases hw
  · cases hw
  · cases hw
  · cases hw
  · cases hw
  · simp [endsWord, *] at hc

/-- What stands in front of a word may stand in front of anything else. -/
theorem Joined.replace {ts rest us : List Token} {word : Token}
    (h : Joined catalog (ts ++ word :: rest)) (hw : word.kind.isWord = true)
    (hus : Joined catalog us) : Joined catalog (ts ++ us) := by
  obtain ⟨hts, hrest, hlast⟩ := joined_append.mp h
  refine joined_append.mpr ⟨hts, hus, fun t ht u _ => ?_⟩
  have hbeside := hlast t ht word rfl
  refine ⟨hbeside.more, fun hword => ?_⟩
  exact absurd (hbeside.apart hword) (not_startsApart_of_isWord (joined_cons.mp hrest).1 hw)

theorem operandsFrom_significant {bindings : Bindings} (outer : List (List Operand))
    (tokens : List Token) :
    operandsFrom bindings outer (significant tokens) = operandsFrom bindings outer tokens := by
  induction tokens generalizing outer with
  | nil => rfl
  | cons t rest ih =>
    by_cases ht : t.isTrivia = true
    · rw [significant_trivia ht, operandsFrom_trivia ht, ih]
    · rw [significant_token ht]
      exact operandsFrom_cons_congr rfl ih outer

/-- Tokens that can be put together read as the line that they make up. -/
theorem Joined.operands_tokenize {bindings : Bindings} {tokens : List Token}
    (h : Joined catalog tokens) :
    operands bindings (tokenize catalog (textOf tokens)) = operands bindings tokens := by
  unfold operands
  rw [← operandsFrom_significant, h.significant_tokenize, operandsFrom_significant]

end

end RiscvToolkit.Source
