import RiscvToolkit.Proofs.Source.Joined

/-! The tokens of operands. Operands nest as the parentheses of their tokens do, and every operand is read from a
span of tokens that makes the same operand wherever it stands. -/
namespace RiscvToolkit.Source

/-- The operands of a line from the end of an operand on. -/
def put (bindings : Bindings) (o : Operand) : List (List Operand) → List Token → Operands
  | [], rest => .next o (operandsFrom bindings [] rest)
  | items :: outer, rest => operandsFrom bindings ((o :: items) :: outer) rest

section
variable {bindings : Bindings} {t : Token}

theorem operandsFrom_trivia (ht : t.isTrivia = true) (outer : List (List Operand))
    (rest : List Token) :
    operandsFrom bindings outer (t :: rest) = operandsFrom bindings outer rest := by
  obtain ⟨kind, text⟩ := t
  cases kind <;> first | simp [operandsFrom]; done | cases ht

theorem operandsFrom_openParen (ht : t.kind = .openParen) (outer : List (List Operand))
    (rest : List Token) :
    operandsFrom bindings outer (t :: rest) = operandsFrom bindings ([] :: outer) rest := by
  simp [operandsFrom, ht]

theorem operandsFrom_closeParen (ht : t.kind = .closeParen) (items : List Operand)
    (outer : List (List Operand)) (rest : List Token) :
    operandsFrom bindings (items :: outer) (t :: rest) =
      put bindings (.group items.reverse) outer rest := by
  cases outer <;> simp [operandsFrom, ht, put]

theorem operandsFrom_stray (ht : t.kind = .closeParen) (rest : List Token) :
    operandsFrom bindings [] (t :: rest) = .failed .unmatchedParen := by
  simp [operandsFrom, ht]

/-- True of tokens that make an operand by themselves, if any. -/
def TokenKind.isSingle : TokenKind → Bool
  | .space | .comment | .openParen | .closeParen => false
  | _ => true

theorem isSingle_of_not (ht : ¬t.isTrivia = true) (ho : t.kind ≠ .openParen)
    (hc : t.kind ≠ .closeParen) : t.kind.isSingle = true := by
  obtain ⟨kind, text⟩ := t
  cases kind <;> first | rfl | exact absurd rfl ht | exact absurd rfl ho | exact absurd rfl hc

theorem isSingle_of_operand {o : Operand} (h : t.operand bindings = .ok o) :
    t.kind.isSingle = true := by
  obtain ⟨kind, text⟩ := t
  cases kind <;> first | rfl | cases h

theorem operandsFrom_single (ht : t.kind.isSingle = true) (outer : List (List Operand))
    (rest : List Token) :
    operandsFrom bindings outer (t :: rest) =
      match t.operand bindings with
      | .error kind => .failed kind
      | .ok o => put bindings o outer rest := by
  obtain ⟨kind, text⟩ := t
  cases ho : Token.operand bindings ⟨kind, text⟩ with
  | error e => cases kind <;> first | cases ht; done | simp [operandsFrom, ho]
  | ok o => cases kind <;> first | cases ht; done | (cases outer <;> simp [operandsFrom, ho, put])

theorem operandsFrom_operand {o : Operand} (h : t.operand bindings = .ok o)
    (outer : List (List Operand)) (rest : List Token) :
    operandsFrom bindings outer (t :: rest) = put bindings o outer rest := by
  rw [operandsFrom_single (isSingle_of_operand h), h]

end

theorem put_congr {b b' : Bindings} {ts us : List Token}
    (h : ∀ outer, operandsFrom b outer ts = operandsFrom b' outer us) (o : Operand)
    (outer : List (List Operand)) : put b o outer ts = put b' o outer us := by
  cases outer <;> simp [put, h]

/-- A token that makes the same operand goes on to the same operands. -/
theorem operandsFrom_cons_congr {b b' : Bindings} {t : Token} {ts us : List Token}
    (ho : t.operand b = t.operand b')
    (h : ∀ outer, operandsFrom b outer ts = operandsFrom b' outer us)
    (outer : List (List Operand)) :
    operandsFrom b outer (t :: ts) = operandsFrom b' outer (t :: us) := by
  by_cases ht : t.isTrivia = true
  · rw [operandsFrom_trivia ht, operandsFrom_trivia ht, h]
  by_cases hopen : t.kind = .openParen
  · rw [operandsFrom_openParen hopen, operandsFrom_openParen hopen, h]
  by_cases hclose : t.kind = .closeParen
  · cases outer with
    | nil => rw [operandsFrom_stray hclose, operandsFrom_stray hclose]
    | cons items outer =>
      rw [operandsFrom_closeParen hclose, operandsFrom_closeParen hclose, put_congr h]
  have hs := isSingle_of_not ht hopen hclose
  rw [operandsFrom_single hs, operandsFrom_single hs, ho]
  cases t.operand b' with
  | error kind => rfl
  | ok o => exact put_congr h o outer

/-- True of tokens with balanced parentheses, and of the operands that they make. -/
inductive Reads (bindings : Bindings) : List Token → List Operand → Prop
  | nil : Reads bindings [] []
  | trivia {t : Token} {ts : List Token} {os : List Operand} (ht : t.isTrivia = true)
    (h : Reads bindings ts os) : Reads bindings (t :: ts) os
  | single {t : Token} {o : Operand} {ts : List Token} {os : List Operand}
    (ht : t.operand bindings = .ok o) (h : Reads bindings ts os) :
    Reads bindings (t :: ts) (o :: os)
  | group {opening closing : Token} {inner ts : List Token} {items os : List Operand}
    (ho : opening.kind = .openParen) (hc : closing.kind = .closeParen)
    (hi : Reads bindings inner items) (h : Reads bindings ts os) :
    Reads bindings (opening :: (inner ++ closing :: ts)) (.group items :: os)

/-- True of the tokens of a single operand. -/
inductive Spans (bindings : Bindings) : List Token → Operand → Prop
  | single {t : Token} {o : Operand} (ht : t.operand bindings = .ok o) : Spans bindings [t] o
  | group {opening closing : Token} {inner : List Token} {items : List Operand}
    (ho : opening.kind = .openParen) (hc : closing.kind = .closeParen)
    (hi : Reads bindings inner items) :
    Spans bindings (opening :: (inner ++ [closing])) (.group items)

section
variable {bindings : Bindings}

private theorem Reads.inside {ts : List Token} {os : List Operand} (h : Reads bindings ts os)
    (items : List Operand) (outer : List (List Operand)) (rest : List Token) :
    operandsFrom bindings (items :: outer) (ts ++ rest) =
      operandsFrom bindings ((os.reverse ++ items) :: outer) rest := by
  induction h generalizing items outer rest with
  | nil => rfl
  | trivia ht _ ih => rw [List.cons_append, operandsFrom_trivia ht, ih]
  | single ht _ ih =>
    rw [List.cons_append, operandsFrom_operand ht, put, ih]
    simp
  | group ho hc _ _ ihi ih =>
    rw [List.cons_append, operandsFrom_openParen ho, List.append_assoc, ihi, List.cons_append,
      operandsFrom_closeParen hc, put, ih]
    simp

/-- A span makes its operand whatever stands around it. -/
theorem Spans.operandsFrom {span : List Token} {o : Operand} (h : Spans bindings span o)
    (outer : List (List Operand)) (rest : List Token) :
    operandsFrom bindings outer (span ++ rest) = put bindings o outer rest := by
  cases h with
  | single ht => exact operandsFrom_operand ht outer rest
  | group ho hc hi =>
    rw [List.cons_append, operandsFrom_openParen ho, List.append_assoc, hi.inside,
      List.singleton_append, operandsFrom_closeParen hc]
    simp

theorem toList_next {o : Operand} {rest : Operands} {os : List Operand}
    (h : (Operands.next o rest).toList = .ok os) : ∃ os', os = o :: os' ∧ rest.toList = .ok os' := by
  unfold Operands.toList at h
  cases hr : rest.toList with
  | error kind =>
    rw [hr] at h
    cases h
  | ok os' =>
    rw [hr] at h
    cases h
    exact ⟨os', rfl, rfl⟩

/-- Tokens that are read inside of a group reach its end. -/
private theorem exists_closing {n : Nat} {ts : List Token} (hn : ts.length ≤ n)
    {items : List Operand} {outer : List (List Operand)} {os : List Operand}
    (h : (operandsFrom bindings (items :: outer) ts).toList = .ok os) :
    ∃ inner closing rest js, ts = inner ++ closing :: rest ∧ closing.kind = .closeParen ∧
      Reads bindings inner js ∧
      (put bindings (.group (items.reverse ++ js)) outer rest).toList = .ok os := by
  induction n generalizing ts items outer with
  | zero =>
    obtain rfl : ts = [] := List.length_eq_zero_iff.mp (Nat.le_zero.mp hn)
    cases h
  | succ n ih =>
    cases ts with
    | nil => cases h
    | cons t ts =>
      have hts : ts.length ≤ n := Nat.le_of_succ_le_succ hn
      by_cases ht : t.isTrivia = true
      · rw [operandsFrom_trivia ht] at h
        obtain ⟨inner, closing, rest, js, rfl, hc, hr, h⟩ := ih hts h
        exact ⟨t :: inner, closing, rest, js, rfl, hc, hr.trivia ht, h⟩
      by_cases ho : t.kind = .openParen
      · rw [operandsFrom_openParen ho] at h
        obtain ⟨inner, closing, rest, js, rfl, hc, hr, h⟩ := ih hts h
        rw [put] at h
        have hrest : rest.length ≤ n := by simp at hts; omega
        obtain ⟨inner', closing', rest', js', rfl, hc', hr', h⟩ := ih hrest h
        refine ⟨t :: (inner ++ closing :: inner'), closing', rest', .group js :: js', ?_, hc',
          hr.group ho hc hr', ?_⟩
        · simp
        · simpa using h
      by_cases hc : t.kind = .closeParen
      · rw [operandsFrom_closeParen hc] at h
        exact ⟨[], t, ts, [], rfl, hc, .nil, by simpa using h⟩
      rw [operandsFrom_single (isSingle_of_not ht ho hc)] at h
      cases hto : t.operand bindings with
      | error kind =>
        rw [hto] at h
        cases h
      | ok o =>
        rw [hto] at h
        obtain ⟨inner, closing, rest, js, rfl, hc, hr, h⟩ := ih hts h
        exact ⟨t :: inner, closing, rest, o :: js, rfl, hc, hr.single hto, by simpa using h⟩

/-- Tokens are balanced if they can be read to the end. -/
theorem reads_of_toList {ts : List Token} {os : List Operand}
    (h : (operands bindings ts).toList = .ok os) : Reads bindings ts os := by
  unfold operands at h
  induction hn : ts.length using Nat.strong_induction_on generalizing ts os with
  | _ n ih =>
    cases ts with
    | nil =>
      cases h
      exact .nil
    | cons t ts =>
      have hts : ts.length < n := by rw [← hn]; exact Nat.lt_succ_self _
      by_cases ht : t.isTrivia = true
      · rw [operandsFrom_trivia ht] at h
        exact (ih _ hts h rfl).trivia ht
      by_cases ho : t.kind = .openParen
      · rw [operandsFrom_openParen ho] at h
        obtain ⟨inner, closing, rest, js, rfl, hc, hr, h⟩ := exists_closing (Nat.le_refl _) h
        obtain ⟨os, rfl, htail⟩ := toList_next h
        have hrest : rest.length < n := by simp at hts; omega
        exact hr.group ho hc (ih _ hrest htail rfl)
      by_cases hc : t.kind = .closeParen
      · rw [operandsFrom_stray hc] at h
        cases h
      rw [operandsFrom_single (isSingle_of_not ht ho hc)] at h
      cases hto : t.operand bindings with
      | error kind =>
        rw [hto] at h
        cases h
      | ok o =>
        rw [hto] at h
        obtain ⟨os, rfl, htail⟩ := toList_next h
        exact (ih _ hts htail rfl).single hto

end

/-! ### The spans of a line -/

/-- The spans of a line; `current` holds the tokens since the outermost parenthesis that is open, in reverse,
and `depth` tells how many are. -/
def spansFrom : Nat → List Token → List Token → List (List Token)
  | _, _, [] => []
  | 0, _, t :: rest =>
    if t.isTrivia then spansFrom 0 [] rest
    else if t.kind = .openParen then spansFrom 1 [t] rest
    else [t] :: spansFrom 0 [] rest
  | depth + 1, current, t :: rest =>
    match t.kind, depth with
    | .openParen, _ => spansFrom (depth + 2) (t :: current) rest
    | .closeParen, 0 => (t :: current).reverse :: spansFrom 0 [] rest
    | .closeParen, depth + 1 => spansFrom (depth + 1) (t :: current) rest
    | _, _ => spansFrom (depth + 1) (t :: current) rest

/-- The tokens of each operand of a line. -/
def spans (tokens : List Token) : List (List Token) :=
  spansFrom 0 [] tokens

private theorem mem_of_mem_spansFrom {depth : Nat} {current ts span : List Token} {t : Token}
    (hs : span ∈ spansFrom depth current ts) (ht : t ∈ span) : t ∈ current ∨ t ∈ ts := by
  fun_induction spansFrom depth current ts with
  | case1 => cases hs
  | case4 _ u rest _ _ ih =>
    rcases List.mem_cons.mp hs with rfl | hs
    · exact .inr (List.mem_singleton.mp ht ▸ List.mem_cons_self)
    · exact .inr (List.mem_cons_of_mem u ((ih hs).resolve_left List.not_mem_nil))
  | case6 current u rest _ ih =>
    rcases List.mem_cons.mp hs with rfl | hs
    · rcases List.mem_cons.mp (List.mem_reverse.mp ht) with rfl | ht
      · exact .inr List.mem_cons_self
      · exact .inl ht
    · exact .inr (List.mem_cons_of_mem u ((ih hs).resolve_left List.not_mem_nil))
  | _ => grind

/-- Spans have no tokens but those of their line. -/
theorem mem_of_mem_spans {ts span : List Token} (hs : span ∈ spans ts) {t : Token}
    (ht : t ∈ span) : t ∈ ts :=
  (mem_of_mem_spansFrom hs ht).resolve_left (nomatch ·)

section
variable {bindings : Bindings}

private theorem Reads.spansFrom_inside {ts : List Token} {os : List Operand}
    (h : Reads bindings ts os) (depth : Nat) (current rest : List Token) :
    spansFrom (depth + 1) current (ts ++ rest) =
      spansFrom (depth + 1) (ts.reverse ++ current) rest := by
  induction h generalizing depth current rest with
  | nil => rfl
  | @trivia t ts os ht _ ih =>
    have hstep : spansFrom (depth + 1) current (t :: (ts ++ rest)) =
        spansFrom (depth + 1) (t :: current) (ts ++ rest) := by
      obtain ⟨kind, text⟩ := t
      cases kind <;> first | simp [spansFrom]; done | cases ht
    rw [List.cons_append, hstep, ih]
    simp
  | @single t o ts os ht _ ih =>
    have hstep : spansFrom (depth + 1) current (t :: (ts ++ rest)) =
        spansFrom (depth + 1) (t :: current) (ts ++ rest) := by
      obtain ⟨kind, text⟩ := t
      have hs := isSingle_of_operand ht
      cases kind <;> first | simp [spansFrom]; done | cases hs
    rw [List.cons_append, hstep, ih]
    simp
  | @group opening closing inner ts items os ho hc _ _ ihi ih =>
    have hopen : spansFrom (depth + 1) current (opening :: (inner ++ closing :: ts ++ rest)) =
        spansFrom (depth + 2) (opening :: current) (inner ++ closing :: (ts ++ rest)) := by
      simp [spansFrom, ho]
    have hclose (current : List Token) : spansFrom (depth + 2) current (closing :: (ts ++ rest)) =
        spansFrom (depth + 1) (closing :: current) (ts ++ rest) := by
      simp [spansFrom, hc]
    rw [List.cons_append, hopen, ihi, hclose, ih]
    simp

/-- The spans of balanced tokens make their operands. -/
theorem Reads.spans {ts : List Token} {os : List Operand} (h : Reads bindings ts os) :
    List.Forall₂ (fun span o => Spans bindings span o ∧ span <:+: ts) (spans ts) os := by
  have hmono {ts us : List Token} (hs : ts <:+: us) {found : List (List Token)}
      {os : List Operand}
      (h : List.Forall₂ (fun span o => Spans bindings span o ∧ span <:+: ts) found os) :
      List.Forall₂ (fun span o => Spans bindings span o ∧ span <:+: us) found os :=
    h.imp fun _ _ h => ⟨h.1, h.2.trans hs⟩
  induction h with
  | nil => exact .nil
  | @trivia t ts os ht _ ih =>
    have hstep : Source.spans (t :: ts) = Source.spans ts := by
      simp [Source.spans, spansFrom, ht]
    rw [hstep]
    exact hmono (List.suffix_cons t ts).isInfix ih
  | @single t o ts os ht _ ih =>
    have hs := isSingle_of_operand ht
    have hstep : Source.spans (t :: ts) = [t] :: Source.spans ts := by
      obtain ⟨kind, text⟩ := t
      cases kind <;> first | simp [Source.spans, spansFrom, Token.isTrivia]; done | cases hs
    rw [hstep]
    exact .cons ⟨.single ht, List.prefix_append [t] ts |>.isInfix⟩
      (hmono (List.suffix_cons t ts).isInfix ih)
  | @group opening closing inner ts items os ho hc hi _ _ ih =>
    have hsplit : opening :: (inner ++ closing :: ts) = (opening :: (inner ++ [closing])) ++ ts := by
      simp
    have hstep : Source.spans (opening :: (inner ++ closing :: ts)) =
        (opening :: (inner ++ [closing])) :: Source.spans ts := by
      have hopen : Source.spans (opening :: (inner ++ closing :: ts)) =
          spansFrom 1 [opening] (inner ++ closing :: ts) := by
        simp [Source.spans, spansFrom, Token.isTrivia, ho]
      rw [hopen, hi.spansFrom_inside]
      simp [Source.spans, spansFrom, hc]
    rw [hstep, hsplit]
    exact .cons ⟨.group ho hc hi, (List.prefix_append _ ts).isInfix⟩
      (hmono (List.suffix_append _ ts).isInfix ih)

end

end RiscvToolkit.Source
