import RiscvToolkit.Proofs.Except
import RiscvToolkit.Proofs.Source.Joined

/-! The inside of literals. The scan for the closing quote and the reading of escapes take the same characters for
escapes, so that no backslash is ever left over. -/
namespace RiscvToolkit

namespace Text.Quoted

/-- What characters between quotes stand for. -/
inductive Denotes : List Char → List Char → Prop
  | nil : Denotes [] []
  | plain {c : Char} {cs ds : List Char} (hc : c ≠ '\\') (h : Denotes cs ds) :
    Denotes (c :: cs) (c :: ds)
  | escape {c d : Char} {cs ds : List Char} (hc : escape? c = some d) (h : Denotes cs ds) :
    Denotes ('\\' :: c :: cs) (d :: ds)

/-- True of characters that stand for nothing, and of the first character behind a backslash that is to blame. A
backslash with nothing behind it is to blame itself. -/
inductive BreaksAt : List Char → Char → Prop
  | unknown {before ds : List Char} {c : Char} (h : Denotes before ds) (hc : escape? c = none)
    (rest : List Char) : BreaksAt (before ++ '\\' :: c :: rest) c
  | missing {before ds : List Char} (h : Denotes before ds) : BreaksAt (before ++ ['\\']) '\\'

/-- True of characters that the quotes of a literal can enclose: none of them is the closing quote, unless it has a
backslash in front of it, and each backslash has a character to itself. -/
inductive Inside (quote : Char) : List Char → Prop
  | nil : Inside quote []
  | plain {c : Char} {cs : List Char} (hc : c ≠ '\\') (hq : c ≠ quote) (h : Inside quote cs) :
    Inside quote (c :: cs)
  | pair {cs : List Char} (c : Char) (h : Inside quote cs) : Inside quote ('\\' :: c :: cs)

/-- How many backslashes characters end in. -/
def trailing (cs : List Char) : Nat :=
  (cs.reverse.takeWhile (· == '\\')).length

variable {c : Char} {cs ds : List Char}

theorem decode_cons (hc : c ≠ '\\') (cs : List Char) :
    decode (c :: cs) = (decode cs).map (c :: ·) := by
  cases cs with
  | nil => exact decode.eq_4 c [] (fun h _ => hc h) (fun _ _ h _ => hc h)
  | cons d cs => exact decode.eq_4 c _ (fun h _ => hc h) (fun _ _ h _ => hc h)

theorem decode_escape {d : Char} (hc : escape? c = some d) (cs : List Char) :
    decode ('\\' :: c :: cs) = (decode cs).map (d :: ·) := by
  rw [decode, hc]

/-- Characters that stand for something do so whatever follows. -/
theorem Denotes.decode_append (h : Denotes cs ds) (rest : List Char) :
    decode (cs ++ rest) = (decode rest).map (ds ++ ·) := by
  have hmap (f g : List Char → List Char) (r : Except Char (List Char)) :
      (r.map f).map g = r.map (g ∘ f) := by
    cases r <;> rfl
  induction h with
  | nil => cases h : decode rest <;> exact h
  | plain hc _ ih =>
    rw [List.cons_append, decode_cons hc, ih, hmap]
    rfl
  | escape hc _ ih =>
    rw [List.cons_append, List.cons_append, decode_escape hc, ih, hmap]
    rfl

theorem decode_eq_ok_iff : decode cs = .ok ds ↔ Denotes cs ds := by
  constructor
  · intro h
    fun_induction decode cs generalizing ds with
    | case1 =>
      cases h
      exact .nil
    | case2 => cases h
    | case3 c cs d hc ih =>
      obtain ⟨es, he, rfl⟩ := map_eq_ok_iff.mp h
      exact .escape hc (ih he)
    | case4 => cases h
    | case5 c cs h₁ h₂ ih =>
      obtain ⟨es, he, rfl⟩ := map_eq_ok_iff.mp h
      exact .plain (Source.ne_backslash h₁ h₂) (ih he)
  · intro h
    have happ := h.decode_append []
    rwa [List.append_nil, decode, Except.map, List.append_nil] at happ

theorem Denotes.unique {es : List Char} (h : Denotes cs ds) (h' : Denotes cs es) : ds = es :=
  Except.ok.inj ((decode_eq_ok_iff.mpr h).symm.trans (decode_eq_ok_iff.mpr h'))

theorem BreaksAt.plain {d : Char} (hd : d ≠ '\\') (h : BreaksAt cs c) : BreaksAt (d :: cs) c := by
  cases h with
  | unknown h hc rest => exact .unknown (.plain hd h) hc rest
  | missing h => exact .missing (.plain hd h)

theorem BreaksAt.escape {d e : Char} (he : escape? d = some e) (h : BreaksAt cs c) :
    BreaksAt ('\\' :: d :: cs) c := by
  cases h with
  | unknown h hc rest => exact .unknown (.escape he h) hc rest
  | missing h => exact .missing (.escape he h)

theorem decode_eq_error_iff : decode cs = .error c ↔ BreaksAt cs c := by
  constructor
  · intro h
    fun_induction decode cs with
    | case1 => cases h
    | case2 =>
      cases h
      exact .missing .nil
    | case3 d cs e he ih => exact (ih (map_eq_error_iff.mp h)).escape he
    | case4 d cs he =>
      cases h
      exact .unknown .nil he cs
    | case5 d cs h₁ h₂ ih => exact (ih (map_eq_error_iff.mp h)).plain (Source.ne_backslash h₁ h₂)
  · intro h
    cases h with
    | unknown h hc rest =>
      rw [h.decode_append, decode, hc]
      rfl
    | missing h =>
      rw [h.decode_append]
      rfl

/-! ### Backslashes -/

theorem trailing_le (cs : List Char) : trailing cs ≤ cs.length := by
  have hle := (List.takeWhile_prefix (l := cs.reverse) (· == '\\')).length_le
  rwa [List.length_reverse] at hle

theorem trailing_cons (c : Char) (cs : List Char) :
    trailing (c :: cs) =
      if trailing cs = cs.length ∧ c = '\\' then cs.length + 1 else trailing cs := by
  unfold trailing
  rw [List.reverse_cons, List.takeWhile_append, List.length_reverse]
  by_cases hall : (cs.reverse.takeWhile (· == '\\')).length = cs.length
  · by_cases hc : c = '\\'
    · simp [hall, hc]
    · simp [hall, hc]
  · simp [hall]

/-- The number of backslashes at the end is even, as none stands there but in a pair. -/
theorem Inside.even_trailing {quote : Char} (h : Inside quote cs) : Even (trailing cs) := by
  induction h with
  | nil => exact Even.zero
  | plain hc _ _ ih => rwa [trailing_cons, if_neg fun h => hc h.2]
  | @pair cs c _ ih =>
    have hle := trailing_le cs
    rw [trailing_cons, List.length_cons]
    by_cases hall : trailing cs = cs.length ∧ c = '\\'
    · rw [trailing_cons, if_pos hall, if_pos ⟨rfl, rfl⟩, ← hall.1]
      exact ih.add even_two
    · rw [trailing_cons, if_neg hall, if_neg fun h => by omega]
      exact ih

/-- Where no backslash is left over, none is to blame. -/
theorem Inside.decode_ne {quote : Char} (h : Inside quote cs) : decode cs ≠ .error '\\' := by
  induction h with
  | nil => simp [decode]
  | plain hc _ _ ih => rwa [decode_cons hc, ne_eq, map_eq_error_iff]
  | @pair cs c _ ih =>
    cases he : escape? c with
    | some d => rwa [decode_escape he, ne_eq, map_eq_error_iff]
    | none =>
      rw [decode, he]
      rintro ⟨⟩
      cases he

end Text.Quoted

namespace Source
open Text.Quoted
variable {quote : Char}

theorem splitQuoted_of_inside (hq : quote ≠ '\\') {cs : List Char} (h : Inside quote cs)
    (rest : List Char) : splitQuoted quote (cs ++ quote :: rest) = (cs ++ [quote], rest, true) := by
  induction h with
  | nil => rw [List.nil_append, splitQuoted_cons hq, if_pos rfl, List.nil_append]
  | plain hc hne _ ih =>
    rw [List.cons_append, splitQuoted_cons hc, if_neg hne, ih, List.cons_append]
  | pair c _ ih =>
    rw [List.cons_append, List.cons_append, splitQuoted, ih]
    rfl

/-- A literal reaches to the first quote that its inside does not take, and no further. -/
theorem splitQuoted_closed_iff {line inner rest : List Char} (hq : quote ≠ '\\') :
    splitQuoted quote line = (inner, rest, true) ↔
      ∃ cs, Inside quote cs ∧ inner = cs ++ [quote] ∧ line = cs ++ quote :: rest := by
  constructor
  · intro h
    fun_induction splitQuoted quote line generalizing inner with
    | case1 => cases h
    | case2 => cases h
    | case3 c line inner' rest' closed hs ih =>
      cases h
      obtain ⟨cs, hcs, rfl, rfl⟩ := ih hs
      exact ⟨'\\' :: c :: cs, hcs.pair c, rfl, rfl⟩
    | case4 line h₁ h₂ =>
      cases h
      exact ⟨[], .nil, rfl, rfl⟩
    | case5 c line h₁ h₂ hc inner' rest' closed hs ih =>
      cases h
      obtain ⟨cs, hcs, rfl, rfl⟩ := ih hs
      exact ⟨c :: cs, .plain (ne_backslash h₁ h₂) hc hcs, rfl, rfl⟩
  · rintro ⟨cs, hcs, rfl, rfl⟩
    exact splitQuoted_of_inside hq hcs rest

/-- True of literals that are closed. -/
def TokenKind.isLiteral : TokenKind → Bool
  | .string | .char => true
  | _ => false

/-- A literal of a line is its inside between two quotes. -/
theorem Token.Begins.inside {catalog : Catalog} {t : Token} (ht : t.Begins catalog)
    (hk : t.kind.isLiteral = true) :
    ∃ quote, t.text = quote :: (t.inner ++ [quote]) ∧ Inside quote t.inner := by
  obtain ⟨c, line, rfl⟩ := ht
  have hclosed {quote : Char} (hq : quote ≠ '\\') {inner rest : List Char} (kind : TokenKind)
      (hs : splitQuoted quote line = (inner, rest, true)) :
      quote :: inner = quote :: (Token.inner ⟨kind, quote :: inner⟩ ++ [quote]) ∧
        Inside quote (Token.inner ⟨kind, quote :: inner⟩) := by
    obtain ⟨cs, hcs, rfl, -⟩ := (splitQuoted_closed_iff hq).mp hs
    have hinner : Token.inner ⟨kind, quote :: (cs ++ [quote])⟩ = cs := List.dropLast_concat
    rw [hinner]
    exact ⟨rfl, hcs⟩
  unfold nextToken at hk ⊢
  split_ifs at hk ⊢ with hstring hchar hcomment hopen hclose hspace
  · subst hstring
    rcases hs : splitQuoted '"' line with ⟨inner, rest, closed⟩
    rw [hs] at hk
    cases closed with
    | true => exact ⟨'"', hclosed (by decide) .string hs⟩
    | false => cases hk
  · subst hchar
    rcases hs : splitQuoted '\'' line with ⟨inner, rest, closed⟩
    rw [hs] at hk
    cases closed with
    | true => exact ⟨'\'', hclosed (by decide) .char hs⟩
    | false => cases hk
  · cases hk
  · cases hk
  · cases hk
  · cases hk
  · have hword : (identify catalog (c :: line.takeWhile (!Source.endsWord ·))).isWord = true :=
      isWord_identify _
    dsimp only at hk
    cases h : identify catalog (c :: line.takeWhile (!Source.endsWord ·)) with
    | string | char =>
      rw [h] at hword
      cases hword
    | _ =>
      rw [h] at hk
      cases hk

end Source

end RiscvToolkit
