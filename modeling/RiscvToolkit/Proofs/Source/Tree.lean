import RiscvToolkit.Proofs.Source.Quoted
import RiscvToolkit.Proofs.Source.Spans

/-! Lines as trees. The operands of a line are the one tree that is written out as its tokens, and a line that has none
is refused at the first token that cannot stand where it does. -/
namespace RiscvToolkit.Source
open Assembly (ErrorKind)
open Text.Quoted (Denotes BreaksAt)

/-! ### Trees and what they are written out as -/

/-- A parenthesis, or an operand that has none. -/
inductive Atom where
  | opening
  | closing
  | operand (o : Operand)

mutual

/-- An operand from left to right. -/
def Operand.atoms : Operand → List Atom
  | .group items => .opening :: (atomsOf items ++ [.closing])
  | o => [.operand o]

/-- Operands from left to right. -/
def atomsOf : List Operand → List Atom
  | [] => []
  | o :: os => o.atoms ++ atomsOf os

end

/-- Puts operands together again. The stack holds the groups that are open, the innermost first and the line itself
last, each with its items in reverse. -/
def gather : List (List Operand) → List Atom → Option (List Operand)
  | [items], [] => some items.reverse
  | _, [] => none
  | stack, .opening :: rest => gather ([] :: stack) rest
  | items :: items' :: stack, .closing :: rest =>
    gather ((.group items.reverse :: items') :: stack) rest
  | items :: stack, .operand o :: rest => gather ((o :: items) :: stack) rest
  | _, _ => none

mutual

theorem gather_atoms (o : Operand) (items : List Operand) (stack : List (List Operand))
    (rest : List Atom) :
    gather (items :: stack) (o.atoms ++ rest) = gather ((o :: items) :: stack) rest := by
  cases o with
  | group inner =>
    rw [Operand.atoms, List.cons_append, List.append_assoc, gather, gather_atomsOf inner,
      List.append_nil, List.singleton_append, gather, List.reverse_reverse]
  | _ => simp [Operand.atoms, gather]

theorem gather_atomsOf (os : List Operand) (items : List Operand) (stack : List (List Operand))
    (rest : List Atom) :
    gather (items :: stack) (atomsOf os ++ rest) =
      gather ((os.reverse ++ items) :: stack) rest := by
  cases os with
  | nil => rfl
  | cons o os =>
    rw [atomsOf, List.append_assoc, gather_atoms o, gather_atomsOf os, List.reverse_cons,
      List.append_assoc, List.singleton_append]

end

theorem gather_eq (os : List Operand) : gather [[]] (atomsOf os) = some os := by
  have h := gather_atomsOf os [] [] []
  rwa [List.append_nil, List.append_nil, gather, List.reverse_reverse] at h

/-! ### What tokens stand for -/

/-- What a token stands for: a parenthesis, an operand, or what its placeholder is bound to. -/
inductive Token.Stands (bindings : Bindings) : Token → List Atom → Prop
  | openParen {text} : Stands bindings ⟨.openParen, text⟩ [.opening]
  | closeParen {text} : Stands bindings ⟨.closeParen, text⟩ [.closing]
  | instruction {entry text} :
    Stands bindings ⟨.instruction entry, text⟩ [.operand (.instruction entry)]
  | int {value text} : Stands bindings ⟨.int value, text⟩ [.operand (.int value)]
  | float {value text} : Stands bindings ⟨.float value, text⟩ [.operand (.float value)]
  | register {r text} : Stands bindings ⟨.register r, text⟩ [.operand (.register r)]
  | bound {text o} (h : bindings.lookup (String.ofList text.tail) = some o) :
    Stands bindings ⟨.placeholder, text⟩ o.atoms
  | unbound {text} (h : bindings.lookup (String.ofList text.tail) = none) :
    Stands bindings ⟨.placeholder, text⟩ [.operand (.placeholder (String.ofList text.tail))]
  | label {text} : Stands bindings ⟨.label, text⟩ [.operand (.label (String.ofList text.dropLast))]
  | directive {text} :
    Stands bindings ⟨.directive, text⟩ [.operand (.directive (String.ofList text.tail))]
  | symbol {text} : Stands bindings ⟨.symbol, text⟩ [.operand (.symbol (String.ofList text))]
  | string {text cs} (h : Denotes (Token.inner ⟨.string, text⟩) cs) :
    Stands bindings ⟨.string, text⟩ [.operand (.string (String.ofList cs))]
  | char {text c byte} (h : Denotes (Token.inner ⟨.char, text⟩) [c])
    (hb : (String.utf8EncodeChar c).head? = some byte) :
    Stands bindings ⟨.char, text⟩ [.operand (.int byte.toNat)]

/-- True of tokens, none of them space or a comment, and of what they stand for from left to right. -/
inductive Flattens (bindings : Bindings) : List Token → List Atom → Prop
  | nil : Flattens bindings [] []
  | cons {t : Token} {ts : List Token} {as bs : List Atom} (ht : t.Stands bindings as)
    (h : Flattens bindings ts bs) : Flattens bindings (t :: ts) (as ++ bs)

section
variable {bindings : Bindings}

theorem Flattens.append {ts us : List Token} {as bs : List Atom} (h : Flattens bindings ts as)
    (h' : Flattens bindings us bs) : Flattens bindings (ts ++ us) (as ++ bs) := by
  induction h with
  | nil => exact h'
  | cons ht _ ih =>
    rw [List.append_assoc]
    exact .cons ht ih

theorem decoded_eq_ok_iff {t : Token} {cs : List Char} :
    t.decoded = .ok cs ↔ Denotes t.inner cs :=
  mapError_eq_ok_iff.trans Text.Quoted.decode_eq_ok_iff

theorem head?_utf8EncodeChar (c : Char) :
    (String.utf8EncodeChar c).head? = some ((String.utf8EncodeChar c).headD 0) := by
  have hlen : (String.utf8EncodeChar c).length = c.utf8Size := String.length_utf8EncodeChar c
  have hpos := c.utf8Size_pos
  cases hb : String.utf8EncodeChar c with
  | nil =>
    rw [hb, List.length_nil] at hlen
    omega
  | cons byte rest => rfl

/-- A token that makes an operand stands for it. -/
theorem stands_of_operand {t : Token} {o : Operand} (h : t.operand bindings = .ok o) :
    t.Stands bindings o.atoms := by
  obtain ⟨kind, text⟩ := t
  cases kind with
  | placeholder =>
    cases h
    cases hl : bindings.lookup (String.ofList text.tail) with
    | some o => exact .bound hl
    | none => exact .unbound hl
  | string =>
    obtain ⟨cs, hcs, rfl⟩ := map_eq_ok_iff.mp h
    exact .string (decoded_eq_ok_iff.mp hcs)
  | char =>
    simp only [Token.operand] at h
    split at h
    next c hc =>
      cases h
      exact .char (decoded_eq_ok_iff.mp hc) (head?_utf8EncodeChar c)
    next => cases h
    next => cases h
  | instruction entry =>
    cases h
    exact .instruction
  | int value =>
    cases h
    exact .int
  | float value =>
    cases h
    exact .float
  | register r =>
    cases h
    exact .register
  | label =>
    cases h
    exact .label
  | directive =>
    cases h
    exact .directive
  | symbol =>
    cases h
    exact .symbol
  | _ => cases h

/-- What stands for something that is no parenthesis makes an operand. -/
theorem operand_of_stands {t : Token} {as : List Atom} (h : t.Stands bindings as)
    (hs : t.kind.isSingle = true) : ∃ o, t.operand bindings = .ok o ∧ as = o.atoms := by
  cases h with
  | openParen => cases hs
  | closeParen => cases hs
  | @bound text o h =>
    refine ⟨o, ?_, rfl⟩
    simp [Token.operand, h]
  | @unbound text h =>
    refine ⟨.placeholder (String.ofList text.tail), ?_, rfl⟩
    simp [Token.operand, h]
  | @string text cs h =>
    refine ⟨.string (String.ofList cs), ?_, rfl⟩
    simp [Token.operand, decoded_eq_ok_iff.mpr h, Except.map]
  | @char text c byte h hb =>
    refine ⟨.int byte.toNat, ?_, rfl⟩
    simp [Token.operand, decoded_eq_ok_iff.mpr h, hb]
  | _ => exact ⟨_, rfl, rfl⟩

theorem stands_openParen {t : Token} (ht : t.kind = .openParen) : t.Stands bindings [.opening] := by
  obtain ⟨kind, text⟩ := t
  cases ht
  exact .openParen

theorem stands_closeParen {t : Token} (ht : t.kind = .closeParen) :
    t.Stands bindings [.closing] := by
  obtain ⟨kind, text⟩ := t
  cases ht
  exact .closeParen

theorem not_isTrivia_of_isSingle {t : Token} (h : t.kind.isSingle = true) :
    ¬t.isTrivia = true := by
  rw [Token.isTrivia_iff]
  rintro (hk | hk)
  · rw [hk] at h
    cases h
  · rw [hk] at h
    cases h

/-- Balanced tokens are what their operands are written out as. -/
theorem Reads.flattens {ts : List Token} {os : List Operand} (h : Reads bindings ts os) :
    Flattens bindings (significant ts) (atomsOf os) := by
  induction h with
  | nil => exact .nil
  | trivia ht _ ih => rwa [significant_trivia ht]
  | single ht _ ih =>
    rw [significant_token (not_isTrivia_of_isSingle (isSingle_of_operand ht))]
    exact .cons (stands_of_operand ht) ih
  | @group opening closing inner ts items os ho hc _ _ ihi ih =>
    have hopen : ¬opening.isTrivia = true := by simp [Token.isTrivia, ho]
    have hclose : ¬closing.isTrivia = true := by simp [Token.isTrivia, hc]
    rw [significant_token hopen, significant_append, significant_token hclose, atomsOf,
      Operand.atoms, List.cons_append, List.append_assoc, List.singleton_append]
    exact .cons (stands_openParen ho) (ihi.append (.cons (stands_closeParen hc) ih))

theorem eq_of_stands_openParen {t : Token} {as : List Atom} (h : t.Stands bindings as)
    (ht : t.kind = .openParen) : as = [.opening] := by
  cases h <;> first | rfl | cases ht

theorem eq_of_stands_closeParen {t : Token} {as : List Atom} (h : t.Stands bindings as)
    (ht : t.kind = .closeParen) : as = [.closing] := by
  cases h <;> first | rfl | cases ht

/-- The operands of a line from some point on, behind those that `base` holds in reverse. -/
def readBehind (bindings : Bindings) (base : List Operand) (outer : List (List Operand))
    (ts : List Token) : Option (List Operand) :=
  (operandsFrom bindings outer ts).toList.toOption.map (base.reverse ++ ·)

private theorem put_eq_gather {ts : List Token} {as : List Atom}
    (ih : ∀ base outer, readBehind bindings base outer ts = gather (outer ++ [base]) as)
    (o : Operand) {base items : List Operand} {outer stack : List (List Operand)}
    (hstack : outer ++ [base] = items :: stack) :
    (put bindings o outer ts).toList.toOption.map (base.reverse ++ ·) =
      gather ((o :: items) :: stack) as := by
  cases outer with
  | nil =>
    cases hstack
    rw [put, ← List.nil_append [o :: base], ← ih, readBehind, Operands.toList]
    cases (operandsFrom bindings [] ts).toList <;> simp [Except.map]
  | cons items' outer =>
    cases hstack
    exact ih base ((o :: items) :: outer)

/-- Reading tokens is putting together what they stand for. -/
theorem readBehind_eq_gather {ts : List Token} {as : List Atom}
    (h : Flattens bindings (significant ts) as) (base : List Operand)
    (outer : List (List Operand)) :
    readBehind bindings base outer ts = gather (outer ++ [base]) as := by
  -- the line itself is at the bottom of the stack, as if it were a group that is never closed
  have hcons (outer : List (List Operand)) (base : List Operand) :
      ∃ next stack, outer ++ [base] = next :: stack :=
    List.exists_cons_of_ne_nil (by simp)
  induction ts generalizing base outer as with
  | nil =>
    cases h
    cases outer with
    | nil => simp [readBehind, operandsFrom, Operands.toList, gather]
    | cons items outer =>
      obtain ⟨next, stack, hstack⟩ := hcons outer base
      rw [List.cons_append, hstack]
      rfl
  | cons t ts ih =>
    unfold readBehind
    by_cases ht : t.isTrivia = true
    · rw [significant_trivia ht] at h
      rw [operandsFrom_trivia ht]
      exact ih h base outer
    rw [significant_token ht] at h
    cases h with
    | @cons _ _ as bs hs h =>
    by_cases ho : t.kind = .openParen
    · obtain rfl := eq_of_stands_openParen hs ho
      rw [operandsFrom_openParen ho, List.singleton_append, gather]
      exact ih h base ([] :: outer)
    by_cases hc : t.kind = .closeParen
    · obtain rfl := eq_of_stands_closeParen hs hc
      cases outer with
      | nil =>
        rw [operandsFrom_stray hc]
        rfl
      | cons items outer =>
        obtain ⟨next, stack, hstack⟩ := hcons outer base
        rw [operandsFrom_closeParen hc, List.cons_append, hstack, List.singleton_append, gather]
        exact put_eq_gather (ih h) _ hstack
    · obtain ⟨o, hto, rfl⟩ := operand_of_stands hs (isSingle_of_not ht ho hc)
      obtain ⟨next, stack, hstack⟩ := hcons outer base
      rw [operandsFrom_operand hto, hstack, gather_atoms]
      exact put_eq_gather (ih h) o hstack

/-- The operands of a line are the one tree that is written out as its tokens. -/
theorem toList_eq_ok_iff {ts : List Token} {os : List Operand} :
    (operands bindings ts).toList = .ok os ↔ Flattens bindings (significant ts) (atomsOf os) := by
  refine ⟨fun h => (reads_of_toList h).flattens, fun h => ?_⟩
  have hread := readBehind_eq_gather h [] []
  rw [List.nil_append, gather_eq, readBehind, Option.map_eq_some_iff] at hread
  obtain ⟨os', h', rfl⟩ := hread
  exact (toOption_eq_some_iff _ _).mp h'

end

/-! ### What is wrong with a line -/

/-- True of a token that nothing is wrong with by itself. -/
structure Token.Fine (t : Token) : Prop where
  terminated : t.kind ≠ .openString ∧ t.kind ≠ .openChar
  escapes : t.kind.isLiteral = true → ∃ cs, Denotes t.inner cs
  single : t.kind = .char → ∃ c, Denotes t.inner [c]

/-- True of a token and what is wrong with it by itself. -/
inductive Token.Faulty : Token → ErrorKind → Prop
  | openString {t} (ht : t.kind = .openString) : Faulty t .unterminatedString
  | openChar {t} (ht : t.kind = .openChar) : Faulty t .unterminatedChar
  | escape {t c} (ht : t.kind.isLiteral = true) (h : BreaksAt t.inner c) :
    Faulty t (.invalidEscape c)
  | length {t cs} (ht : t.kind = .char) (h : Denotes t.inner cs) (hl : cs.length ≠ 1) :
    Faulty t .charLength

def opened (ts : List Token) : Nat :=
  ts.countP (·.kind = .openParen)

def closed (ts : List Token) : Nat :=
  ts.countP (·.kind = .closeParen)

/-- True of tokens that nothing is wrong with where so many parentheses are open: none is at fault, and no first tokens
close more than are open. -/
structure Sane (depth : Nat) (ts : List Token) : Prop where
  fine : ∀ t ∈ ts, t.Fine
  within : ∀ before, before <+: ts → closed before ≤ opened before + depth

/-- True of a token that is wrong where so many parentheses are open, and of what is wrong with it. -/
def Token.Offends (depth : Nat) (t : Token) (kind : ErrorKind) : Prop :=
  t.Faulty kind ∨ t.kind = .closeParen ∧ depth = 0 ∧ kind = .unmatchedParen

section
variable {bindings : Bindings} {t : Token} {ts : List Token} {kind : ErrorKind}

theorem Token.fine_or_faulty (t : Token) : t.Fine ∨ ∃ kind, t.Faulty kind := by
  by_cases hstring : t.kind = .openString
  · exact .inr ⟨_, .openString hstring⟩
  by_cases hchar : t.kind = .openChar
  · exact .inr ⟨_, .openChar hchar⟩
  by_cases hl : t.kind.isLiteral = true
  · cases hd : Text.Quoted.decode t.inner with
    | error c => exact .inr ⟨_, .escape hl (Text.Quoted.decode_eq_error_iff.mp hd)⟩
    | ok cs =>
      rw [Text.Quoted.decode_eq_ok_iff] at hd
      by_cases hk : t.kind = .char
      · by_cases hlen : cs.length = 1
        · obtain ⟨c, rfl⟩ := List.length_eq_one_iff.mp hlen
          exact .inl ⟨⟨hstring, hchar⟩, fun _ => ⟨_, hd⟩, fun _ => ⟨c, hd⟩⟩
        · exact .inr ⟨_, .length hk hd hlen⟩
      · exact .inl ⟨⟨hstring, hchar⟩, fun _ => ⟨cs, hd⟩, fun h => absurd h hk⟩
  · refine .inl ⟨⟨hstring, hchar⟩, fun h => absurd h hl, fun h => ?_⟩
    rw [h] at hl
    exact absurd rfl hl

theorem Token.Fine.operand (bindings : Bindings) (h : t.Fine) (hs : t.kind.isSingle = true) :
    ∃ o, t.operand bindings = .ok o := by
  obtain ⟨⟨hstring, hchar⟩, hescapes, hsingle⟩ := h
  obtain ⟨kind, text⟩ := t
  cases kind with
  | string =>
    obtain ⟨cs, hcs⟩ := hescapes rfl
    exact ⟨_, map_eq_ok_iff.mpr ⟨cs, decoded_eq_ok_iff.mpr hcs, rfl⟩⟩
  | char =>
    obtain ⟨c, hc⟩ := hsingle rfl
    simp [Token.operand, decoded_eq_ok_iff.mpr hc]
  | openString => exact absurd rfl hstring
  | openChar => exact absurd rfl hchar
  | space | comment | openParen | closeParen => cases hs
  | _ => exact ⟨_, rfl⟩

theorem Token.Faulty.operand (bindings : Bindings) (h : t.Faulty kind) :
    t.kind.isSingle = true ∧ t.operand bindings = .error kind := by
  obtain ⟨k, text⟩ := t
  cases h with
  | openString ht =>
    cases ht
    exact ⟨rfl, rfl⟩
  | openChar ht =>
    cases ht
    exact ⟨rfl, rfl⟩
  | @escape c ht h =>
    have herror : Token.decoded ⟨k, text⟩ = .error (.invalidEscape c) :=
      mapError_eq_error_iff.mpr ⟨c, Text.Quoted.decode_eq_error_iff.mpr h, rfl⟩
    cases k with
    | string => exact ⟨rfl, map_eq_error_iff.mpr herror⟩
    | char => exact ⟨rfl, by simp [Token.operand, herror]⟩
    | _ => cases ht
  | length ht h hl =>
    cases ht
    refine ⟨rfl, ?_⟩
    simp only [Token.operand, decoded_eq_ok_iff.mpr h]
    split
    next hd =>
      cases hd
      exact absurd rfl hl
    next => rfl
    next hd => cases hd

/-! ### Lines token by token -/

theorem opened_cons (t : Token) (ts : List Token) : opened (t :: ts) = opened [t] + opened ts := by
  unfold opened
  rw [← List.countP_append, List.singleton_append]

theorem closed_cons (t : Token) (ts : List Token) : closed (t :: ts) = closed [t] + closed ts := by
  unfold closed
  rw [← List.countP_append, List.singleton_append]

theorem opened_singleton (t : Token) : opened [t] = if t.kind = .openParen then 1 else 0 := by
  simp [opened, List.countP_cons]

theorem closed_singleton (t : Token) : closed [t] = if t.kind = .closeParen then 1 else 0 := by
  simp [closed, List.countP_cons]

theorem Sane.nil (depth : Nat) : Sane depth [] := by
  refine ⟨List.forall_mem_nil _, fun before hb => ?_⟩
  rw [List.prefix_nil.mp hb]
  exact Nat.zero_le _

/-- Nothing is wrong with a line if nothing is with its first token, nor with the others behind it. -/
theorem sane_cons {depth : Nat} :
    Sane depth (t :: ts) ↔
      t.Fine ∧ closed [t] ≤ opened [t] + depth ∧ Sane (opened [t] + depth - closed [t]) ts := by
  constructor
  · rintro ⟨hfine, hwithin⟩
    obtain ⟨ht, hts⟩ := List.forall_mem_cons.mp hfine
    have hfirst := hwithin [t] ⟨ts, rfl⟩
    refine ⟨ht, hfirst, hts, fun before hb => ?_⟩
    have hle := hwithin (t :: before) (List.cons_prefix_cons.mpr ⟨rfl, hb⟩)
    rw [opened_cons, closed_cons] at hle
    omega
  · rintro ⟨ht, hfirst, hts, hwithin⟩
    refine ⟨List.forall_mem_cons.mpr ⟨ht, hts⟩, fun before hb => ?_⟩
    cases before with
    | nil => exact Nat.zero_le _
    | cons u before =>
      obtain ⟨rfl, hrest⟩ := List.cons_prefix_cons.mp hb
      have hle := hwithin before hrest
      rw [opened_cons, closed_cons]
      omega

/-- True if the tokens of a line can be read on from some of them, with so many groups open. -/
def GoesOn (bindings : Bindings) (outer : List (List Operand)) (ts : List Token) (depth : Nat) :
    Prop :=
  ∃ outer' f, outer'.length = depth ∧ ∀ rest,
    (operandsFrom bindings outer (ts ++ rest)).toList =
      (operandsFrom bindings outer' rest).toList.map f

theorem goesOn_of_eq {outer : List (List Operand)} (outer' : List (List Operand))
    (h : ∀ rest, operandsFrom bindings outer (ts ++ rest) = operandsFrom bindings outer' rest) :
    GoesOn bindings outer ts outer'.length :=
  ⟨outer', id, rfl, fun rest => by rw [h, Except.map_id, id]⟩

theorem goesOn_of_put {o : Operand} {outer outer' : List (List Operand)}
    (h : ∀ rest, operandsFrom bindings outer (ts ++ rest) = put bindings o outer' rest) :
    GoesOn bindings outer ts outer'.length := by
  cases outer' with
  | nil => exact ⟨[], (o :: ·), rfl, fun rest => by rw [h]; rfl⟩
  | cons items outer' => exact goesOn_of_eq ((o :: items) :: outer') h

theorem GoesOn.trans {outer : List (List Operand)} {us : List Token} {depth depth' : Nat}
    (h : GoesOn bindings outer ts depth)
    (h' : ∀ outer', outer'.length = depth → GoesOn bindings outer' us depth') :
    GoesOn bindings outer (ts ++ us) depth' := by
  obtain ⟨outer', f, hlen, hf⟩ := h
  obtain ⟨outer'', g, hlen', hg⟩ := h' outer' hlen
  refine ⟨outer'', f ∘ g, hlen', fun rest => ?_⟩
  rw [List.append_assoc, hf, hg]
  cases (operandsFrom bindings outer'' rest).toList <;> rfl

/-- A token that nothing is wrong with is read. -/
theorem goesOn_token (ht : t.Fine) {outer : List (List Operand)}
    (hle : closed [t] ≤ opened [t] + outer.length) :
    GoesOn bindings outer [t] (opened [t] + outer.length - closed [t]) := by
  rw [opened_singleton, closed_singleton] at hle ⊢
  by_cases hopen : t.kind = .openParen
  · have hclose : t.kind ≠ .closeParen := by simp [hopen]
    rw [if_pos hopen, if_neg hclose, Nat.add_comm]
    exact goesOn_of_eq ([] :: outer) (operandsFrom_openParen hopen outer)
  by_cases hclose : t.kind = .closeParen
  · rw [if_neg hopen, if_pos hclose] at hle ⊢
    cases outer with
    | nil => cases hle
    | cons items outer =>
      rw [List.length_cons, Nat.zero_add, Nat.add_sub_cancel]
      exact goesOn_of_put (operandsFrom_closeParen hclose items outer)
  rw [if_neg hopen, if_neg hclose, Nat.zero_add, Nat.sub_zero]
  by_cases htrivia : t.isTrivia = true
  · exact goesOn_of_eq outer (operandsFrom_trivia htrivia outer)
  · obtain ⟨o, ho⟩ := ht.operand bindings (isSingle_of_not htrivia hopen hclose)
    exact goesOn_of_put (operandsFrom_operand ho outer)

/-- Tokens that nothing is wrong with are read to the last. -/
theorem Sane.goesOn (bindings : Bindings) {outer : List (List Operand)}
    (h : Sane outer.length ts) :
    GoesOn bindings outer ts (opened ts + outer.length - closed ts) := by
  induction ts generalizing outer with
  | nil =>
    have hlen : opened [] + outer.length - closed [] = outer.length := Nat.zero_add _
    rw [hlen]
    exact goesOn_of_eq outer fun _ => rfl
  | cons t ts ih =>
    obtain ⟨ht, hle, hts⟩ := sane_cons.mp h
    rw [opened_cons, closed_cons]
    refine (goesOn_token ht hle).trans fun outer' hlen => ?_
    have hdepth : opened [t] + opened ts + outer.length - (closed [t] + closed ts) =
        opened ts + outer'.length - closed ts := by omega
    rw [hdepth]
    exact ih (hlen ▸ hts)

/-- A token that is wrong ends a line. -/
theorem Token.Offends.operandsFrom {outer : List (List Operand)}
    (h : t.Offends outer.length kind) (rest : List Token) :
    operandsFrom bindings outer (t :: rest) = .failed kind := by
  rcases h with hf | ⟨hclose, houter, rfl⟩
  · obtain ⟨hs, ho⟩ := hf.operand bindings
    rw [operandsFrom_single hs, ho]
  · obtain rfl := List.length_eq_zero_iff.mp houter
    exact operandsFrom_stray hclose rest

/-- Either nothing is wrong with a line, or there is a first token that is wrong. -/
theorem sane_or_offends (depth : Nat) (ts : List Token) :
    Sane depth ts ∨ ∃ before t behind kind, ts = before ++ t :: behind ∧ Sane depth before ∧
      t.Offends (opened before + depth - closed before) kind := by
  induction ts generalizing depth with
  | nil => exact .inl (.nil depth)
  | cons t ts ih =>
    have hfirst {kind : ErrorKind} (h : t.Offends depth kind) :
        ∃ before u behind kind, t :: ts = before ++ u :: behind ∧ Sane depth before ∧
          u.Offends (opened before + depth - closed before) kind :=
      ⟨[], t, ts, kind, rfl, .nil depth, (Nat.zero_add depth).symm ▸ h⟩
    rcases t.fine_or_faulty with ht | ⟨kind, hf⟩
    · by_cases hle : closed [t] ≤ opened [t] + depth
      · rcases ih (opened [t] + depth - closed [t]) with hs | ⟨before, u, behind, kind, rfl, hb, hu⟩
        · exact .inl (sane_cons.mpr ⟨ht, hle, hs⟩)
        · refine .inr ⟨t :: before, u, behind, kind, rfl, sane_cons.mpr ⟨ht, hle, hb⟩, ?_⟩
          have hdepth : opened (t :: before) + depth - closed (t :: before) =
              opened before + (opened [t] + depth - closed [t]) - closed before := by
            rw [opened_cons, closed_cons]
            omega
          rwa [hdepth]
      · rw [closed_singleton] at hle
        split_ifs at hle with hclose
        · exact .inr (hfirst (.inr ⟨hclose, by omega, rfl⟩))
        · exact absurd (Nat.zero_le _) hle
    · exact .inr (hfirst (.inl hf))

theorem toList_of_sane (bindings : Bindings) (h : Sane 0 ts) :
    (closed ts = opened ts → ∃ os, (operands bindings ts).toList = .ok os) ∧
      (closed ts < opened ts → (operands bindings ts).toList = .error .unmatchedParen) := by
  have h : Sane ([] : List (List Operand)).length ts := h
  obtain ⟨outer, f, hlen, hf⟩ := h.goesOn bindings
  have hline := hf []
  rw [List.append_nil] at hline
  rw [List.length_nil] at hlen
  constructor
  · intro heq
    obtain rfl : outer = [] := List.length_eq_zero_iff.mp (by omega)
    exact ⟨_, hline⟩
  · intro hlt
    cases outer with
    | nil =>
      rw [List.length_nil] at hlen
      omega
    | cons items outer => exact hline

theorem toList_of_offends (bindings : Bindings) {before behind : List Token} (hb : Sane 0 before)
    (ht : t.Offends (opened before - closed before) kind) :
    (operands bindings (before ++ t :: behind)).toList = .error kind := by
  have hb : Sane ([] : List (List Operand)).length before := hb
  obtain ⟨outer, f, hlen, hf⟩ := hb.goesOn bindings
  have hdepth : opened before - closed before = outer.length := hlen.symm
  rw [hdepth] at ht
  have hline := hf (t :: behind)
  rw [ht.operandsFrom] at hline
  exact hline

end

/-- A line has operands exactly if nothing is wrong with any of its tokens, no first tokens close more parentheses than
they open, and all together close as many. The operands are the one tree that is written out as the tokens of the line
that are neither space nor comments, where a placeholder that is bound is what it is bound to. Otherwise the error is what
is wrong with the first token that is wrong, or an unmatched parenthesis if one is left open and no token is wrong. -/
theorem operands_tree (catalog : Catalog) (line : List Char) (bindings : Bindings) :
    ((∃ os, (operands bindings (tokenize catalog line)).toList = .ok os) ↔
      Sane 0 (tokenize catalog line) ∧
        closed (tokenize catalog line) = opened (tokenize catalog line)) ∧
    (∀ os, (operands bindings (tokenize catalog line)).toList = .ok os ↔
      Flattens bindings (significant (tokenize catalog line)) (atomsOf os)) ∧
    ∀ kind, (operands bindings (tokenize catalog line)).toList = .error kind ↔
      (∃ before t behind, tokenize catalog line = before ++ t :: behind ∧ Sane 0 before ∧
        t.Offends (opened before - closed before) kind) ∨
      Sane 0 (tokenize catalog line) ∧
        closed (tokenize catalog line) < opened (tokenize catalog line) ∧
          kind = .unmatchedParen := by
  generalize tokenize catalog line = ts
  have hsettled (hs : Sane 0 ts) : closed ts < opened ts ∨ closed ts = opened ts :=
    (hs.within ts List.prefix_rfl).lt_or_eq
  refine ⟨⟨?_, fun ⟨hs, heq⟩ => (toList_of_sane bindings hs).1 heq⟩, fun os => toList_eq_ok_iff,
    fun kind => ⟨fun herror => ?_, ?_⟩⟩
  · rintro ⟨os, hos⟩
    rcases sane_or_offends 0 ts with hs | ⟨before, t, behind, kind, rfl, hb, ht⟩
    · refine ⟨hs, (hsettled hs).resolve_left fun hlt => ?_⟩
      cases hos.symm.trans ((toList_of_sane bindings hs).2 hlt)
    · cases hos.symm.trans (toList_of_offends bindings hb ht)
  · rcases sane_or_offends 0 ts with hs | ⟨before, t, behind, kind', rfl, hb, ht⟩
    · rcases hsettled hs with hlt | heq
      · have hkind := herror.symm.trans ((toList_of_sane bindings hs).2 hlt)
        exact .inr ⟨hs, hlt, Except.error.inj hkind⟩
      · obtain ⟨os, hos⟩ := (toList_of_sane bindings hs).1 heq
        cases herror.symm.trans hos
    · obtain rfl := Except.error.inj (herror.symm.trans (toList_of_offends bindings hb ht))
      exact .inl ⟨before, t, behind, rfl, hb, ht⟩
  · rintro (⟨before, t, behind, rfl, hb, ht⟩ | ⟨hs, hlt, rfl⟩)
    · exact toList_of_offends bindings hb ht
    · exact (toList_of_sane bindings hs).2 hlt

end RiscvToolkit.Source
