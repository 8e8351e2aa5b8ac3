import RiscvToolkit.Proofs.Assembly.Inventory
import RiscvToolkit.Proofs.Checked.Token
import RiscvToolkit.Proofs.Source.Layout
import RiscvToolkit.Proofs.Source.Operands

/-! Operands made of tokens with slices by byte. The shape of a token, which its kind tells, is what makes the slices
exist. -/
namespace RiscvToolkit.Checked
open Source (Token TokenKind Operand Operands Bindings)
open Assembly (ErrorKind)

/-! ### Reading operands -/

/-- The characters between the quotes of a literal. -/
def inner (t : Token) : Except Defect (List Char) := do
  let last ← minus (byteSize t.text) 1
  after 1 (← upTo last t.text)

def decoded (t : Token) : Checked ErrorKind (List Char) := do
  let inner ← inner t
  of ((Text.Quoted.decode inner).mapError .invalidEscape)

/-- The first byte of a text. -/
def firstByte (cs : List Char) : Except Defect UInt8 :=
  match cs.flatMap String.utf8EncodeChar with
  | [] => .error .index
  | byte :: _ => .ok byte

/-- The operand that a token makes. -/
def operand (bindings : Bindings) (t : Token) : Checked ErrorKind Operand :=
  match t.kind with
  | .instruction entry => return .instruction entry
  | .int value => return .int value
  | .float value => return .float value
  | .register register => return .register register
  | .placeholder => do
    let name := String.ofList (← after 1 t.text)
    return (bindings.lookup name).getD (.placeholder name)
  | .label => do
    let last ← minus (byteSize t.text) 1
    return .label (String.ofList (← upTo last t.text))
  | .directive => return .directive (String.ofList (← after 1 t.text))
  | .symbol => return .symbol (String.ofList t.text)
  | .string => return .string (String.ofList (← decoded t))
  | .char => do
    let cs ← decoded t
    if cs.length ≠ 1 then throw .charLength
    return .int (← firstByte cs).toNat
  | .openString => throw .unterminatedString
  | .openChar => throw .unterminatedChar
  | .openParen | .closeParen => throw .unmatchedParen
  -- spaces and comments are skipped
  | .space | .comment => defect .unreachable

/-- Puts an operand into the innermost open group, or behind the operands before it, and goes on. -/
def put (read : List (List Operand) → Except Defect Operands) (o : Operand) :
    List (List Operand) → Except Defect Operands
  | [] => (read []).map (.next o)
  | items :: outer => read ((o :: items) :: outer)

/-- Reads operands up to the end of a line. `outer` holds the open groups. -/
def operandsFrom (bindings : Bindings) : Nat → List (List Operand) → List Token → Except Defect Operands
  | 0, _, _ => .error .endless
  | fuel + 1, outer, tokens =>
    match tokens.dropWhile Token.isTrivia with
    | [] => if outer.isEmpty then .ok .done else .ok (.failed .unmatchedParen)
    | t :: rest =>
      let read (outer : List (List Operand)) := operandsFrom bindings fuel outer rest
      if t.kind = .openParen then read ([] :: outer)
      else if t.kind = .closeParen then
        match outer with
        | [] => .ok (.failed .unmatchedParen)
        | items :: outer => put read (.group items.reverse) outer
      else do
        match ← (operand bindings t).run with
        | .error kind => return .failed kind
        | .ok o => put read o outer

/-- The operands of a line. -/
def operands (bindings : Bindings) (tokens : List Token) : Except Defect Operands :=
  operandsFrom bindings (tokens.length + 1) [] tokens

/-! ### Shapes -/

/-- True of a token whose text has the shape that its kind tells. A mnemonic is one of the catalog. -/
def Shaped (catalog : Catalog) (t : Token) : Prop :=
  match t.kind with
  | .instruction entry => catalog.find? entry.name = some entry
  | .placeholder => t.text.head? = some '%'
  | .directive => t.text.head? = some '.'
  | .label => t.text.getLast? = some ':'
  | .string | .char => ∃ quote cs, quote.utf8Size = 1 ∧ t.text = quote :: (cs ++ [quote])
  | _ => True

section
variable {catalog : Catalog}

theorem shaped_identify (word : List Char) : Shaped catalog ⟨Source.identify catalog word, word⟩ := by
  unfold Source.identify
  dsimp only
  split
  next entry hfind =>
    have hname : entry.name = String.ofList word := by simpa using List.find?_some hfind
    exact (congrArg catalog.find? hname).trans hfind
  next =>
    split
    · trivial
    split
    · trivial
    split
    · trivial
    split_ifs with hplaceholder hlabel hdirective
    · exact hplaceholder
    · exact hlabel
    · exact hdirective
    · trivial

theorem exists_eq_append_of_closed {quote : Char} {line : List Char}
    (h : (Source.splitQuoted quote line).2.2 = true) :
    ∃ cs, (Source.splitQuoted quote line).1 = cs ++ [quote] := by
  rcases hs : Source.splitQuoted quote line with ⟨inner, left, closed⟩
  rw [hs] at h
  cases h
  have hlast := Source.getLast?_splitQuoted hs
  exact ⟨inner.dropLast, (List.dropLast_append_getLast? quote hlast).symm⟩

theorem shaped_nextToken (c : Char) (rest : List Char) :
    Shaped catalog (Source.nextToken catalog c rest).1 := by
  unfold Source.nextToken
  split_ifs with hstring hchar
  · subst hstring
    dsimp only
    split_ifs with hclosed
    · obtain ⟨cs, hcs⟩ := exists_eq_append_of_closed hclosed
      exact ⟨'"', cs, rfl, congrArg _ hcs⟩
    · trivial
  · subst hchar
    dsimp only
    split_ifs with hclosed
    · obtain ⟨cs, hcs⟩ := exists_eq_append_of_closed hclosed
      exact ⟨'\'', cs, rfl, congrArg _ hcs⟩
    · trivial
  · trivial
  · trivial
  · trivial
  · trivial
  · exact shaped_identify _

theorem shaped_tokenize {line : List Char} {t : Token} (ht : t ∈ Source.tokenize catalog line) :
    Shaped catalog t := by
  induction line using Source.tokenize_induction catalog with
  | nil => cases ht
  | cons c rest ih =>
    rw [Source.tokenize_cons] at ht
    rcases List.mem_cons.mp ht with rfl | ht
    · exact shaped_nextToken c rest
    · exact ih ht

/-- A token is no longer than its line. -/
theorem byteSize_le_of_mem {line : List Char} {t : Token} (ht : t ∈ Source.tokenize catalog line) :
    byteSize t.text ≤ byteSize line := by
  obtain ⟨before, behind, hsplit⟩ := List.append_of_mem ht
  have hline := Source.textOf_tokenize catalog line
  rw [hsplit, Source.textOf, List.flatMap_append, List.flatMap_cons] at hline
  rw [← hline, byteSize_append, byteSize_append]
  omega

/-! ### Agreement -/

theorem after_one_of_head? {c : Char} (hc : c.utf8Size = 1) {text : List Char}
    (h : text.head? = some c) : after 1 text = .ok text.tail := by
  obtain ⟨rest, rfl⟩ := List.head?_eq_some_iff.mp h
  rw [← hc]
  exact after_cons c rest

/-- A text that ends in a character of one byte is cut before it. -/
theorem upTo_dropLast {c : Char} (hc : c.utf8Size = 1) {text : List Char}
    (h : text.getLast? = some c) :
    minus (byteSize text) 1 = .ok (byteSize text.dropLast) ∧
      upTo (byteSize text.dropLast) text = .ok text.dropLast := by
  have htext : text.dropLast ++ [c] = text := List.dropLast_append_getLast? c h
  have hsize : byteSize text = byteSize text.dropLast + 1 := by
    conv_lhs => rw [← htext]
    rw [byteSize_append, byteSize_cons, hc]
    rfl
  constructor
  · rw [minus_of_le (by omega), hsize, Nat.add_sub_cancel]
  · have hcut := upTo_byteSize text.dropLast [c]
    rwa [htext] at hcut

theorem inner_eq {t : Token} {quote : Char} {cs : List Char} (hq : quote.utf8Size = 1)
    (ht : t.text = quote :: (cs ++ [quote])) : inner t = .ok t.inner := by
  have hlast : t.text.getLast? = some quote := by
    rw [ht, ← List.cons_append, List.getLast?_concat]
  have hhead : t.text.dropLast.head? = some quote := by
    rw [ht, ← List.cons_append, List.dropLast_concat]
    rfl
  obtain ⟨hminus, hupTo⟩ := upTo_dropLast hq hlast
  rw [inner, hminus, ok_bind, hupTo, ok_bind, after_one_of_head? hq hhead, Source.Token.inner,
    List.tail_dropLast]

theorem decoded_eq {t : Token} {quote : Char} {cs : List Char} (hq : quote.utf8Size = 1)
    (ht : t.text = quote :: (cs ++ [quote])) : decoded t = of t.decoded := by
  rw [decoded, inner_eq hq ht]
  rfl

/-- A character has at least one byte. -/
theorem firstByte_eq (c : Char) : firstByte [c] = .ok ((String.utf8EncodeChar c).headD 0) := by
  have hlen : (String.utf8EncodeChar c).length = c.utf8Size := String.length_utf8EncodeChar c
  have hpos := c.utf8Size_pos
  unfold firstByte
  rw [List.flatMap_singleton]
  cases hb : String.utf8EncodeChar c with
  | nil =>
    rw [hb, List.length_nil] at hlen
    omega
  | cons byte rest => rfl

theorem operand_eq (bindings : Bindings) {t : Token} (ht : Shaped catalog t)
    (htrivia : t.isTrivia = false) : operand bindings t = of (t.operand bindings) := by
  obtain ⟨kind, text⟩ := t
  cases kind with
  | placeholder =>
    simp only [operand, Token.operand]
    rw [after_one_of_head? rfl ht]
    rfl
  | directive =>
    simp only [operand, Token.operand]
    rw [after_one_of_head? rfl ht]
    rfl
  | label =>
    obtain ⟨hminus, hupTo⟩ := upTo_dropLast rfl ht
    simp only [operand, Token.operand]
    rw [hminus]
    simp only [liftM_ok, of_ok_bind]
    rw [hupTo]
    rfl
  | string =>
    obtain ⟨quote, cs, hq, htext⟩ := ht
    simp only [operand, Token.operand]
    rw [decoded_eq hq htext]
    cases Token.decoded ⟨.string, text⟩ <;> rfl
  | char =>
    obtain ⟨quote, cs, hq, htext⟩ := ht
    simp only [operand, Token.operand]
    rw [decoded_eq hq htext]
    cases hd : Token.decoded ⟨.char, text⟩ with
    | error kind => rfl
    | ok ds =>
      rw [of_ok_bind]
      by_cases hlen : ds.length = 1
      · obtain ⟨c, rfl⟩ := List.length_eq_one_iff.mp hlen
        rw [firstByte_eq]
        rfl
      · rw [if_pos hlen]
        rcases ds with _ | ⟨c, _ | ⟨d, ds⟩⟩
        · rfl
        · exact absurd rfl hlen
        · rfl
  | space | comment => cases htrivia
  | _ => rfl

theorem put_eq {bindings : Bindings} {rest : List Token}
    {read : List (List Operand) → Except Defect Operands}
    (h : ∀ outer, read outer = .ok (Source.operandsFrom bindings outer rest)) (o : Operand)
    (outer : List (List Operand)) : put read o outer = .ok (Source.put bindings o outer rest) := by
  cases outer with
  | nil =>
    rw [put, h]
    rfl
  | cons items outer => exact h _

theorem operandsFrom_dropWhile (bindings : Bindings) (outer : List (List Operand))
    (tokens : List Token) :
    Source.operandsFrom bindings outer (tokens.dropWhile Token.isTrivia) =
      Source.operandsFrom bindings outer tokens := by
  induction tokens with
  | nil => rfl
  | cons t rest ih =>
    by_cases ht : t.isTrivia = true
    · rw [List.dropWhile_cons_of_pos ht, ih, Source.operandsFrom_trivia ht]
    · rw [List.dropWhile_cons_of_neg ht]

theorem operandsFrom_eq (bindings : Bindings) {fuel : Nat} {tokens : List Token}
    (hshaped : ∀ t ∈ tokens, Shaped catalog t) (hfuel : tokens.length < fuel)
    (outer : List (List Operand)) :
    operandsFrom bindings fuel outer tokens = .ok (Source.operandsFrom bindings outer tokens) := by
  induction fuel generalizing tokens outer with
  | zero => exact absurd hfuel (Nat.not_lt_zero _)
  | succ fuel ih =>
    rw [← operandsFrom_dropWhile, operandsFrom]
    have hsub := List.dropWhile_sublist Token.isTrivia (l := tokens)
    have hhead := List.head?_dropWhile_not Token.isTrivia tokens
    cases hd : tokens.dropWhile Token.isTrivia with
    | nil => cases outer <;> rfl
    | cons t rest =>
      rw [hd] at hsub hhead
      have htrivia : t.isTrivia = false := hhead
      have hlen := hsub.length_le
      rw [List.length_cons] at hlen
      have hrest : ∀ u ∈ rest, Shaped catalog u := fun u hu =>
        hshaped u (hsub.subset (List.mem_cons_of_mem t hu))
      have hread (outer : List (List Operand)) := ih hrest (by omega) outer
      dsimp only
      by_cases hopen : t.kind = .openParen
      · rw [if_pos hopen, Source.operandsFrom_openParen hopen, hread]
      rw [if_neg hopen]
      by_cases hclose : t.kind = .closeParen
      · rw [if_pos hclose]
        cases outer with
        | nil => rw [Source.operandsFrom_stray hclose]
        | cons items outer =>
          rw [Source.operandsFrom_closeParen hclose]
          exact put_eq hread _ outer
      · have ht : t.isTrivia ≠ true := by simp [htrivia]
        rw [if_neg hclose, Source.operandsFrom_single (Source.isSingle_of_not ht hopen hclose),
          operand_eq bindings (hshaped t (hsub.subset List.mem_cons_self)) htrivia]
        cases t.operand bindings with
        | error kind => rfl
        | ok o => exact put_eq hread o outer

/-- A line of tokens is read without a defect. -/
theorem operands_eq (bindings : Bindings) {tokens : List Token}
    (h : ∀ t ∈ tokens, Shaped catalog t) :
    operands bindings tokens = .ok (Source.operands bindings tokens) :=
  operandsFrom_eq bindings h (Nat.lt_succ_self _) []

end

/-! ### What operands are made of -/

/-- More bytes than any text has. -/
def textLimit : Nat := 2 ^ 63

/-- True of operands whose mnemonics are of a catalog and whose strings are texts. -/
inductive Sound (catalog : Catalog) : Operand → Prop
  | int {value} : Sound catalog (.int value)
  | float {value} : Sound catalog (.float value)
  | string {text} (h : text.utf8ByteSize < textLimit) : Sound catalog (.string text)
  | label {name} : Sound catalog (.label name)
  | directive {name} : Sound catalog (.directive name)
  | instruction {entry} (h : catalog.find? entry.name = some entry) :
    Sound catalog (.instruction entry)
  | register {r} : Sound catalog (.register r)
  | placeholder {name} : Sound catalog (.placeholder name)
  | symbol {name} : Sound catalog (.symbol name)
  | group {items} (h : ∀ o ∈ items, Sound catalog o) : Sound catalog (.group items)

theorem utf8ByteSize_ofList (cs : List Char) : (String.ofList cs).utf8ByteSize = byteSize cs := by
  rw [← Text.length_utf8, Text.utf8, String.toList_ofList]
  induction cs with
  | nil => rfl
  | cons c cs ih =>
    rw [List.flatMap_cons, List.length_append, ih, byteSize_cons, String.length_utf8EncodeChar]

theorem byteSize_le_of_sublist {cs ds : List Char} (h : cs.Sublist ds) :
    byteSize cs ≤ byteSize ds := by
  induction h with
  | slnil => exact Nat.le_refl _
  | cons c h ih =>
    rw [byteSize_cons]
    omega
  | cons_cons c h ih =>
    rw [byteSize_cons, byteSize_cons]
    omega

/-- Every escape stands for one byte. -/
theorem utf8Size_of_escape {c d : Char} (h : Text.Quoted.escape? c = some d) : d.utf8Size = 1 := by
  unfold Text.Quoted.escape? at h
  split at h <;> cases h <;> rfl

theorem byteSize_decode {cs ds : List Char} (h : Text.Quoted.decode cs = .ok ds) :
    byteSize ds ≤ byteSize cs := by
  fun_induction Text.Quoted.decode cs generalizing ds with
  | case1 =>
    cases h
    exact Nat.le_refl _
  | case2 => cases h
  | case3 c rest d he ih =>
    obtain ⟨es, hr, h⟩ := bind_eq_ok_iff.mp h
    cases h
    have hle := ih hr
    have hd := utf8Size_of_escape he
    have hc := c.utf8Size_pos
    simp only [byteSize_cons]
    omega
  | case4 c rest he => cases h
  | case5 c rest h₁ h₂ ih =>
    obtain ⟨es, hr, h⟩ := bind_eq_ok_iff.mp h
    cases h
    have hle := ih hr
    simp only [byteSize_cons]
    omega

section
variable {catalog : Catalog} {bindings : Bindings}

theorem sound_lookup (hb : ∀ b ∈ bindings, Sound catalog b.2) (name : String) :
    Sound catalog ((bindings.lookup name).getD (.placeholder name)) := by
  cases hl : bindings.lookup name with
  | none => exact .placeholder
  | some o =>
    obtain ⟨before, behind, rfl, -⟩ := List.lookup_eq_some_iff.mp hl
    exact hb _ (List.mem_append_right _ List.mem_cons_self)

theorem sound_operand (hb : ∀ b ∈ bindings, Sound catalog b.2) {t : Token} (ht : Shaped catalog t)
    (hsize : byteSize t.text < textLimit) {o : Operand} (h : t.operand bindings = .ok o) :
    Sound catalog o := by
  obtain ⟨kind, text⟩ := t
  cases kind with
  | instruction entry =>
    cases h
    exact .instruction ht
  | placeholder =>
    cases h
    exact sound_lookup hb _
  | string =>
    simp only [Token.operand] at h
    cases hd : Token.decoded ⟨.string, text⟩ with
    | error kind =>
      rw [hd] at h
      cases h
    | ok cs =>
      rw [hd] at h
      cases h
      have hdecode : Text.Quoted.decode (Source.Token.inner ⟨.string, text⟩) = .ok cs := by
        unfold Token.decoded at hd
        cases hq : Text.Quoted.decode (Source.Token.inner ⟨.string, text⟩) with
        | error c =>
          rw [hq] at hd
          cases hd
        | ok ds =>
          rw [hq] at hd
          cases hd
          rfl
      have hinner : byteSize (Source.Token.inner ⟨.string, text⟩) ≤ byteSize text :=
        byteSize_le_of_sublist ((List.dropLast_sublist _).trans (List.tail_sublist text))
      have hcs := byteSize_decode hdecode
      refine .string ?_
      rw [utf8ByteSize_ofList]
      dsimp only at hsize
      omega
  | char =>
    simp only [Token.operand] at h
    split at h <;> cases h
    exact .int
  | int value | float value | register r | label | directive | symbol =>
    cases h
    constructor
  | _ => cases h

/-- The operands of a line are made of its tokens and of what placeholders stand for. -/
theorem all_sound_operands (hb : ∀ b ∈ bindings, Sound catalog b.2) {tokens : List Token}
    (hshaped : ∀ t ∈ tokens, Shaped catalog t)
    (hsize : ∀ t ∈ tokens, byteSize t.text < textLimit) :
    (Source.operands bindings tokens).All (Sound catalog) fun _ => True :=
  Source.all_operandsFrom (fun _ h => .group h) trivial
    (fun t ht _ ho => sound_operand hb (hshaped t ht) (hsize t ht) ho)
    (fun _ _ _ _ => trivial) (List.forall_mem_nil _)

end

end RiscvToolkit.Checked
