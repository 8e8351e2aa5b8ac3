import RiscvToolkit.Proofs.Checked.Basic
import RiscvToolkit.Proofs.Source.Joined

/-! Tokens cut out of a line by byte. Every cut is between two characters, and what is cut out are the tokens of the
line. -/
namespace RiscvToolkit.Checked
open Source (Token TokenKind)

/-! ### Literals -/

/-- Takes off the sign of a literal. -/
def sign (text : List Char) : Except Defect (Bool × List Char) :=
  match text with
  | '-' :: _ => (after 1 text).map (true, ·)
  | '+' :: _ => (after 1 text).map (false, ·)
  | _ => .ok (false, text)

/-- Takes off the prefix of a literal, which tells the radix. -/
def radix (body : List Char) : Except Defect (Nat × List Char) :=
  match (upTo 2 body).toOption with
  | some ['0', 'x'] | some ['0', 'X'] => (after 2 body).map (16, ·)
  | some ['0', 'b'] | some ['0', 'B'] => (after 2 body).map (2, ·)
  | some ['0', 'o'] | some ['0', 'O'] => (after 2 body).map (8, ·)
  | _ => .ok (10, body)

/-- The value of an integer literal, in 128 bits. -/
def literal (text : List Char) : Except Defect (Option Int) := do
  let (negative, body) ← sign text
  let (radix, digits) ← radix body
  match (Numeral.ofDigits? radix digits).filter (· ≤ Numeral.maxLiteral) with
  | none => return none
  | some n => if negative then return some (← signed 128 (-n)) else return some n

/-- What a word is. -/
def identify (catalog : Catalog) (word : List Char) : Except Defect TokenKind := do
  let name := String.ofList word
  match catalog.find? name with
  | some entry => return .instruction entry
  | none =>
    match ← literal word with
    | some value => return .int value
    | none =>
      return if let some value := Ieee.literal? word then .float value
        else if let some register := catalog.register? name then .register register
        else if word.head? = some '%' then .placeholder
        else if word.getLast? = some ':' then .label
        else if word.head? = some '.' then .directive
        else .symbol

/-! ### Cuts -/

/-- The byte behind a quoted literal that has been read up to byte `i`, and whether it is closed. -/
def scanQuoted (quote : Char) (i : Nat) : List Char → Nat × Bool
  | [] => (i, false)
  | ['\\'] => (i + '\\'.utf8Size, false)
  | '\\' :: c :: rest => scanQuoted quote (i + '\\'.utf8Size + c.utf8Size) rest
  | c :: rest =>
    if c = quote then (i + c.utf8Size, true) else scanQuoted quote (i + c.utf8Size) rest

/-- The byte at which the first character that `p` is true of begins, or the end. -/
def find (p : Char → Bool) : List Char → Nat
  | [] => 0
  | c :: rest => if p c then 0 else c.utf8Size + find p rest

/-- Cuts off the first bytes of a line. -/
def take (length : Nat) (kind : TokenKind) (line : List Char) : Except Defect (Token × List Char) :=
  (splitAt length line).map fun (text, rest) => (⟨kind, text⟩, rest)

def quotedKind (quote : Char) (closed : Bool) : TokenKind :=
  match quote, closed with
  | '"', true => .string
  | '"', false => .openString
  | _, true => .char
  | _, false => .openChar

/-- The first token of a line, and the rest of the line. -/
def nextToken (catalog : Catalog) (first : Char) (rest : List Char) :
    Except Defect (Token × List Char) := do
  let line := first :: rest
  if first = '"' ∨ first = '\'' then
    let (length, closed) := scanQuoted first first.utf8Size rest
    take length (quotedKind first closed) line
  else if first = '#' then take (byteSize line) .comment line
  else if first = '(' then take 1 .openParen line
  else if first = ')' then take 1 .closeParen line
  else if Source.isSpace first then take (find (!Source.isSpace ·) line) .space line
  else
    let length := find Source.endsWord line
    let word ← upTo length line
    take length (← identify catalog word) line

/-- Reads tokens up to the end of a line. -/
def tokensUpTo (catalog : Catalog) : Nat → List Char → Except Defect (List Token)
  | _, [] => .ok []
  | 0, _ :: _ => .error .endless
  | fuel + 1, c :: rest => do
    let (token, rest) ← nextToken catalog c rest
    return token :: (← tokensUpTo catalog fuel rest)

def tokenize (catalog : Catalog) (line : List Char) : Except Defect (List Token) :=
  tokensUpTo catalog line.length line

/-! ### Agreement -/

theorem find_eq (p : Char → Bool) (cs : List Char) : find p cs = byteSize (cs.takeWhile (!p ·)) := by
  induction cs with
  | nil => rfl
  | cons c cs ih =>
    rw [find, List.takeWhile_cons]
    by_cases hc : p c = true
    · simp [hc]
    · simp [hc, ih]

theorem take_eq (kind : TokenKind) {length : Nat} {text left line : List Char}
    (hlength : length = byteSize text) (hline : text ++ left = line) :
    take length kind line = .ok (⟨kind, text⟩, left) := by
  rw [hlength, ← hline, take, splitAt_byteSize]
  rfl

theorem after_cons (c : Char) (rest : List Char) : after c.utf8Size (c :: rest) = .ok rest := by
  have h := after_byteSize [c] rest
  rwa [byteSize_cons, byteSize_nil, Nat.add_zero] at h

/-- A sign is one byte. -/
theorem sign_eq (text : List Char) :
    ∃ negative body, sign text = .ok (negative, body) ∧
      Numeral.literal? text = ((Numeral.magnitude? body).filter (· ≤ Numeral.maxLiteral)).map
        fun n => if negative then -(n : Int) else n := by
  rcases text with _ | ⟨c, rest⟩
  · exact ⟨false, [], rfl, rfl⟩
  by_cases hminus : c = '-'
  · subst hminus
    refine ⟨true, rest, ?_, rfl⟩
    rw [sign, show after 1 ('-' :: rest) = .ok rest from after_cons '-' rest]
    rfl
  by_cases hplus : c = '+'
  · subst hplus
    refine ⟨false, rest, ?_, rfl⟩
    rw [sign, show after 1 ('+' :: rest) = .ok rest from after_cons '+' rest]
    rfl
  · refine ⟨false, c :: rest, ?_, ?_⟩
    · unfold sign
      split
      next heq => exact absurd (List.cons.inj heq).1 hminus
      next heq => exact absurd (List.cons.inj heq).1 hplus
      next => rfl
    · unfold Numeral.literal?
      split
      next heq =>
        split at heq
        next h => exact absurd (List.cons.inj h).1 hminus
        next h => exact absurd (List.cons.inj h).1 hplus
        next =>
          cases heq
          rfl

/-- A prefix is two bytes. -/
theorem radix_eq (body : List Char) :
    ∃ r digits, radix body = .ok (r, digits) ∧
      Numeral.magnitude? body = Numeral.ofDigits? r digits := by
  have hprefix {a b : Char} (hsize : byteSize [a, b] = 2) (rest : List Char) :
      (upTo 2 (a :: b :: rest)).toOption = some [a, b] ∧ after 2 (a :: b :: rest) = .ok rest := by
    have hupTo := upTo_byteSize [a, b] rest
    have hafter := after_byteSize [a, b] rest
    rw [hsize] at hupTo hafter
    exact ⟨congrArg Except.toOption hupTo, hafter⟩
  unfold Numeral.magnitude?
  split
  next rest =>
    obtain ⟨hupTo, hafter⟩ := hprefix (a := '0') (b := 'x') rfl rest
    exact ⟨16, rest, by rw [radix, hupTo, hafter]; rfl, rfl⟩
  next rest =>
    obtain ⟨hupTo, hafter⟩ := hprefix (a := '0') (b := 'X') rfl rest
    exact ⟨16, rest, by rw [radix, hupTo, hafter]; rfl, rfl⟩
  next rest =>
    obtain ⟨hupTo, hafter⟩ := hprefix (a := '0') (b := 'b') rfl rest
    exact ⟨2, rest, by rw [radix, hupTo, hafter]; rfl, rfl⟩
  next rest =>
    obtain ⟨hupTo, hafter⟩ := hprefix (a := '0') (b := 'B') rfl rest
    exact ⟨2, rest, by rw [radix, hupTo, hafter]; rfl, rfl⟩
  next rest =>
    obtain ⟨hupTo, hafter⟩ := hprefix (a := '0') (b := 'o') rfl rest
    exact ⟨8, rest, by rw [radix, hupTo, hafter]; rfl, rfl⟩
  next rest =>
    obtain ⟨hupTo, hafter⟩ := hprefix (a := '0') (b := 'O') rfl rest
    exact ⟨8, rest, by rw [radix, hupTo, hafter]; rfl, rfl⟩
  next h₁ h₂ h₃ h₄ h₅ h₆ =>
    refine ⟨10, body, ?_, rfl⟩
    have hcut {a b : Char} (h : (upTo 2 body).toOption = some [a, b]) :
        ∃ rest, body = a :: b :: rest := by
      rw [toOption_eq_some_iff] at h
      unfold upTo at h
      cases hs : splitAt 2 body with
      | error d =>
        rw [hs] at h
        cases h
      | ok p =>
        obtain ⟨before, rest⟩ := p
        rw [hs] at h
        cases h
        exact ⟨rest, eq_append_of_splitAt hs⟩
    unfold radix
    split
    next h => exact absurd (hcut h).choose_spec (h₁ _)
    next h => exact absurd (hcut h).choose_spec (h₂ _)
    next h => exact absurd (hcut h).choose_spec (h₃ _)
    next h => exact absurd (hcut h).choose_spec (h₄ _)
    next h => exact absurd (hcut h).choose_spec (h₅ _)
    next h => exact absurd (hcut h).choose_spec (h₆ _)
    next => rfl

/-- The magnitude of a literal leaves room for a sign. -/
theorem literal_eq (text : List Char) : literal text = .ok (Numeral.literal? text) := by
  obtain ⟨negative, body, hsign, hvalue⟩ := sign_eq text
  obtain ⟨r, digits, hradix, hmagnitude⟩ := radix_eq body
  rw [hvalue, hmagnitude, literal, hsign, ok_bind]
  dsimp only
  rw [hradix, ok_bind]
  dsimp only
  cases hn : (Numeral.ofDigits? r digits).filter (· ≤ Numeral.maxLiteral) with
  | none => rfl
  | some n =>
    have hle : n ≤ Numeral.maxLiteral := by
      simpa using (Option.filter_eq_some_iff.mp hn).2
    have hmax : Numeral.maxLiteral = 2 ^ 127 - 1 := rfl
    cases negative with
    | false => rfl
    | true =>
      have hsigned : signed 128 (-(n : Int)) = .ok (-(n : Int)) :=
        signed_of_mem (by norm_num; omega) (by norm_num; omega)
      dsimp only
      rw [if_pos rfl, hsigned]
      rfl

theorem identify_eq (catalog : Catalog) (word : List Char) :
    identify catalog word = .ok (Source.identify catalog word) := by
  unfold identify Source.identify
  dsimp only
  cases catalog.find? (String.ofList word) with
  | some entry => rfl
  | none =>
    dsimp only
    rw [literal_eq, ok_bind]
    cases Numeral.literal? word with
    | some value => rfl
    | none => rfl

theorem scanQuoted_eq (quote : Char) (i : Nat) (line : List Char) :
    scanQuoted quote i line =
      (i + byteSize (Source.splitQuoted quote line).1, (Source.splitQuoted quote line).2.2) := by
  fun_induction scanQuoted quote i line with
  | case1 => rfl
  | case2 => rfl
  | case3 i c rest ih =>
    rw [ih]
    simp [Source.splitQuoted, Nat.add_assoc]
  | case4 i rest h₁ h₂ =>
    rw [Source.splitQuoted.eq_4 _ _ _ h₁ h₂, if_pos rfl]
    simp
  | case5 i c rest h₁ h₂ hc ih =>
    rw [Source.splitQuoted.eq_4 _ _ _ h₁ h₂, if_neg hc, ih]
    simp [Nat.add_assoc]

theorem take_scanQuoted (quote : Char) (rest : List Char) :
    take (scanQuoted quote quote.utf8Size rest).1
        (quotedKind quote (scanQuoted quote quote.utf8Size rest).2) (quote :: rest) =
      .ok (⟨quotedKind quote (Source.splitQuoted quote rest).2.2,
        quote :: (Source.splitQuoted quote rest).1⟩, (Source.splitQuoted quote rest).2.1) := by
  rw [scanQuoted_eq]
  exact take_eq _ (byteSize_cons ..).symm (congrArg (quote :: ·) (Source.splitQuoted_eq quote rest))

/-- A word is taken up to the character that ends it, and is identified. -/
theorem takeWord_eq (catalog : Catalog) {first : Char} (h : Source.endsWord first = false)
    (rest : List Char) :
    (do
      let word ← upTo (find Source.endsWord (first :: rest)) (first :: rest)
      take (find Source.endsWord (first :: rest)) (← identify catalog word) (first :: rest)) =
      .ok (⟨Source.identify catalog (first :: rest.takeWhile (!Source.endsWord ·)),
        first :: rest.takeWhile (!Source.endsWord ·)⟩, rest.dropWhile (!Source.endsWord ·)) := by
  have hlength : find Source.endsWord (first :: rest) =
      byteSize (first :: rest.takeWhile (!Source.endsWord ·)) := by
    rw [find_eq, List.takeWhile_cons, h]
    rfl
  have hline : (first :: rest.takeWhile (!Source.endsWord ·)) ++
      rest.dropWhile (!Source.endsWord ·) = first :: rest :=
    congrArg (first :: ·) List.takeWhile_append_dropWhile
  have hupTo : upTo (find Source.endsWord (first :: rest)) (first :: rest) =
      .ok (first :: rest.takeWhile (!Source.endsWord ·)) := by
    rw [hlength, ← hline]
    exact upTo_byteSize _ _
  rw [hupTo, ok_bind, identify_eq, ok_bind]
  exact take_eq _ hlength hline

theorem nextToken_eq (catalog : Catalog) (first : Char) (rest : List Char) :
    nextToken catalog first rest = .ok (Source.nextToken catalog first rest) := by
  have hsize {c : Char} (h : c.utf8Size = 1) : 1 = byteSize [c] := by
    rw [byteSize_cons, h]
    rfl
  unfold nextToken Source.nextToken
  by_cases hstring : first = '"'
  · rw [if_pos (.inl hstring), if_pos hstring]
    subst hstring
    refine (take_scanQuoted '"' rest).trans ?_
    rcases Source.splitQuoted '"' rest with ⟨inner, left, closed⟩
    cases closed <;> rfl
  by_cases hchar : first = '\''
  · rw [if_pos (.inr hchar), if_neg hstring, if_pos hchar]
    subst hchar
    refine (take_scanQuoted '\'' rest).trans ?_
    rcases Source.splitQuoted '\'' rest with ⟨inner, left, closed⟩
    cases closed <;> rfl
  rw [if_neg (not_or.mpr ⟨hstring, hchar⟩), if_neg hstring, if_neg hchar]
  by_cases hcomment : first = '#'
  · rw [if_pos hcomment, if_pos hcomment]
    exact take_eq .comment rfl (List.append_nil _)
  rw [if_neg hcomment, if_neg hcomment]
  by_cases hopen : first = '('
  · rw [if_pos hopen, if_pos hopen]
    subst hopen
    exact take_eq .openParen (hsize rfl) rfl
  rw [if_neg hopen, if_neg hopen]
  by_cases hclose : first = ')'
  · rw [if_pos hclose, if_pos hclose]
    subst hclose
    exact take_eq .closeParen (hsize rfl) rfl
  rw [if_neg hclose, if_neg hclose]
  by_cases hspace : Source.isSpace first = true
  · rw [if_pos hspace, if_pos hspace]
    refine take_eq .space ?_ (congrArg (first :: ·) List.takeWhile_append_dropWhile)
    rw [find_eq]
    simp [hspace]
  rw [if_neg hspace, if_neg hspace]
  have hword : Source.endsWord first = false := by
    simp [Source.endsWord, hspace, hopen, hclose, hstring, hchar, hcomment]
  exact takeWord_eq catalog hword rest

theorem tokensUpTo_eq (catalog : Catalog) {fuel : Nat} {line : List Char}
    (h : line.length ≤ fuel) :
    tokensUpTo catalog fuel line = .ok (Source.tokensUpTo catalog fuel line) := by
  induction fuel generalizing line with
  | zero =>
    cases List.length_eq_zero_iff.mp (Nat.le_zero.mp h)
    rfl
  | succ fuel ih =>
    cases line with
    | nil => rfl
    | cons c rest =>
      have hle := Source.length_nextToken_le catalog c rest
      have hrest := ih (hle.trans (Nat.le_of_succ_le_succ h))
      rw [tokensUpTo, nextToken_eq, ok_bind]
      dsimp only
      rw [hrest]
      rfl

/-- Each token takes a character at least, so that a line comes to its end. -/
theorem tokenize_eq (catalog : Catalog) (line : List Char) :
    tokenize catalog line = .ok (Source.tokenize catalog line) :=
  tokensUpTo_eq catalog (Nat.le_refl _)

end RiscvToolkit.Checked
