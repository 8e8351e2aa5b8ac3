import RiscvToolkit.Numeral.Digits

/-!
JSON texts, read into a tree. A numeral that is no plain natural number keeps no value, and a string
with an unpaired surrogate has no text.
-/
namespace RiscvToolkit

inductive Json where
  | null
  | bool (b : Bool)
  /-- The value if the numeral has no sign, point or exponent. -/
  | number (value : Option Nat)
  | string (text : Option String)
  | array (items : List Json)
  | object (members : List (Option String × Json))

namespace Json

/-- The text of a list of code points and UTF-16 units, or nothing if a surrogate stands alone. -/
def ofUnits? : List Nat → Option (List Char)
  | [] => some []
  | [n] => if n.isValidChar then some [Char.ofNat n] else none
  | hi :: lo :: rest =>
    if 0xd800 ≤ hi ∧ hi < 0xdc00 ∧ 0xdc00 ≤ lo ∧ lo < 0xe000 then
      (ofUnits? rest).map (Char.ofNat (0x10000 + (hi - 0xd800) * 0x400 + (lo - 0xdc00)) :: ·)
    else if hi.isValidChar then (ofUnits? (lo :: rest)).map (Char.ofNat hi :: ·)
    else none

/-- The character of an escape other than `\u`. -/
def plainEscape? : Char → Option Nat
  | '"' => some 0x22
  | '\\' => some 0x5c
  | '/' => some 0x2f
  | 'b' => some 8
  | 'f' => some 12
  | 'n' => some 10
  | 'r' => some 13
  | 't' => some 9
  | _ => none

/-- The units of a string after its opening quote, and what follows it. -/
def stringUnits? : List Char → Option (List Nat × List Char)
  | [] => none
  | '"' :: rest => some ([], rest)
  | '\\' :: 'u' :: a :: b :: c :: d :: rest => do
    let unit ← Numeral.ofDigits? 16 [a, b, c, d]
    let (units, rest) ← stringUnits? rest
    pure (unit :: units, rest)
  | '\\' :: c :: rest => do
    let unit ← plainEscape? c
    let (units, rest) ← stringUnits? rest
    pure (unit :: units, rest)
  | c :: rest => do
    if c.toNat < 0x20 then none
    let (units, rest) ← stringUnits? rest
    pure (c.toNat :: units, rest)

def quoted? (text : List Char) : Option (Option String × List Char) :=
  (stringUnits? text).map fun (units, rest) => ((ofUnits? units).map String.ofList, rest)

/-- One or more digits, and what follows them. -/
def digits? (text : List Char) : Option (List Char × List Char) :=
  let digits := text.takeWhile Char.isDigit
  if digits.isEmpty then none else some (digits, text.dropWhile Char.isDigit)

/-- Skips the fraction and the exponent of a numeral; tells whether there was one. -/
def fraction? (text : List Char) : Option (Bool × List Char) := do
  let (point, rest) ←
    match text with
    | '.' :: rest => (digits? rest).map fun (_, rest) => (true, rest)
    | rest => some (false, rest)
  let exponent (rest : List Char) : Option (Bool × List Char) :=
    match rest with
    | '+' :: rest | '-' :: rest => (digits? rest).map fun (_, rest) => (true, rest)
    | rest => (digits? rest).map fun (_, rest) => (true, rest)
  match rest with
  | 'e' :: rest | 'E' :: rest => exponent rest
  | rest => some (point, rest)

def number? (text : List Char) : Option (Option Nat × List Char) := do
  let (negative, rest) :=
    match text with
    | '-' :: rest => (true, rest)
    | rest => (false, rest)
  let (whole, rest) ←
    match rest with
    | '0' :: rest => some (['0'], rest)
    | rest => digits? rest
  let (fractional, rest) ← fraction? rest
  pure (if negative || fractional then none else Numeral.ofDigits? 10 whole, rest)

def isSpace (c : Char) : Bool :=
  c = ' ' || c = '\n' || c = '\t' || c = '\r'

def skipSpace (text : List Char) : List Char :=
  text.dropWhile isSpace

mutual

/-- A value after optional white space, and what follows it. On a well-formed text the calls of the
three readers never nest deeper than the text is long, so its length is fuel enough. -/
def value? : Nat → List Char → Option (Json × List Char)
  | 0, _ => none
  | fuel + 1, text =>
    match skipSpace text with
    | 'n' :: 'u' :: 'l' :: 'l' :: rest => some (.null, rest)
    | 't' :: 'r' :: 'u' :: 'e' :: rest => some (.bool true, rest)
    | 'f' :: 'a' :: 'l' :: 's' :: 'e' :: rest => some (.bool false, rest)
    | '"' :: rest => (quoted? rest).map fun (s, rest) => (.string s, rest)
    | '[' :: rest =>
      match skipSpace rest with
      | ']' :: rest => some (.array [], rest)
      | rest => (items? fuel rest).map fun (items, rest) => (.array items, rest)
    | '\x7b' :: rest =>
      match skipSpace rest with
      | '\x7d' :: rest => some (.object [], rest)
      | rest => (members? fuel rest).map fun (members, rest) => (.object members, rest)
    | rest => (number? rest).map fun (n, rest) => (.number n, rest)

/-- The items of an array up to its end. -/
def items? : Nat → List Char → Option (List Json × List Char)
  | 0, _ => none
  | fuel + 1, text => do
    let (item, rest) ← value? fuel text
    match skipSpace rest with
    | ']' :: rest => pure ([item], rest)
    | ',' :: rest =>
      let (items, rest) ← items? fuel rest
      pure (item :: items, rest)
    | _ => none

/-- The members of an object up to its end. -/
def members? : Nat → List Char → Option (List (Option String × Json) × List Char)
  | 0, _ => none
  | fuel + 1, text => do
    let '"' :: rest := skipSpace text | none
    let (key, rest) ← quoted? rest
    let ':' :: rest := skipSpace rest | none
    let (value, rest) ← value? fuel rest
    match skipSpace rest with
    | '\x7d' :: rest => pure ([(key, value)], rest)
    | ',' :: rest =>
      let (members, rest) ← members? fuel rest
      pure ((key, value) :: members, rest)
    | _ => none

end

/-- Reads a text that holds one value and nothing else but white space. -/
def parse? (text : String) : Option Json := do
  let chars := text.toList
  let (value, rest) ← value? (chars.length + 1) chars
  if (skipSpace rest).isEmpty then some value else none

end Json

end RiscvToolkit
