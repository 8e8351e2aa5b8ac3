import RiscvToolkit.Catalog.Basic
import RiscvToolkit.Ieee.Literal
import RiscvToolkit.Numeral.Literal
import RiscvToolkit.Text.Blank

/-!
Tokens of a source line. Nothing is dropped: spaces, commas and comments are tokens too, and the
texts of the tokens put together are the line.
-/
namespace RiscvToolkit.Source

inductive TokenKind where
  /-- A mnemonic, with its entry in the catalog. -/
  | instruction (entry : Entry)
  | int (value : Int)
  | float (value : Ieee.Double)
  | register (register : Register)
  /-- As in `%name`. -/
  | placeholder
  /-- As in `name:`. -/
  | label
  /-- As in `.name`. -/
  | directive
  /-- Any other word, as a rule the name of a label or a macro. -/
  | symbol
  | string
  | char
  /-- A string without its closing quote. -/
  | openString
  /-- A character literal without its closing quote. -/
  | openChar
  | comment
  /-- A run of white space and commas. -/
  | space
  | openParen
  | closeParen
  deriving DecidableEq, Repr

structure Token where
  kind : TokenKind
  /-- With quotes, and with the mark of a label, a directive or a placeholder. -/
  text : List Char
  deriving DecidableEq, Repr

def isSpace (c : Char) : Bool :=
  Text.isBlank c || c == ','

/-- True of a character that no word goes past. -/
def endsWord (c : Char) : Bool :=
  isSpace c || c == '(' || c == ')' || c == '"' || c == '\'' || c == '#'

/-- What a word is: a mnemonic before a number, a number before a register, a register before what its
first or last character says. -/
def identify (catalog : Catalog) (word : List Char) : TokenKind :=
  let name := String.ofList word
  if let some entry := catalog.find? name then .instruction entry
  else if let some value := Numeral.literal? word then .int value
  else if let some value := Ieee.literal? word then .float value
  else if let some register := catalog.register? name then .register register
  else if word.head? = some '%' then .placeholder
  else if word.getLast? = some ':' then .label
  else if word.head? = some '.' then .directive
  else .symbol

/-- What follows an opening quote up to the closing one, the rest, and whether there was a closing
quote. A backslash takes the next character with it. -/
def splitQuoted (quote : Char) : List Char → List Char × List Char × Bool
  | [] => ([], [], false)
  | ['\\'] => (['\\'], [], false)
  | '\\' :: c :: rest =>
    let (inner, rest, closed) := splitQuoted quote rest
    ('\\' :: c :: inner, rest, closed)
  | c :: rest =>
    if c = quote then ([c], rest, true)
    else
      let (inner, rest, closed) := splitQuoted quote rest
      (c :: inner, rest, closed)

/-- The first token of a line, and the rest of the line. -/
def nextToken (catalog : Catalog) (c : Char) (rest : List Char) : Token × List Char :=
  if c = '"' then
    let (inner, rest, closed) := splitQuoted '"' rest
    (⟨if closed then .string else .openString, c :: inner⟩, rest)
  else if c = '\'' then
    let (inner, rest, closed) := splitQuoted '\'' rest
    (⟨if closed then .char else .openChar, c :: inner⟩, rest)
  else if c = '#' then (⟨.comment, c :: rest⟩, [])
  else if c = '(' then (⟨.openParen, [c]⟩, rest)
  else if c = ')' then (⟨.closeParen, [c]⟩, rest)
  else if isSpace c then (⟨.space, c :: rest.takeWhile isSpace⟩, rest.dropWhile isSpace)
  else
    let word := c :: rest.takeWhile (!endsWord ·)
    (⟨identify catalog word, word⟩, rest.dropWhile (!endsWord ·))

/-- The first tokens of a line, at most `fuel` of them. -/
def tokensUpTo (catalog : Catalog) : Nat → List Char → List Token
  | _, [] => []
  | 0, _ => []
  | fuel + 1, c :: rest =>
    let (token, rest) := nextToken catalog c rest
    token :: tokensUpTo catalog fuel rest

/-- The tokens of a line. -/
def tokenize (catalog : Catalog) (line : List Char) : List Token :=
  tokensUpTo catalog line.length line

/-- True of tokens that separate operands. -/
def Token.isTrivia (t : Token) : Bool :=
  match t.kind with
  | .space | .comment => true
  | _ => false

/-- The characters between the quotes of a literal. -/
def Token.inner (t : Token) : List Char :=
  t.text.tail.dropLast

end RiscvToolkit.Source
