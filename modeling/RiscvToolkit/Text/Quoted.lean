import RiscvToolkit.Text.Escaped
import RiscvToolkit.Text.Hex

/-!
Quoted text. `decode` reads the escapes of a literal in a source line; `quote` writes a text between
double quotes for a message. The two know different escapes.
-/
namespace RiscvToolkit.Text.Quoted

/-- The character that stands for itself, or for another, after a backslash. -/
def escape? : Char → Option Char
  | 'n' => some '\n'
  | 't' => some '\t'
  | 'r' => some '\r'
  | '0' => some '\x00'
  | '\\' => some '\\'
  | '\'' => some '\''
  | '"' => some '"'
  | _ => none

/-- The text that the inside of a literal stands for, or the first character that is no escape. A
backslash at the end is its own wrong escape. -/
def decode : List Char → Except Char (List Char)
  | [] => .ok []
  | ['\\'] => .error '\\'
  | '\\' :: c :: rest =>
    match escape? c with
    | some d => (decode rest).map (d :: ·)
    | none => .error c
  | c :: rest => (decode rest).map (c :: ·)

/-- How one character stands in a quoted text. -/
def quoteChar (c : Char) : List Char :=
  match c with
  | '\t' => ['\\', 't']
  | '\r' => ['\\', 'r']
  | '\n' => ['\\', 'n']
  | '\x00' => ['\\', '0']
  | '"' => ['\\', '"']
  | '\\' => ['\\', '\\']
  | c => if isEscaped c then ['\\', 'u', '\x7b'] ++ (hexDigits c.toNat).toList ++ ['\x7d'] else [c]

/-- A text between double quotes, for a message. -/
def quote (s : String) : String :=
  String.ofList ('"' :: s.toList.flatMap quoteChar ++ ['"'])

example : (decode "a\\n\\\"".toList).toOption = some "a\n\"".toList := by decide
example : quote "a\t'" = "\"a\\t'\"" := by decide +kernel

end RiscvToolkit.Text.Quoted
