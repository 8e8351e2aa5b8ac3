/-!
Lines of a text. A line ends at a line feed, with or without one carriage return before it; a text
that ends in a line feed has no empty last line.
-/
namespace RiscvToolkit.Text

/-- A line with its characters in reverse, the line feed and the return before it taken off. -/
def closeLine : List Char → List Char
  | '\r' :: rest => rest.reverse
  | line => line.reverse

/-- The lines of a text that follows `line`, the characters since the last line feed in reverse. -/
def linesFrom (line : List Char) : List Char → List (List Char)
  | [] => if line.isEmpty then [] else [line.reverse]
  | '\n' :: rest => closeLine line :: linesFrom [] rest
  | c :: rest => linesFrom (c :: line) rest

/-- The lines of a text, without their ends. -/
def lines (text : List Char) : List (List Char) :=
  linesFrom [] text

example : lines "a\r\n\nb\r".toList = ["a".toList, [], "b\r".toList] := by decide
example : lines "a\n".toList = ["a".toList] := by decide

end RiscvToolkit.Text
