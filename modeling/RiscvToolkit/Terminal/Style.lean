/-! Output for a terminal: pieces for its two channels, and coloured text. -/
namespace RiscvToolkit.Terminal

/-- Text for one of the two channels. -/
inductive Piece where
  | out (text : String)
  | err (text : String)
  deriving DecidableEq, Repr

namespace Piece

def out? : Piece → Option String
  | out text => some text
  | err _ => none

def err? : Piece → Option String
  | out _ => none
  | err text => some text

/-- A line on the output channel. -/
def line (text : String) : Piece := out (text ++ "\n")

/-- A line on the error channel. -/
def errLine (text : String) : Piece := err (text ++ "\n")

end Piece

inductive Colour where
  | red | green | yellow | blue | magenta | cyan
  deriving DecidableEq, Repr

/-- The number of a colour in the palette of 256. -/
def Colour.number : Colour → Nat
  | red => 9
  | green => 10
  | yellow => 11
  | blue => 12
  | magenta => 13
  | cyan => 14

/-- Sets the foreground for a text, and takes it back after it. -/
def coloured (colour : Colour) (text : String) : String :=
  "\x1b[38;5;" ++ toString colour.number ++ "m" ++ text ++ "\x1b[39m"

theorem head?_coloured (colour : Colour) (text : String) :
    (coloured colour text).toList.head? = some '\x1b' := by
  simp [coloured, String.toList_append]

example : coloured .red "x" = "\x1b[38;5;9mx\x1b[39m" := by decide +kernel

end RiscvToolkit.Terminal
