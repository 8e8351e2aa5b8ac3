/-! The bytes of a text. -/
namespace RiscvToolkit.Text

/-- The UTF-8 bytes of a text. -/
def utf8 (s : String) : List UInt8 :=
  s.toList.flatMap String.utf8EncodeChar

end RiscvToolkit.Text
