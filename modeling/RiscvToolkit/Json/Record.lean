import RiscvToolkit.Json.Basic

/-! Typed values out of JSON trees. -/
namespace RiscvToolkit.Json

def string? : Json → Option String
  | .string text => text
  | _ => none

/-- A natural number below `bound`. -/
def natBelow? (bound : Nat) : Json → Option Nat
  | .number value => value.filter (· < bound)
  | _ => none

def byte? (value : Json) : Option UInt8 :=
  (value.natBelow? 0x100).map UInt8.ofNat

def word? (value : Json) : Option UInt32 :=
  (value.natBelow? 0x100000000).map UInt32.ofNat

/-- A list whose items are all read by `item?`. -/
def list? {α : Type} (item? : Json → Option α) : Json → Option (List α)
  | .array items => items.mapM item?
  | _ => none

/-- Reads `null` as nothing. -/
def nullable? {α : Type} (value? : Json → Option α) : Json → Option (Option α)
  | .null => some none
  | value => (value? value).map some

/-- One of some names, or an object with one of them as its only key and `null` as the value. -/
def choice? {α : Type} (named? : String → Option α) : Json → Option α
  | .string text => text.bind named?
  | .object [(key, .null)] => key.bind named?
  | _ => none

/-- The values of the fields of a record. A record is an object, which may have other members but no
field twice, or an array that starts with the fields in order and has nothing after them. -/
def fields? (names : List String) : Json → Option (List (Option Json))
  | .array items =>
    if items.length ≤ names.length then
      some (names.zipIdx.map fun (_, i) => items[i]?)
    else none
  | .object members => do
    let members ← members.mapM fun (key, value) => key.map (·, value)
    names.mapM fun name =>
      match members.filter (·.1 == name) with
      | [] => some none
      | [(_, value)] => some (some value)
      | _ => none
  | _ => none

/-- The value of a field that may be left out. -/
def orDefault {α : Type} (default : α) (value? : Json → Option α) : Option Json → Option α
  | none => some default
  | some value => value? value

end RiscvToolkit.Json
