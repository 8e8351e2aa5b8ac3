/-!
Reading files by path. A `Directory` is known as a whole, and so `Directory.read` is a function: it follows
the parts of a path one by one, and the first that leads nowhere tells why there is no text. Of what lies
above the directory only the null device is known.
-/
namespace RiscvToolkit

/-- Why a path gives no text. -/
inductive Unreadable where
  | missing
  /-- The path goes on behind a file. -/
  | notDirectory
  | isDirectory
  /-- The path or a part of it is too long. -/
  | nameTooLong
  deriving DecidableEq, Repr

def Unreadable.message : Unreadable → String
  | missing => "No such file or directory (os error 2)"
  | notDirectory => "Not a directory (os error 20)"
  | isDirectory => "Is a directory (os error 21)"
  | nameTooLong => "File name too long (os error 36)"

/-- Where a path leads: the names from the directory on, or from the root on after a `/`, or from
somewhere above the directory on after `..`. -/
abbrev Place := List String

/-- The texts of the files in a directory, by their places. -/
structure Directory where
  files : List (Place × String)

namespace Directory

/-- The parts of a path that are no dots and not empty. -/
def parts (path : String) : List String :=
  (path.splitOn "/").filter fun part => part ≠ "" && part ≠ "."

/-- Where a path starts. -/
def start (path : String) : Place :=
  if path.startsWith "/" then ["/"] else []

/-- The null device, which reads as an empty text. -/
def nullDevice : String × String := ("/dev/null", "")

/-- The directory with the given texts. The last text of a path counts. -/
def ofList (files : List (String × String)) : Directory :=
  ⟨(nullDevice :: files).reverse.map fun (path, text) => (start path ++ parts path, text)⟩

def file? (d : Directory) (place : Place) : Option String :=
  d.files.lookup place

/-- Whether something is known to be at a place. -/
def contains (d : Directory) (place : Place) : Bool :=
  d.files.any fun (file, _) => place.isPrefixOf file

/-- The place above. The root lies above itself. -/
def parent : Place → Place
  | [] | [".."] => [".."]
  | ["/"] => ["/"]
  | place => place.dropLast

/-- The most bytes in a name. -/
def nameLimit : Nat := 255

/-- The most bytes in a path. -/
def pathLimit : Nat := 4095

/-- Follows one part of a path. -/
def enter (d : Directory) (place : Place) (part : String) : Except Unreadable Place :=
  if (d.file? place).isSome then .error .notDirectory
  else if part = "" || part = "." then .ok place
  else if part = ".." then .ok (parent place)
  else if nameLimit < part.utf8ByteSize then .error .nameTooLong
  else if d.contains (place ++ [part]) then .ok (place ++ [part])
  else .error .missing

/-- The text that a path leads to. -/
def read (d : Directory) (path : String) : Except Unreadable String := do
  if pathLimit < path.utf8ByteSize then .error .nameTooLong
  let place ← (path.splitOn "/").foldlM d.enter (start path)
  match d.file? place with
  | some text => return text
  | none => .error .isDirectory

end Directory

end RiscvToolkit
