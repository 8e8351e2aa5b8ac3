import RiscvToolkit.Text.Grapheme.Class

/-!
Grapheme clusters: the pieces of a text that are one character to its reader. `clusters` cuts a text into
its extended clusters; put together again they are the text, and none is empty.
-/
namespace RiscvToolkit.Text.Grapheme

namespace BreakClass

def isControl : BreakClass → Bool
  | .carriageReturn | .lineFeed | .control => true
  | _ => false

/-- True of the classes that go into the cluster before them. -/
def isExtender : BreakClass → Bool
  | .extender | .linker | .nonJoiner | .joiner => true
  | _ => false

/-- Whether two classes of Hangul go into one syllable. -/
def joinsSyllable : BreakClass → BreakClass → Bool
  | .leadingJamo, .leadingJamo | .leadingJamo, .vowelJamo | .leadingJamo, .openSyllable
  | .leadingJamo, .closedSyllable => true
  | .openSyllable, .vowelJamo | .openSyllable, .trailingJamo => true
  | .vowelJamo, .vowelJamo | .vowelJamo, .trailingJamo => true
  | .closedSyllable, .trailingJamo | .trailingJamo, .trailingJamo => true
  | _, _ => false

end BreakClass

/-- A consonant with a linker behind it, where other extenders but the non-joiner may stand as well. -/
def endsLinked (before : List BreakClass) : Bool :=
  let isLinking (k : BreakClass) : Bool := k.isExtender && k ≠ .nonJoiner
  (before.takeWhile isLinking).contains .linker &&
    (before.dropWhile isLinking).head? = some .consonant

/-- A pictograph, its extenders and a joiner. -/
def endsJoined : List BreakClass → Bool
  | .joiner :: before =>
    (before.dropWhile fun k => k.isExtender && k ≠ .joiner).head? = some .pictograph
  | _ => false

/-- Half of a flag without the other half. -/
def endsInHalfFlag (before : List BreakClass) : Bool :=
  (before.takeWhile (· = .regional)).length % 2 = 1

/-- Whether a character goes into the cluster before it, given the classes of that cluster, the last one
first. -/
def joins (before : List BreakClass) (next : BreakClass) : Bool :=
  match before with
  | [] => false
  | last :: _ =>
    if last = .carriageReturn then next = .lineFeed
    else if last.isControl || next.isControl then false
    else if next.isExtender || next = .spacingMark || last = .prepended then true
    else
      match next with
      | .consonant => endsLinked before
      | .pictograph => endsJoined before
      | .regional => endsInHalfFlag before
      | _ => last.joinsSyllable next

/-- The clusters of a text that follows an open cluster, given with its classes, both last first. -/
def clustersFrom (cluster : List Char) (classes : List BreakClass) : List Char → List (List Char)
  | [] => [cluster.reverse]
  | c :: rest =>
    let next := BreakClass.ofChar c
    if joins classes next then clustersFrom (c :: cluster) (next :: classes) rest
    else cluster.reverse :: clustersFrom [c] [next] rest

/-- The clusters of a text. -/
def clusters : List Char → List (List Char)
  | [] => []
  | c :: rest => clustersFrom [c] [.ofChar c] rest

theorem flatten_clustersFrom (cluster : List Char) (classes : List BreakClass) (text : List Char) :
    (clustersFrom cluster classes text).flatten = cluster.reverse ++ text := by
  induction text generalizing cluster classes with
  | nil => simp [clustersFrom]
  | cons c rest ih =>
    unfold clustersFrom
    dsimp only
    split <;> simp [ih]

@[simp]
theorem flatten_clusters (text : List Char) : (clusters text).flatten = text := by
  cases text with
  | nil => rfl
  | cons c rest => exact flatten_clustersFrom [c] _ rest

theorem nil_notMem_clustersFrom {cluster : List Char} (hc : cluster ≠ [])
    (classes : List BreakClass) (text : List Char) :
    [] ∉ clustersFrom cluster classes text := by
  induction text generalizing cluster classes with
  | nil => simpa [clustersFrom] using hc.symm
  | cons c rest ih =>
    unfold clustersFrom
    dsimp only
    split
    · exact ih (List.cons_ne_nil _ _) _
    · simp [ih (List.cons_ne_nil c []), hc]

theorem nil_notMem_clusters (text : List Char) : [] ∉ clusters text := by
  cases text with
  | nil => exact List.not_mem_nil
  | cons c rest => exact nil_notMem_clustersFrom (List.cons_ne_nil c []) _ rest

example : clusters "e\u0301\r\n".toList = ["e\u0301".toList, "\r\n".toList] := by decide +kernel

end RiscvToolkit.Text.Grapheme
