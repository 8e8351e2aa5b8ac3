import RiscvToolkit.Text.Grapheme.Basic

/-!
Backspaces in a line. A backspace takes away the cluster before it, and does nothing at the start of the
line; `applyBackspaces` gives what remains, all of the line if it has no backspace.
-/
namespace RiscvToolkit.Terminal
open Text.Grapheme

/-- A line as far as it is typed. -/
structure TypedLine where
  /-- The characters that remain, the last one first. -/
  text : List Char
  /-- The number of bytes to take away for each cluster that remains, the last one first. -/
  sizes : List UInt8

/-- A text, the last character first, without so many bytes at its end. -/
def eraseBytes : Nat → List Char → List Char
  | _, [] => []
  | count, c :: before =>
    if count = 0 then c :: before else eraseBytes (count - c.utf8Size) before

namespace TypedLine

/-- The line after one more cluster. Sizes are kept in a byte each, so a cluster of 256 bytes or more is
taken away in part only. -/
def push (line : TypedLine) (cluster : List Char) : TypedLine :=
  if cluster = ['\x08'] then
    match line.sizes with
    | [] => line
    | size :: sizes => ⟨eraseBytes size.toNat line.text, sizes⟩
  else
    let size := (String.ofList cluster).utf8ByteSize
    ⟨cluster.reverse ++ line.text, UInt8.ofNat size :: line.sizes⟩

theorem foldl_push_text {clusters : List (List Char)} (h : ['\x08'] ∉ clusters)
    (line : TypedLine) :
    (clusters.foldl push line).text = clusters.flatten.reverse ++ line.text := by
  induction clusters generalizing line with
  | nil => rfl
  | cons cluster rest ih =>
    rw [List.mem_cons, not_or] at h
    rw [List.foldl_cons, ih h.2]
    simp [push, Ne.symm h.1]

end TypedLine

/-- What remains of a line after its backspaces. -/
def applyBackspaces (line : List Char) : List Char :=
  ((clusters line).foldl TypedLine.push ⟨[], []⟩).text.reverse

theorem applyBackspaces_of_notMem {line : List Char} (h : '\x08' ∉ line) :
    applyBackspaces line = line := by
  have hc : ['\x08'] ∉ clusters line := fun hm =>
    h (by
      rw [← flatten_clusters line]
      exact List.mem_flatten_of_mem hm (List.mem_singleton_self _))
  simp [applyBackspaces, TypedLine.foldl_push_text hc]

example : applyBackspaces "\x08xe\u0301\x08y".toList = "xy".toList := by decide +kernel

end RiscvToolkit.Terminal
