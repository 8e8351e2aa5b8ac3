import RiscvToolkit.Proofs.Except

/-! Computations that can break off. A defect is no error of the text that is assembled: it stands for an arm that must
not be reached, a slice or an index that does not exist, or a number that its type does not hold. -/
namespace RiscvToolkit

/-- Why a computation breaks off. -/
inductive Defect where
  /-- An arm that nothing should reach. -/
  | unreachable
  /-- A slice that is out of range or ends inside of a character. -/
  | slice
  /-- An index past the end. -/
  | index
  /-- A number that its type does not hold. -/
  | overflow
  /-- A loop that runs longer than its input. -/
  | endless
  deriving DecidableEq, Repr

/-- Computations that break off, or end with a value or an error. -/
abbrev Checked (ε : Type) := ExceptT ε (Except Defect)

namespace Checked
variable {ε ε' α β : Type}

/-- Breaks off. -/
def defect (d : Defect) : Checked ε α :=
  ExceptT.lift (.error d)

/-- Ends with a result. -/
def of (r : Except ε α) : Checked ε α :=
  ExceptT.mk (.ok r)

/-- Ends with what becomes of the result of another computation. -/
def mapResult (f : Except ε α → Except ε' β) (x : Checked ε α) : Checked ε' β :=
  ExceptT.mk (x.run.map f)

@[simp] theorem of_ok_bind (a : α) (f : α → Checked ε β) : (of (.ok a) >>= f) = f a := rfl

@[simp] theorem of_error_bind (e : ε) (f : α → Checked ε β) :
    (of (.error e) >>= f) = of (.error e) := rfl

@[simp] theorem pure_eq (a : α) : (pure a : Checked ε α) = of (.ok a) := rfl

@[simp] theorem throw_eq (e : ε) : (throw e : Checked ε α) = of (.error e) := rfl

@[simp] theorem liftM_ok (a : α) : (liftM (Except.ok a : Except Defect α) : Checked ε α) = of (.ok a) := rfl

@[simp] theorem mapResult_of (f : Except ε α → Except ε' β) (r : Except ε α) :
    mapResult f (of r) = of (f r) := rfl

/-- What ends with a result goes on with the value of the result. -/
theorem bind_eq_of {x : Checked ε α} {r : Except ε α} (hx : x = of r) {f : α → Checked ε β}
    {g : α → Except ε β} (hf : ∀ a, r = .ok a → f a = of (g a)) : (x >>= f) = of (r >>= g) := by
  subst hx
  cases r with
  | error e => rfl
  | ok a => exact hf a rfl

/-! ### Texts by their bytes -/

/-- The bytes that characters take. -/
def byteSize (cs : List Char) : Nat :=
  (cs.map Char.utf8Size).sum

@[simp] theorem byteSize_nil : byteSize [] = 0 := rfl

@[simp] theorem byteSize_cons (c : Char) (cs : List Char) :
    byteSize (c :: cs) = c.utf8Size + byteSize cs := by
  simp [byteSize]

@[simp] theorem byteSize_append (cs ds : List Char) :
    byteSize (cs ++ ds) = byteSize cs + byteSize ds := by
  simp [byteSize]

/-- The characters before and after a number of bytes. -/
def splitAt : Nat → List Char → Except Defect (List Char × List Char)
  | 0, cs => .ok ([], cs)
  | _ + 1, [] => .error .slice
  | n + 1, c :: cs =>
    if c.utf8Size ≤ n + 1 then do
      let (before, after) ← splitAt (n + 1 - c.utf8Size) cs
      return (c :: before, after)
    else .error .slice

/-- The slice up to a byte. -/
def upTo (n : Nat) (cs : List Char) : Except Defect (List Char) :=
  (splitAt n cs).map Prod.fst

/-- The slice from a byte on. -/
def after (n : Nat) (cs : List Char) : Except Defect (List Char) :=
  (splitAt n cs).map Prod.snd

theorem splitAt_byteSize (cs ds : List Char) : splitAt (byteSize cs) (cs ++ ds) = .ok (cs, ds) := by
  induction cs with
  | nil => cases ds <;> rfl
  | cons c cs ih =>
    have hpos := c.utf8Size_pos
    obtain ⟨n, hn⟩ : ∃ n, c.utf8Size + byteSize cs = n + 1 :=
      ⟨c.utf8Size + byteSize cs - 1, by omega⟩
    have hfits : c.utf8Size ≤ n + 1 := by omega
    have hrest : n + 1 - c.utf8Size = byteSize cs := by omega
    rw [byteSize_cons, hn, List.cons_append, splitAt, if_pos hfits, hrest, ih]
    rfl

theorem upTo_byteSize (cs ds : List Char) : upTo (byteSize cs) (cs ++ ds) = .ok cs := by
  rw [upTo, splitAt_byteSize]
  rfl

theorem after_byteSize (cs ds : List Char) : after (byteSize cs) (cs ++ ds) = .ok ds := by
  rw [after, splitAt_byteSize]
  rfl

/-- A split is at a boundary between characters. -/
theorem eq_append_of_splitAt {n : Nat} {cs before rest : List Char}
    (h : splitAt n cs = .ok (before, rest)) : cs = before ++ rest := by
  induction cs generalizing n before with
  | nil =>
    cases n with
    | zero =>
      cases h
      rfl
    | succ n => cases h
  | cons c cs ih =>
    cases n with
    | zero =>
      cases h
      rfl
    | succ n =>
      rw [splitAt] at h
      split at h
      · obtain ⟨p, hs, h⟩ := bind_eq_ok_iff.mp h
        cases h
        rw [ih hs]
        rfl
      · cases h

/-! ### Numbers -/

/-- A number without a sign, if `bits` bits hold it. -/
def unsigned (bits n : Nat) : Except Defect Nat :=
  if n < 2 ^ bits then .ok n else .error .overflow

/-- A number with a sign, if `bits` bits hold it. -/
def signed (bits : Nat) (v : Int) : Except Defect Int :=
  if -2 ^ (bits - 1) ≤ v ∧ v < 2 ^ (bits - 1) then .ok v else .error .overflow

/-- A difference, which must not be negative. -/
def minus (m n : Nat) : Except Defect Nat :=
  if n ≤ m then .ok (m - n) else .error .overflow

theorem unsigned_of_lt {bits n : Nat} (h : n < 2 ^ bits) : unsigned bits n = .ok n :=
  if_pos h

theorem signed_of_mem {bits : Nat} {v : Int} (hl : -2 ^ (bits - 1) ≤ v) (hu : v < 2 ^ (bits - 1)) :
    signed bits v = .ok v :=
  if_pos ⟨hl, hu⟩

theorem minus_of_le {m n : Nat} (h : n ≤ m) : minus m n = .ok (m - n) :=
  if_pos h

end Checked

end RiscvToolkit
