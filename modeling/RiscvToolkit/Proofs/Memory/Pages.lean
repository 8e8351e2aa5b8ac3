import Mathlib
import RiscvToolkit.Memory.Pages

/-! Writes to separate places of a byte array commute, and not only in what is read back: the two
orders give the same tree. -/
namespace RiscvToolkit.Pages
variable {depth : Nat}

theorem mod_lt_pageSize (offset : Nat) : offset % 64 < 64 :=
  Nat.mod_lt offset (by decide)

/-- A write of one byte. -/
def setByte (pages : Pages depth) (offset : Nat) (value : UInt8) : Pages depth :=
  pages.setPage (offset / 64)
    ((pages.getPage (offset / 64)).set (offset % 64) value (mod_lt_pageSize offset))

theorem setPage_setPage_self (pages : Pages depth) (p : Nat) (bytes bytes' : Page) :
    (pages.setPage p bytes).setPage p bytes' = pages.setPage p bytes' := by
  induction depth generalizing p with
  | zero => cases pages <;> rfl
  | succ depth ih =>
    cases pages with
    | blank => by_cases hp : p % 2 = 0 <;> simp only [setPage, hp, if_true, if_false, ih]
    | node even odd => by_cases hp : p % 2 = 0 <;> simp only [setPage, hp, if_true, if_false, ih]

theorem setPage_comm (pages : Pages depth) {p q : Nat} (hp : p < pageCount depth)
    (hq : q < pageCount depth) (hpq : p ≠ q) (bytes bytes' : Page) :
    (pages.setPage p bytes).setPage q bytes' = (pages.setPage q bytes').setPage p bytes := by
  induction depth generalizing p q with
  | zero =>
    rw [pageCount] at hp hq
    omega
  | succ depth ih =>
    rw [pageCount] at hp hq
    -- pages on one side of the tree are different pages of that side
    have side : ∀ t : Pages depth, p % 2 = q % 2 →
        (t.setPage (p / 2) bytes).setPage (q / 2) bytes' =
          (t.setPage (q / 2) bytes').setPage (p / 2) bytes := by
      intro t same
      exact ih t (by omega) (by omega) (by omega)
    cases pages with
    | blank =>
      by_cases hp2 : p % 2 = 0 <;> by_cases hq2 : q % 2 = 0 <;>
        simp only [setPage, hp2, hq2, if_true, if_false]
      · rw [side _ (by omega)]
      · rw [side _ (by omega)]
    | node even odd =>
      by_cases hp2 : p % 2 = 0 <;> by_cases hq2 : q % 2 = 0 <;>
        simp only [setPage, hp2, hq2, if_true, if_false]
      · rw [side _ (by omega)]
      · rw [side _ (by omega)]

theorem setByte_comm (pages : Pages depth) {a b : Nat} (ha : a < 64 * pageCount depth)
    (hb : b < 64 * pageCount depth) (hab : a ≠ b) (x y : UInt8) :
    (pages.setByte a x).setByte b y = (pages.setByte b y).setByte a x := by
  have hpa : a / 64 < pageCount depth := by omega
  have hpb : b / 64 < pageCount depth := by omega
  unfold setByte
  rw [getPage_setPage _ hpa hpb, getPage_setPage _ hpb hpa]
  by_cases h : a / 64 = b / 64
  · rw [h, if_pos rfl, if_pos rfl, setPage_setPage_self, setPage_setPage_self,
      Vector.set_comm x y (by omega)]
  · rw [if_neg h, if_neg (Ne.symm h), setPage_comm _ hpa hpb h]

/-- A write, one byte after the other. -/
def setBytes (pages : Pages depth) (offset : Nat) : List UInt8 → Pages depth
  | [] => pages
  | value :: rest => (pages.setByte offset value).setBytes (offset + 1) rest

private theorem writeOn_eq_setBytes (pages : Pages depth) (p i : Nat) (bytes : Page)
    (values : List UInt8) (hp : p < pageCount depth) (hi : i ≤ 64)
    (h : 64 * p + i + values.length ≤ 64 * pageCount depth) :
    pages.writeOn p bytes i values = (pages.setPage p bytes).setBytes (64 * p + i) values := by
  induction values generalizing pages p i bytes with
  | nil => rfl
  | cons value rest ih =>
    rw [List.length_cons] at h
    rw [writeOn, setBytes, setByte]
    split
    next hlt =>
      have hd : (64 * p + i) / 64 = p := by omega
      have hm : (64 * p + i) % 64 = i := by omega
      rw [ih _ _ _ _ hp (by omega) (by omega), hd, getPage_setPage _ hp hp, if_pos rfl,
        setPage_setPage_self]
      simp only [hm, Nat.add_assoc]
    next hge =>
      have hd : (64 * p + i) / 64 = p + 1 := by omega
      have hm : (64 * p + i) % 64 = 0 := by omega
      have hs : 64 * (p + 1) + 1 = 64 * p + i + 1 := by omega
      rw [ih _ _ _ _ (by omega) (by omega) (by omega), hd,
        getPage_setPage _ hp (by omega : p + 1 < pageCount depth), if_neg (by omega), hs]
      simp only [hm]

theorem write_eq_setBytes (pages : Pages depth) (offset : Nat) (values : List UInt8)
    (h : offset + values.length ≤ 64 * pageCount depth) :
    pages.write offset values = pages.setBytes offset values := by
  cases values with
  | nil => rfl
  | cons value rest =>
    rw [List.length_cons] at h
    have hs : 64 * (offset / 64) + (offset % 64 + 1) = offset + 1 := by omega
    rw [write, writeOn, dif_pos (by omega),
      writeOn_eq_setBytes _ _ _ _ _ (by omega) (by omega) (by omega), hs]
    rfl

theorem setBytes_setByte_comm (pages : Pages depth) {a b : Nat} (values : List UInt8)
    (ha : a < 64 * pageCount depth) (hb : b + values.length ≤ 64 * pageCount depth)
    (hab : a < b ∨ b + values.length ≤ a) (value : UInt8) :
    (pages.setByte a value).setBytes b values = (pages.setBytes b values).setByte a value := by
  induction values generalizing pages b with
  | nil => rfl
  | cons x rest ih =>
    rw [List.length_cons] at hb hab
    rw [setBytes, setBytes, setByte_comm pages ha (by omega) (by omega),
      ih _ (by omega) (by omega)]

theorem setBytes_comm (pages : Pages depth) {a b : Nat} (xs ys : List UInt8)
    (ha : a + xs.length ≤ 64 * pageCount depth) (hb : b + ys.length ≤ 64 * pageCount depth)
    (hab : a + xs.length ≤ b ∨ b + ys.length ≤ a) :
    (pages.setBytes a xs).setBytes b ys = (pages.setBytes b ys).setBytes a xs := by
  induction xs generalizing pages a with
  | nil => rfl
  | cons x rest ih =>
    rw [List.length_cons] at ha hab
    rw [setBytes, ih _ (by omega) (by omega), setBytes,
      setBytes_setByte_comm pages ys (by omega) hb (by omega)]

/-- Writes that do not overlap may change places. -/
theorem write_comm (pages : Pages depth) {a b : Nat} (xs ys : List UInt8)
    (ha : a + xs.length ≤ 64 * pageCount depth) (hb : b + ys.length ≤ 64 * pageCount depth)
    (hab : a + xs.length ≤ b ∨ b + ys.length ≤ a) :
    (pages.write a xs).write b ys = (pages.write b ys).write a xs := by
  rw [write_eq_setBytes pages a xs ha, write_eq_setBytes pages b ys hb,
    write_eq_setBytes _ a xs ha, write_eq_setBytes _ b ys hb, setBytes_comm pages xs ys ha hb hab]

theorem read_write_of_disjoint (pages : Pages depth) {a b count : Nat} (values : List UInt8)
    (ha : a + values.length ≤ 64 * pageCount depth) (hb : b + count ≤ 64 * pageCount depth)
    (hab : a + values.length ≤ b ∨ b + count ≤ a) :
    (pages.write a values).read b count = pages.read b count := by
  rw [read_eq, read_eq]
  apply List.map_congr_left
  intro x hx
  rw [List.mem_range'_1] at hx
  rw [get_write _ _ _ ha (by omega), if_neg (by omega)]

theorem read_write_self (pages : Pages depth) (a : Nat) (values : List UInt8)
    (ha : a + values.length ≤ 64 * pageCount depth) :
    (pages.write a values).read a values.length = values := by
  rw [read_eq]
  apply List.ext_getElem (by simp)
  intro i hi hi'
  rw [List.getElem_map, List.getElem_range', get_write _ _ _ ha (by omega), if_pos (by omega)]
  simp [hi']

end RiscvToolkit.Pages
