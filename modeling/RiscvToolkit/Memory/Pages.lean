/-!
Byte arrays that start out zero, as binary trees of pages. A write copies one path of the tree for each
page that it touches, so two versions share all that did not change. The least bit of a page number
chooses the subtree.
-/
namespace RiscvToolkit

/-- The bytes of one page. -/
abbrev Page := Vector UInt8 64

def Page.zero : Page := Vector.replicate 64 0

/-- A tree of a depth; a blank subtree holds zeros. -/
inductive Pages : Nat → Type where
  | blank {depth : Nat} : Pages depth
  | page (bytes : Page) : Pages 0
  | node {depth : Nat} (even odd : Pages depth) : Pages (depth + 1)

namespace Pages

/-- The number of pages in a tree. -/
def pageCount : Nat → Nat
  | 0 => 1
  | depth + 1 => 2 * pageCount depth

def getPage : {depth : Nat} → Pages depth → Nat → Page
  | _, blank, _ => Page.zero
  | _, page bytes, _ => bytes
  | _, node even odd, p => if p % 2 = 0 then even.getPage (p / 2) else odd.getPage (p / 2)

def setPage : {depth : Nat} → Pages depth → Nat → Page → Pages depth
  | 0, _, _, bytes => page bytes
  | _ + 1, blank, p, bytes =>
    if p % 2 = 0 then node (setPage blank (p / 2) bytes) blank
    else node blank (setPage blank (p / 2) bytes)
  | _ + 1, node even odd, p, bytes =>
    if p % 2 = 0 then node (setPage even (p / 2) bytes) odd
    else node even (setPage odd (p / 2) bytes)

/-- The byte at an offset. -/
def get {depth : Nat} (pages : Pages depth) (offset : Nat) : UInt8 :=
  (pages.getPage (offset / 64))[offset % 64]

/-- Puts `count` bytes in front of `after`: those that end before byte `i` of page `p`, which is
`bytes`. -/
def readBack {depth : Nat} (pages : Pages depth) (p : Nat) (bytes : Page) (i : Nat)
    (after : List UInt8) : Nat → List UInt8
  | 0 => after
  | count + 1 =>
    if h : 0 < i ∧ i ≤ 64 then
      pages.readBack p bytes (i - 1) (bytes[i - 1] :: after) count
    else
      let bytes := pages.getPage (p - 1)
      pages.readBack (p - 1) bytes 63 (bytes[63] :: after) count

/-- The bytes at `count` offsets from `offset` on. -/
def read {depth : Nat} (pages : Pages depth) (offset count : Nat) : List UInt8 :=
  let stop := offset + count
  pages.readBack (stop / 64) (pages.getPage (stop / 64)) (stop % 64) [] count

/-- Goes on with a write at byte `i` of page `p`, which is to be `bytes`. -/
def writeOn {depth : Nat} (pages : Pages depth) (p : Nat) (bytes : Page) (i : Nat) :
    List UInt8 → Pages depth
  | [] => pages.setPage p bytes
  | value :: rest =>
    if h : i < 64 then pages.writeOn p (bytes.set i value) (i + 1) rest
    else
      let next := (pages.getPage (p + 1)).set 0 value
      (pages.setPage p bytes).writeOn (p + 1) next 1 rest

/-- Writes bytes from `offset` on. -/
def write {depth : Nat} (pages : Pages depth) (offset : Nat) : List UInt8 → Pages depth
  | [] => pages
  | value :: rest =>
    pages.writeOn (offset / 64) (pages.getPage (offset / 64)) (offset % 64) (value :: rest)

/-- True if every byte is zero. -/
def isZero : {depth : Nat} → Pages depth → Bool
  | _, blank => true
  | _, page bytes => bytes.all (· == 0)
  | _, node even odd => even.isZero && odd.isZero

/-- True if the two hold the same bytes, whatever the trees. -/
def agree : {depth : Nat} → Pages depth → Pages depth → Bool
  | _, blank, other => other.isZero
  | _, pages, blank => pages.isZero
  | _, page a, page b => a == b
  | _, node e o, node e' o' => e.agree e' && o.agree o'

@[simp] theorem getPage_blank {depth : Nat} (p : Nat) :
    (blank : Pages depth).getPage p = Page.zero := by
  cases depth <;> rfl

theorem getPage_setPage {depth : Nat} (pages : Pages depth) {p q : Nat} (hp : p < pageCount depth)
    (hq : q < pageCount depth) (bytes : Page) :
    (pages.setPage p bytes).getPage q = if p = q then bytes else pages.getPage q := by
  induction depth generalizing p q with
  | zero =>
    have hp : p = 0 := Nat.lt_one_iff.mp hp
    have hq : q = 0 := Nat.lt_one_iff.mp hq
    rw [if_pos (hp.trans hq.symm)]
    cases pages <;> rfl
  | succ depth ih =>
    rw [pageCount] at hp hq
    have half : ∀ side : Pages depth, p % 2 = q % 2 →
        (side.setPage (p / 2) bytes).getPage (q / 2) =
          if p = q then bytes else side.getPage (q / 2) := by
      intro side same
      rw [ih side (by omega) (by omega)]
      by_cases h : p = q
      · rw [if_pos h, if_pos (by rw [h])]
      · rw [if_neg h, if_neg (by omega)]
    cases pages with
    | blank =>
      by_cases hp2 : p % 2 = 0 <;> by_cases hq2 : q % 2 = 0
      · simp only [setPage, getPage, hp2, hq2, if_true, half]
      · simp only [setPage, getPage, hp2, hq2, if_true, if_false]
        rw [if_neg (by omega)]
      · simp only [setPage, getPage, hp2, hq2, if_true, if_false]
        rw [if_neg (by omega)]
      · simp only [setPage, getPage, hp2, hq2, if_false]
        rw [half _ (by omega)]
        rfl
    | node even odd =>
      by_cases hp2 : p % 2 = 0 <;> by_cases hq2 : q % 2 = 0
      · simp only [setPage, getPage, hp2, hq2, if_true, half]
      · simp only [setPage, getPage, hp2, hq2, if_true, if_false]
        rw [if_neg (by omega)]
      · simp only [setPage, getPage, hp2, hq2, if_true, if_false]
        rw [if_neg (by omega)]
      · simp only [setPage, getPage, hp2, hq2, if_false]
        rw [half _ (by omega)]

@[simp] theorem get_blank {depth : Nat} (offset : Nat) : (blank : Pages depth).get offset = 0 := by
  simp [get, Page.zero]

theorem get_setPage {depth : Nat} (pages : Pages depth) {p a : Nat} (hp : p < pageCount depth)
    (ha : a < 64 * pageCount depth) (bytes : Page) :
    (pages.setPage p bytes).get a = if p = a / 64 then bytes[a % 64] else pages.get a := by
  rw [get, getPage_setPage pages hp (by omega)]
  split <;> rfl

theorem getElem_getPage {depth : Nat} (pages : Pages depth) {p i : Nat} (hi : i < 64) :
    (pages.getPage p)[i] = pages.get (64 * p + i) := by
  have hp : (64 * p + i) / 64 = p := by omega
  have hm : (64 * p + i) % 64 = i := by omega
  simp only [get, hp, hm]

theorem readBack_eq {depth : Nat} (pages : Pages depth) (p i : Nat) (hi : i < 64)
    (after : List UInt8) (count : Nat) (h : count ≤ 64 * p + i) :
    pages.readBack p (pages.getPage p) i after count =
      (List.range' (64 * p + i - count) count).map pages.get ++ after := by
  induction count generalizing p i after with
  | zero => rfl
  | succ count ih =>
    have start : 64 * p + i - (count + 1) + count = 64 * p + i - 1 := by omega
    rw [List.range'_1_concat, List.map_append, List.append_assoc, start, readBack]
    split
    next hi =>
      have last : 64 * p + i - 1 = 64 * p + (i - 1) := by omega
      have first : 64 * p + i - (count + 1) = 64 * p + (i - 1) - count := by omega
      rw [ih _ _ (by omega) _ (by omega), getElem_getPage _ (by omega), last, first]
      rfl
    next hi =>
      have last : 64 * p + i - 1 = 64 * (p - 1) + 63 := by omega
      have first : 64 * p + i - (count + 1) = 64 * (p - 1) + 63 - count := by omega
      rw [ih _ _ (by omega) _ (by omega), getElem_getPage _ (by omega), last, first]
      rfl

theorem read_eq {depth : Nat} (pages : Pages depth) (offset count : Nat) :
    pages.read offset count = (List.range' offset count).map pages.get := by
  have start : 64 * ((offset + count) / 64) + (offset + count) % 64 - count = offset := by omega
  rw [read, readBack_eq pages _ _ (by omega) _ _ (by omega), List.append_nil, start]

theorem get_setPage_getPage {depth : Nat} (pages : Pages depth) {p a : Nat}
    (hp : p < pageCount depth) (ha : a < 64 * pageCount depth) :
    (pages.setPage p (pages.getPage p)).get a = pages.get a := by
  rw [get_setPage pages hp ha]
  split
  next h => rw [get, h]
  next => rfl

theorem get_setPage_set {depth : Nat} (pages : Pages depth) {p i a : Nat}
    (hp : p < pageCount depth) (hi : i < 64) (ha : a < 64 * pageCount depth) (bytes : Page)
    (value : UInt8) :
    (pages.setPage p (bytes.set i value)).get a =
      if a = 64 * p + i then value else (pages.setPage p bytes).get a := by
  rw [get_setPage pages hp ha, get_setPage pages hp ha, Vector.getElem_set]
  by_cases h : a = 64 * p + i
  · rw [if_pos h, if_pos (by omega), if_pos (by omega)]
  · rw [if_neg h]
    split
    next hq => rw [if_neg (by omega)]
    next => rfl

/-- The byte at `a` once a write that has come to byte `i` of page `p` is over. -/
theorem get_writeOn {depth : Nat} (pages : Pages depth) (p i : Nat) (bytes : Page)
    (values : List UInt8) (hp : p < pageCount depth) (hi : i ≤ 64)
    (h : 64 * p + i + values.length ≤ 64 * pageCount depth) {a : Nat}
    (ha : a < 64 * pageCount depth) :
    (pages.writeOn p bytes i values).get a =
      if 64 * p + i ≤ a ∧ a < 64 * p + i + values.length then values.getD (a - (64 * p + i)) 0
      else (pages.setPage p bytes).get a := by
  induction values generalizing pages p i bytes with
  | nil =>
    have none : ¬(64 * p + i ≤ a ∧ a < 64 * p + i + ([] : List UInt8).length) := by
      rw [List.length_nil]
      omega
    rw [writeOn, if_neg none]
  | cons value rest ih =>
    rw [List.length_cons] at h ⊢
    -- after the first byte, which is `value` at `64 * p + i`
    have step : ∀ q j (out : UInt8), 64 * q + j = 64 * p + i + 1 →
        (if 64 * q + j ≤ a ∧ a < 64 * q + j + rest.length then rest.getD (a - (64 * q + j)) 0
          else if a = 64 * p + i then value else out) =
        if 64 * p + i ≤ a ∧ a < 64 * p + i + (rest.length + 1) then
          (value :: rest).getD (a - (64 * p + i)) 0 else out := by
      intro q j out hq
      rcases Nat.lt_trichotomy a (64 * p + i) with hlt | heq | hgt
      · rw [if_neg (by omega), if_neg (by omega), if_neg (by omega)]
      · rw [if_neg (by omega), if_pos heq, if_pos (by omega), heq, Nat.sub_self]
        rfl
      · have tail : a - (64 * p + i) = a - (64 * q + j) + 1 := by omega
        rw [tail, List.getD_cons_succ, if_neg (by omega : ¬a = 64 * p + i)]
        by_cases inside : a < 64 * p + i + (rest.length + 1)
        · rw [if_pos (by omega), if_pos (by omega)]
        · rw [if_neg (by omega), if_neg (by omega)]
    rw [writeOn]
    split
    next hi =>
      rw [ih _ _ _ _ hp (by omega) (by omega), get_setPage_set _ hp hi ha, step _ _ _ (by omega)]
    next hi =>
      have hp' : p + 1 < pageCount depth := by omega
      have same : (pages.setPage p bytes).getPage (p + 1) = pages.getPage (p + 1) := by
        rw [getPage_setPage _ hp hp', if_neg (by omega)]
      have here : 64 * (p + 1) + 0 = 64 * p + i := by omega
      rw [ih _ _ _ _ hp' (by omega) (by omega), get_setPage_set _ hp' (by omega) ha, ← same,
        get_setPage_getPage _ hp' ha, here, step _ _ _ (by omega)]

theorem get_write {depth : Nat} (pages : Pages depth) (offset : Nat) (values : List UInt8)
    (h : offset + values.length ≤ 64 * pageCount depth) {a : Nat}
    (ha : a < 64 * pageCount depth) :
    (pages.write offset values).get a =
      if offset ≤ a ∧ a < offset + values.length then values.getD (a - offset) 0
      else pages.get a := by
  cases values with
  | nil =>
    have none : ¬(offset ≤ a ∧ a < offset + ([] : List UInt8).length) := by
      rw [List.length_nil]
      omega
    rw [write, if_neg none]
  | cons value rest =>
    rw [List.length_cons] at h
    have start : 64 * (offset / 64) + offset % 64 = offset := Nat.div_add_mod offset 64
    have hp : offset / 64 < pageCount depth := by omega
    rw [write, get_writeOn _ _ _ _ _ hp (by omega) (by rw [List.length_cons]; omega) ha,
      get_setPage_getPage _ hp ha, start]

end Pages

end RiscvToolkit
