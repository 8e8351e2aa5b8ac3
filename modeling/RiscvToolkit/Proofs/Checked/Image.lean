import RiscvToolkit.Proofs.Assembly.Image
import RiscvToolkit.Proofs.Assembly.Packed
import RiscvToolkit.Proofs.Assembly.Transfer
import RiscvToolkit.Proofs.Checked.Operand

/-! Images and relocations with numbers of fixed widths. The limit of a segment is checked before a size is cut down
to 32 bits, so that no cursor wraps. -/
namespace RiscvToolkit.Checked
open Assembly (Image ErrorKind Error Location Emission Stored Datum DataFormat Content Relocation
  RelocationKind Symbols Piece Mode State Transfer length_store placeDatum linksFrom)
open Source (Operand)

/-! ### Cursors -/

/-- The address of the next item, in 32 bits. -/
def cursor (i : Image) (place : Assembly.Place) : Except Defect UInt32 :=
  (unsigned 32 (place.base + i.used place)).map UInt32.ofNat

/-- Sets how many bytes of a segment are taken. -/
def resize (i : Image) (place : Assembly.Place) (used : Nat) : Except Defect Image :=
  if h : used ≤ segmentSize then
    match place with
    | .text => .ok { i with textSize := used, textSize_le := h }
    | .data => .ok { i with dataSize := used, dataSize_le := h }
  else .error .overflow

/-- Takes bytes at the cursor, and tells its address. The limit is checked in 64 bits, and the size
is added in 32. -/
def reserve (i : Image) (place : Assembly.Place) (size : Nat) : Checked ErrorKind (UInt32 × Image) := do
  let address ← cursor i place
  let finish ← unsigned 64 (i.used place + size)
  if segmentSize < finish then throw (.segmentOverflow place)
  let used ← unsigned 32 (i.used place + size % 2 ^ 32)
  return (address, ← resize i place used)

/-- Places bytes at the cursor, and tells its address. -/
def putBytes (i : Image) (place : Assembly.Place) (bytes : List UInt8) :
    Checked ErrorKind (UInt32 × Image) := do
  let (address, i) ← reserve i place bytes.length
  match i.memory.store address.toUInt64 bytes with
  | .ok memory => return (address, { i with memory })
  | .error _ => throw (.segmentOverflow place)

/-! ### Items -/

/-- Places a word, and records what it waits for. -/
def emit (location : Location) (place : Assembly.Place) (e : Emission) (s : State) :
    Checked ErrorKind State := do
  let (address, image) ← putBytes s.image place (LittleEndian.encode 4 e.word.toUInt64)
  return { s with
    image
    relocations := s.relocations ++ (e.relocation? location address).toList }

def emitAll (location : Location) (place : Assembly.Place) : List Emission → State → Checked ErrorKind State
  | [], s => return s
  | e :: rest, s => do emitAll location place rest (← emit location place e s)

def addDatum (location : Location) (stored : Stored) (s : State) : Checked ErrorKind State :=
  match stored with
  | .bytes bytes => do
    let (_, image) ← putBytes s.image .data bytes
    return { s with image }
  | .address width label => do
    let (address, image) ← reserve s.image .data width.size
    let r : Relocation := ⟨address, label, Assembly.relocationOf width, location⟩
    return { s with image, relocations := s.relocations.push r }

/-- The data item of an operand. All other operands have been told apart before. -/
def datum : Operand → Except Defect Datum
  | .int value => .ok (.int value)
  | .float value => .ok (.float value)
  | .string text => .ok (.string text)
  | .symbol name => .ok (.label name)
  | _ => .error .unreachable

/-- Places an operand as data. -/
def placeData (location : Location) (o : Operand) (s : State) : Checked ErrorKind State := do
  let item ← datum o
  addDatum location (← of (s.store item)) s

/-! ### Relocations -/

/-- The distance of a transfer, in 64 bits with a sign. -/
def transferOffset (t : Transfer) (address target : UInt32) : Checked ErrorKind UInt32 := do
  let offset ← signed 64 (target.toNat - address.toNat)
  if offset % 2 ≠ 0 then throw .oddTarget
  if offset < t.reach.1 ∨ t.reach.2 < offset then throw (.targetOutOfRange t offset)
  return UInt32.ofInt offset

/-- The bits to put into the word at `address`. -/
def bits (kind : RelocationKind) (address target : UInt32) : Checked ErrorKind UInt32 :=
  match kind with
  | .branch => Pack.branchOffset <$> transferOffset .branch address target
  | .jump => Pack.jumpOffset <$> transferOffset .jump address target
  | kind => of (kind.bits address target)

def apply (kind : RelocationKind) (memory : Memory) (address target : UInt32) :
    Checked ErrorKind Memory :=
  match kind.dataWidth? with
  | some _ => of (kind.apply memory address target)
  | none => do
    let bits ← bits kind address target
    let overflow {α : Type} (result : Except AccessError α) : Checked ErrorKind α :=
      of (result.mapError fun _ => .segmentOverflow (Assembly.placeOf address))
    let word ← overflow (memory.readWord address.toUInt64)
    overflow (memory.writeWord address.toUInt64 (word ||| bits))

/-- Applies the relocations whose label has an address. -/
def resolve (labels : Symbols) (memory : Memory) (unresolved : Array Relocation) :
    List Relocation → Checked Error (Memory × Array Relocation)
  | [] => return (memory, unresolved)
  | r :: rest =>
    match labels.lookup r.label with
    | none => resolve labels memory (unresolved.push r) rest
    | some target => do
      let memory ← mapResult (Assembly.located r.location.line r.location.file)
        (apply r.kind memory r.address target)
      resolve labels memory unresolved rest

/-- Runs `body` in a scope of its own. -/
def inScope (body : State → Checked Error State) (s : State) : Checked Error State := do
  let inner ← body { s with labels := [], relocations := #[] }
  let (memory, relocations) ←
    resolve inner.labels inner.image.memory s.relocations inner.relocations.toList
  return { inner with
    toMode := s.toMode
    image := { inner.image with memory }
    labels := s.labels
    relocations }

/-! ### Agreement -/

/-- A cursor is in its segment, whose end is below `2 ^ 32`. -/
theorem cursor_eq (i : Image) (place : Assembly.Place) : cursor i place = .ok (i.cursor place) := by
  have hused := i.used_le place
  have hbase := place.base_add_lt
  rw [cursor, unsigned_of_lt (by omega)]
  rfl

theorem exists_resize (i : Image) (place : Assembly.Place) {size : Nat} (h : i.used place + size ≤ segmentSize) :
    ∃ j, resize i place (i.used place + size) = .ok j ∧ i.reserve place size = .ok j := by
  unfold resize Image.reserve
  rw [dif_pos h, dif_pos h]
  cases place <;> exact ⟨_, rfl, rfl⟩

theorem reserve_eq (i : Image) (place : Assembly.Place) {size : Nat} (h : size ≤ textLimit) :
    reserve i place size = of ((i.reserve place size).map (i.cursor place, ·)) := by
  have hused := i.used_le place
  have hsegment : segmentSize = 0x400000 := rfl
  have hlimit : textLimit = 2 ^ 63 := rfl
  have hfinish : unsigned 64 (i.used place + size) = .ok (i.used place + size) :=
    unsigned_of_lt (by omega)
  rw [reserve, cursor_eq, liftM_ok, of_ok_bind, hfinish, liftM_ok, of_ok_bind]
  by_cases hroom : i.used place + size ≤ segmentSize
  · have hnarrow : size % 2 ^ 32 = size := Nat.mod_eq_of_lt (by omega)
    have hadd : unsigned 32 (i.used place + size) = .ok (i.used place + size) :=
      unsigned_of_lt (by omega)
    obtain ⟨j, hresize, hreserve⟩ := exists_resize i place hroom
    rw [if_neg (by omega), hnarrow, hadd, hreserve]
    simp only [liftM_ok, pure_eq, of_ok_bind]
    rw [hresize]
    rfl
  · rw [if_pos (by omega), Image.reserve, dif_neg hroom]
    rfl

theorem putBytes_eq (i : Image) (place : Assembly.Place) {bytes : List UInt8} (h : bytes.length ≤ textLimit) :
    putBytes i place bytes = of ((i.put place bytes).map (i.cursor place, ·)) := by
  rw [putBytes, reserve_eq i place h, Image.put]
  cases i.reserve place bytes.length with
  | error kind => rfl
  | ok j =>
    rw [ok_bind]
    simp only [Except.map, of_ok_bind]
    cases j.memory.store (i.cursor place).toUInt64 bytes <;> rfl

theorem emit_eq (location : Location) (place : Assembly.Place) (e : Emission) (s : State) :
    emit location place e s = of (s.add place location (.code [e])) := by
  have hlen : (LittleEndian.encode 4 e.word.toUInt64).length ≤ textLimit := by
    rw [LittleEndian.length_encode]
    decide
  have hput : (Piece.code [e]).put place s.image = s.image.putWord place e.word := by
    change (do Image.putWords place [] (← s.image.putWord place e.word)) = _
    cases s.image.putWord place e.word <;> rfl
  have hlinks : (Piece.code [e]).relocations location (s.image.cursor place) =
      (e.relocation? location (s.image.cursor place)).toList := List.append_nil _
  rw [emit, putBytes_eq _ _ hlen, State.add, hput, hlinks, Image.putWord]
  cases s.image.put place (LittleEndian.encode 4 e.word.toUInt64) <;> rfl

/-- Words placed one after another have the relocations that they have together. -/
theorem add_cons (location : Location) (place : Assembly.Place) (e : Emission) (rest : List Emission)
    (s : State) :
    s.add place location (.code (e :: rest)) =
      s.add place location (.code [e]) >>= (·.add place location (.code rest)) := by
  simp only [State.add, Piece.put, Piece.relocations, Image.putWords]
  cases hw : s.image.putWord place e.word with
  | error kind => rfl
  | ok j =>
    have hcursor : j.cursor place = s.image.cursor place + 4 := by
      rw [Image.cursor_put hw, LittleEndian.length_encode]
      rfl
    have hlinks : linksFrom location (s.image.cursor place) (e :: rest) =
        linksFrom location (s.image.cursor place) [e] ++
          linksFrom location (j.cursor place) rest := by
      rw [hcursor]
      simp [linksFrom]
    have hassoc (rs : Array Relocation) (xs ys : List Relocation) : rs ++ (xs ++ ys) = rs ++ xs ++ ys := by
      apply Array.toList_inj.mp
      simp
    simp only [ok_bind, pure, Except.pure, hlinks, hassoc]

theorem emitAll_eq (location : Location) (place : Assembly.Place) (words : List Emission) (s : State) :
    emitAll location place words s = of (s.add place location (.code words)) := by
  induction words generalizing s with
  | nil =>
    simp [emitAll, State.add, Piece.put, Image.putWords, Piece.relocations, linksFrom]
  | cons e rest ih =>
    rw [emitAll, emit_eq, add_cons location place e rest s]
    exact bind_eq_of rfl fun t _ => ih t

/-- A string has fewer bytes than `textLimit`, and one more with a zero behind it. -/
theorem size_datum_le (format : DataFormat) {item : Datum}
    (h : ∀ text, item = .string text → text.utf8ByteSize < textLimit) :
    (Content.datum format item).size ≤ textLimit := by
  have hlimit : textLimit = 2 ^ 63 := rfl
  have hwidth (width : Width) : width.size ≤ 8 := by cases width <;> decide
  cases format with
  | int width =>
    have hsize := hwidth width
    simp only [Content.size]
    omega
  | float | double =>
    simp only [Content.size]
    omega
  | ascii | asciz =>
    cases item with
    | string text =>
      have htext := h text rfl
      simp only [Content.size]
      omega
    | _ => exact Nat.zero_le _

theorem addDatum_eq (location : Location) {format : DataFormat} {item : Datum} {stored : Stored}
    (hs : format.store item = .ok stored)
    (h : ∀ text, item = .string text → text.utf8ByteSize < textLimit) (s : State) :
    addDatum location stored s = of (s.add .data location (.datum stored)) := by
  have hempty (rs : Array Relocation) : rs ++ ([] : List Relocation) = rs := by
    apply Array.toList_inj.mp
    simp
  have hsingle (rs : Array Relocation) (r : Relocation) : rs ++ [r] = rs.push r := by
    apply Array.toList_inj.mp
    simp
  cases stored with
  | bytes bytes =>
    have hlen : bytes.length ≤ textLimit := (length_store hs).symm.trans_le (size_datum_le format h)
    rw [addDatum, putBytes_eq _ _ hlen, State.add, Piece.put, Piece.relocations]
    cases s.image.put .data bytes with
    | error kind => rfl
    | ok image =>
      simp only [Except.map, of_ok_bind, ok_bind, hempty]
      rfl
  | address width label =>
    have hwidth : width.size ≤ textLimit := by cases width <;> decide
    rw [addDatum, reserve_eq _ _ hwidth, State.add, Piece.put, Piece.relocations]
    cases s.image.reserve .data width.size with
    | error kind => rfl
    | ok image =>
      simp only [Except.map, of_ok_bind, ok_bind, hsingle]
      rfl

/-- What is left for data, once everything else is told apart, is data. -/
theorem placeData_eq (location : Location) {o : Operand} {item : Datum} (ho : datum o = .ok item)
    (h : ∀ text, item = .string text → text.utf8ByteSize < textLimit) (s : State) :
    placeData location o s = of (placeDatum location item s) := by
  rw [placeData, ho, liftM_ok, of_ok_bind, placeDatum]
  refine bind_eq_of rfl fun stored hstored => ?_
  unfold Mode.store at hstored
  cases hp : s.place with
  | text =>
    rw [hp] at hstored
    cases hstored
  | data =>
    rw [hp] at hstored
    exact addDatum_eq location hstored h s

theorem transferOffset_eq (t : Transfer) (address target : UInt32) :
    transferOffset t address target = of (Assembly.transferOffset t address target) := by
  have ha := address.toNat_lt
  have ht := target.toNat_lt
  have hwrap : UInt32.ofInt (target.toNat - address.toNat) = target - address := by
    apply UInt32.toNat_inj.mp
    rw [UInt32.ofInt, UInt32.toNat_ofNat', UInt32.toNat_sub]
    omega
  have hsigned : signed 64 ((target.toNat : Int) - address.toNat) = .ok (target.toNat - address.toNat) :=
    signed_of_mem (by norm_num; omega) (by norm_num; omega)
  unfold transferOffset Assembly.transferOffset
  rw [hsigned]
  simp only [liftM_ok, of_ok_bind]
  split_ifs <;> first | rfl | (rw [hwrap]; rfl)

theorem bits_eq (kind : RelocationKind) (address target : UInt32) :
    bits kind address target = of (kind.bits address target) := by
  cases kind with
  | branch =>
    rw [bits, transferOffset_eq, RelocationKind.bits]
    cases Assembly.transferOffset .branch address target <;> rfl
  | jump =>
    rw [bits, transferOffset_eq, RelocationKind.bits]
    cases Assembly.transferOffset .jump address target <;> rfl
  | _ => rfl

theorem apply_eq (kind : RelocationKind) (memory : Memory) (address target : UInt32) :
    apply kind memory address target = of (kind.apply memory address target) := by
  unfold apply
  cases hw : kind.dataWidth? with
  | some width => rfl
  | none =>
    dsimp only
    rw [bits_eq, RelocationKind.apply, hw]
    dsimp only
    cases kind.bits address target with
    | error e => rfl
    | ok bits =>
      cases memory.readWord address.toUInt64 <;> rfl

theorem resolve_eq (labels : Symbols) (memory : Memory) (unresolved : Array Relocation)
    (rs : List Relocation) :
    resolve labels memory unresolved rs = of (Assembly.resolve labels memory unresolved rs) := by
  induction rs generalizing memory unresolved with
  | nil => rfl
  | cons r rest ih =>
    rw [resolve, Assembly.resolve]
    cases labels.lookup r.label with
    | none => exact ih _ _
    | some target =>
      dsimp only
      rw [apply_eq, mapResult_of]
      cases r.kind.apply memory r.address target with
      | error kind => rfl
      | ok memory => exact ih memory unresolved

theorem inScope_eq {body : State → Checked Error State} {body' : State → Except Error State} {s : State}
    (h : body { s with labels := [], relocations := #[] } =
      of (body' { s with labels := [], relocations := #[] })) :
    inScope body s = of (Assembly.inScope body' s) := by
  unfold inScope Assembly.inScope
  rw [h]
  cases body' { s with labels := [], relocations := #[] } with
  | error e => rfl
  | ok inner =>
    rw [of_ok_bind, resolve_eq, ok_bind]
    cases Assembly.resolve inner.labels inner.image.memory s.relocations
        inner.relocations.toList <;> rfl

end RiscvToolkit.Checked
