import RiscvToolkit.Proofs.Memory.Bytes

/-! Memory as a map from addresses to bytes. Integers are read and written just as on the map, so that after
any writes each address has the byte that was written to it last. -/
namespace RiscvToolkit

/-- Bytes at addresses, and none where nothing is mapped. -/
abbrev ByteMap := UInt64 → Option UInt8

/-- An integer type: its width, and whether it has a sign. -/
structure IntType where
  width : Width
  signed : Bool
  deriving DecidableEq, Repr

namespace IntType

/-- The number that bytes stand for, the least significant first. -/
def value (t : IntType) (bytes : List UInt8) : Int :=
  let n : Nat := Nat.ofDigits 256 (bytes.map UInt8.toNat)
  if t.signed then (n : Int).bmod (256 ^ t.width.size) else n

/-- The bytes of a number in two's complement, the least significant first. -/
def bytes (t : IntType) (value : Int) : List UInt8 :=
  (List.range t.width.size).map fun k => UInt8.ofNat (value / 256 ^ k % 256).toNat

@[simp] theorem length_bytes (t : IntType) (value : Int) : (t.bytes value).length = t.width.size := by
  rw [bytes, List.length_map, List.length_range]

/-- The number that a word of memory stands for. -/
def ofRaw (t : IntType) (raw : UInt64) : Int :=
  if t.signed then (signExtend raw (8 * t.width.size)).toInt64.toInt else raw.toNat

end IntType

namespace ByteMap

/-- True if there is a byte at each of `count` addresses from `addr` on, 0 being next after the last. -/
def Mapped (f : ByteMap) (addr : UInt64) (count : Nat) : Prop :=
  ∀ k < count, (f (addr + UInt64.ofNat k)).isSome = true

instance (f : ByteMap) (addr : UInt64) (count : Nat) : Decidable (f.Mapped addr count) :=
  inferInstanceAs (Decidable (∀ k < count, (f (addr + UInt64.ofNat k)).isSome = true))

theorem mapped_congr {f g : ByteMap} (h : ∀ a, (f a).isSome = (g a).isSome) (addr : UInt64)
    (count : Nat) : f.Mapped addr count ↔ g.Mapped addr count := by
  simp only [Mapped, h]

def readInt (f : ByteMap) (t : IntType) (addr : UInt64) : Except AccessError Int :=
  if f.Mapped addr t.width.size then
    .ok (t.value ((List.range t.width.size).map fun k => (f (addr + UInt64.ofNat k)).getD 0))
  else .error (.read addr)

/-- The map with other bytes from `addr` on. -/
def overwrite (f : ByteMap) (addr : UInt64) (bytes : List UInt8) : ByteMap := fun a =>
  bytes[(a - addr).toNat]?.or (f a)

end ByteMap

/-- A typed write, or a section of at least one byte. -/
inductive Put where
  | int (t : IntType) (addr : UInt64) (value : Int)
  | bytes (addr : UInt64) (first : UInt8) (rest : List UInt8)

namespace Put

def addr : Put → UInt64
  | int _ addr _ | bytes addr _ _ => addr

def content : Put → List UInt8
  | int t _ value => t.bytes value
  | bytes _ first rest => first :: rest

theorem length_content_pos (p : Put) : 0 < p.content.length := by
  cases p with
  | int t addr value =>
    rw [content, IntType.length_bytes]
    exact t.width.size_pos
  | bytes addr first rest => exact Nat.succ_pos _

/-- The byte that `p` puts at an address, if all of its bytes are mapped. -/
def at? (p : Put) (f : ByteMap) (a : UInt64) : Option UInt8 :=
  if f.Mapped p.addr p.content.length then p.content[(a - p.addr).toNat]? else none

theorem at?_congr (p : Put) {f g : ByteMap} (h : ∀ a, (f a).isSome = (g a).isSome) (a : UInt64) :
    p.at? f a = p.at? g a := by
  simp only [at?, ByteMap.mapped_congr h]

end Put

namespace LittleEndian

theorem toNat_decode {bytes : List UInt8} (h : bytes.length ≤ 8) :
    (decode bytes).toNat = Nat.ofDigits 256 (bytes.map UInt8.toNat) := by
  induction bytes with
  | nil => rfl
  | cons byte rest ih =>
    rw [List.length_cons] at h
    have ih := ih (by omega)
    have hlt : Nat.ofDigits 256 (rest.map UInt8.toNat) < 256 ^ (rest.map UInt8.toNat).length := by
      refine Nat.ofDigits_lt_base_pow_length (by decide) fun d hd => ?_
      obtain ⟨b, -, rfl⟩ := List.mem_map.mp hd
      exact b.toNat_lt
    have hpow : 256 ^ rest.length ≤ 256 ^ 7 := Nat.pow_le_pow_right (by decide) (by omega)
    rw [List.length_map] at hlt
    rw [toNat_decode_cons byte rest (by omega), ih, List.map_cons, Nat.ofDigits_cons]

/-- The byte at a place of a number, which a machine word keeps for the eight lowest places. -/
theorem getElem?_encode_ofInt {count k : Nat} (hk : k < count) (h8 : count ≤ 8) (value : Int) :
    (encode count (UInt64.ofInt value))[k]? = some (.ofNat (value / 256 ^ k % 256).toNat) := by
  rw [getElem?_encode _ _ hk]
  refine congrArg some (UInt8.toNat_inj.mp ?_)
  have hw : (UInt64.ofInt value).toBitVec.toNat = (value % 2 ^ 64).toNat := by
    have hlt : value % 2 ^ 64 < 2 ^ 64 := Int.emod_lt_of_pos value (by decide)
    rw [UInt64.toNat_toBitVec, UInt64.ofInt, UInt64.toNat_ofNat_of_lt']
    exact (Int.toNat_lt (Int.emod_nonneg value (by decide))).mpr hlt
  rw [UInt8.toNat_ofBitVec, BitVec.extractLsb'_toNat, hw, Nat.shiftRight_eq_div_pow,
    UInt8.toNat_ofNat']
  have hk8 : k < 8 := by omega
  interval_cases k <;> simp only [Nat.reduceMul, Nat.reducePow, Int.reducePow] <;> omega

end LittleEndian

namespace IntType

theorem encode_ofInt (t : IntType) (value : Int) :
    LittleEndian.encode t.width.size (UInt64.ofInt value) = t.bytes value := by
  apply List.ext_getElem?
  intro k
  by_cases hk : k < t.width.size
  · have h8 : t.width.size ≤ 8 := by cases t.width <;> decide
    rw [LittleEndian.getElem?_encode_ofInt hk h8, bytes, List.getElem?_map,
      List.getElem?_range hk, Option.map_some]
  · rw [List.getElem?_eq_none (by simpa using hk), List.getElem?_eq_none (by simpa using hk)]

theorem ofRaw_decode (t : IntType) {bytes : List UInt8} (h : bytes.length = t.width.size) :
    t.ofRaw (LittleEndian.decode bytes) = t.value bytes := by
  have h8 : t.width.size ≤ 8 := by cases t.width <;> decide
  have hn := LittleEndian.toNat_decode (h ▸ h8)
  have hpow : 256 ^ t.width.size = 2 ^ (8 * t.width.size) := (pow_mul 2 8 _).symm
  have hpos := t.width.size_pos
  unfold ofRaw value
  dsimp only
  split
  next =>
    rw [← hn, hpow, ← Int64.toInt_toBitVec, UInt64.toBitVec_toInt64,
      toBitVec_signExtend _ (by omega) (by omega), BitVec.toInt_signExtend_of_le (by omega),
      BitVec.toInt_setWidth]
    rfl
  next => rw [hn]

end IntType

namespace Memory

/-- The addresses of a region. -/
def range (m : Memory) (r : Region) : Set UInt64 :=
  {a | m.base r ≤ a.toNat ∧ a.toNat < m.base r + m.size r}

def readInt (m : Memory) (t : IntType) (addr : UInt64) : Except AccessError Int :=
  (m.read t.width addr).map t.ofRaw

def written (m : Memory) : Put → Except AccessError Memory
  | .int t addr value => m.write t.width addr (.ofInt value)
  | .bytes addr first rest => m.store addr (first :: rest)

/-- The answer to a write, and the memory after it. -/
def put (m : Memory) (p : Put) : Except AccessError Unit × Memory :=
  match m.written p with
  | .ok m' => (.ok (), m')
  | .error e => (.error e, m)

/-- The memory after writes, of which any may fail. -/
def putAll (m : Memory) : List Put → Memory
  | [] => m
  | p :: ps => (m.put p).2.putAll ps

variable (m : Memory)

theorem pairwise_disjoint_range : Pairwise (Function.onFun Disjoint m.range) := by
  intro r r' hne
  refine Set.disjoint_left.mpr fun a h h' => hne ?_
  exact eq_of_holds ((m.holds_iff r a).mpr h) ((m.holds_iff r' a).mpr h')

theorem isSome_byte?_iff (a : UInt64) : (m.byte? a).isSome = true ↔ ∃ r, a ∈ m.range r := by
  rw [Option.isSome_iff_exists]
  constructor
  · intro h
    obtain ⟨b, hb⟩ := h
    obtain ⟨r, o, ha, ho, -⟩ := (m.byte?_eq_some_iff a b).mp hb
    exact ⟨r, by omega, by omega⟩
  · intro h
    obtain ⟨r, hlo, hhi⟩ := h
    exact ⟨_, (m.byte?_eq_some_iff a _).mpr ⟨r, a.toNat - m.base r, by omega, by omega, rfl⟩⟩

theorem byte?_mapped_iff {addr : UInt64} {count : Nat} (hc : 0 < count) :
    ByteMap.Mapped m.byte? addr count ↔ ∃ r o, m.locate? addr count = some (r, o) := by
  rw [← mapped_iff hc]
  have hbyte (k : Nat) : (m.bytes (addr.toBitVec + BitVec.ofNat 64 k)).isSome =
      (m.byte? (addr + UInt64.ofNat k)).isSome := Option.isSome_map
  simp only [Rv64.Mapped, ByteMap.Mapped, hbyte]

theorem byte?_of_locate? {addr : UInt64} {count : Nat} {r : Region} {o : Nat}
    (h : m.locate? addr count = some (r, o)) {k : Nat} (hk : k < count) :
    m.byte? (addr + UInt64.ofNat k) = some ((m.segment r).bytes.get (o + k)) := by
  have hb := bytes_of_locate? h hk
  exact (Option.map_injective fun x y => UInt8.toBitVec_inj.mp) hb

theorem read_of_locate? {addr : UInt64} {count : Nat} {r : Region} {o : Nat}
    (h : m.locate? addr count = some (r, o)) :
    (m.segment r).bytes.read o count =
      (List.range count).map fun k => (m.byte? (addr + UInt64.ofNat k)).getD 0 := by
  rw [Pages.read_eq, List.range'_eq_map_range, List.map_map]
  apply List.map_congr_left
  intro k hk
  rw [m.byte?_of_locate? h (List.mem_range.mp hk)]
  rfl

theorem readInt_eq (t : IntType) (addr : UInt64) :
    m.readInt t addr = ByteMap.readInt m.byte? t addr := by
  have hmapped : ByteMap.Mapped m.byte? addr t.width.size ↔ _ :=
    m.byte?_mapped_iff t.width.size_pos
  unfold readInt read load ByteMap.readInt
  cases hl : m.locate? addr t.width.size with
  | none =>
    have hnot : ¬ByteMap.Mapped m.byte? addr t.width.size := by
      rw [hmapped, hl]
      simp
    rw [if_neg hnot]
    rfl
  | some place =>
    obtain ⟨r, o⟩ := place
    have hlen : ((m.segment r).bytes.read o t.width.size).length = t.width.size := by
      rw [m.read_of_locate? hl, List.length_map, List.length_range]
    rw [if_pos (hmapped.mpr ⟨r, o, hl⟩), ← m.read_of_locate? hl, ← t.ofRaw_decode hlen]
    rfl

variable {m}

/-- A store puts its bytes over those of the map. -/
theorem byte?_store {m' : Memory} {addr : UInt64} {bytes : List UInt8}
    (h : m.store addr bytes = .ok m') : m'.byte? = ByteMap.overwrite m.byte? addr bytes := by
  funext a
  unfold ByteMap.overwrite
  by_cases hin : (a - addr).toNat < bytes.length
  · obtain ⟨r, o, hl, rfl⟩ := (m.store_eq_ok_iff m' addr bytes).mp h
    have hle := ((m.locate?_eq_some_iff ..).mp hl).2.2.trans (m.size_le r)
    have ha : addr + UInt64.ofNat (a - addr).toNat = a := by
      rw [UInt64.ofNat_toNat, UInt64.add_comm, UInt64.sub_add_cancel]
    have hl' : (m.overwrite r o bytes).locate? addr bytes.length = some (r, o) := by
      rw [locate?_overwrite, hl]
    have hb := byte?_of_locate? _ hl' hin
    rw [ha, segment_overwrite_self, Pages.get_write _ _ _ hle (by omega), if_pos (by omega),
      Nat.add_sub_cancel_left, List.getD_eq_getElem?_getD] at hb
    rw [hb, List.getElem?_eq_getElem hin]
    rfl
  · have hapart : Apart addr bytes.length a 1 := by
      have ha := a.toNat_lt
      have hb := addr.toNat_lt
      have hsub : (a - addr).toNat = (2 ^ 64 - addr.toNat + a.toNat) % 2 ^ 64 := UInt64.toNat_sub ..
      unfold Apart
      omega
    rw [byte?_store_of_apart h hapart, List.getElem?_eq_none (by omega), Option.none_or]

theorem written_eq (m : Memory) (p : Put) : m.written p = m.store p.addr p.content := by
  cases p with
  | int t addr value => exact congrArg (m.store addr) (t.encode_ofInt value)
  | bytes addr first rest => rfl

/-- A write succeeds just if all of its bytes are mapped. -/
theorem put_of_mapped {p : Put} (h : ByteMap.Mapped m.byte? p.addr p.content.length) :
    (m.put p).1 = .ok () ∧ (m.put p).2.byte? = ByteMap.overwrite m.byte? p.addr p.content := by
  obtain ⟨r, o, hl⟩ := (m.byte?_mapped_iff p.length_content_pos).mp h
  have hs := (m.store_eq_ok_iff _ p.addr p.content).mpr ⟨r, o, hl, rfl⟩
  rw [put, written_eq, hs]
  exact ⟨rfl, byte?_store hs⟩

theorem put_of_not_mapped {p : Put} (h : ¬ByteMap.Mapped m.byte? p.addr p.content.length) :
    m.put p = (.error (.write p.addr), m) := by
  rw [m.byte?_mapped_iff p.length_content_pos] at h
  rw [put, written_eq]
  unfold store
  cases hl : m.locate? p.addr p.content.length with
  | none => rfl
  | some place => exact absurd ⟨place.1, place.2, hl⟩ h

theorem byte?_put (m : Memory) (p : Put) (a : UInt64) :
    (m.put p).2.byte? a = (p.at? m.byte? a).or (m.byte? a) := by
  unfold Put.at?
  split
  next h => rw [(put_of_mapped h).2, ByteMap.overwrite]
  next h => rw [put_of_not_mapped h, Option.none_or]

/-- Writes map no address and unmap none. -/
theorem isSome_byte?_put (m : Memory) (p : Put) (a : UInt64) :
    ((m.put p).2.byte? a).isSome = (m.byte? a).isSome := by
  rw [put, written_eq]
  cases hs : m.store p.addr p.content with
  | error e => rfl
  | ok m' =>
    unfold byte?
    rw [Option.isSome_map, Option.isSome_map, locate?_of_store hs]

/-- After writes, an address has the byte of the last write that put one there. -/
theorem byte?_putAll (m : Memory) (ps : List Put) (a : UInt64) :
    (m.putAll ps).byte? a = (ps.reverse.findSome? (·.at? m.byte? a)).or (m.byte? a) := by
  induction ps generalizing m with
  | nil => rfl
  | cons p ps ih =>
    have hat (q : Put) : q.at? (m.put p).2.byte? a = q.at? m.byte? a :=
      q.at?_congr (m.isSome_byte?_put p) a
    rw [putAll, ih, byte?_put, List.reverse_cons, List.findSome?_append, Option.or_assoc]
    simp only [hat, List.findSome?_singleton]

/-- True if bytes lie in memory one behind the other, the first at `address`. -/
def HoldsBytes (m : Memory) (address : Nat) (bytes : List UInt8) : Prop :=
  ∀ k < bytes.length, m.byte? (UInt64.ofNat (address + k)) = bytes[k]?

theorem HoldsBytes.append {address : Nat} {xs ys : List UInt8} (hx : m.HoldsBytes address xs)
    (hy : m.HoldsBytes (address + xs.length) ys) : m.HoldsBytes address (xs ++ ys) := by
  intro k hk
  rw [List.length_append] at hk
  by_cases hl : k < xs.length
  · rw [hx k hl, List.getElem?_append_left hl]
  · have hk' : address + xs.length + (k - xs.length) = address + k := by omega
    have h := hy (k - xs.length) (by omega)
    rw [hk'] at h
    rw [h, List.getElem?_append_right (by omega)]

theorem HoldsBytes.left {address : Nat} {xs ys : List UInt8} (h : m.HoldsBytes address (xs ++ ys)) :
    m.HoldsBytes address xs := by
  intro k hk
  rw [h k (by rw [List.length_append]; omega), List.getElem?_append_left hk]

theorem HoldsBytes.right {address : Nat} {xs ys : List UInt8}
    (h : m.HoldsBytes address (xs ++ ys)) : m.HoldsBytes (address + xs.length) ys := by
  intro k hk
  have hk' := h (xs.length + k) (by rw [List.length_append]; omega)
  rw [List.getElem?_append_right (by omega), Nat.add_sub_cancel_left] at hk'
  rw [← hk', Nat.add_assoc]

private theorem getElem?_read {address : UInt64} {count : Nat} {r : Region} {o : Nat}
    (hl : m.locate? address count = some (r, o)) {k : Nat} (hk : k < count) :
    ((m.segment r).bytes.read o count)[k]? = m.byte? (address + UInt64.ofNat k) := by
  rw [m.byte?_of_locate? hl hk, Pages.read_eq, List.getElem?_map, List.getElem?_range' hk,
    Option.map_some, one_mul]

theorem holdsBytes_of_load {address : UInt64} {count : Nat} {bytes : List UInt8}
    (h : m.load address count = .ok bytes) : m.HoldsBytes address.toNat bytes := by
  obtain ⟨r, o, hl, rfl⟩ := (m.load_eq_ok_iff address count bytes).mp h
  intro k hk
  rw [Pages.read_eq, List.length_map, List.length_range'] at hk
  rw [getElem?_read hl hk, UInt64.ofNat_add, UInt64.ofNat_toNat]

/-- Bytes that lie in one region are read from it. -/
theorem HoldsBytes.load {r : Region} {o : Nat} {bytes : List UInt8}
    (h : m.HoldsBytes (m.base r + o) bytes) (ho : o < m.size r) (hs : o + bytes.length ≤ m.size r) :
    m.load (UInt64.ofNat (m.base r + o)) bytes.length = .ok bytes := by
  have hend := m.end_lt r
  have ha : (UInt64.ofNat (m.base r + o)).toNat = m.base r + o := by
    rw [UInt64.toNat_ofNat']
    omega
  have hh : m.holds r (UInt64.ofNat (m.base r + o)) = true := by
    rw [holds_iff, ha]
    omega
  have hl := (m.locate?_eq_some_iff _ _ r o).mpr ⟨hh, ha, hs⟩
  refine (m.load_eq_ok_iff _ _ _).mpr ⟨r, o, hl, ?_⟩
  apply List.ext_getElem?
  intro k
  by_cases hk : k < bytes.length
  · rw [getElem?_read hl hk, ← UInt64.ofNat_add, h k hk]
  · rw [Pages.read_eq, List.getElem?_eq_none (by simp; omega), List.getElem?_eq_none (by omega)]

/-- Memory is a map from the addresses of its three regions to bytes. What covers a byte that is not
mapped fails and changes nothing; all else reads and puts little-endian bytes, at any widths. -/
theorem refines_byteMap (m : Memory) :
    Pairwise (Function.onFun Disjoint m.range) ∧
    (∀ a, (m.byte? a).isSome = true ↔ ∃ r, a ∈ m.range r) ∧
    (∀ t addr, m.readInt t addr = ByteMap.readInt m.byte? t addr) ∧
    (∀ p : Put,
      if ByteMap.Mapped m.byte? p.addr p.content.length then
        (m.put p).1 = .ok () ∧ (m.put p).2.byte? = ByteMap.overwrite m.byte? p.addr p.content
      else m.put p = (.error (.write p.addr), m)) ∧
    ∀ ps t addr, (m.putAll ps).readInt t addr =
      ByteMap.readInt
        (fun a => (ps.reverse.findSome? (·.at? m.byte? a)).or (m.byte? a)) t addr := by
  refine ⟨m.pairwise_disjoint_range, m.isSome_byte?_iff, m.readInt_eq, fun p => ?_, ?_⟩
  · split
    next h => exact put_of_mapped h
    next h => exact put_of_not_mapped h
  · intro ps t addr
    rw [readInt_eq, funext (m.byte?_putAll ps)]

end Memory

end RiscvToolkit
