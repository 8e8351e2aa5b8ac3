import RiscvToolkit.Proofs.Machine.Rv64
import RiscvToolkit.Proofs.Memory.Trimmed

/-! Memory as RV64I sees it: bytes at addresses. An access succeeds just if all of its bytes are mapped,
and takes them for the number that they spell. -/
namespace RiscvToolkit

namespace LittleEndian

/-- Bit by bit, byte after byte. -/
theorem getLsbD_decode (bytes : List UInt8) {i : Nat} (hi : i < 64) :
    (decode bytes).toBitVec.getLsbD i = (bytes[i / 8]?.getD 0).toBitVec.getLsbD (i % 8) := by
  induction bytes generalizing i with
  | nil => simp [decode]
  | cons byte rest ih =>
    have hs : (decode rest <<< 8).toBitVec.getLsbD i =
        (!decide (i < 8) && (decode rest).toBitVec.getLsbD (i - 8)) := by
      have h8 : ((8 : UInt64).toBitVec % 64).toNat = 8 := rfl
      rw [UInt64.toBitVec_shiftLeft, BitVec.shiftLeft_eq', h8, BitVec.getLsbD_shiftLeft,
        decide_eq_true hi, Bool.true_and]
    rw [decode, UInt64.toBitVec_or, BitVec.getLsbD_or, hs, UInt8.toBitVec_toUInt64,
      BitVec.getLsbD_setWidth]
    by_cases h8 : i < 8
    · have hd : i / 8 = 0 := by omega
      have hm : i % 8 = i := by omega
      simp [h8, hd, hm, hi]
    · have hd : i / 8 = (i - 8) / 8 + 1 := by omega
      have hm : i % 8 = (i - 8) % 8 := by omega
      rw [ih (by omega), hd, hm, List.getElem?_cons_succ]
      have hz : byte.toBitVec.getLsbD i = false := BitVec.getLsbD_of_ge _ _ (by omega)
      simp [h8, hz]

/-- Nothing is in a number beyond its bytes. -/
theorem setWidth_decode {bytes : List UInt8} {count : Nat} (hc : bytes.length = count) :
    ((decode bytes).toBitVec.setWidth (8 * count)).setWidth 64 = (decode bytes).toBitVec := by
  apply BitVec.eq_of_getLsbD_eq
  intro i hi
  rw [BitVec.getLsbD_setWidth, BitVec.getLsbD_setWidth, getLsbD_decode bytes hi]
  by_cases hb : i < 8 * count
  · simp [hi, hb]
  · have hn : bytes[i / 8]? = none := List.getElem?_eq_none (by omega)
    simp [hb, hn]

theorem getElem?_encode (count : Nat) (value : UInt64) {k : Nat} (hk : k < count) :
    (encode count value)[k]? = some (.ofBitVec (value.toBitVec.extractLsb' (8 * k) 8)) := by
  induction count generalizing value k with
  | zero => omega
  | succ n ih =>
    cases k with
    | zero =>
      refine congrArg some (UInt8.toBitVec_inj.mp ?_)
      rw [UInt64.toBitVec_toUInt8]
      rfl
    | succ k =>
      have hs : (value >>> 8).toBitVec = value.toBitVec >>> 8 := rfl
      rw [encode, List.getElem?_cons_succ, ih _ (by omega), hs]
      refine congrArg (fun x => some (UInt8.ofBitVec x)) ?_
      apply BitVec.eq_of_getLsbD_eq
      intro i hi
      rw [BitVec.getLsbD_extractLsb', BitVec.getLsbD_extractLsb', BitVec.getLsbD_ushiftRight]
      congr 2
      omega

end LittleEndian

namespace Memory

/-- The bytes at the addresses that are mapped. -/
def bytes (m : Memory) : Rv64.Bytes := fun a => (m.byte? (.ofBitVec a)).map UInt8.toBitVec

section
variable (m : Memory)

theorem end_lt (r : Region) : m.base r + m.size r < 2 ^ 32 := by
  have hs := m.stackSize_le
  simp only [segmentSize] at hs
  cases r <;> simp only [base, size, dataBase, textBase, stackTop, segmentSize] <;> omega

theorem locate?_eq_some_iff_of_pos {addr : UInt64} {count : Nat} (hc : 0 < count) (r : Region)
    (o : Nat) :
    m.locate? addr count = some (r, o) ↔
      addr.toNat = m.base r + o ∧ o + count ≤ m.size r := by
  rw [locate?_eq_some_iff, holds_iff]
  constructor
  · rintro ⟨-, h⟩
    exact h
  · rintro ⟨ha, ho⟩
    exact ⟨by omega, ha, ho⟩

theorem byte?_eq_some_iff (addr : UInt64) (b : UInt8) :
    m.byte? addr = some b ↔ ∃ r o, addr.toNat = m.base r + o ∧ o < m.size r ∧
      (m.segment r).bytes.get o = b := by
  unfold byte?
  rw [Option.map_eq_some_iff]
  constructor
  · rintro ⟨⟨r, o⟩, hl, hb⟩
    obtain ⟨ha, ho⟩ := (m.locate?_eq_some_iff_of_pos Nat.one_pos r o).mp hl
    exact ⟨r, o, ha, ho, hb⟩
  · rintro ⟨r, o, ha, ho, hb⟩
    exact ⟨(r, o), (m.locate?_eq_some_iff_of_pos Nat.one_pos r o).mpr ⟨ha, ho⟩, hb⟩

/-- An address belongs to one region, and so does the next if it belongs to any. -/
theorem eq_of_next {r r' : Region} {o o' : Nat} (ho : o < m.size r) (ho' : o' < m.size r')
    (h : m.base r + o + 1 = m.base r' + o') : r' = r ∧ o' = o + 1 := by
  have hs := m.stackSize_le
  simp only [segmentSize] at hs
  cases r <;> cases r' <;>
    simp only [base, size, dataBase, textBase, stackTop, segmentSize] at ho ho' h <;> simp <;> omega

end

variable {m : Memory} {addr : UInt64} {count : Nat} {r : Region} {o : Nat}

theorem bytes_toBitVec : m.bytes addr.toBitVec = (m.byte? addr).map UInt8.toBitVec := rfl

/-- The byte at an offset in a region. -/
theorem bytes_eq (ha : addr.toNat = m.base r + o) (ho : o < m.size r) :
    m.bytes addr.toBitVec = some ((m.segment r).bytes.get o).toBitVec := by
  rw [bytes_toBitVec, (m.byte?_eq_some_iff addr _).mpr ⟨r, o, ha, ho, rfl⟩]
  rfl

theorem toNat_add_ofNat {k : Nat} (h : addr.toNat + k < 2 ^ 64) :
    (addr + UInt64.ofNat k).toNat = addr.toNat + k := by
  rw [UInt64.toNat_add, UInt64.toNat_ofNat']
  omega

theorem bytes_of_locate? (h : m.locate? addr count = some (r, o)) {k : Nat} (hk : k < count) :
    m.bytes (addr.toBitVec + BitVec.ofNat 64 k) =
      some ((m.segment r).bytes.get (o + k)).toBitVec := by
  obtain ⟨ha, ho⟩ := (m.locate?_eq_some_iff_of_pos (Nat.zero_lt_of_lt hk) r o).mp h
  have hend := m.end_lt r
  have hk' : (addr + UInt64.ofNat k).toNat = m.base r + (o + k) := by
    rw [toNat_add_ofNat (by omega), ha, Nat.add_assoc]
  exact bytes_eq hk' (by omega)

/-- Bytes in a row that are mapped are in one region. -/
theorem mapped_iff (hc : 0 < count) :
    Rv64.Mapped m.bytes addr.toBitVec count ↔ ∃ r o, m.locate? addr count = some (r, o) := by
  constructor
  · intro h
    have hat (k : Nat) (hk : k < count) : ∃ r o, (addr + UInt64.ofNat k).toNat = m.base r + o ∧
        o < m.size r := by
      have hs : ((m.byte? (addr + UInt64.ofNat k)).map UInt8.toBitVec).isSome := h k hk
      rw [Option.isSome_map] at hs
      obtain ⟨b, hb⟩ := Option.isSome_iff_exists.mp hs
      obtain ⟨r, o, ha, ho, -⟩ := (m.byte?_eq_some_iff _ b).mp hb
      exact ⟨r, o, ha, ho⟩
    obtain ⟨r, o, ha, ho⟩ := hat 0 hc
    rw [toNat_add_ofNat (by have := addr.toNat_lt; omega)] at ha
    have hend := m.end_lt r
    have hall : ∀ k < count, o + k < m.size r := by
      intro k
      induction k with
      | zero => exact fun _ => ho
      | succ k ih =>
        intro hk
        have hprev := ih (by omega)
        obtain ⟨r', o', ha', ho'⟩ := hat (k + 1) hk
        rw [toNat_add_ofNat (by omega)] at ha'
        obtain ⟨rfl, rfl⟩ := m.eq_of_next hprev ho' (by omega)
        exact ho'
    have hlast := hall (count - 1) (by omega)
    exact ⟨r, o, (m.locate?_eq_some_iff_of_pos hc r o).mpr ⟨ha, by omega⟩⟩
  · rintro ⟨r, o, h⟩ k hk
    rw [bytes_of_locate? h hk]
    rfl

/-- At most one number is spelled by bytes. -/
theorem holds_unique {mem : Rv64.Bytes} {a : BitVec 64} {v w : BitVec (8 * count)}
    (hv : Rv64.Holds mem a v) (hw : Rv64.Holds mem a w) : v = w := by
  apply BitVec.eq_of_getLsbD_eq
  intro i hi
  have hk : i / 8 < count := by omega
  have hb := Option.some.inj ((hv (i / 8) hk).symm.trans (hw (i / 8) hk))
  have hbit := congrArg (BitVec.getLsbD · (i % 8)) hb
  have hi8 : 8 * (i / 8) + i % 8 = i := by omega
  simpa [BitVec.getLsbD_extractLsb', hi8, Nat.mod_lt] using hbit

/-- The number that is read is the one that the bytes spell. -/
theorem holds_decode (h : m.locate? addr count = some (r, o)) (h8 : count ≤ 8) :
    Rv64.Holds (n := count) m.bytes addr.toBitVec
      ((LittleEndian.decode ((m.segment r).bytes.read o count)).toBitVec.setWidth (8 * count)) := by
  intro k hk
  rw [bytes_of_locate? h hk]
  refine congrArg some (BitVec.eq_of_getLsbD_eq fun i hi => ?_)
  have hd : (8 * k + i) / 8 = k := by omega
  have hm : (8 * k + i) % 8 = i := by omega
  rw [BitVec.getLsbD_extractLsb', BitVec.getLsbD_setWidth, LittleEndian.getLsbD_decode _ (by omega),
    hd, hm, Pages.read_eq]
  simp [hk, hi, show 8 * k + i < 8 * count by omega]

theorem mapped_of_holds {mem : Rv64.Bytes} {a : BitVec 64} {v : BitVec (8 * count)}
    (h : Rv64.Holds mem a v) : Rv64.Mapped mem a count := by
  intro k hk
  rw [h k hk]
  rfl

theorem read_eq_ok_iff (width : Width) (value : UInt64) :
    m.read width addr = .ok value ↔
      ∃ v : BitVec (8 * width.size), Rv64.Holds m.bytes addr.toBitVec v ∧
        value.toBitVec = v.setWidth 64 := by
  have h8 : width.size ≤ 8 := by cases width <;> decide
  have hread {r : Region} {o : Nat} (hl : m.locate? addr width.size = some (r, o)) :
      m.read width addr =
        .ok (LittleEndian.decode ((m.segment r).bytes.read o width.size)) := by
    have hb := (m.load_eq_ok_iff addr width.size _).mpr ⟨r, o, hl, rfl⟩
    rw [read, hb]
    rfl
  have hset (r : Region) (o : Nat) :=
    LittleEndian.setWidth_decode ((m.segment r).bytes.length_read o width.size)
  constructor
  · intro h
    cases hl : m.locate? addr width.size with
    | none =>
      rw [read, load, hl] at h
      cases h
    | some place =>
      obtain ⟨r, o⟩ := place
      rw [hread hl] at h
      cases h
      exact ⟨_, holds_decode hl h8, (hset r o).symm⟩
  · rintro ⟨v, hv, hvalue⟩
    obtain ⟨r, o, hl⟩ := (mapped_iff width.size_pos).mp (mapped_of_holds hv)
    obtain rfl := holds_unique hv (holds_decode hl h8)
    rw [hset r o] at hvalue
    rw [hread hl, UInt64.toBitVec_inj.mp hvalue]

theorem read_of_holds {width : Width} (hc : count = width.size) {v : BitVec (8 * count)}
    (h : Rv64.Holds m.bytes addr.toBitVec v) :
    m.read width addr = .ok (.ofBitVec (v.setWidth 64)) := by
  subst hc
  exact (read_eq_ok_iff ..).mpr ⟨v, h, rfl⟩

theorem holds_of_read {width : Width} {value : UInt64} (hc : count = width.size)
    (h : m.read width addr = .ok value) :
    ∃ v : BitVec (8 * count), Rv64.Holds m.bytes addr.toBitVec v := by
  subst hc
  obtain ⟨v, hv, -⟩ := (read_eq_ok_iff ..).mp h
  exact ⟨v, hv⟩

theorem readWord_eq_ok_iff_holds {word : UInt32} :
    m.readWord addr = .ok word ↔
      Rv64.Holds (n := 4) m.bytes addr.toBitVec word.toBitVec := by
  constructor
  · intro h
    cases hr : m.read .word addr with
    | error e =>
      rw [readWord, hr] at h
      cases h
    | ok value =>
      rw [readWord, hr] at h
      cases h
      obtain ⟨v, hv, hvalue⟩ := (read_eq_ok_iff ..).mp hr
      rw [UInt64.toBitVec_toUInt32, hvalue, BitVec.setWidth_setWidth_of_le _ (by decide)]
      exact (BitVec.setWidth_eq v).symm ▸ hv
  · intro h
    have hr : m.read .word addr = _ := read_of_holds rfl h
    rw [readWord, hr]
    refine congrArg Except.ok (UInt32.toBitVec_inj.mp ?_)
    rw [UInt64.toBitVec_toUInt32]
    exact (BitVec.setWidth_setWidth_of_le _ (by decide)).trans (BitVec.setWidth_eq _)

/-- A write succeeds where all bytes are mapped. -/
theorem exists_write_iff (width : Width) (value : UInt64) :
    (∃ m', m.write width addr value = .ok m') ↔
      Rv64.Mapped m.bytes addr.toBitVec width.size := by
  rw [mapped_iff width.size_pos]
  unfold write
  simp only [store_eq_ok_iff, LittleEndian.length_encode]
  constructor
  · rintro ⟨_, r, o, hl, -⟩
    exact ⟨r, o, hl⟩
  · rintro ⟨r, o, hl⟩
    exact ⟨_, r, o, hl, rfl⟩

/-- A write changes its bytes and no others. -/
theorem bytes_of_write {m' : Memory} {width : Width} {value : UInt64}
    (h : m.write width addr value = .ok m') :
    m'.bytes = Rv64.overwrite m.bytes addr.toBitVec width.size value.toBitVec := by
  have hlen := LittleEndian.length_encode width.size value
  funext b
  unfold Rv64.overwrite
  split
  next hin =>
    obtain ⟨r, o, hl, rfl⟩ := (m.store_eq_ok_iff m' addr _).mp h
    have hle := ((m.locate?_eq_some_iff ..).mp hl).2.2.trans (m.size_le r)
    have hb : b = addr.toBitVec + BitVec.ofNat 64 (b - addr.toBitVec).toNat := by
      rw [BitVec.ofNat_toNat, BitVec.setWidth_eq, BitVec.add_comm, BitVec.sub_add_cancel]
    rw [hlen] at hl
    have hl' : (m.overwrite r o (LittleEndian.encode width.size value)).locate? addr width.size =
        some (r, o) := by
      rw [locate?_overwrite, hl]
    conv_lhs => rw [hb]
    rw [bytes_of_locate? hl' hin, segment_overwrite_self,
      Pages.get_write _ _ _ hle (by omega), if_pos (by omega), Nat.add_sub_cancel_left,
      List.getD_eq_getElem?_getD, LittleEndian.getElem?_encode _ _ hin]
    rfl
  next hout =>
    have hapart : Apart addr (LittleEndian.encode width.size value).length (.ofBitVec b) 1 := by
      have hb := b.isLt
      have ha := addr.toNat_lt
      have hsub : (b - addr.toBitVec).toNat = (2 ^ 64 - addr.toNat + b.toNat) % 2 ^ 64 :=
        BitVec.toNat_sub ..
      have hbn : (UInt64.ofBitVec b).toNat = b.toNat := rfl
      unfold Apart
      rw [hlen, hbn]
      omega
    exact congrArg _ (byte?_store_of_apart h hapart)

/-- Nothing is mapped right behind a region. -/
theorem bytes_end (ha : addr.toNat = m.base r + m.size r) : m.bytes addr.toBitVec = none := by
  have hs := m.stackSize_le
  simp only [segmentSize] at hs
  cases hb : m.byte? addr with
  | none =>
    rw [bytes_toBitVec, hb]
    rfl
  | some b =>
    obtain ⟨r', o', ha', ho', -⟩ := (m.byte?_eq_some_iff addr b).mp hb
    cases r <;> cases r' <;>
      simp only [base, size, dataBase, textBase, stackTop, segmentSize] at ha ha' ho' <;> omega

theorem not_spells_of_unmapped {mem : Rv64.Bytes} {a : BitVec 64} (h : mem a = none)
    (bytes : List (BitVec 8)) : ¬Rv64.Spells mem a bytes := by
  cases bytes with
  | nil => simp [Rv64.Spells, h]
  | cons b rest => simp [Rv64.Spells, h]

theorem untilZero_eq_some_iff (ha : addr.toNat = m.base r + o) (ho : o + count = m.size r)
    (before bytes : List UInt8) :
    (m.segment r).untilZero before count o = some bytes ↔
      ∃ rest, bytes = before.reverse ++ rest ∧
        Rv64.Spells m.bytes addr.toBitVec (rest.map UInt8.toBitVec) := by
  induction count generalizing addr o before with
  | zero =>
    have hn : m.bytes addr.toBitVec = none := bytes_end (r := r) (by omega)
    simp [Segment.untilZero, not_spells_of_unmapped hn]
  | succ count ih =>
    have hend := m.end_lt r
    have hbyte := bytes_eq ha (by omega)
    have hnext : (addr + 1).toNat = m.base r + (o + 1) := by
      have hadd : (addr + 1).toNat = addr.toNat + 1 := toNat_add_ofNat (k := 1) (by omega)
      omega
    rw [Segment.untilZero]
    split
    next h0 =>
      rw [h0] at hbyte
      constructor
      · intro h
        cases h
        exact ⟨[], (List.append_nil _).symm, hbyte⟩
      · rintro ⟨rest, rfl, hs⟩
        cases rest with
        | nil => rw [List.append_nil]
        | cons b rest =>
          obtain ⟨hb, hne, -⟩ := hs
          rw [hbyte] at hb
          exact absurd (Option.some.inj hb).symm hne
    next h0 =>
      rw [ih hnext (by omega)]
      constructor
      · rintro ⟨rest, rfl, hs⟩
        refine ⟨(m.segment r).bytes.get o :: rest, by simp, hbyte, ?_, hs⟩
        exact fun hz => h0 (UInt8.toBitVec_inj.mp hz)
      · rintro ⟨rest, rfl, hs⟩
        cases rest with
        | nil =>
          have hz := Option.some.inj (hbyte.symm.trans hs)
          exact absurd (UInt8.toBitVec_inj.mp hz) h0
        | cons b rest =>
          obtain ⟨hb, -, hs⟩ := hs
          obtain rfl := UInt8.toBitVec_inj.mp (Option.some.inj (hbyte.symm.trans hb))
          exact ⟨rest, by simp, hs⟩

/-- A string is read just if a zero ends it, and then it is what comes before. -/
theorem cString_eq_ok_iff (bytes : List UInt8) :
    m.cString addr = .ok bytes ↔
      Rv64.Spells m.bytes addr.toBitVec (bytes.map UInt8.toBitVec) := by
  unfold cString
  cases hl : m.locate? addr 1 with
  | none =>
    have hn : m.bytes addr.toBitVec = none := by
      rw [bytes_toBitVec, byte?, hl]
      rfl
    simp [not_spells_of_unmapped hn]
  | some place =>
    obtain ⟨r, o⟩ := place
    obtain ⟨ha, ho⟩ := (m.locate?_eq_some_iff_of_pos Nat.one_pos r o).mp hl
    have hz := untilZero_eq_some_iff ha (Nat.add_sub_cancel' (Nat.le_of_succ_le ho)) [] bytes
    simp only [List.reverse_nil, List.nil_append, exists_eq_left'] at hz
    rw [← hz]
    dsimp only
    cases (m.segment r).untilZero [] (m.size r - o) o <;> simp

end Memory

end RiscvToolkit
