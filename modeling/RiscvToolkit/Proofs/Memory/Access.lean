import RiscvToolkit.Memory.Basic
import RiscvToolkit.Proofs.Memory.Pages
import RiscvToolkit.Proofs.Word

/-! Accesses to memory. What a store does to loads, and updates of separate places, which commute. -/
namespace RiscvToolkit
open Memory

namespace Memory

theorem size_le (m : Memory) (r : Region) : m.size r ≤ 64 * Pages.pageCount 16 := by
  cases r with
  | data => exact (by decide : segmentSize ≤ 64 * Pages.pageCount 16)
  | text => exact (by decide : segmentSize ≤ 64 * Pages.pageCount 16)
  | stack => exact m.stackSize_le

theorem holds_iff (m : Memory) (r : Region) (addr : UInt64) :
    m.holds r addr = true ↔ m.base r ≤ addr.toNat ∧ addr.toNat < m.base r + m.size r := by
  simp [holds]

theorem eq_of_holds {m : Memory} {r r' : Region} {addr : UInt64} (h : m.holds r addr = true)
    (h' : m.holds r' addr = true) : r = r' := by
  rw [holds_iff] at h h'
  have hs := m.stackSize_le
  simp only [segmentSize] at hs
  cases r <;> cases r' <;> first | rfl | skip
  all_goals
    simp only [base, size, dataBase, textBase, stackTop, segmentSize] at h h'
    omega

theorem region?_eq_some_iff (m : Memory) (addr : UInt64) (r : Region) :
    m.region? addr = some r ↔ m.holds r addr = true := by
  unfold region?
  constructor
  · intro h
    split_ifs at h with hd ht hs
    · exact Option.some.inj h ▸ hd
    · exact Option.some.inj h ▸ ht
    · exact Option.some.inj h ▸ hs
  · intro h
    split_ifs with hd ht hs
    · rw [eq_of_holds hd h]
    · rw [eq_of_holds ht h]
    · rw [eq_of_holds hs h]
    · cases r <;> contradiction

theorem locate?_eq_some_iff (m : Memory) (addr : UInt64) (count : Nat) (r : Region) (o : Nat) :
    m.locate? addr count = some (r, o) ↔
      m.holds r addr = true ∧ addr.toNat = m.base r + o ∧ o + count ≤ m.size r := by
  unfold locate?
  rw [Option.bind_eq_some_iff]
  constructor
  · rintro ⟨r', hr, h⟩
    rw [region?_eq_some_iff] at hr
    dsimp only at h
    split_ifs at h with hc
    obtain ⟨rfl, rfl⟩ := Prod.mk.inj (Option.some.inj h)
    have hb := (m.holds_iff _ addr).mp hr
    exact ⟨hr, by omega, hc⟩
  · rintro ⟨hr, ha, hc⟩
    refine ⟨r, (m.region?_eq_some_iff addr r).mpr hr, ?_⟩
    have ho : addr.toNat - m.base r = o := by omega
    rw [ho, if_pos hc]

@[simp] theorem base_overwrite (m : Memory) (r r' : Region) (o : Nat) (bytes : List UInt8) :
    (m.overwrite r o bytes).base r' = m.base r' := by
  cases r <;> rfl

@[simp] theorem size_overwrite (m : Memory) (r r' : Region) (o : Nat) (bytes : List UInt8) :
    (m.overwrite r o bytes).size r' = m.size r' := by
  cases r <;> rfl

@[simp] theorem locate?_overwrite (m : Memory) (r : Region) (o : Nat) (bytes : List UInt8)
    (addr : UInt64) (count : Nat) :
    (m.overwrite r o bytes).locate? addr count = m.locate? addr count := by
  simp only [locate?, region?, holds, base_overwrite, size_overwrite]
  rfl

@[simp] theorem segment_overwrite_self (m : Memory) (r : Region) (o : Nat) (bytes : List UInt8) :
    (m.overwrite r o bytes).segment r =
      ⟨(m.segment r).bytes.write o bytes,
        max (m.segment r).mark (m.reach r o bytes.length)⟩ := by
  cases r <;> rfl

theorem segment_overwrite_of_ne (m : Memory) {r r' : Region} (h : r ≠ r') (o : Nat)
    (bytes : List UInt8) : (m.overwrite r o bytes).segment r' = m.segment r' := by
  cases r <;> cases r' <;> first | rfl | contradiction

theorem overwrite_comm (m : Memory) {r r' : Region} {o o' : Nat} (xs ys : List UInt8)
    (hx : o + xs.length ≤ m.size r) (hy : o' + ys.length ≤ m.size r')
    (h : r = r' → o + xs.length ≤ o' ∨ o' + ys.length ≤ o) :
    (m.overwrite r o xs).overwrite r' o' ys = (m.overwrite r' o' ys).overwrite r o xs := by
  have hsx := hx.trans (m.size_le r)
  have hsy := hy.trans (m.size_le r')
  cases r <;> cases r' <;> first | rfl | skip
  all_goals
    simp only [overwrite, reach]
    rw [Pages.write_comm _ xs ys hsx hsy (h rfl), max_right_comm]

/-- Two byte ranges without a common address. -/
def Apart (a : UInt64) (n : Nat) (b : UInt64) (k : Nat) : Prop :=
  a.toNat + n ≤ b.toNat ∨ b.toNat + k ≤ a.toNat

theorem Apart.symm {a b : UInt64} {n k : Nat} (h : Apart a n b k) : Apart b k a n :=
  Or.symm h

theorem Apart.offsets {m : Memory} {a b : UInt64} {n k o o' : Nat} {r : Region}
    (h : Apart a n b k) (ha : m.locate? a n = some (r, o)) (hb : m.locate? b k = some (r, o')) :
    o + n ≤ o' ∨ o' + k ≤ o := by
  rw [locate?_eq_some_iff] at ha hb
  unfold Apart at h
  omega

theorem load_eq_ok_iff (m : Memory) (addr : UInt64) (count : Nat) (bytes : List UInt8) :
    m.load addr count = .ok bytes ↔
      ∃ r o, m.locate? addr count = some (r, o) ∧
        (m.segment r).bytes.read o count = bytes := by
  unfold load
  cases h : m.locate? addr count with
  | none => simp
  | some place =>
    obtain ⟨r, o⟩ := place
    simp [and_assoc]

theorem store_eq_ok_iff (m m' : Memory) (addr : UInt64) (bytes : List UInt8) :
    m.store addr bytes = .ok m' ↔
      ∃ r o, m.locate? addr bytes.length = some (r, o) ∧ m.overwrite r o bytes = m' := by
  unfold store
  cases h : m.locate? addr bytes.length with
  | none => simp
  | some place =>
    obtain ⟨r, o⟩ := place
    simp [and_assoc]

theorem locate?_of_store {m m' : Memory} {addr : UInt64} {bytes : List UInt8}
    (h : m.store addr bytes = .ok m') (a : UInt64) (count : Nat) :
    m'.locate? a count = m.locate? a count := by
  obtain ⟨r, o, hl, rfl⟩ := (m.store_eq_ok_iff m' addr bytes).mp h
  exact m.locate?_overwrite r o bytes a count

theorem load_store_self {m m' : Memory} {addr : UInt64} {bytes : List UInt8}
    (h : m.store addr bytes = .ok m') : m'.load addr bytes.length = .ok bytes := by
  obtain ⟨r, o, hl, rfl⟩ := (m.store_eq_ok_iff m' addr bytes).mp h
  have hle := ((m.locate?_eq_some_iff addr bytes.length r o).mp hl).2.2.trans (m.size_le r)
  rw [load_eq_ok_iff]
  refine ⟨r, o, by rw [locate?_overwrite, hl], ?_⟩
  rw [segment_overwrite_self, Pages.read_write_self _ _ _ hle]

theorem load_store_of_apart {m m' : Memory} {addr : UInt64} {bytes : List UInt8}
    (h : m.store addr bytes = .ok m') {a : UInt64} {count : Nat}
    (ha : Apart addr bytes.length a count) : m'.load a count = m.load a count := by
  obtain ⟨r, o, hl, rfl⟩ := (m.store_eq_ok_iff m' addr bytes).mp h
  unfold load
  rw [locate?_overwrite]
  cases hb : m.locate? a count with
  | none => rfl
  | some place =>
    obtain ⟨r', o'⟩ := place
    have hle := ((m.locate?_eq_some_iff addr bytes.length r o).mp hl).2.2.trans (m.size_le r)
    have hle' := ((m.locate?_eq_some_iff a count r' o').mp hb).2.2.trans (m.size_le r')
    dsimp only
    by_cases hr : r = r'
    · subst hr
      rw [segment_overwrite_self, Pages.read_write_of_disjoint _ _ hle hle' (ha.offsets hl hb)]
    · rw [segment_overwrite_of_ne m hr]

theorem byte?_eq_load (m : Memory) (addr : UInt64) :
    m.byte? addr = (m.load addr 1).toOption.bind List.head? := by
  unfold byte? load
  cases m.locate? addr 1 with
  | none => rfl
  | some place => simp [Pages.read_eq, Except.toOption]

theorem byte?_store_of_apart {m m' : Memory} {addr : UInt64} {bytes : List UInt8}
    (h : m.store addr bytes = .ok m') {a : UInt64} (ha : Apart addr bytes.length a 1) :
    m'.byte? a = m.byte? a := by
  rw [byte?_eq_load, byte?_eq_load, load_store_of_apart h ha]

theorem readWord_eq_ok_iff (m : Memory) (addr : UInt64) (word : UInt32) :
    m.readWord addr = .ok word ↔
      ∃ bytes, m.load addr 4 = .ok bytes ∧ (LittleEndian.decode bytes).toUInt32 = word := by
  unfold readWord read
  rw [Width.size]
  cases m.load addr 4 with
  | error e => simp [Except.map]
  | ok bytes => simp [Except.map]

theorem readWord_writeWord {m m' : Memory} {addr : UInt64} {word : UInt32}
    (h : m.writeWord addr word = .ok m') : m'.readWord addr = .ok word := by
  have hl := load_store_self h
  rw [LittleEndian.length_encode] at hl
  exact (m'.readWord_eq_ok_iff addr word).mpr ⟨_, hl, LittleEndian.decode_encode_word word⟩

theorem exists_writeWord {m : Memory} {addr : UInt64} {old : UInt32}
    (h : m.readWord addr = .ok old) (word : UInt32) : ∃ m', m.writeWord addr word = .ok m' := by
  obtain ⟨bytes, hl, -⟩ := (m.readWord_eq_ok_iff addr old).mp h
  obtain ⟨r, o, hr, -⟩ := (m.load_eq_ok_iff addr 4 bytes).mp hl
  refine ⟨_, (m.store_eq_ok_iff _ addr _).mpr ⟨r, o, ?_, rfl⟩⟩
  rw [LittleEndian.length_encode]
  exact hr

theorem byte?_writeWord_of_apart {m m' : Memory} {addr : UInt64} {word : UInt32}
    (h : m.writeWord addr word = .ok m') {a : UInt64} (ha : Apart addr 4 a 1) :
    m'.byte? a = m.byte? a :=
  byte?_store_of_apart h (by rwa [LittleEndian.length_encode])

/-- Replaces the `count` bytes at an address by what `f` makes of them. -/
def update (m : Memory) (addr : UInt64) (count : Nat) (f : List UInt8 → Option (List UInt8)) :
    Option Memory :=
  (m.locate? addr count).bind fun place =>
    (f ((m.segment place.1).bytes.read place.2 count)).map (m.overwrite place.1 place.2)

theorem update_of_locate? {m : Memory} {addr : UInt64} {count : Nat} {r : Region} {o : Nat}
    (h : m.locate? addr count = some (r, o)) (f : List UInt8 → Option (List UInt8)) :
    m.update addr count f =
      (f ((m.segment r).bytes.read o count)).map (m.overwrite r o) := by
  unfold update
  rw [h, Option.bind_some]

theorem update_of_not_located {m : Memory} {addr : UInt64} {count : Nat}
    (h : m.locate? addr count = none) (f : List UInt8 → Option (List UInt8)) :
    m.update addr count f = none := by
  unfold update
  rw [h, Option.bind_none]

theorem toOption_store (m : Memory) (addr : UInt64) (bytes : List UInt8) :
    (m.store addr bytes).toOption = m.update addr bytes.length fun _ => some bytes := by
  unfold store update
  cases m.locate? addr bytes.length with
  | none => rfl
  | some place => rfl

theorem update_eq_some_iff (m m' : Memory) (addr : UInt64) (count : Nat)
    (f : List UInt8 → Option (List UInt8)) (hf : ∀ old new, f old = some new → new.length = count) :
    m.update addr count f = some m' ↔
      ∃ old new, m.load addr count = .ok old ∧ f old = some new ∧ m.store addr new = .ok m' := by
  constructor
  · intro h
    obtain ⟨⟨r, o⟩, hl, h⟩ := Option.bind_eq_some_iff.mp h
    obtain ⟨new, hn, rfl⟩ := Option.map_eq_some_iff.mp h
    refine ⟨_, new, (m.load_eq_ok_iff addr count _).mpr ⟨r, o, hl, rfl⟩, hn, ?_⟩
    rw [store_eq_ok_iff, hf _ _ hn]
    exact ⟨r, o, hl, rfl⟩
  · rintro ⟨old, new, hold, hn, hs⟩
    obtain ⟨r, o, hl, rfl⟩ := (m.load_eq_ok_iff addr count old).mp hold
    obtain ⟨r', o', hl', rfl⟩ := (m.store_eq_ok_iff m' addr new).mp hs
    rw [hf _ _ hn, hl] at hl'
    obtain ⟨rfl, rfl⟩ := Prod.mk.inj (Option.some.inj hl')
    rw [update_of_locate? hl, hn, Option.map_some]

private theorem update_update {m : Memory} {a b : UInt64} {n k : Nat}
    {f g : List UInt8 → Option (List UInt8)} {r r' : Region} {o o' : Nat}
    (hf : ∀ old new, f old = some new → new.length = n)
    (hab : Apart a n b k) (ha : m.locate? a n = some (r, o)) (hb : m.locate? b k = some (r', o')) :
    (m.update a n f).bind (·.update b k g) =
      (f ((m.segment r).bytes.read o n)).bind fun xs =>
        (g ((m.segment r').bytes.read o' k)).map fun ys =>
          (m.overwrite r o xs).overwrite r' o' ys := by
  rw [update_of_locate? ha]
  cases hx : f ((m.segment r).bytes.read o n) with
  | none => rfl
  | some xs =>
    have hlen := hf _ _ hx
    have hs : m.store a xs = .ok (m.overwrite r o xs) :=
      (m.store_eq_ok_iff _ a xs).mpr ⟨r, o, hlen ▸ ha, rfl⟩
    have hb' : (m.overwrite r o xs).locate? b k = some (r', o') := by rw [locate?_overwrite, hb]
    have hld := load_store_of_apart hs (hlen ▸ hab : Apart a xs.length b k)
    unfold load at hld
    rw [hb', hb] at hld
    rw [Option.map_some, Option.bind_some, Option.bind_some, update_of_locate? hb',
      Except.ok.inj hld]

private theorem update_not_located {m : Memory} {a b : UInt64} {n k : Nat}
    {f g : List UInt8 → Option (List UInt8)}
    (hg : ∀ old new, g old = some new → new.length = k) (ha : m.locate? a n = none) :
    (m.update b k g).bind (·.update a n f) = none := by
  apply Option.bind_eq_none_iff.mpr
  intro m' h
  obtain ⟨old, new, -, -, hs⟩ := (m.update_eq_some_iff m' b k g hg).mp h
  exact update_of_not_located (by rw [locate?_of_store hs, ha]) f

/-- Updates of separate places may change places, also where one of them fails. -/
theorem update_comm (m : Memory) {a b : UInt64} {n k : Nat}
    {f g : List UInt8 → Option (List UInt8)}
    (hf : ∀ old new, f old = some new → new.length = n)
    (hg : ∀ old new, g old = some new → new.length = k) (hab : Apart a n b k) :
    (m.update a n f).bind (·.update b k g) = (m.update b k g).bind (·.update a n f) := by
  cases ha : m.locate? a n with
  | none =>
    rw [update_of_not_located ha f, Option.bind_none, update_not_located hg ha]
  | some place =>
    cases hb : m.locate? b k with
    | none =>
      rw [update_of_not_located hb g, Option.bind_none, update_not_located hf hb]
    | some place' =>
      obtain ⟨r, o⟩ := place
      obtain ⟨r', o'⟩ := place'
      rw [update_update hf hab ha hb, update_update hg hab.symm hb ha]
      cases hx : f ((m.segment r).bytes.read o n) with
      | none => cases g ((m.segment r').bytes.read o' k) <;> rfl
      | some xs =>
        cases hy : g ((m.segment r').bytes.read o' k) with
        | none => rfl
        | some ys =>
          have hlx := hf _ _ hx
          have hly := hg _ _ hy
          have hpa := ((m.locate?_eq_some_iff a n _ _).mp ha).2.2
          have hpb := ((m.locate?_eq_some_iff b k _ _).mp hb).2.2
          have hoff : r = r' → o + xs.length ≤ o' ∨ o' + ys.length ≤ o := by
            rintro rfl
            rw [hlx, hly]
            exact hab.offsets ha hb
          simp only [Option.bind_some, Option.map_some]
          rw [overwrite_comm m xs ys (hlx ▸ hpa) (hly ▸ hpb) hoff]

end Memory

end RiscvToolkit
