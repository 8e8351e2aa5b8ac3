import RiscvToolkit.Proofs.Assembly.Patching

/-! The image under construction. Pieces go to the free part of a segment, patches to the part that is taken,
so that patching and placing may change places. -/
namespace RiscvToolkit.Assembly
open Memory (Apart)

theorem Place.base_add_lt (place : Place) : place.base + segmentSize < 2 ^ 32 := by
  cases place <;> decide

/-- Bytes that begin in a segment and do not go beyond its end lie in one region of every memory. -/
theorem Place.exists_locate (place : Place) (m : Memory) (addr : UInt64) (count : Nat)
    (hb : place.base ≤ addr.toNat) (hlt : addr.toNat < place.base + segmentSize)
    (hs : addr.toNat + count ≤ place.base + segmentSize) :
    ∃ r, m.locate? addr count = some (r, addr.toNat - place.base) := by
  have hr : ∃ r, m.base r = place.base ∧ m.size r = segmentSize := by
    cases place with
    | text => exact ⟨.text, rfl, rfl⟩
    | data => exact ⟨.data, rfl, rfl⟩
  obtain ⟨r, hbase, hsize⟩ := hr
  refine ⟨r, ?_⟩
  rw [Memory.locate?_eq_some_iff, Memory.holds_iff, hbase, hsize]
  omega

namespace Image

theorem ext_used {i j : Image} (hm : i.memory = j.memory) (hu : ∀ place, i.used place = j.used place) :
    i = j := by
  have ht := hu .text
  have hd := hu .data
  cases i
  cases j
  simp only [used] at hm ht hd
  subst hm ht hd
  rfl

theorem used_le (i : Image) (place : Place) : i.used place ≤ segmentSize := by
  cases place with
  | text => exact i.textSize_le
  | data => exact i.dataSize_le

theorem toNat_cursor (i : Image) (place : Place) :
    (i.cursor place).toNat = place.base + i.used place := by
  have := i.used_le place
  have := place.base_add_lt
  exact UInt32.toNat_ofNat_of_lt' (by simp only [UInt32.size]; omega)

@[simp] theorem used_memory (i : Image) (m : Memory) (place : Place) :
    ({ i with memory := m } : Image).used place = i.used place := by
  cases place <;> rfl

@[simp] theorem cursor_memory (i : Image) (m : Memory) (place : Place) :
    ({ i with memory := m } : Image).cursor place = i.cursor place := by
  unfold cursor
  rw [used_memory]

theorem reserve_eq_ok_iff (i i' : Image) (place : Place) (size : Nat) :
    i.reserve place size = .ok i' ↔
      i.used place + size ≤ segmentSize ∧ i'.memory = i.memory ∧
        ∀ p, i'.used p = i.used p + if p = place then size else 0 := by
  unfold reserve
  constructor
  · intro h
    split_ifs at h with hs
    cases place <;> cases h <;> exact ⟨hs, rfl, fun p => by cases p <;> rfl⟩
  · rintro ⟨hs, hm, hu⟩
    rw [dif_pos hs]
    cases place with
    | text => exact congrArg Except.ok (ext_used hm.symm fun p => by rw [hu p]; cases p <;> rfl)
    | data => exact congrArg Except.ok (ext_used hm.symm fun p => by rw [hu p]; cases p <;> rfl)

theorem put_eq_ok_iff (i i' : Image) (place : Place) (bytes : List UInt8) :
    i.put place bytes = .ok i' ↔
      i.used place + bytes.length ≤ segmentSize ∧
        i.memory.store (i.cursor place).toUInt64 bytes = .ok i'.memory ∧
        ∀ p, i'.used p = i.used p + if p = place then bytes.length else 0 := by
  unfold put
  constructor
  · intro h
    cases hr : i.reserve place bytes.length with
    | error e =>
      rw [hr] at h
      cases h
    | ok j =>
      obtain ⟨hs, hm, hu⟩ := (i.reserve_eq_ok_iff j place bytes.length).mp hr
      rw [hr, ok_bind, hm] at h
      cases hst : i.memory.store (i.cursor place).toUInt64 bytes with
      | error e =>
        rw [hst] at h
        cases h
      | ok m =>
        rw [hst] at h
        cases h
        exact ⟨hs, rfl, fun p => by rw [used_memory, hu p]⟩
  · rintro ⟨hs, hst, hu⟩
    have hr : i.reserve place bytes.length = .ok { i' with memory := i.memory } :=
      (i.reserve_eq_ok_iff _ place bytes.length).mpr
        ⟨hs, rfl, fun p => by rw [used_memory, hu p]⟩
    rw [hr, ok_bind]
    dsimp only
    rw [hst]

theorem error_of_reserve {i : Image} {place : Place} {size : Nat} {kind : ErrorKind}
    (h : i.reserve place size = .error kind) : kind = .segmentOverflow place := by
  unfold reserve at h
  split_ifs at h
  · cases place <;> cases h
  · cases h
    rfl

theorem error_of_put {i : Image} {place : Place} {bytes : List UInt8} {kind : ErrorKind}
    (h : i.put place bytes = .error kind) : kind = .segmentOverflow place := by
  unfold put at h
  cases hr : i.reserve place bytes.length with
  | error error =>
    rw [hr] at h
    cases h
    exact error_of_reserve hr
  | ok j =>
    rw [hr, ok_bind] at h
    split at h <;> cases h
    rfl

theorem error_of_putWords {place : Place} {words : List Emission} {i : Image} {kind : ErrorKind}
    (h : putWords place words i = .error kind) : kind = .segmentOverflow place := by
  induction words generalizing i with
  | nil => cases h
  | cons e rest ih =>
    unfold putWords at h
    cases hp : i.putWord place e.word with
    | error error =>
      rw [hp] at h
      cases h
      exact error_of_put hp
    | ok j =>
      rw [hp, ok_bind] at h
      exact ih h

/-- True of addresses whose bytes are taken. -/
def Inside (i : Image) (address : UInt32) (count : Nat) : Prop :=
  ∃ place : Place, place.base ≤ address.toNat ∧
    address.toNat + count ≤ place.base + i.used place

/-- True of addresses whose bytes are free. -/
def Outside (i : Image) (address : UInt32) (count : Nat) : Prop :=
  ∃ place : Place, place.base + i.used place ≤ address.toNat ∧
    address.toNat + count ≤ place.base + segmentSize

theorem Inside.mono {i j : Image} (h : ∀ place, i.used place ≤ j.used place) {address : UInt32}
    {count : Nat} (hi : i.Inside address count) : j.Inside address count := by
  obtain ⟨place, hb, hu⟩ := hi
  have := h place
  exact ⟨place, hb, by omega⟩

theorem Outside.mono {i j : Image} (h : ∀ place, i.used place ≤ j.used place) {address : UInt32}
    {count : Nat} (hj : j.Outside address count) : i.Outside address count := by
  obtain ⟨place, hu, hs⟩ := hj
  have := h place
  exact ⟨place, by omega, hs⟩

theorem Inside.apart {i : Image} {a b : UInt32} {n k : Nat} (ha : i.Inside a n)
    (hb : i.Outside b k) : Apart a.toUInt64 n b.toUInt64 k := by
  obtain ⟨p, hap, hau⟩ := ha
  obtain ⟨q, hbq, hbs⟩ := hb
  have := i.used_le p
  unfold Apart
  rw [UInt32.toNat_toUInt64, UInt32.toNat_toUInt64]
  cases p <;> cases q <;>
    simp only [Place.base, textBase, dataBase, segmentSize] at * <;> omega

theorem outside_cursor {i : Image} {place : Place} {count : Nat}
    (h : i.used place + count ≤ segmentSize) : i.Outside (i.cursor place) count :=
  ⟨place, by rw [toNat_cursor], by rw [toNat_cursor]; omega⟩

/-- The image with patches applied to it. -/
def patched (ps : List Patch) (i : Image) : Option Image :=
  (Patch.applyAll ps i.memory).map fun m => { i with memory := m }

theorem patched_eq_some_iff (ps : List Patch) (i i' : Image) :
    i.patched ps = some i' ↔
      Patch.applyAll ps i.memory = some i'.memory ∧ ∀ place, i'.used place = i.used place := by
  unfold patched
  rw [Option.map_eq_some_iff]
  constructor
  · rintro ⟨m, hm, rfl⟩
    exact ⟨hm, fun place => i.used_memory m place⟩
  · rintro ⟨hm, hu⟩
    exact ⟨_, hm, ext_used rfl fun place => by rw [used_memory, hu place]⟩

theorem patched_append (ps qs : List Patch) (i : Image) :
    i.patched (ps ++ qs) = (i.patched ps).bind (patched qs) := by
  unfold patched
  rw [Patch.applyAll_append, Option.bind_map, Option.map_bind]
  rfl

theorem cursor_of_patched {ps : List Patch} {i i' : Image} (h : i.patched ps = some i')
    (place : Place) : i'.cursor place = i.cursor place := by
  obtain ⟨-, hu⟩ := (patched_eq_some_iff ps i i').mp h
  unfold cursor
  rw [hu place]

/-- Patches of what is taken and the placing of bytes may change places. -/
theorem put_patched {i : Image} {place : Place} {bytes : List UInt8} {ps : List Patch}
    (h : ∀ p ∈ ps, i.Inside p.relocation.address p.relocation.kind.size) :
    ((i.patched ps).bind fun j => (j.put place bytes).toOption) =
      (i.put place bytes).toOption.bind (patched ps) := by
  have hc (hs : i.used place + bytes.length ≤ segmentSize) :=
    Patch.applyAll_store_comm (fun p hp => (h p hp).apart (outside_cursor hs)) i.memory
  apply Option.ext
  intro x
  simp only [Option.bind_eq_some_iff, toOption_eq_some_iff, put_eq_ok_iff, patched_eq_some_iff]
  constructor
  · rintro ⟨j, ⟨hj, huj⟩, hs, hst, hu⟩
    have hcur : j.cursor place = i.cursor place :=
      cursor_of_patched ((patched_eq_some_iff ps i j).mpr ⟨hj, huj⟩) place
    rw [huj place] at hs
    rw [hcur] at hst
    have hx := hc hs
    rw [hj, Option.bind_some, hst, toOption_ok, eq_comm, Option.bind_eq_some_iff] at hx
    obtain ⟨m, hm, hx⟩ := hx
    refine ⟨{ x with memory := m }, ⟨hs, (toOption_eq_some_iff _ _).mp hm, fun p => ?_⟩, hx,
      fun p => (used_memory x m p).symm⟩
    rw [used_memory, hu p, huj p]
  · rintro ⟨i', ⟨hs, hst, hu⟩, hm, hx⟩
    have hc := hc hs
    rw [hst, toOption_ok, Option.bind_some, hm, Option.bind_eq_some_iff] at hc
    obtain ⟨m, hm, hst'⟩ := hc
    have hj : i.patched ps = some { i with memory := m } :=
      (patched_eq_some_iff _ _ _).mpr ⟨hm, fun p => used_memory i m p⟩
    refine ⟨_, (patched_eq_some_iff _ _ _).mp hj, ?_, ?_, fun p => ?_⟩
    · rwa [used_memory]
    · rw [cursor_memory]
      exact (toOption_eq_some_iff _ _).mp hst'
    · rw [hx p, hu p, used_memory i m p]

theorem reserve_patched {i : Image} {place : Place} {size : Nat} {ps : List Patch} :
    ((i.patched ps).bind fun j => (j.reserve place size).toOption) =
      (i.reserve place size).toOption.bind (patched ps) := by
  apply Option.ext
  intro x
  simp only [Option.bind_eq_some_iff, toOption_eq_some_iff, reserve_eq_ok_iff,
    patched_eq_some_iff]
  constructor
  · rintro ⟨j, ⟨hj, huj⟩, hs, hx, hu⟩
    refine ⟨{ x with memory := i.memory }, ⟨huj place ▸ hs, rfl, fun p => ?_⟩, ?_,
      fun p => (used_memory x i.memory p).symm⟩
    · rw [used_memory, hu p, huj p]
    · rw [hx]
      exact hj
  · rintro ⟨i', ⟨hs, hm, hu⟩, hx, hux⟩
    refine ⟨{ i with memory := x.memory }, ⟨hm ▸ hx, fun p => used_memory i _ p⟩, ?_, rfl,
      fun p => ?_⟩
    · rwa [used_memory]
    · rw [hux p, hu p, used_memory i x.memory p]

/-- What placing makes of an image: it takes more room, keeps the bytes that were taken before, and
records relocations of separate places in the new room. -/
structure Extension (i i' : Image) (rs : List Relocation) : Prop where
  grows : ∀ place, i.used place ≤ i'.used place
  keeps : ∀ address count, i.Inside address count →
    i'.memory.load address.toUInt64 count = i.memory.load address.toUInt64 count
  outside : ∀ r ∈ rs, i.Outside r.address r.kind.size
  inside : ∀ r ∈ rs, i'.Inside r.address r.kind.size
  separate : rs.Pairwise Relocation.Separate

theorem Extension.refl (i : Image) : Extension i i [] where
  grows _ := Nat.le_refl _
  keeps _ _ _ := rfl
  outside _ h := nomatch h
  inside _ h := nomatch h
  separate := List.Pairwise.nil

theorem Extension.trans {i j k : Image} {rs ss : List Relocation} (h : Extension i j rs)
    (h' : Extension j k ss) : Extension i k (rs ++ ss) where
  grows place := (h.grows place).trans (h'.grows place)
  keeps a n hi := (h'.keeps a n (hi.mono h.grows)).trans (h.keeps a n hi)
  outside r hr := by
    rcases List.mem_append.mp hr with hr | hr
    · exact h.outside r hr
    · exact (h'.outside r hr).mono h.grows
  inside r hr := by
    rcases List.mem_append.mp hr with hr | hr
    · exact (h.inside r hr).mono h'.grows
    · exact h'.inside r hr
  separate := List.pairwise_append.mpr
    ⟨h.separate, h'.separate, fun r hr s hs => (h.inside r hr).apart (h'.outside s hs)⟩

theorem Extension.of_room {i i' : Image} {place : Place} {size : Nat} (r? : Option Relocation)
    (hs : i.used place + size ≤ segmentSize)
    (hu : ∀ p, i'.used p = i.used p + if p = place then size else 0)
    (hk : ∀ a n, i.Inside a n → i'.memory.load a.toUInt64 n = i.memory.load a.toUInt64 n)
    (hr : ∀ r ∈ r?, r.address = i.cursor place ∧ r.kind.size = size) :
    Extension i i' r?.toList where
  grows p := by rw [hu p]; exact Nat.le_add_right _ _
  keeps := hk
  outside r h := by
    obtain ⟨ha, hz⟩ := hr r (Option.mem_toList.mp h)
    rw [ha, hz]
    exact outside_cursor hs
  inside r h := by
    obtain ⟨ha, hz⟩ := hr r (Option.mem_toList.mp h)
    rw [ha, hz]
    refine ⟨place, ?_, ?_⟩
    · rw [toNat_cursor]
      omega
    · rw [toNat_cursor, hu place, if_pos rfl]
      omega
  separate := by cases r? <;> simp

theorem extension_of_put {i i' : Image} {place : Place} {bytes : List UInt8}
    (r? : Option Relocation) (h : i.put place bytes = .ok i')
    (hr : ∀ r ∈ r?, r.address = i.cursor place ∧ r.kind.size = bytes.length) :
    Extension i i' r?.toList := by
  obtain ⟨hs, hst, hu⟩ := (i.put_eq_ok_iff i' place bytes).mp h
  exact .of_room r? hs hu (fun a n ha => Memory.load_store_of_apart hst
    ((ha.apart (outside_cursor hs)).symm)) hr

theorem cursor_put {i i' : Image} {place : Place} {bytes : List UInt8}
    (h : i.put place bytes = .ok i') :
    i'.cursor place = i.cursor place + UInt32.ofNat bytes.length := by
  obtain ⟨hs, -, hu⟩ := (i.put_eq_ok_iff i' place bytes).mp h
  have hc := i.toNat_cursor place
  have hc' := i'.toNat_cursor place
  have := place.base_add_lt
  rw [hu place, if_pos rfl] at hc'
  apply UInt32.toNat_inj.mp
  rw [UInt32.toNat_add, UInt32.toNat_ofNat']
  omega

end Image

theorem size_relocationOf (width : Width) : (relocationOf width).size = width.size := by
  cases width <;> rfl

namespace Piece
open Image (Extension)

private theorem extension_putWords {location : Location} {place : Place}
    {words : List Emission} {i i' : Image} (h : Image.putWords place words i = .ok i') :
    Extension i i' (linksFrom location (i.cursor place) words) := by
  induction words generalizing i with
  | nil =>
    cases h
    exact .refl _
  | cons e rest ih =>
    unfold Image.putWords at h
    obtain ⟨j, hp, h⟩ := bind_eq_ok_iff.mp h
    have hc : j.cursor place = i.cursor place + 4 := by
      rw [Image.cursor_put hp, LittleEndian.length_encode]
      rfl
    unfold linksFrom
    rw [← hc]
    refine (Image.extension_of_put _ hp fun r hr => ?_).trans (ih h)
    obtain ⟨link, -, rfl⟩ := Option.map_eq_some_iff.mp hr
    rw [RelocationKind.size_of_ofWord link.ofWord, LittleEndian.length_encode]
    exact ⟨rfl, rfl⟩

private theorem extension_address {location : Location} {place : Place} {width : Width}
    {label : String} {i i' : Image} (h : i.reserve place width.size = .ok i') :
    Extension i i' [⟨i.cursor place, label, relocationOf width, location⟩] := by
  obtain ⟨hs, hm, hu⟩ := (i.reserve_eq_ok_iff i' place width.size).mp h
  refine Extension.of_room (some _) hs hu (fun a n _ => by rw [hm]) ?_
  rintro _ ⟨⟩
  exact ⟨rfl, size_relocationOf width⟩

/-- A piece that is placed extends the image by its relocations. -/
theorem extension_put {p : Piece} (location : Location) {place : Place} {i i' : Image}
    (h : p.put place i = .ok i') :
    Extension i i' (p.relocations location (i.cursor place)) := by
  cases p with
  | code words => exact extension_putWords h
  | datum stored =>
    cases stored with
    | bytes bytes => exact Image.extension_of_put none h (fun _ hr => nomatch hr)
    | address width label =>
      exact extension_address h

private theorem putWords_patched {place : Place} {words : List Emission} {i : Image}
    {ps : List Patch} (h : ∀ p ∈ ps, i.Inside p.relocation.address p.relocation.kind.size) :
    ((i.patched ps).bind fun j => (Image.putWords place words j).toOption) =
      (Image.putWords place words i).toOption.bind (Image.patched ps) := by
  induction words generalizing i with
  | nil =>
    exact Option.bind_fun_some _
  | cons e rest ih =>
    simp only [Image.putWords, toOption_bind]
    calc ((i.patched ps).bind fun j =>
          (j.putWord place e.word).toOption.bind fun j => (Image.putWords place rest j).toOption)
        = ((i.putWord place e.word).toOption.bind (Image.patched ps)).bind fun j =>
            (Image.putWords place rest j).toOption := by
          rw [← Option.bind_assoc]
          exact congrArg (Option.bind · _) (Image.put_patched h)
      _ = ((i.putWord place e.word).toOption.bind fun j =>
            (Image.putWords place rest j).toOption).bind (Image.patched ps) := by
          rw [Option.bind_assoc, Option.bind_assoc]
          refine Option.bind_congr fun j hj => ih fun p hp => ?_
          rw [toOption_eq_some_iff] at hj
          exact (h p hp).mono (Image.extension_of_put none hj (fun _ hr => nomatch hr)).grows

/-- A piece is only refused for want of room. -/
theorem error_of_put {p : Piece} {place : Place} {i : Image} {kind : ErrorKind}
    (h : p.put place i = .error kind) : kind = .segmentOverflow place := by
  cases p with
  | code words => exact Image.error_of_putWords h
  | datum stored =>
    cases stored with
    | bytes bytes => exact Image.error_of_put h
    | address width label => exact Image.error_of_reserve h

/-- Patches of what is taken and the placing of a piece may change places. -/
theorem put_patched {p : Piece} {place : Place} {i : Image} {ps : List Patch}
    (h : ∀ p ∈ ps, i.Inside p.relocation.address p.relocation.kind.size) :
    ((i.patched ps).bind fun j => (p.put place j).toOption) =
      (p.put place i).toOption.bind (Image.patched ps) := by
  cases p with
  | code words => exact putWords_patched h
  | datum stored =>
    cases stored with
    | bytes bytes => exact Image.put_patched h
    | address width label => exact Image.reserve_patched

end Piece

end RiscvToolkit.Assembly
