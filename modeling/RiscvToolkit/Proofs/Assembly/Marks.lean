import RiscvToolkit.Proofs.Assembly.Written
import RiscvToolkit.Proofs.Memory.ByteMap

/-! Marks of an image. Placing raises the mark of a segment to what is taken, but for room at its end that a
relocation fills later; nothing is written to the stack. -/
namespace RiscvToolkit.Assembly

/-- The region of a segment. -/
def Place.region : Place → Region
  | .text => .text
  | .data => .data

/-- Where bytes go that lie in a segment, or at its end if there are none. -/
theorem located_region {m : Memory} {place : Place} {address : UInt32} {count : Nat} {r : Region}
    {o : Nat} (h : m.locate? address.toUInt64 count = some (r, o))
    (hb : place.base ≤ address.toNat)
    (he : address.toNat + count ≤ place.base + segmentSize) :
    r = place.region ∧ o = address.toNat - place.base := by
  obtain ⟨hr, ha, -⟩ := (m.locate?_eq_some_iff ..).mp h
  have hr := (m.holds_iff ..).mp hr
  have hs := m.stackSize_le
  rw [UInt32.toNat_toUInt64] at ha hr
  cases place <;> cases r <;>
    simp only [Place.region, Place.base, Memory.base, Memory.size, textBase, dataBase, stackTop,
      segmentSize, reduceCtorEq, false_and, true_and] at hb he ha hr hs ⊢ <;> omega

theorem mark_store {m m' : Memory} {place : Place} {address : UInt32} {bytes : List UInt8}
    (h : m.store address.toUInt64 bytes = .ok m') (hb : place.base ≤ address.toNat)
    (he : address.toNat + bytes.length ≤ place.base + segmentSize) (r : Region) :
    m'.mark r =
      if place.region = r then max (m.mark r) (address.toNat - place.base + bytes.length)
      else m.mark r := by
  obtain ⟨_, _, hl, rfl⟩ := (m.store_eq_ok_iff m' _ bytes).mp h
  obtain ⟨rfl, rfl⟩ := located_region hl hb he
  have hreach (o count : Nat) : m.reach place.region o count = o + count := by
    cases place <;> rfl
  rw [Memory.mark_overwrite]
  split
  next hr => rw [← hr, hreach]
  next => rfl

namespace Image

/-- True of an image with marks at what is taken, or before it where one of the relocations ends there. -/
structure Marked (i : Image) (rs : List Relocation) : Prop where
  stack : i.memory.mark .stack = 0
  le (place : Place) : i.memory.mark place.region ≤ i.used place
  reached (place : Place) : i.memory.mark place.region = i.used place ∨
    ∃ r ∈ rs, place.base ≤ r.address.toNat ∧
      r.address.toNat + r.kind.size = place.base + i.used place

variable {i i' : Image} {rs ss : List Relocation}

theorem Marked.mono (h : i.Marked rs) (hs : rs ⊆ ss) : i.Marked ss where
  stack := h.stack
  le := h.le
  reached place := by
    obtain hm | ⟨r, hr, he⟩ := h.reached place
    · exact .inl hm
    · exact .inr ⟨r, hs hr, he⟩

theorem marked_empty (stackSize : Nat) : (empty stackSize).Marked [] := by
  have hmark (r : Region) : (empty stackSize).memory.mark r = 0 := by
    unfold empty Memory.withStack
    dsimp only
    split <;> cases r <;> rfl
  refine ⟨hmark .stack, fun place => ?_, fun place => .inl ?_⟩
  · rw [hmark]
    exact Nat.zero_le _
  · rw [hmark]
    cases place <;> rfl

theorem Marked.put {place : Place} {bytes : List UInt8} (hi : i.Marked rs)
    (h : i.put place bytes = .ok i') : i'.Marked rs := by
  obtain ⟨hs, hst, hu⟩ := (i.put_eq_ok_iff i' place bytes).mp h
  have hc := i.toNat_cursor place
  have hmark (r : Region) : i'.memory.mark r =
      if place.region = r then
        max (i.memory.mark r) ((i.cursor place).toNat - place.base + bytes.length)
      else i.memory.mark r := mark_store hst (by omega) (by omega) r
  have hle := hi.le
  refine ⟨?_, fun p => ?_, fun p => ?_⟩
  · rw [hmark, if_neg (by cases place <;> nofun)]
    exact hi.stack
  · have := hle p
    rw [hmark, hu p]
    by_cases hp : p = place
    · subst hp
      rw [if_pos rfl, if_pos rfl]
      omega
    · rw [if_neg (by cases p <;> cases place <;> first | contradiction | nofun), if_neg hp]
      omega
  · by_cases hp : p = place
    · subst hp
      have := hle p
      refine .inl ?_
      rw [hmark, hu p, if_pos rfl, if_pos rfl]
      omega
    · have hm : i'.memory.mark p.region = i.memory.mark p.region := by
        rw [hmark, if_neg (by cases p <;> cases place <;> first | contradiction | nofun)]
      have hu : i'.used p = i.used p := by rw [hu p, if_neg hp, Nat.add_zero]
      rw [hm, hu]
      exact hi.reached p

theorem Marked.putWords {place : Place} {words : List Emission} (hi : i.Marked rs)
    (h : Image.putWords place words i = .ok i') : i'.Marked rs := by
  induction words generalizing i with
  | nil =>
    cases h
    exact hi
  | cons e rest ih =>
    unfold Image.putWords at h
    obtain ⟨j, hp, h⟩ := bind_eq_ok_iff.mp h
    exact ih (hi.put hp) h

/-- Room that is taken without a write ends where its relocation does. -/
theorem Marked.reserve {place : Place} {r : Relocation} (hi : i.Marked rs)
    (h : i.reserve place r.kind.size = .ok i') (ha : r.address = i.cursor place) :
    i'.Marked (rs ++ [r]) := by
  obtain ⟨hs, hm, hu⟩ := (i.reserve_eq_ok_iff i' place r.kind.size).mp h
  have hc := i.toNat_cursor place
  have hi := hi.mono (List.subset_append_left rs [r])
  refine ⟨hm ▸ hi.stack, fun p => ?_, fun p => ?_⟩
  · have := hi.le p
    rw [hm, hu p]
    omega
  · by_cases hp : p = place
    · subst hp
      refine .inr ⟨r, List.mem_append_right rs (List.mem_singleton_self r), ?_, ?_⟩
      · rw [ha]
        omega
      · rw [ha, hu p, if_pos rfl]
        omega
    · have hu : i'.used p = i.used p := by rw [hu p, if_neg hp, Nat.add_zero]
      rw [hm, hu]
      exact hi.reached p

end Image

theorem Piece.marked_put {p : Piece} {place : Place} {i i' : Image} {rs : List Relocation}
    (hi : i.Marked rs) (location : Location) (h : p.put place i = .ok i') :
    i'.Marked (rs ++ p.relocations location (i.cursor place)) := by
  cases p with
  | code words => exact (hi.putWords h).mono (List.subset_append_left _ _)
  | datum stored =>
    cases stored with
    | bytes bytes => exact (hi.put h).mono (List.subset_append_left _ _)
    | address width label =>
      have hr : i.reserve place (relocationOf width).size = .ok i' := by
        rw [size_relocationOf]
        exact h
      exact hi.reserve (r := ⟨_, label, relocationOf width, location⟩) hr rfl

theorem Script.marked_lay {x : Script} {i : Image} {l : Layout} (h : x.lay i = some l)
    {rs : List Relocation} (hi : i.Marked rs) : l.image.Marked (rs ++ l.outline.relocations) := by
  induction h using lay_induction generalizing rs with
  | done mode i =>
    rw [Outline.relocations, List.append_nil]
    exact hi
  | label place name rest i l _ ih => exact ih hi
  | globals names line rest i l _ ih => exact ih hi
  | piece place location p rest i j l hp _ ih =>
    rw [Outline.relocations, ← List.append_assoc]
    exact ih (Piece.marked_put hi location hp)
  | expansion call body rest i b l _ _ ihb ihr =>
    rw [Outline.relocations, ← List.append_assoc]
    exact ihr (ihb hi)

theorem Linkage.marked_layAll {catalog : Catalog} {files : List Source.File} {i j : Image}
    {os : List Outline} (h : layAll catalog files i = some (os, j)) {rs : List Relocation}
    (hi : i.Marked rs) : j.Marked (rs ++ os.flatMap Outline.relocations) := by
  induction h using layAll_induction generalizing rs with
  | nil i =>
    rw [List.flatMap_nil, List.append_nil]
    exact hi
  | cons file files i j y os hy _ ih =>
    rw [List.flatMap_cons, ← List.append_assoc]
    exact ih (Script.marked_lay hy hi)

namespace Patch

theorem mark_apply {p : Patch} {m m' : Memory} {place : Place} (h : p.apply m = some m')
    (hb : place.base ≤ p.relocation.address.toNat)
    (he : p.relocation.address.toNat + p.relocation.kind.size ≤ place.base + segmentSize)
    (r : Region) :
    m'.mark r =
      if place.region = r then
        max (m.mark r) (p.relocation.address.toNat - place.base + p.relocation.kind.size)
      else m.mark r := by
  obtain ⟨old, new, -, hn, hs⟩ := (p.apply_eq_some_iff m m').mp h
  have hlen := RelocationKind.length_fill hn
  rw [mark_store hs hb (hlen ▸ he), hlen]

/-- A patch takes its relocation off those that the marks wait for. -/
theorem marked_apply {p : Patch} {i : Image} {m : Memory} {rs : List Relocation}
    (h : p.apply i.memory = some m) (hi : i.Marked (p.relocation :: rs))
    (hin : i.Inside p.relocation.address p.relocation.kind.size) :
    ({ i with memory := m } : Image).Marked rs := by
  obtain ⟨place, hb, he⟩ := hin
  have hused := i.used_le place
  have hmark := mark_apply h hb (by omega)
  refine ⟨?_, fun q => ?_, fun q => ?_⟩
  · rw [hmark, if_neg (by cases place <;> nofun)]
    exact hi.stack
  · have hle := hi.le q
    rw [Image.used_memory, hmark]
    split
    next hq =>
      obtain rfl : place = q := by cases place <;> cases q <;> first | rfl | cases hq
      omega
    next => exact hle
  · have hle := hi.le q
    rw [Image.used_memory, hmark]
    obtain hm | ⟨r, hr, hrb, hre⟩ := hi.reached q
    · refine .inl ?_
      split
      next hq =>
        obtain rfl : place = q := by cases place <;> cases q <;> first | rfl | cases hq
        omega
      next => exact hm
    · obtain rfl | hr := List.mem_cons.mp hr
      · have hq := i.used_le q
        have hsize := p.relocation.kind.size_pos
        obtain rfl : place = q := by
          cases place <;> cases q <;> first | rfl | skip
          all_goals
            simp only [Place.base, textBase, dataBase, segmentSize] at hb he hrb hre hused hq
            omega
        refine .inl ?_
        rw [if_pos rfl]
        omega
      · exact .inr ⟨r, hr, hrb, hre⟩

/-- Once the relocations are patched, what is taken is marked. -/
theorem marked_applyAll {ps : List Patch} {i : Image} {m : Memory}
    (h : applyAll ps i.memory = some m) (hi : i.Marked (ps.map (·.relocation)))
    (hin : ∀ p ∈ ps, i.Inside p.relocation.address p.relocation.kind.size) :
    ({ i with memory := m } : Image).Marked [] := by
  induction ps generalizing i with
  | nil =>
    cases h
    exact hi
  | cons p rest ih =>
    obtain ⟨m₁, h₁, h₂⟩ := Option.bind_eq_some_iff.mp h
    have hi₁ := marked_apply h₁ hi (hin p List.mem_cons_self)
    exact ih (i := { i with memory := m₁ }) h₂ hi₁ fun q hq =>
      (hin q (List.mem_cons_of_mem p hq)).mono fun place => (i.used_memory m₁ place).ge

end Patch

/-- Where every label is found, every relocation is patched. -/
theorem map_relocation_patchesOf {os : List Outline} (h : ∀ c ∈ choicesOf os, c.2.isSome) :
    (patchesOf os).map (·.relocation) = os.flatMap Outline.relocations := by
  rw [← map_fst_choicesOf, patchesOf, List.map_filterMap, ← List.filterMap_eq_map]
  refine List.filterMap_congr fun c hc => ?_
  obtain ⟨target, ht⟩ := Option.isSome_iff_exists.mp (h c hc)
  dsimp only
  rw [ht]
  rfl

/-- What is behind a mark is zero. -/
theorem byte?_of_not_covered {m : Memory} (hm : m.Marked) {r : Region} {a : UInt64}
    (ha : a ∈ m.range r) (hc : ¬m.Covers r (a.toNat - m.base r)) : m.byte? a = some 0 := by
  obtain ⟨hlo, hhi⟩ := ha
  have ho : a.toNat - m.base r < m.size r := by omega
  exact (m.byte?_eq_some_iff a 0).mpr ⟨r, _, by omega, ho, hm.zero r _ ho hc⟩

/-- True of a program whose memory has its marks at the lengths of the segments, zeros behind them, and an
unused stack. -/
structure Exact (p : Program) : Prop where
  text : p.memory.mark .text = p.textSize
  data : p.memory.mark .data = p.dataSize
  stack : p.memory.mark .stack = 0
  zero_text : ∀ a ∈ p.memory.range .text, textBase + p.textSize ≤ a.toNat → p.memory.byte? a = some 0
  zero_data : ∀ a ∈ p.memory.range .data, dataBase + p.dataSize ≤ a.toNat → p.memory.byte? a = some 0
  zero_stack : ∀ a ∈ p.memory.range .stack, p.memory.byte? a = some 0

theorem exact_assemble {catalog : Catalog} {stackSize : Nat} {files : List Source.File} {p : Program}
    (h : assemble catalog stackSize files = .ok p) : Exact p := by
  obtain ⟨os, laid, hlay, hl⟩ := (assemble_eq_ok_iff catalog stackSize files p).mp h
  have hx := Linkage.extension_layAll hlay
  have hmade := map_relocation_patchesOf hl.chosen
  have hi := Linkage.marked_layAll hlay (Image.marked_empty stackSize)
  rw [List.nil_append, ← hmade] at hi
  have hp := Patch.marked_applyAll hl.memory hi fun q hq =>
    hx.inside _ (hmade ▸ List.mem_map_of_mem hq)
  have hmark (place : Place) : p.memory.mark place.region = laid.used place := by
    obtain hm | ⟨r, hr, -⟩ := hp.reached place
    · exact hm.trans (laid.used_memory _ place)
    · exact nomatch hr
  have ht : p.memory.mark .text = p.textSize := (hmark .text).trans hl.textSize.symm
  have hd : p.memory.mark .data = p.dataSize := (hmark .data).trans hl.dataSize.symm
  have hm := (reachable_assemble h).marked
  refine ⟨ht, hd, hp.stack, fun a ha hle => ?_, fun a ha hle => ?_, fun a ha => ?_⟩
  · refine byte?_of_not_covered hm ha ?_
    unfold Memory.Covers
    simp only [ht, Memory.reach, Memory.base]
    omega
  · refine byte?_of_not_covered hm ha ?_
    unfold Memory.Covers
    simp only [hd, Memory.reach, Memory.base]
    omega
  · have hstack : p.memory.mark .stack = 0 := hp.stack
    refine byte?_of_not_covered hm ha ?_
    obtain ⟨hlo, hhi⟩ := ha
    unfold Memory.Covers
    simp only [hstack, Memory.reach, Memory.base, Memory.size] at hlo hhi ⊢
    omega

end RiscvToolkit.Assembly
