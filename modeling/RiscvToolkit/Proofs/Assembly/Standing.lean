import RiscvToolkit.Proofs.Assembly.Tidy
import RiscvToolkit.Proofs.Assembly.Transfer
import RiscvToolkit.Proofs.Assembly.Visits

/-! Where things stand. At every point of an assembly the text segment is made of whole words, labels have addresses of
a segment or the one behind it, and relocations wait in the part of a segment that is taken. What an assembly fails with
is then wrong with the text, or with a label, or there is no room for an item, or a transfer cannot be encoded. -/
namespace RiscvToolkit.Assembly

/-- True of the addresses of a segment, and of the one behind it. -/
def Place.Spans (place : Place) (address : UInt32) : Prop :=
  place.base ≤ address.toNat ∧ address.toNat ≤ place.base + segmentSize

/-- True of any address in data, and of those of words in text. -/
def Sited (address : UInt32) : Prop :=
  Place.data.Spans address ∨ Place.text.Spans address ∧ 4 ∣ address.toNat

theorem Image.spans_cursor (i : Image) (place : Place) : place.Spans (i.cursor place) := by
  have := i.used_le place
  unfold Place.Spans
  rw [toNat_cursor]
  omega

theorem Image.dvd_cursor {i : Image} (h : 4 ∣ i.used .text) : 4 ∣ (i.cursor .text).toNat := by
  rw [toNat_cursor]
  exact Nat.dvd_add (by decide) h

theorem Image.sited_cursor {i : Image} (h : 4 ∣ i.used .text) (place : Place) :
    Sited (i.cursor place) := by
  cases place with
  | data => exact .inl (i.spans_cursor .data)
  | text => exact .inr ⟨i.spans_cursor .text, dvd_cursor h⟩

theorem sited_of_lookup {labels : Symbols} (h : ∀ named ∈ labels, Sited named.2) {name : String}
    {address : UInt32} (hl : labels.lookup name = some address) : Sited address := by
  obtain ⟨before, behind, rfl, -⟩ := List.lookup_eq_some_iff.mp hl
  exact h (_, address) (List.mem_append_right _ List.mem_cons_self)

/-- True of a relocation in the taken part of an image, at a word if it is in text. -/
def Relocation.Waits (r : Relocation) (i : Image) : Prop :=
  i.Inside r.address r.kind.size ∧ Sited r.address

theorem Relocation.Waits.mono {r : Relocation} {i j : Image} (h : r.Waits i)
    (hu : ∀ place, i.used place ≤ j.used place) : r.Waits j :=
  ⟨h.1.mono hu, h.2⟩

theorem Piece.address_of_part {p : Piece} (hp : p.parts = [p]) {location : Location}
    {address : UInt32} {r : Relocation} (hr : r ∈ p.relocations location address) :
    r.address = address := by
  cases p with
  | datum stored =>
    cases stored with
    | bytes bytes => cases hr
    | address width label =>
      cases List.mem_singleton.mp hr
      rfl
  | code words =>
    have hlen : words.length = 1 := by simpa [Piece.parts] using congrArg List.length hp
    obtain ⟨e, rfl⟩ := List.length_eq_one_iff.mp hlen
    simp only [Piece.relocations, linksFrom, List.append_nil, Option.mem_toList] at hr
    obtain ⟨link, -, rfl⟩ := Option.map_eq_some_iff.mp hr
    rfl

/-! ### States -/

/-- Text is made of words, labels stand in segments, and relocations wait in what is taken. -/
structure State.Orderly (s : State) : Prop where
  text : 4 ∣ s.image.used .text
  labels : ∀ named ∈ s.labels, Sited named.2
  relocations : ∀ r ∈ s.relocations.toList, r.Waits s.image

namespace State.Orderly
variable {s s' : State}

theorem start {i : Image} (h : 4 ∣ i.used .text) : (State.start i).Orderly where
  text := h
  labels _ h := nomatch h
  relocations _ h := nomatch h

theorem define (h : s.Orderly) (place : Place) (name : String) : (s.define place name).Orderly where
  text := h.text
  labels := List.forall_mem_cons.mpr ⟨Image.sited_cursor h.text place, h.labels⟩
  relocations := h.relocations

theorem enter (h : s.Orderly) : { s with labels := [], relocations := #[] : State }.Orderly where
  text := h.text
  labels _ h := nomatch h
  relocations _ h := nomatch h

theorem withMode (h : s.Orderly) (mode : Mode) : { s with toMode := mode }.Orderly :=
  ⟨h.text, h.labels, h.relocations⟩

/-- A word or an item keeps order, if it is a word where it goes to text. -/
theorem add (h : s.Orderly) {place : Place} {location : Location} {p : Piece}
    (hp : p.parts = [p]) (ht : place = .text → ∃ words, p = .code words)
    (hs : s.add place location p = .ok s') : s'.Orderly := by
  have hused := State.used_add hs .text
  obtain ⟨image, hput, rfl⟩ := State.exists_of_add hs
  have hext := Piece.extension_put location hput
  refine ⟨?_, h.labels, ?_⟩
  · rw [hused]
    refine Nat.dvd_add h.text ?_
    split_ifs with hplace
    · obtain ⟨words, rfl⟩ := ht hplace.symm
      exact Nat.dvd_mul_right 4 words.length
    · exact Nat.dvd_zero 4
  · intro r hr
    rw [Array.toList_appendList, List.mem_append] at hr
    rcases hr with hr | hr
    · exact (h.relocations r hr).mono hext.grows
    · refine ⟨hext.inside r hr, ?_⟩
      rw [Piece.address_of_part hp hr]
      exact Image.sited_cursor h.text place

/-- Closing a scope keeps order. -/
theorem leave (h : s.Orderly) {inner : State} (hi : inner.Orderly)
    (hu : ∀ place, s.image.used place ≤ inner.image.used place) (memory : Memory) :
    { s with
      image := { inner.image with memory }
      globals := inner.globals
      relocations := s.relocations ++ unsettled inner.labels inner.relocations.toList :
        State }.Orderly where
  text := hi.text
  labels := h.labels
  relocations r hr := by
    rw [Array.toList_appendList, List.mem_append] at hr
    rcases hr with hr | hr
    · exact (h.relocations r hr).mono fun place => (Image.used_memory _ _ place).symm ▸ hu place
    · exact (hi.relocations r (List.mem_filter.mp hr).1).mono fun place =>
        (Image.used_memory _ _ place).ge

end State.Orderly

namespace Script

/-- Wherever a tidy script comes to, order has been kept. -/
theorem Comes.orderly {x y : Script} {s t : State} {ps : List (Place × Piece)}
    (h : x.Comes s ps y t) (hx : x.Tidy) (hs : s.Orderly) : t.Orderly ∧ y.Tidy := by
  induction x using word_induction generalizing s ps y t with
  | done mode | failed error =>
    cases h
    exact ⟨hs, hx⟩
  | label place name rest ih =>
    cases h with
    | here => exact ⟨hs, hx⟩
    | label h => exact ih h hx (hs.define place name)
  | globals names line rest ih =>
    cases h with
    | here => exact ⟨hs, hx⟩
    | globals h => exact ih h hx ⟨hs.text, hs.labels, hs.relocations⟩
  | words place location rest ih =>
    cases h with
    | here => exact ⟨hs, hx⟩
    | words h => exact ih h hx.2 hs
  | word place location e words rest ih =>
    cases h with
    | here => exact ⟨hs, hx⟩
    | word ha h => exact ih h ⟨fun _ => ⟨words, rfl⟩, hx.2⟩ (hs.add rfl (fun _ => ⟨[e], rfl⟩) ha)
  | datum place location stored rest ih =>
    cases h with
    | here => exact ⟨hs, hx⟩
    | datum ha h => exact ih h hx.2 (hs.add rfl hx.1 ha)
  | expansion call body rest ihb ihr =>
    cases h with
    | here => exact ⟨hs, hx⟩
    | body h => exact ihb h hx.1 hs.enter
    | rest ha h =>
      obtain ⟨inner, memory, hinner, rfl⟩ := exists_of_inScope ha
      have hu (place : Place) : s.image.used place ≤ inner.image.used place :=
        (used_run hinner place).symm ▸ Nat.le_add_right _ _
      obtain ⟨mode, u, hc, rfl⟩ := comes_of_run hinner
      exact ihr h hx.2 (hs.leave ((ihb hc hx.1 hs.enter).1.withMode mode) hu memory)

theorem orderly_run {x : Script} {s s' : State} (h : x.run s = .ok s') (hx : x.Tidy)
    (hs : s.Orderly) : s'.Orderly := by
  obtain ⟨mode, t, hc, rfl⟩ := comes_of_run h
  exact (hc.orderly hx hs).1.withMode mode

end Script

/-! ### Files -/

/-- The same of what files leave to those behind them and to the link. -/
structure Linkage.Orderly (l : Linkage) : Prop where
  text : 4 ∣ l.image.used .text
  globals : ∀ named ∈ l.globals, Sited named.2
  deferred : ∀ r ∈ l.deferred.toList, r.Waits l.image

section
variable {catalog : Catalog} {stackSize : Nat} {file : Source.File} {files : List Source.File}
variable {l l' : Linkage}

theorem Linkage.Orderly.add (h : l.Orderly) (ha : l.add catalog file = .ok l') : l'.Orderly := by
  obtain ⟨s, memory, hs, rfl⟩ := exists_of_add ha
  have ho := Script.orderly_run hs (Script.tidy_ofFile catalog file) (.start h.text)
  have hu (place : Place) : l.image.used place ≤ s.image.used place :=
    (Script.used_run hs place).symm ▸ Nat.le_add_right _ _
  rw [exports_eq]
  refine ⟨ho.text, ?_, ?_⟩
  · intro named hn
    rcases List.mem_append.mp hn with hn | hn
    · obtain ⟨d, -, hd⟩ := List.mem_filterMap.mp (List.mem_reverse.mp hn)
      obtain ⟨address, hl, rfl⟩ := Option.map_eq_some_iff.mp hd
      exact sited_of_lookup ho.labels hl
    · exact h.globals named hn
  · intro r hr
    rw [Array.toList_appendList, List.mem_append] at hr
    rcases hr with hr | hr
    · exact (h.deferred r hr).mono fun place => (Image.used_memory _ _ place).symm ▸ hu place
    · exact (ho.relocations r (List.mem_filter.mp hr).1).mono fun place =>
        (Image.used_memory _ _ place).ge

theorem Linkage.Orderly.addAll (h : l.Orderly) (ha : l.addAll catalog files = .ok l') :
    l'.Orderly := by
  induction files generalizing l with
  | nil =>
    cases ha
    exact h
  | cons file rest ih =>
    simp only [Linkage.addAll] at ha
    obtain ⟨l₁, hf, ha⟩ := bind_eq_ok_iff.mp ha
    exact ih (h.add hf) ha

theorem Linkage.Orderly.start (stackSize : Nat) :
    Linkage.Orderly ⟨.empty stackSize, [], #[], #[]⟩ where
  text := Nat.dvd_zero 4
  globals _ h := nomatch h
  deferred _ h := nomatch h

theorem Visits.orderly {ps : List (Place × Piece)} {y : Script} {t : State}
    (h : Visits catalog stackSize files ps y t) : t.Orderly ∧ y.Tidy := by
  cases h with
  | intro hl h =>
    exact h.orderly (Script.tidy_ofFile catalog _) (.start ((Linkage.Orderly.start stackSize).addAll hl).text)

/-! ### Errors -/

/-- `Settles catalog stackSize files r target`: an assembly puts the address `target` of a label into the place that waits
for it, at the end of the block that binds the label or in the link. -/
inductive Settles (catalog : Catalog) (stackSize : Nat) (files : List Source.File) :
    Relocation → UInt32 → Prop
  | block {ps mode t r target} (h : Visits catalog stackSize files ps (.done mode) t)
    (hr : r ∈ t.relocations.toList) (hl : t.labels.lookup r.label = some target) :
    Settles catalog stackSize files r target
  | link {l r target} (h : Linkage.addAll catalog files ⟨.empty stackSize, [], #[], #[]⟩ = .ok l)
    (hr : r ∈ l.deferred.toList) (hl : l.globals.lookup r.label = some target) :
    Settles catalog stackSize files r target

theorem Settles.sited {r : Relocation} {target : UInt32}
    (h : Settles catalog stackSize files r target) : Sited target ∧ ∃ i, r.Waits i := by
  cases h with
  | block h hr hl =>
    obtain ⟨ho, -⟩ := h.orderly
    exact ⟨sited_of_lookup ho.labels hl, _, ho.relocations r hr⟩
  | link h hr hl =>
    have ho := (Linkage.Orderly.start stackSize).addAll h
    exact ⟨sited_of_lookup ho.globals hl, _, ho.deferred r hr⟩

/-- What an assembly may fail with, and where. -/
inductive Cause (catalog : Catalog) (stackSize : Nat) (files : List Source.File) :
    ErrorKind → Location → Prop
  | early {kind location} (h : kind.Early) : Cause catalog stackSize files kind location
  | unresolved {name location} : Cause catalog stackSize files (.unresolvedLabel name) location
  /-- An item finds no room. -/
  | item {ps y t place location p kind} (h : Visits catalog stackSize files ps y t)
    (hy : y.item? = some (place, location, p)) (hp : t.add place location p = .error kind) :
    Cause catalog stackSize files kind location
  /-- A label does not fit where it is put. -/
  | patch {r target m kind} (h : Settles catalog stackSize files r target)
    (hk : r.kind.apply m r.address target = .error kind) :
    Cause catalog stackSize files kind r.location

theorem exists_cause {kind : ErrorKind} {location : Location}
    (h : FailsAt (assemble catalog stackSize files) kind location) :
    Cause catalog stackSize files kind location := by
  rcases failsAt_assemble.mp h with ⟨ps, y, t, hv, hy⟩ | ⟨l, hl, hlink⟩
  · cases hy with
    | failed => exact .early hv.orderly.2
    | item hy hp => exact .item hv hy hp
    | patches h =>
      obtain ⟨trace, h⟩ := h
      obtain ⟨-, r, hr, rfl, target, m, hl, hk⟩ := exists_of_resolve_error h
      exact .patch (.block hv hr hl) hk
  · obtain ⟨trace, hlink⟩ := hlink
    unfold Linkage.link at hlink
    split at hlink
    next =>
      cases hlink
      exact .unresolved
    next =>
      cases hres : resolve l.globals l.image.memory #[] l.deferred.toList with
      | error error =>
        rw [hres] at hlink
        cases hlink
        obtain ⟨-, r, hr, rfl, target, m, hg, hk⟩ := exists_of_resolve_error hres
        exact .patch (.link hl hr hg) hk
      | ok resolved =>
        rw [hres, ok_bind] at hlink
        dsimp only at hlink
        split at hlink
        · cases hlink
          exact .unresolved
        · cases hlink

end

/-- A relocation of a place that is taken fails only if a transfer cannot reach its target. -/
theorem RelocationKind.error_of_apply {kind : RelocationKind} {m : Memory}
    {address target : UInt32} {error : ErrorKind} {i : Image}
    (hi : i.Inside address kind.size) (h : kind.apply m address target = .error error) :
    ∃ t : Transfer, kind = t.kind ∧
      error = t.unreachable (Transfer.distance address target) := by
  obtain ⟨place, hb, hu⟩ := hi
  have hused := i.used_le place
  have hpos := kind.size_pos
  rw [← UInt32.toNat_toUInt64] at hb hu
  obtain ⟨r, hl⟩ := place.exists_locate m _ _ hb (by omega) (hu.trans (by omega))
  have hfill : (∃ t : Transfer, kind = t.kind) ∨
      ∀ old, (kind.fill address target old).isSome := by
    cases kind with
    | branch => exact .inl ⟨.branch, rfl⟩
    | jump => exact .inl ⟨.jump, rfl⟩
    | _ => exact .inr fun _ => rfl
  rcases hfill with ⟨t, rfl⟩ | hfill
  · rw [size_of_ofWord t.dataWidth?_kind] at hl
    have hw : ∃ word, m.readWord address.toUInt64 = .ok word := by
      unfold Memory.readWord Memory.read Memory.load
      rw [Width.size, hl]
      exact ⟨_, rfl⟩
    obtain ⟨word, hw⟩ := hw
    obtain ⟨m', -, happly⟩ := t.apply_kind target hw
    rw [happly] at h
    split_ifs at h
    cases h
    exact ⟨t, rfl, rfl⟩
  · have ho := kind.toOption_apply m address target
    obtain ⟨new, hn⟩ := Option.isSome_iff_exists.mp (hfill _)
    rw [h, Memory.update_of_locate? hl, hn] at ho
    cases ho

end RiscvToolkit.Assembly
