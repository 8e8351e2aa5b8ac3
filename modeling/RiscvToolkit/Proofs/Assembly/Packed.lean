import RiscvToolkit.Proofs.Assembly.Inventory
import RiscvToolkit.Proofs.Assembly.Line
import RiscvToolkit.Proofs.Assembly.Marks
import RiscvToolkit.Proofs.Memory.ByteMap

/-! Packed images. The items of a segment stand in it one behind the other, in the order of the inventory and with
nothing between them, whatever is placed in the other segment in between. -/
namespace RiscvToolkit

namespace Assembly
open Image (Extension)
open Memory (Apart)

/-- The bytes that the items of one segment take. -/
def sizeIn (place : Place) : List Placed → Nat
  | [] => 0
  | .label _ _ :: rest => sizeIn place rest
  | .item q _ content :: rest => (if q = place then content.size else 0) + sizeIn place rest

@[simp] theorem sizeIn_append (place : Place) (ps qs : List Placed) :
    sizeIn place (ps ++ qs) = sizeIn place ps + sizeIn place qs := by
  induction ps with
  | nil => simp [sizeIn]
  | cons p ps ih => cases p <;> simp [sizeIn, ih, Nat.add_assoc]

@[simp] theorem sizeIn_wordItems (place q : Place) (location : Location) (words : List Emission) :
    sizeIn place (wordItems q location words) = if q = place then 4 * words.length else 0 := by
  induction words with
  | nil => simp [wordItems, sizeIn]
  | cons e words ih =>
    unfold wordItems at ih ⊢
    rw [List.map_cons, sizeIn, ih, Content.size, List.length_cons]
    split_ifs <;> omega

/-- The labels of an inventory that follows another, with their addresses: a label stands behind all items of
its segment that come before it. -/
def labelsFrom (before : List Placed) : List Placed → List (String × UInt32)
  | [] => []
  | .label place name :: rest =>
    (name, UInt32.ofNat (place.base + sizeIn place before)) ::
      labelsFrom (before ++ [.label place name]) rest
  | .item place location content :: rest =>
    labelsFrom (before ++ [.item place location content]) rest

theorem labelsFrom_append (before ps qs : List Placed) :
    labelsFrom before (ps ++ qs) = labelsFrom before ps ++ labelsFrom (before ++ ps) qs := by
  induction ps generalizing before with
  | nil => simp [labelsFrom]
  | cons p ps ih => cases p <;> simp [labelsFrom, ih]

@[simp] theorem labelsFrom_wordItems (before : List Placed) (place : Place) (location : Location)
    (words : List Emission) : labelsFrom before (wordItems place location words) = [] := by
  induction words generalizing before with
  | nil => rfl
  | cons e words ih => exact ih _

/-- The labels of a block and its expansions, in order. -/
def Outline.bound : Outline → List (String × UInt32)
  | done => []
  | label name address rest => (name, address) :: rest.bound
  | globals _ _ rest | piece _ _ _ rest => rest.bound
  | expansion body rest => body.bound ++ rest.bound

/-- The bytes of an item that stands at `address`. `choices` tells which address completes it if it waits for a
label. -/
inductive Encodes (choices : List (Relocation × Option UInt32)) (location : Location)
    (address : UInt32) : Content → List UInt8 → Prop
  | word {word} :
    Encodes choices location address (.word ⟨word, none⟩) (LittleEndian.encode 4 word.toUInt64)
  | linked {word : UInt32} {link : Link} {target bits}
    (ht : (⟨address, link.label, link.kind, location⟩, some target) ∈ choices)
    (hb : link.kind.bits address target = .ok bits) :
    Encodes choices location address (.word ⟨word, some link⟩)
      (LittleEndian.encode 4 (word ||| bits).toUInt64)
  | int {width value} :
    Encodes choices location address (.datum (.int width) (.int value))
      (IntType.bytes ⟨width, true⟩ value)
  | address {width name target}
    (ht : (⟨address, name, relocationOf width, location⟩, some target) ∈ choices) :
    Encodes choices location address (.datum (.int width) (.label name))
      (IntType.bytes ⟨width, false⟩ target.toNat)
  | ascii {text} :
    Encodes choices location address (.datum .ascii (.string text)) text.toUTF8.data.toList
  | asciz {text} :
    Encodes choices location address (.datum .asciz (.string text)) (text.toUTF8.data.toList ++ [0])
  | float {item bytes} (hs : DataFormat.float.store item = .ok (.bytes bytes)) :
    Encodes choices location address (.datum .float item) bytes
  | double {item bytes} (hs : DataFormat.double.store item = .ok (.bytes bytes)) :
    Encodes choices location address (.datum .double item) bytes

/-- `Packed choices place address ps bytes`: from `address` on, `bytes` are the items of one segment, one behind
the other. -/
inductive Packed (choices : List (Relocation × Option UInt32)) (place : Place) :
    Nat → List Placed → List UInt8 → Prop
  | nil {address} : Packed choices place address [] []
  | label {address q name ps bytes} (h : Packed choices place address ps bytes) :
    Packed choices place address (.label q name :: ps) bytes
  | other {address q location content ps bytes} (hq : q ≠ place)
    (h : Packed choices place address ps bytes) :
    Packed choices place address (.item q location content :: ps) bytes
  | item {address location content field ps bytes}
    (hf : Encodes choices location (UInt32.ofNat address) content field)
    (h : Packed choices place (address + field.length) ps bytes) :
    Packed choices place address (.item place location content :: ps) (field ++ bytes)

section
variable {choices : List (Relocation × Option UInt32)} {place : Place}

/-- The number of bytes that a piece takes. -/
def Piece.size : Piece → Nat
  | .code words => 4 * words.length
  | .datum (.bytes bytes) => bytes.length
  | .datum (.address width _) => width.size

theorem length_store {format : DataFormat} {item : Datum} {stored : Stored}
    (h : format.store item = .ok stored) :
    (Content.datum format item).size = (Piece.datum stored).size := by
  cases format <;> cases item <;> cases h <;>
    simp [Content.size, Piece.size, intBytes, Text.length_utf8]

/-- An item has the bytes that its size says. -/
theorem Encodes.length {location : Location} {address : UInt32} {content : Content}
    {bytes : List UInt8} (h : Encodes choices location address content bytes) :
    bytes.length = content.size := by
  cases h with
  | word | linked => exact LittleEndian.length_encode ..
  | int | address => exact IntType.length_bytes ..
  | ascii =>
    rw [← Text.utf8_eq, Text.length_utf8]
    rfl
  | asciz =>
    rw [← Text.utf8_eq, List.length_append, Text.length_utf8]
    rfl
  | float hs | double hs => exact (length_store hs).symm

theorem Packed.length {address : Nat} {ps : List Placed} {bytes : List UInt8}
    (h : Packed choices place address ps bytes) : bytes.length = sizeIn place ps := by
  induction h with
  | nil => rfl
  | label h ih => exact ih
  | other hq h ih => rw [sizeIn, if_neg hq, Nat.zero_add, ih]
  | item hf h ih => rw [List.length_append, sizeIn, if_pos rfl, ih, hf.length]

theorem Packed.append {address : Nat} {ps qs : List Placed} {xs ys : List UInt8}
    (hp : Packed choices place address ps xs)
    (hq : Packed choices place (address + xs.length) qs ys) :
    Packed choices place address (ps ++ qs) (xs ++ ys) := by
  induction hp with
  | nil => exact hq
  | label h ih => exact .label (ih hq)
  | other hne h ih => exact .other hne (ih hq)
  | item hf h ih =>
    rw [List.append_assoc]
    rw [List.length_append, ← Nat.add_assoc] at hq
    exact .item hf (ih hq)

/-- The bytes of an item stand behind those of the items of its segment that come before it. -/
theorem Packed.exists_field {address : Nat} {before after : List Placed} {location : Location}
    {content : Content} {bytes : List UInt8}
    (h : Packed choices place address (before ++ .item place location content :: after) bytes) :
    ∃ xs field ys, bytes = xs ++ (field ++ ys) ∧ xs.length = sizeIn place before ∧
      Encodes choices location (UInt32.ofNat (address + sizeIn place before)) content field := by
  induction before generalizing address bytes with
  | nil =>
    cases h with
    | other hq => exact absurd rfl hq
    | @item _ _ _ field _ ys hf => exact ⟨[], field, ys, rfl, rfl, hf⟩
  | cons p before ih =>
    cases h with
    | label h => exact ih h
    | other hq h =>
      obtain ⟨xs, field, ys, hbytes, hlen, hf⟩ := ih h
      rw [sizeIn, if_neg hq, Nat.zero_add]
      exact ⟨xs, field, ys, hbytes, hlen, hf⟩
    | @item _ _ _ first _ _ hfirst h =>
      obtain ⟨xs, field, ys, rfl, hlen, hf⟩ := ih h
      rw [sizeIn, if_pos rfl, ← hfirst.length, ← Nat.add_assoc]
      refine ⟨first ++ xs, field, ys, (List.append_assoc ..).symm, ?_, hf⟩
      rw [List.length_append, hlen]

end

/-! ### Where things come to stand -/

theorem Image.used_putWords {place : Place} {words : List Emission} {i j : Image}
    (h : Image.putWords place words i = .ok j) (q : Place) :
    j.used q = i.used q + if q = place then 4 * words.length else 0 := by
  induction words generalizing i with
  | nil =>
    cases h
    simp
  | cons e rest ih =>
    unfold Image.putWords at h
    obtain ⟨k, hp, h⟩ := bind_eq_ok_iff.mp h
    obtain ⟨-, -, hu⟩ := (i.put_eq_ok_iff k place _).mp hp
    rw [ih h, hu q, LittleEndian.length_encode, List.length_cons]
    split_ifs <;> omega

theorem Piece.used_put {p : Piece} {place : Place} {i j : Image} (h : p.put place i = .ok j)
    (q : Place) : j.used q = i.used q + if q = place then p.size else 0 := by
  cases p with
  | code words => exact Image.used_putWords h q
  | datum stored =>
    cases stored with
    | bytes bytes => exact ((i.put_eq_ok_iff j place bytes).mp h).2.2 q
    | address width label => exact ((i.reserve_eq_ok_iff j place width.size).mp h).2.2 q

theorem Image.used_putDatum {format : DataFormat} {item : Datum} {stored : Stored}
    (hs : format.store item = .ok stored) {place : Place} {i j : Image}
    (h : (Piece.datum stored).put place i = .ok j) (q : Place) :
    j.used q = i.used q + if q = place then (Content.datum format item).size else 0 := by
  rw [Piece.used_put h, length_store hs]

/-- A block takes the room that the items of its inventory take, in each segment. -/
theorem used_lay {x : Script} {i : Image} {l : Layout} (h : x.lay i = some l)
    {ps : List Placed} (ht : x.Tells ps) (q : Place) :
    l.image.used q = i.used q + sizeIn q ps := by
  induction h using Script.lay_induction generalizing ps with
  | done mode i =>
    cases ht
    rfl
  | label place name rest i l _ ih =>
    cases ht with
    | label ht =>
      have hu := ih ht
      exact hu
  | globals names line rest i l _ ih =>
    cases ht with
    | globals ht => exact ih ht
  | piece place location p rest i j l hp _ ih =>
    cases ht with
    | words ht =>
      rw [ih ht, Image.used_putWords hp, sizeIn_append, sizeIn_wordItems, Nat.add_assoc]
      simp only [eq_comm]
    | datum hs ht =>
      rw [ih ht, Image.used_putDatum hs hp, sizeIn, Nat.add_assoc]
      simp only [eq_comm]
  | expansion call body rest i b l _ _ ihb ihr =>
    cases ht with
    | expansion hb hr => rw [ihr hr, ihb hb, sizeIn_append, Nat.add_assoc]

/-- Each label of a block stands behind the items of its segment that come before it. -/
theorem bound_lay {x : Script} {i : Image} {l : Layout} (h : x.lay i = some l)
    {ps : List Placed} (ht : x.Tells ps) {before : List Placed}
    (hi : ∀ place, i.used place = sizeIn place before) :
    l.outline.bound = labelsFrom before ps := by
  induction h using Script.lay_induction generalizing ps before with
  | done mode i =>
    cases ht
    rfl
  | label place name rest i l _ ih =>
    cases ht with
    | label ht =>
      have hlabel (q : Place) : i.used q = sizeIn q (before ++ [.label place name]) := by
        rw [hi q, sizeIn_append]
        rfl
      rw [Outline.bound, ih ht hlabel, labelsFrom, Image.cursor, hi place]
  | globals names line rest i l _ ih =>
    cases ht with
    | globals ht => exact ih ht hi
  | piece place location p rest i j l hp _ ih =>
    cases ht with
    | @words _ _ words _ _ ht =>
      have hj (q : Place) : j.used q = sizeIn q (before ++ wordItems place location words) := by
        rw [Image.used_putWords hp q, hi q, sizeIn_append, sizeIn_wordItems]
        simp only [eq_comm]
      rw [Outline.bound, ih ht hj, labelsFrom_append, labelsFrom_wordItems, List.nil_append]
    | @datum _ format item _ _ _ hs ht =>
      have hj (q : Place) :
          j.used q = sizeIn q (before ++ [.item .data location (.datum format item)]) := by
        rw [Image.used_putDatum hs hp q, hi q, sizeIn_append]
        simp [sizeIn, eq_comm]
      exact ih ht hj
  | expansion call body rest i b l hlay _ ihb ihr =>
    cases ht with
    | @expansion _ _ _ ps qs hb hr =>
      have hbody (q : Place) : b.image.used q = sizeIn q (before ++ ps) := by
        rw [used_lay hlay hb, hi q, sizeIn_append]
      rw [Outline.bound, ihb hb hi, ihr hr hbody, labelsFrom_append]

/-! ### What stands there -/

private theorem ofInt_toNat (target : UInt32) :
    UInt64.ofInt (target.toNat : Int) = target.toUInt64 := by
  have hlt := target.toNat_lt
  apply UInt64.toNat_inj.mp
  rw [UInt64.ofInt, UInt64.toNat_ofNat', UInt32.toNat_toUInt64]
  omega

/-- What a finished memory makes of an image with relocations in it: each has been filled in, and all other bytes
have stayed as they are. -/
structure Finishes (choices : List (Relocation × Option UInt32)) (i : Image) (rs : List Relocation)
    (final : Memory) : Prop where
  filled : ∀ r ∈ rs, ∃ target old new, (r, some target) ∈ choices ∧
    i.memory.load r.address.toUInt64 r.kind.size = .ok old ∧
      r.kind.fill r.address target old = some new ∧
      final.load r.address.toUInt64 r.kind.size = .ok new
  stays : ∀ address count, i.Inside address count →
    (∀ r ∈ rs, Apart r.address.toUInt64 r.kind.size address.toUInt64 count) →
      final.load address.toUInt64 count = i.memory.load address.toUInt64 count

section
variable {choices : List (Relocation × Option UInt32)} {i j : Image} {final : Memory}
variable {rs : List Relocation}

/-- What is laid out later makes no difference. -/
theorem Finishes.before {ss : List Relocation} (hx : Extension i j ss)
    (hin : ∀ r ∈ rs, i.Inside r.address r.kind.size) (h : Finishes choices j (rs ++ ss) final) :
    Finishes choices i rs final where
  filled r hr := by
    obtain ⟨target, old, new, hc, ho, hn⟩ := h.filled r (List.mem_append_left ss hr)
    exact ⟨target, old, new, hc, hx.keeps _ _ (hin r hr) ▸ ho, hn⟩
  stays address count hi hap := by
    rw [← hx.keeps address count hi]
    refine h.stays address count (hi.mono hx.grows) fun r hr => ?_
    rcases List.mem_append.mp hr with hr | hr
    · exact hap r hr
    · exact (hi.apart (hx.outside r hr)).symm

theorem inside_append {ss : List Relocation} (hx : Extension i j ss)
    (hin : ∀ r ∈ rs, i.Inside r.address r.kind.size) :
    ∀ r ∈ rs ++ ss, j.Inside r.address r.kind.size := by
  intro r hr
  rcases List.mem_append.mp hr with hr | hr
  · exact (hin r hr).mono hx.grows
  · exact hx.inside r hr

variable {place : Place} {location : Location} (hin : ∀ r ∈ rs, i.Inside r.address r.kind.size)
include hin

/-- Bytes that wait for no label are read as they have been placed. -/
theorem Finishes.load_put {bytes : List UInt8} (hp : i.put place bytes = .ok j)
    (h : Finishes choices j rs final) :
    final.load (i.cursor place).toUInt64 bytes.length = .ok bytes := by
  obtain ⟨hs, hst, hu⟩ := (i.put_eq_ok_iff j place bytes).mp hp
  have hinside : j.Inside (i.cursor place) bytes.length := by
    refine ⟨place, ?_, ?_⟩
    · rw [Image.toNat_cursor]
      omega
    · rw [Image.toNat_cursor, hu place, if_pos rfl]
      omega
  rw [h.stays _ _ hinside fun r hr => (hin r hr).apart (Image.outside_cursor hs)]
  exact Memory.load_store_self hst

/-- A word is read with what its label makes of it. -/
theorem Finishes.encodes_word {e : Emission} (hp : i.putWord place e.word = .ok j)
    (h : Finishes choices j
      (rs ++ (e.relocation? location (i.cursor place)).toList) final) :
    ∃ field, Encodes choices location (i.cursor place) (.word e) field ∧
      final.load (i.cursor place).toUInt64 field.length = .ok field := by
  obtain ⟨word, link⟩ := e
  cases link with
  | none =>
    rw [Emission.relocation?, Option.map_none, Option.toList_none, List.append_nil] at h
    exact ⟨_, .word, h.load_put hin hp⟩
  | some link =>
    have hr : (⟨i.cursor place, link.label, link.kind, location⟩ : Relocation) ∈
        rs ++ (Emission.relocation? ⟨word, some link⟩ location (i.cursor place)).toList := by
      simp [Emission.relocation?]
    obtain ⟨target, old, new, hc, ho, hf, hn⟩ := h.filled _ hr
    dsimp only at hc ho hf hn
    obtain ⟨-, hst, -⟩ := (i.put_eq_ok_iff j place _).mp hp
    have hold := Memory.load_store_self hst
    rw [LittleEndian.length_encode] at hold
    rw [RelocationKind.size_of_ofWord link.ofWord] at ho hn
    cases hold.symm.trans ho
    unfold RelocationKind.fill at hf
    rw [link.ofWord] at hf
    obtain ⟨bits, hb, rfl⟩ := Option.map_eq_some_iff.mp hf
    rw [LittleEndian.decode_encode_word] at hn
    exact ⟨_, .linked hc ((toOption_eq_some_iff _ _).mp hb), by rwa [LittleEndian.length_encode]⟩

/-- A data item is read as its format says. -/
theorem Finishes.encodes_datum {format : DataFormat} {item : Datum} {stored : Stored}
    (hs : format.store item = .ok stored) (hp : (Piece.datum stored).put place i = .ok j)
    (h : Finishes choices j
      (rs ++ (Piece.datum stored).relocations location (i.cursor place)) final) :
    ∃ field, Encodes choices location (i.cursor place) (.datum format item) field ∧
      final.load (i.cursor place).toUInt64 field.length = .ok field := by
  cases stored with
  | bytes bytes =>
    rw [Piece.relocations, List.append_nil] at h
    refine ⟨bytes, ?_, h.load_put hin hp⟩
    cases format with
    | int width =>
      cases item <;> cases hs
      rw [intBytes, IntType.encode_ofInt ⟨width, true⟩]
      exact .int
    | float => exact .float hs
    | double => exact .double hs
    | ascii =>
      cases item <;> cases hs
      exact Text.utf8_eq _ ▸ .ascii
    | asciz =>
      cases item <;> cases hs
      exact Text.utf8_eq _ ▸ .asciz
  | address width label =>
    have hr : (⟨i.cursor place, label, relocationOf width, location⟩ : Relocation) ∈
        rs ++ (Piece.datum (.address width label)).relocations location (i.cursor place) :=
      List.mem_append_right _ List.mem_cons_self
    obtain ⟨target, old, new, hc, -, hf, hn⟩ := h.filled _ hr
    dsimp only at hc hf hn
    obtain ⟨rfl, rfl⟩ : format = .int width ∧ item = .label label := by
      cases format <;> cases item <;> cases hs
      exact ⟨rfl, rfl⟩
    have hnew : new = IntType.bytes ⟨width, false⟩ target.toNat := by
      rw [← IntType.encode_ofInt, ofInt_toNat]
      cases width <;> cases hf <;> rfl
    refine ⟨new, hnew ▸ .address hc, ?_⟩
    rwa [hnew, IntType.length_bytes, ← size_relocationOf, ← hnew]

end

/-- True if the items of a segment are read, one behind the other, from `address` on. -/
def Shows (choices : List (Relocation × Option UInt32)) (final : Memory) (place : Place)
    (address : Nat) (ps : List Placed) : Prop :=
  ∃ bytes, Packed choices place address ps bytes ∧ final.HoldsBytes address bytes

section
variable {choices : List (Relocation × Option UInt32)} {final : Memory} {place : Place}

theorem Shows.nil (address : Nat) : Shows choices final place address [] :=
  ⟨[], .nil, fun _ hk => absurd hk (Nat.not_lt_zero _)⟩

theorem Shows.append {address : Nat} {ps qs : List Placed}
    (hp : Shows choices final place address ps)
    (hq : Shows choices final place (address + sizeIn place ps) qs) :
    Shows choices final place address (ps ++ qs) := by
  obtain ⟨xs, hxs, hx⟩ := hp
  obtain ⟨ys, hys, hy⟩ := hq
  rw [← hxs.length] at hys hy
  exact ⟨xs ++ ys, hxs.append hys, hx.append hy⟩

theorem Shows.other {q : Place} (hq : q ≠ place) (address : Nat) (location : Location)
    (content : Content) : Shows choices final place address [.item q location content] :=
  ⟨[], .other hq .nil, fun _ hk => absurd hk (Nat.not_lt_zero _)⟩

/-- An item that is read in its place. -/
theorem Shows.item {i : Image} {location : Location} {content : Content} {field : List UInt8}
    (he : Encodes choices location (i.cursor place) content field)
    (hl : final.load (i.cursor place).toUInt64 field.length = .ok field) :
    Shows choices final place (place.base + i.used place) [.item place location content] := by
  have hb := Memory.holdsBytes_of_load hl
  rw [UInt32.toNat_toUInt64, Image.toNat_cursor] at hb
  exact ⟨field ++ [], .item he .nil, by rwa [List.append_nil]⟩

variable {rs : List Relocation} {location : Location}

theorem Finishes.shows_words {q : Place} {words : List Emission} {i j : Image}
    (hin : ∀ r ∈ rs, i.Inside r.address r.kind.size) (hp : Image.putWords q words i = .ok j)
    (h : Finishes choices j (rs ++ linksFrom location (i.cursor q) words) final) :
    Shows choices final place (place.base + i.used place) (wordItems q location words) := by
  induction words generalizing i rs with
  | nil => exact .nil _
  | cons e words ih =>
    unfold Image.putWords at hp
    obtain ⟨k, hw, hp⟩ := bind_eq_ok_iff.mp hp
    have hcursor : k.cursor q = i.cursor q + 4 := by
      rw [Image.cursor_put hw, LittleEndian.length_encode]
      rfl
    have hone : Extension i k (e.relocation? location (i.cursor q)).toList := by
      refine Image.extension_of_put _ hw fun r hr => ?_
      obtain ⟨link, -, rfl⟩ := Option.map_eq_some_iff.mp hr
      rw [RelocationKind.size_of_ofWord link.ofWord, LittleEndian.length_encode]
      exact ⟨rfl, rfl⟩
    have hin' := inside_append hone hin
    rw [linksFrom, ← List.append_assoc, ← hcursor] at h
    have hrest := ih hin' hp h
    have hfirst := h.before (Piece.extension_put (p := .code words) location hp) hin'
    rw [show wordItems q location (e :: words) =
      [.item q location (.word e)] ++ wordItems q location words from rfl]
    have hword : Image.putWords q [e] i = .ok k := by
      rw [Image.putWords, hw]
      rfl
    have hused := Image.used_putWords hword place
    by_cases hq : q = place
    · subst hq
      obtain ⟨field, he, hl⟩ := hfirst.encodes_word hin hw
      refine (Shows.item he hl).append ?_
      rw [if_pos rfl] at hused
      rw [hused] at hrest
      simpa [sizeIn, Content.size, Nat.add_assoc] using hrest
    · refine (Shows.other hq _ location _).append ?_
      rw [if_neg (Ne.symm hq)] at hused
      rw [hused] at hrest
      simpa [sizeIn, hq] using hrest

/-- What a block has placed is read where it was placed. -/
theorem shows_lay {x : Script} {i : Image} {l : Layout} (h : x.lay i = some l)
    {ps : List Placed} (ht : x.Tells ps) (hin : ∀ r ∈ rs, i.Inside r.address r.kind.size)
    (hf : Finishes choices l.image (rs ++ l.outline.relocations) final) (place : Place) :
    Shows choices final place (place.base + i.used place) ps := by
  induction h using Script.lay_induction generalizing ps rs with
  | done mode i =>
    cases ht
    exact .nil _
  | label place' name rest i l _ ih =>
    cases ht with
    | label ht =>
      obtain ⟨bytes, hp, hb⟩ := ih ht hin hf
      exact ⟨bytes, .label hp, hb⟩
  | globals names line rest i l _ ih =>
    cases ht with
    | globals ht => exact ih ht hin hf
  | piece q location p rest i j l hp hl ih =>
    have hx := Piece.extension_put location hp
    have hin' := inside_append hx hin
    rw [Outline.relocations, ← List.append_assoc] at hf
    have hfirst := hf.before (Script.extension_lay hl) hin'
    cases ht with
    | @words _ _ words _ _ ht =>
      have hrest := ih ht hin' hf
      rw [Image.used_putWords hp] at hrest
      refine (hfirst.shows_words hin hp).append ?_
      rw [sizeIn_wordItems, Nat.add_assoc]
      simpa only [eq_comm] using hrest
    | @datum _ format item _ _ _ hs ht =>
      have hrest := ih ht hin' hf
      rw [Image.used_putDatum hs hp] at hrest
      obtain ⟨field, he, hl⟩ := hfirst.encodes_datum hin hs hp
      have hitem : Shows choices final place (place.base + i.used place)
          [.item .data location (.datum format item)] := by
        by_cases hq : Place.data = place
        · subst hq
          exact .item he hl
        · exact .other hq _ _ _
      refine hitem.append ?_
      simpa [sizeIn, eq_comm, Nat.add_assoc] using hrest
  | expansion call body rest i b l hb hl ihb ihr =>
    cases ht with
    | expansion hbody hrest =>
      have hx := Script.extension_lay hb
      have hin' := inside_append hx hin
      rw [Outline.relocations, ← List.append_assoc] at hf
      have hfirst := ihb hbody hin (hf.before (Script.extension_lay hl) hin')
      have hthen := ihr hrest hin' hf
      rw [used_lay hb hbody, ← Nat.add_assoc] at hthen
      exact hfirst.append hthen

end

/-! ### Programs -/

/-- True of an inventory that places nothing but words in the text segment. -/
def OnlyCode (ps : List Placed) : Prop :=
  ∀ location content, .item .text location content ∈ ps → ∃ e, content = .word e

theorem onlyCode_of_tells {x : Script} {ps : List Placed} (h : x.Tells ps) : OnlyCode ps := by
  induction h with
  | done => exact fun _ _ hm => absurd hm List.not_mem_nil
  | label h ih =>
    intro location content hm
    rcases List.mem_cons.mp hm with hm | hm
    · cases hm
    · exact ih location content hm
  | globals h ih => exact ih
  | words h ih =>
    intro location content hm
    rcases List.mem_append.mp hm with hm | hm
    · obtain ⟨e, -, he⟩ := List.mem_map.mp hm
      cases he
      exact ⟨e, rfl⟩
    · exact ih location content hm
  | datum hs h ih =>
    intro location content hm
    rcases List.mem_cons.mp hm with hm | hm
    · cases hm
    · exact ih location content hm
  | expansion hb h ihb ih =>
    intro location content hm
    rcases List.mem_append.mp hm with hm | hm
    · exact ihb location content hm
    · exact ih location content hm

/-- Code is made of words. -/
theorem Packed.exists_words {choices : List (Relocation × Option UInt32)} {address : Nat}
    {ps : List Placed} {bytes : List UInt8} (h : Packed choices .text address ps bytes)
    (hc : OnlyCode ps) :
    ∃ words : List UInt32, bytes = words.flatMap fun word => LittleEndian.encode 4 word.toUInt64 := by
  induction h with
  | nil => exact ⟨[], rfl⟩
  | label h ih => exact ih fun location content hm => hc location content (List.mem_cons_of_mem _ hm)
  | other hq h ih => exact ih fun location content hm => hc location content (List.mem_cons_of_mem _ hm)
  | item hf h ih =>
    obtain ⟨words, rfl⟩ := ih fun location content hm => hc location content (List.mem_cons_of_mem _ hm)
    obtain ⟨e, rfl⟩ := hc _ _ List.mem_cons_self
    cases hf with
    | @word word => exact ⟨word :: words, rfl⟩
    | @linked word _ _ bits => exact ⟨(word ||| bits) :: words, rfl⟩

theorem holdsWords_of_holdsBytes {m : Memory} {o : Nat} {words : List UInt32}
    (h : m.HoldsBytes (textBase + o) (words.flatMap fun word => LittleEndian.encode 4 word.toUInt64))
    (hs : o + 4 * words.length ≤ segmentSize) :
    m.HoldsWords (UInt64.ofNat (textBase + o)) words := by
  induction words generalizing o with
  | nil => trivial
  | cons word words ih =>
    have hlen : (LittleEndian.encode 4 word.toUInt64).length = 4 := LittleEndian.length_encode ..
    rw [List.length_cons] at hs
    rw [List.flatMap_cons] at h
    have hfirst : m.HoldsBytes (textBase + o) (LittleEndian.encode 4 word.toUInt64) := h.left
    have hrest : m.HoldsBytes (textBase + (o + 4))
        (words.flatMap fun word => LittleEndian.encode 4 word.toUInt64) := by
      have hright := h.right
      rwa [hlen, Nat.add_assoc] at hright
    have hload := hfirst.load (r := .text) (by simp only [Memory.size]; omega)
      (by simp only [Memory.size]; omega)
    rw [hlen] at hload
    have hnext : UInt64.ofNat (textBase + o) + 4 = UInt64.ofNat (textBase + (o + 4)) := by
      rw [← Nat.add_assoc, UInt64.ofNat_add (textBase + o)]
      rfl
    refine ⟨(Memory.readWord_eq_ok_iff _ _ _).mpr ⟨_, hload, LittleEndian.decode_encode_word word⟩, ?_⟩
    rw [hnext]
    exact ih hrest (by omega)

/-- True of scopes in which names stand for labels of a list. -/
def Scope.Within (labels : List (String × UInt32)) (scope : Scope) : Prop :=
  ∀ name address, scope name = some address → (name, address) ∈ labels

theorem within_choose {labels : List (String × UInt32)} {scopes : List Scope}
    (h : ∀ scope ∈ scopes, scope.Within labels) : Scope.Within labels (choose scopes) := by
  intro name address ha
  obtain ⟨scope, hs, ha⟩ := List.exists_of_findSome?_eq_some ha
  exact h scope hs name address ha

namespace Outline
variable {labels : List (String × UInt32)} {o : Outline}

theorem mem_bound_of_mem_labels {e : String × UInt32} (h : e ∈ o.labels) : e ∈ o.bound := by
  induction o with
  | done => cases h
  | label name address rest ih =>
    rcases List.mem_append.mp h with h | h
    · exact List.mem_cons_of_mem _ (ih h)
    · rw [List.mem_singleton.mp h]
      exact List.mem_cons_self
  | globals names line rest ih => exact ih h
  | piece address location p rest ih => exact ih h
  | expansion body rest _ ih => exact List.mem_append_right _ (ih h)

theorem within_scope (h : ∀ e ∈ o.bound, e ∈ labels) : o.labels.scope.Within labels := by
  intro name address ha
  obtain ⟨l₁, l₂, hl, -⟩ := List.lookup_eq_some_iff.mp ha
  exact h _ (mem_bound_of_mem_labels (hl ▸ List.mem_append_right _ List.mem_cons_self))

theorem within_exported (h : ∀ e ∈ o.bound, e ∈ labels) : Scope.Within labels o.exported := by
  intro name address ha
  unfold Outline.exported at ha
  split_ifs at ha
  exact within_scope h name address ha

/-- What completes an item is the address of a label of its name. -/
theorem within_choices {scopes : List Scope} (hs : ∀ scope ∈ scopes, scope.Within labels)
    (h : ∀ e ∈ o.bound, e ∈ labels) {r : Relocation} {target : UInt32}
    (hr : (r, some target) ∈ o.choices scopes) : (r.label, target) ∈ labels := by
  induction o generalizing scopes with
  | done => cases hr
  | label name address rest ih => exact ih hs (fun e he => h e (List.mem_cons_of_mem _ he)) hr
  | globals names line rest ih => exact ih hs h hr
  | piece address location p rest ih =>
    rcases List.mem_append.mp hr with hr | hr
    · obtain ⟨r', -, he⟩ := List.mem_map.mp hr
      obtain ⟨rfl, ht⟩ := Prod.mk.inj he
      exact within_choose hs _ _ ht
    · exact ih hs h hr
  | expansion body rest hb hrest =>
    have hbody : ∀ e ∈ body.bound, e ∈ labels := fun e he => h e (List.mem_append_left _ he)
    rcases List.mem_append.mp hr with hr | hr
    · refine hb (fun scope hsc => ?_) hbody hr
      rcases List.mem_cons.mp hsc with rfl | hsc
      · exact within_scope hbody
      · exact hs scope hsc
    · exact hrest hs (fun e he => h e (List.mem_append_right _ he)) hr

end Outline

/-- Files that are laid out have an inventory, which tells what they have placed. -/
theorem listsAll_of_layAll {catalog : Catalog} {files : List Source.File} {i j : Image}
    {os : List Outline} (h : Linkage.layAll catalog files i = some (os, j)) :
    ∃ ps, ListsAll catalog files ps ∧ OnlyCode ps ∧
      (∀ place, j.used place = i.used place + sizeIn place ps) ∧
      (∀ before, (∀ place, i.used place = sizeIn place before) →
        os.flatMap Outline.bound = labelsFrom before ps) ∧
      ∀ choices final rs, (∀ r ∈ rs, i.Inside r.address r.kind.size) →
        Finishes choices j (rs ++ os.flatMap Outline.relocations) final →
        ∀ place, Shows choices final place (place.base + i.used place) ps := by
  induction h using Linkage.layAll_induction with
  | nil i =>
    exact ⟨[], .nil, fun _ _ hm => absurd hm List.not_mem_nil, fun _ => rfl, fun _ _ => rfl,
      fun _ _ _ _ _ _ => .nil _⟩
  | cons file files i j y os hy hlay ih =>
    obtain ⟨qs, hqs, hcode, hsizes, hlabels, hshows⟩ := ih
    obtain ⟨ps, hps, htells⟩ := Script.listed_ofFile (Script.static_of_lay hy).1
    refine ⟨ps ++ qs, .cons hps hqs, ?_, fun place => ?_, fun before hb => ?_, ?_⟩
    · intro location content hm
      rcases List.mem_append.mp hm with hm | hm
      · exact onlyCode_of_tells htells location content hm
      · exact hcode location content hm
    · rw [hsizes, used_lay hy htells, sizeIn_append, Nat.add_assoc]
    · have hrest := hlabels (before ++ ps) fun place => by
        rw [used_lay hy htells, hb place, sizeIn_append]
      rw [List.flatMap_cons, bound_lay hy htells hb, hrest, labelsFrom_append]
    · intro choices final rs hin hf place
      have hin' := inside_append (Script.extension_lay hy) hin
      rw [List.flatMap_cons, ← List.append_assoc] at hf
      have hfirst := shows_lay hy htells hin (hf.before (Linkage.extension_layAll hlay) hin') place
      have hrest := hshows choices final _ hin' hf place
      rw [used_lay hy htells, ← Nat.add_assoc] at hrest
      exact hfirst.append hrest

theorem finishes_of_linked {catalog : Catalog} {files : List Source.File} {i laid : Image}
    {os : List Outline} {p : Program} (h : Linkage.layAll catalog files i = some (os, laid))
    (hl : Linked os laid p) :
    Finishes (choicesOf os) laid (os.flatMap Outline.relocations) p.memory where
  filled r hr := by
    rw [← map_fst_choicesOf] at hr
    obtain ⟨⟨r, target⟩, hc, rfl⟩ := List.mem_map.mp hr
    obtain ⟨target, rfl⟩ := Option.isSome_iff_exists.mp (hl.chosen _ hc)
    obtain ⟨old, new, ho, hf, hn⟩ := hl.patched h hc
    exact ⟨target, old, new, hc, ho, hf, hn⟩
  stays address count _ hap := hl.unpatched hap

end Assembly

/-- The length of a segment. -/
def Program.size (p : Program) : Assembly.Place → Nat
  | .text => p.textSize
  | .data => p.dataSize

namespace Assembly

/-- What an inventory tells about a program whose files are laid out as `os`. -/
structure Accounts (os : List Outline) (ps : List Placed) (p : Program) : Prop where
  /-- Every label stands behind the items of its segment that come before it. -/
  labels : os.flatMap Outline.bound = labelsFrom [] ps
  targets : ∀ r target, (r, some target) ∈ choicesOf os → (r.label, target) ∈ labelsFrom [] ps
  symbols : ∀ name address, p.symbol? name = some address → (name, address) ∈ labelsFrom [] ps
  sizes : ∀ place, p.size place = sizeIn place ps
  room : ∀ place, p.size place ≤ segmentSize
  /-- Each segment is the encodings of its items, one behind the other. -/
  packed : ∀ place, ∃ bytes, Packed (choicesOf os) place place.base ps bytes ∧
    p.memory.load (UInt64.ofNat place.base) (p.size place) = .ok bytes
  code : OnlyCode ps
  words : ∃ words : List UInt32,
    p.words = words.zipIdx.map (fun (word, k) => (UInt32.ofNat (textBase + 4 * k), word)) ∧
      p.memory.load (UInt64.ofNat textBase) p.textSize =
        .ok (words.flatMap fun word => LittleEndian.encode 4 word.toUInt64)

/-- What stands in a segment is read there. -/
theorem load_of_holdsBytes {m : Memory} {place : Place} {o : Nat} {bytes : List UInt8}
    (h : m.HoldsBytes (place.base + o) bytes) (ho : o < segmentSize)
    (hroom : o + bytes.length ≤ segmentSize) :
    m.load (UInt64.ofNat (place.base + o)) bytes.length = .ok bytes := by
  cases place with
  | text => exact h.load (r := .text) ho hroom
  | data => exact h.load (r := .data) ho hroom

/-- Where an item stands that comes behind others. -/
def addressIn (place : Place) (before : List Placed) : UInt32 :=
  UInt32.ofNat (place.base + sizeIn place before)

/-- An item is read at its address. -/
theorem Accounts.exists_field {os : List Outline} {before after : List Placed} {p : Program}
    {place : Place} {location : Location} {content : Content}
    (h : Accounts os (before ++ .item place location content :: after) p)
    (hpos : 0 < content.size) :
    ∃ field, Encodes (choicesOf os) location (addressIn place before) content field ∧
      p.memory.load (addressIn place before).toUInt64 content.size = .ok field := by
  obtain ⟨bytes, hpacked, hload⟩ := h.packed place
  obtain ⟨xs, field, ys, rfl, hxs, hf⟩ := hpacked.exists_field
  have hroom : sizeIn place before + content.size ≤ segmentSize := by
    have hle := h.room place
    rw [h.sizes, sizeIn_append, sizeIn, if_pos rfl] at hle
    omega
  have hbase : place.base + segmentSize < 2 ^ 32 := by cases place <;> decide
  have haddress : (addressIn place before).toUInt64 =
      UInt64.ofNat (place.base + sizeIn place before) := by
    apply UInt64.toNat_inj.mp
    rw [UInt32.toNat_toUInt64, addressIn, UInt32.toNat_ofNat', UInt64.toNat_ofNat']
    omega
  have hheld := Memory.holdsBytes_of_load hload
  rw [UInt64.toNat_ofNat', Nat.mod_eq_of_lt (by omega)] at hheld
  have hfield : p.memory.HoldsBytes (place.base + sizeIn place before) field := by
    rw [← hxs]
    exact hheld.right.left
  refine ⟨field, hf, ?_⟩
  rw [haddress, ← hf.length]
  rw [← hf.length] at hpos hroom
  exact load_of_holdsBytes hfield (by omega) hroom

/-- A text that is packed with words is listed word by word. -/
theorem exists_words_of_packed {choices : List (Relocation × Option UInt32)} {ps : List Placed}
    {p : Program} {bytes : List UInt8} (hcode : OnlyCode ps)
    (hpacked : Packed choices .text textBase ps bytes) (hheld : p.memory.HoldsBytes textBase bytes)
    (hlen : bytes.length = p.textSize) (hroom : p.textSize ≤ segmentSize) :
    ∃ words : List UInt32,
      p.words = words.zipIdx.map (fun (word, k) => (UInt32.ofNat (textBase + 4 * k), word)) ∧
        bytes = words.flatMap fun word => LittleEndian.encode 4 word.toUInt64 := by
  obtain ⟨words, rfl⟩ := hpacked.exists_words hcode
  have htext : p.textSize = 4 * words.length := by
    rw [← hlen]
    simp [List.length_flatMap, Nat.mul_comm]
  have hwords := holdsWords_of_holdsBytes (o := 0) hheld (by omega)
  rw [Nat.add_zero] at hwords
  exact ⟨words, words_eq htext hwords, rfl⟩

theorem accounts_of_layAll {catalog : Catalog} {stackSize : Nat} {files : List Source.File}
    {laid : Image} {os : List Outline} {p : Program}
    (h : Linkage.layAll catalog files (.empty stackSize) = some (os, laid))
    (hl : Linked os laid p) : ∃ ps, ListsAll catalog files ps ∧ Accounts os ps p := by
  obtain ⟨ps, hps, hcode, hsizes, hlabels, hshows⟩ := listsAll_of_layAll h
  have hbound := hlabels [] fun place => by cases place <;> rfl
  have hsize (place : Place) : p.size place = sizeIn place ps := by
    have hu := hsizes place
    cases place with
    | text => exact hl.textSize.trans (hu.trans (Nat.zero_add _))
    | data => exact hl.dataSize.trans (hu.trans (Nat.zero_add _))
  have hle (place : Place) : p.size place ≤ segmentSize := by
    have hu := laid.used_le place
    cases place with
    | text => exact hl.textSize.le.trans hu
    | data => exact hl.dataSize.le.trans hu
  have hheld (place : Place) : ∃ bytes, Packed (choicesOf os) place place.base ps bytes ∧
      p.memory.HoldsBytes place.base bytes := by
    have hs := hshows (choicesOf os) p.memory [] (List.forall_mem_nil _)
      (finishes_of_linked h hl) place
    have hu : place.base + (Image.empty stackSize).used place = place.base := by cases place <;> rfl
    rwa [hu] at hs
  have hmem (o : Outline) (ho : o ∈ os) : ∀ e ∈ o.bound, e ∈ labelsFrom [] ps := fun e he =>
    hbound ▸ List.mem_flatMap.mpr ⟨o, ho, he⟩
  have hexported : Scope.Within (labelsFrom [] ps) (exported os) := by
    refine within_choose fun scope hs => ?_
    obtain ⟨o, ho, rfl⟩ := List.mem_map.mp hs
    exact Outline.within_exported (hmem o (List.mem_reverse.mp ho))
  have hlength {place : Place} {bytes : List UInt8}
      (hpacked : Packed (choicesOf os) place place.base ps bytes) : bytes.length = p.size place :=
    hpacked.length.trans (hsize place).symm
  have hload {place : Place} {bytes : List UInt8}
      (hpacked : Packed (choicesOf os) place place.base ps bytes)
      (hb : p.memory.HoldsBytes place.base bytes) :
      p.memory.load (UInt64.ofNat place.base) (p.size place) = .ok bytes := by
    rw [← hlength hpacked]
    refine load_of_holdsBytes (o := 0) hb (by decide) ?_
    rw [Nat.zero_add, hlength hpacked]
    exact hle place
  refine ⟨ps, hps, hbound, fun r target hr => ?_, fun name address ha => ?_, hsize, hle,
    fun place => ?_, hcode, ?_⟩
  · obtain ⟨o, ho, hr⟩ := List.mem_flatMap.mp hr
    refine Outline.within_choices (fun scope hs => ?_) (hmem o ho) hr
    rcases List.mem_cons.mp hs with rfl | hs
    · exact Outline.within_scope (hmem o ho)
    · rw [List.mem_singleton.mp hs]
      exact hexported
  · unfold Program.symbol? at ha
    rw [hl.globals, lookup_allExports] at ha
    exact hexported name address ha
  · obtain ⟨bytes, hpacked, hb⟩ := hheld place
    exact ⟨bytes, hpacked, hload hpacked hb⟩
  · obtain ⟨bytes, hpacked, hb⟩ := hheld .text
    obtain ⟨words, hwords, rfl⟩ :=
      exists_words_of_packed hcode hpacked hb (hlength hpacked) (hle .text)
    exact ⟨words, hwords, @hload .text _ hpacked hb⟩

end Assembly

end RiscvToolkit
