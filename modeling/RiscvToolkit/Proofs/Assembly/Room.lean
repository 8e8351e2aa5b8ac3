import RiscvToolkit.Proofs.Assembly.Standing
import RiscvToolkit.Proofs.Assembly.StringLine

/-! Room in a segment. An item is refused if the segment would grow beyond its size, and so is an empty string behind the
last byte of a full one. An assembly fails for want of room exactly if it comes to such an item. -/
namespace RiscvToolkit.Assembly

/-- True of a piece that a segment of which so many bytes are taken has no room for. -/
def Piece.Overflows (p : Piece) (used : Nat) : Prop :=
  segmentSize < used + p.size ∨ p = .datum (.bytes []) ∧ used = segmentSize

namespace Image

/-- Nothing is placed behind the last byte of a segment, not even nothing. -/
theorem lt_of_put {i j : Image} {place : Place} {bytes : List UInt8}
    (h : i.put place bytes = .ok j) : i.used place < segmentSize := by
  obtain ⟨-, hst, -⟩ := (i.put_eq_ok_iff j place bytes).mp h
  obtain ⟨r, o, hl, -⟩ := (Memory.store_eq_ok_iff _ _ _ _).mp hst
  obtain ⟨hr, -, -⟩ := (Memory.locate?_eq_some_iff _ _ _ _ _).mp hl
  rw [Memory.holds_iff, UInt32.toNat_toUInt64, toNat_cursor] at hr
  have := i.used_le place
  have hstack := i.memory.stackSize_le
  simp only [segmentSize] at hstack
  -- the regions are apart from each other
  cases place <;> cases r <;>
    simp only [Place.base, Memory.base, Memory.size, dataBase, textBase, stackTop,
      segmentSize] at * <;> omega

end Image

namespace Piece
variable (p : Piece) (place : Place) (i : Image)

theorem exists_put_iff : (∃ j, p.put place i = .ok j) ↔ ¬p.Overflows (i.used place) := by
  have hle := i.used_le place
  constructor
  · rintro ⟨j, hj⟩ (hs | ⟨rfl, hu⟩)
    · have hused := used_put hj place
      have := j.used_le place
      rw [if_pos rfl] at hused
      omega
    · exact absurd hu (Image.lt_of_put hj).ne
  · intro h
    obtain ⟨hs, hempty⟩ := not_or.mp h
    have hs : i.used place + p.size ≤ segmentSize := by omega
    cases p with
    | code words =>
      obtain ⟨j, hj, -⟩ := Image.exists_putWords hs
      exact ⟨j, hj⟩
    | datum stored =>
      cases stored with
      | bytes bytes =>
        refine Image.exists_put ?_ hs
        rcases bytes with _ | ⟨byte, bytes⟩
        · have hne : i.used place ≠ segmentSize := fun hu => hempty ⟨rfl, hu⟩
          omega
        · simp only [size, List.length_cons] at hs
          omega
      | address width label =>
        simp only [put, Image.reserve, size] at hs ⊢
        rw [dif_pos hs]
        cases place <;> exact ⟨_, rfl⟩

theorem put_eq_error_iff :
    p.put place i = .error (.segmentOverflow place) ↔ p.Overflows (i.used place) := by
  have hiff := p.exists_put_iff place i
  cases hp : p.put place i with
  | ok j =>
    rw [hp] at hiff
    exact iff_of_false (fun h => nomatch h) (hiff.mp ⟨j, rfl⟩)
  | error kind =>
    rw [hp] at hiff
    rw [error_of_put hp]
    refine iff_of_true rfl (not_not.mp fun h => ?_)
    obtain ⟨j, hj⟩ := hiff.mpr h
    cases hj

end Piece

section
variable {catalog : Catalog} {stackSize : Nat} {files : List Source.File}

/-- Want of room is met where an item is placed, and neither by the text nor by a patch. -/
theorem exists_item_of_overflow {place : Place} {location : Location}
    (h : Cause catalog stackSize files (.segmentOverflow place) location) :
    ∃ ps y t p, Visits catalog stackSize files ps y t ∧ y.item? = some (place, location, p) ∧
      t.add place location p = .error (.segmentOverflow place) := by
  cases h with
  | early h =>
    rcases h with h | ⟨limit, h⟩
    · exact h.elim
    · cases h
  | item hv hy hp =>
    obtain rfl := ErrorKind.segmentOverflow.inj (Piece.error_of_put (State.put_of_add_error hp))
    exact ⟨_, _, _, _, hv, hy, hp⟩
  | patch hs hk =>
    obtain ⟨-, i, hi, -⟩ := hs.sited
    obtain ⟨t, -, hu⟩ := RelocationKind.error_of_apply hi hk
    unfold Transfer.unreachable at hu
    split_ifs at hu

/-- An assembly fails where it comes to an item that there is no room for. -/
theorem failsAt_of_overflow {ps : List (Place × Piece)} {y : Script} {t : State} {p : Piece}
    {place : Place} {location : Location} (hv : Visits catalog stackSize files ps y t)
    (hy : y.item? = some (place, location, p)) (ho : p.Overflows (total place ps)) :
    FailsAt (assemble catalog stackSize files) (.segmentOverflow place) location := by
  rw [← hv.used place, ← Piece.put_eq_error_iff] at ho
  have hadd : t.add place location p = .error (.segmentOverflow place) := by
    rw [State.add_eq_map, ho]
    rfl
  exact failsAt_assemble.mpr (.inl ⟨ps, y, t, hv, .item hy hadd⟩)

theorem size_of_assemble {program : Program}
    (h : assemble catalog stackSize files = .ok program) (place : Place) :
    program.size place = total place (placedIn catalog files) ∧
      program.size place ≤ segmentSize := by
  unfold assemble at h
  dsimp only at h
  obtain ⟨l, hl, h⟩ := bind_eq_ok_iff.mp h
  obtain ⟨-, -, -, -, htext, hdata, -⟩ := (l.link_eq_ok_iff program).mp h
  have hsize : program.size place = l.image.used place := by
    cases place with
    | text => exact htext
    | data => exact hdata
  have hstart : (Image.empty stackSize).used place = 0 := by cases place <;> rfl
  have hused := Linkage.used_addAll hl place
  rw [hstart, Nat.zero_add] at hused
  exact ⟨hsize.trans hused, hsize.trans_le (l.image.used_le place)⟩

end

/-- A piece is placed if its segment has room for it, and is refused for want of room otherwise. An assembly fails for
want of room in a segment exactly if it comes to a piece that the segment has no room for, with all that has been placed
there before. What a program has placed in a segment is what the segment takes, and never more than its size. -/
theorem segment_room (place : Place) :
    (∀ (p : Piece) (i : Image),
      ((∃ j, p.put place i = .ok j) ↔ ¬p.Overflows (i.used place)) ∧
        (p.put place i = .error (.segmentOverflow place) ↔ p.Overflows (i.used place))) ∧
    ∀ catalog stackSize files,
      (∀ location, FailsAt (assemble catalog stackSize files) (.segmentOverflow place) location ↔
        ∃ ps y t p, Visits catalog stackSize files ps y t ∧
          y.item? = some (place, location, p) ∧ p.Overflows (total place ps)) ∧
      ∀ program, assemble catalog stackSize files = .ok program →
        program.size place = total place (placedIn catalog files) ∧
          program.size place ≤ segmentSize := by
  refine ⟨fun p i => ⟨p.exists_put_iff place i, p.put_eq_error_iff place i⟩,
    fun catalog stackSize files => ⟨fun location => ⟨fun h => ?_, ?_⟩,
      fun program h => size_of_assemble h place⟩⟩
  · obtain ⟨ps, y, t, p, hv, hy, hp⟩ := exists_item_of_overflow (exists_cause h)
    refine ⟨ps, y, t, p, hv, hy, ?_⟩
    rw [← hv.used place, ← Piece.put_eq_error_iff]
    exact State.put_of_add_error hp
  · rintro ⟨ps, y, t, p, hv, hy, ho⟩
    exact failsAt_of_overflow hv hy ho

private theorem refused_behind {bytes : List UInt8} (hb : bytes.length = segmentSize) :
    ∃ i, (Piece.datum (.bytes bytes)).put .data (.empty 0) = .ok i ∧
      i.used .data + (Piece.datum (.bytes [])).size = segmentSize ∧
      (Piece.datum (.bytes [])).put .data i = .error (.segmentOverflow .data) := by
  have hstart : (Image.empty 0).used .data = 0 := rfl
  have hsize : (Piece.datum (.bytes bytes)).size = segmentSize := hb
  have hroom : ¬(Piece.datum (.bytes bytes)).Overflows 0 := by
    rintro (h | ⟨-, h⟩)
    · rw [hsize, Nat.zero_add] at h
      exact h.false
    · cases h
  obtain ⟨i, hi⟩ := (Piece.exists_put_iff _ .data (.empty 0)).mpr (hstart ▸ hroom)
  have hused : i.used .data = segmentSize := by
    rw [Piece.used_put hi, hstart, if_pos rfl, hsize, Nat.zero_add]
  exact ⟨i, hi, hused, (Piece.put_eq_error_iff _ .data i).mpr (.inr ⟨rfl, hused⟩)⟩

/-- A file with a string in its data segment, and an empty string below it. -/
private def emptyBelow (s : String) : Source.File :=
  ⟨"a.s", (StringDirective.ascii.file "a.s" s).text ++ "\n.ascii \"\""⟩

private theorem identify_ascii :
    Source.identify Catalog.builtin StringDirective.ascii.word = .directive := by decide

private theorem identify_data :
    Source.identify Catalog.builtin ".data".toList = .directive := by decide

private theorem ofFile_emptyBelow (s : String) :
    ∃ mode, Script.ofFile Catalog.builtin (emptyBelow s) =
      .piece .data ⟨2, "a.s"⟩ (.datum (.bytes (StringDirective.ascii.bytes s)))
        (.piece .data ⟨3, "a.s"⟩ (.datum (.bytes [])) (.done mode)) := by
  have htext : (emptyBelow s).text.toList =
      ".data".toList ++ [s, ""].flatMap ('\n' :: StringDirective.ascii.line ·) := by
    have hempty : "\n.ascii \"\"".toList = '\n' :: StringDirective.ascii.line "" := by decide
    simp [emptyBelow, StringDirective.file, hempty]
  have hitems := items_strings .ascii identify_data identify_ascii htext
  have hbytes : StringDirective.ascii.bytes "" = [] := by decide
  have hdata (expand : Expansion → Mode → Script) (rest : List Source.Item) :
      Script.ofItems expand ⟨Catalog.builtin, "a.s", []⟩
          (.line ⟨1, [⟨.directive, ".data".toList⟩]⟩ :: rest) .start =
        Script.ofItems expand ⟨Catalog.builtin, "a.s", []⟩ rest
          { Mode.start with place := .data } := rfl
  unfold Script.ofFile Script.ofLines
  rw [hitems]
  refine ⟨{ Mode.start with place := .data, format := .ascii }, (hdata _ _).trans ?_⟩
  refine (ofItems_string .ascii _ _ identify_ascii 2 rfl s _).trans ?_
  refine congrArg (Script.piece .data ⟨2, "a.s"⟩ _) ?_
  rw [← hbytes]
  exact ofItems_string .ascii _ _ identify_ascii 3 rfl "" []

private theorem length_bytes_replicate (n : Nat) :
    (StringDirective.ascii.bytes (String.ofList (List.replicate n 'x'))).length = n := by
  have hx : String.utf8EncodeChar 'x' = [0x78] := by decide
  unfold StringDirective.bytes
  rw [← Text.utf8_eq, Text.utf8, String.toList_ofList, List.flatMap_replicate, hx]
  simp

/-- A file whose items fill the data segment, and that is refused for its last one. -/
private theorem refused_below {s : String}
    (hs : (StringDirective.ascii.bytes s).length = segmentSize) :
    (∃ program, assemble Catalog.builtin 0 [StringDirective.ascii.file "a.s" s] = .ok program ∧
      program.size .data = segmentSize) ∧
    total .data (placedIn Catalog.builtin [emptyBelow s]) = segmentSize ∧
    total .text (placedIn Catalog.builtin [emptyBelow s]) = 0 ∧
    FailsAt (assemble Catalog.builtin 0 [emptyBelow s]) (.segmentOverflow .data) ⟨3, "a.s"⟩ := by
  obtain ⟨mode, hscript⟩ := ofFile_emptyBelow s
  have hsize : (Piece.datum (.bytes (StringDirective.ascii.bytes s))).size = segmentSize := hs
  have hplaced : placedIn Catalog.builtin [emptyBelow s] =
      [(.data, .datum (.bytes (StringDirective.ascii.bytes s))), (.data, .datum (.bytes []))] := by
    simp [placedIn, hscript, Script.placed, Piece.parts]
  refine ⟨?_, ?_, ?_, ?_⟩
  · obtain ⟨p, hp, -, hdata, -⟩ :=
      assemble_string .ascii identify_data identify_ascii "a.s" 0 hs.le
    exact ⟨p, hp, hdata.trans hs⟩
  · rw [hplaced, total_cons, if_pos rfl, hsize]
    rfl
  · rw [hplaced]
    rfl
  · obtain ⟨i, hi, -⟩ := refused_behind hs
    obtain ⟨t, ht⟩ : ∃ t, (State.start (.empty 0)).add .data ⟨2, "a.s"⟩
        (.datum (.bytes (StringDirective.ascii.bytes s))) = .ok t := by
      rw [State.add_eq_map, State.start, hi]
      exact ⟨_, rfl⟩
    have hcomes : (Script.ofFile Catalog.builtin (emptyBelow s)).Comes (.start (.empty 0))
        [(.data, .datum (.bytes (StringDirective.ascii.bytes s)))]
        (.piece .data ⟨3, "a.s"⟩ (.datum (.bytes [])) (.done mode)) t := by
      rw [hscript]
      exact .datum ht .here
    refine failsAt_of_overflow (.first hcomes) rfl (.inr ⟨rfl, ?_⟩)
    rw [total_cons, if_pos rfl, hsize]
    rfl

/-- As many characters as a segment has bytes. -/
private def longString : String :=
  String.ofList (List.replicate segmentSize 'x')

/-- A string that fills the data segment to its last byte is placed. The empty string behind it would end there too, and
is refused. So is the file with these two strings, although what it places takes no more than the segment has. -/
theorem segment_room_empty_string :
    (∃ i, (Piece.datum (.bytes (List.replicate segmentSize 0))).put .data (.empty 0) = .ok i ∧
      i.used .data + (Piece.datum (.bytes [])).size = segmentSize ∧
      (Piece.datum (.bytes [])).put .data i = .error (.segmentOverflow .data)) ∧
    (∃ program, assemble Catalog.builtin 0 [StringDirective.ascii.file "a.s" longString] =
      .ok program ∧ program.size .data = segmentSize) ∧
    total .data (placedIn Catalog.builtin [emptyBelow longString]) = segmentSize ∧
    total .text (placedIn Catalog.builtin [emptyBelow longString]) = 0 ∧
    FailsAt (assemble Catalog.builtin 0 [emptyBelow longString]) (.segmentOverflow .data)
      ⟨3, "a.s"⟩ :=
  ⟨refused_behind List.length_replicate, refused_below (length_bytes_replicate segmentSize)⟩

private def roomyFile : Source.File :=
  ⟨"a.s", ".data\n.ascii \"\"\n.asciz \"é\"\n.ascii \"\"\n.text\nnop"⟩

/-- Empty strings in front of others and behind them. -/
theorem segment_room_strings :
    ∃ program, assemble Catalog.builtin 0 [roomyFile] = .ok program ∧
      program.size .data = 3 ∧ total .data (placedIn Catalog.builtin [roomyFile]) = 3 ∧
      program.size .text = 4 ∧ total .text (placedIn Catalog.builtin [roomyFile]) = 4 := by
  have hok : (assemble Catalog.builtin 0 [roomyFile]).toOption.map (fun p =>
      (p.textSize, p.dataSize)) = some (4, 3) := by decide +kernel
  obtain ⟨p, hp, hsizes⟩ := Option.map_eq_some_iff.mp hok
  obtain ⟨htext, hdata⟩ := Prod.mk.inj hsizes
  rw [toOption_eq_some_iff] at hp
  have hsize (place : Place) := ((segment_room place).2 Catalog.builtin 0 [roomyFile]).2 p hp
  exact ⟨p, hp, hdata, (hsize .data).1.symm.trans hdata, htext, (hsize .text).1.symm.trans htext⟩

end RiscvToolkit.Assembly
