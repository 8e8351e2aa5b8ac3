import RiscvToolkit.Proofs.Assembly.Sites
import RiscvToolkit.Proofs.Source.Token

/-! Lines with one instruction. Such a line is rejected or places its words, wherever it stands, and so is a
program that has no other line. -/
namespace RiscvToolkit

namespace Source
variable {catalog : Catalog}

/-- A line that is read from an instruction on is no directive. -/
theorem leading?_eq_none {number : Nat} {tokens : List Token} {e : Entry} {rest : Operands}
    (h : operands [] tokens = .next (.instruction e) rest) :
    (Line.mk number tokens).leading? = none := by
  unfold operands at h
  unfold Line.leading?
  induction tokens with
  | nil => rfl
  | cons t tokens ih =>
    obtain ⟨kind, text⟩ := t
    cases kind with
    | space => exact ih h
    | directive => cases h
    | _ => rfl

theorem linesFrom_eq {line text : List Char} (h : '\n' ∉ text) (hne : line ≠ [] ∨ text ≠ []) :
    Text.linesFrom line text = [line.reverse ++ text] := by
  fun_induction Text.linesFrom line text with
  | case1 line hl => simp_all
  | case2 line hl => simp
  | case3 line rest => simp at h
  | case4 line c rest hc ih =>
    rw [ih (fun hr => h (List.mem_cons_of_mem c hr)) (.inl (List.cons_ne_nil c line)),
      List.reverse_cons, List.append_assoc]
    rfl

/-- The lines of a text without line feeds. -/
theorem linesOf_eq {text : String} (h : '\n' ∉ text.toList) (hne : text.toList ≠ []) :
    linesOf catalog text = [⟨1, tokenize catalog text.toList⟩] := by
  unfold linesOf Text.lines
  rw [linesFrom_eq h (.inr hne)]
  rfl

theorem items_line {l : Line} (h : l.leading? = none) : items [l] = [.line l] := by
  simp [items, itemsFrom, h]

end Source

theorem add_ofNat_succ (address : UInt64) (k : Nat) :
    address + UInt64.ofNat (4 * (k + 1)) = address + 4 + UInt64.ofNat (4 * k) := by
  rw [Nat.mul_succ, UInt64.ofNat_add, UInt64.add_assoc, UInt64.add_comm 4]
  rfl

/-- True if words lie in memory one behind the other, the first at `address`. -/
def Memory.HoldsWords (memory : Memory) : UInt64 → List UInt32 → Prop
  | _, [] => True
  | address, word :: rest =>
    memory.readWord address = .ok word ∧ memory.HoldsWords (address + 4) rest

theorem Memory.HoldsWords.readWord {memory : Memory} {address : UInt64} {words : List UInt32}
    (h : memory.HoldsWords address words) {k : Nat} (hk : k < words.length) :
    memory.readWord (address + UInt64.ofNat (4 * k)) = .ok words[k] := by
  induction words generalizing address k with
  | nil => exact absurd hk (Nat.not_lt_zero k)
  | cons word rest ih =>
    obtain ⟨hw, hr⟩ := h
    cases k with
    | zero => simpa using hw
    | succ k =>
      rw [add_ofNat_succ]
      exact ih hr (Nat.lt_of_succ_lt_succ hk)

theorem Memory.holdsWords_append {memory : Memory} {address : UInt64} {words rest : List UInt32} :
    memory.HoldsWords address (words ++ rest) ↔
      memory.HoldsWords address words ∧
        memory.HoldsWords (address + UInt64.ofNat (4 * words.length)) rest := by
  induction words generalizing address with
  | nil => simp [HoldsWords]
  | cons word words ih =>
    rw [List.cons_append, HoldsWords, HoldsWords, ih, List.length_cons, add_ofNat_succ, and_assoc]

namespace Assembly
open Source (Operand Operands lineOperands)

/-! ### Words in an image -/

namespace Image

theorem exists_put {i : Image} {place : Place} {bytes : List UInt8} (h0 : i.used place < segmentSize)
    (h : i.used place + bytes.length ≤ segmentSize) : ∃ j, i.put place bytes = .ok j := by
  have hc : (i.cursor place).toUInt64.toNat = place.base + i.used place := by
    rw [UInt32.toNat_toUInt64, i.toNat_cursor]
  obtain ⟨r, hl⟩ := place.exists_locate i.memory (i.cursor place).toUInt64 bytes.length
    (by omega) (by omega) (by omega)
  have hst : i.memory.store (i.cursor place).toUInt64 bytes =
      .ok (i.memory.overwrite r _ bytes) := (i.memory.store_eq_ok_iff _ _ bytes).mpr ⟨r, _, hl, rfl⟩
  obtain ⟨j, hj⟩ : ∃ j, i.reserve place bytes.length = .ok j := by
    unfold reserve
    rw [dif_pos h]
    cases place <;> exact ⟨_, rfl⟩
  obtain ⟨-, -, hu⟩ := (i.reserve_eq_ok_iff j place bytes.length).mp hj
  refine ⟨{ j with memory := i.memory.overwrite r _ bytes },
    (i.put_eq_ok_iff _ place bytes).mpr ⟨h, hst, fun p => ?_⟩⟩
  rw [used_memory, hu p]

/-- Words are placed wherever there is room for them, and no other room is taken. -/
theorem exists_putWords {place : Place} {words : List Emission} {i : Image}
    (h : i.used place + 4 * words.length ≤ segmentSize) :
    ∃ j, putWords place words i = .ok j ∧
      ∀ p, j.used p = i.used p + if p = place then 4 * words.length else 0 := by
  induction words generalizing i with
  | nil => exact ⟨i, rfl, fun p => by simp⟩
  | cons e rest ih =>
    rw [List.length_cons] at h
    have hlen : (LittleEndian.encode 4 e.word.toUInt64).length = 4 :=
      LittleEndian.length_encode ..
    have hroom : i.used place + (LittleEndian.encode 4 e.word.toUInt64).length ≤ segmentSize := by
      omega
    obtain ⟨j, hj⟩ := exists_put (by omega) hroom
    obtain ⟨-, -, hu⟩ := (i.put_eq_ok_iff j place _).mp hj
    rw [hlen] at hu
    obtain ⟨k, hk, huk⟩ := ih (i := j) (by rw [hu place, if_pos rfl]; omega)
    refine ⟨k, ?_, fun p => ?_⟩
    · unfold putWords
      rw [putWord, hj, ok_bind, hk]
    · rw [huk p, hu p, List.length_cons]
      split_ifs <;> omega

end Image

/-- Words that wait for no label. -/
def emissions (words : List UInt32) : List Emission :=
  words.map (⟨·, none⟩)

theorem linksFrom_emissions (location : Location) (address : UInt32) (words : List UInt32) :
    linksFrom location address (emissions words) = [] := by
  induction words generalizing address with
  | nil => rfl
  | cons word rest ih =>
    have hrest := ih (address + 4)
    unfold emissions at hrest ⊢
    rw [List.map_cons, linksFrom, hrest]
    rfl

theorem State.add_emissions (s : State) {place : Place} (location : Location)
    {words : List UInt32} (h : s.image.used place + 4 * words.length ≤ segmentSize) :
    ∃ image, s.add place location (.code (emissions words)) = .ok { s with image } ∧
      Stands image (s.image.cursor place) (emissions words) ∧
      ∀ p, image.used p = s.image.used p + if p = place then 4 * words.length else 0 := by
  have hlen : (emissions words).length = words.length := List.length_map ..
  rw [← hlen] at h ⊢
  obtain ⟨image, hput, hu⟩ := Image.exists_putWords h
  refine ⟨image, ?_, stands_putWords hput, hu⟩
  unfold State.add
  simp only [Piece.put, hput, ok_bind, Piece.relocations, linksFrom_emissions]
  rfl

/-! ### Programs of one line -/

section
variable {catalog : Catalog} {file text : String} {stackSize : Nat}

theorem assembleLines_eq (hn : '\n' ∉ text.toList) {e : Entry} {rest : Operands}
    (hops : lineOperands catalog text.toList = .next (.instruction e) rest) (s : State) :
    assembleLines catalog file (Source.linesOf catalog text) s =
      assembleOperands (expand catalog file maxDepth) ⟨catalog, file, []⟩ 1
        (.next (.instruction e) rest) s := by
  have hne : text.toList ≠ [] := by
    intro h
    rw [h] at hops
    cases hops
  rw [Source.linesOf_eq hn hne]
  unfold assembleLines
  rw [Source.items_line (Source.leading?_eq_none hops)]
  unfold assembleItems
  change (assembleOperands _ _ 1 (lineOperands catalog text.toList) s >>= _) = _
  rw [hops]
  cases assembleOperands (expand catalog file maxDepth) ⟨catalog, file, []⟩ 1
    (.next (.instruction e) rest) s <;> rfl

theorem assemble_eq_error (hn : '\n' ∉ text.toList) {e : Entry} {rest : Operands}
    (hops : lineOperands catalog text.toList = .next (.instruction e) rest) {error : Error}
    (h : assembleOperands (expand catalog file maxDepth) ⟨catalog, file, []⟩ 1
      (.next (.instruction e) rest) (.start (.empty stackSize)) = .error error) :
    assemble catalog stackSize [⟨file, text⟩] = .error error := by
  have hadd : Linkage.add catalog ⟨file, text⟩ ⟨.empty stackSize, [], #[], #[]⟩ =
      .error error := by
    unfold Linkage.add
    dsimp only
    rw [assembleLines_eq hn hops, h]
    rfl
  unfold assemble Linkage.addAll
  dsimp only
  rw [hadd]
  rfl

/-- A line that places an image and nothing else makes up a program. -/
theorem assemble_eq_ok (hn : '\n' ∉ text.toList) {e : Entry} {rest : Operands}
    (hops : lineOperands catalog text.toList = .next (.instruction e) rest) {image : Image}
    (h : assembleOperands (expand catalog file maxDepth) ⟨catalog, file, []⟩ 1
      (.next (.instruction e) rest) (.start (.empty stackSize)) =
        .ok { State.start (.empty stackSize) with image }) :
    assemble catalog stackSize [⟨file, text⟩] =
      .ok ⟨image.memory, (UInt32.ofNat textBase).toUInt64, image.textSize, image.dataSize, []⟩ := by
  have hadd : Linkage.add catalog ⟨file, text⟩ ⟨.empty stackSize, [], #[], #[]⟩ =
      .ok ⟨image, [], #[], #[]⟩ := by
    unfold Linkage.add
    dsimp only
    rw [assembleLines_eq hn hops, h]
    rfl
  unfold assemble Linkage.addAll
  dsimp only
  rw [hadd]
  rfl

end

theorem Stands.holdsWords {i : Image} {address : UInt32} {words : List UInt32}
    (h : Stands i address (emissions words)) : i.memory.HoldsWords address.toUInt64 words := by
  induction words generalizing address with
  | nil => trivial
  | cons word rest ih =>
    obtain ⟨hi, hw, hr⟩ := h
    exact ⟨hw, toUInt64_add_four hi ▸ ih hr⟩

/-- The listing of a program whose text is these words. -/
theorem words_eq {p : Program} {words : List UInt32} (hs : p.textSize = 4 * words.length)
    (h : p.memory.HoldsWords (UInt64.ofNat textBase) words) :
    p.words = words.zipIdx.map fun (word, k) => (UInt32.ofNat (textBase + 4 * k), word) := by
  have hcount : (p.textSize + 3) / 4 = words.length := by omega
  -- no read of the listing fails, so that it has as many words as there are
  have hword : ∀ k ∈ List.range words.length,
      ((p.memory.readWord (UInt64.ofNat (textBase + 4 * k))).toOption.map
        (UInt32.ofNat (textBase + 4 * k), ·)) =
        some (UInt32.ofNat (textBase + 4 * k), words.getD k 0) := by
    intro k hk
    have hk := List.mem_range.mp hk
    rw [UInt64.ofNat_add, h.readWord hk, List.getD_eq_getElem words 0 hk]
    rfl
  unfold Program.words
  rw [hcount]
  dsimp only
  rw [List.filterMap_congr hword, List.filterMap_eq_map']
  apply List.ext_getElem
  · simp
  · intro k hk hk'
    simp only [List.length_map, List.length_range] at hk
    simp [hk]

theorem fitsSigned12_iff (n : Int) : fitsSigned12 n = true ↔ -2048 ≤ n ∧ n ≤ 2047 := by
  simp [fitsSigned12]

/-! ### Lines -/

/-- True of a line that is an error of this kind: it stops any block that it stands in, and a program that has no
other line. -/
structure Rejected (line : List Operand) (kind : ErrorKind) : Prop where
  anywhere : ∀ (expand : Expander) (c : Context) (number : Nat) (s : State),
    assembleOperands expand c number (operandsOf line) s = .error ⟨kind, ⟨number, c.file⟩, []⟩
  alone : ∀ (file text : String) (stackSize : Nat), '\n' ∉ text.toList →
    lineOperands Catalog.builtin text.toList = operandsOf line →
    assemble Catalog.builtin stackSize [⟨file, text⟩] = .error ⟨kind, ⟨1, file⟩, []⟩

/-- True of a line that places these words and nothing else, in any block that it stands in, and in a program
that has no other line. -/
structure Emits (line : List Operand) (words : List UInt32) : Prop where
  anywhere : ∀ (expand : Expander) (c : Context) (number : Nat) (s : State),
    assembleOperands expand c number (operandsOf line) s =
      located number c.file (s.add s.place ⟨number, c.file⟩ (.code (emissions words)))
  alone : ∀ (file text : String) (stackSize : Nat), '\n' ∉ text.toList →
    lineOperands Catalog.builtin text.toList = operandsOf line →
    ∃ p, assemble Catalog.builtin stackSize [⟨file, text⟩] = .ok p ∧
      p.memory.HoldsWords (UInt64.ofNat textBase) words ∧
      p.words = words.zipIdx.map (fun (word, k) => (UInt32.ofNat (textBase + 4 * k), word)) ∧
      p.textSize = 4 * words.length ∧ p.dataSize = 0

section
variable {e : Entry} {ops : List Operand}

theorem assembleOperands_instruction (he : ∀ params lines, e.encoding ≠ .template params lines)
    (expand : Expander) (c : Context) (number : Nat) (s : State) :
    assembleOperands expand c number (operandsOf (.instruction e :: ops)) s =
      located number c.file (do
        let code := encode e.encoding (operandsOf ops)
        let s ← s.add s.place ⟨number, c.file⟩ (.code code.words)
        match code.failure with
        | none => .ok s
        | some kind => .error kind) := by
  obtain ⟨name, encoding⟩ := e
  cases encoding with
  | template params lines => exact absurd rfl (he params lines)
  | _ => rfl

theorem rejected_of_encode {kind : ErrorKind}
    (he : ∀ params lines, e.encoding ≠ .template params lines)
    (h : encode e.encoding (operandsOf ops) = .fail kind) :
    Rejected (.instruction e :: ops) kind := by
  have hany (expand : Expander) (c : Context) (number : Nat) (s : State) :
      assembleOperands expand c number (operandsOf (.instruction e :: ops)) s =
        .error ⟨kind, ⟨number, c.file⟩, []⟩ := by
    rw [assembleOperands_instruction he, h]
    rfl
  exact ⟨hany, fun file text stackSize hn hops => assemble_eq_error hn hops (hany ..)⟩

theorem emits_of_encode {words : List UInt32}
    (he : ∀ params lines, e.encoding ≠ .template params lines)
    (h : encode e.encoding (operandsOf ops) = ⟨emissions words, none⟩)
    (hlen : 4 * words.length ≤ segmentSize) : Emits (.instruction e :: ops) words := by
  have hany (expand : Expander) (c : Context) (number : Nat) (s : State) :
      assembleOperands expand c number (operandsOf (.instruction e :: ops)) s =
        located number c.file (s.add s.place ⟨number, c.file⟩ (.code (emissions words))) := by
    rw [assembleOperands_instruction he, h]
    dsimp only
    cases s.add s.place ⟨number, c.file⟩ (.code (emissions words)) <;> rfl
  refine ⟨hany, fun file text stackSize hn hops => ?_⟩
  have hroom : (Image.empty stackSize).used .text + 4 * words.length ≤ segmentSize := by
    simpa [Image.empty, Image.used] using hlen
  obtain ⟨image, hadd, hst, hu⟩ := State.add_emissions (.start (.empty stackSize)) ⟨1, file⟩ hroom
  have hline := (hany (expand Catalog.builtin file maxDepth) ⟨Catalog.builtin, file, []⟩ 1
    (.start (.empty stackSize))).trans (congrArg (located 1 file) hadd)
  have htext : image.textSize = 4 * words.length := (hu .text).trans (Nat.zero_add _)
  have hdata : image.dataSize = 0 := hu .data
  have hholds : image.memory.HoldsWords (UInt64.ofNat textBase) words := hst.holdsWords
  exact ⟨_, assemble_eq_ok hn hops hline, hholds, words_eq htext hholds, htext, hdata⟩

end

end Assembly

end RiscvToolkit
