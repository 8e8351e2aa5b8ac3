import RiscvToolkit.Proofs.Assembly.Inventory
import RiscvToolkit.Proofs.Assembly.Line
import RiscvToolkit.Proofs.Assembly.Trace
import RiscvToolkit.Proofs.Memory.ByteMap
import RiscvToolkit.Proofs.Source.Layout
import RiscvToolkit.Proofs.Source.Operands
import RiscvToolkit.Proofs.Source.Tree

/-! Lines that place a string. Every text can be written as a literal, which is read as the text whatever follows it on
its line, and a string directive places the bytes of the text. -/
namespace RiscvToolkit

namespace Source
open Text.Quoted (Denotes Inside)

/-- How a character is written between double quotes. -/
def stringChar (c : Char) : List Char :=
  if c = '\\' ∨ c = '"' then ['\\', c] else if c = '\n' then ['\\', 'n'] else [c]

/-- How a text is written as a literal. -/
def literal (s : String) : List Char :=
  '"' :: (s.toList.flatMap stringChar ++ ['"'])

theorem denotes_stringChars (cs : List Char) : Denotes (cs.flatMap stringChar) cs := by
  induction cs with
  | nil => exact .nil
  | cons c cs ih =>
    rw [List.flatMap_cons]
    unfold stringChar
    split_ifs with hc hn
    · rcases hc with rfl | rfl
      · exact .escape rfl ih
      · exact .escape rfl ih
    · exact .escape (congrArg some hn.symm) ih
    · exact .plain (fun h => hc (.inl h)) ih

theorem inside_stringChars (cs : List Char) : Inside '"' (cs.flatMap stringChar) := by
  induction cs with
  | nil => exact .nil
  | cons c cs ih =>
    rw [List.flatMap_cons]
    unfold stringChar
    split_ifs with hc hn
    · exact ih.pair c
    · exact ih.pair 'n'
    · exact .plain (fun h => hc (.inl h)) (fun h => hc (.inr h)) ih

theorem newline_notMem_literal (s : String) : '\n' ∉ literal s := by
  have hchar (c : Char) : '\n' ∉ stringChar c := by
    unfold stringChar
    split_ifs with hc hn
    · rcases hc with rfl | rfl <;> decide
    · decide
    · exact fun h => hn (List.mem_singleton.mp h).symm
  have hchars : '\n' ∉ s.toList.flatMap stringChar := fun h => by
    obtain ⟨c, -, hc⟩ := List.mem_flatMap.mp h
    exact hchar c hc
  simp [literal, hchars]

variable (catalog : Catalog)

/-- A literal is one token, and what follows is read as a line of its own. -/
theorem tokenize_literal (s : String) (rest : List Char) :
    tokenize catalog (literal s ++ rest) = ⟨.string, literal s⟩ :: tokenize catalog rest := by
  have hquote : '"' ≠ '\\' := by decide
  have hsplit := splitQuoted_of_inside hquote (inside_stringChars s.toList) rest
  have hnext : nextToken catalog '"' (s.toList.flatMap stringChar ++ '"' :: rest) =
      (⟨.string, literal s⟩, rest) := by
    unfold nextToken
    rw [if_pos rfl, hsplit]
    rfl
  have hline : literal s ++ rest = '"' :: (s.toList.flatMap stringChar ++ '"' :: rest) := by
    simp [literal]
  rw [hline, tokenize_cons, hnext]

theorem operand_literal (bindings : Bindings) (s : String) :
    Token.operand bindings ⟨.string, literal s⟩ = .ok (.string s) := by
  have hinner : Token.inner ⟨.string, literal s⟩ = s.toList.flatMap stringChar :=
    List.dropLast_concat
  have hdecoded : Token.decoded ⟨.string, literal s⟩ = .ok s.toList := by
    rw [decoded_eq_ok_iff, hinner]
    exact denotes_stringChars s.toList
  have hs : String.ofList s.toList = s := String.ofList_toList
  simp [Token.operand, hdecoded, Except.map, hs]

/-- A literal of a line has no backslash too many to be read. -/
theorem Token.Begins.operand_ne {t : Token} (ht : t.Begins catalog) (bindings : Bindings) :
    t.operand bindings ≠ .error (.invalidEscape '\\') := by
  intro h
  rcases t.fine_or_faulty with hfine | ⟨kind, hf⟩
  · by_cases hs : t.kind.isSingle = true
    · obtain ⟨o, ho⟩ := hfine.operand bindings hs
      cases ho.symm.trans h
    · obtain ⟨kind, text⟩ := t
      cases kind <;> first | exact hs rfl | cases h
  · have hkind := Except.error.inj ((hf.operand bindings).2.symm.trans h)
    subst hkind
    cases hf with
    | escape hk hb =>
      obtain ⟨quote, -, hinside⟩ := ht.inside hk
      exact hinside.decode_ne (Text.Quoted.decode_eq_error_iff.mpr hb)

theorem toList_ne_missing (line : List Char) (bindings : Bindings) :
    (operands bindings (tokenize catalog line)).toList ≠ .error (.invalidEscape '\\') := by
  have hjoined : Joined catalog (tokenize catalog line) := joined_tokenize line
  have hall : (operands bindings (tokenize catalog line)).All (fun _ => True)
      (· ≠ .invalidEscape '\\') := by
    refine all_operandsFrom (fun _ _ => trivial) (fun h => nomatch h) (fun _ _ _ _ => trivial)
      (fun t ht kind hk => ?_) (List.forall_mem_nil _)
    rintro rfl
    exact (hjoined.begins t ht).operand_ne catalog bindings hk
  exact fun h => hall.of_toList_error h rfl

/-- Lines of which none defines a macro. -/
theorem items_eq_map {ls : List Line} (h : ∀ l ∈ ls, l.leading? ≠ some "macro".toList) :
    items ls = ls.map .line := by
  unfold items
  induction ls with
  | nil => rfl
  | cons l ls ih =>
    obtain ⟨hl, hls⟩ := List.forall_mem_cons.mp h
    rw [itemsFrom, if_neg hl, ih hls, List.map_cons]

end Source

namespace Assembly
open Source (Operand Operands Bindings literal)

/-- The directives that strings follow. -/
inductive StringDirective where
  | ascii
  | asciz

namespace StringDirective

def name : StringDirective → String
  | ascii => "ascii"
  | asciz => "asciz"

def format : StringDirective → DataFormat
  | ascii => .ascii
  | asciz => .asciz

/-- What a string is placed as: its UTF-8 bytes, and a zero behind them for `.asciz`. -/
def bytes (s : String) : StringDirective → List UInt8
  | ascii => s.toUTF8.data.toList
  | asciz => s.toUTF8.data.toList ++ [0]

def word (d : StringDirective) : List Char :=
  '.' :: d.name.toList

/-- The line of a directive and one string. -/
def line (d : StringDirective) (s : String) : List Char :=
  d.word ++ ' ' :: literal s

variable (d : StringDirective)

theorem store_eq (s : String) : d.format.store (.string s) = .ok (.bytes (d.bytes s)) := by
  cases d <;> simp [format, DataFormat.store, bytes, Text.utf8_eq]

theorem mode_store_eq {m : Mode} (hm : m.place = .data) (s : String) :
    Mode.store { m with format := d.format } (.string s) = .ok (.bytes (d.bytes s)) := by
  unfold Mode.store
  dsimp only
  rw [hm]
  exact d.store_eq s

theorem ofName?_ne : Directive.ofName? d.name ≠ some .global := by
  cases d <;> decide

theorem applyDirective_eq {m : Mode} (hm : m.place = .data) :
    applyDirective d.name m = .ok { m with format := d.format } := by
  cases d <;> simp [applyDirective, name, Directive.ofName?, hm, format]

theorem newline_notMem_line (s : String) : '\n' ∉ d.line s := by
  have hword : '\n' ∉ d.word := by cases d <;> decide
  simp [line, hword, Source.newline_notMem_literal]

/-- The lines of strings below a line. -/
theorem lines_append_strings {line : List Char} (hn : '\n' ∉ line) (hne : line ≠ [])
    (hr : line.getLast? ≠ some '\r') (ss : List String) :
    Text.lines (line ++ ss.flatMap ('\n' :: d.line ·)) = line :: ss.map d.line := by
  induction ss generalizing line with
  | nil =>
    rw [List.flatMap_nil, List.append_nil, Text.lines, Source.linesFrom_eq hn (.inr hne)]
    rfl
  | cons s ss ih =>
    have hline : d.line s = (d.word ++ ' ' :: '"' :: s.toList.flatMap Source.stringChar) ++ ['"'] := by
      simp [StringDirective.line, literal]
    have hs : d.line s ≠ [] := by simp [StringDirective.line]
    have hlast : (d.line s).getLast? ≠ some '\r' := by
      rw [hline, List.getLast?_concat]
      decide
    rw [List.flatMap_cons, List.cons_append, Source.lines_append_feed hn,
      Source.closeLine_of_ne hr, ih (d.newline_notMem_line s) hs hlast]
    rfl

section
variable {catalog : Catalog} (hd : Source.identify catalog d.word = .directive)
include hd

theorem tokenize_line (s : String) (rest : List Char) :
    Source.tokenize catalog (d.line s ++ rest) =
      ⟨.directive, d.word⟩ :: ⟨.space, [' ']⟩ :: ⟨.string, literal s⟩ ::
        Source.tokenize catalog rest := by
  have hword : Source.IsWord d.word := by cases d <;> decide
  have hline : d.line s ++ rest = d.word ++ ' ' :: (literal s ++ rest) := by simp [line]
  have hquote : ∀ c ∈ (literal s ++ rest).head?, Source.isSpace c = false := by
    rintro c ⟨⟩
    rfl
  rw [hline, Source.tokenize_word catalog hword (.cons rfl _), hd,
    Source.tokenize_space catalog rfl hquote, Source.tokenize_literal]

theorem operands_line (bindings : Bindings) (s : String) (rest : List Char) :
    Source.operands bindings (Source.tokenize catalog (d.line s ++ rest)) =
      .next (.directive d.name)
        (.next (.string s) (Source.operands bindings (Source.tokenize catalog rest))) := by
  have hname : String.ofList d.word.tail = d.name := String.ofList_toList
  have hdirective : Source.Token.operand bindings ⟨.directive, d.word⟩ =
      .ok (.directive d.name) := by simp [Source.Token.operand, hname]
  rw [d.tokenize_line hd]
  unfold Source.operands
  rw [Source.operandsFrom_operand hdirective,
    Source.put, Source.operandsFrom_trivia rfl,
    Source.operandsFrom_operand (Source.operand_literal bindings s), Source.put]

/-- No macro is defined by a line with a string. -/
theorem leading?_line (number : Nat) (s : String) :
    (Source.Line.mk number (Source.tokenize catalog (d.line s))).leading? ≠
      some "macro".toList := by
  have hline := d.tokenize_line hd s []
  rw [List.append_nil] at hline
  rw [hline]
  cases d <;> simp [Source.Line.leading?, word, name]

end

end StringDirective

/-- True of an image that another becomes when bytes are placed in its data segment, which is empty. -/
structure Image.PlacesFirst (i : Image) (bytes : List UInt8) (j : Image) : Prop where
  memory : j.memory.byte? = ByteMap.overwrite i.memory.byte? (UInt64.ofNat dataBase) bytes
  dataSize : j.dataSize = bytes.length
  textSize : j.textSize = i.textSize

/-- A string that fits is placed at the start of a data segment that is empty. -/
theorem StringDirective.exists_placeDatum (d : StringDirective) {st : State}
    (hp : st.place = .data) (h0 : st.image.dataSize = 0) {s : String}
    (hfits : (d.bytes s).length ≤ segmentSize) (location : Location) :
    ∃ image, placeDatum location (.string s) { st with format := d.format } =
        .ok { st with format := d.format, image } ∧
      st.image.PlacesFirst (d.bytes s) image := by
  have h0 : st.image.used .data = 0 := h0
  have hroom : st.image.used .data + (d.bytes s).length ≤ segmentSize := by
    rwa [h0, Nat.zero_add]
  obtain ⟨image, himage⟩ := Image.exists_put (by rw [h0]; decide) hroom
  obtain ⟨-, hst, hu⟩ := (st.image.put_eq_ok_iff image .data _).mp himage
  have hcursor : (st.image.cursor .data).toUInt64 = UInt64.ofNat dataBase := by
    rw [Image.cursor, h0]
    rfl
  rw [hcursor] at hst
  refine ⟨image, ?_, Memory.byte?_store hst, ?_, ?_⟩
  · unfold placeDatum
    rw [d.mode_store_eq hp, ok_bind, State.add_eq_map]
    dsimp only [Piece.put]
    rw [himage]
    simp [Piece.relocations, Except.map]
  · have hdata := hu .data
    rwa [if_pos rfl, h0, Nat.zero_add] at hdata
  · exact (hu .text).trans (Nat.add_zero _)

/-- The line of a directive and a string, in any block, where the data segment is empty. -/
theorem assembleOperands_string (d : StringDirective) (expand : Expander) (c : Context)
    (hd : Source.identify c.catalog d.word = .directive) (number : Nat) (st : State)
    (hp : st.place = .data) (h0 : st.image.dataSize = 0) {s : String}
    (hfits : (d.bytes s).length ≤ segmentSize) (rest : List Char) :
    ∃ image, assembleOperands expand c number
        (Source.operands c.bindings (Source.tokenize c.catalog (d.line s ++ rest))) st =
          assembleOperands expand c number
            (Source.operands c.bindings (Source.tokenize c.catalog rest))
            { st with format := d.format, image } ∧
      st.image.PlacesFirst (d.bytes s) image := by
  obtain ⟨image, hplace, himage⟩ := d.exists_placeDatum hp h0 hfits ⟨number, c.file⟩
  refine ⟨image, ?_, himage⟩
  have hmode : located number c.file (applyDirective d.name st.toMode) =
      .ok { st.toMode with format := d.format } :=
    congrArg (located number c.file) (d.applyDirective_eq hp)
  have hplaced : located number c.file (placeDatum ⟨number, c.file⟩ (.string s)
      { st with format := d.format }) = .ok { st with format := d.format, image } :=
    congrArg (located number c.file) hplace
  rw [d.operands_line hd, assembleOperands, if_neg d.ofName?_ne, hmode, ok_bind, assembleOperands,
    hplaced, ok_bind]

/-- The script of a block that begins with a string, in a data segment. -/
theorem ofItems_string (d : StringDirective) (expand : Expansion → Mode → Script)
    (c : Context) (hd : Source.identify c.catalog d.word = .directive) (number : Nat) {m : Mode}
    (hm : m.place = .data) (s : String) (rest : List Source.Item) :
    Script.ofItems expand c (.line ⟨number, Source.tokenize c.catalog (d.line s)⟩ :: rest) m =
      .piece .data ⟨number, c.file⟩ (.datum (.bytes (d.bytes s)))
        (Script.ofItems expand c rest { m with format := d.format }) := by
  have hoperands := d.operands_line hd c.bindings s []
  rw [List.append_nil] at hoperands
  rw [Script.ofItems, hoperands, Script.ofOperands, if_neg d.ofName?_ne, d.applyDirective_eq hm,
    Script.check, Script.ofOperands, Script.ofDatum, d.mode_store_eq hm, Script.check]
  rfl

/-- A file that has a data segment with a string in it. -/
def StringDirective.file (name : String) (d : StringDirective) (s : String) : Source.File :=
  ⟨name, String.ofList (".data".toList ++ '\n' :: d.line s)⟩

section
variable (d : StringDirective) {catalog : Catalog}
  (hdata : Source.identify catalog ".data".toList = .directive)
  (hd : Source.identify catalog d.word = .directive)
include hdata hd

/-- Strings below each other in a data segment, as the items of a file. -/
theorem items_strings {text : String} {ss : List String}
    (ht : text.toList = ".data".toList ++ ss.flatMap ('\n' :: d.line ·)) :
    Source.items (Source.linesOf catalog text) =
      .line ⟨1, [⟨.directive, ".data".toList⟩]⟩ ::
        ss.zipIdx.map fun (s, i) => .line ⟨i + 2, Source.tokenize catalog (d.line s)⟩ := by
  have hsegment : Source.tokenize catalog ".data".toList = [⟨.directive, ".data".toList⟩] := by
    have hword : Source.IsWord ".data".toList := by decide
    have h := Source.tokenize_word catalog hword .nil
    rwa [List.append_nil, hdata] at h
  have hlines : Source.linesOf catalog text = ⟨1, [⟨.directive, ".data".toList⟩]⟩ ::
      ss.zipIdx.map fun (s, i) => ⟨i + 2, Source.tokenize catalog (d.line s)⟩ := by
    unfold Source.linesOf
    rw [ht, d.lines_append_strings (by decide) (by decide) (by decide), List.zipIdx_cons,
      List.map_cons, List.zipIdx_succ, List.zipIdx_map, List.map_map, List.map_map, ← hsegment]
    rfl
  rw [hlines, Source.items_eq_map, List.map_cons, List.map_map]
  · rfl
  · rintro l (_ | ⟨_, hl⟩)
    · decide
    · obtain ⟨⟨s, i⟩, -, rfl⟩ := List.mem_map.mp hl
      exact d.leading?_line hd (i + 2) s

theorem items_string (name s : String) :
    Source.items (Source.linesOf catalog (d.file name s).text) =
      [.line ⟨1, [⟨.directive, ".data".toList⟩]⟩,
        .line ⟨2, Source.tokenize catalog (d.line s)⟩] := by
  have htext : (d.file name s).text.toList =
      ".data".toList ++ [s].flatMap ('\n' :: d.line ·) := by simp [StringDirective.file]
  exact items_strings d hdata hd htext

/-- A program that is a string. -/
theorem assemble_string (name : String) (stackSize : Nat) {s : String}
    (hfits : (d.bytes s).length ≤ segmentSize) :
    ∃ p, assemble catalog stackSize [d.file name s] = .ok p ∧
      p.memory.byte? = ByteMap.overwrite (Memory.empty.withStack stackSize).byte?
        (UInt64.ofNat dataBase) (d.bytes s) ∧
      p.dataSize = (d.bytes s).length ∧ p.textSize = 0 := by
  let start : State := { State.start (.empty stackSize) with place := .data }
  obtain ⟨image, hstring, himage⟩ := assembleOperands_string d (expand catalog name maxDepth)
    ⟨catalog, name, []⟩ hd 2 start rfl rfl hfits []
  rw [List.append_nil] at hstring
  have hlines : assembleLines catalog name (Source.linesOf catalog (d.file name s).text)
      (.start (.empty stackSize)) = .ok { start with format := d.format, image } := by
    have hfirst : assembleOperands (expand catalog name maxDepth) ⟨catalog, name, []⟩ 1
        (Source.operands [] [⟨.directive, ".data".toList⟩]) (.start (.empty stackSize)) =
          .ok start := rfl
    unfold assembleLines
    rw [items_string d hdata hd, assembleItems, hfirst, ok_bind, assembleItems, hstring]
    rfl
  have hadd : Linkage.add catalog (d.file name s) ⟨.empty stackSize, [], #[], #[]⟩ =
      .ok ⟨image, [], #[], #[]⟩ := by
    have hname : (d.file name s).name = name := rfl
    unfold Linkage.add
    dsimp only
    rw [hname, hlines]
    rfl
  refine ⟨⟨image.memory, (UInt32.ofNat textBase).toUInt64, image.textSize, image.dataSize, []⟩,
    ?_, himage.memory, himage.dataSize, himage.textSize⟩
  unfold assemble Linkage.addAll
  dsimp only
  rw [hadd]
  rfl

end

/-- A text between double quotes, with a backslash in front of each backslash, each double quote and each line feed, is one
token, whatever it is made of. Behind `.ascii` or `.asciz`, in any block where the data segment is empty, and in a program
that has nothing else, exactly the UTF-8 bytes of the text are placed, with a zero behind them for `.asciz`, if they fit.
In every line, the backslashes at the end of what stands between the quotes of a literal are pairs, and no line is refused
for a backslash that nothing follows. -/
theorem string_literals (catalog : Catalog) :
    (∀ s, Source.tokenize catalog (literal s) = [⟨.string, literal s⟩]) ∧
    (∀ (d : StringDirective) (s : String), Source.identify catalog d.word = .directive →
      (d.bytes s).length ≤ segmentSize →
      (∀ expand file bindings number (st : State) rest, st.place = .data → st.image.dataSize = 0 →
        ∃ image, st.image.PlacesFirst (d.bytes s) image ∧
          assembleOperands expand ⟨catalog, file, bindings⟩ number
            (Source.operands bindings (Source.tokenize catalog (d.line s ++ rest))) st =
          assembleOperands expand ⟨catalog, file, bindings⟩ number
            (Source.operands bindings (Source.tokenize catalog rest))
            { st with format := d.format, image }) ∧
      (Source.identify catalog ".data".toList = .directive → ∀ name stackSize,
        ∃ p, assemble catalog stackSize [d.file name s] = .ok p ∧
          p.memory.byte? = ByteMap.overwrite (Memory.empty.withStack stackSize).byte?
            (UInt64.ofNat dataBase) (d.bytes s) ∧
          p.dataSize = (d.bytes s).length ∧ p.textSize = 0)) ∧
    ∀ line,
      (∀ t ∈ Source.tokenize catalog line, t.kind.isLiteral = true →
        Even (Text.Quoted.trailing t.inner)) ∧
      ∀ bindings, (Source.operands bindings (Source.tokenize catalog line)).toList ≠
        .error (.invalidEscape '\\') := by
  refine ⟨fun s => ?_, fun d s hd hfits => ⟨?_, fun hdata name stackSize => ?_⟩,
    fun line => ⟨fun t ht hk => ?_, Source.toList_ne_missing catalog line⟩⟩
  · have h := Source.tokenize_literal catalog s []
    rwa [List.append_nil] at h
  · intro expand file bindings number st rest hp h0
    obtain ⟨image, hline, himage⟩ := assembleOperands_string d expand
      ⟨catalog, file, bindings⟩ hd number st hp h0 hfits rest
    exact ⟨image, himage, hline⟩
  · exact assemble_string d hdata hd name stackSize hfits
  · obtain ⟨quote, -, hinside⟩ := ((Source.joined_tokenize line).begins t ht).inside hk
    exact hinside.even_trailing

/-- A backslash, a quote, a hash sign, a character of two bytes and a line feed. -/
theorem string_literals_asciz :
    ∃ p, assemble Catalog.builtin 0 [StringDirective.asciz.file "a.s" "\\\"#é\n"] = .ok p ∧
      p.memory.byte? = ByteMap.overwrite (Memory.empty.withStack 0).byte? (UInt64.ofNat dataBase)
        [0x5c, 0x22, 0x23, 0xc3, 0xa9, 0x0a, 0] ∧
      p.dataSize = 7 ∧ p.textSize = 0 := by
  have hbytes : StringDirective.asciz.bytes "\\\"#é\n" =
      [0x5c, 0x22, 0x23, 0xc3, 0xa9, 0x0a, 0] := by rfl
  have hd : Source.identify Catalog.builtin StringDirective.asciz.word = .directive := by decide
  have hdata : Source.identify Catalog.builtin ".data".toList = .directive := by decide
  have hfits : (StringDirective.asciz.bytes "\\\"#é\n").length ≤ segmentSize := by
    rw [hbytes]
    decide
  have h := ((string_literals Catalog.builtin).2.1 .asciz _ hd hfits).2 hdata "a.s" 0
  rwa [hbytes] at h

end Assembly

end RiscvToolkit
