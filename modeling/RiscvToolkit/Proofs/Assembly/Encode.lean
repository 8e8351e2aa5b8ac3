import RiscvToolkit.Proofs.Assembly.Line
import RiscvToolkit.Proofs.Disassembly

/-! Lines of machine instructions. A literal that does not fit its field is an error; any other line places one word,
which is decoded to what the line says, and the text of a word is a line that places it. -/
namespace RiscvToolkit.Assembly
open Source (Arguments Operand Operands lineOperands)

/-- The error of a literal that an encoding has no room for. -/
def rangeError : Encoding → Int → ErrorKind
  | .i _ _ (.shift ..), n => .outOfRange5Bit n
  | .i _ _ (.offset _), n | .s .., n => .outOfRangeOffset n
  | .u _, n => .outOfRange20Bit n
  | _, n => .outOfRange12Bit n

/-! ### Operands -/

section
variable (r : Reg) (n : Int) (rest : Operands)

@[simp] theorem expectRegister_next :
    expectRegister .int (.next (.register ⟨r, .int⟩) rest) = .ok (r, rest) := rfl

@[simp] theorem expectSigned12_next :
    expectSigned12 (.next (.int n) rest) =
      if fitsSigned12 n then .ok (n, rest) else .error (.outOfRange12Bit n) := rfl

@[simp] theorem expectAmount_next :
    expectAmount (.next (.int n) rest) =
      if 0 ≤ n && n ≤ 31 then .ok (n, rest) else .error (.outOfRange5Bit n) := rfl

@[simp] theorem upperOperand_next :
    upperOperand (.next (.int n) rest) =
      if -524288 ≤ n ∧ n ≤ 524287 then .ok (UInt32.ofInt n <<< 12, none, rest)
      else .error (.outOfRange20Bit n) := rfl

@[simp] theorem memoryOperand_offset (scratch : Option Reg) :
    memoryOperand scratch (.next (.int n) (.next (.group [.register ⟨r, .int⟩]) rest)) =
      if fitsSigned12 n then .ok ⟨[], r, UInt32.ofInt n &&& 0xfff, none, rest⟩
      else .error (.outOfRangeOffset n) := rfl

end

/-- Arguments that fit their fields become one word. -/
theorem encode_of_admits {e : Encoding} {a : Arguments} (ha : e.Takes a)
    (hn : ∀ n ∈ a.literal?, e.Admits n) :
    encode e (operandsOf a.operands) = ⟨emissions [e.word a], none⟩ := by
  cases ha with
  | register => rfl
  | @immediate opcode funct3 rd rs1 n =>
    have hf : fitsSigned12 n = true := (fitsSigned12_iff n).mpr (hn n rfl)
    simp only [encode, Arguments.operands, operandsOf, expectRegister_next, ok_bind,
      expectSigned12_next, hf, if_true]
    rfl
  | @shift opcode funct3 funct7 rd rs1 n =>
    obtain ⟨hl, hg⟩ : 0 ≤ n ∧ n ≤ 31 := hn n rfl
    simp only [encode, Arguments.operands, operandsOf, expectRegister_next, ok_bind,
      expectAmount_next, hl, hg, decide_true, Bool.and_self, if_true]
    rfl
  | @offset opcode funct3 rd base n =>
    cases n with
    | none => rfl
    | some n =>
      have hf : fitsSigned12 n = true := (fitsSigned12_iff n).mpr (hn n rfl)
      simp only [encode, Arguments.operands, Option.map_some, Option.toList_some, List.cons_append,
        List.nil_append, operandsOf, expectRegister_next, memoryOperand_offset, hf, if_true]
      rfl
  | @store opcode funct3 source base n =>
    cases n with
    | none => rfl
    | some n =>
      have hf : fitsSigned12 n = true := (fitsSigned12_iff n).mpr (hn n rfl)
      simp only [encode, Arguments.operands, Option.map_some, Option.toList_some, List.cons_append,
        List.nil_append, operandsOf, expectRegister_next, memoryOperand_offset, hf, if_true]
      rfl
  | @upper opcode rd n =>
    have hr : -524288 ≤ n ∧ n ≤ 524287 := hn n rfl
    simp only [encode, Arguments.operands, operandsOf, expectRegister_next, ok_bind,
      upperOperand_next, hr, and_self, if_true]
    rfl
  | word => rfl

/-- A literal that does not fit its field is an error that names it. -/
theorem encode_of_not_admits {e : Encoding} {a : Arguments} (ha : e.Takes a) {n : Int}
    (hn : n ∈ a.literal?) (h : ¬e.Admits n) :
    encode e (operandsOf a.operands) = .fail (rangeError e n) := by
  cases ha with
  | register | word => cases hn
  | @immediate opcode funct3 rd rs1 =>
    cases hn
    have hf : fitsSigned12 n = false :=
      Bool.eq_false_iff.mpr (mt (fitsSigned12_iff n).mp h)
    simp only [encode, Arguments.operands, operandsOf, expectRegister_next, ok_bind,
      expectSigned12_next, hf]
    rfl
  | @shift opcode funct3 funct7 rd rs1 =>
    cases hn
    have hf : (decide (0 ≤ n) && decide (n ≤ 31)) = false := by
      simpa [Encoding.Admits, Encoding.range] using h
    simp only [encode, Arguments.operands, operandsOf, expectRegister_next, ok_bind,
      expectAmount_next, hf]
    rfl
  | @offset opcode funct3 rd base =>
    cases hn
    have hf : fitsSigned12 n = false :=
      Bool.eq_false_iff.mpr (mt (fitsSigned12_iff n).mp h)
    simp only [encode, Arguments.operands, Option.map_some, Option.toList_some, List.cons_append,
      List.nil_append, operandsOf, expectRegister_next, memoryOperand_offset, hf]
    rfl
  | @store opcode funct3 source base =>
    cases hn
    have hf : fitsSigned12 n = false :=
      Bool.eq_false_iff.mpr (mt (fitsSigned12_iff n).mp h)
    simp only [encode, Arguments.operands, Option.map_some, Option.toList_some, List.cons_append,
      List.nil_append, operandsOf, expectRegister_next, memoryOperand_offset, hf]
    rfl
  | @upper opcode rd =>
    cases hn
    have hr : ¬(-524288 ≤ n ∧ n ≤ 524287) := h
    simp only [encode, Arguments.operands, operandsOf, expectRegister_next, ok_bind,
      upperOperand_next, if_neg hr]
    rfl

/-! ### Lines -/

section
variable {e : Entry} {a : Arguments} (ha : e.encoding.Takes a)
include ha

theorem rejected_of_not_admits {n : Int} (hn : n ∈ a.literal?) (h : ¬e.encoding.Admits n) :
    Rejected (.instruction e :: a.operands) (rangeError e.encoding n) :=
  rejected_of_encode ha.ne_template (encode_of_not_admits ha hn h)

theorem emits_of_admits (hn : ∀ n ∈ a.literal?, e.encoding.Admits n) :
    Emits (.instruction e :: a.operands) [e.encoding.word a] :=
  emits_of_encode ha.ne_template (encode_of_admits ha hn) (show 4 ≤ segmentSize by decide)

end

/-- A line of a machine instruction is rejected exactly if its literal does not fit its field. Otherwise it places
one word, which is decoded to the instruction of the line, with the arguments in it. -/
theorem instruction_line_exact {e : Entry} (he : e ∈ Catalog.builtin.entries) {a : Arguments}
    (ha : e.encoding.Takes a) :
    (∀ n ∈ a.literal?, ¬e.encoding.Admits n →
      Rejected (.instruction e :: a.operands) (rangeError e.encoding n)) ∧
    ((∀ n ∈ a.literal?, e.encoding.Admits n) →
      ∃ word f i, Emits (.instruction e :: a.operands) [word] ∧ Fields.ofWord word = .ok f ∧
        Instruction.ofFields? f = some i ∧ i.mnemonic = e.name ∧ f.Carries e.encoding a) := by
  refine ⟨fun n hn h => rejected_of_not_admits ha hn h, fun hn => ?_⟩
  obtain ⟨f, hf, hfits, hcarries⟩ :=
    Encoding.carries_word (wellFormed_of_mem_builtin he) ha hn
  obtain ⟨hw, hv⟩ := Fields.valid_of_ofWord hf
  obtain ⟨i, hi, hname, -⟩ := ofFields?_of_fits hv (hw ▸ hf) (decodes_of_mem_builtin he) hfits
  exact ⟨_, f, i, emits_of_admits ha hn, hf, hi, hname, hcarries⟩

/-- A store whose offset is the least, and one whose offset is below it. -/
theorem instruction_line_exact_sw :
    assemble Catalog.builtin 0 [⟨"a.s", "sw a0,-0x801(sp)"⟩] =
        .error ⟨.outOfRangeOffset (-2049), ⟨1, "a.s"⟩, []⟩ ∧
      ∃ p word f i, assemble Catalog.builtin 0 [⟨"a.s", "sw a0,-0x800(sp)"⟩] = .ok p ∧
        p.words = [(0x400000, word)] ∧ Fields.ofWord word = .ok f ∧
        Instruction.ofFields? f = some i ∧ i.mnemonic = "sw" ∧
        f.rs2 = 10 ∧ f.rs1 = 2 ∧ f.imm.toInt = -2048 := by
  have hsw : (⟨"sw", .s 0x23 2 .int⟩ : Entry) ∈ Catalog.builtin.entries := by decide
  have hops (n : Int) (hn : n.natAbs ≤ Numeral.maxLiteral) :=
    Source.lineOperands_instruction hsw (a := .registerMemory 10 (some n) 2)
      (by rintro _ ⟨⟩; exact hn)
  have hn (n : Int) := Source.newline_not_mem hsw (.registerMemory 10 (some n) 2)
  have hbelow : "sw" ++ (Arguments.registerMemory 10 (some (-2049)) 2).text =
      "sw a0,-0x801(sp)" := by decide
  have hleast : "sw" ++ (Arguments.registerMemory 10 (some (-2048)) 2).text =
      "sw a0,-0x800(sp)" := by decide
  constructor
  · have hline := instruction_line_exact hsw (a := .registerMemory 10 (some (-2049)) 2) .store
    have hrejected := hline.1 (-2049) rfl (by decide)
    exact hbelow ▸ hrejected.alone "a.s" _ 0 (hn _) (hops (-2049) (by decide))
  · have hline := instruction_line_exact hsw (a := .registerMemory 10 (some (-2048)) 2) .store
    obtain ⟨word, f, i, hemits, hf, hi, hname, hrs2, hrs1, himm⟩ :=
      hline.2 (by rintro _ ⟨⟩; decide)
    obtain ⟨p, hp, -, hwords, -⟩ :=
      hemits.alone "a.s" _ 0 (hn _) (hops (-2048) (by decide))
    exact ⟨p, word, f, i, hleast ▸ hp, hwords, hf, hi, hname, hrs2, hrs1, himm⟩

/-- The text of a word is assembled to the word again. Branches and jumps have their offset in the text, where
a line takes a label. -/
theorem assemble_disassembled {word : UInt32}
    (hu : Disassembly.text Catalog.builtin word ≠ Disassembly.unknown)
    (hb : ∀ f, Fields.ofWord word = .ok f → f.opcode ≠ .branch ∧ f.opcode ≠ .jal)
    (file : String) (stackSize : Nat) :
    ∃ p, assemble Catalog.builtin stackSize [⟨file, Disassembly.text Catalog.builtin word⟩] =
        .ok p ∧
      p.words = [(UInt32.ofNat textBase, word)] ∧ p.textSize = 4 ∧ p.dataSize = 0 := by
  rcases Disassembly.text_cases word with ⟨ht, -⟩ | ⟨f, e, i, hf, he, hfits, ht, -⟩
  · exact absurd ht hu
  · obtain ⟨rfl, hv⟩ := Fields.valid_of_ofWord hf
    obtain ⟨hbranch, hjal⟩ := hb f hf
    have hformat : f.format ≠ .b ∧ f.format ≠ .j := by
      unfold Fields.format
      cases ho : f.opcode <;> simp_all [Opcode.format]
    have hw := wellFormed_of_mem_builtin he
    have htakes := Encoding.takes_arguments (integral_of_mem_builtin he) hw hfits hformat.1
      hformat.2
    obtain ⟨hadmits, hword⟩ := Encoding.word_arguments hv hw hfits htakes
    have hops := Source.lineOperands_instruction he fun n hn => (hadmits n hn).natAbs_le
    have hemits := emits_of_admits htakes hadmits
    rw [hword] at hemits
    rw [ht]
    obtain ⟨p, hp, -, hwords, hsizes⟩ :=
      hemits.alone file _ stackSize (Source.newline_not_mem he _) hops
    exact ⟨p, hp, hwords, hsizes⟩

/-- The least upper immediate. -/
theorem assemble_disassembled_lui :
    ∃ p, assemble Catalog.builtin 0 [⟨"a.s", "lui a0,-0x80000"⟩] = .ok p ∧
      p.words = [(0x400000, 0x80000537)] := by
  have ht : Disassembly.text Catalog.builtin 0x80000537 = "lui a0,-0x80000" := by
    decide
  have hb (f : Fields) (hf : Fields.ofWord 0x80000537 = .ok f) :
      f.opcode ≠ .branch ∧ f.opcode ≠ .jal := by
    have hcode : Opcode.lui.code = f.opcode.code :=
      (Fields.valid_of_ofWord hf).2.code ▸ (Fields.valid_of_ofWord hf).1 ▸ rfl
    rw [← Opcode.eq_of_code hcode]
    decide
  obtain ⟨p, hp, hw, -⟩ := assemble_disassembled (by rw [ht]; decide) hb "a.s" 0
  exact ⟨p, ht ▸ hp, hw⟩

end RiscvToolkit.Assembly
