import RiscvToolkit.Proofs.Assembly.Packed
import RiscvToolkit.Proofs.Assembly.Shorthand

/-! What shorthands do. The word of a use, completed with the address of its label, is an instruction that does what
the name of the shorthand says, in every program that has one. -/
namespace RiscvToolkit
open Source (Bindings Operands)

theorem RegisterFile.set_zero (file : RegisterFile) (value : UInt64) : file.set .zero value = file :=
  if_pos rfl

namespace Assembly

/-! ### Execution -/

private theorem toInt_zero : (0 : UInt64).toInt64.toInt = 0 := rfl

theorem Unary.execute_line (op : Unary) (rd source : Reg) {m : Machine} (hz : m.regs.get .zero = 0)
    (offset : UInt64) :
    m.execute ((Shorthand.unary op rd source).line.instruction offset) =
      .ok (m.writeBack rd (op.value (m.regs.get source))) := by
  have hunsigned (v : UInt64) : (v < 1 ↔ v = 0) ∧ (0 < v ↔ v ≠ 0) := by
    rw [UInt64.lt_iff_toNat_lt, UInt64.lt_iff_toNat_lt, Ne, ← UInt64.toNat_inj]
    exact ⟨Nat.lt_one_iff, Nat.pos_iff_ne_zero⟩
  cases op with
  | mv =>
    simp only [Shorthand.line, MachineLine.instruction, Machine.execute, ArithImm.eval, Arith.eval]
    rw [show UInt64.ofInt 0 = 0 from rfl, UInt64.add_zero]
    rfl
  | not =>
    simp only [Shorthand.line, MachineLine.instruction, Machine.execute, ArithImm.eval, Arith.eval]
    rw [show UInt64.ofInt (-1) = -1 from rfl, UInt64.xor_neg_one]
    rfl
  | neg =>
    simp only [Shorthand.line, MachineLine.instruction, Machine.execute, Arith.eval]
    rw [hz, UInt64.zero_sub]
    rfl
  | seqz =>
    simp only [Shorthand.line, MachineLine.instruction, Machine.execute, ArithImm.eval, Arith.eval]
    rw [show UInt64.ofInt 1 = 1 from rfl]
    simp only [(hunsigned _).1]
    rfl
  | snez =>
    simp only [Shorthand.line, MachineLine.instruction, Machine.execute, Arith.eval]
    rw [hz]
    simp only [(hunsigned _).2]
    rfl
  | sltz =>
    simp only [Shorthand.line, MachineLine.instruction, Machine.execute, Arith.eval]
    rw [hz]
    simp only [Int64.lt_iff_toInt_lt, toInt_zero]
    rfl
  | sgtz =>
    simp only [Shorthand.line, MachineLine.instruction, Machine.execute, Arith.eval]
    rw [hz]
    simp only [Int64.lt_iff_toInt_lt, toInt_zero]
    rfl

/-- A branch to a label, taken or not. -/
private theorem execute_branch {m : Machine} {offset target : UInt64} (h : m.pc + offset = target)
    (op : Branch) (rs1 rs2 : Reg) :
    m.execute (.branch op rs1 rs2 offset) = .ok (Machine.quiet { m with
      pc := if op.holds (m.regs.get rs1) (m.regs.get rs2) then target else m.pc + 4 }) := by
  rw [Machine.execute, ← h, apply_ite (m.pc + ·)]

theorem ZeroTest.execute_line (op : ZeroTest) (source : Reg) (label : String) {m : Machine}
    (hz : m.regs.get .zero = 0) {offset target : UInt64} (h : m.pc + offset = target) :
    m.execute ((Shorthand.zeroTest op source label).line.instruction offset) =
      .ok ((Shorthand.zeroTest op source label).effect target m).quiet := by
  cases op with
  | beqz | bnez =>
    simp only [Shorthand.line, MachineLine.instruction]
    rw [execute_branch h, hz]
    rfl
  | blez | bgez | bltz | bgtz =>
    simp only [Shorthand.line, MachineLine.instruction]
    rw [execute_branch h, hz]
    simp only [Branch.holds, Int64.lt_iff_toInt_lt, Int64.le_iff_toInt_le, toInt_zero]
    rfl

theorem Comparison.execute_line (op : Comparison) (first second : Reg) (label : String)
    {m : Machine} {offset target : UInt64} (h : m.pc + offset = target) :
    m.execute ((Shorthand.comparison op first second label).line.instruction offset) =
      .ok ((Shorthand.comparison op first second label).effect target m).quiet := by
  cases op with
  | bgt | ble =>
    simp only [Shorthand.line, MachineLine.instruction]
    rw [execute_branch h]
    simp only [Branch.holds, Int64.lt_iff_toInt_lt, Int64.le_iff_toInt_le]
    rfl
  | bgtu | bleu =>
    simp only [Shorthand.line, MachineLine.instruction]
    rw [execute_branch h]
    simp only [Branch.holds, UInt64.lt_iff_toNat_lt, UInt64.le_iff_toNat_le]
    rfl

/-- The machine instruction of a shorthand does what the name says. -/
theorem Shorthand.execute_line (x : Shorthand) {m : Machine} (hz : m.regs.get .zero = 0)
    {offset target : UInt64} (h : m.pc + offset = target) :
    m.execute (x.line.instruction offset) = .ok (x.effect target m).quiet := by
  cases x with
  | nop =>
    simp only [line, MachineLine.instruction, Machine.execute, Machine.writeBack]
    rw [RegisterFile.set_zero]
    rfl
  | ret =>
    simp only [line, MachineLine.instruction, Machine.execute]
    rw [RegisterFile.set_zero, UInt64.add_zero]
    rfl
  | jr source =>
    simp only [line, MachineLine.instruction, Machine.execute]
    rw [RegisterFile.set_zero, UInt64.add_zero]
    rfl
  | unary op rd source => exact op.execute_line rd source hz offset
  | goto op label =>
    cases op with
    | j | tail =>
      simp only [line, MachineLine.instruction, Machine.execute]
      rw [RegisterFile.set_zero, h]
      rfl
    | call =>
      simp only [line, MachineLine.instruction, Machine.execute]
      rw [h]
      rfl
  | zeroTest op source label => exact op.execute_line source label hz h
  | comparison op first second label => exact op.execute_line first second label h

/-- True if a machine that comes to `word` at `address` does what a shorthand says whose label is at `target`. -/
def Shorthand.Does (x : Shorthand) (address target word : UInt32) : Prop :=
  ∀ (m : Machine) (console : Console), m.halted = false → m.regs.get .zero = 0 →
    m.pc = address.toUInt64 → m.memory.readWord m.pc = .ok word →
      Action.cycle ⟨m, console⟩ = .ok true ⟨x.effect target.toUInt64 m, console⟩

theorem Shorthand.does_of_completed (x : Shorthand) {address target word : UInt32}
    (h : x.line.emission.Completed address target word) : x.Does address target word := by
  intro m console hh hz hpc hw
  obtain ⟨offset, hi, ho⟩ := x.line.ofWord?_of_completed h
  rw [← hpc] at ho
  exact Action.cycle_quiet hz hh hw hi (x.execute_line hz ho) console

/-! ### Programs -/

/-- The word of an item, and the address that completes it. -/
theorem Encodes.exists_word {choices : List (Relocation × Option UInt32)} {location : Location}
    {address : UInt32} {e : Emission} {field : List UInt8}
    (h : Encodes choices location address (.word e) field) :
    ∃ target word, field = LittleEndian.encode 4 word.toUInt64 ∧
      e.Completed address target word ∧
      ∀ link ∈ e.link, (⟨address, link.label, link.kind, location⟩, some target) ∈ choices := by
  cases h with
  | @word word => exact ⟨0, word, rfl, rfl, fun link hlink => absurd hlink (Option.not_mem_none _)⟩
  | @linked word link target bits ht hb =>
    refine ⟨target, word ||| bits, rfl, ⟨bits, hb, rfl⟩, fun link' hlink => ?_⟩
    cases hlink
    exact ht

namespace Shorthand

/-- True of a program in which the word of a shorthand, wherever it stands, does what the shorthand says, with its
label as the program resolves it. -/
def WorksIn (x : Shorthand) (os : List Outline) (ps : List Placed) (p : Program) : Prop :=
  ∀ before place location after,
    ps = before ++ .item place location (.word x.line.emission) :: after →
    ∃ target word, p.memory.readWord (addressIn place before).toUInt64 = .ok word ∧
      x.Does (addressIn place before) target word ∧
      ∀ link ∈ x.line.emission.link,
        (⟨addressIn place before, link.label, link.kind, location⟩, some target) ∈ choicesOf os

theorem worksIn (x : Shorthand) {os : List Outline} {ps : List Placed} {p : Program}
    (h : Accounts os ps p) : x.WorksIn os ps p := by
  rintro before place location after rfl
  obtain ⟨field, hf, hload⟩ := h.exists_field (show 0 < 4 by decide)
  obtain ⟨target, word, rfl, hcompleted, hlinks⟩ := hf.exists_word
  have hread := (Memory.readWord_eq_ok_iff ..).mpr
    ⟨_, hload, LittleEndian.decode_encode_word word⟩
  exact ⟨target, word, hread, x.does_of_completed hcompleted, hlinks⟩

/-- True of a shorthand that is what its name says. -/
structure Faithful (x : Shorthand) : Prop where
  /-- The catalog has it, as a template of one line. -/
  found : Catalog.builtin.find? x.template.name =
    some ⟨x.template.name, .template x.operands.length [x.template.text]⟩
  /-- The line is read with the operands in their places. -/
  filled : Source.operands x.bindings (Source.tokenize Catalog.builtin x.template.text.toList) =
    operandsOf (.instruction x.line.entry :: x.line.operands)
  /-- Wherever expansions may nest one deeper, a use places just what its line places. -/
  placed : ∀ {ops : Operands} {active : Nat}, x.Written ops → active < maxDepth →
    ∀ (file : String) (b : Bindings) (number : Nat) (s : State),
      assembleOperands (expand Catalog.builtin file (maxDepth - active))
          ⟨Catalog.builtin, file, b⟩ number (.next (.instruction x.entry) ops) s =
        assembleOperands (expand Catalog.builtin file (maxDepth - active))
          ⟨Catalog.builtin, file, x.bindings⟩ number (Source.operands x.bindings
            (Source.tokenize Catalog.builtin x.template.text.toList)) s
  /-- The line is one word, which waits for the label of the shorthand if there is one. -/
  word : ∀ (file : String) (depth number : Nat) (s : State),
    assembleOperands (expand Catalog.builtin file depth) ⟨Catalog.builtin, file, x.bindings⟩ number
        (Source.operands x.bindings
          (Source.tokenize Catalog.builtin x.template.text.toList)) s =
      located number file (s.add s.place ⟨number, file⟩ (.code [x.line.emission]))
  label : x.line.emission.link.map Link.label = x.label?
  listed : ∀ {ops : Operands}, x.Written ops →
    ∀ (file : String) (b : Bindings) (number : Nat) (m : Mode),
      Lists Catalog.builtin file b (.line number (.next (.instruction x.entry) ops)) m
        [.item m.place ⟨number, file⟩ (.word x.line.emission)] m
  /-- A label completes the word just if it is in reach. -/
  reach : ∀ address target,
    (∃ word, x.line.emission.Completed address target word) ↔ x.line.InReach address target
  does : ∀ {address target word}, x.line.emission.Completed address target word →
    x.Does address target word
  works : ∀ {stackSize : Nat} {files : List Source.File} {p : Program},
    assemble Catalog.builtin stackSize files = .ok p →
      ∃ os laid ps, Linkage.layAll Catalog.builtin files (.empty stackSize) = some (os, laid) ∧
        ListsAll Catalog.builtin files ps ∧ Accounts os ps p ∧ x.WorksIn os ps p

theorem link_line (x : Shorthand) : x.line.emission.link.map Link.label = x.label? := by
  cases x with
  | nop | ret | jr source => rfl
  | unary op rd source => cases op <;> rfl
  | goto op label => cases op <;> rfl
  | zeroTest op source label => cases op <;> rfl
  | comparison op first second label => cases op <;> rfl

theorem faithful (x : Shorthand) : x.Faithful := by
  have hword (file : String) (depth number : Nat) (s : State) :
      assembleOperands (expand Catalog.builtin file depth) ⟨Catalog.builtin, file, x.bindings⟩
          number (Source.operands x.bindings
            (Source.tokenize Catalog.builtin x.template.text.toList)) s =
        located number file (s.add s.place ⟨number, file⟩ (.code [x.line.emission])) := by
    rw [x.operands_template]
    exact x.line.assembleOperands_eq file depth x.bindings number s
  constructor
  case found => exact x.find?_name
  case filled => exact x.operands_template
  case placed =>
    intro ops active hops hactive file b number s
    obtain ⟨depth, hdepth⟩ : ∃ depth, maxDepth - active = depth + 1 :=
      ⟨maxDepth - active - 1, by omega⟩
    rw [hdepth, x.assembleOperands_eq hops, hword]
  case word => exact hword
  case label => exact x.link_line
  case listed => exact fun hops file b number m => x.lists hops number m
  case reach => exact x.line.exists_completed_iff
  case does => exact x.does_of_completed
  case works =>
    intro stackSize files p h
    obtain ⟨os, laid, hlay, hl⟩ := (assemble_eq_ok_iff _ stackSize files p).mp h
    obtain ⟨ps, hps, ha⟩ := accounts_of_layAll hlay hl
    exact ⟨os, laid, ps, hlay, hps, ha, x.worksIn ha⟩

end Shorthand

/-- The templates of the built-in catalog are the shorthands, and each of them is what its name says. -/
theorem shorthands_faithful :
    (∀ e ∈ Catalog.builtin.entries, ∀ params lines, e.encoding = .template params lines →
      ∃ x : Shorthand, x.entry = e) ∧
    ∀ x : Shorthand, x.Faithful :=
  ⟨fun _ he _ _ ht => Shorthand.exists_entry_eq he ht, Shorthand.faithful⟩

/-- A use that jumps back. -/
def shorthandFile : Source.File :=
  ⟨"a.s", "x: nop\nbgt a0, a1, x"⟩

/-- The inventory of a use that jumps back, up to the use. -/
def shorthandItems : List Placed :=
  [.label .text "x", .item .text ⟨1, "a.s"⟩ (.word Shorthand.nop.line.emission)]

theorem shorthands_faithful_bgt :
    ∃ p, assemble Catalog.builtin 0 [shorthandFile] = .ok p ∧
      ∃ word, p.memory.readWord 0x400004 = .ok word ∧
        (Shorthand.comparison .bgt 10 11 "x").Does 0x400004 0x400000 word := by
  have hitems : Source.items (Source.linesOf Catalog.builtin shorthandFile.text) =
      [.line ⟨1, Source.tokenize Catalog.builtin "x: nop".toList⟩,
        .line ⟨2, Source.tokenize Catalog.builtin "bgt a0, a1, x".toList⟩] := rfl
  have hnop : Lists Catalog.builtin "a.s" []
      (.line 1 (Source.operands [] (Source.tokenize Catalog.builtin "x: nop".toList))) .start
      shorthandItems .start :=
    .label (Shorthand.nop.lists (.inl rfl) 1 .start)
  have hbgt : Lists Catalog.builtin "a.s" []
      (.line 2 (Source.operands [] (Source.tokenize Catalog.builtin "bgt a0, a1, x".toList))) .start
      [.item .text ⟨2, "a.s"⟩ (.word (Shorthand.comparison .bgt 10 11 "x").line.emission)] .start :=
    (Shorthand.comparison .bgt 10 11 "x").lists (.inl rfl) 2 .start
  have hblock : Lists Catalog.builtin "a.s" []
      (.block (Source.items (Source.linesOf Catalog.builtin shorthandFile.text))) .start
      (shorthandItems ++
        ([.item .text ⟨2, "a.s"⟩ (.word (Shorthand.comparison .bgt 10 11 "x").line.emission)] ++ []))
      .start := by
    rw [hitems]
    exact .cons hnop (.cons hbgt .nil)
  have hlists : ListsAll Catalog.builtin [shorthandFile] _ := .cons hblock .nil
  have hok : (assemble Catalog.builtin 0 [shorthandFile]).toOption.isSome = true := by
    decide +kernel
  obtain ⟨p, hp⟩ := Option.isSome_iff_exists.mp hok
  rw [toOption_eq_some_iff] at hp
  obtain ⟨os, laid, ps, -, hps, ha, hw⟩ :=
    (shorthands_faithful.2 (.comparison .bgt 10 11 "x")).works hp
  cases hps.unique hlists
  obtain ⟨target, word, hread, hdoes, hlink⟩ :=
    hw shorthandItems .text ⟨2, "a.s"⟩ [] (List.append_nil _)
  have htarget : ("x", target) ∈ [("x", (0x400000 : UInt32))] := ha.targets _ _ (hlink _ rfl)
  cases List.mem_singleton.mp htarget
  exact ⟨p, hp, word, hread, hdoes⟩

end Assembly

end RiscvToolkit
