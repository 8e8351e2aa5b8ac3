import RiscvToolkit.Proofs.Assembly.Line
import RiscvToolkit.Proofs.Instruction.Pack
import RiscvToolkit.Proofs.Machine.Cycle
import RiscvToolkit.Proofs.Source.Arguments

/-! Lines that load an integer. The one or two words that `li` becomes leave the integer in its register, and
nothing else changes. -/
namespace RiscvToolkit
open Instruction (operand)

/-! ### Values -/

theorem toInt_ofInt_self {v : Int} (h : -2 ^ 31 ≤ v ∧ v ≤ 2 ^ 31 - 1) :
    (UInt32.ofInt v).toInt32.toInt = v := by
  rw [toInt_toInt32, emod_ofInt, Int.bmod_def]
  omega

/-- A small integer is completed from its low bits alone. -/
theorem operand_signed_ofInt {v : Int} (h : -2048 ≤ v ∧ v ≤ 2047) :
    operand (signed (UInt32.ofInt v) 12) = UInt64.ofInt v := by
  rw [operand_eq_ofInt, toInt_signed_ofInt h]

/-- The upper part of an integer, as it is loaded. -/
def upperPart (v : Int) : UInt64 :=
  operand (Pack.roundedUpper (UInt32.ofInt v)).toInt32

theorem toNat_roundedUpper (v : Int) :
    (Pack.roundedUpper (UInt32.ofInt v)).toNat =
      ((UInt32.ofInt v).toNat + 2048) % 2 ^ 32 / 4096 * 4096 := by
  unfold Pack.roundedUpper
  rw [toNat_and_upper, UInt32.toNat_add]
  rfl

/-- Below the wrap, the two parts of an integer add up to it. -/
theorem upperPart_add {v : Int} (h : -2 ^ 31 - 2048 ≤ v ∧ v < 2 ^ 31 - 2048) :
    upperPart v + operand (signed (UInt32.ofInt v) 12) = UInt64.ofInt v := by
  have hr := rounded_add_low h (emod_ofInt v) rfl
  unfold upperPart
  rw [operand_eq_ofInt, operand_eq_ofInt, ← UInt64.ofInt_add, toInt_signed _ (by omega) (by omega),
    toInt_toInt32, toNat_roundedUpper, hr]

theorem signExtend32_eq (x : UInt32) : signExtend32 x = operand x.toInt32 := by
  apply UInt64.toBitVec_inj.mp
  unfold signExtend32 operand
  rw [toBitVec_signExtend _ (by omega) (by omega), UInt32.toBitVec_toUInt64,
    Int64.toBitVec_toUInt64, Int32.toBitVec_toInt64, BitVec.setWidth_setWidth_of_le _ (by omega),
    BitVec.setWidth_eq]
  rfl

theorem toInt64_ofInt {v : Int} (h : -2 ^ 31 ≤ v ∧ v ≤ 2 ^ 31 - 1) :
    (UInt64.ofInt v).toInt64.toInt = v := by
  have hn := toNat_ofInt v
  have hb : (UInt64.ofInt v).toInt64.toInt = ((UInt64.ofInt v).toNat : Int).bmod (2 ^ 64) :=
    BitVec.toInt_eq_toNat_bmod (UInt64.ofInt v).toBitVec
  rw [hb, hn, Int.bmod_def]
  omega

theorem toUInt32_ofInt (v : Int) : (UInt64.ofInt v).toUInt32 = UInt32.ofInt v := by
  have h64 := toNat_ofInt v
  have h32 := emod_ofInt v
  apply UInt32.toNat_inj.mp
  rw [UInt64.toNat_toUInt32, h64]
  omega

/-- Modulo `2 ^ 32` the parts of an integer always add up to it. -/
theorem toUInt32_upperPart_add (v : Int) :
    (upperPart v + operand (signed (UInt32.ofInt v) 12)).toUInt32 = UInt32.ofInt v := by
  have hv := emod_ofInt v
  have hparts : ((Pack.roundedUpper (UInt32.ofInt v)).toInt32.toInt +
      (signed (UInt32.ofInt v) 12).toInt) % 2 ^ 32 = v % 2 ^ 32 := by
    rw [toInt_signed _ (by omega) (by omega), toInt_toInt32, toNat_roundedUpper, Int.bmod_def,
      Int.bmod_def]
    omega
  unfold upperPart
  rw [operand_eq_ofInt, operand_eq_ofInt, ← UInt64.ofInt_add, toUInt32_ofInt]
  apply UInt32.toNat_inj.mp
  rw [← Int.natCast_inj, emod_ofInt, emod_ofInt, hparts]

/-- Added as 32-bit numbers, the parts of an integer are the integer also above the wrap. -/
theorem signExtend32_upperPart_add {v : Int} (h : -2 ^ 31 ≤ v ∧ v ≤ 2 ^ 31 - 1) :
    signExtend32 (upperPart v + operand (signed (UInt32.ofInt v) 12)).toUInt32 =
      UInt64.ofInt v := by
  rw [toUInt32_upperPart_add, signExtend32_eq, operand_eq_ofInt, toInt_ofInt_self h]

/-! ### Words -/

namespace Instruction

theorem ofWord?_lui (rd : Reg) (imm : UInt32) :
    ofWord? (Pack.upper Opcode.lui.code rd imm) =
      some (.lui rd (operand (imm &&& 0xfffff000).toInt32)) := by
  obtain ⟨f, hf, ho, hrd, himm⟩ := Fields.ofWord_upper (o := .lui) rfl rd imm
  unfold ofWord? ofFields?
  rw [hf]
  dsimp only
  rw [ho, ← hrd, ← himm]
  rfl

theorem ofWord?_addiw (rd rs1 : Reg) (imm : UInt32) :
    ofWord? (Pack.immediate Opcode.opImm32.code 0 rd rs1 imm) =
      some (.arithImm .addiw rd rs1 (operand (signed imm 12))) := by
  obtain ⟨f, hf, ho, h3, hrd, hrs1, himm⟩ :=
    Fields.ofWord_immediate (o := .opImm32) rfl (show (0 : UInt8) < 8 by decide) rd rs1 imm
  unfold ofWord? ofFields?
  rw [hf]
  dsimp only
  rw [ho, h3, ← hrd, ← hrs1, ← himm]
  rfl

theorem ofWord?_lui_rounded (rd : Reg) (v : Int) :
    ofWord? (Pack.upper Opcode.lui.code rd (Pack.roundedUpper (UInt32.ofInt v))) =
      some (.lui rd (upperPart v)) := by
  rw [ofWord?_lui, Pack.roundedUpper_and]
  rfl

end Instruction

/-! ### Execution -/

namespace Action

/-- Goes through `n` cycles, as long as a run may go on. -/
def cycles : Nat → Action Bool
  | 0 => return true
  | n + 1 => do if ← cycle then cycles n else return false

theorem cycles_succ {h h' : Hart} (hc : cycle h = .ok true h') (n : Nat) :
    cycles (n + 1) h = cycles n h' := by
  rw [cycles, bind_apply, hc]
  rfl

variable {m : Machine} {word : UInt32} {i : Instruction}

/-- A cycle whose instruction tells the host nothing. -/
theorem cycle_quiet {m' : Machine} (hz : m.regs.get 0 = 0) (hh : m.halted = false)
    (hw : m.memory.readWord m.pc = .ok word) (hi : Instruction.ofWord? word = some i)
    (he : m.execute i = .ok m'.quiet) (console : Console) :
    cycle ⟨m, console⟩ = .ok true ⟨m', console⟩ := by
  rw [cycle_eq hz, Machine.step_eq_execute hh hw hi, he]
  unfold leaves Machine.quiet
  dsimp only
  rw [Console.send_nil]

/-- A cycle whose instruction writes a register. -/
theorem cycle_writeBack {rd : Reg} {value : UInt64} (hz : m.regs.get 0 = 0)
    (hh : m.halted = false) (hw : m.memory.readWord m.pc = .ok word)
    (hi : Instruction.ofWord? word = some i) (he : m.execute i = .ok (m.writeBack rd value))
    (console : Console) :
    cycle ⟨m, console⟩ =
      .ok true ⟨{ m with regs := m.regs.set rd value, pc := m.pc + 4 }, console⟩ :=
  cycle_quiet hz hh hw hi he console

end Action

namespace Assembly
open Source (Operand lineOperands)

/-- The words that load an integer. -/
def integerWords (rd : Reg) (v : Int) : List UInt32 :=
  let bits := UInt32.ofInt v
  if fitsSigned12 v then [Pack.immediate Opcode.opImm.code 0 rd .zero bits]
  else
    let add := if wrapStart ≤ v then Opcode.opImm32 else .opImm
    [Pack.upper Opcode.lui.code rd (Pack.roundedUpper bits),
      Pack.immediate add.code 0 rd rd bits]

/-- The line `li rd, v`. -/
def integerLine (rd : Reg) (v : Int) : List Operand :=
  [.instruction ⟨"li", .li⟩, .register ⟨rd, .int⟩, .int v]

theorem loadInteger_eq {v : Int} (h : -2 ^ 31 ≤ v ∧ v ≤ 2 ^ 31 - 1) (rd : Reg) :
    loadInteger rd v = .ok (emissions (integerWords rd v)) := by
  have hr : -0x80000000 ≤ v ∧ v ≤ 0x7fffffff := h
  unfold loadInteger integerWords
  dsimp only
  by_cases hf : fitsSigned12 v = true
  · rw [if_pos hf, if_pos hf]
    rfl
  · rw [if_neg hf, if_neg hf, if_pos hr]
    rfl

theorem loadInteger_eq_error {v : Int} (h : ¬(-2 ^ 31 ≤ v ∧ v ≤ 2 ^ 31 - 1)) (rd : Reg) :
    loadInteger rd v = .error (.liOutOfRange v) := by
  have hf : ¬fitsSigned12 v = true := by
    rw [fitsSigned12_iff]
    omega
  have hr : ¬(-0x80000000 ≤ v ∧ v ≤ 0x7fffffff) := h
  unfold loadInteger
  rw [if_neg hf, if_neg hr]

theorem length_integerWords (rd : Reg) (v : Int) :
    (integerWords rd v).length = if -2048 ≤ v ∧ v ≤ 2047 then 1 else 2 := by
  unfold integerWords
  simp only [fitsSigned12_iff]
  split_ifs <;> rfl

theorem li_ne_template (params : Nat) (lines : List String) :
    (⟨"li", .li⟩ : Entry).encoding ≠ .template params lines :=
  fun h => nomatch h

theorem emits_integerLine {v : Int} (hv : -2 ^ 31 ≤ v ∧ v ≤ 2 ^ 31 - 1) (rd : Reg) :
    Emits (integerLine rd v) (integerWords rd v) := by
  have he : encode .li (operandsOf [.register ⟨rd, .int⟩, .int v]) =
      ⟨emissions (integerWords rd v), none⟩ := congrArg Code.ofExcept (loadInteger_eq hv rd)
  have hlen := length_integerWords rd v
  have hroom : 4 * (integerWords rd v).length ≤ segmentSize := by
    unfold segmentSize
    split_ifs at hlen <;> omega
  exact emits_of_encode li_ne_template he hroom

section
variable {rd : Reg} (hrd : rd ≠ 0) {v : Int} (hv : -2 ^ 31 ≤ v ∧ v ≤ 2 ^ 31 - 1)
include hv

/-- The second of two words completes the upper part, by a 32-bit addition where a 64-bit one would stay below
zero. -/
theorem execute_completing {m : Machine} (hm : m.regs.get rd = upperPart v) :
    ∃ i, Instruction.ofWord? (Pack.immediate (if wrapStart ≤ v then Opcode.opImm32 else .opImm).code
        0 rd rd (UInt32.ofInt v)) = some i ∧
      m.execute i = .ok (m.writeBack rd (UInt64.ofInt v)) := by
  by_cases hwrap : wrapStart ≤ v
  · rw [if_pos hwrap]
    refine ⟨_, Instruction.ofWord?_addiw .., ?_⟩
    rw [Machine.execute, ArithImm.eval, hm, signExtend32_upperPart_add hv]
  · have hlt : v < 2 ^ 31 - 2048 := not_le.mp hwrap
    rw [if_neg hwrap]
    refine ⟨_, Instruction.ofWord?_addi .., ?_⟩
    rw [Machine.execute, ArithImm.eval, Arith.eval, hm, upperPart_add ⟨by omega, hlt⟩]

include hrd

/-- The words that load an integer leave it in their register. -/
theorem cycles_integerWords {m : Machine} (hz : m.regs.get 0 = 0) (hh : m.halted = false)
    (hw : m.memory.HoldsWords m.pc (integerWords rd v)) (console : Console) :
    Action.cycles (integerWords rd v).length ⟨m, console⟩ =
      .ok true ⟨{ m with
        regs := m.regs.set rd (UInt64.ofInt v)
        pc := m.pc + UInt64.ofNat (4 * (integerWords rd v).length) }, console⟩ := by
  unfold integerWords at hw ⊢
  dsimp only at hw ⊢
  by_cases hf : fitsSigned12 v = true
  · have hsmall : -2048 ≤ v ∧ v ≤ 2047 := (fitsSigned12_iff v).mp hf
    rw [if_pos hf] at hw ⊢
    have he : m.execute (.arithImm .addi rd 0 (operand (signed (UInt32.ofInt v) 12))) =
        .ok (m.writeBack rd (UInt64.ofInt v)) := by
      rw [Machine.execute, ArithImm.eval, Arith.eval, hz, operand_signed_ofInt hsmall,
        UInt64.zero_add]
    have hc := Action.cycle_writeBack hz hh hw.1 (Instruction.ofWord?_addi ..) he console
    exact (Action.cycles_succ hc 0).trans rfl
  · rw [if_neg hf] at hw ⊢
    obtain ⟨hfirst, hsecond, -⟩ := hw
    have hc :=
      Action.cycle_writeBack hz hh hfirst (Instruction.ofWord?_lui_rounded rd v) rfl console
    -- the state between the two words
    let m' : Machine := { m with regs := m.regs.set rd (upperPart v), pc := m.pc + 4 }
    have hg : m'.regs.get rd = upperPart v :=
      (RegisterFile.get_set ..).trans (if_pos ⟨rfl, hrd⟩)
    have hz' : m'.regs.get 0 = 0 := (RegisterFile.get_set_zero ..).trans hz
    obtain ⟨i, hi, he⟩ := execute_completing hv hg
    have hc' := Action.cycle_writeBack hz' hh hsecond hi he console
    have hpc : m.pc + 4 + 4 = m.pc + 8 := UInt64.add_assoc ..
    rw [List.length_cons, Action.cycles_succ hc, List.length_singleton, Action.cycles_succ hc']
    dsimp only [m']
    rw [RegisterFile.set_set, hpc]
    rfl

end

/-- A line `li rd, v` is rejected exactly if `v` is no 32-bit number. Otherwise it places one word or two, one if
`v` fits in 12 bits, and a machine that goes through them has `v` in `rd`, is behind them, and is otherwise as it
was. Register 0 of the machine is zero, as it is in every reachable one. -/
theorem li_line_loads {rd : Reg} (hrd : rd ≠ 0) (v : Int) :
    (¬(-2 ^ 31 ≤ v ∧ v ≤ 2 ^ 31 - 1) → Rejected (integerLine rd v) (.liOutOfRange v)) ∧
    (-2 ^ 31 ≤ v ∧ v ≤ 2 ^ 31 - 1 →
      ∃ words, Emits (integerLine rd v) words ∧ (words.length = 1 ∨ words.length = 2) ∧
        (words.length = 1 ↔ -2048 ≤ v ∧ v ≤ 2047) ∧
        ∀ (m : Machine) (console : Console), m.halted = false → m.regs.get 0 = 0 →
          m.memory.HoldsWords m.pc words →
          ∃ m', Action.cycles words.length ⟨m, console⟩ = .ok true ⟨m', console⟩ ∧
            (m'.regs.get rd).toInt64.toInt = v ∧
            m'.pc = m.pc + UInt64.ofNat (4 * words.length) ∧
            (∀ r, r ≠ rd → m'.regs.get r = m.regs.get r) ∧ m'.memory = m.memory ∧
            m'.floats = m.floats ∧ m'.halted = false) := by
  constructor
  · intro hv
    have he : encode .li (operandsOf [.register ⟨rd, .int⟩, .int v]) =
        .fail (.liOutOfRange v) := congrArg Code.ofExcept (loadInteger_eq_error hv rd)
    exact rejected_of_encode li_ne_template he
  · intro hv
    have hlen := length_integerWords rd v
    refine ⟨integerWords rd v, emits_integerLine hv rd, ?_, ?_, ?_⟩
    · split_ifs at hlen <;> omega
    · split_ifs at hlen with h <;> simp [hlen, h]
    · intro m console hh hz hw
      refine ⟨_, cycles_integerWords hrd hv hz hh hw console, ?_, rfl, fun r hr => ?_, rfl, rfl, hh⟩
      · rw [RegisterFile.get_set, if_pos ⟨rfl, hrd⟩, toInt64_ofInt hv]
      · rw [RegisterFile.get_set, if_neg fun h => hr h.1.symm]

/-- The least integer whose upper part goes below zero. -/
theorem li_line_loads_wrap :
    ∃ p, assemble Catalog.builtin 0 [⟨"a.s", "li a0,0x7ffff800"⟩] = .ok p ∧
      ∃ m', Action.cycles 2 ⟨Machine.ofMemory p.memory, .empty⟩ = .ok true ⟨m', .empty⟩ ∧
        (m'.regs.get 10).toInt64.toInt = 0x7ffff800 ∧ m'.pc = 0x400008 := by
  have hli : (⟨"li", .li⟩ : Entry) ∈ Catalog.builtin.entries := by decide
  have htext : "li" ++ (Source.Arguments.registerNumber 10 0x7ffff800).text =
      "li a0,0x7ffff800" := by decide
  have hops := Source.lineOperands_instruction hli
    (a := .registerNumber 10 0x7ffff800) (by rintro _ ⟨⟩; decide)
  have hn := Source.newline_not_mem hli (.registerNumber 10 0x7ffff800)
  obtain ⟨words, hemits, hlen, hone, hexec⟩ :=
    (@li_line_loads 10 (by decide) 0x7ffff800).2 (by decide)
  obtain ⟨p, hp, hholds, -⟩ := hemits.alone "a.s" _ 0 hn hops
  have htwo : words.length = 2 := hlen.resolve_left fun h => absurd (hone.mp h) (by decide)
  obtain ⟨m', hc, hv, hpc, -⟩ := hexec (.ofMemory p.memory) .empty rfl rfl hholds
  rw [htwo] at hc hpc
  exact ⟨p, htext ▸ hp, m', hc, hv, hpc⟩

end Assembly

end RiscvToolkit
