import RiscvToolkit.Proofs.Assembly.MachineLine
import RiscvToolkit.Proofs.Memory.Same

/-! Lines that load from memory. An operand that does not fit in the load is prepared in the destination by the word
before, so that the address depends on what the destination keeps. -/
namespace RiscvToolkit
open Instruction (operand)

/-! ### Loads about to be executed -/

/-- The address that an instruction loads from. -/
def Instruction.loadAddress? (regs : RegisterFile) : Instruction → Option UInt64
  | .load _ _ base offset => some (regs.get base + offset)
  | _ => none

/-- The address that a machine is about to load from. -/
def Machine.loadAddress? (m : Machine) : Option UInt64 := do
  let word ← (m.memory.readWord m.pc).toOption
  (← Instruction.ofWord? word).loadAddress? m.regs

/-- The fault that one of the next `n` cycles ends with. -/
def Hart.fault? (h : Hart) (n : Nat) : Option Fault :=
  match Action.cycles n h with
  | .ok .. => none
  | .error fault _ => some fault

/-- True of a machine that goes through `k` words to a load, which puts what is at `address` into `rd`, or faults if
nothing is there. Otherwise the machine is as it was, behind the load. -/
structure Machine.LoadsFrom (m : Machine) (op : Load) (rd : Reg) (address : UInt64) (k : Nat) :
    Prop where
  reaches (console : Console) : ∃ before,
    Action.cycles k ⟨m, console⟩ = .ok true ⟨before, console⟩ ∧ before.loadAddress? = some address
  value (console : Console) {value : UInt64} : m.memory.read op.width address = .ok value →
    Action.cycles (k + 1) ⟨m, console⟩ =
      .ok true ⟨{ m with
        regs := m.regs.set rd (op.extend value)
        pc := m.pc + UInt64.ofNat (4 * (k + 1)) }, console⟩
  fault (console : Console) {e : AccessError} : m.memory.read op.width address = .error e →
    (⟨m, console⟩ : Hart).fault? (k + 1) = some (.memory e)

/-- What a register gives back of a value that is put into it. -/
def Reg.kept (rd : Reg) (value : UInt64) : UInt64 :=
  if rd = .zero then 0 else value

@[simp] theorem Reg.kept_zero (rd : Reg) : rd.kept 0 = 0 :=
  ite_self 0

theorem Reg.kept_of_ne {rd : Reg} (h : rd ≠ 0) (value : UInt64) : rd.kept value = value :=
  if_neg h

theorem RegisterFile.get_set_self {file : RegisterFile} (hz : file.get 0 = 0) (rd : Reg)
    (value : UInt64) : (file.set rd value).get rd = rd.kept value := by
  by_cases h : rd = 0
  · rw [h, get_set_zero, hz]
    rfl
  · rw [get_set, if_pos ⟨rfl, h⟩, Reg.kept_of_ne h]

namespace Action

theorem cycles_add {h h' : Hart} {k : Nat} (hc : cycles k h = .ok true h') (n : Nat) :
    cycles (k + n) h = cycles n h' := by
  induction k generalizing h with
  | zero =>
    cases hc
    rw [Nat.zero_add]
  | succ k ih =>
    rw [cycles, bind_apply] at hc
    cases hcycle : cycle h with
    | error fault h₁ =>
      rw [hcycle] at hc
      cases hc
    | ok more h₁ =>
      rw [hcycle] at hc
      cases more with
      | false => cases hc
      | true => rw [Nat.succ_add, cycles_succ hcycle, ih hc]

end Action

theorem Hart.fault?_of_cycles {h h' : Hart} {k : Nat} (hc : Action.cycles k h = .ok true h')
    (n : Nat) : h.fault? (k + n) = h'.fault? n := by
  unfold fault?
  rw [Action.cycles_add hc]

theorem Hart.fault?_of_cycle {h h' : Hart} {fault : Fault} (hc : Action.cycle h = .error fault h')
    (n : Nat) : h.fault? (n + 1) = some fault := by
  unfold fault?
  rw [Action.cycles, Action.bind_apply, hc]

namespace Machine.LoadsFrom
variable {m : Machine} {op : Load} {rd : Reg} {address : UInt64} {k n : Nat}

theorem fault?_eq (h : m.LoadsFrom op rd address k) (console : Console) :
    (⟨m, console⟩ : Hart).fault? (k + 1) =
      if m.memory.locate? address op.width.size = none then some (.memory (.read address))
      else none := by
  cases hread : m.memory.read op.width address with
  | error e =>
    obtain ⟨hl, rfl⟩ := (m.memory.read_eq_error_iff ..).mp hread
    rw [h.fault console hread, if_pos hl]
  | ok value =>
    have hl : m.memory.locate? address op.width.size ≠ none := by
      intro hl
      rw [(m.memory.read_eq_error_iff ..).mpr ⟨hl, rfl⟩] at hread
      cases hread
    unfold Hart.fault?
    rw [h.value console hread, if_neg hl]

/-- Words that put a value into the destination of a load, and the load behind them. -/
theorem of_cycles {value : UInt64}
    (hc : ∀ console, Action.cycles k ⟨m, console⟩ = .ok true ⟨{ m with
      regs := m.regs.set rd value, pc := m.pc + UInt64.ofNat (4 * k) }, console⟩)
    (h : LoadsFrom { m with regs := m.regs.set rd value, pc := m.pc + UInt64.ofNat (4 * k) }
      op rd address n) : m.LoadsFrom op rd address (k + n) := by
  have hpc : m.pc + UInt64.ofNat (4 * k) + UInt64.ofNat (4 * (n + 1)) =
      m.pc + UInt64.ofNat (4 * (k + n + 1)) := by
    rw [UInt64.add_assoc, ← UInt64.ofNat_add]
    congr 2
    omega
  refine ⟨fun console => ?_, fun console _ hread => ?_, fun console _ hread => ?_⟩
  · rw [Action.cycles_add (hc console)]
    exact h.reaches console
  · rw [Nat.add_assoc, Action.cycles_add (hc console), h.value console hread]
    dsimp only
    rw [RegisterFile.set_set, hpc, Nat.add_assoc]
  · rw [Nat.add_assoc, Hart.fault?_of_cycles (hc console)]
    exact h.fault console hread

section
variable (hh : m.halted = false) (hz : m.regs.get 0 = 0)
variable {funct3 : UInt8} (hop : Load.ofFunct? funct3 = some op) {base : Reg} {imm : UInt32}
include hh hz hop

theorem of_word (hw : m.memory.readWord m.pc =
      .ok (Pack.immediate Opcode.load.code funct3 rd base imm)) :
    m.LoadsFrom op rd (m.regs.get base + operand (signed imm 12)) 0 := by
  have hi := Instruction.ofWord?_load hop rd base imm
  refine ⟨fun console => ⟨m, rfl, ?_⟩, fun console value hread => ?_, fun console e hread => ?_⟩
  · unfold Machine.loadAddress?
    rw [hw]
    change (Instruction.ofWord? _).bind _ = _
    rw [hi]
    rfl
  · have he : m.execute (.load op rd base (operand (signed imm 12))) =
        .ok (m.writeBack rd (op.extend value)) := by
      rw [Machine.execute, hread]
    have hc := Action.cycle_writeBack hz hh hw hi he console
    exact (Action.cycles_succ hc 0).trans rfl
  · have hc : Action.cycle ⟨m, console⟩ = .error (.memory e) ⟨m, console⟩ := by
      rw [Action.cycle_eq hz, Machine.step_eq_execute hh hw hi, Machine.execute, hread]
      rfl
    exact Hart.fault?_of_cycle hc 0

/-- A word that puts a value into the destination of the load behind it. -/
theorem of_pair {word : UInt32} {first : Instruction} {upper : UInt64}
    (h₁ : m.memory.readWord m.pc = .ok word) (hi : Instruction.ofWord? word = some first)
    (he : m.execute first = .ok (m.writeBack rd upper))
    (h₂ : m.memory.readWord (m.pc + 4) =
      .ok (Pack.immediate Opcode.load.code funct3 rd rd imm)) :
    m.LoadsFrom op rd (rd.kept upper + operand (signed imm 12)) 1 := by
  have hc (console : Console) := Action.cycle_writeBack hz hh h₁ hi he console
  rw [← RegisterFile.get_set_self hz rd upper]
  exact of_cycles (fun console => Action.cycles_succ (hc console) 0)
    (of_word (m := { m with regs := m.regs.set rd upper, pc := m.pc + 4 }) hh
      ((RegisterFile.get_set_zero ..).trans hz) hop h₂)

end

end Machine.LoadsFrom

namespace Assembly
open Source (Operand Operands lineOperands)

/-! ### Words -/

/-- True if emissions, one behind the other from `address` on, have become these words once their label is known to be
at `target`. -/
def Completes (target : UInt32) : UInt32 → List Emission → List UInt32 → Prop
  | _, [], words => words = []
  | address, e :: es, words =>
    ∃ word rest, words = word :: rest ∧ e.Completed address target word ∧
      Completes target (address + 4) es rest

theorem completes_emissions {target address : UInt32} {words words' : List UInt32} :
    Completes target address (emissions words) words' ↔ words' = words := by
  induction words generalizing address words' with
  | nil => rfl
  | cons word words ih =>
    constructor
    · rintro ⟨_, rest, rfl, rfl, h⟩
      rw [ih.mp h]
    · rintro rfl
      exact ⟨word, words, rfl, rfl, ih.mpr rfl⟩

/-- The words of a load from an address without a register. -/
def absoluteWords (funct3 : UInt8) (rd : Reg) (v : Int) : List UInt32 :=
  let low := UInt32.ofInt v &&& 0xfff
  if fitsSigned12 v then [Pack.immediate Opcode.load.code funct3 rd .zero low]
  else
    [Pack.upper Opcode.lui.code rd (Pack.roundedUpper (UInt32.ofInt v)),
      Pack.immediate Opcode.load.code funct3 rd rd low]

theorem length_absoluteWords (funct3 : UInt8) (rd : Reg) (v : Int) :
    (absoluteWords funct3 rd v).length = (if -2048 ≤ v ∧ v ≤ 2047 then 0 else 1) + 1 := by
  unfold absoluteWords
  simp only [fitsSigned12_iff]
  split_ifs <;> rfl

/-! ### What operands are read from -/

theorem expectRegister_eq_ok {c : RegClass} {ops rest : Operands} {r : Reg}
    (h : expectRegister c ops = .ok (r, rest)) : ops = .next (.register ⟨r, c⟩) rest := by
  unfold expectRegister at h
  cases ops with
  | done | failed => cases h
  | next head tail =>
    cases head with
    | register reg =>
      change (if reg.regClass = c then _ else _) = _ at h
      split_ifs at h with hc
      cases h
      rw [← hc]
    | _ => cases h

theorem baseRegister_eq_ok {items : List Operand} {r : Reg} (h : baseRegister items = .ok r) :
    items = [.register ⟨r, .int⟩] := by
  unfold baseRegister at h
  split at h
  next => cases h
  next reg =>
    split_ifs at h with hc
    cases h
    rw [← hc]
  next => cases h
  next => cases h

theorem baseRegister_bind_eq_ok {items : List Operand} {f : Reg → MemoryOperand}
    {m : MemoryOperand} (h : (do return f (← baseRegister items)) = Except.ok m) :
    ∃ base, items = [.register ⟨base, .int⟩] ∧ m = f base := by
  obtain ⟨base, hb, h⟩ := bind_eq_ok_iff.mp h
  exact ⟨base, baseRegister_eq_ok hb, (Except.ok.inj h).symm⟩

theorem accessCode_eq {link : String → Link} {word : Reg → UInt32 → UInt32}
    {m : Except ErrorKind MemoryOperand} {words : List Emission}
    (h : accessCode link word m = ⟨words, none⟩) : ∃ m', m = .ok m' ∧ m'.rest = .done := by
  cases m with
  | error kind => cases h
  | ok m' =>
    refine ⟨m', rfl, ?_⟩
    unfold accessCode at h
    cases hr : m'.rest with
    | done => rfl
    | failed | next =>
      simp only [hr, Operands.finish] at h
      cases h

/-! ### Operands in memory -/

/-- The operand of a load. -/
inductive LoadOperand where
  | offset (n : Int) (base : Reg)
  | indirect (base : Reg)
  /-- An address without a register. -/
  | absolute (v : Int)
  | label (name : String)
  deriving DecidableEq, Repr

namespace LoadOperand

def operands : LoadOperand → List Operand
  | offset n base => [.int n, .group [.register ⟨base, .int⟩]]
  | indirect base => [.group [.register ⟨base, .int⟩]]
  | absolute v => [.int v]
  | label name => [.symbol name]

/-- A load with this operand. -/
def line (name : String) (funct3 : UInt8) (rd : Reg) (x : LoadOperand) : List Operand :=
  .instruction ⟨name, .i Opcode.load.code funct3 (.offset .int)⟩ :: .register ⟨rd, .int⟩ :: x.operands

/-- True of the operands that a load can have. -/
def Admitted : LoadOperand → Prop
  | offset n _ => -2048 ≤ n ∧ n ≤ 2047
  | absolute v => -2 ^ 31 ≤ v ∧ v ≤ 2 ^ 32 - 1
  | indirect _ | label _ => True

def literal? : LoadOperand → Option Int
  | offset n _ | absolute n => some n
  | indirect _ | label _ => none

/-- The words of a load with this operand. -/
def code (funct3 : UInt8) (rd : Reg) : LoadOperand → List Emission
  | offset n base =>
    emissions [Pack.immediate Opcode.load.code funct3 rd base (UInt32.ofInt n &&& 0xfff)]
  | indirect base => emissions [Pack.immediate Opcode.load.code funct3 rd base 0]
  | absolute v => emissions (absoluteWords funct3 rd v)
  | label name => loadWords funct3 rd name

/-- The number of words before the load. -/
def lead : LoadOperand → Nat
  | offset .. | indirect _ => 0
  | absolute v => if fitsSigned12 v then 0 else 1
  | label _ => 1

/-- The part of the address that is prepared in the destination, at `address` for a label at `target`. -/
def upper (address target : UInt32) : LoadOperand → UInt64
  | offset .. | indirect _ => 0
  | absolute v => if fitsSigned12 v then 0 else upperPart v
  | label _ => address.toUInt64 + operand (Pack.roundedUpper (target - address)).toInt32

/-- The part of the address that the load itself adds. -/
def lower (regs : RegisterFile) (address target : UInt32) : LoadOperand → UInt64
  | offset n base => regs.get base + UInt64.ofInt n
  | indirect base => regs.get base
  | absolute v => operand (signed (UInt32.ofInt v) 12)
  | label _ => operand (signed (target - address) 12)

/-- The address that a load into `rd` accesses. -/
def accessed (rd : Reg) (regs : RegisterFile) (address target : UInt32) (x : LoadOperand) :
    UInt64 :=
  rd.kept (x.upper address target) + x.lower regs address target

/-! ### Codes -/

section
variable (funct3 : UInt8) (rd : Reg)

theorem memoryOperand_absolute (v : Int) :
    memoryOperand (some rd) (.next (.int v) .done) =
      if fitsSigned12 v then .ok ⟨[], .zero, UInt32.ofInt v &&& 0xfff, none, .done⟩
      else if -2 ^ 31 ≤ v ∧ v ≤ 2 ^ 32 - 1 then
        .ok ⟨[⟨Pack.upper Opcode.lui.code rd (Pack.roundedUpper (UInt32.ofInt v)), none⟩], rd,
          UInt32.ofInt v &&& 0xfff, none, .done⟩
      else .error (.outOfRangeOffset v) := rfl

theorem memoryOperand_group (n : Int) (items : List Operand) (rest : Operands) :
    memoryOperand (some rd) (.next (.int n) (.next (.group items) rest)) =
      if fitsSigned12 n then do return ⟨[], ← baseRegister items, UInt32.ofInt n &&& 0xfff, none, rest⟩
      else .error (.outOfRangeOffset n) := rfl

theorem memoryOperand_indirect (items : List Operand) (rest : Operands) :
    memoryOperand (some rd) (.next (.group items) rest) =
      (do return ⟨[], ← baseRegister items, 0, none, rest⟩) := rfl

theorem encode_eq (ops : Operands) :
    encode (.i Opcode.load.code funct3 (.offset .int)) (.next (.register ⟨rd, .int⟩) ops) =
      accessCode (⟨.lowRelative, ·, rfl⟩)
        (fun base offset => Pack.immediate Opcode.load.code funct3 rd base offset)
        (memoryOperand (some rd) ops) := rfl

variable {x : LoadOperand}

theorem encode_of_admitted (h : x.Admitted) :
    encode (.i Opcode.load.code funct3 (.offset .int))
      (operandsOf (.register ⟨rd, .int⟩ :: x.operands)) = ⟨x.code funct3 rd, none⟩ := by
  cases x with
  | offset n base =>
    rw [operandsOf, encode_eq, operands, operandsOf, operandsOf, memoryOperand_offset,
      if_pos ((fitsSigned12_iff n).mpr h)]
    rfl
  | absolute v =>
    have hr : -2 ^ 31 ≤ v ∧ v ≤ 2 ^ 32 - 1 := h
    rw [operandsOf, encode_eq, operands, operandsOf, operandsOf, memoryOperand_absolute, if_pos hr]
    unfold code absoluteWords
    dsimp only
    split_ifs <;> rfl
  | indirect | label => rfl

theorem encode_of_not_admitted (h : ¬x.Admitted) :
    ∃ n, x.literal? = some n ∧ ∀ rd, encode (.i Opcode.load.code funct3 (.offset .int))
      (operandsOf (.register ⟨rd, .int⟩ :: x.operands)) = .fail (.outOfRangeOffset n) := by
  cases x with
  | offset n base =>
    refine ⟨n, rfl, fun rd => ?_⟩
    rw [operandsOf, encode_eq, operands, operandsOf, operandsOf, memoryOperand_offset,
      if_neg (mt (fitsSigned12_iff n).mp h)]
    rfl
  | absolute v =>
    have hr : ¬(-2 ^ 31 ≤ v ∧ v ≤ 2 ^ 32 - 1) := h
    have hf : ¬fitsSigned12 v = true := by
      rw [fitsSigned12_iff]
      omega
    refine ⟨v, rfl, fun rd => ?_⟩
    rw [operandsOf, encode_eq, operands, operandsOf, operandsOf, memoryOperand_absolute, if_neg hf,
      if_neg hr]
    rfl
  | indirect | label => exact absurd trivial h

end

/-! ### What a load can have for operands -/

theorem exists_of_memoryOperand {rd : Reg} {ops : Operands} {m : MemoryOperand}
    (h : memoryOperand (some rd) ops = .ok m) (hm : m.rest = .done) :
    ∃ x : LoadOperand, x.Admitted ∧ ops = operandsOf x.operands := by
  cases ops with
  | done | failed => cases h
  | next head tail =>
    cases head with
    | int n =>
      cases tail with
      | done =>
        rw [memoryOperand_absolute] at h
        refine ⟨.absolute n, ?_, rfl⟩
        split_ifs at h with hf hr
        · have := (fitsSigned12_iff n).mp hf
          unfold Admitted
          omega
        · exact hr
      | failed => cases h
      | next head tail =>
        cases head with
        | group items =>
          rw [memoryOperand_group] at h
          split_ifs at h with hf
          obtain ⟨base, rfl, rfl⟩ := baseRegister_bind_eq_ok h
          cases hm
          exact ⟨.offset n base, (fitsSigned12_iff n).mp hf, rfl⟩
        | _ => cases h
    | group items =>
      rw [memoryOperand_indirect] at h
      obtain ⟨base, rfl, rfl⟩ := baseRegister_bind_eq_ok h
      cases hm
      exact ⟨.indirect base, trivial, rfl⟩
    | symbol name =>
      cases h
      cases hm
      exact ⟨.label name, trivial, rfl⟩
    | _ => cases h

/-- Whatever a load has for operands, they are a destination and one of these. -/
theorem exists_of_encode {funct3 : UInt8} {ops : Operands} {words : List Emission}
    (h : encode (.i Opcode.load.code funct3 (.offset .int)) ops = ⟨words, none⟩) :
    ∃ (rd : Reg) (x : LoadOperand), x.Admitted ∧
      ops = operandsOf (.register ⟨rd, .int⟩ :: x.operands) := by
  cases hr : expectRegister .int ops with
  | error kind =>
    simp only [encode, hr] at h
    cases h
  | ok p =>
    obtain ⟨rd, rest⟩ := p
    obtain rfl := expectRegister_eq_ok hr
    rw [encode_eq] at h
    obtain ⟨m, hm, hrest⟩ := accessCode_eq h
    obtain ⟨x, hx, rfl⟩ := exists_of_memoryOperand hm hrest
    exact ⟨rd, x, hx, rfl⟩

/-! ### Execution -/

/-- True of a machine at `address` that is about to execute a load with this operand, whose label is at `target`.
Register 0 of the machine is zero, as it is in every reachable one. -/
structure About (x : LoadOperand) (funct3 : UInt8) (rd : Reg) (address target : UInt32)
    (m : Machine) : Prop where
  running : m.halted = false
  zero : m.regs.get 0 = 0
  pc : m.pc = address.toUInt64
  words : ∃ words, Completes target address (x.code funct3 rd) words ∧
    m.memory.HoldsWords m.pc words

variable {x : LoadOperand} {funct3 : UInt8} {rd : Reg} {address target : UInt32} {m : Machine}

section
variable {op : Load} (hop : Load.ofFunct? funct3 = some op)
include hop

/-- A load from an address without a register, wherever its words lie. -/
theorem loadsFrom_absolute (address target : UInt32) {v : Int} (hh : m.halted = false)
    (hz : m.regs.get 0 = 0) (hm : m.memory.HoldsWords m.pc (absoluteWords funct3 rd v)) :
    m.LoadsFrom op rd ((absolute v).accessed rd m.regs address target) (absolute v).lead := by
  unfold absoluteWords at hm
  unfold accessed upper lower lead
  dsimp only at hm ⊢
  split_ifs at hm ⊢ with hf
  · have hload := Machine.LoadsFrom.of_word hh hz hop hm.1
    rw [signed_and_low, Reg.zero, hz] at hload
    rw [Reg.kept_zero]
    exact hload
  · have hload := Machine.LoadsFrom.of_pair hh hz hop hm.1
      (Instruction.ofWord?_lui_rounded rd v) rfl hm.2.1
    rw [signed_and_low] at hload
    exact hload

theorem About.loadsFrom (h : x.About funct3 rd address target m) (hx : x.Admitted) :
    m.LoadsFrom op rd (x.accessed rd m.regs address target) x.lead := by
  obtain ⟨hh, hz, hpc, words, hw, hm⟩ := h
  cases x with
  | offset n base =>
    obtain rfl := completes_emissions.mp hw
    have hload := Machine.LoadsFrom.of_word hh hz hop hm.1
    rw [signed_and_low, operand_signed_ofInt hx] at hload
    rw [accessed, upper, lower, Reg.kept_zero, UInt64.zero_add]
    exact hload
  | indirect base =>
    obtain rfl := completes_emissions.mp hw
    have hload := Machine.LoadsFrom.of_word hh hz hop hm.1
    rw [accessed, upper, lower, Reg.kept_zero, UInt64.zero_add, ← UInt64.add_zero (m.regs.get base)]
    exact hload
  | absolute v =>
    obtain rfl := completes_emissions.mp hw
    exact loadsFrom_absolute hop address target hh hz hm
  | label name =>
    obtain ⟨word, -, rfl, ⟨high, hu, rfl⟩, word', -, rfl, ⟨low, hl, rfl⟩, rfl⟩ := hw
    obtain rfl : Pack.roundedUpper (target - address) = high := Except.ok.inj hu
    rw [bits_lowRelative] at hl
    obtain rfl := Except.ok.inj hl
    rw [Pack.upper_or, Pack.immediate_or] at hm
    have hi := Instruction.ofWord?_auipc rd (Pack.roundedUpper (target - address))
    rw [Pack.roundedUpper_and] at hi
    have hload := Machine.LoadsFrom.of_pair hh hz hop hm.1 hi rfl hm.2.1
    rw [hpc] at hload
    exact hload

end

/-! ### Addresses -/

/-- The address depends on the destination exactly if something is prepared that register 0 does not keep. -/
theorem accessed_eq_iff {rd' : Reg} (regs : RegisterFile) :
    x.accessed rd regs address target = x.accessed rd' regs address target ↔
      (rd = 0 ↔ rd' = 0) ∨ x.upper address target = 0 := by
  have hkept (r : Reg) : r.kept (x.upper address target) =
      if r = 0 then 0 else x.upper address target := rfl
  rw [accessed, accessed, add_left_inj, hkept, hkept]
  split_ifs with h h' h' <;> simp [h, h', eq_comm]

theorem upper_of_lead (x : LoadOperand) (h : x.lead = 0) : x.upper address target = 0 := by
  cases x with
  | offset | indirect => rfl
  | absolute v =>
    unfold lead at h
    dsimp only at h
    split_ifs at h with hf
    exact if_pos hf
  | label => cases h

theorem lead_absolute (v : Int) : (absolute v).lead = if -2048 ≤ v ∧ v ≤ 2047 then 0 else 1 := by
  unfold lead
  simp only [fitsSigned12_iff]

/-- What a load accesses by the name of a label is at the label. -/
theorem accessed_label (hrd : rd ≠ 0) (ha : address.toNat ≤ imageEnd)
    (ht : target.toNat ≤ imageEnd) (name : String) (regs : RegisterFile) :
    (label name).accessed rd regs address target = target.toUInt64 :=
  (congrArg (· + _) (Reg.kept_of_ne hrd _)).trans (add_parts ha ht)

end LoadOperand

/-- The integer that the two parts of another add up to as addresses. -/
def wrapped (v : Int) : Int :=
  if v < wrapStart then v else v - 2 ^ 32

theorem upperPart_add_wrapped {v : Int} (h : -2 ^ 31 ≤ v ∧ v ≤ 2 ^ 32 - 1) :
    upperPart v + operand (signed (UInt32.ofInt v) 12) = UInt64.ofInt (wrapped v) := by
  unfold wrapped wrapStart
  split_ifs with hv
  · exact upperPart_add ⟨by omega, hv⟩
  · have hbits : UInt32.ofInt v = UInt32.ofInt (v - 2 ^ 32) := by
      apply UInt32.toNat_inj.mp
      rw [← Int.natCast_inj, emod_ofInt, emod_ofInt, Int.sub_emod_right]
    unfold upperPart
    rw [hbits]
    exact upperPart_add (by omega)

theorem ofInt_wrapped_eq_iff {v : Int} (h : -2 ^ 31 ≤ v ∧ v ≤ 2 ^ 32 - 1) :
    UInt64.ofInt (wrapped v) = UInt64.ofInt v ↔ v < wrapStart := by
  unfold wrapped wrapStart
  split_ifs with hv
  · exact iff_of_true rfl hv
  · refine iff_of_false (fun heq => ?_) hv
    have hn := congrArg UInt64.toNat heq
    rw [toNat_ofInt, toNat_ofInt] at hn
    omega

theorem LoadOperand.accessed_absolute {rd : Reg} (hrd : rd ≠ 0) {v : Int}
    (h : -2 ^ 31 ≤ v ∧ v ≤ 2 ^ 32 - 1) (regs : RegisterFile) (address target : UInt32) :
    (absolute v).accessed rd regs address target = UInt64.ofInt (wrapped v) := by
  unfold accessed upper lower
  dsimp only
  split_ifs with hf
  · have hv := (fitsSigned12_iff v).mp hf
    have hw : wrapped v = v := if_pos (by unfold wrapStart; omega)
    rw [Reg.kept_zero, UInt64.zero_add, operand_signed_ofInt hv, hw]
  · rw [Reg.kept_of_ne hrd, upperPart_add_wrapped h]

/-- A load from the register that an integer has been loaded into. -/
theorem loadsFrom_integer {funct3 : UInt8} {op : Load} (hop : Load.ofFunct? funct3 = some op)
    {rd : Reg} (hrd : rd ≠ 0) {v : Int} (hv : -2 ^ 31 ≤ v ∧ v ≤ 2 ^ 31 - 1) {m : Machine}
    (hh : m.halted = false) (hz : m.regs.get 0 = 0)
    (hm : m.memory.HoldsWords m.pc
      (integerWords rd v ++ [Pack.immediate Opcode.load.code funct3 rd rd 0])) :
    m.LoadsFrom op rd (UInt64.ofInt v) (integerWords rd v).length := by
  obtain ⟨hfirst, hload, -⟩ := Memory.holdsWords_append.mp hm
  -- the state between the words that load the integer and the load
  let m' : Machine := { m with
    regs := m.regs.set rd (UInt64.ofInt v)
    pc := m.pc + UInt64.ofNat (4 * (integerWords rd v).length) }
  have hz' : m'.regs.get 0 = 0 := (RegisterFile.get_set_zero ..).trans hz
  have hg : m'.regs.get rd = UInt64.ofInt v :=
    (RegisterFile.get_set_self hz rd _).trans (Reg.kept_of_ne hrd _)
  have hat : m'.LoadsFrom op rd (UInt64.ofInt v) 0 := by
    have h := Machine.LoadsFrom.of_word (m := m') hh hz' hop hload
    rw [hg] at h
    exact UInt64.add_zero (UInt64.ofInt v) ▸ h
  exact Machine.LoadsFrom.of_cycles (cycles_integerWords hrd hv hz hh hfirst) hat

/-! ### Lines -/

/-- True of a line that places these words and nothing else, in any block that it stands in. -/
def Places (line : List Operand) (words : List Emission) : Prop :=
  ∀ (expand : Expander) (c : Context) (number : Nat) (s : State),
    assembleOperands expand c number (operandsOf line) s =
      located number c.file (s.add s.place ⟨number, c.file⟩ (.code words))

namespace LoadOperand
variable {x : LoadOperand} (name : String) (funct3 : UInt8)

theorem line_encoding_ne (params : Nat) (lines : List String) :
    (⟨name, .i Opcode.load.code funct3 (.offset .int)⟩ : Entry).encoding ≠ .template params lines :=
  Encoding.noConfusion

theorem rejected_of_not_admitted (h : ¬x.Admitted) :
    ∃ n, x.literal? = some n ∧ ∀ rd, Rejected (x.line name funct3 rd) (.outOfRangeOffset n) := by
  obtain ⟨n, hn, hcode⟩ := encode_of_not_admitted funct3 h
  exact ⟨n, hn, fun rd => rejected_of_encode (line_encoding_ne name funct3) (hcode rd)⟩

theorem places_of_admitted (h : x.Admitted) (rd : Reg) :
    Places (x.line name funct3 rd) (x.code funct3 rd) := by
  intro expand c number s
  unfold line
  rw [assembleOperands_instruction (line_encoding_ne name funct3), encode_of_admitted funct3 rd h]
  dsimp only
  cases s.add s.place ⟨number, c.file⟩ (.code (x.code funct3 rd)) <;> rfl

theorem emits_of_admitted {funct3 : UInt8} {rd : Reg} {words : List UInt32} (h : x.Admitted)
    (hwords : x.code funct3 rd = emissions words) (hroom : 4 * words.length ≤ segmentSize) :
    Emits (x.line name funct3 rd) words :=
  emits_of_encode (line_encoding_ne name funct3)
    ((encode_of_admitted funct3 rd h).trans (by rw [hwords])) hroom

end LoadOperand

/-- The fault of a program within its first `n` cycles, if the program is one. -/
def outcome (text : String) (n : Nat) : Option (Option Fault) :=
  (assemble Catalog.builtin 0 [⟨"a.s", text⟩]).toOption.map fun p =>
    (⟨.ofMemory p.memory, .empty⟩ : Hart).fault? n

theorem exists_of_outcome (text : String) (n : Nat) (fault : Option Fault)
    (h : outcome text n = some fault) :
    ∃ p, assemble Catalog.builtin 0 [⟨"a.s", text⟩] = .ok p ∧
      (⟨.ofMemory p.memory, .empty⟩ : Hart).fault? n = fault := by
  obtain ⟨p, hp, hfault⟩ := Option.map_eq_some_iff.mp h
  exact ⟨p, (toOption_eq_some_iff ..).mp hp, hfault⟩

/-- A program that begins with a load by the name of a label, which is at the start of the data. -/
theorem exists_about_label (text : String) (rd : Reg) (first second : UInt32)
    (h : (assemble Catalog.builtin 0 [⟨"a.s", text⟩]).toOption.map (fun p =>
      (p.memory.stackSize, (p.memory.readWord 0x400000).toOption,
        (p.memory.readWord 0x400004).toOption)) = some (0, some first, some second))
    (hw : Completes 0x10010000 0x400000 (loadWords 2 rd "x") [first, second]) :
    ∃ p, assemble Catalog.builtin 0 [⟨"a.s", text⟩] = .ok p ∧ p.memory.stackSize = 0 ∧
      (LoadOperand.label "x").About 2 rd 0x400000 0x10010000 (.ofMemory p.memory) := by
  obtain ⟨p, hp, hfields⟩ := Option.map_eq_some_iff.mp h
  obtain ⟨hs, hreads⟩ := Prod.mk.inj hfields
  obtain ⟨hfirst, hsecond⟩ := Prod.mk.inj hreads
  have hholds : p.memory.HoldsWords 0x400000 [first, second] :=
    ⟨(toOption_eq_some_iff ..).mp hfirst, (toOption_eq_some_iff ..).mp hsecond, trivial⟩
  exact ⟨p, (toOption_eq_some_iff ..).mp hp, hs, rfl, rfl, rfl, _, hw, hholds⟩

/-- What a load can have for an operand does not depend on its destination. Two loads that differ in the destination
alone read from the same address, and end with the same fault or none, unless a part of the address is prepared in the
destination and just one of the two is register 0, which keeps nothing of it. -/
theorem load_address_of_destination {funct3 : UInt8} {op : Load}
    (hop : Load.ofFunct? funct3 = some op) (name : String) :
    (∀ ops words, encode (.i Opcode.load.code funct3 (.offset .int)) ops = ⟨words, none⟩ →
      ∃ (rd : Reg) (x : LoadOperand), x.Admitted ∧
        ops = operandsOf (.register ⟨rd, .int⟩ :: x.operands)) ∧
    ∀ x : LoadOperand,
      (¬x.Admitted → ∃ kind, ∀ rd, Rejected (x.line name funct3 rd) kind) ∧
      (x.Admitted → ∀ rd, Places (x.line name funct3 rd) (x.code funct3 rd)) ∧
      (x.Admitted → ∀ (rd rd' : Reg) (address target : UInt32) (m : Machine) (memory : Memory),
        memory.stackSize = m.memory.stackSize → x.About funct3 rd address target m →
        x.About funct3 rd' address target { m with memory } →
          m.LoadsFrom op rd (x.accessed rd m.regs address target) x.lead ∧
          Machine.LoadsFrom { m with memory } op rd' (x.accessed rd' m.regs address target) x.lead ∧
          (x.accessed rd m.regs address target = x.accessed rd' m.regs address target ↔
            (rd = 0 ↔ rd' = 0) ∨ x.upper address target = 0) ∧
          (x.lead = 0 → x.upper address target = 0) ∧
          (x.accessed rd m.regs address target = x.accessed rd' m.regs address target →
            ∀ console, (⟨m, console⟩ : Hart).fault? (x.lead + 1) =
              (⟨{ m with memory }, console⟩ : Hart).fault? (x.lead + 1))) := by
  refine ⟨fun _ _ => LoadOperand.exists_of_encode, fun x => ⟨fun hx => ?_, fun hx =>
    x.places_of_admitted name funct3 hx, fun hx rd rd' address target m memory hs h h' => ?_⟩⟩
  · obtain ⟨n, -, hrejected⟩ := x.rejected_of_not_admitted name funct3 hx
    exact ⟨_, hrejected⟩
  · have hload := h.loadsFrom hop hx
    have hload' := h'.loadsFrom hop hx
    refine ⟨hload, hload', LoadOperand.accessed_eq_iff m.regs, x.upper_of_lead, ?_⟩
    intro heq console
    rw [hload.fault?_eq, hload'.fault?_eq, ← heq, Memory.locate?_of_stackSize hs]

/-- A word that is loaded by its name, into one register and into another. -/
theorem load_address_of_destination_label :
    ∃ p q, assemble Catalog.builtin 0 [⟨"a.s", ".data\nx: .word 7\n.text\nlw a0, x"⟩] = .ok p ∧
      assemble Catalog.builtin 0 [⟨"a.s", ".data\nx: .word 7\n.text\nlw a1, x"⟩] = .ok q ∧
      (Machine.ofMemory p.memory).LoadsFrom .lw 10 0x10010000 1 ∧
      (Machine.ofMemory q.memory).LoadsFrom .lw 11 0x10010000 1 ∧
      (⟨.ofMemory p.memory, .empty⟩ : Hart).fault? 2 =
        (⟨.ofMemory q.memory, .empty⟩ : Hart).fault? 2 := by
  obtain ⟨p, hp, hs, h⟩ := exists_about_label ".data\nx: .word 7\n.text\nlw a0, x" 10
    0x0fc10517 0x00052503 (by decide +kernel)
    ⟨_, _, rfl, ⟨_, rfl, by decide⟩, _, _, rfl, ⟨_, rfl, by decide⟩, rfl⟩
  obtain ⟨q, hq, hs', h'⟩ := exists_about_label ".data\nx: .word 7\n.text\nlw a1, x" 11
    0x0fc10597 0x0005a583 (by decide +kernel)
    ⟨_, _, rfl, ⟨_, rfl, by decide⟩, _, _, rfl, ⟨_, rfl, by decide⟩, rfl⟩
  have haccessed (rd : Reg) (hrd : rd ≠ 0) (regs : RegisterFile) :
      (LoadOperand.label "x").accessed rd regs 0x400000 0x10010000 = 0x10010000 :=
    LoadOperand.accessed_label hrd (by decide) (by decide) "x" regs
  obtain ⟨hload, hload', -, -, hfault⟩ := ((@load_address_of_destination 2 .lw rfl "lw").2
    (.label "x")).2.2 trivial 10 11 0x400000 0x10010000 (.ofMemory p.memory) q.memory
      (hs'.trans hs.symm) h h'
  rw [haccessed 10 (by decide)] at hload
  rw [haccessed 11 (by decide)] at hload'
  exact ⟨p, q, hp, hq, hload, hload',
    hfault ((haccessed 10 (by decide) _).trans (haccessed 11 (by decide) _).symm) .empty⟩

/-- Register 0 does not keep the upper part of the address of a label. -/
theorem load_address_of_destination_zero :
    ∃ p q, assemble Catalog.builtin 0 [⟨"a.s", ".data\nx: .word 7\n.text\nlw zero, x"⟩] = .ok p ∧
      assemble Catalog.builtin 0 [⟨"a.s", ".data\nx: .word 7\n.text\nlw a0, x"⟩] = .ok q ∧
      (⟨.ofMemory p.memory, .empty⟩ : Hart).fault? 2 = some (.memory (.read 0)) ∧
      (⟨.ofMemory q.memory, .empty⟩ : Hart).fault? 2 = none := by
  obtain ⟨p, hp, hfault⟩ := exists_of_outcome ".data\nx: .word 7\n.text\nlw zero, x" 2
    (some (.memory (.read 0))) (by decide +kernel)
  obtain ⟨q, hq, hfault'⟩ := exists_of_outcome ".data\nx: .word 7\n.text\nlw a0, x" 2
    none (by decide +kernel)
  exact ⟨p, q, hp, hq, hfault, hfault'⟩

/-- A load from an address without a register is rejected exactly if the address is no 32-bit number. Otherwise it
places one word or two. It reads from the address below `wrapStart`, and from the address less `2 ^ 32` from there on.
A load from a register reads from every address that `li` puts there. -/
theorem absolute_load_address {funct3 : UInt8} {op : Load}
    (hop : Load.ofFunct? funct3 = some op) (name : String) {rd : Reg} (hrd : rd ≠ 0) (v : Int) :
    (¬(-2 ^ 31 ≤ v ∧ v ≤ 2 ^ 32 - 1) →
      Rejected ((LoadOperand.absolute v).line name funct3 rd) (.outOfRangeOffset v)) ∧
    (-2 ^ 31 ≤ v ∧ v ≤ 2 ^ 32 - 1 →
      ∃ words k, Emits ((LoadOperand.absolute v).line name funct3 rd) words ∧
        words.length = k + 1 ∧ k = (if -2048 ≤ v ∧ v ≤ 2047 then 0 else 1) ∧
        (UInt64.ofInt (wrapped v) = UInt64.ofInt v ↔ v < wrapStart) ∧
        ∀ m : Machine, m.halted = false → m.regs.get 0 = 0 → m.memory.HoldsWords m.pc words →
          m.LoadsFrom op rd (UInt64.ofInt (wrapped v)) k) ∧
    (-2 ^ 31 ≤ v ∧ v ≤ 2 ^ 31 - 1 →
      ∃ first last, Emits (integerLine rd v) first ∧
        Emits ((LoadOperand.offset 0 rd).line name funct3 rd) [last] ∧
        ∀ m : Machine, m.halted = false → m.regs.get 0 = 0 →
          m.memory.HoldsWords m.pc (first ++ [last]) →
          m.LoadsFrom op rd (UInt64.ofInt v) first.length) := by
  refine ⟨fun hv => ?_, fun hv => ?_, fun hv => ?_⟩
  · obtain ⟨n, hn, hrejected⟩ :=
      LoadOperand.rejected_of_not_admitted (x := .absolute v) name funct3 hv
    cases hn
    exact hrejected rd
  · have hemits : Emits ((LoadOperand.absolute v).line name funct3 rd) (absoluteWords funct3 rd v) :=
      LoadOperand.emits_of_admitted name hv rfl (by rw [length_absoluteWords]; split_ifs <;> decide)
    refine ⟨_, _, hemits, length_absoluteWords funct3 rd v, rfl, ofInt_wrapped_eq_iff hv,
      fun m hh hz hm => ?_⟩
    have hload := LoadOperand.loadsFrom_absolute hop 0 0 hh hz hm
    rw [LoadOperand.accessed_absolute hrd hv, LoadOperand.lead_absolute] at hload
    exact hload
  · have hlast : Emits ((LoadOperand.offset 0 rd).line name funct3 rd)
        [Pack.immediate Opcode.load.code funct3 rd rd 0] :=
      LoadOperand.emits_of_admitted name (show -2048 ≤ (0 : Int) ∧ (0 : Int) ≤ 2047 by decide) rfl
        (show 4 ≤ segmentSize by decide)
    exact ⟨_, _, emits_integerLine hv rd, hlast,
      fun m hh hz hm => loadsFrom_integer hop hrd hv hh hz hm⟩

/-- The address of data, which is below the wrap. -/
theorem absolute_load_address_data :
    ∃ p, assemble Catalog.builtin 0 [⟨"a.s", "lw a0,0x10010804"⟩] = .ok p ∧
      (Machine.ofMemory p.memory).LoadsFrom .lw 10 0x10010804 1 := by
  have hlw : (⟨"lw", .i 0x03 2 (.offset .int)⟩ : Entry) ∈ Catalog.builtin.entries := by decide
  have htext : "lw" ++ (Source.Arguments.registerNumber 10 0x10010804).text =
      "lw a0,0x10010804" := by decide
  have hops := Source.lineOperands_instruction hlw
    (a := .registerNumber 10 0x10010804) (by rintro _ ⟨⟩; decide)
  have hn := Source.newline_not_mem hlw (.registerNumber 10 0x10010804)
  obtain ⟨words, k, hemits, -, rfl, -, hload⟩ :=
    (@absolute_load_address 2 .lw rfl "lw" 10 (by decide) 0x10010804).2.1 (by decide)
  obtain ⟨p, hp, hholds, -⟩ := hemits.alone "a.s" _ 0 hn hops
  exact ⟨p, htext ▸ hp, hload (.ofMemory p.memory) rfl rfl hholds⟩

/-- The least address whose upper part goes below zero, and the same address in a register. -/
theorem absolute_load_address_wrap :
    ∃ p q, assemble Catalog.builtin 0 [⟨"a.s", "lw a0, 0x7ffff800"⟩] = .ok p ∧
      assemble Catalog.builtin 0 [⟨"a.s", "li a0, 0x7ffff800\nlw a0, 0(a0)"⟩] = .ok q ∧
      (⟨.ofMemory p.memory, .empty⟩ : Hart).fault? 2 = some (.memory (.read 0xffffffff7ffff800)) ∧
      (⟨.ofMemory q.memory, .empty⟩ : Hart).fault? 3 = some (.memory (.read 0x7ffff800)) := by
  obtain ⟨p, hp, hfault⟩ := exists_of_outcome "lw a0, 0x7ffff800" 2
    (some (.memory (.read 0xffffffff7ffff800))) (by decide +kernel)
  obtain ⟨q, hq, hfault'⟩ := exists_of_outcome "li a0, 0x7ffff800\nlw a0, 0(a0)" 3
    (some (.memory (.read 0x7ffff800))) (by decide +kernel)
  exact ⟨p, q, hp, hq, hfault, hfault'⟩

end Assembly

end RiscvToolkit
