import RiscvToolkit.Machine.Step
import RiscvToolkit.Proofs.Instruction.Decode

/-! Pairs of words that make an address: an upper part, rounded, and a low part that is read as a signed
number. Together they reach every address of the image from every other. -/
namespace RiscvToolkit
open Instruction (operand)

/-- One past the last address that code and data take. -/
def imageEnd : Nat := dataBase + segmentSize

theorem toNat_and_upper (x : UInt32) :
    (x &&& (0xfffff000 : UInt32)).toNat = x.toNat / 4096 * 4096 := by
  have hs : x &&& (0xfffff000 : UInt32) = (x >>> 12) <<< 12 := by
    apply ext_bit
    intro i hi
    interval_cases i <;> simp
  have hx := x.toNat_lt
  rw [hs, UInt32.toNat_shiftLeft, UInt32.toNat_shiftRight]
  simp only [UInt32.reduceToNat, Nat.reduceMod, Nat.shiftLeft_eq, Nat.shiftRight_eq_div_pow]
  omega

theorem toNat_ofInt (x : Int) : (UInt64.ofInt x).toNat = (x % 2 ^ 64).toNat := by
  unfold UInt64.ofInt
  rw [UInt64.toNat_ofNat']
  omega

theorem operand_eq_ofInt (imm : Int32) : operand imm = UInt64.ofInt imm.toInt := by
  have hb : (operand imm).toBitVec = BitVec.ofInt 64 imm.toInt := rfl
  apply UInt64.toNat_inj.mp
  rw [toNat_ofInt, ← UInt64.toNat_toBitVec, hb, BitVec.toNat_ofInt]
  rfl

theorem toUInt64_eq_ofInt (a : UInt32) : a.toUInt64 = UInt64.ofInt a.toNat := by
  have := a.toNat_lt
  apply UInt64.toNat_inj.mp
  rw [toNat_ofInt, UInt32.toNat_toUInt64]
  omega

theorem toInt_toInt32 (x : UInt32) : x.toInt32.toInt = (x.toNat : Int).bmod (2 ^ 32) :=
  BitVec.toInt_eq_toNat_bmod x.toBitVec

/-- The upper part of a distance is rounded so that the signed low part completes it. Above, the upper part
has gone below zero. -/
theorem rounded_add_low {d : Int} {u v : Nat} (hd : -2 ^ 31 - 2048 ≤ d ∧ d < 2 ^ 31 - 2048)
    (hu : (u : Int) = d % 2 ^ 32) (hv : v = (u + 2048) % 2 ^ 32) :
    ((v / 4096 * 4096 : Nat) : Int).bmod (2 ^ 32) + (u : Int).bmod (2 ^ 12) = d := by
  obtain ⟨hl, hg⟩ := hd
  simp only [Int.bmod_def]
  omega

/-- The two parts of a distance, added to where it starts, lead to where it ends. -/
theorem add_parts {address target : UInt32} (ha : address.toNat ≤ imageEnd)
    (ht : target.toNat ≤ imageEnd) :
    address.toUInt64 + operand (Pack.roundedUpper (target - address)).toInt32 +
      operand (signed (target - address) 12) = target.toUInt64 := by
  have hend : imageEnd < 2 ^ 30 := by decide
  have hu : ((target - address).toNat : Int) = ((target.toNat : Int) - address.toNat) % 2 ^ 32 := by
    have hs := UInt32.toNat_sub target address
    have := address.toNat_lt
    omega
  have hv : (target - address + 0x800).toNat = ((target - address).toNat + 2048) % 2 ^ 32 := by
    rw [UInt32.toNat_add]
    rfl
  have hr := rounded_add_low (d := target.toNat - address.toNat) (by omega) hu hv
  rw [operand_eq_ofInt, operand_eq_ofInt, toUInt64_eq_ofInt, toUInt64_eq_ofInt, ← UInt64.ofInt_add,
    ← UInt64.ofInt_add, toInt_signed _ (by omega) (by omega), toInt_toInt32, Pack.roundedUpper,
    toNat_and_upper, Int.add_assoc, hr, add_sub_cancel]

theorem RegisterFile.set_set (file : RegisterFile) (r : Reg) (a b : UInt64) :
    (file.set r a).set r b = file.set r b := by
  unfold set put
  split_ifs
  · rfl
  · simp

namespace Machine

def stepTwice (m : Machine) : Except Fault Executed := do
  let e ← m.step
  e.machine.step

theorem step_eq_execute {m : Machine} {word : UInt32} {i : Instruction}
    (hh : m.halted = false) (hw : m.memory.readWord m.pc = .ok word)
    (hi : Instruction.ofWord? word = some i) : m.step = m.execute i := by
  unfold step
  rw [hh, hw]
  dsimp only
  rw [hi]
  rfl

/-- The state after the word that loads an upper part. -/
def withUpper (m : Machine) (reg : Reg) (distance : UInt32) : Machine :=
  (m.writeBack reg (m.pc + operand (Pack.roundedUpper distance).toInt32)).machine

/-- Two words, the first of which loads the upper part of a distance. -/
theorem stepTwice_upper {m : Machine} {reg : Reg} {distance word : UInt32} {i : Instruction}
    (hh : m.halted = false)
    (h₁ : m.memory.readWord m.pc =
      .ok (Pack.upper Opcode.auipc.code reg (Pack.roundedUpper distance)))
    (h₂ : m.memory.readWord (m.pc + 4) = .ok word) (hi : Instruction.ofWord? word = some i) :
    m.stepTwice = (m.withUpper reg distance).execute i := by
  have hf := Instruction.ofWord?_auipc reg (Pack.roundedUpper distance)
  rw [Pack.roundedUpper_and] at hf
  unfold stepTwice
  rw [step_eq_execute hh h₁ hf]
  exact step_eq_execute (m := m.withUpper reg distance) hh h₂ hi

section
variable {m : Machine} {address target : UInt32} {reg : Reg}
variable (hh : m.halted = false) (hpc : m.pc = address.toUInt64) (ha : address.toNat ≤ imageEnd)
variable (ht : target.toNat ≤ imageEnd) (hreg : reg ≠ 0)
variable (h₁ : m.memory.readWord m.pc =
  .ok (Pack.upper Opcode.auipc.code reg (Pack.roundedUpper (target - address))))
include hpc ha ht hreg

theorem get_withUpper_add :
    (m.withUpper reg (target - address)).regs.get reg +
      operand (signed (target - address) 12) = target.toUInt64 := by
  have hg : (m.withUpper reg (target - address)).regs.get reg =
      m.pc + operand (Pack.roundedUpper (target - address)).toInt32 :=
    (RegisterFile.get_set ..).trans (if_pos ⟨rfl, hreg⟩)
  rw [hg, hpc, add_parts ha ht]

include hh h₁

/-- A pair that ends in an addition leaves the target in its register. -/
theorem stepTwice_addi (h₂ : m.memory.readWord (m.pc + 4) =
      .ok (Pack.immediate Opcode.opImm.code 0 reg reg (target - address))) :
    m.stepTwice =
      .ok (quiet { m with regs := m.regs.set reg target.toUInt64, pc := m.pc + 8 }) := by
  have hg := get_withUpper_add hpc ha ht hreg
  rw [stepTwice_upper hh h₁ h₂ (Instruction.ofWord?_addi reg reg (target - address)), execute,
    ArithImm.eval, Arith.eval, hg]
  unfold withUpper writeBack quiet
  dsimp only
  rw [RegisterFile.set_set, UInt64.add_assoc]
  rfl

/-- A pair that ends in a load reads from the target. -/
theorem stepTwice_load {funct3 : UInt8} {op : Load} (hop : Load.ofFunct? funct3 = some op)
    (h₂ : m.memory.readWord (m.pc + 4) =
      .ok (Pack.immediate Opcode.load.code funct3 reg reg (target - address))) :
    m.stepTwice =
      match m.memory.read op.width target.toUInt64 with
      | .ok value =>
        .ok (quiet { m with regs := m.regs.set reg (op.extend value), pc := m.pc + 8 })
      | .error e => .error (.memory e) := by
  have hg := get_withUpper_add hpc ha ht hreg
  rw [stepTwice_upper hh h₁ h₂ (Instruction.ofWord?_load hop reg reg (target - address)), execute,
    hg]
  unfold withUpper writeBack quiet
  dsimp only
  cases m.memory.read op.width target.toUInt64 with
  | error e => rfl
  | ok value =>
    dsimp only
    rw [RegisterFile.set_set, UInt64.add_assoc]
    rfl

/-- A pair that ends in a store writes to the target. -/
theorem stepTwice_store {funct3 : UInt8} {op : Store} (hop : Store.ofFunct? funct3 = some op)
    {source : Reg} (hs : reg ≠ source)
    (h₂ : m.memory.readWord (m.pc + 4) =
      .ok (Pack.store Opcode.store.code funct3 reg source (target - address))) :
    m.stepTwice =
      match m.memory.write op.width target.toUInt64 (m.regs.get source) with
      | .ok memory =>
        .ok (quiet { m.withUpper reg (target - address) with memory, pc := m.pc + 8 })
      | .error e => .error (.memory e) := by
  have hg := get_withUpper_add hpc ha ht hreg
  have hk : (m.withUpper reg (target - address)).regs.get source = m.regs.get source :=
    (RegisterFile.get_set ..).trans (if_neg fun h => hs h.1)
  rw [stepTwice_upper hh h₁ h₂ (Instruction.ofWord?_store hop reg source (target - address)),
    execute, hg, hk]
  unfold withUpper writeBack quiet
  dsimp only
  rw [UInt64.add_assoc]
  rfl

end

end Machine

end RiscvToolkit
