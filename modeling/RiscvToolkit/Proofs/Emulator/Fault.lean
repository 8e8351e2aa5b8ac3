import RiscvToolkit.Proofs.Emulator.Operation
import RiscvToolkit.Proofs.Machine.Pair

/-! Faults: what a machine cannot execute, and that an emulator is as it was when it could not. -/
namespace RiscvToolkit

/-- True of the instruction that a machine executes next. -/
def Machine.Fetches (m : Machine) (i : Instruction) : Prop :=
  ∃ word, m.memory.readWord m.pc = .ok word ∧ Instruction.ofWord? word = some i

/-- Why a machine cannot execute its next instruction. -/
inductive Machine.Faults (m : Machine) : Fault → Prop
  | fetch {e : AccessError} (h : m.memory.readWord m.pc = .error e) : Faults m (.memory e)
  | decode {word : UInt32} (h : m.memory.readWord m.pc = .ok word)
      (hi : Instruction.ofWord? word = none) : Faults m (.unknownInstruction word)
  | load {op : Load} {rd base : Reg} {offset : UInt64} {e : AccessError}
      (hi : m.Fetches (.load op rd base offset))
      (h : m.memory.read op.width (m.regs.get base + offset) = .error e) : Faults m (.memory e)
  | store {op : Store} {source base : Reg} {offset : UInt64} {e : AccessError}
      (hi : m.Fetches (.store op source base offset))
      (h : m.memory.write op.width (m.regs.get base + offset) (m.regs.get source) = .error e) :
      Faults m (.memory e)
  | string {e : AccessError} (hi : m.Fetches .ecall) (hn : m.regs.get .a7 = 4)
      (h : m.memory.cString (m.regs.get .a0) = .error e) : Faults m (.memory e)
  | syscall (hi : m.Fetches .ecall) (hn : m.regs.get .a7 ∉ [1, 4, 10, 11]) :
      Faults m (.unknownSyscall (m.regs.get .a7))

namespace Machine
variable {m : Machine} {fault : Fault}

theorem faults_of_environmentCall (hi : m.Fetches .ecall)
    (h : m.environmentCall = .error fault) : m.Faults fault := by
  unfold environmentCall at h
  dsimp only at h
  split at h
  next => cases h
  next hn =>
    split at h
    next => cases h
    next e hs =>
      cases h
      exact .string hi (UInt64.toNat_inj.mp hn) hs
  next => cases h
  next => cases h
  next h1 h4 h10 h11 =>
    cases h
    refine .syscall hi fun hmem => ?_
    simp only [List.mem_cons, List.not_mem_nil, or_false] at hmem
    rcases hmem with hn | hn | hn | hn
    · exact h1 (congrArg UInt64.toNat hn)
    · exact h4 (congrArg UInt64.toNat hn)
    · exact h10 (congrArg UInt64.toNat hn)
    · exact h11 (congrArg UInt64.toNat hn)

theorem faults_of_execute {i : Instruction} (hi : m.Fetches i) (h : m.execute i = .error fault) :
    m.Faults fault := by
  cases i with
  | load op rd base offset =>
    unfold execute at h
    dsimp only at h
    split at h
    next => cases h
    next e he =>
      cases h
      exact .load hi he
  | store op source base offset =>
    unfold execute at h
    dsimp only at h
    split at h
    next => cases h
    next e he =>
      cases h
      exact .store hi he
  | ecall => exact faults_of_environmentCall hi h
  | _ => cases h

theorem faults_of_step (h : m.step = .error fault) : m.halted = false ∧ m.Faults fault := by
  unfold step at h
  split_ifs at h with hh
  refine ⟨Bool.eq_false_iff.mpr hh, ?_⟩
  split at h
  next e he =>
    cases h
    exact .fetch he
  next word hw =>
    split at h
    next hi =>
      cases h
      exact .decode hw hi
    next i hi => exact faults_of_execute ⟨word, hw, hi⟩ h

theorem Fetches.step {i : Instruction} (hi : m.Fetches i) (hh : m.halted = false) :
    m.step = m.execute i := by
  obtain ⟨word, hw, hi⟩ := hi
  exact step_eq_execute hh hw hi

theorem Faults.step (hf : m.Faults fault) (hh : m.halted = false) : m.step = .error fault := by
  cases hf with
  | fetch h =>
    unfold Machine.step
    rw [hh, h]
    rfl
  | decode h hi =>
    unfold Machine.step
    rw [hh, h]
    dsimp only
    rw [hi]
    rfl
  | load hi h =>
    rw [hi.step hh, execute, h]
  | store hi h =>
    rw [hi.step hh, execute, h]
  | string hi hn h =>
    rw [hi.step hh, execute, environmentCall, hn, h]
    rfl
  | syscall hi hn =>
    simp only [List.mem_cons, List.not_mem_nil, or_false, not_or] at hn
    obtain ⟨h1, h4, h10, h11⟩ := hn
    rw [hi.step hh, execute, environmentCall]
    dsimp only
    split
    next hn => exact absurd (UInt64.toNat_inj.mp hn) h1
    next hn => exact absurd (UInt64.toNat_inj.mp hn) h4
    next hn => exact absurd (UInt64.toNat_inj.mp hn) h10
    next hn => exact absurd (UInt64.toNat_inj.mp hn) h11
    next => rfl

theorem step_eq_error_iff : m.step = .error fault ↔ m.halted = false ∧ m.Faults fault :=
  ⟨faults_of_step, fun ⟨hh, hf⟩ => hf.step hh⟩

end Machine

namespace Emulator

/-- A step fails just if its instruction cannot be executed. It changes nothing then, and where faults are
reported, the console gets one message and nothing else. -/
theorem fault_leaves_no_trace {e : Emulator} (he : e.Reachable) (fault : Fault) (e' : Emulator) :
    (e.tryStep = .error fault e' ↔
      e.machine.halted = false ∧ e.machine.Faults fault ∧ e' = e) ∧
    (e.tryStep = .error fault e' →
      e.step = (false, { e with
        console := e.console.send [.error (fault.message ++
          " (pc = 0x" ++ Text.hexPadded 8 e.machine.pc.toNat ++ ")")] })) := by
  have htry : e.tryStep = .error fault e' ↔
      e.machine.halted = false ∧ e.machine.Faults fault ∧ e' = e := by
    rw [← and_assoc, ← Machine.step_eq_error_iff, tryStep_eq he.zeroed.machine]
    split_ifs with hh
    · have hne : e.machine.step ≠ .error fault := fun h =>
        absurd (Machine.faults_of_step h).1 (by rw [hh]; decide)
      simp [hne]
    · cases e.machine.step <;> simp [eq_comm]
  refine ⟨htry, fun h => ?_⟩
  obtain ⟨-, -, rfl⟩ := htry.mp h
  unfold step
  rw [h]
  simp only [report, String.append_assoc]

/-- A load of the word at address 0, which is not mapped, as the first instruction. -/
theorem fault_leaves_no_trace_unmapped :
    ∃ memory, Memory.empty.writeWord 0x400000 0x00002503 = .ok memory ∧
      (load memory 0x400000 .default).Reachable ∧
      (load memory 0x400000 .default).tryStep =
        .error (.memory (.read 0)) (load memory 0x400000 .default) ∧
      (load memory 0x400000 .default).step =
        (false, { load memory 0x400000 .default with
          console := ⟨#[.error "out of bounds read at 0x00000000 (pc = 0x00400000)"]⟩ }) := by
  have hw : Memory.empty.writeWord 0x400000 0x00002503 =
      .ok (Memory.empty.overwrite .text 0 [0x03, 0x25, 0, 0]) := rfl
  have hr := Reachable.load (Memory.empty.overwrite .text 0 [0x03, 0x25, 0, 0]) 0x400000 .default
  have hf : (load (Memory.empty.overwrite .text 0 [0x03, 0x25, 0, 0]) 0x400000
      .default).machine.Faults (.memory (.read 0)) :=
    @Machine.Faults.load _ .lw 10 0 0 _ ⟨0x00002503, rfl, by decide⟩ rfl
  have ht := (fault_leaves_no_trace hr (.memory (.read 0)) _).1.mpr ⟨rfl, hf, rfl⟩
  have hs := (fault_leaves_no_trace hr (.memory (.read 0)) _).2 ht
  exact ⟨_, hw, hr, ht, hs⟩

end Emulator

end RiscvToolkit
