import RiscvToolkit.Machine.Basic
import RiscvToolkit.Memory.Trimmed

/-! Copies of the state of a machine to go back to, with a memory that is trimmed. -/
namespace RiscvToolkit

structure Snapshot where
  pc : UInt64
  regs : RegisterFile
  floats : RegisterFile
  /-- Cut when it is first asked for; most snapshots are dropped before. -/
  memory : Thunk TrimmedMemory
  halted : Bool

def Machine.snapshot (m : Machine) : Snapshot where
  pc := m.pc
  regs := m.regs
  floats := m.floats
  memory := .mk fun _ => m.memory.trim
  halted := m.halted

def Snapshot.restore (s : Snapshot) : Machine where
  pc := s.pc
  regs := s.regs
  floats := s.floats
  memory := s.memory.get.expand
  halted := s.halted

end RiscvToolkit
