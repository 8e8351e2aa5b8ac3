import RiscvToolkit.Emulator.Snapshot
import RiscvToolkit.Proofs.Machine.Cycle
import RiscvToolkit.Proofs.Machine.Same
import RiscvToolkit.Proofs.Memory.Trimmed

/-! Snapshots give back what they were taken of, for machines that write no byte past its mark; and no
instruction does. -/
namespace RiscvToolkit

theorem Machine.same_restore_snapshot {m : Machine} (hm : m.memory.Marked) :
    m.snapshot.restore.Same m :=
  ⟨rfl, rfl, rfl, Memory.same_expand_trim hm, rfl⟩

theorem Executed.Follows.marked {done : Executed} {m : Machine} (h : done.Follows m)
    (hm : m.memory.Marked) : done.machine.memory.Marked := by
  obtain hsame | ⟨width, addr, value, hw⟩ := h.memory
  · rwa [hsame]
  · exact hm.store hw

end RiscvToolkit
