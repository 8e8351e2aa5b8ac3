import RiscvToolkit.Proofs.Emulator.Operation
import RiscvToolkit.Proofs.Memory.Same
import RiscvToolkit.Proofs.Memory.Stack

/-! The stack that settings ask for. Its size is rounded up to whole words and limited to what a stack may have, in
64-bit arithmetic: the three greatest sizes come out as zero. A loaded program has a stack of this size below the fixed
top, and keeps it whatever a host does. -/
namespace RiscvToolkit

namespace Memory
variable {m : Memory} {a : UInt64}

/-- True of an address whose byte can be read, and written with any value. -/
def Accessible (m : Memory) (a : UInt64) : Prop :=
  (∃ value, m.read .byte a = .ok value) ∧ ∀ value, ∃ m', m.write .byte a value = .ok m'

/-- True of an address whose byte can be neither read nor written. -/
def Inaccessible (m : Memory) (a : UInt64) : Prop :=
  m.read .byte a = .error (.read a) ∧ ∀ value, m.write .byte a value = .error (.write a)

theorem exists_locate?_one_iff : (∃ place, m.locate? a 1 = some place) ↔ ∃ r, a ∈ m.range r := by
  rw [← m.isSome_byte?_iff a, byte?, Option.isSome_map, Option.isSome_iff_exists]

theorem accessible_of_mem {r : Region} (h : a ∈ m.range r) : m.Accessible a := by
  obtain ⟨⟨r', o⟩, hl⟩ := exists_locate?_one_iff.mpr ⟨r, h⟩
  have hread : m.load a 1 = .ok ((m.segment r').bytes.read o 1) := by
    rw [load, hl]
  refine ⟨⟨_, congrArg (Except.map LittleEndian.decode) hread⟩, fun value => ?_⟩
  have hlen : (LittleEndian.encode 1 value).length = 1 := LittleEndian.length_encode 1 value
  have hstore := m.store_eq_ok_iff (m.overwrite r' o (LittleEndian.encode 1 value)) a
    (LittleEndian.encode 1 value)
  rw [hlen] at hstore
  exact ⟨_, hstore.mpr ⟨r', o, hl, rfl⟩⟩

theorem inaccessible_of_not_mem (h : ∀ r, a ∉ m.range r) : m.Inaccessible a := by
  have hl : m.locate? a 1 = none := by
    by_contra hne
    obtain ⟨r, hr⟩ := exists_locate?_one_iff.mp (Option.ne_none_iff_exists'.mp hne)
    exact h r hr
  refine ⟨(m.read_eq_error_iff .byte a (.read a)).mpr ⟨hl, rfl⟩, fun value => ?_⟩
  have hlen : (LittleEndian.encode 1 value).length = 1 := LittleEndian.length_encode 1 value
  have hstore : m.store a (LittleEndian.encode 1 value) = .error (.write a) := by
    rw [store, hlen, hl]
  exact hstore

/-- The stack ends below its top, and nothing is mapped right before it. -/
theorem accessible_stack (h : stackTop - m.stackSize ≤ a.toNat) (ht : a.toNat < stackTop) :
    m.Accessible a := by
  have hbase := m.base_add_stackSize
  refine accessible_of_mem (r := .stack) ⟨?_, ?_⟩
  · omega
  · have hsize : m.size .stack = m.stackSize := rfl
    omega

theorem inaccessible_beside_stack (h : a.toNat = stackTop ∨ a.toNat + 1 + m.stackSize = stackTop) :
    m.Inaccessible a := by
  have hs := m.stackSize_le
  refine inaccessible_of_not_mem fun r hr => ?_
  obtain ⟨hlo, hhi⟩ := hr
  cases r with
  | data | text =>
    simp only [base, size, dataBase, textBase, segmentSize, stackTop] at *
    omega
  | stack =>
    simp only [base, size, segmentSize, stackTop] at *
    omega

theorem stackSize_overwrite (m : Memory) (r : Region) (o : Nat) (bytes : List UInt8) :
    (m.overwrite r o bytes).stackSize = m.stackSize := by
  cases r <;> rfl

theorem stackSize_write {m' : Memory} {width : Width} {value : UInt64}
    (h : m.write width a value = .ok m') : m'.stackSize = m.stackSize := by
  obtain ⟨r, o, -, rfl⟩ := (m.store_eq_ok_iff m' a _).mp h
  exact m.stackSize_overwrite r o _

end Memory

theorem Executed.Follows.stackSize {done : Executed} {m : Machine} (h : done.Follows m) :
    done.machine.memory.stackSize = m.memory.stackSize := by
  obtain hm | ⟨width, addr, value, hw⟩ := h.memory
  · rw [hm]
  · exact Memory.stackSize_write hw

namespace Emulator

/-- The least multiple of four from a size on, or all that a stack may have. -/
def Config.wholeWords (size : Nat) : Nat :=
  min ((size + 3) / 4 * 4) segmentSize

theorem Config.wholeWords_mono {a b : Nat} (h : a ≤ b) : wholeWords a ≤ wholeWords b := by
  have hdiv : (a + 3) / 4 ≤ (b + 3) / 4 := Nat.div_le_div_right (by omega)
  exact min_le_min_right _ (Nat.mul_le_mul_right 4 hdiv)

/-- The sum with three wraps for sizes past the greatest multiple of four. -/
theorem Config.stackSize_withStackSize (c : Config) (size : UInt64) :
    (c.withStackSize size).stackSize =
      if size.toNat ≤ 2 ^ 64 - 4 then wholeWords size.toNat else 0 := by
  have hsize := size.toNat_lt
  have hround : ((size + 3) >>> 2 <<< 2).toNat = (size.toNat + 3) % 2 ^ 64 / 4 * 4 := by
    have hsum : (size + 3).toNat = (size.toNat + 3) % 2 ^ 64 := UInt64.toNat_add size 3
    rw [UInt64.toNat_shiftLeft, UInt64.toNat_shiftRight, hsum]
    simp only [Nat.shiftLeft_eq, Nat.shiftRight_eq_div_pow]
    have hamount : (2 : UInt64).toNat % 64 = 2 := rfl
    rw [hamount]
    omega
  unfold Config.withStackSize wholeWords
  dsimp only
  rw [hround]
  split_ifs
  · rw [Nat.mod_eq_of_lt (by omega)]
  · have hwrap : (size.toNat + 3) % 2 ^ 64 / 4 = 0 := by omega
    rw [hwrap]
    rfl

/-- True if all stacks are of one size: that of the machine, and those of the states to go back to. -/
structure HasStacks (e : Emulator) (size : Nat) : Prop where
  machine : e.machine.memory.stackSize = size
  initial : e.initial.memory.get.stackSize = size
  history : ∀ s ∈ e.history.entries, s.memory.get.stackSize = size

theorem hasStacks_load (memory : Memory) (entry : UInt64) (config : Config) :
    (load memory entry config).HasStacks (min config.stackSize segmentSize) := by
  have hsize : (load memory entry config).machine.memory.stackSize =
      min config.stackSize segmentSize := by
    have hmemory : (load memory entry config).machine.memory =
        memory.withStack config.stackSize := by
      unfold load Machine.enter
      cases config.initStackPointer <;> rfl
    rw [hmemory, Memory.stackSize_withStack]
  exact ⟨hsize, hsize, List.forall_mem_nil _⟩

theorem kept_hasStacks (size : Nat) : Kept fun e => e.Zeroed ∧ e.HasStacks size where
  advance {e e' more} h ht := by
    refine ⟨kept_zeroed.advance h.1 ht, ?_⟩
    obtain ⟨-, -, rfl⟩ | ⟨done, -, hs, -, rfl⟩ := advanced_of_tryStep h.1.machine ht
    · exact h.2
    · refine ⟨(Machine.follows_of_step hs).stackSize.trans h.2.machine, h.2.initial, fun s hmem => ?_⟩
      rcases History.eq_or_mem_of_mem_push hmem with rfl | hmem
      · exact h.2.machine
      · exact h.2.history s hmem
  fault h ht := by
    rw [eq_of_fault h.1.machine ht]
    exact h
  pause h := ⟨kept_zeroed.pause h.1, h.2.machine, h.2.initial, h.2.history⟩
  stepBack {e e'} h hb := by
    refine ⟨kept_zeroed.stepBack h.1 hb, ?_⟩
    obtain ⟨⟨s, history⟩, hp, rfl⟩ := Option.map_eq_some_iff.mp hb
    have hs : ∀ t ∈ s :: history.entries, t.memory.get.stackSize = size :=
      History.entries_of_pop? hp ▸ h.2.history
    exact ⟨hs s List.mem_cons_self, h.2.initial, fun t ht => hs t (List.mem_cons_of_mem s ht)⟩
  reset h := ⟨kept_zeroed.reset h.1, h.2.initial, h.2.initial, List.forall_mem_nil _⟩
  breakpoints h _ := ⟨kept_zeroed.breakpoints h.1 _, h.2.machine, h.2.initial, h.2.history⟩
  console h _ := ⟨kept_zeroed.console h.1 _, h.2.machine, h.2.initial, h.2.history⟩

/-- A program that is loaded with a stack of a size has one of this size, rounded up and limited, whatever is done with
it: its bytes can be read and written, the byte below it and the one at its top cannot, and it is no smaller than the
stack for a smaller size. The three sizes past the greatest multiple of four are the exception, for they ask for no stack
at all. -/
theorem stack_of_requested_size (memory : Memory) (entry : UInt64) (config : Config) (size : UInt64)
    (ops : List Operation) :
    let m := ((load memory entry (config.withStackSize size)).performAll ops).2.machine.memory
    m.stackSize = (if size.toNat ≤ 2 ^ 64 - 4 then Config.wholeWords size.toNat else 0) ∧
    (∀ a : UInt64, stackTop - m.stackSize ≤ a.toNat → a.toNat < stackTop → m.Accessible a) ∧
    (∀ a : UInt64, a.toNat = stackTop ∨ a.toNat + 1 + m.stackSize = stackTop → m.Inaccessible a) ∧
    (size.toNat ≤ 2 ^ 64 - 4 → ∀ smaller ≤ size,
      (load memory entry (config.withStackSize smaller)).machine.memory.stackSize ≤ m.stackSize) := by
  intro m
  have hload (size : UInt64) : (load memory entry (config.withStackSize size)).HasStacks
      (if size.toNat ≤ 2 ^ 64 - 4 then Config.wholeWords size.toNat else 0) := by
    have h := hasStacks_load memory entry (config.withStackSize size)
    have hlimit : min (config.withStackSize size).stackSize segmentSize =
        (config.withStackSize size).stackSize := min_eq_left (min_le_right _ _)
    rwa [hlimit, Config.stackSize_withStackSize] at h
  have hsize := (kept_hasStacks _).performAll ⟨zeroed_load .., hload size⟩ ops
  refine ⟨hsize.2.machine, fun a => Memory.accessible_stack, fun a => Memory.inaccessible_beside_stack,
    fun hs smaller hle => ?_⟩
  have hle' : smaller.toNat ≤ size.toNat := UInt64.le_iff_toNat_le.mp hle
  rw [(hload smaller).machine, hsize.2.machine, if_pos hs, if_pos (by omega)]
  exact Config.wholeWords_mono hle'

/-- The greatest multiple of four asks for the greatest stack, and the size after it for none. -/
theorem no_stack_of_greatest_size :
    let m (size : UInt64) := (load .empty 0x400000 (Config.default.withStackSize size)).machine.memory
    (m 0xfffffffffffffffc).stackSize = segmentSize ∧
      (m 0xfffffffffffffffd).stackSize = 0 ∧
      Config.wholeWords (0xfffffffffffffffd : UInt64).toNat = segmentSize ∧
      (m 0xfffffffffffffffd).Inaccessible 0x7fffeffb := by
  refine ⟨rfl, rfl, rfl, rfl, fun value => rfl⟩

end Emulator

end RiscvToolkit
