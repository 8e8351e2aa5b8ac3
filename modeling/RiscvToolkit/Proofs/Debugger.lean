import RiscvToolkit.Debugger.Session
import RiscvToolkit.Proofs.Checked.Basic
import RiscvToolkit.Proofs.Emulator.Operation

/-! The addresses that the debugger shows words and bytes for. A counter of 64 bits steps from one to the next, and goes
on at zero behind the last address. The list of words begins five words before the program counter, or at zero, and then
the program counter need not be among its addresses. -/
namespace RiscvToolkit.Debugger
open Terminal (Piece coloured head?_coloured)

/-- What comes of a step of a counter to a number. -/
abbrev Advance := Nat → Except Defect Nat

/-- A counter that must not leave its 64 bits. -/
def Advance.checked : Advance := Checked.unsigned 64

/-- A counter that goes on at zero. -/
def Advance.wrapping : Advance := fun n => .ok (n % 2 ^ 64)

section
variable (stride : Nat) (item : Nat → UInt64 → String)

/-- A loop that shows items, each with its number and for the address that a counter has come to. The counter steps
behind the last item too. -/
def walk (advance : Advance) : Nat → Nat → Nat → Except Defect (List String)
  | 0, _, _ => .ok []
  | left + 1, k, address => do
    let next ← advance (address + stride)
    return item k (UInt64.ofNat address) :: (← walk advance left (k + 1) next)

/-- Items at addresses of equal distance. -/
def itemsFrom (count k address : Nat) : List String :=
  (List.range count).map fun i => item (k + i) (UInt64.ofNat (address + stride * i))

theorem itemsFrom_succ (count k address : Nat) :
    itemsFrom stride item (count + 1) k address =
      item k (UInt64.ofNat address) :: itemsFrom stride item count (k + 1) (address + stride) := by
  unfold itemsFrom
  rw [List.range_succ_eq_map, List.map_cons, List.map_map, Nat.mul_zero, Nat.add_zero, Nat.add_zero]
  refine congrArg (List.cons _) (List.map_congr_left fun i _ => ?_)
  have haddress : address + stride * (i + 1) = address + stride + stride * i := by
    rw [Nat.mul_succ, Nat.add_assoc, Nat.add_comm stride]
  have hnumber : k + (i + 1) = k + 1 + i := by omega
  exact hnumber ▸ haddress ▸ rfl

theorem itemsFrom_add (n count k address : Nat) :
    itemsFrom stride item (n + count) k address =
      itemsFrom stride item n k address ++
        itemsFrom stride item count (k + n) (address + stride * n) := by
  unfold itemsFrom
  rw [List.range_add, List.map_append, List.map_map]
  refine congrArg (_ ++ ·) (List.map_congr_left fun i _ => ?_)
  rw [Function.comp_apply, Nat.mul_add, Nat.add_assoc, Nat.add_assoc]

theorem itemsFrom_mod (count k address : Nat) :
    itemsFrom stride item count k (address % 2 ^ 64) = itemsFrom stride item count k address := by
  refine List.map_congr_left fun i _ => congrArg (item (k + i)) (UInt64.toNat_inj.mp ?_)
  rw [UInt64.toNat_ofNat', UInt64.toNat_ofNat', Nat.mod_add_mod]

theorem walk_wrapping (count k address : Nat) :
    walk stride item .wrapping count k address = .ok (itemsFrom stride item count k address) := by
  induction count generalizing k address with
  | zero => rfl
  | succ count ih =>
    have hstep : Advance.wrapping (address + stride) = .ok ((address + stride) % 2 ^ 64) := rfl
    rw [walk, hstep, ok_bind, ih, ok_bind, itemsFrom_mod, itemsFrom_succ]
    rfl

/-- A counter that must not leave its bits shows the same, just if it does not leave them. -/
theorem walk_checked (count k address : Nat) :
    walk stride item .checked count k address =
      if count = 0 ∨ address + stride * count < 2 ^ 64 then .ok (itemsFrom stride item count k address)
      else .error .overflow := by
  induction count generalizing k address with
  | zero => rfl
  | succ count ih =>
    have hend : address + stride * (count + 1) = address + stride + stride * count := by
      rw [Nat.mul_succ, Nat.add_assoc, Nat.add_comm stride]
    rw [walk, hend, itemsFrom_succ]
    by_cases hstep : address + stride < 2 ^ 64
    · have hnext : Advance.checked (address + stride) = .ok (address + stride) :=
        Checked.unsigned_of_lt hstep
      rw [hnext, ok_bind, ih]
      by_cases hrest : address + stride + stride * count < 2 ^ 64
      · rw [if_pos (.inr hrest), if_pos (.inr hrest)]
        rfl
      · have hne : count ≠ 0 := by
          rintro rfl
          exact hrest hstep
        rw [if_neg (not_or.mpr ⟨hne, hrest⟩), if_neg (not_or.mpr ⟨Nat.succ_ne_zero count, hrest⟩)]
        rfl
    · have hnext : Advance.checked (address + stride) = .error .overflow := if_neg hstep
      rw [hnext, if_neg (by omega)]
      rfl

/-- True of what a loop shows that counts in 64 bits: an item each for its address, modulo two to the power of 64. With a
counter that must not leave its bits the loop shows the same, or breaks off if the address behind the last item is too
large. -/
structure Loops (count start : Nat) (shown : List String) : Prop where
  wrapping : walk stride item .wrapping count 0 start = .ok shown
  checked : walk stride item .checked count 0 start =
    if count = 0 ∨ start + stride * count < 2 ^ 64 then .ok shown else .error .overflow
  item : ∀ k < count, ∃ address : UInt64, address.toNat = (start + stride * k) % 2 ^ 64 ∧
    shown[k]? = some (item k address)

theorem loops_itemsFrom (count start : Nat) :
    Loops stride item count start (itemsFrom stride item count 0 start) := by
  refine ⟨walk_wrapping .., walk_checked .., fun k hk => ?_⟩
  refine ⟨UInt64.ofNat (start + stride * k), UInt64.toNat_ofNat', ?_⟩
  have hindex : (List.range count)[k]? = some k := by
    rw [List.getElem?_range hk]
  rw [itemsFrom, List.getElem?_map, hindex, Option.map_some, Nat.zero_add]

end

/-! ### Words around the program counter -/

/-- True of a row with the mark of the program counter. -/
def Marked (row : String) : Prop :=
  ∃ rest, row = coloured .cyan ">" ++ " " ++ rest

theorem marked_showListed_iff (e : Emulator) (address : UInt64) :
    Marked (showListed e address) ↔ address = e.machine.pc := by
  unfold showListed
  constructor
  · rintro ⟨rest, h⟩
    by_contra hne
    rw [if_neg hne] at h
    have hhead := congrArg (·.toList.head?) h
    simp [String.toList_append, head?_coloured] at hhead
  · intro h
    rw [if_pos h]
    simp only [String.append_assoc]
    exact ⟨_, rfl⟩

theorem showList_eq (e : Emulator) :
    showList e = itemsFrom 4 (fun _ => showListed e) 10 0 (e.machine.pc.toNat - 20) := by
  refine List.map_congr_left fun i _ => congrArg (showListed e) ?_
  rw [← UInt64.ofNat_add]
  rfl

/-- The program counter has a row unless the list begins at zero and passes it by. -/
theorem exists_row_iff (pc : UInt64) :
    (∃ k < 10, UInt64.ofNat (pc.toNat - 20 + 4 * k) = pc) ↔ 20 ≤ pc.toNat ∨ 4 ∣ pc.toNat := by
  have hlt := pc.toNat_lt
  have hrow (k : Nat) : UInt64.ofNat (pc.toNat - 20 + 4 * k) = pc ↔
      (pc.toNat - 20 + 4 * k) % 2 ^ 64 = pc.toNat := by
    rw [← UInt64.toNat_inj, UInt64.toNat_ofNat']
  simp only [hrow]
  constructor
  · rintro ⟨k, hk, h⟩
    omega
  · intro h
    by_cases hpc : 20 ≤ pc.toNat
    · exact ⟨5, by omega, by omega⟩
    · exact ⟨pc.toNat / 4, by omega, by omega⟩

/-! ### Bytes -/

/-- The byte at an address. -/
def showByte (m : Memory) (address : UInt64) : String :=
  match m.byte? address with
  | some b => Text.hexPadded 2 b.toNat ++ " "
  | none => "** "

/-- What is printed for a byte: its address too, on a new line, if as many bytes as fill rows were printed before. -/
def showCell (m : Memory) (k : Nat) (address : UInt64) : String :=
  (if k % 16 = 0 then (if k = 0 then "" else "\n") ++ showAddress address ++ ": " else "") ++
    showByte m address

theorem showRow_eq (m : Memory) (address count : Nat) :
    showRow m (UInt64.ofNat address) count = showAddress (UInt64.ofNat address) ++ ": " ++
      String.join (itemsFrom 1 (fun _ => showByte m) count 0 address) := by
  unfold showRow itemsFrom
  refine congrArg (_ ++ String.join ·) (List.map_congr_left fun i _ => ?_)
  rw [Nat.one_mul, UInt64.ofNat_add]
  rfl

/-- The first row, and the rows behind it. -/
theorem showMemory_eq_cons (m : Memory) (address : Nat) {count : Nat} (h : 0 < count) :
    showMemory m (UInt64.ofNat address) count =
      showRow m (UInt64.ofNat address) (min 16 count) ::
        showMemory m (UInt64.ofNat (address + 16)) (count - 16) := by
  have hrows : (count + 15) / 16 = (count - 16 + 15) / 16 + 1 := by omega
  unfold showMemory
  rw [hrows, List.range_succ_eq_map, List.map_cons, List.map_map]
  refine congrArg₂ List.cons ?_ ?_
  · rw [← UInt64.ofNat_add]
    rfl
  · refine List.map_congr_left fun row _ => ?_
    have haddress : address + 16 * (row + 1) = address + 16 + 16 * row := by omega
    have hcount : count - 16 * (row + 1) = count - 16 - 16 * row := by omega
    rw [Function.comp_apply, ← UInt64.ofNat_add, ← UInt64.ofNat_add, haddress, hcount]

/-- The bytes of one row. -/
theorem join_showCell (m : Memory) {k n : Nat} (hk : k % 16 = 0) (h0 : 0 < n) (hn : n ≤ 16)
    (address : Nat) :
    String.join (itemsFrom 1 (showCell m) n k address) =
      (if k = 0 then "" else "\n") ++ showRow m (UInt64.ofNat address) n := by
  obtain ⟨n, rfl⟩ := Nat.exists_eq_succ_of_ne_zero (Nat.ne_of_gt h0)
  have htail : itemsFrom 1 (showCell m) n (k + 1) (address + 1) =
      itemsFrom 1 (fun _ => showByte m) n 1 (address + 1) := by
    refine List.map_congr_left fun i hi => ?_
    have hi := List.mem_range.mp hi
    unfold showCell
    rw [if_neg (by omega), String.empty_append]
  rw [showRow_eq, itemsFrom_succ, itemsFrom_succ, htail, showCell, if_pos hk]
  simp only [String.join_cons, String.append_assoc]

/-- Rows are the text that comes of showing byte after byte, a new line behind the last. -/
theorem join_showMemory (m : Memory) {k : Nat} (hk : k % 16 = 0) (count address : Nat) :
    String.join (itemsFrom 1 (showCell m) count k address) ++
        (if k = 0 ∧ count = 0 then "" else "\n") =
      (if k = 0 then "" else "\n") ++
        String.join ((showMemory m (UInt64.ofNat address) count).map (· ++ "\n")) := by
  induction count using Nat.strongRecOn generalizing k address with
  | ind count ih =>
    rcases Nat.eq_zero_or_pos count with rfl | hpos
    · simp [itemsFrom, showMemory]
    · have hcells : itemsFrom 1 (showCell m) count k address =
          itemsFrom 1 (showCell m) (min 16 count) k address ++
            itemsFrom 1 (showCell m) (count - 16) (k + min 16 count) (address + min 16 count) := by
        have hsplit : count = min 16 count + (count - 16) := by omega
        conv_lhs => rw [hsplit]
        rw [itemsFrom_add, Nat.one_mul]
      have hrest : String.join (itemsFrom 1 (showCell m) (count - 16) (k + min 16 count)
            (address + min 16 count)) ++ "\n" =
          "\n" ++ String.join
            ((showMemory m (UInt64.ofNat (address + 16)) (count - 16)).map (· ++ "\n")) := by
        by_cases hfull : 16 ≤ count
        · rw [min_eq_left hfull]
          simpa using ih (count - 16) (by omega) (k := k + 16) (by omega) (address + 16)
        · have hnone : count - 16 = 0 := by omega
          rw [hnone]
          rfl
      have hrow := join_showCell m hk (n := min 16 count) (by omega) (by omega) address
      rw [if_neg (fun h => absurd h.2 (Nat.ne_of_gt hpos)), hcells, String.join_append, hrow,
        String.append_assoc, hrest, showMemory_eq_cons m address hpos, List.map_cons,
        String.join_cons]
      simp only [String.append_assoc]

/-! ### Commands -/

/-- The list of words and a view of memory, printed or displayed at a stop, show what a loop shows that counts in 64 bits:
words four apart, from five words before the program counter on or from zero, and bytes one apart. A word is marked just
if it is at the program counter, and one of them is unless the list begins at zero and passes it by. -/
theorem shown_addresses (s : Session) (bursts : Nat) (address : UInt64) (count : Nat) :
    let e := s.emulator
    let pc := e.machine.pc
    (∃ rows : List String, (s.perform bursts .list).pieces = rows.map Piece.line ∧
      Loops 4 (fun _ => showListed e) 10 (pc.toNat - 20) rows ∧
      (∀ address, Marked (showListed e address) ↔ address = pc) ∧
      ((∃ row ∈ rows, Marked row) ↔ 20 ≤ pc.toNat ∨ 4 ∣ pc.toNat)) ∧
    ∃ rows bytes : List String,
      (s.perform bursts (.print (.mem address count))).pieces = rows.map Piece.line ∧
      (showViews e [.mem address count]).toPieces = rows.map Piece.line ∧
      String.join (rows.map (· ++ "\n")) = String.join bytes ++ (if count = 0 then "" else "\n") ∧
      Loops 1 (showCell e.machine.memory) count address.toNat bytes := by
  intro e pc
  constructor
  · refine ⟨showList e, rfl, ?_, marked_showListed_iff e, ?_⟩
    · rw [showList_eq]
      exact loops_itemsFrom ..
    · rw [showList_eq, ← exists_row_iff]
      simp [itemsFrom, marked_showListed_iff, pc]
  · refine ⟨showMemory e.machine.memory address count, _, rfl, ?_, ?_, loops_itemsFrom ..⟩
    · simp [showViews, showView, Report.andThen, Report.toPieces, Report.lines]
    · have h := join_showMemory e.machine.memory (k := 0) rfl count address.toNat
      rw [UInt64.ofNat_toNat] at h
      simpa using h.symm

/-- A program that has made its first step: the word is its only instruction, in memory order. -/
def stepped (word : List UInt8) : Emulator :=
  ((Emulator.load (Memory.empty.overwrite .text 0 word) 0x400000 .default).perform .step).2

theorem reachable_stepped (word : List UInt8) : (stepped word).Reachable :=
  .perform (.load _ _ _) .step

/-- After a jump to the last word of the address space, the list goes on with the first; and after one to address 5, no
word of the list is marked. -/
theorem list_passes_by :
    (∃ e : Emulator, e.Reachable ∧ e.machine.pc = 0xfffffffffffffffc ∧
      (showList e)[6]? = some (showListed e 0) ∧
      walk 4 (fun _ => showListed e) .checked 10 0 (e.machine.pc.toNat - 20) = .error .overflow) ∧
    ∃ e : Emulator, e.Reachable ∧ e.machine.pc = 5 ∧ ∀ row ∈ showList e, ¬Marked row := by
  constructor
  · have hpc : (stepped [0x67, 0x00, 0xc0, 0xff]).machine.pc = 0xfffffffffffffffc := rfl
    refine ⟨_, reachable_stepped [0x67, 0x00, 0xc0, 0xff], hpc, ?_, ?_⟩
    · rw [showList_eq, hpc]
      rfl
    · rw [walk_checked, hpc]
      rfl
  · have hpc : (stepped [0x67, 0x00, 0x50, 0x00]).machine.pc = 5 := rfl
    refine ⟨_, reachable_stepped [0x67, 0x00, 0x50, 0x00], hpc, fun row hrow hmarked => ?_⟩
    have hrow' : ∃ k < 10, UInt64.ofNat ((5 : UInt64).toNat - 20 + 4 * k) = 5 := by
      rw [showList_eq, hpc] at hrow
      obtain ⟨k, hk, rfl⟩ := List.mem_map.mp hrow
      exact ⟨k, List.mem_range.mp hk, ((marked_showListed_iff _ _).mp hmarked).trans hpc⟩
    exact absurd ((exists_row_iff 5).mp hrow') (by decide)

end RiscvToolkit.Debugger
