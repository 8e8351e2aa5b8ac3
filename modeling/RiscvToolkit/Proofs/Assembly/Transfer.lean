import RiscvToolkit.Proofs.Assembly.Patching
import RiscvToolkit.Proofs.Instruction.Decode
import RiscvToolkit.Proofs.Memory.Access

/-! Transfers of control. The bits that a relocation puts into a branch or a jump are those from which
the offset is read back, for every offset within reach. -/
namespace RiscvToolkit.Assembly
open Memory (Apart)

namespace Transfer

def opcode : Transfer → Opcode
  | branch => .branch
  | jump => .jal

def kind : Transfer → RelocationKind
  | branch => .branch
  | jump => .jump

/-- The number of bits of an offset, the lowest of which is always zero. -/
def width : Transfer → Nat
  | branch => 13
  | jump => 21

/-- The bits of a word that hold the offset. -/
def mask : Transfer → UInt32
  | branch => 0xfe000f80
  | jump => 0xfffff000

/-- The bits of an offset in their places. -/
def spread : Transfer → UInt32 → UInt32
  | branch => Pack.branchOffset
  | jump => Pack.jumpOffset

/-- True of the offsets that a transfer can have. -/
def CanReach : Transfer → Int → Prop
  | branch, offset => offset % 2 = 0 ∧ -4096 ≤ offset ∧ offset ≤ 4094
  | jump, offset => offset % 2 = 0 ∧ -2 ^ 20 ≤ offset ∧ offset ≤ 2 ^ 20 - 2

/-- The fields that tell what is executed, apart from the offset. A jump has a destination only: its
offset takes the places of the others. -/
def SameOperation : Transfer → Fields → Fields → Prop
  | branch, f, g => f.opcode = g.opcode ∧ f.funct3 = g.funct3 ∧ f.rs1 = g.rs1 ∧ f.rs2 = g.rs2
  | jump, f, g => f.opcode = g.opcode ∧ f.rd = g.rd

/-- Bits spread over a cleared word are read back. -/
theorem immediate_or_spread (t : Transfer) {word offset : UInt32} (hw : word &&& t.mask = 0)
    (ho : offset &&& 1 = 0) :
    t.opcode.format.immediate (word ||| t.spread offset) = signed offset t.width := by
  have hb : ∀ i, bit t.mask i = true → bit word i = false := fun i hi => bit_of_and_eq_zero hw hi
  have h0 : bit offset 0 = false := bit_of_and_eq_zero ho rfl
  cases t with
  | branch =>
    simp only [mask] at hb
    apply signed_congr (by omega) (by omega)
    intro i hi
    interval_cases i <;> simp [hb, h0, spread, Pack.branchOffset]
  | jump =>
    simp only [mask] at hb
    apply signed_congr (by omega) (by omega)
    intro i hi
    interval_cases i <;> simp [hb, h0, spread, Pack.jumpOffset]

/-- The offset of a word, spread over what is left without it, gives the word. -/
theorem clear_or_spread_immediate (t : Transfer) (word : UInt32) :
    (word &&& ~~~t.mask) ||| t.spread (t.opcode.format.immediate word).toUInt32 = word := by
  apply ext_bit
  intro i hi
  cases t with
  | branch =>
    unfold opcode Opcode.format Format.immediate mask spread Pack.branchOffset
    interval_cases i <;> simp [bit_signed]
  | jump =>
    unfold opcode Opcode.format Format.immediate mask spread Pack.jumpOffset
    interval_cases i <;> simp [bit_signed]

private theorem or_spread_and_not_mask (t : Transfer) (word offset : UInt32) :
    (word ||| t.spread offset) &&& ~~~t.mask = word &&& ~~~t.mask := by
  apply ext_bit
  intro i hi
  cases t with
  | branch =>
    unfold spread Pack.branchOffset mask
    interval_cases i <;> simp
  | jump =>
    unfold spread Pack.jumpOffset mask
    interval_cases i <;> simp

private theorem field_congr {a b mask : UInt32} (h : a &&& ~~~mask = b &&& ~~~mask)
    (shift bits : UInt32) (hm : (~~~mask >>> shift) &&& bits = bits) :
    (a >>> shift) &&& bits = (b >>> shift) &&& bits := by
  rw [← hm, ← UInt32.and_assoc, ← UInt32.and_assoc, ← UInt32.shiftRight_and,
    ← UInt32.shiftRight_and, h]

private theorem opcodeBits_congr (t : Transfer) {a b : UInt32}
    (h : a &&& ~~~t.mask = b &&& ~~~t.mask) : opcodeBits a = opcodeBits b := by
  have hf : (a >>> 0) &&& (0x7f : UInt32) = (b >>> 0) &&& 0x7f :=
    field_congr h 0 0x7f (by cases t <;> decide)
  rw [UInt32.shiftRight_zero, UInt32.shiftRight_zero] at hf
  unfold opcodeBits
  rw [hf]

/-- Words that differ in the offset alone stand for the same operation. -/
theorem sameOperation_of_and_not_mask (t : Transfer) {a b : UInt32} {f g : Fields}
    (ha : Fields.ofWord a = .ok f) (hb : Fields.ofWord b = .ok g)
    (h : a &&& ~~~t.mask = b &&& ~~~t.mask) : t.SameOperation f g := by
  obtain ⟨ho, ef⟩ := (Fields.ofWord_eq_ok_iff a f).mp ha
  obtain ⟨ho', eg⟩ := (Fields.ofWord_eq_ok_iff b g).mp hb
  have hop : f.opcode = g.opcode := by
    rw [opcodeBits_congr t h, ho'] at ho
    exact (Option.some.inj ho).symm
  have hrd (hm : (~~~t.mask >>> 7) &&& 0x1f = 0x1f) : f.rd = g.rd := by
    rw [ef, eg]
    exact Reg.ofBits_congr (field_congr h 7 0x1f hm)
  cases t with
  | jump => exact ⟨hop, hrd (by decide)⟩
  | branch =>
    refine ⟨hop, ?_, ?_, ?_⟩
    · rw [ef, eg]
      exact congrArg UInt32.toUInt8 (field_congr h 12 7 (by decide))
    · rw [ef, eg]
      exact Reg.ofBits_congr (field_congr h 15 0x1f (by decide))
    · rw [ef, eg]
      exact Reg.ofBits_congr (field_congr h 20 0x1f (by decide))

def distance (address target : UInt32) : Int :=
  target.toNat - address.toNat

instance (t : Transfer) (offset : Int) : Decidable (t.CanReach offset) := by
  cases t <;> exact instDecidableAnd

/-- What a transfer to a target out of reach is reported as. -/
def unreachable (t : Transfer) (offset : Int) : ErrorKind :=
  if offset % 2 = 0 then .targetOutOfRange t offset else .oddTarget

theorem transferOffset_eq (t : Transfer) (address target : UInt32) :
    transferOffset t address target =
      if t.CanReach (distance address target) then .ok (target - address)
      else .error (t.unreachable (distance address target)) := by
  unfold transferOffset unreachable
  cases t with
  | branch =>
    simp only [CanReach, distance, Transfer.reach]
    grind
  | jump =>
    simp only [CanReach, distance, Transfer.reach]
    grind

/-- An offset within reach is read back from its low bits. -/
theorem toInt_signed_sub (t : Transfer) {address target : UInt32}
    (h : t.CanReach (distance address target)) :
    (signed (target - address) t.width).toInt = distance address target := by
  have hs : ((target - address).toNat : Int) = distance address target ∨
      ((target - address).toNat : Int) = distance address target + 2 ^ 32 := by
    have := target.toNat_lt
    have := address.toNat_lt
    have hn := UInt32.toNat_sub target address
    unfold distance
    omega
  rw [toInt_signed _ (by cases t <;> decide) (by cases t <;> decide)]
  cases t with
  | branch =>
    obtain ⟨he, hl, hg⟩ := h
    rw [width, Int.bmod_eq_iff (by decide)]
    omega
  | jump =>
    obtain ⟨he, hl, hg⟩ := h
    rw [width, Int.bmod_eq_iff (by decide)]
    omega

private theorem and_one_eq_zero_iff (a : UInt32) : a &&& 1 = 0 ↔ a.toNat % 2 = 0 := by
  rw [← UInt32.toNat_inj, UInt32.toNat_and]
  exact Iff.of_eq (congrArg (· = 0) (Nat.and_one_is_mod a.toNat))

private theorem sub_and_one (t : Transfer) {address target : UInt32}
    (h : t.CanReach (distance address target)) : (target - address) &&& 1 = 0 := by
  have he : distance address target % 2 = 0 := by cases t <;> exact h.1
  have hn := UInt32.toNat_sub target address
  have := address.toNat_lt
  unfold distance at he
  rw [and_one_eq_zero_iff]
  omega

theorem canReach_immediate (t : Transfer) (word : UInt32) :
    t.CanReach (t.opcode.format.immediate word).toInt := by
  have hx : ∃ x : UInt32, t.opcode.format.immediate word = signed x t.width ∧ x &&& 1 = 0 := by
    cases t with
    | branch =>
      refine ⟨_, rfl, ?_⟩
      apply ext_bit
      intro i hi
      interval_cases i <;> simp
    | jump =>
      refine ⟨_, rfl, ?_⟩
      apply ext_bit
      intro i hi
      interval_cases i <;> simp
  obtain ⟨x, he, h0⟩ := hx
  rw [and_one_eq_zero_iff] at h0
  rw [he, toInt_signed x (by cases t <;> decide) (by cases t <;> decide)]
  cases t with
  | branch =>
    simp only [CanReach, width, Int.bmod_def]
    omega
  | jump =>
    simp only [CanReach, width, Int.bmod_def]
    omega

private theorem sub_eq_of_toNat_eq {address target : UInt32} {offset : Int32}
    (h : (target.toNat : Int) = address.toNat + offset.toInt) :
    target - address = offset.toUInt32 := by
  have hc : offset.toInt =
      if 2 * offset.toUInt32.toNat < 2 ^ 32 then (offset.toUInt32.toNat : Int)
      else offset.toUInt32.toNat - 2 ^ 32 := BitVec.toInt_eq_toNat_cond offset.toBitVec
  have hn := UInt32.toNat_sub target address
  have := target.toNat_lt
  have := address.toNat_lt
  have := offset.toUInt32.toNat_lt
  apply UInt32.toNat_inj.mp
  split_ifs at hc <;> omega

theorem dataWidth?_kind (t : Transfer) : t.kind.dataWidth? = none := by
  cases t <;> rfl

theorem bits_kind (t : Transfer) (address target : UInt32) :
    t.kind.bits address target = (transferOffset t address target).map t.spread := by
  cases t <;> rfl

/-- What the relocation of a transfer does to the word that stands at its address. -/
theorem apply_kind (t : Transfer) {m : Memory} {address word : UInt32} (target : UInt32)
    (hw : m.readWord address.toUInt64 = .ok word) :
    ∃ m', m.writeWord address.toUInt64 (word ||| t.spread (target - address)) = .ok m' ∧
      t.kind.apply m address target =
        if t.CanReach (distance address target) then .ok m'
        else .error (t.unreachable (distance address target)) := by
  obtain ⟨m', hm⟩ := Memory.exists_writeWord hw (word ||| t.spread (target - address))
  refine ⟨m', hm, ?_⟩
  unfold RelocationKind.apply
  rw [t.dataWidth?_kind, t.bits_kind, transferOffset_eq, hw]
  split_ifs with h
  · simp [Except.map, Except.mapError, bind, Except.bind, hm]
  · rfl

private theorem ofWord_or_spread (t : Transfer) {word : UInt32} (offset : UInt32) {f : Fields}
    (hf : Fields.ofWord word = .ok f) (ht : f.opcode = t.opcode) :
    ∃ g, Fields.ofWord (word ||| t.spread offset) = .ok g ∧
      g.imm = t.opcode.format.immediate (word ||| t.spread offset) ∧
      g.word = word ||| t.spread offset ∧ f.word = word := by
  obtain ⟨ho, ef⟩ := (Fields.ofWord_eq_ok_iff word f).mp hf
  rw [← opcodeBits_congr t (or_spread_and_not_mask t word offset), ht] at ho
  exact ⟨{ word := word ||| t.spread offset, opcode := t.opcode, .. },
    (Fields.ofWord_eq_ok_iff _ _).mpr ⟨ho, rfl⟩, rfl, rfl, by rw [ef]⟩

/-- The word `g` is the word `f` with another offset. -/
structure Retargeted (t : Transfer) (f g : Fields) (offset : Int) : Prop where
  imm : g.imm.toInt = offset
  operation : t.SameOperation f g
  outside : g.word &&& ~~~t.mask = f.word &&& ~~~t.mask

/-- A cleared word with the distance to a target spread over it goes to the target. -/
theorem retargeted_or_spread (t : Transfer) {word address target : UInt32} {f : Fields}
    (hf : Fields.ofWord word = .ok f) (ht : f.opcode = t.opcode) (hz : word &&& t.mask = 0)
    (hr : t.CanReach (distance address target)) :
    ∃ g, Fields.ofWord (word ||| t.spread (target - address)) = .ok g ∧
      t.Retargeted f g (distance address target) := by
  obtain ⟨g, hg, hi, hgw, hfw⟩ := ofWord_or_spread t (target - address) hf ht
  have ho := or_spread_and_not_mask t word (target - address)
  have himm : g.imm.toInt = distance address target := by
    rw [hi, immediate_or_spread t hz (sub_and_one t hr), toInt_signed_sub t hr]
  have hout : g.word &&& ~~~t.mask = f.word &&& ~~~t.mask := by
    rw [hgw, hfw, ho]
  exact ⟨g, hg, himm, sameOperation_of_and_not_mask t hf hg ho.symm, hout⟩

/-- A transfer without an offset is given the distance to its target if that is within reach, and
nothing else changes. If it is not, nothing changes at all. A transfer whose offset is cleared gets it back from its
target. -/
theorem relocation_exact (t : Transfer) (m : Memory) (address target : UInt32) :
    (∀ word f, m.readWord address.toUInt64 = .ok word → Fields.ofWord word = .ok f →
      f.opcode = t.opcode → word &&& t.mask = 0 →
        ((∃ m', t.kind.apply m address target = .ok m') ↔ t.CanReach (distance address target)) ∧
        (∀ e, t.kind.apply m address target = .error e →
          e = t.unreachable (distance address target) ∧
            t.kind.patch address target m = .error e m) ∧
        ∀ m', t.kind.apply m address target = .ok m' →
          t.kind.patch address target m = .ok () m' ∧
          (∃ word' g, m'.readWord address.toUInt64 = .ok word' ∧ Fields.ofWord word' = .ok g ∧
            t.Retargeted f g (distance address target)) ∧
          ∀ x, Apart address.toUInt64 4 x 1 → m'.byte? x = m.byte? x) ∧
    ∀ word f, Fields.ofWord word = .ok f → f.opcode = t.opcode →
      m.readWord address.toUInt64 = .ok (word &&& ~~~t.mask) →
      (target.toNat : Int) = address.toNat + f.imm.toInt →
        ∃ m', t.kind.apply m address target = .ok m' ∧ m'.readWord address.toUInt64 = .ok word := by
  constructor
  · intro word f hw hf ht hz
    obtain ⟨m', hm, ha⟩ := t.apply_kind target hw
    have hp := t.kind.patch_apply m address target
    rw [ha] at hp ⊢
    by_cases hr : t.CanReach (distance address target)
    · rw [if_pos hr] at hp ⊢
      refine ⟨⟨fun _ => hr, fun _ => ⟨m', rfl⟩⟩, fun e he => (nomatch he), ?_⟩
      rintro _ ⟨⟩
      obtain ⟨g, hg, hgo⟩ := t.retargeted_or_spread hf ht hz hr
      exact ⟨hp, ⟨_, g, Memory.readWord_writeWord hm, hg, hgo⟩, fun x hx =>
        Memory.byte?_writeWord_of_apart hm hx⟩
    · rw [if_neg hr] at hp ⊢
      refine ⟨⟨fun ⟨_, h⟩ => (nomatch h), fun h => absurd h hr⟩, ?_, fun _ h => (nomatch h)⟩
      rintro _ ⟨⟩
      exact ⟨rfl, hp⟩
  · intro word f hf ht hw hi
    obtain ⟨-, ef⟩ := (Fields.ofWord_eq_ok_iff word f).mp hf
    have him : f.imm = t.opcode.format.immediate word := by rw [ef, ← ht]
    have hd : distance address target = f.imm.toInt := by
      unfold distance
      omega
    have hs : target - address = f.imm.toUInt32 := sub_eq_of_toNat_eq hi
    obtain ⟨m', hm, ha⟩ := t.apply_kind target hw
    rw [hs, him, clear_or_spread_immediate] at hm
    rw [ha, if_pos (by rw [hd, him]; exact t.canReach_immediate word)]
    exact ⟨m', rfl, Memory.readWord_writeWord hm⟩

/-- A memory that begins with `beq zero, zero` without its offset. -/
def branchMemory : Memory :=
  Memory.empty.overwrite .text 0 (LittleEndian.encode 4 0x63)

/-- A branch over one word, and one to an odd address, which is refused. -/
theorem relocation_exact_beq :
    (∃ m', Transfer.branch.kind.apply branchMemory 0x400000 0x400008 = .ok m') ∧
      (∃ m', Transfer.branch.kind.apply branchMemory 0x400000 0x400008 = .ok m' ∧
        m'.readWord (0x400000 : UInt32).toUInt64 = .ok 0x463) ∧
      Transfer.branch.kind.patch 0x400000 0x400009 branchMemory =
        .error .oddTarget branchMemory := by
  obtain ⟨h, h'⟩ := relocation_exact .branch branchMemory 0x400000 0x400008
  obtain ⟨hodd, -⟩ := relocation_exact .branch branchMemory 0x400000 0x400009
  refine ⟨?_, ?_, ?_⟩
  · exact (h 0x63 _ rfl rfl rfl rfl).1.mpr (by decide)
  · exact h' 0x463 _ rfl rfl rfl (by decide)
  · exact ((hodd 0x63 _ rfl rfl rfl rfl).2.1 .oddTarget rfl).2

end Transfer

end RiscvToolkit.Assembly
