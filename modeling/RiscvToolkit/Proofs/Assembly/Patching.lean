import RiscvToolkit.Assembly.Scope
import RiscvToolkit.Proofs.Except
import RiscvToolkit.Proofs.Memory.Access

/-! Patches. A relocation with an address for its label is an update of the bytes at its place, so that
patches of separate places may be applied in any order. One that fails leaves the memory as it was. -/
namespace RiscvToolkit.Assembly
open Memory (Apart)

/-! ### In place -/

/-- Work on one memory. What was written before an error stays written. -/
abbrev InPlace := EStateM ErrorKind Memory

namespace InPlace

/-- Looks into the memory; `address` is reported if nothing is found. -/
def access {α : Type} (address : UInt32) (look : Memory → Option α) : InPlace α := do
  match look (← get) with
  | some a => return a
  | none => throw (.segmentOverflow (placeOf address))

def write (width : Width) (address : UInt32) (value : UInt64) : InPlace Unit := do
  let (r, offset) ← access address (·.locate? address.toUInt64 width.size)
  modify (·.overwrite r offset (LittleEndian.encode width.size value))

/-- How work ends that gives a memory or an error, done in place: after an error there is what there was before. -/
def leaves (m : Memory) : Except ErrorKind Memory → EStateM.Result ErrorKind Memory Unit
  | .ok m' => .ok () m'
  | .error e => .error e m

variable {α : Type} (m : Memory)

theorem access_apply (address : UInt32) (look : Memory → Option α) :
    access address look m = match look m with
      | some a => .ok a m
      | none => .error (.segmentOverflow (placeOf address)) m := by
  unfold access
  rw [bind_run]
  change (match look m with | some a => pure a | none => throw _ : InPlace α) m = _
  cases look m <;> rfl

theorem write_apply (width : Width) (address : UInt32) (value : UInt64) :
    write width address value m = leaves m
      ((m.write width address.toUInt64 value).mapError fun _ =>
        .segmentOverflow (placeOf address)) := by
  unfold write Memory.write Memory.store
  rw [bind_run, access_apply, LittleEndian.length_encode]
  cases m.locate? address.toUInt64 width.size <;> rfl

end InPlace

namespace RelocationKind

/-- Puts `target` into the place at `address` of a memory, one access after the other. -/
def patch (kind : RelocationKind) (address target : UInt32) : InPlace Unit :=
  match kind.dataWidth? with
  | some width => InPlace.write width address target.toUInt64
  | none =>
    match kind.bits address target with
    | .ok bits => do
      let word ← InPlace.access address fun m => (m.readWord address.toUInt64).toOption
      InPlace.write .word address (word ||| bits).toUInt64
    | .error e => throw e

/-- A relocation that fails has written nothing. -/
theorem patch_apply (kind : RelocationKind) (m : Memory) (address target : UInt32) :
    kind.patch address target m = InPlace.leaves m (kind.apply m address target) := by
  unfold patch apply
  cases kind.dataWidth? with
  | some width => exact InPlace.write_apply m width address target.toUInt64
  | none =>
    cases kind.bits address target with
    | error e => rfl
    | ok bits =>
      dsimp only
      rw [bind_run, InPlace.access_apply]
      cases m.readWord address.toUInt64 with
      | error e => rfl
      | ok word => exact InPlace.write_apply m .word address (word ||| bits).toUInt64

/-- The number of bytes that a relocation patches. -/
def size (kind : RelocationKind) : Nat :=
  match kind.dataWidth? with
  | some width => width.size
  | none => 4

theorem size_of_ofWord {kind : RelocationKind} (h : kind.dataWidth? = none) : kind.size = 4 := by
  unfold size
  rw [h]

theorem size_pos (kind : RelocationKind) : 0 < kind.size := by
  cases kind <;> decide

/-- What a relocation makes of the bytes at its place. -/
def fill (kind : RelocationKind) (address target : UInt32) (old : List UInt8) :
    Option (List UInt8) :=
  match kind.dataWidth? with
  | some width => some (LittleEndian.encode width.size target.toUInt64)
  | none =>
    (kind.bits address target).toOption.map fun bits =>
      LittleEndian.encode 4 ((LittleEndian.decode old).toUInt32 ||| bits).toUInt64

theorem length_fill {kind : RelocationKind} {address target : UInt32} {old new : List UInt8}
    (h : kind.fill address target old = some new) : new.length = kind.size := by
  unfold fill at h
  unfold size
  cases hw : kind.dataWidth? with
  | some width =>
    rw [hw] at h
    rw [← Option.some.inj h, LittleEndian.length_encode]
  | none =>
    rw [hw] at h
    obtain ⟨bits, -, rfl⟩ := Option.map_eq_some_iff.mp h
    rw [LittleEndian.length_encode]

private theorem toOption_mapError {α ε ε' : Type} (f : ε → ε') (x : Except ε α) :
    (x.mapError f).toOption = x.toOption := by
  cases x <;> rfl

/-- Applying a relocation is an update of the bytes at its place. -/
theorem toOption_apply (kind : RelocationKind) (m : Memory) (address target : UInt32) :
    (kind.apply m address target).toOption =
      m.update address.toUInt64 kind.size (kind.fill address target) := by
  unfold apply size fill
  cases kind.dataWidth? with
  | some width =>
    dsimp only
    rw [toOption_mapError, Memory.write, Memory.toOption_store, LittleEndian.length_encode]
  | none =>
    dsimp only
    cases hl : m.locate? address.toUInt64 4 with
    | none =>
      have hr : m.readWord address.toUInt64 = .error (.read address.toUInt64) := by
        unfold Memory.readWord Memory.read Memory.load Width.size
        rw [hl]
        rfl
      rw [Memory.update_of_not_located hl, hr]
      cases kind.bits address target <;> rfl
    | some place =>
      obtain ⟨r, o⟩ := place
      have hr : m.readWord address.toUInt64 =
          .ok (LittleEndian.decode ((m.segment r).bytes.read o 4)).toUInt32 := by
        unfold Memory.readWord Memory.read Memory.load Width.size
        rw [hl]
        rfl
      have hs (word : UInt32) : m.writeWord address.toUInt64 word =
          .ok (m.overwrite r o (LittleEndian.encode 4 word.toUInt64)) :=
        (m.store_eq_ok_iff _ _ _).mpr
          ⟨r, o, by rw [LittleEndian.length_encode]; exact hl, rfl⟩
      rw [Memory.update_of_locate? hl, hr]
      cases kind.bits address target with
      | error e => rfl
      | ok bits =>
        simp only [ok_bind, Except.mapError, hs]
        rfl

end RelocationKind

namespace Relocation

/-- True of relocations of separate places. -/
def Separate (r s : Relocation) : Prop :=
  Apart r.address.toUInt64 r.kind.size s.address.toUInt64 s.kind.size

theorem Separate.symm {r s : Relocation} (h : r.Separate s) : s.Separate r :=
  Apart.symm h

end Relocation

/-- A relocation with the address of its label. -/
structure Patch where
  relocation : Relocation
  target : UInt32

namespace Patch

def apply (p : Patch) (m : Memory) : Option Memory :=
  (p.relocation.kind.apply m p.relocation.address p.target).toOption

theorem apply_eq_update (p : Patch) (m : Memory) :
    p.apply m = m.update p.relocation.address.toUInt64 p.relocation.kind.size
      (p.relocation.kind.fill p.relocation.address p.target) :=
  p.relocation.kind.toOption_apply m p.relocation.address p.target

theorem apply_comm {p q : Patch} (h : p.relocation.Separate q.relocation) (m : Memory) :
    (p.apply m).bind q.apply = (q.apply m).bind p.apply := by
  simp only [funext p.apply_eq_update, funext q.apply_eq_update]
  exact m.update_comm (fun _ _ => RelocationKind.length_fill)
    (fun _ _ => RelocationKind.length_fill) h

/-- Applies patches one after the other. -/
def applyAll : List Patch → Memory → Option Memory
  | [], m => some m
  | p :: rest, m => (p.apply m).bind (applyAll rest)

theorem applyAll_append (ps qs : List Patch) (m : Memory) :
    applyAll (ps ++ qs) m = (applyAll ps m).bind (applyAll qs) := by
  induction ps generalizing m with
  | nil => rfl
  | cons p rest ih =>
    simp only [List.cons_append, applyAll]
    rw [Option.bind_assoc]
    exact Option.bind_congr fun m' _ => ih m'

/-- Patches of separate places may be applied in any order. -/
theorem applyAll_perm {ps qs : List Patch} (h : ps.Perm qs)
    (hp : ps.Pairwise fun p q => p.relocation.Separate q.relocation) (m : Memory) :
    applyAll ps m = applyAll qs m := by
  induction h generalizing m with
  | nil => rfl
  | cons p _ ih =>
    simp only [applyAll]
    exact Option.bind_congr fun m' _ => ih hp.of_cons m'
  | swap p q rest =>
    have hs : q.relocation.Separate p.relocation := List.rel_of_pairwise_cons hp List.mem_cons_self
    simp only [applyAll]
    rw [← Option.bind_assoc, ← Option.bind_assoc, apply_comm hs]
  | trans h₁ _ ih₁ ih₂ =>
    have hq := (h₁.pairwise_iff fun h => Relocation.Separate.symm h).mp hp
    rw [ih₁ hp, ih₂ hq]

/-- Patches and a write of bytes to a separate place may change places. -/
theorem applyAll_store_comm {ps : List Patch} {addr : UInt64} {bytes : List UInt8}
    (h : ∀ p ∈ ps, Apart p.relocation.address.toUInt64 p.relocation.kind.size addr bytes.length)
    (m : Memory) :
    (applyAll ps m).bind (fun m => (m.store addr bytes).toOption) =
      (m.store addr bytes).toOption.bind (applyAll ps) := by
  induction ps generalizing m with
  | nil => simp [applyAll]
  | cons p rest ih =>
    have hp : (p.apply m).bind (fun m => (m.store addr bytes).toOption) =
        (m.store addr bytes).toOption.bind p.apply := by
      simp only [Memory.toOption_store, funext p.apply_eq_update]
      refine m.update_comm (fun _ _ => RelocationKind.length_fill) ?_ (h p List.mem_cons_self)
      rintro _ _ ⟨⟩
      rfl
    calc ((p.apply m).bind (applyAll rest)).bind (fun m => (m.store addr bytes).toOption)
        = (p.apply m).bind fun m' => (m'.store addr bytes).toOption.bind (applyAll rest) := by
          rw [Option.bind_assoc]
          exact Option.bind_congr fun m' _ =>
            ih (fun q hq => h q (List.mem_cons_of_mem p hq)) m'
      _ = ((m.store addr bytes).toOption.bind p.apply).bind (applyAll rest) := by
          rw [← hp, Option.bind_assoc]
      _ = (m.store addr bytes).toOption.bind (applyAll (p :: rest)) := by
          rw [Option.bind_assoc]
          rfl

/-- What a patch finds at its place and what it leaves there. -/
theorem apply_eq_some_iff (p : Patch) (m m' : Memory) :
    p.apply m = some m' ↔ ∃ old new,
      m.load p.relocation.address.toUInt64 p.relocation.kind.size = .ok old ∧
        p.relocation.kind.fill p.relocation.address p.target old = some new ∧
        m.store p.relocation.address.toUInt64 new = .ok m' := by
  rw [apply_eq_update]
  exact m.update_eq_some_iff m' _ _ _ fun _ _ => RelocationKind.length_fill

theorem load_apply_of_apart {p : Patch} {m m' : Memory} (h : p.apply m = some m') {a : UInt64}
    {count : Nat} (ha : Apart p.relocation.address.toUInt64 p.relocation.kind.size a count) :
    m'.load a count = m.load a count := by
  obtain ⟨old, new, -, hn, hs⟩ := (p.apply_eq_some_iff m m').mp h
  exact Memory.load_store_of_apart hs (by rwa [RelocationKind.length_fill hn])

theorem load_applyAll_of_apart {ps : List Patch} {m m' : Memory} (h : applyAll ps m = some m')
    {a : UInt64} {count : Nat}
    (ha : ∀ p ∈ ps, Apart p.relocation.address.toUInt64 p.relocation.kind.size a count) :
    m'.load a count = m.load a count := by
  induction ps generalizing m with
  | nil => rw [Option.some.inj h]
  | cons p rest ih =>
    obtain ⟨m₁, h₁, h₂⟩ := Option.bind_eq_some_iff.mp h
    rw [ih h₂ fun q hq => ha q (List.mem_cons_of_mem p hq),
      load_apply_of_apart h₁ (ha p List.mem_cons_self)]

/-- Among patches of separate places, each leaves its own bytes. -/
theorem load_applyAll_of_mem {ps : List Patch} {m m' : Memory} (h : applyAll ps m = some m')
    (hp : ps.Pairwise fun p q => p.relocation.Separate q.relocation) {p : Patch} (hm : p ∈ ps) :
    ∃ old new, m.load p.relocation.address.toUInt64 p.relocation.kind.size = .ok old ∧
      p.relocation.kind.fill p.relocation.address p.target old = some new ∧
      m'.load p.relocation.address.toUInt64 p.relocation.kind.size = .ok new := by
  induction ps generalizing m with
  | nil => cases hm
  | cons q rest ih =>
    obtain ⟨m₁, h₁, h₂⟩ := Option.bind_eq_some_iff.mp h
    rw [List.pairwise_cons] at hp
    rcases List.mem_cons.mp hm with rfl | hm
    · obtain ⟨old, new, ho, hn, hs⟩ := (p.apply_eq_some_iff m m₁).mp h₁
      refine ⟨old, new, ho, hn, ?_⟩
      rw [load_applyAll_of_apart h₂ fun r hr => (hp.1 r hr).symm, ← RelocationKind.length_fill hn]
      exact Memory.load_store_self hs
    · obtain ⟨old, new, ho, hn, hs⟩ := ih h₂ hp.2 hm
      rw [load_apply_of_apart h₁ (hp.1 p hm)] at ho
      exact ⟨old, new, ho, hn, hs⟩

end Patch

end RiscvToolkit.Assembly
