import RiscvToolkit.Proofs.Assembly.Resolution
import RiscvToolkit.Proofs.Machine.Pair

/-! Sites of code. The words of a line keep their places while the rest is laid out, and each that waits for a
label is completed with the address that the scopes around it give. Lines that address a label by two words
therefore reach it exactly. -/
namespace RiscvToolkit.Assembly
open Image (Extension)
open Source (Operands)

/-- The words of a line where they stand, and the scopes around them. -/
structure Site where
  address : UInt32
  words : List Emission
  scopes : List Scope

/-- The sites of a block and its expansions. -/
def Outline.sites (scopes : List Scope) : Outline → List Site
  | done => []
  | label _ _ rest | globals _ _ rest | piece _ _ (.datum _) rest => rest.sites scopes
  | piece address _ (.code words) rest => ⟨address, words, scopes⟩ :: rest.sites scopes
  | expansion body rest => body.sites (body.labels.scope :: scopes) ++ rest.sites scopes

def sitesOf (os : List Outline) : List Site :=
  os.flatMap fun o => o.sites [o.labels.scope, exported os]

/-- True if words lie in the taken part of an image, one behind the other. -/
def Stands (i : Image) : UInt32 → List Emission → Prop
  | _, [] => True
  | address, e :: rest =>
    i.Inside address 4 ∧ i.memory.readWord address.toUInt64 = .ok e.word ∧
      Stands i (address + 4) rest

theorem Stands.mono {i j : Image} {rs : List Relocation} (h : Extension i j rs)
    {address : UInt32} {words : List Emission} (hs : Stands i address words) :
    Stands j address words := by
  induction words generalizing address with
  | nil => trivial
  | cons e rest ih =>
    obtain ⟨hi, hw, hr⟩ := hs
    refine ⟨hi.mono h.grows, ?_, ih hr⟩
    rw [Memory.readWord_eq_ok_iff] at hw ⊢
    rw [h.keeps address 4 hi]
    exact hw

private theorem inside_putWord {place : Place} {word : UInt32} {i j : Image}
    (h : i.putWord place word = .ok j) :
    j.Inside (i.cursor place) 4 ∧ j.memory.readWord (i.cursor place).toUInt64 = .ok word := by
  obtain ⟨-, hst, hu⟩ := (i.put_eq_ok_iff j place _).mp h
  rw [LittleEndian.length_encode] at hu
  refine ⟨⟨place, ?_, ?_⟩, Memory.readWord_writeWord hst⟩
  · rw [Image.toNat_cursor]
    omega
  · rw [Image.toNat_cursor, hu place, if_pos rfl]
    omega

theorem stands_putWords {place : Place} {words : List Emission} {i i' : Image}
    (h : Image.putWords place words i = .ok i') : Stands i' (i.cursor place) words := by
  induction words generalizing i with
  | nil => trivial
  | cons e rest ih =>
    unfold Image.putWords at h
    obtain ⟨j, hp, h⟩ := bind_eq_ok_iff.mp h
    obtain ⟨hi, hw⟩ := inside_putWord hp
    have hx := Piece.extension_put (p := .code rest) ⟨0, ""⟩ h
    have hc : j.cursor place = i.cursor place + 4 := by
      rw [Image.cursor_put hp, LittleEndian.length_encode]
      rfl
    obtain ⟨hi', hw', -⟩ : Stands i' (i.cursor place) [e] :=
      Stands.mono hx ⟨hi, hw, trivial⟩
    exact ⟨hi', hw', hc ▸ ih h⟩

/-- The words of every site still stand when all is laid out. -/
theorem stands_of_mem_sites {x : Script} {i : Image} {l : Layout} (h : x.lay i = some l)
    {scopes : List Scope} {s : Site} (hs : s ∈ l.outline.sites scopes) :
    Stands l.image s.address s.words := by
  induction h using Script.lay_induction generalizing scopes with
  | done mode i => cases hs
  | label place name rest i l _ ih => exact ih hs
  | globals names line rest i l _ ih => exact ih hs
  | piece place location p rest i j l hp hl ih =>
    cases p with
    | datum stored => exact ih hs
    | code words =>
      rcases List.mem_cons.mp hs with rfl | hs
      · exact (stands_putWords hp).mono (Script.extension_lay hl)
      · exact ih hs
  | expansion call body rest i b l hb hl ihb ihr =>
    rcases List.mem_append.mp hs with hs | hs
    · exact (ihb hs).mono (Script.extension_lay hl)
    · exact ihr hs

theorem stands_of_mem_sitesOf {catalog : Catalog} {files : List Source.File} {i j : Image}
    {os : List Outline} (h : Linkage.layAll catalog files i = some (os, j)) {s : Site}
    {scope : Scope} (hs : s ∈ os.flatMap fun o => o.sites [o.labels.scope, scope]) :
    Stands j s.address s.words := by
  induction h using Linkage.layAll_induction with
  | nil i => cases hs
  | cons file files i j y os hy hk ih =>
    rw [List.flatMap_cons] at hs
    rcases List.mem_append.mp hs with hs | hs
    · exact (stands_of_mem_sites hy hs).mono (Linkage.extension_layAll hk)
    · exact ih hs

theorem choices_of_mem_sites {scopes : List Scope} {o : Outline} {s : Site}
    (hs : s ∈ o.sites scopes) :
    ∃ location, ∀ r ∈ linksFrom location s.address s.words,
      (r, choose s.scopes r.label) ∈ o.choices scopes := by
  induction o generalizing scopes with
  | done => cases hs
  | label name address rest ih => exact ih hs
  | globals names line rest ih => exact ih hs
  | piece address location p rest ih =>
    cases p with
    | datum stored =>
      obtain ⟨location, h⟩ := ih hs
      exact ⟨location, fun r hr => List.mem_append_right _ (h r hr)⟩
    | code words =>
      rcases List.mem_cons.mp hs with rfl | hs
      · exact ⟨location, fun r hr => List.mem_append_left _ (List.mem_map_of_mem hr)⟩
      · obtain ⟨location, h⟩ := ih hs
        exact ⟨location, fun r hr => List.mem_append_right _ (h r hr)⟩
  | expansion body rest hb hr =>
    rcases List.mem_append.mp hs with hs | hs
    · obtain ⟨location, h⟩ := hb hs
      exact ⟨location, fun r hr => List.mem_append_left _ (h r hr)⟩
    · obtain ⟨location, h⟩ := hr hs
      exact ⟨location, fun r hr => List.mem_append_right _ (h r hr)⟩

/-- True of scopes whose names stand for addresses of the image. -/
def Scope.Bounded (scope : Scope) : Prop :=
  ∀ name address, scope name = some address → address.toNat ≤ imageEnd

theorem toNat_cursor_le (i : Image) (place : Place) : (i.cursor place).toNat ≤ imageEnd := by
  have hu := i.used_le place
  rw [Image.toNat_cursor]
  unfold imageEnd
  cases place <;> simp only [Place.base, textBase, dataBase] <;> omega

theorem bounded_choose {scopes : List Scope} (h : ∀ scope ∈ scopes, scope.Bounded) :
    Scope.Bounded (choose scopes) := by
  intro name address ha
  obtain ⟨l₁, scope, l₂, rfl, hs, -⟩ := List.findSome?_eq_some_iff.mp ha
  exact h scope (by simp) name address hs

/-- True if every label is bound to an address of the image. -/
def Outline.Bounded : Outline → Prop
  | done => True
  | label _ address rest => address.toNat ≤ imageEnd ∧ rest.Bounded
  | globals _ _ rest | piece _ _ _ rest => rest.Bounded
  | expansion body rest => body.Bounded ∧ rest.Bounded

theorem bounded_lay {x : Script} {i : Image} {l : Layout} (h : x.lay i = some l) :
    l.outline.Bounded := by
  induction h using Script.lay_induction with
  | done mode i => trivial
  | label place name rest i l _ ih => exact ⟨toNat_cursor_le i place, ih⟩
  | globals names line rest i l _ ih => exact ih
  | piece place location p rest i j l _ _ ih => exact ih
  | expansion call body rest i b l _ _ ihb ihr => exact ⟨ihb, ihr⟩

namespace Outline

theorem Bounded.labels {o : Outline} (h : o.Bounded) :
    ∀ e ∈ o.labels, e.2.toNat ≤ imageEnd := by
  induction o with
  | done => exact fun _ he => (nomatch he)
  | label name address rest ih =>
    intro e he
    rcases List.mem_append.mp he with he | he
    · exact ih h.2 e he
    · rw [List.mem_singleton.mp he]
      exact h.1
  | globals names line rest ih => exact ih h
  | piece address location p rest ih => exact ih h
  | expansion body rest _ ih => exact ih h.2

theorem Bounded.scope {o : Outline} (h : o.Bounded) : o.labels.scope.Bounded := by
  intro name address ha
  obtain ⟨l₁, l₂, hl, -⟩ := List.lookup_eq_some_iff.mp ha
  exact h.labels (name, address) (hl ▸ List.mem_append_right _ List.mem_cons_self)

theorem Bounded.exported {o : Outline} (h : o.Bounded) : Scope.Bounded o.exported := by
  intro name address ha
  unfold Outline.exported at ha
  split_ifs at ha
  exact h.scope name address ha

theorem Bounded.sites {o : Outline} (h : o.Bounded) {scopes : List Scope}
    (hs : ∀ scope ∈ scopes, scope.Bounded) {s : Site} (hm : s ∈ o.sites scopes) :
    ∀ scope ∈ s.scopes, scope.Bounded := by
  induction o generalizing scopes with
  | done => cases hm
  | label name address rest ih => exact ih h.2 hs hm
  | globals names line rest ih => exact ih h hs hm
  | piece address location p rest ih =>
    cases p with
    | datum stored => exact ih h hs hm
    | code words =>
      rcases List.mem_cons.mp hm with rfl | hm
      · exact hs
      · exact ih h hs hm
  | expansion body rest hb hr =>
    rcases List.mem_append.mp hm with hm | hm
    · refine hb h.1 (fun scope hsc => ?_) hm
      rcases List.mem_cons.mp hsc with rfl | hsc
      · exact h.1.scope
      · exact hs scope hsc
    · exact hr h.2 hs hm

end Outline

theorem bounded_layAll {catalog : Catalog} {files : List Source.File} {i j : Image}
    {os : List Outline} (h : Linkage.layAll catalog files i = some (os, j)) :
    ∀ o ∈ os, o.Bounded := by
  induction h using Linkage.layAll_induction with
  | nil i => exact fun _ ho => (nomatch ho)
  | cons file files i j y os hy _ ih =>
    rintro o ho
    rcases List.mem_cons.mp ho with rfl | ho
    · exact bounded_lay hy
    · exact ih o ho

theorem bounded_exported {os : List Outline} (h : ∀ o ∈ os, o.Bounded) :
    (exported os).Bounded := by
  refine bounded_choose fun scope hs => ?_
  obtain ⟨o, ho, rfl⟩ := List.mem_map.mp hs
  exact (h o (List.mem_reverse.mp ho)).exported

theorem le_of_inside {i : Image} {address : UInt32} {count : Nat} (h : i.Inside address count) :
    address.toNat + count ≤ imageEnd := by
  obtain ⟨place, -, hu⟩ := h
  have := i.used_le place
  unfold imageEnd
  cases place <;> simp only [Place.base, textBase, dataBase] at hu ⊢ <;> omega

theorem toUInt64_add_four {i : Image} {address : UInt32} (h : i.Inside address 4) :
    (address + 4).toUInt64 = address.toUInt64 + 4 := by
  have hle := le_of_inside h
  unfold imageEnd dataBase segmentSize at hle
  apply UInt64.toNat_inj.mp
  rw [UInt32.toNat_toUInt64, UInt32.toNat_add, UInt64.toNat_add, UInt32.toNat_toUInt64]
  simp only [UInt32.reduceToNat, UInt64.reduceToNat]
  omega

section
variable {catalog : Catalog} {files : List Source.File} {i laid : Image} {os : List Outline}
variable {p : Program} (hlay : Linkage.layAll catalog files i = some (os, laid))
variable (hl : Linked os laid p)
include hlay hl

theorem readWord_of_choice {r : Relocation} {target word : UInt32}
    (hr : (r, some target) ∈ choicesOf os) (hk : r.kind.dataWidth? = none)
    (hw : laid.memory.readWord r.address.toUInt64 = .ok word) :
    ∃ bits, r.kind.bits r.address target = .ok bits ∧
      p.memory.readWord r.address.toUInt64 = .ok (word ||| bits) := by
  obtain ⟨old, new, ho, hf, hn⟩ := hl.patched hlay hr
  obtain ⟨old', ho', rfl⟩ := (Memory.readWord_eq_ok_iff _ _ _).mp hw
  rw [RelocationKind.size_of_ofWord hk] at ho hn
  cases ho.symm.trans ho'
  unfold RelocationKind.fill at hf
  rw [hk] at hf
  obtain ⟨bits, hb, rfl⟩ := Option.map_eq_some_iff.mp hf
  exact ⟨bits, (toOption_eq_some_iff _ _).mp hb, (Memory.readWord_eq_ok_iff _ _ _).mpr
    ⟨_, hn, LittleEndian.decode_encode_word _⟩⟩

/-- The two words of a line that addresses a label by a pair. -/
theorem readWord_of_pair {s : Site} (hs : s ∈ sitesOf os) {first second : UInt32}
    {k₁ k₂ : RelocationKind} {h₁ : k₁.dataWidth? = none} {h₂ : k₂.dataWidth? = none}
    {label : String}
    (hw : s.words = [⟨first, some ⟨k₁, label, h₁⟩⟩, ⟨second, some ⟨k₂, label, h₂⟩⟩]) :
    ∃ target, choose s.scopes label = some target ∧ target.toNat ≤ imageEnd ∧
      s.address.toNat ≤ imageEnd ∧ ∃ bits₁ bits₂,
        k₁.bits s.address target = .ok bits₁ ∧ k₂.bits (s.address + 4) target = .ok bits₂ ∧
        p.memory.readWord s.address.toUInt64 = .ok (first ||| bits₁) ∧
        p.memory.readWord (s.address.toUInt64 + 4) = .ok (second ||| bits₂) := by
  obtain ⟨o, ho, hso⟩ := List.mem_flatMap.mp hs
  have hb := bounded_layAll hlay
  have hbs : ∀ scope ∈ s.scopes, scope.Bounded := by
    refine (hb o ho).sites (fun scope hsc => ?_) hso
    rcases List.mem_cons.mp hsc with rfl | hsc
    · exact (hb o ho).scope
    · rw [List.mem_singleton.mp hsc]
      exact bounded_exported hb
  obtain ⟨location, hc⟩ := choices_of_mem_sites hso
  have hst := stands_of_mem_sitesOf hlay hs
  rw [hw] at hc hst
  have hm (r : Relocation) (hr : r ∈ linksFrom location s.address
      [⟨first, some ⟨k₁, label, h₁⟩⟩, ⟨second, some ⟨k₂, label, h₂⟩⟩]) :
      (r, choose s.scopes r.label) ∈ choicesOf os :=
    List.mem_flatMap.mpr ⟨o, ho, hc r hr⟩
  have hm₁ := hm ⟨s.address, label, k₁, location⟩ (by simp [linksFrom, Emission.relocation?])
  have hm₂ := hm ⟨s.address + 4, label, k₂, location⟩ (by simp [linksFrom, Emission.relocation?])
  obtain ⟨target, ht⟩ := Option.isSome_iff_exists.mp (hl.chosen _ hm₁)
  dsimp only at ht hm₁ hm₂
  rw [ht] at hm₁ hm₂
  obtain ⟨hi₁, hw₁, hi₂, hw₂, -⟩ := hst
  obtain ⟨bits₁, hb₁, hp₁⟩ := readWord_of_choice hlay hl hm₁ h₁ hw₁
  obtain ⟨bits₂, hb₂, hp₂⟩ := readWord_of_choice hlay hl hm₂ h₂ hw₂
  have hle := le_of_inside hi₁
  rw [toUInt64_add_four hi₁] at hp₂
  exact ⟨target, ht, bounded_choose hbs _ _ ht, by omega, bits₁, bits₂, hb₁, hb₂, hp₁, hp₂⟩

end

theorem pairDistance_add (address target : UInt32) :
    pairDistance (address + 4) target = target - address := by
  unfold pairDistance
  rw [sub_add_eq_sub_sub, UInt32.sub_add_cancel]

theorem bits_lowRelative (address target : UInt32) :
    RelocationKind.lowRelative.bits (address + 4) target =
      .ok (((target - address) &&& 0xfff) <<< 20) := by
  rw [← pairDistance_add]
  rfl

theorem bits_lowRelativeStore (address target : UInt32) :
    RelocationKind.lowRelativeStore.bits (address + 4) target =
      .ok ((((target - address) &&& 0xfff) &&& 0x1f) <<< 7 |||
        (((target - address) &&& 0xfff) >>> 5) <<< 25) := by
  rw [← pairDistance_add]
  rfl

def operandsOf : List Source.Operand → Operands
  | [] => .done
  | head :: rest => .next head (operandsOf rest)

/-- The words of `la rd, label`. -/
def laWords (rd : Reg) (label : String) : List Emission :=
  (encode .la (operandsOf [.register ⟨rd, .int⟩, .symbol label])).words

/-- The words of a load `rd, label`. -/
def loadWords (funct3 : UInt8) (rd : Reg) (label : String) : List Emission :=
  (encode (.i Opcode.load.code funct3 (.offset .int))
    (operandsOf [.register ⟨rd, .int⟩, .symbol label])).words

/-- The words of a store `source, label, temp`. -/
def storeWords (funct3 : UInt8) (source temp : Reg) (label : String) : List Emission :=
  (encode (.s Opcode.store.code funct3 .int)
    (operandsOf [.register ⟨source, .int⟩, .symbol label, .register ⟨temp, .int⟩])).words

section
variable {catalog : Catalog} {files : List Source.File} {i laid : Image} {os : List Outline}
variable {p : Program} (hlay : Linkage.layAll catalog files i = some (os, laid))
variable (hl : Linked os laid p) {s : Site} (hs : s ∈ sitesOf os) {m : Machine}
variable (hh : m.halted = false) (hpc : m.pc = s.address.toUInt64)
variable (h₁ : m.memory.readWord m.pc = p.memory.readWord m.pc)
variable (h₂ : m.memory.readWord (m.pc + 4) = p.memory.readWord (m.pc + 4))
variable {label : String}
include hlay hl hs hpc h₁ h₂

/-- The pair of a site, put together in a machine that is about to execute it. -/
theorem upper_of_pair {second : UInt32} {k : RelocationKind} {hk : k.dataWidth? = none}
    {reg : Reg} (hw : s.words = [⟨Pack.upper Opcode.auipc.code reg 0,
      some ⟨.upperRelative, label, rfl⟩⟩, ⟨second, some ⟨k, label, hk⟩⟩]) :
    ∃ target, choose s.scopes label = some target ∧ target.toNat ≤ imageEnd ∧
      s.address.toNat ≤ imageEnd ∧
      m.memory.readWord m.pc =
        .ok (Pack.upper Opcode.auipc.code reg (Pack.roundedUpper (target - s.address))) ∧
      ∃ bits, k.bits (s.address + 4) target = .ok bits ∧
        m.memory.readWord (m.pc + 4) = .ok (second ||| bits) := by
  obtain ⟨target, hc, ht, ha, bits₁, bits₂, hb₁, hb₂, hr₁, hr₂⟩ :=
    readWord_of_pair hlay hl hs hw
  obtain rfl : Pack.roundedUpper (target - s.address) = bits₁ := Except.ok.inj hb₁
  rw [Pack.upper_or, ← hpc, ← h₁] at hr₁
  rw [← hpc, ← h₂] at hr₂
  exact ⟨target, hc, ht, ha, hr₁, bits₂, hb₂, hr₂⟩

include hh

theorem stepTwice_la {rd : Reg} (hrd : rd ≠ 0) (hw : s.words = laWords rd label) :
    ∃ target, choose s.scopes label = some target ∧
      m.stepTwice = .ok (Machine.quiet { m with
        regs := m.regs.set rd target.toUInt64, pc := m.pc + 8 }) ∧
      (m.regs.set rd target.toUInt64).get rd = target.toUInt64 := by
  obtain ⟨target, hc, ht, ha, hr₁, bits, hb, hr₂⟩ := upper_of_pair hlay hl hs hpc h₁ h₂ hw
  rw [bits_lowRelative] at hb
  rw [← Except.ok.inj hb, Pack.immediate_or] at hr₂
  exact ⟨target, hc, Machine.stepTwice_addi hh hpc ha ht hrd hr₁ hr₂,
    (RegisterFile.get_set ..).trans (if_pos ⟨rfl, hrd⟩)⟩

theorem stepTwice_load_label {funct3 : UInt8} {op : Load} (hop : Load.ofFunct? funct3 = some op)
    {rd : Reg} (hrd : rd ≠ 0) (hw : s.words = loadWords funct3 rd label) :
    ∃ target, choose s.scopes label = some target ∧
      m.stepTwice =
        match m.memory.read op.width target.toUInt64 with
        | .ok value => .ok (Machine.quiet { m with
            regs := m.regs.set rd (op.extend value), pc := m.pc + 8 })
        | .error e => .error (.memory e) := by
  obtain ⟨target, hc, ht, ha, hr₁, bits, hb, hr₂⟩ := upper_of_pair hlay hl hs hpc h₁ h₂ hw
  rw [bits_lowRelative] at hb
  rw [← Except.ok.inj hb, Pack.immediate_or] at hr₂
  exact ⟨target, hc, Machine.stepTwice_load hh hpc ha ht hrd hr₁ hop hr₂⟩

theorem stepTwice_store_label {funct3 : UInt8} {op : Store}
    (hop : Store.ofFunct? funct3 = some op) {source temp : Reg} (htemp : temp ≠ 0)
    (hne : temp ≠ source) (hw : s.words = storeWords funct3 source temp label) :
    ∃ target, choose s.scopes label = some target ∧ ∃ base,
      m.stepTwice =
        match m.memory.write op.width target.toUInt64 (m.regs.get source) with
        | .ok memory => .ok (Machine.quiet { m with
            memory, regs := m.regs.set temp base, pc := m.pc + 8 })
        | .error e => .error (.memory e) := by
  obtain ⟨target, hc, ht, ha, hr₁, bits, hb, hr₂⟩ := upper_of_pair hlay hl hs hpc h₁ h₂ hw
  rw [bits_lowRelativeStore] at hb
  rw [← Except.ok.inj hb, Pack.store_or] at hr₂
  exact ⟨target, hc, _, Machine.stepTwice_store hh hpc ha ht htemp hr₁ hop hne hr₂⟩

end

/-- Lines that address a label by two words reach the address that it has, wherever they stand. -/
theorem label_pairs_reach {catalog : Catalog} {stackSize : Nat} {files : List Source.File}
    {p : Program} (hp : assemble catalog stackSize files = .ok p) :
    ∃ os laid, Linkage.layAll catalog files (.empty stackSize) = some (os, laid) ∧
      ∀ s ∈ sitesOf os, ∀ m : Machine, m.halted = false → m.pc = s.address.toUInt64 →
        m.memory.readWord m.pc = p.memory.readWord m.pc →
        m.memory.readWord (m.pc + 4) = p.memory.readWord (m.pc + 4) →
        ∀ label,
          (∀ rd, rd ≠ 0 → s.words = laWords rd label →
            ∃ target, choose s.scopes label = some target ∧
              m.stepTwice = .ok (Machine.quiet { m with
                regs := m.regs.set rd target.toUInt64, pc := m.pc + 8 }) ∧
              (m.regs.set rd target.toUInt64).get rd = target.toUInt64) ∧
          (∀ funct3 op rd, Load.ofFunct? funct3 = some op → rd ≠ 0 →
            s.words = loadWords funct3 rd label →
            ∃ target, choose s.scopes label = some target ∧
              m.stepTwice =
                match m.memory.read op.width target.toUInt64 with
                | .ok value => .ok (Machine.quiet { m with
                    regs := m.regs.set rd (op.extend value), pc := m.pc + 8 })
                | .error e => .error (.memory e)) ∧
          ∀ funct3 op source temp, Store.ofFunct? funct3 = some op → temp ≠ 0 →
            temp ≠ source → s.words = storeWords funct3 source temp label →
            ∃ target, choose s.scopes label = some target ∧ ∃ base,
              m.stepTwice =
                match m.memory.write op.width target.toUInt64 (m.regs.get source) with
                | .ok memory => .ok (Machine.quiet { m with
                    memory, regs := m.regs.set temp base, pc := m.pc + 8 })
                | .error e => .error (.memory e) := by
  obtain ⟨os, laid, hlay, hl⟩ := (assemble_eq_ok_iff catalog stackSize files p).mp hp
  refine ⟨os, laid, hlay, fun s hs m hh hpc h₁ h₂ label => ⟨?_, ?_, ?_⟩⟩
  · intro rd hrd hw
    exact stepTwice_la hlay hl hs hh hpc h₁ h₂ hrd hw
  · intro funct3 op rd hop hrd hw
    exact stepTwice_load_label hlay hl hs hh hpc h₁ h₂ hop hrd hw
  · intro funct3 op source temp hop htemp hne hw
    exact stepTwice_store_label hlay hl hs hh hpc h₁ h₂ hop htemp hne hw

private def nextFile : Source.File := ⟨"a.s", "la a0, x\nx:"⟩

theorem label_pairs_reach_next :
    ∃ p, assemble Catalog.builtin 0 [nextFile] = .ok p ∧
      (Machine.ofMemory p.memory).stepTwice = .ok (Machine.quiet { Machine.ofMemory p.memory with
        regs := RegisterFile.zero.set 10 0x400008, pc := 0x400008 }) := by
  have hok : (assemble Catalog.builtin 0 [nextFile]).toOption.isSome = true := by decide +kernel
  have hsite : ((Linkage.layAll Catalog.builtin [nextFile] (.empty 0)).map fun z =>
      (sitesOf z.1).map fun s => (s.address, s.words, choose s.scopes "x")) =
        some [(0x400000, laWords 10 "x", some 0x400008)] := by decide +kernel
  obtain ⟨p, hp⟩ := Option.isSome_iff_exists.mp hok
  rw [toOption_eq_some_iff] at hp
  obtain ⟨os, laid, hlay, hreach⟩ := label_pairs_reach hp
  rw [hlay, Option.map_some, Option.some_inj] at hsite
  obtain ⟨s, hs, he⟩ := List.map_eq_singleton_iff.mp hsite
  have ha : s.address = 0x400000 := congrArg Prod.fst he
  have hw : s.words = laWords 10 "x" := congrArg (·.2.1) he
  have hc : choose s.scopes "x" = some 0x400008 := congrArg (·.2.2) he
  obtain ⟨target, ht, hstep, -⟩ := (hreach s (hs ▸ List.mem_singleton_self s)
    (Machine.ofMemory p.memory) rfl (by rw [ha]; rfl) rfl rfl "x").1 10 (by decide) hw
  obtain rfl : 0x400008 = target := Option.some.inj (hc.symm.trans ht)
  exact ⟨p, hp, hstep⟩

end RiscvToolkit.Assembly
