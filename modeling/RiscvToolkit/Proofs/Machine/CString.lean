import RiscvToolkit.Proofs.Machine.Cycle
import RiscvToolkit.Proofs.Memory.ByteMap

/-! Strings in memory. A string is read byte by byte up to a zero; reading stops for good, at the zero or at the first
address behind the bytes that are mapped. -/
namespace RiscvToolkit

namespace Memory

/-- Reads on from an address, a byte at a time up to a zero, and gives up after so many reads. `before` has been read
already; the address behind the last one is 0. -/
def readOn (m : Memory) (before : List UInt8) (addr : UInt64) :
    Nat → Option (Except AccessError (List UInt8))
  | 0 => none
  | reads + 1 =>
    match m.load addr 1 with
    | .error e => some (.error e)
    | .ok byte =>
      if byte = [0] then some (.ok before) else m.readOn (before ++ byte) (addr + 1) reads

/-- True if a zero is reached from an address through mapped bytes. -/
def ReachesZero (m : Memory) (addr : UInt64) : Prop :=
  ∃ n, m.byte? (addr + UInt64.ofNat n) = some 0 ∧
    ∀ k < n, (m.byte? (addr + UInt64.ofNat k)).isSome = true

/-- True if the first `n` addresses from `addr` on are mapped, and the next is not. -/
def EndsAfter (m : Memory) (addr : UInt64) (n : Nat) : Prop :=
  m.byte? (addr + UInt64.ofNat n) = none ∧
    ∀ k < n, (m.byte? (addr + UInt64.ofNat k)).isSome = true

variable {m : Memory} {addr : UInt64}

theorem add_length_nil (addr : UInt64) : addr + UInt64.ofNat ([] : List UInt8).length = addr :=
  UInt64.add_zero addr

theorem load_one_of_some {b : UInt8} (h : m.byte? addr = some b) : m.load addr 1 = .ok [b] := by
  rw [byte?_eq_load] at h
  unfold load at h ⊢
  cases hl : m.locate? addr 1 with
  | none =>
    rw [hl] at h
    cases h
  | some place =>
    rw [hl] at h
    simp only [Pages.read_eq] at h ⊢
    cases h
    rfl

theorem load_one_of_none (h : m.byte? addr = none) : m.load addr 1 = .error (.read addr) := by
  unfold byte? at h
  rw [Option.map_eq_none_iff] at h
  unfold load
  rw [h]

theorem holdsBytes_cons {address : Nat} {b : UInt8} {bytes : List UInt8} :
    m.HoldsBytes address (b :: bytes) ↔
      m.byte? (UInt64.ofNat address) = some b ∧ m.HoldsBytes (address + 1) bytes := by
  constructor
  · intro h
    have hparts : m.HoldsBytes address ([b] ++ bytes) := h
    exact ⟨h 0 (Nat.succ_pos _), hparts.right⟩
  · rintro ⟨hb, h⟩
    have hfirst : m.HoldsBytes address [b] := fun k hk => by
      obtain rfl : k = 0 := Nat.lt_one_iff.mp hk
      exact hb
    exact hfirst.append h

theorem holdsBytes_singleton {address : Nat} {b : UInt8} :
    m.HoldsBytes address [b] ↔ m.byte? (UInt64.ofNat address) = some b := by
  rw [holdsBytes_cons]
  exact and_iff_left fun k hk => absurd hk (Nat.not_lt_zero k)

/-- Reading goes on over bytes that are not zero. -/
theorem readOn_append {address : Nat} {bytes : List UInt8} (h : m.HoldsBytes address bytes)
    (h0 : 0 ∉ bytes) (before : List UInt8) (reads : Nat) :
    m.readOn before (UInt64.ofNat address) (reads + bytes.length) =
      m.readOn (before ++ bytes) (UInt64.ofNat (address + bytes.length)) reads := by
  induction bytes generalizing address before with
  | nil => rw [List.append_nil, List.length_nil, Nat.add_zero, Nat.add_zero]
  | cons b bytes ih =>
    obtain ⟨hb, h⟩ := holdsBytes_cons.mp h
    have hne : b ≠ 0 := fun hz => h0 (hz ▸ List.mem_cons_self)
    have ih := ih h (fun hm => h0 (List.mem_cons_of_mem b hm)) (before ++ [b])
    have hreads : reads + (b :: bytes).length = reads + bytes.length + 1 := by
      rw [List.length_cons, Nat.add_assoc]
    have hend : address + (b :: bytes).length = address + 1 + bytes.length := by
      rw [List.length_cons]
      omega
    have hsplit : before ++ b :: bytes = before ++ [b] ++ bytes := by simp
    rw [hreads, readOn, load_one_of_some hb]
    dsimp only
    rw [if_neg (fun hz => hne (List.singleton_inj.mp hz)), hend, hsplit, ← ih, UInt64.ofNat_add]
    rfl

/-- The bytes of a string, and the zero behind them. -/
theorem spells_iff {address : Nat} {bytes : List UInt8} :
    Rv64.Spells m.bytes (UInt64.ofNat address).toBitVec (bytes.map UInt8.toBitVec) ↔
      m.HoldsBytes address (bytes ++ [0]) ∧ 0 ∉ bytes := by
  have hbyte (address : Nat) (b : UInt8) : m.bytes (UInt64.ofNat address).toBitVec =
      some b.toBitVec ↔ m.byte? (UInt64.ofNat address) = some b := by
    rw [bytes_toBitVec, Option.map_eq_some_iff]
    constructor
    · rintro ⟨c, hc, heq⟩
      rw [hc, UInt8.toBitVec_inj.mp heq]
    · exact fun h => ⟨b, h, rfl⟩
  induction bytes generalizing address with
  | nil =>
    rw [List.nil_append, holdsBytes_singleton]
    exact (hbyte address 0).trans (and_iff_left List.not_mem_nil).symm
  | cons b bytes ih =>
    have hnext : (UInt64.ofNat address).toBitVec + 1 = (UInt64.ofNat (address + 1)).toBitVec := by
      rw [UInt64.ofNat_add]
      rfl
    have hzero : b.toBitVec ≠ 0 ↔ ¬(0 : UInt8) = b := by
      rw [← UInt8.toBitVec_inj]
      exact ne_comm
    rw [List.map_cons, List.cons_append, holdsBytes_cons, List.mem_cons, not_or, ← hbyte, ← hzero]
    unfold Rv64.Spells
    rw [hnext]
    have ih := @ih (address + 1)
    tauto

/-- From every address, bytes other than zero lead to a zero or to the end of what is mapped. -/
theorem exists_stop (m : Memory) (addr : UInt64) :
    ∃ bytes : List UInt8, m.HoldsBytes addr.toNat bytes ∧ 0 ∉ bytes ∧ bytes.length ≤ segmentSize ∧
      (m.byte? (addr + UInt64.ofNat bytes.length) = some 0 ∨
        m.byte? (addr + UInt64.ofNat bytes.length) = none ∧
          (bytes = [] ∨ ∃ r, addr ∈ m.range r ∧
            (addr + UInt64.ofNat bytes.length).toNat = m.base r + m.size r)) := by
  by_cases hm : ∃ r, addr ∈ m.range r
  · obtain ⟨r, hlo, hhi⟩ := hm
    have hend := m.end_lt r
    have hbyte (k : Nat) (hk : addr.toNat + k < m.base r + m.size r) :
        m.byte? (UInt64.ofNat (addr.toNat + k)) =
          some ((m.segment r).bytes.get (addr.toNat - m.base r + k)) := by
      have ha : (UInt64.ofNat (addr.toNat + k)).toNat = addr.toNat + k := by
        rw [UInt64.toNat_ofNat']
        omega
      exact (m.byte?_eq_some_iff _ _).mpr ⟨r, _, by omega, by omega, rfl⟩
    have hstop : ∃ n, addr.toNat + n = m.base r + m.size r ∨
        (m.segment r).bytes.get (addr.toNat - m.base r + n) = 0 :=
      ⟨m.base r + m.size r - addr.toNat, .inl (by omega)⟩
    have hle : addr.toNat + Nat.find hstop ≤ m.base r + m.size r := by
      have hmin := Nat.find_min' hstop (m := m.base r + m.size r - addr.toNat) (.inl (by omega))
      omega
    have hsize : m.size r ≤ segmentSize := by
      cases r with
      | stack => exact m.stackSize_le
      | _ => exact Nat.le_refl _
    have htoNat : (addr + UInt64.ofNat (Nat.find hstop)).toNat = addr.toNat + Nat.find hstop :=
      toNat_add_ofNat (by omega)
    refine ⟨(List.range (Nat.find hstop)).map
      fun k => (m.segment r).bytes.get (addr.toNat - m.base r + k), fun k hk => ?_, ?_, ?_, ?_⟩
    · rw [List.length_map, List.length_range] at hk
      rw [hbyte k (by omega), List.getElem?_map, List.getElem?_range hk, Option.map_some]
    · intro h0
      obtain ⟨k, hk, hz⟩ := List.mem_map.mp h0
      exact Nat.find_min hstop (List.mem_range.mp hk) (.inr hz)
    · rw [List.length_map, List.length_range]
      omega
    · rw [List.length_map, List.length_range]
      by_cases hn : addr.toNat + Nat.find hstop = m.base r + m.size r
      · refine .inr ⟨?_, .inr ⟨r, ⟨hlo, hhi⟩, htoNat.trans hn⟩⟩
        exact Option.map_eq_none_iff.mp (bytes_end (r := r) (htoNat.trans hn))
      · have hz := (Nat.find_spec hstop).resolve_left hn
        have hb := hbyte (Nat.find hstop) (by omega)
        rw [hz, UInt64.ofNat_add, UInt64.ofNat_toNat] at hb
        exact .inl hb
  · refine ⟨[], fun k hk => absurd hk (Nat.not_lt_zero k), List.not_mem_nil, Nat.zero_le _,
      .inr ⟨?_, .inl rfl⟩⟩
    rw [add_length_nil]
    rwa [← m.isSome_byte?_iff, Option.not_isSome_iff_eq_none] at hm

theorem HoldsBytes.byte?_add {bytes : List UInt8} (h : m.HoldsBytes addr.toNat bytes) {k : Nat}
    (hk : k < bytes.length) : m.byte? (addr + UInt64.ofNat k) = bytes[k]? := by
  have hb := h k hk
  rwa [UInt64.ofNat_add, UInt64.ofNat_toNat] at hb

theorem HoldsBytes.isSome_add {bytes : List UInt8} (h : m.HoldsBytes addr.toNat bytes) {k : Nat}
    (hk : k < bytes.length) : (m.byte? (addr + UInt64.ofNat k)).isSome = true := by
  rw [h.byte?_add hk, List.getElem?_eq_getElem hk]
  rfl

/-- The bytes up to the first place where nothing is mapped have no zero among them. -/
theorem not_reachesZero {bytes : List UInt8} (h : m.HoldsBytes addr.toNat bytes) (h0 : 0 ∉ bytes)
    (hend : m.byte? (addr + UInt64.ofNat bytes.length) = none) : ¬m.ReachesZero addr := by
  rintro ⟨n, hzero, hmapped⟩
  rcases Nat.lt_trichotomy n bytes.length with hn | rfl | hn
  · rw [h.byte?_add hn] at hzero
    exact h0 (List.mem_of_getElem? hzero)
  · rw [hend] at hzero
    cases hzero
  · have hm := hmapped _ hn
    rw [hend] at hm
    cases hm

theorem HoldsBytes.concat {bytes : List UInt8} {b : UInt8} (h : m.HoldsBytes addr.toNat bytes)
    (hb : m.byte? (addr + UInt64.ofNat bytes.length) = some b) :
    m.HoldsBytes addr.toNat (bytes ++ [b]) := by
  refine h.append (holdsBytes_singleton.mpr ?_)
  rwa [UInt64.ofNat_add, UInt64.ofNat_toNat]

theorem cString_of_zero {bytes : List UInt8} (h : m.HoldsBytes addr.toNat (bytes ++ [0]))
    (h0 : 0 ∉ bytes) : m.cString addr = .ok bytes := by
  rw [cString_eq_ok_iff, ← UInt64.ofNat_toNat (x := addr), spells_iff]
  exact ⟨h, h0⟩

theorem reachesZero_of_cString {bytes : List UInt8} (h : m.cString addr = .ok bytes) :
    m.ReachesZero addr := by
  rw [cString_eq_ok_iff, ← UInt64.ofNat_toNat (x := addr), spells_iff] at h
  have hlen : (bytes ++ [0]).length = bytes.length + 1 := List.length_append
  refine ⟨bytes.length, ?_, fun k hk => h.1.isSome_add (by omega)⟩
  rw [h.1.byte?_add (by omega), List.getElem?_concat_length]

/-- Where a string without an end is given up. -/
theorem error_of_cString {e : AccessError} (h : m.cString addr = .error e) :
    m.byte? addr = none ∧ e = .read addr ∨
      ∃ r, addr ∈ m.range r ∧ e = .read (UInt64.ofNat (m.base r + m.size r)) := by
  unfold cString at h
  cases hl : m.locate? addr 1 with
  | none =>
    rw [hl] at h
    cases h
    exact .inl ⟨Option.map_eq_none_iff.mpr hl, rfl⟩
  | some place =>
    obtain ⟨r, o⟩ := place
    rw [hl] at h
    dsimp only at h
    split at h
    next => cases h
    next =>
      cases h
      obtain ⟨ha, ho⟩ := (m.locate?_eq_some_iff_of_pos Nat.one_pos r o).mp hl
      exact .inr ⟨r, ⟨by omega, by omega⟩, rfl⟩

theorem cString_of_end {bytes : List UInt8} (h : m.HoldsBytes addr.toNat bytes) (h0 : 0 ∉ bytes)
    (hend : m.byte? (addr + UInt64.ofNat bytes.length) = none)
    (hplace : bytes = [] ∨ ∃ r, addr ∈ m.range r ∧
      (addr + UInt64.ofNat bytes.length).toNat = m.base r + m.size r) :
    m.cString addr = .error (.read (addr + UInt64.ofNat bytes.length)) := by
  have hz := not_reachesZero h h0 hend
  cases hc : m.cString addr with
  | ok found => exact absurd (reachesZero_of_cString hc) hz
  | error e =>
    rcases error_of_cString hc with ⟨hnone, rfl⟩ | ⟨r, hr, rfl⟩
    · have hnil : bytes = [] := by
        refine hplace.resolve_right fun ⟨r, hr, _⟩ => ?_
        have hsome := (m.isSome_byte?_iff addr).mpr ⟨r, hr⟩
        rw [hnone] at hsome
        cases hsome
      rw [hnil, add_length_nil]
    · rcases hplace with rfl | ⟨r', hr', hto⟩
      · rw [add_length_nil] at hend
        have hsome := (m.isSome_byte?_iff addr).mpr ⟨r, hr⟩
        rw [hend] at hsome
        cases hsome
      · obtain rfl : r = r' :=
          eq_of_holds ((m.holds_iff r addr).mpr hr) ((m.holds_iff r' addr).mpr hr')
        rw [← hto, UInt64.ofNat_toNat]

/-- The reads come to an end, and to the string. -/
theorem readOn_eq (m : Memory) (addr : UInt64) (more : Nat) :
    m.readOn [] addr (segmentSize + 1 + more) = some (m.cString addr) := by
  obtain ⟨bytes, h, h0, hlen, hstop⟩ := m.exists_stop addr
  obtain ⟨reads, hreads⟩ : ∃ reads, segmentSize + 1 + more = reads + 1 + bytes.length :=
    ⟨segmentSize + more - bytes.length, by omega⟩
  have hgo := readOn_append h h0 [] (reads + 1)
  rw [UInt64.ofNat_toNat, List.nil_append, UInt64.ofNat_add, UInt64.ofNat_toNat] at hgo
  rw [hreads, hgo, readOn]
  rcases hstop with hzero | ⟨hend, hplace⟩
  · rw [load_one_of_some hzero, cString_of_zero (h.concat hzero) h0]
    rfl
  · rw [load_one_of_none hend, cString_of_end h h0 hend hplace]

end Memory

/-- True of a hart that asks for the string at an address to be printed. -/
structure Hart.PrintsString (h : Hart) (addr : UInt64) : Prop where
  number : h.machine.regs.get .a7 = 4
  argument : h.machine.regs.get .a0 = addr

theorem Machine.toNat_latin1 (bytes : List UInt8) :
    (latin1 bytes).toList.map Char.toNat = bytes.map UInt8.toNat := by
  rw [latin1, String.toList_ofList, List.map_map]
  refine List.map_congr_left fun b _ => ?_
  have hb := b.toNat_lt
  exact Char.toNat_ofNat _ |>.trans (if_pos (.inl (by omega)))

section
variable {h : Hart} {addr : UInt64}

theorem perform_of_prints (hp : h.PrintsString addr) {bytes : List UInt8}
    (hs : h.machine.memory.cString addr = .ok bytes) :
    Action.perform .ecall h = .ok true ⟨{ h.machine with pc := h.machine.pc + 4 },
      h.console.send [.output (Machine.latin1 bytes)]⟩ := by
  have hcall : h.machine.environmentCall =
      .ok ⟨{ h.machine with pc := h.machine.pc + 4 }, [.output (Machine.latin1 bytes)], true⟩ := by
    rw [Machine.environmentCall_string hp.number, hp.argument, hs]
  rw [Action.perform_eq, Machine.execute, hcall]
  rfl

theorem perform_of_prints_error (hp : h.PrintsString addr) {e : AccessError}
    (hs : h.machine.memory.cString addr = .error e) :
    Action.perform .ecall h = .error (.memory e) h := by
  have hcall : h.machine.environmentCall = .error (.memory e) := by
    rw [Machine.environmentCall_string hp.number, hp.argument, hs]
  rw [Action.perform_eq, Machine.execute, hcall]
  rfl

end

/-- Reading a string byte by byte comes to an end, whatever is in memory. Where a zero is reached through mapped bytes,
the string is what is in front of the first one, and printing it writes one character for each byte, the code of which is
the byte. Otherwise reading fails at the first address that is not mapped, which is the one that it starts from or the end
of its region, and printing writes nothing. -/
theorem cString_reads_to_zero (m : Memory) (addr : UInt64) :
    (∀ more, m.readOn [] addr (segmentSize + 1 + more) = some (m.cString addr)) ∧
    (m.ReachesZero addr →
      ∃ bytes, m.cString addr = .ok bytes ∧ m.HoldsBytes addr.toNat (bytes ++ [0]) ∧ 0 ∉ bytes ∧
        ∀ h : Hart, h.machine.memory = m → h.PrintsString addr →
          ∃ text, text.toList.map Char.toNat = bytes.map UInt8.toNat ∧
            Action.perform .ecall h = .ok true ⟨{ h.machine with pc := h.machine.pc + 4 },
              h.console.send [.output text]⟩) ∧
    (¬m.ReachesZero addr →
      ∃ n, m.cString addr = .error (.read (addr + UInt64.ofNat n)) ∧ m.EndsAfter addr n ∧
        (n = 0 ∨ ∃ r, addr ∈ m.range r ∧ (addr + UInt64.ofNat n).toNat = m.base r + m.size r) ∧
        ∀ h : Hart, h.machine.memory = m → h.PrintsString addr →
          Action.perform .ecall h = .error (.memory (.read (addr + UInt64.ofNat n))) h) := by
  obtain ⟨bytes, h, h0, -, hstop⟩ := m.exists_stop addr
  refine ⟨m.readOn_eq addr, fun hz => ?_, fun hz => ?_⟩
  · have hzero := hstop.resolve_right fun ⟨hend, _⟩ => Memory.not_reachesZero h h0 hend hz
    have hs := Memory.cString_of_zero (h.concat hzero) h0
    refine ⟨bytes, hs, h.concat hzero, h0, fun hart hm hp => ⟨_, Machine.toNat_latin1 bytes, ?_⟩⟩
    exact perform_of_prints hp (hm ▸ hs)
  · have hnot : m.byte? (addr + UInt64.ofNat bytes.length) ≠ some 0 := fun hzero =>
      hz ⟨bytes.length, hzero, fun k hk => h.isSome_add hk⟩
    obtain ⟨hend, hplace⟩ := hstop.resolve_left hnot
    have hs := Memory.cString_of_end h h0 hend hplace
    refine ⟨bytes.length, hs, ⟨hend, fun k hk => h.isSome_add hk⟩,
      hplace.imp_left List.length_eq_zero_iff.mpr, fun hart hm hp => ?_⟩
    exact perform_of_prints_error hp (hm ▸ hs)

/-- A hart that asks for the string at an address, with nothing printed yet. -/
def Hart.printing (m : Memory) (addr : UInt64) : Hart :=
  ⟨{ Machine.ofMemory m with regs := (RegisterFile.zero.set .a7 4).set .a0 addr }, .empty⟩

theorem cString_reads_to_zero_hi :
    (∃ m : Memory, m.ReachesZero 0x7fffe000 ∧
      ∃ text, text.toList.map Char.toNat = [104, 105] ∧
        Action.perform .ecall (Hart.printing m 0x7fffe000) =
          .ok true ⟨{ (Hart.printing m 0x7fffe000).machine with pc := 0x400004 },
            ⟨#[.output text]⟩⟩) ∧
    ¬Memory.empty.ReachesZero 0x10410000 ∧
      Action.perform .ecall (Hart.printing .empty 0x10410000) =
        .error (.memory (.read 0x10410000)) (Hart.printing .empty 0x10410000) := by
  have hprints (m : Memory) (addr : UInt64) : (Hart.printing m addr).PrintsString addr :=
    ⟨rfl, rfl⟩
  constructor
  · have hread : ((Memory.empty.write .half 0x7fffe000 0x6968).toOption.map fun m =>
        (m.byte? 0x7fffe000, m.byte? 0x7fffe001, m.byte? 0x7fffe002)) =
          some (some 104, some 105, some 0) := by decide
    obtain ⟨m, -, h⟩ := Option.map_eq_some_iff.mp hread
    simp only [Prod.mk.injEq] at h
    obtain ⟨h0, h1, h2⟩ := h
    have hs : m.cString 0x7fffe000 = .ok [104, 105] := by
      refine Memory.cString_of_zero (fun k hk => ?_) (by decide)
      obtain rfl | rfl | rfl : k = 0 ∨ k = 1 ∨ k = 2 := by
        simp only [List.length_append, List.length_cons, List.length_nil] at hk
        omega
      exacts [h0, h1, h2]
    have hz : m.ReachesZero 0x7fffe000 := by
      refine ⟨2, h2, fun k hk => ?_⟩
      obtain rfl | rfl : k = 0 ∨ k = 1 := by omega
      · exact Option.isSome_of_eq_some h0
      · exact Option.isSome_of_eq_some h1
    obtain ⟨bytes, hb, -, -, hprint⟩ := (cString_reads_to_zero m 0x7fffe000).2.1 hz
    cases hb.symm.trans hs
    exact ⟨m, hz, hprint (Hart.printing m 0x7fffe000) rfl (hprints m _)⟩
  · have hnone : Memory.empty.byte? 0x10410000 = none := by decide
    have hnil : Memory.empty.HoldsBytes 0x10410000 [] := fun k hk => absurd hk (Nat.not_lt_zero k)
    have hz : ¬Memory.empty.ReachesZero 0x10410000 :=
      Memory.not_reachesZero hnil List.not_mem_nil hnone
    obtain ⟨n, -, hends, hplace, hprint⟩ := (cString_reads_to_zero .empty 0x10410000).2.2 hz
    have hn : n = 0 := by
      cases n with
      | zero => rfl
      | succ n =>
        have hm := hends.2 0 (Nat.succ_pos n)
        cases hnone.symm.trans (Option.eq_some_of_isSome hm)
    subst hn
    exact ⟨hz, hprint (Hart.printing .empty 0x10410000) rfl (hprints .empty _)⟩

end RiscvToolkit
