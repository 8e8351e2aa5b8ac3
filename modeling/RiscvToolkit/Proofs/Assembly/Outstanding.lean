import RiscvToolkit.Proofs.Assembly.Trace

/-! What is outstanding in an assembly. At each point the relocations that have not been applied stand for
separate places in the room that is taken, so that each is applied once and their order does not matter. -/
namespace RiscvToolkit.Assembly
open Traced (note notePatch)

/-- True of a point where the relocations that are outstanding are those of separate places in the room that
is taken. -/
structure Moment.Sound (m : Moment) : Prop where
  separate : m.outstanding.Pairwise Relocation.Separate
  inside : ∀ r ∈ m.outstanding, m.image.Inside r.address r.kind.size

def Log.Sound (log : Log) : Prop :=
  ∀ m ∈ log.moments, m.Sound

/-- What holds at a point of an assembly: `laid` is the image as it would be without any patch. -/
structure Holds (log : Log) (laid image : Image) (outstanding : List Relocation) : Prop where
  patched : laid.patched log.made = some image
  separate : (log.made.map (·.relocation) ++ outstanding).Pairwise Relocation.Separate
  inside : ∀ r ∈ log.made.map (·.relocation) ++ outstanding, laid.Inside r.address r.kind.size
  sound : log.Sound
  known : ∀ m ∈ log.moments, ∀ r ∈ m.outstanding, r ∈ log.made.map (·.relocation) ++ outstanding

namespace Holds
variable {log : Log} {laid image : Image} {outstanding : List Relocation}

theorem used_eq (h : Holds log laid image outstanding) (place : Place) :
    image.used place = laid.used place :=
  ((Image.patched_eq_some_iff ..).mp h.patched).2 place

theorem start (i : Image) : Holds ⟨[], []⟩ i i [] where
  patched := by simp [Image.patched, Patch.applyAll]
  separate := .nil
  inside _ h := nomatch h
  sound _ h := nomatch h
  known _ h := nomatch h

/-- A point may be written down. -/
theorem note (h : Holds log laid image outstanding) :
    Holds { log with moments := log.moments ++ [⟨image, outstanding⟩] } laid image outstanding where
  patched := h.patched
  separate := h.separate
  inside := h.inside
  sound := by
    intro m hm
    obtain hm | hm := List.mem_append.mp hm
    · exact h.sound m hm
    · obtain rfl := List.mem_singleton.mp hm
      refine ⟨(List.pairwise_append.mp h.separate).2.1, fun r hr => ?_⟩
      exact (h.inside r (List.mem_append_right _ hr)).mono fun place => (h.used_eq place).ge
  known := by
    intro m hm r hr
    obtain hm | hm := List.mem_append.mp hm
    · exact h.known m hm r hr
    · obtain rfl := List.mem_singleton.mp hm
      exact List.mem_append_right _ hr

/-- The order in which relocations are kept does not matter. -/
theorem perm {rs : List Relocation} (h : Holds log laid image outstanding)
    (hp : outstanding.Perm rs) : Holds log laid image rs where
  patched := h.patched
  separate := ((hp.append_left _).pairwise_iff Relocation.Separate.symm).mp h.separate
  inside r hr := h.inside r ((hp.append_left _).mem_iff.mpr hr)
  sound := h.sound
  known m hm r hr := (hp.append_left _).mem_iff.mp (h.known m hm r hr)

/-- A relocation is applied. -/
theorem apply {r : Relocation} {target : UInt32} {memory : Memory}
    (h : Holds log laid image (r :: outstanding))
    (ha : r.kind.apply image.memory r.address target = .ok memory) :
    Holds { log with made := log.made ++ [⟨r, target⟩] } laid { image with memory }
      outstanding := by
  have hmade : (log.made ++ [Patch.mk r target]).map (·.relocation) ++ outstanding =
      log.made.map (·.relocation) ++ r :: outstanding := by simp
  refine ⟨?_, hmade ▸ h.separate, hmade ▸ h.inside, h.sound, hmade ▸ h.known⟩
  rw [Image.patched_append, h.patched, Option.bind_some, Image.patched_eq_some_iff]
  refine ⟨?_, fun place => Image.used_memory image memory place⟩
  simp only [Patch.applyAll, Patch.apply, ha, toOption_ok, Option.bind_some]

/-- A piece is placed. -/
theorem add {s s' : State} {around : List Relocation} {place : Place} {location : Location}
    {p : Piece} (h : Holds log laid s.image (s.outstanding around))
    (ha : s.add place location p = .ok s') :
    ∃ laid', p.put place laid = .ok laid' ∧
      s' = { s with
        image := s'.image
        relocations := s.relocations ++ p.relocations location (laid.cursor place) } ∧
      Holds log laid' s'.image (s'.outstanding around) := by
  have hcursor := Image.cursor_of_patched h.patched place
  rw [State.add_eq_map] at ha
  obtain ⟨image, hp, ha⟩ := bind_eq_ok_iff.mp ha
  cases ha
  have hin : ∀ q ∈ log.made, laid.Inside q.relocation.address q.relocation.kind.size :=
    fun q hq => h.inside _ (List.mem_append_left _ (List.mem_map_of_mem hq))
  have hput : ((laid.patched log.made).bind fun j => (p.put place j).toOption) =
      (p.put place laid).toOption.bind (Image.patched log.made) := Piece.put_patched hin
  rw [h.patched, Option.bind_some, hp, toOption_ok, eq_comm, Option.bind_eq_some_iff] at hput
  obtain ⟨laid', hlaid, hpatched⟩ := hput
  have hlaid := (toOption_eq_some_iff _ _).mp hlaid
  have hx := Piece.extension_put location hlaid
  have hmade : log.made.map (·.relocation) ++
      State.outstanding around
        { s with
          image
          relocations := s.relocations ++ p.relocations location (s.image.cursor place) } =
      (log.made.map (·.relocation) ++ s.outstanding around) ++
        p.relocations location (laid.cursor place) := by
    simp [State.outstanding, hcursor]
  refine ⟨laid', hlaid, by rw [hcursor], hpatched, ?_, ?_, h.sound, ?_⟩
  · rw [hmade]
    exact List.pairwise_append.mpr
      ⟨h.separate, hx.separate, fun r hr t ht => (h.inside r hr).apart (hx.outside t ht)⟩
  · rw [hmade]
    intro r hr
    obtain hr | hr := List.mem_append.mp hr
    · exact (h.inside r hr).mono hx.grows
    · exact hx.inside r hr
  · rw [hmade]
    exact fun m hm r hr => List.mem_append_left _ (h.known m hm r hr)

end Holds

/-- True of work that comes to a result with `post`, or to an error with a sound log. -/
def Ensures {α : Type} (x : Traced α) (log : Log) (post : α → Log → Prop) : Prop :=
  match x log with
  | .ok a log => post a log
  | .error _ log => log.Sound

namespace Ensures
variable {α β : Type} {x : Traced α} {log : Log} {post : α → Log → Prop}

theorem pure {a : α} (h : post a log) : Ensures (Pure.pure a) log post := h

theorem throw {e : Error} (h : log.Sound) : Ensures (MonadExcept.throw e : Traced α) log post := h

theorem bind {f : α → Traced β} {post : β → Log → Prop}
    (h : Ensures x log fun a log => Ensures (f a) log post) : Ensures (x >>= f) log post := by
  unfold Ensures at h ⊢
  rw [bind_run]
  cases hr : x log with
  | ok a log' =>
    rw [hr] at h
    exact h
  | error e log' =>
    rw [hr] at h
    exact h

theorem ok_or_error (h : Ensures x log post) :
    (∃ a log', x log = .ok a log' ∧ post a log') ∨ ∃ e log', x log = .error e log' ∧ log'.Sound := by
  unfold Ensures at h
  cases hr : x log with
  | ok a log' =>
    rw [hr] at h
    exact .inl ⟨a, log', rfl, h⟩
  | error e log' =>
    rw [hr] at h
    exact .inr ⟨e, log', rfl, h⟩

theorem mono {post' : α → Log → Prop} (h : Ensures x log post)
    (hp : ∀ a log, post a log → post' a log) : Ensures x log post' := by
  unfold Ensures at h ⊢
  cases hr : x log with
  | ok a log' =>
    rw [hr] at h
    exact hp a log' h
  | error e log' =>
    rw [hr] at h
    exact h

theorem within (call : Option Location) (h : Ensures x log post) :
    Ensures (Traced.within call x) log post := by
  unfold Ensures Traced.within at *
  cases hr : x log with
  | ok a log' =>
    rw [hr] at h
    exact h
  | error e log' =>
    rw [hr] at h
    cases call <;> exact h

theorem ofExcept {y : Except Error α} (hs : log.Sound) (h : ∀ a, y = .ok a → post a log) :
    Ensures (Traced.ofExcept y) log post := by
  cases y with
  | ok a => exact h a rfl
  | error e => exact hs

theorem note_bind {image : Image} {outstanding : List Relocation} {f : Unit → Traced α}
    (h : Ensures (f ()) { log with moments := log.moments ++ [⟨image, outstanding⟩] } post) :
    Ensures (note image outstanding >>= f) log post := h

theorem notePatch_bind {p : Patch} {f : Unit → Traced α}
    (h : Ensures (f ()) { log with made := log.made ++ [p] } post) :
    Ensures (notePatch p >>= f) log post := h

end Ensures

section
variable {log : Log} {laid : Image} {around : List Relocation}

theorem ensures_add {s : State} {place : Place} {location : Location} {p : Piece}
    (h : Holds log laid s.image (s.outstanding around)) :
    Ensures (s.traceAdd around place location p.parts) log fun s' log =>
      ∃ laid', p.put place laid = .ok laid' ∧
        s' = { s with
          image := s'.image
          relocations := s.relocations ++ p.relocations location (laid.cursor place) } ∧
        Holds log laid' s'.image (s'.outstanding around) := by
  cases p with
  | datum stored =>
    refine .bind (.ofExcept h.sound fun s' ha => .note_bind (.pure ?_))
    obtain ⟨laid', hput, hs, h'⟩ := h.add (ok_of_located ha)
    exact ⟨laid', hput, hs, h'.note⟩
  | code words =>
    induction words generalizing s laid log with
    | nil =>
      refine .pure ⟨laid, rfl, ?_, h⟩
      simp [Piece.relocations, linksFrom]
    | cons e rest ih =>
      refine .bind (.ofExcept h.sound fun s₁ ha => .note_bind ?_)
      obtain ⟨laid₁, hput₁, hs₁, h₁⟩ := h.add (ok_of_located ha)
      refine (ih h₁.note).mono fun s' log' hpost => ?_
      obtain ⟨laid', hput', hs', h'⟩ := hpost
      have hone : (Piece.code [e]).put place laid = laid.putWord place e.word := bind_pure _
      have hword : laid.putWord place e.word = .ok laid₁ := hone.symm.trans hput₁
      have hcursor : laid₁.cursor place = laid.cursor place + 4 := by
        rw [Image.cursor_put hword, LittleEndian.length_encode]
        rfl
      refine ⟨laid', ?_, ?_, h'⟩
      · change (laid.putWord place e.word >>= Image.putWords place rest) = .ok laid'
        rw [hword]
        exact hput'
      · rw [hs', hs₁, hcursor]
        simp [Piece.relocations, linksFrom, append_list_assoc]

theorem ensures_resolve {labels : Symbols} {image : Image} {unresolved : Array Relocation}
    {rs : List Relocation} (h : Holds log laid image (around ++ unresolved.toList ++ rs)) :
    Ensures (traceResolve around labels image unresolved rs) log fun resolved log =>
      resolved.2 = unresolved ++ unsettled labels rs ∧
        Holds log laid resolved.1 (around ++ resolved.2.toList) := by
  induction rs generalizing log image unresolved with
  | nil =>
    rw [List.append_nil] at h
    exact .pure ⟨by simp [unsettled], h⟩
  | cons r rest ih =>
    unfold traceResolve
    cases hl : labels.lookup r.label with
    | none =>
      have hpush : around ++ unresolved.toList ++ r :: rest =
          around ++ (unresolved.push r).toList ++ rest := by simp
      refine (ih (hpush ▸ h)).mono fun resolved log' hpost => ⟨?_, hpost.2⟩
      rw [hpost.1, unsettled_cons_of_none hl]
      simp
    | some target =>
      dsimp only
      cases ha : r.kind.apply image.memory r.address target with
      | error kind => exact .throw h.sound
      | ok memory =>
        have h := (h.perm List.perm_middle).apply ha
        refine .notePatch_bind (.note_bind ((ih h.note).mono fun resolved log' hpost => ⟨?_, hpost.2⟩))
        rw [hpost.1, unsettled_cons_of_some hl]

theorem ensures_script {x : Script} {s : State}
    (h : Holds log laid s.image (s.outstanding around)) :
    Ensures (x.trace around s) log fun s' log =>
      ∃ l, x.lay laid = some l ∧ s' = Script.after s l s'.image ∧
        Holds log l.image s'.image (s'.outstanding around) := by
  induction x generalizing log laid around s with
  | done mode =>
    refine .pure ⟨_, rfl, ?_, h⟩
    simp [Script.after, Outline.declared, Outline.labels, Outline.opened]
  | failed error => exact .throw h.sound
  | label place name rest ih =>
    refine (ih (s := s.define place name) h).mono fun s' log' hpost => ?_
    obtain ⟨l, hl, hs, h'⟩ := hpost
    refine ⟨{ l with outline := .label name (laid.cursor place) l.outline }, ?_, ?_, h'⟩
    · rw [Script.lay, hl]
      rfl
    · rw [← Script.after_label, ← Image.cursor_of_patched h.patched]
      exact hs
  | globals names line rest ih =>
    refine (ih (s := s.declare names line) h).mono fun s' log' hpost => ?_
    obtain ⟨l, hl, hs, h'⟩ := hpost
    refine ⟨{ l with outline := .globals names line l.outline }, ?_, ?_, h'⟩
    · rw [Script.lay, hl]
      rfl
    · rw [← Script.after_globals]
      exact hs
  | piece place location p rest ih =>
    refine .bind ((ensures_add h).mono fun s₁ log₁ hpost => ?_)
    obtain ⟨laid₁, hput, hs₁, h₁⟩ := hpost
    refine (ih h₁).mono fun s' log' hpost => ?_
    obtain ⟨l, hl, hs, h'⟩ := hpost
    refine ⟨{ l with outline := .piece (laid.cursor place) location p l.outline }, ?_, ?_, h'⟩
    · rw [Script.lay, hput, toOption_ok, Option.bind_some, hl]
      rfl
    · rw [← Script.after_piece, hs, hs₁]
      rfl
  | expansion call body rest ihb ihr =>
    refine .bind (.within call (.bind ?_))
    have hscope : s.outstanding around = State.outstanding (s.outstanding around)
        { s with labels := [], relocations := #[] } := by simp [State.outstanding]
    refine (ihb (hscope ▸ h)).mono fun inner log₁ hpost => ?_
    obtain ⟨b, hb, hinner, h₁⟩ := hpost
    refine .bind ((ensures_resolve h₁).mono fun resolved log₂ hpost => .pure ?_)
    obtain ⟨hresolved, h₂⟩ := hpost
    refine (ihr h₂).mono fun s' log' hpost => ?_
    obtain ⟨l, hl, hs, h'⟩ := hpost
    refine ⟨{ l with outline := .expansion b.outline l.outline }, ?_, ?_, h'⟩
    · rw [Script.lay, hb, Option.bind_some, hl]
      rfl
    · rw [← Script.after_expansion, hs, hresolved, hinner]
      simp [Script.after]

theorem ensures_file {catalog : Catalog} {file : Source.File} {l : Linkage}
    (h : Holds log laid l.image l.deferred.toList) :
    Ensures (l.traceAdd catalog file) log fun l' log =>
      ∃ y, (Script.ofFile catalog file).lay laid = some y ∧
        Holds log y.image l'.image l'.deferred.toList := by
  have hstart : Holds log laid l.image (State.outstanding l.deferred.toList (.start l.image)) := by
    rw [State.outstanding, State.start, List.append_nil]
    exact h
  refine .bind ((ensures_script hstart).mono fun s log₁ hpost => ?_)
  obtain ⟨y, hy, -, h₁⟩ := hpost
  have hdeferred : (Linkage.exports file.name s.labels s.globals.toList l).deferred = l.deferred := by
    rw [Linkage.exports_eq]
  have h₁ : Holds log₁ y.image s.image
      ([] ++ (Linkage.exports file.name s.labels s.globals.toList l).deferred.toList ++
        s.relocations.toList) := by
    rw [hdeferred]
    exact h₁
  refine .bind ((ensures_resolve h₁).mono fun resolved log₂ hpost => .pure ⟨y, hy, hpost.2⟩)

theorem ensures_files {catalog : Catalog} {files : List Source.File} {l : Linkage}
    (h : Holds log laid l.image l.deferred.toList) :
    Ensures (l.traceAddAll catalog files) log fun l' log =>
      ∃ os laid', Linkage.layAll catalog files laid = some (os, laid') ∧
        Holds log laid' l'.image l'.deferred.toList := by
  induction files generalizing log laid l with
  | nil => exact .pure ⟨[], laid, rfl, h⟩
  | cons file rest ih =>
    refine .bind ((ensures_file h).mono fun l₁ log₁ hpost => ?_)
    obtain ⟨y, hy, h₁⟩ := hpost
    refine (ih h₁).mono fun l' log' hpost => ?_
    obtain ⟨os, laid', hlay, h'⟩ := hpost
    refine ⟨y.outline :: os, laid', ?_, h'⟩
    rw [Linkage.layAll, hy, Option.bind_some, hlay]
    rfl

theorem ensures_link {l : Linkage} (h : Holds log laid l.image l.deferred.toList) :
    Ensures l.traceLink log fun p log =>
      ∃ image, image.memory = p.memory ∧ Holds log laid image [] := by
  unfold Linkage.traceLink
  split
  next => exact .throw h.sound
  next =>
    refine .bind ((ensures_resolve h).mono fun resolved log₁ hpost => ?_)
    refine .ofExcept hpost.2.sound fun p hp => ⟨resolved.1, ?_⟩
    unfold Linkage.finish at hp
    split at hp
    next => cases hp
    next hu =>
      cases hp
      have h' := hpost.2
      rw [hu] at h'
      exact ⟨rfl, h'⟩

theorem ensures_assemble (catalog : Catalog) (stackSize : Nat) (files : List Source.File) :
    Ensures (traceAssemble catalog stackSize files) ⟨[], []⟩ fun p log =>
      ∃ os laid image, Linkage.layAll catalog files (.empty stackSize) = some (os, laid) ∧
        image.memory = p.memory ∧ Holds log laid image [] := by
  refine .note_bind (.bind ?_)
  refine (ensures_files (Holds.start (.empty stackSize)).note).mono fun l log hpost => ?_
  obtain ⟨os, laid, hlay, h⟩ := hpost
  refine (ensures_link h).mono fun p log' hpost => ?_
  obtain ⟨image, hm, h'⟩ := hpost
  exact ⟨os, laid, image, hlay, hm, h'⟩

end

theorem Relocation.Separate.ne {r s : Relocation} (h : r.Separate s) : r ≠ s := by
  rintro rfl
  have := r.kind.size_pos
  unfold Separate Memory.Apart at h
  omega

/-- What an assembly writes down. -/
def logOf (catalog : Catalog) (stackSize : Nat) (files : List Source.File) : Log :=
  Traced.log (traceAssemble catalog stackSize files ⟨[], []⟩)

/-- At every point of an assembly the relocations outstanding are those of separate places in the room
taken. If it succeeds each of them has been applied once, their order makes no difference, and the memory
is used just as far as the lengths of the segments say. -/
theorem assemble_patches_once (catalog : Catalog) (stackSize : Nat) (files : List Source.File) :
    Traced.result (traceAssemble catalog stackSize files ⟨[], []⟩) =
        assemble catalog stackSize files ∧
      (∀ m ∈ (logOf catalog stackSize files).moments,
        m.outstanding.Pairwise Relocation.Separate ∧
          ∀ r ∈ m.outstanding, m.image.Inside r.address r.kind.size) ∧
      ∀ p, assemble catalog stackSize files = .ok p →
        (∀ m ∈ (logOf catalog stackSize files).moments, ∀ r ∈ m.outstanding,
          ((logOf catalog stackSize files).made.map (·.relocation)).count r = 1) ∧
        (∃ os laid, Linkage.layAll catalog files (.empty stackSize) = some (os, laid) ∧
          ∀ ps, ps.Perm (logOf catalog stackSize files).made →
            Patch.applyAll ps laid.memory = some p.memory) ∧
        Exact p := by
  have hresult := Traces.assemble catalog stackSize files ⟨[], []⟩
  refine ⟨hresult, ?_⟩
  unfold logOf
  obtain ⟨q, log, hr, os, laid, image, hlay, hm, h⟩ | ⟨e, log, hr, hs⟩ :=
    (ensures_assemble catalog stackSize files).ok_or_error
  · rw [hr] at hresult ⊢
    dsimp only [Traced.log]
    have hmade := h.separate
    have hknown := h.known
    rw [List.append_nil] at hmade hknown
    have hnodup : (log.made.map (·.relocation)).Nodup := hmade.imp Relocation.Separate.ne
    refine ⟨fun m hm => ⟨(h.sound m hm).separate, (h.sound m hm).inside⟩, fun p hp => ?_⟩
    obtain rfl : q = p := Except.ok.inj (hresult.trans hp)
    refine ⟨fun m hm r hr => List.count_eq_one_of_mem hnodup (hknown m hm r hr), ?_, exact_assemble hp⟩
    refine ⟨os, laid, hlay, fun ps hps => ?_⟩
    have hsep := List.pairwise_map.mp hmade
    rw [← Patch.applyAll_perm hps.symm hsep, ← hm]
    exact ((Image.patched_eq_some_iff ..).mp h.patched).1
  · rw [hr] at hresult ⊢
    dsimp only [Traced.log]
    refine ⟨fun m hm => ⟨(hs m hm).separate, (hs m hm).inside⟩, fun p hp => ?_⟩
    cases hresult.trans hp

/-- A macro with a jump and an address that wait for a label of the caller, and a word that waits for it
too. -/
def patchedFile : Source.File :=
  ⟨"a.s", ".macro m %x\nj %x\nla a0, %x\n.end_macro\nm e\ne: .data\n.word e"⟩

/-- All four are patched when the file ends, in the order of their places. -/
theorem assemble_patches_once_macro :
    ∃ p, assemble Catalog.builtin 0 [patchedFile] = .ok p ∧ Exact p ∧ p.textSize = 12 ∧
      (logOf Catalog.builtin 0 [patchedFile]).made.map (fun p => (p.relocation.address, p.target)) =
        [(0x400000, 0x40000c), (0x400004, 0x40000c), (0x400008, 0x40000c),
          (0x10010000, 0x40000c)] ∧
      ∀ m ∈ (logOf Catalog.builtin 0 [patchedFile]).moments, ∀ r ∈ m.outstanding,
        ((logOf Catalog.builtin 0 [patchedFile]).made.map (·.relocation)).count r = 1 := by
  have hok : (assemble Catalog.builtin 0 [patchedFile]).toOption.map (·.textSize) = some 12 := by
    decide +kernel
  obtain ⟨p, hp, htext⟩ := Option.map_eq_some_iff.mp hok
  rw [toOption_eq_some_iff] at hp
  obtain ⟨hcount, -, hexact⟩ := (assemble_patches_once Catalog.builtin 0 [patchedFile]).2.2 p hp
  exact ⟨p, hp, hexact, htext, by decide +kernel, hcount⟩

end RiscvToolkit.Assembly
