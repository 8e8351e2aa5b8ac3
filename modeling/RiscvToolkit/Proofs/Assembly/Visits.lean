import RiscvToolkit.Proofs.Assembly.Packed
import RiscvToolkit.Proofs.Assembly.Raised
import RiscvToolkit.Proofs.Assembly.Trace

/-! The points of an assembly. Between two words of a line, between two items, in whatever expansion: every point that
an assembly comes to, with all that has been placed on the way. An assembly that fails does so at one of its points, or
in the link behind them. -/
namespace RiscvToolkit.Assembly

/-! ### Room -/

/-- The bytes that pieces take in a segment. -/
def total (place : Place) (ps : List (Place × Piece)) : Nat :=
  (ps.map fun (q, p) => if place = q then p.size else 0).sum

@[simp] theorem total_nil (place : Place) : total place [] = 0 := rfl

@[simp] theorem total_cons (place q : Place) (p : Piece) (ps : List (Place × Piece)) :
    total place ((q, p) :: ps) = (if place = q then p.size else 0) + total place ps := rfl

@[simp] theorem total_append (place : Place) (ps qs : List (Place × Piece)) :
    total place (ps ++ qs) = total place ps + total place qs := by
  simp [total]

theorem State.put_of_add_error {s : State} {place : Place} {location : Location} {p : Piece}
    {kind : ErrorKind} (h : s.add place location p = .error kind) :
    p.put place s.image = .error kind := by
  rw [add_eq_map] at h
  cases hp : p.put place s.image with
  | error error =>
    rw [hp] at h
    cases h
    rfl
  | ok image =>
    rw [hp] at h
    cases h

theorem State.used_add {s s' : State} {place : Place} {location : Location} {p : Piece}
    (h : s.add place location p = .ok s') (q : Place) :
    s'.image.used q = s.image.used q + if q = place then p.size else 0 := by
  obtain ⟨image, hput, rfl⟩ := exists_of_add h
  exact Piece.used_put hput q

/-! ### Errors -/

/-- True of work that ends in an error of this kind and place, with whatever trace. -/
def FailsAt {α : Type} (x : Except Error α) (kind : ErrorKind) (location : Location) : Prop :=
  ∃ trace, x = .error ⟨kind, location, trace⟩

namespace FailsAt
variable {α β : Type} {kind : ErrorKind} {location : Location}

@[simp] theorem not_ok (a : α) : ¬FailsAt (.ok a : Except Error α) kind location := by
  rintro ⟨trace, h⟩
  cases h

theorem bind_iff (x : Except Error α) (f : α → Except Error β) :
    FailsAt (x >>= f) kind location ↔
      FailsAt x kind location ∨ ∃ a, x = .ok a ∧ FailsAt (f a) kind location := by
  cases x with
  | ok a => simp
  | error e => simp [FailsAt]

theorem of_bind {x : Except Error α} {f : α → Except Error β}
    (h : FailsAt (x >>= f) kind location) (hx : ∀ a, x ≠ .ok a) : FailsAt x kind location :=
  ((bind_iff x f).mp h).resolve_right fun ⟨a, ha, _⟩ => hx a ha

theorem within_iff (call : Option Location) (x : Except Error α) :
    FailsAt (within call x) kind location ↔ FailsAt x kind location := by
  constructor
  · rintro ⟨trace, h⟩
    obtain ⟨⟨k, l, t⟩, rfl, rfl, rfl⟩ := error_of_within h
    exact ⟨t, rfl⟩
  · rintro ⟨trace, rfl⟩
    cases call with
    | none => exact ⟨trace, rfl⟩
    | some call => exact ⟨trace ++ [call], rfl⟩

/-- The end of a block fails by its patches, whatever relocations it hands over. -/
theorem resolve_bind_iff {labels : Symbols} {m : Memory} {us : Array Relocation}
    {rs : List Relocation} {f : Memory × Array Relocation → Except Error α}
    (hf : ∀ resolved, ∃ a, f resolved = .ok a) :
    FailsAt (resolve labels m us rs >>= f) kind location ↔
      FailsAt (resolve labels m #[] rs) kind location := by
  rw [bind_iff]
  constructor
  · rintro (⟨trace, h⟩ | ⟨resolved, -, h⟩)
    · exact ⟨trace, resolve_error_of_unresolved h⟩
    · obtain ⟨a, ha⟩ := hf resolved
      rw [ha] at h
      exact absurd h (not_ok a)
  · rintro ⟨trace, h⟩
    exact .inl ⟨trace, resolve_error_of_unresolved h⟩

end FailsAt

namespace Script

/-- Does what a block says and puts its labels in, as the end of an expansion and that of a file do. -/
def runBlock (x : Script) (s : State) : Except Error (Memory × Array Relocation) := do
  let t ← x.run s
  resolve t.labels t.image.memory #[] t.relocations.toList

theorem failsAt_inScope {x : Script} {s : State} {kind : ErrorKind} {location : Location} :
    FailsAt (inScope x.run s) kind location ↔
      FailsAt (x.runBlock { s with labels := [], relocations := #[] }) kind location := by
  unfold inScope runBlock
  rw [FailsAt.bind_iff, FailsAt.bind_iff]
  exact or_congr_right (exists_congr fun t => and_congr_right fun _ =>
    FailsAt.resolve_bind_iff fun resolved => ⟨_, rfl⟩)

/-! ### Points of a script -/

/-- The pieces that a script places, word by word. -/
def placed : Script → List (Place × Piece)
  | done _ | failed _ => []
  | label _ _ rest | globals _ _ rest => rest.placed
  | piece place _ p rest => p.parts.map (place, ·) ++ rest.placed
  | expansion _ body rest => body.placed ++ rest.placed

/-- `x.Comes s ps y t`: doing what `x` says from state `s` on comes to state `t`, where `y` is left to do of the innermost
block; `ps` has been placed on the way. -/
inductive Comes : Script → State → List (Place × Piece) → Script → State → Prop
  | here {x s} : Comes x s [] x s
  | label {place name rest s ps y t} (h : Comes rest (s.define place name) ps y t) :
    Comes (label place name rest) s ps y t
  | globals {names line rest s ps y t} (h : Comes rest (s.declare names line) ps y t) :
    Comes (globals names line rest) s ps y t
  | words {place location rest s ps y t} (h : Comes rest s ps y t) :
    Comes (piece place location (.code []) rest) s ps y t
  | word {place location e words rest s s' ps y t}
    (hs : s.add place location (.code [e]) = .ok s')
    (h : Comes (piece place location (.code words) rest) s' ps y t) :
    Comes (piece place location (.code (e :: words)) rest) s ((place, .code [e]) :: ps) y t
  | datum {place location stored rest s s' ps y t}
    (hs : s.add place location (.datum stored) = .ok s') (h : Comes rest s' ps y t) :
    Comes (piece place location (.datum stored) rest) s ((place, .datum stored) :: ps) y t
  | body {call body rest s ps y t}
    (h : Comes body { s with labels := [], relocations := #[] } ps y t) :
    Comes (expansion call body rest) s ps y t
  | rest {call body rest s s' ps y t} (hs : inScope body.run s = .ok s')
    (h : Comes rest s' ps y t) :
    Comes (expansion call body rest) s (body.placed ++ ps) y t

/-- The piece that comes next, with its segment and its line. -/
def item? : Script → Option (Place × Location × Piece)
  | piece place location p _ => p.parts.head?.map (place, location, ·)
  | _ => none

/-- `y.Stops t kind location`: in state `t` an error is raised by what `y` says next, or at the end of a block by its
labels. -/
inductive Stops : Script → State → ErrorKind → Location → Prop
  | failed {kind location trace t} : Stops (failed ⟨kind, location, trace⟩) t kind location
  | item {y place location p t kind} (hy : y.item? = some (place, location, p))
    (hp : t.add place location p = .error kind) : Stops y t kind location
  | patches {mode t kind location}
    (h : FailsAt (resolve t.labels t.image.memory #[] t.relocations.toList) kind location) :
    Stops (done mode) t kind location

/-- What is true of all scripts follows by an induction that takes the words of a line one by one. -/
@[elab_as_elim]
theorem word_induction {motive : Script → Prop} (done : ∀ mode, motive (done mode))
    (failed : ∀ error, motive (failed error))
    (label : ∀ place name rest, motive rest → motive (label place name rest))
    (globals : ∀ names line rest, motive rest → motive (globals names line rest))
    (words : ∀ place location rest, motive rest → motive (piece place location (.code []) rest))
    (word : ∀ place location e words rest, motive (piece place location (.code words) rest) →
      motive (piece place location (.code (e :: words)) rest))
    (datum : ∀ place location stored rest, motive rest →
      motive (piece place location (.datum stored) rest))
    (expansion : ∀ call body rest, motive body → motive rest →
      motive (expansion call body rest)) (x : Script) : motive x := by
  induction x with
  | done mode => exact done mode
  | failed error => exact failed error
  | label place name rest ih => exact label place name rest ih
  | globals names line rest ih => exact globals names line rest ih
  | piece place location p rest ih =>
    cases p with
    | datum stored => exact datum place location stored rest ih
    | code es =>
      induction es with
      | nil => exact words place location rest ih
      | cons e es ihe => exact word place location e es rest ihe
  | expansion call body rest ihb ihr => exact expansion call body rest ihb ihr

section
variable {place : Place} {location : Location} {rest : Script} {s s' : State}

theorem run_words : (piece place location (.code []) rest).run s = rest.run s := by
  simp only [run]
  rw [State.add_code_nil]
  rfl

theorem run_word {e : Emission} {words : List Emission}
    (h : s.add place location (.code [e]) = .ok s') :
    (piece place location (.code (e :: words)) rest).run s =
      (piece place location (.code words) rest).run s' := by
  simp only [run]
  rw [State.add_code_cons, h]
  rfl

theorem run_datum {stored : Stored} (h : s.add place location (.datum stored) = .ok s') :
    (piece place location (.datum stored) rest).run s = rest.run s' := by
  simp only [run]
  rw [h]
  rfl

theorem run_of_inScope {call : Option Location} {body : Script}
    (h : inScope body.run s = .ok s') : (expansion call body rest).run s = rest.run s' := by
  simp only [run]
  rw [h]
  cases call <;> rfl

/-- A script fails with an item that there is no room for. -/
theorem run_of_item {y : Script} {p : Piece} {kind : ErrorKind}
    (hy : y.item? = some (place, location, p)) (hp : s.add place location p = .error kind) :
    y.run s = .error ⟨kind, location, []⟩ := by
  cases y with
  | piece q l p' rest =>
    cases p' with
    | datum stored =>
      cases hy
      simp only [run]
      rw [hp]
      rfl
    | code words =>
      cases words with
      | nil => cases hy
      | cons e words =>
        cases hy
        simp only [run]
        rw [State.add_code_cons, hp]
        rfl
  | _ => cases hy

end

/-- A script that is done comes to its end, with all pieces placed. -/
theorem comes_of_run {x : Script} {s s' : State} (h : x.run s = .ok s') :
    ∃ mode t, x.Comes s x.placed (done mode) t ∧ s' = { t with toMode := mode } := by
  induction x using word_induction generalizing s s' with
  | done mode =>
    cases h
    exact ⟨mode, s, .here, rfl⟩
  | failed error => cases h
  | label place name rest ih =>
    obtain ⟨mode, t, hc, ht⟩ := ih (s := s.define place name) h
    exact ⟨mode, t, .label hc, ht⟩
  | globals names line rest ih =>
    obtain ⟨mode, t, hc, ht⟩ := ih (s := s.declare names line) h
    exact ⟨mode, t, .globals hc, ht⟩
  | words place location rest ih =>
    rw [run_words] at h
    obtain ⟨mode, t, hc, ht⟩ := ih h
    exact ⟨mode, t, .words hc, ht⟩
  | word place location e words rest ih =>
    cases hp : s.add place location (.code [e]) with
    | error kind => cases (run_of_item rfl hp).symm.trans h
    | ok s₁ =>
      rw [run_word hp] at h
      obtain ⟨mode, t, hc, ht⟩ := ih h
      exact ⟨mode, t, .word hp hc, ht⟩
  | datum place location stored rest ih =>
    cases hp : s.add place location (.datum stored) with
    | error kind => cases (run_of_item rfl hp).symm.trans h
    | ok s₁ =>
      rw [run_datum hp] at h
      obtain ⟨mode, t, hc, ht⟩ := ih h
      exact ⟨mode, t, .datum hp hc, ht⟩
  | expansion call body rest ihb ihr =>
    obtain ⟨s₁, hb, hrest⟩ := ok_of_run_expansion h
    obtain ⟨mode, t, hc, ht⟩ := ihr hrest
    exact ⟨mode, t, .rest hb hc, ht⟩

/-- The bytes taken at a point are those of the pieces placed on the way. -/
theorem Comes.used {x y : Script} {s t : State} {ps : List (Place × Piece)}
    (h : x.Comes s ps y t) (place : Place) :
    t.image.used place = s.image.used place + total place ps := by
  -- on the script, not on the way: that a body is done is told by its run alone
  induction x using word_induction generalizing s ps y t with
  | done mode | failed error =>
    cases h
    rfl
  | label q name rest ih =>
    cases h with
    | here => rfl
    | label h => exact (ih h :)
  | globals names line rest ih =>
    cases h with
    | here => rfl
    | globals h => exact (ih h :)
  | words q location rest ih =>
    cases h with
    | here => rfl
    | words h => exact ih h
  | word q location e words rest ih =>
    cases h with
    | here => rfl
    | word hs h => rw [ih h, State.used_add hs, total_cons, Nat.add_assoc]
  | datum q location stored rest ih =>
    cases h with
    | here => rfl
    | datum hs h => rw [ih h, State.used_add hs, total_cons, Nat.add_assoc]
  | expansion call body rest ihb ihr =>
    cases h with
    | here => rfl
    | body h => exact (ihb h :)
    | rest hs h =>
      obtain ⟨inner, memory, hinner, rfl⟩ := exists_of_inScope hs
      obtain ⟨mode, u, hu, rfl⟩ := comes_of_run hinner
      have hbody : u.image.used place = s.image.used place + total place body.placed := (ihb hu :)
      rw [ihr h, total_append, ← Nat.add_assoc, ← hbody, Image.used_memory]

theorem used_run {x : Script} {s s' : State} (h : x.run s = .ok s') (place : Place) :
    s'.image.used place = s.image.used place + total place x.placed := by
  obtain ⟨mode, t, hc, rfl⟩ := comes_of_run h
  exact hc.used place

/-! ### Errors of a block -/

theorem runBlock_of_run {x y : Script} {s t : State} (h : x.run s = y.run t) :
    x.runBlock s = y.runBlock t := by
  unfold runBlock
  rw [h]

section
variable {x y : Script} {s t : State} {ps : List (Place × Piece)} {kind : ErrorKind}
variable {location : Location}

/-- What is raised at a point is what the block fails with. -/
theorem Comes.failsAt (h : x.Comes s ps y t) (hy : y.Stops t kind location) :
    FailsAt (x.runBlock s) kind location := by
  induction h with
  | here =>
    cases hy with
    | failed => exact ⟨_, rfl⟩
    | item hy hp =>
      refine ⟨[], ?_⟩
      unfold runBlock
      rw [run_of_item hy hp]
      rfl
    | patches h => exact h
  | label h ih => exact ih hy
  | globals h ih => exact ih hy
  | words h ih =>
    rw [runBlock_of_run run_words]
    exact ih hy
  | word hs h ih =>
    rw [runBlock_of_run (run_word hs)]
    exact ih hy
  | datum hs h ih =>
    rw [runBlock_of_run (run_datum hs)]
    exact ih hy
  | body h ih =>
    unfold runBlock
    simp only [run]
    rw [FailsAt.bind_iff, FailsAt.bind_iff, FailsAt.within_iff, failsAt_inScope]
    exact .inl (.inl (ih hy))
  | rest hs h ih =>
    rw [runBlock_of_run (run_of_inScope hs)]
    exact ih hy

private theorem stops_of_item {place : Place} {l : Location} {p : Piece} {error : ErrorKind}
    (hy : y.item? = some (place, l, p)) (hp : s.add place l p = .error error)
    (h : FailsAt (y.runBlock s) kind location) : y.Stops s kind location := by
  unfold runBlock at h
  rw [run_of_item hy hp] at h
  obtain ⟨trace, h⟩ := h
  cases h
  exact .item hy hp

/-- A block that fails comes to a point where what it fails with is raised. -/
theorem exists_stops (h : FailsAt (x.runBlock s) kind location) :
    ∃ ps y t, x.Comes s ps y t ∧ y.Stops t kind location := by
  induction x using word_induction generalizing s with
  | done mode => exact ⟨[], _, s, .here, .patches h⟩
  | failed error =>
    obtain ⟨trace, h⟩ := h
    cases h
    exact ⟨[], _, s, .here, .failed⟩
  | label place name rest ih =>
    obtain ⟨ps, y, t, hc, hy⟩ := ih (s := s.define place name) h
    exact ⟨ps, y, t, .label hc, hy⟩
  | globals names line rest ih =>
    obtain ⟨ps, y, t, hc, hy⟩ := ih (s := s.declare names line) h
    exact ⟨ps, y, t, .globals hc, hy⟩
  | words place l rest ih =>
    rw [runBlock_of_run run_words] at h
    obtain ⟨ps, y, t, hc, hy⟩ := ih h
    exact ⟨ps, y, t, .words hc, hy⟩
  | word place l e words rest ih =>
    cases hp : s.add place l (.code [e]) with
    | error kind' => exact ⟨[], _, s, .here, stops_of_item rfl hp h⟩
    | ok s' =>
      rw [runBlock_of_run (run_word hp)] at h
      obtain ⟨ps, y, t, hc, hy⟩ := ih h
      exact ⟨_, y, t, .word hp hc, hy⟩
  | datum place l stored rest ih =>
    cases hp : s.add place l (.datum stored) with
    | error kind' => exact ⟨[], _, s, .here, stops_of_item rfl hp h⟩
    | ok s' =>
      rw [runBlock_of_run (run_datum hp)] at h
      obtain ⟨ps, y, t, hc, hy⟩ := ih h
      exact ⟨_, y, t, .datum hp hc, hy⟩
  | expansion call body rest ihb ihr =>
    cases hb : inScope body.run s with
    | ok s' =>
      rw [runBlock_of_run (run_of_inScope hb)] at h
      obtain ⟨ps, y, t, hc, hy⟩ := ihr h
      exact ⟨_, y, t, .rest hb hc, hy⟩
    | error error =>
      have hnot (a : State) : within call (inScope body.run s) ≠ .ok a := by
        intro ha
        cases hb.symm.trans (ok_of_within ha)
      unfold runBlock at h
      simp only [run] at h
      rw [LawfulMonad.bind_assoc] at h
      have hbody := (FailsAt.within_iff call _).mp (h.of_bind hnot)
      obtain ⟨ps, y, t, hc, hy⟩ := ihb (failsAt_inScope.mp hbody)
      exact ⟨ps, y, t, .body hc, hy⟩

end

end Script

/-! ### Files -/

/-- The pieces that files place, one file behind the other. -/
def placedIn (catalog : Catalog) (files : List Source.File) : List (Place × Piece) :=
  files.flatMap fun file => (Script.ofFile catalog file).placed

/-- `Visits catalog stackSize files ps y t`: an assembly comes to state `t` within one of the files, where `y` is left to
do of the innermost block; `ps` has been placed before, in this file and in those in front of it. -/
inductive Visits (catalog : Catalog) (stackSize : Nat) :
    List Source.File → List (Place × Piece) → Script → State → Prop
  | intro {before file after l ps y t}
    (hl : Linkage.addAll catalog before ⟨.empty stackSize, [], #[], #[]⟩ = .ok l)
    (h : (Script.ofFile catalog file).Comes (.start l.image) ps y t) :
    Visits catalog stackSize (before ++ file :: after) (placedIn catalog before ++ ps) y t

section
variable {catalog : Catalog} {stackSize : Nat} {file : Source.File} {files : List Source.File}
variable {l l' : Linkage} {kind : ErrorKind} {location : Location}

/-- The points of the first file. -/
theorem Visits.first {ps : List (Place × Piece)} {y : Script} {t : State}
    (h : (Script.ofFile catalog file).Comes (.start (.empty stackSize)) ps y t) :
    Visits catalog stackSize (file :: files) ps y t := by
  have hempty : Linkage.addAll catalog [] ⟨.empty stackSize, [], #[], #[]⟩ =
      .ok ⟨.empty stackSize, [], #[], #[]⟩ := rfl
  have hv : Visits catalog stackSize ([] ++ file :: files) (placedIn catalog [] ++ ps) y t :=
    .intro hempty h
  exact hv

theorem Linkage.failsAt_add :
    FailsAt (l.add catalog file) kind location ↔
      FailsAt ((Script.ofFile catalog file).runBlock (.start l.image)) kind location := by
  rw [add_eq]
  unfold Script.runBlock
  rw [FailsAt.bind_iff, FailsAt.bind_iff]
  exact or_congr_right (exists_congr fun s => and_congr_right fun _ =>
    FailsAt.resolve_bind_iff fun resolved => ⟨_, rfl⟩)

theorem Linkage.failsAt_addAll :
    FailsAt (addAll catalog files l) kind location ↔
      ∃ before file after l', files = before ++ file :: after ∧
        addAll catalog before l = .ok l' ∧ FailsAt (l'.add catalog file) kind location := by
  constructor
  · rintro ⟨trace, h⟩
    obtain ⟨before, file, after, l', hfiles, hb, he⟩ := exists_add_of_error h
    exact ⟨before, file, after, l', hfiles, hb, trace, he⟩
  · rintro ⟨before, file, after, l', rfl, hb, h⟩
    rw [addAll_append, hb, ok_bind, addAll, FailsAt.bind_iff]
    exact .inl h

theorem Linkage.used_addAll (h : addAll catalog files l = .ok l') (place : Place) :
    l'.image.used place = l.image.used place + total place (placedIn catalog files) := by
  induction files generalizing l with
  | nil =>
    cases h
    rfl
  | cons file rest ih =>
    simp only [addAll] at h
    obtain ⟨l₁, ha, h⟩ := bind_eq_ok_iff.mp h
    obtain ⟨s, memory, hs, rfl⟩ := exists_of_add ha
    have hfile : s.image.used place =
        l.image.used place + total place (Script.ofFile catalog file).placed :=
      Script.used_run hs place
    have hcons : placedIn catalog (file :: rest) =
        (Script.ofFile catalog file).placed ++ placedIn catalog rest := rfl
    rw [ih h, Image.used_memory, hfile, hcons, total_append, Nat.add_assoc]

/-- The bytes that a segment takes at a point are those of the pieces placed before. -/
theorem Visits.used {ps : List (Place × Piece)} {y : Script} {t : State}
    (h : Visits catalog stackSize files ps y t) (place : Place) :
    t.image.used place = total place ps := by
  cases h with
  | intro hl h =>
    have hbefore := Linkage.used_addAll hl place
    have hstart : (Image.empty stackSize).used place = 0 := by cases place <;> rfl
    rw [h.used, total_append, State.start, hbefore, hstart, Nat.zero_add]

/-- An assembly fails at one of its points or in the link. -/
theorem failsAt_assemble :
    FailsAt (assemble catalog stackSize files) kind location ↔
      (∃ ps y t, Visits catalog stackSize files ps y t ∧ y.Stops t kind location) ∨
      ∃ l, Linkage.addAll catalog files ⟨.empty stackSize, [], #[], #[]⟩ = .ok l ∧
        FailsAt l.link kind location := by
  unfold assemble
  dsimp only
  rw [FailsAt.bind_iff, Linkage.failsAt_addAll]
  refine or_congr_left ⟨?_, ?_⟩
  · rintro ⟨before, file, after, l, rfl, hl, h⟩
    obtain ⟨ps, y, t, hc, hy⟩ := Script.exists_stops (Linkage.failsAt_add.mp h)
    exact ⟨_, y, t, .intro hl hc, hy⟩
  · rintro ⟨-, y, t, ⟨hl, hc⟩, hy⟩
    exact ⟨_, _, _, _, rfl, hl, Linkage.failsAt_add.mpr (hc.failsAt hy)⟩

end

end RiscvToolkit.Assembly
