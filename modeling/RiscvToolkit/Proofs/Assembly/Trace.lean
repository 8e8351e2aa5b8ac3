import RiscvToolkit.Proofs.Assembly.Marks

/-! Traces of assemblies. An assembly writes down, after each change, the image and the relocations that are
still outstanding, in whatever scope or left to the link, and it writes down every patch. -/
namespace RiscvToolkit.Assembly

/-- A point of an assembly. -/
structure Moment where
  image : Image
  outstanding : List Relocation

/-- What is written down, in order. -/
structure Log where
  moments : List Moment
  made : List Patch

/-- Work that writes a log, also if it ends in an error. -/
abbrev Traced := EStateM Error Log

namespace Traced

def note (image : Image) (outstanding : List Relocation) : Traced Unit :=
  modify fun log => { log with moments := log.moments ++ [⟨image, outstanding⟩] }

def notePatch (p : Patch) : Traced Unit :=
  modify fun log => { log with made := log.made ++ [p] }

def ofExcept {α : Type} : Except Error α → Traced α
  | .ok a => pure a
  | .error e => throw e

/-- Adds a call, if any, to the trace of an error. -/
def within {α : Type} (call : Option Location) (x : Traced α) : Traced α := fun log =>
  match x log, call with
  | .error e log, some location => .error (e.within location) log
  | result, _ => result

/-- The result without the log. -/
def result {α : Type} : EStateM.Result Error Log α → Except Error α
  | .ok a _ => .ok a
  | .error e _ => .error e

def log {α : Type} : EStateM.Result Error Log α → Log
  | .ok _ log | .error _ log => log

end Traced

open Traced (note notePatch)

/-- The pieces that are placed one after the other: the words of a line, or a data item. -/
def Piece.parts : Piece → List Piece
  | .code words => words.map fun e => .code [e]
  | .datum stored => [.datum stored]

namespace State

/-- The relocations outstanding, with those outside of the scope. -/
def outstanding (around : List Relocation) (s : State) : List Relocation :=
  around ++ s.relocations.toList

/-- Places pieces one after the other. -/
def traceAdd (around : List Relocation) (place : Place) (location : Location) :
    List Piece → State → Traced State
  | [], s => pure s
  | p :: rest, s => do
    let s ← Traced.ofExcept (located location.line location.file (s.add place location p))
    note s.image (s.outstanding around)
    traceAdd around place location rest s

end State

/-- Applies relocations as `resolve` does. -/
def traceResolve (around : List Relocation) (labels : Symbols) (image : Image)
    (unresolved : Array Relocation) : List Relocation → Traced (Image × Array Relocation)
  | [] => pure (image, unresolved)
  | r :: rest =>
    match labels.lookup r.label with
    | none => traceResolve around labels image (unresolved.push r) rest
    | some target =>
      match r.kind.apply image.memory r.address target with
      | .ok memory => do
        let image := { image with memory }
        notePatch ⟨r, target⟩
        note image (around ++ unresolved.toList ++ rest)
        traceResolve around labels image unresolved rest
      | .error kind => throw ⟨kind, r.location, []⟩

namespace Script

/-- Does what a script says as `run` does; `around` is outstanding outside of the scope. -/
def trace (around : List Relocation) : Script → State → Traced State
  | done mode, s => pure { s with toMode := mode }
  | failed error, _ => throw error
  | label place name rest, s => rest.trace around (s.define place name)
  | globals names line rest, s => rest.trace around (s.declare names line)
  | piece place location p rest, s => do
    rest.trace around (← s.traceAdd around place location p.parts)
  | expansion call body rest, s => do
    let s ← Traced.within call do
      let inner ← body.trace (s.outstanding around) { s with labels := [], relocations := #[] }
      let (image, relocations) ←
        traceResolve around inner.labels inner.image s.relocations inner.relocations.toList
      return { inner with toMode := s.toMode, image, labels := s.labels, relocations }
    rest.trace around s

end Script

namespace Linkage

/-- Assembles a file as `add` does. -/
def traceAdd (catalog : Catalog) (file : Source.File) (l : Linkage) : Traced Linkage := do
  let s ← (Script.ofFile catalog file).trace l.deferred.toList (.start l.image)
  let l := exports file.name s.labels s.globals.toList l
  let (image, deferred) ← traceResolve [] s.labels s.image l.deferred s.relocations.toList
  return { l with image, deferred }

def traceAddAll (catalog : Catalog) : List Source.File → Linkage → Traced Linkage
  | [], l => pure l
  | file :: rest, l => do traceAddAll catalog rest (← l.traceAdd catalog file)

/-- What the link ends in. -/
def finish (l : Linkage) (memory : Memory) : List Relocation → Except Error Program
  | r :: _ => .error ⟨.unresolvedLabel r.label, r.location, []⟩
  | [] => .ok {
      memory
      entry := ((l.globals.lookup "main").getD (UInt32.ofNat textBase)).toUInt64
      textSize := l.image.textSize
      dataSize := l.image.dataSize
      globals := l.globals }

/-- Links as `link` does. -/
def traceLink (l : Linkage) : Traced Program :=
  match l.pending.toList.find? fun (name, _) => (l.globals.lookup name).isNone with
  | some (name, location) => throw ⟨.unresolvedLabel name, location, []⟩
  | none => do
    let (image, unresolved) ← traceResolve [] l.globals l.image #[] l.deferred.toList
    Traced.ofExcept (l.finish image.memory unresolved.toList)

end Linkage

/-- Assembles and links as `assemble` does. -/
def traceAssemble (catalog : Catalog) (stackSize : Nat) (files : List Source.File) :
    Traced Program := do
  let start : Linkage := ⟨.empty stackSize, [], #[], #[]⟩
  note start.image []
  (← start.traceAddAll catalog files).traceLink

/-! ### What is traced is what is done -/

/-- True of work that comes to a result, whatever the log. -/
def Traces {α : Type} (x : Traced α) (y : Except Error α) : Prop :=
  ∀ log, Traced.result (x log) = y

namespace Traces
variable {α β : Type}

theorem pure (a : α) : Traces (Pure.pure a) (.ok a) := fun _ => rfl

theorem throw (e : Error) : Traces (MonadExcept.throw e : Traced α) (.error e) := fun _ => rfl

theorem bind {x : Traced α} {y : Except Error α} {f : α → Traced β} {g : α → Except Error β}
    (h : Traces x y) (hf : ∀ a, Traces (f a) (g a)) : Traces (x >>= f) (y >>= g) := by
  intro log
  have hx := h log
  rw [bind_run]
  cases hr : x log with
  | ok a log' =>
    rw [hr] at hx
    rw [← hx]
    exact hf a log'
  | error e log' =>
    rw [hr] at hx
    rw [← hx]
    rfl

theorem congr {x : Traced α} {y z : Except Error α} (h : Traces x y) (hy : y = z) : Traces x z :=
  hy ▸ h

theorem note_bind {image : Image} {outstanding : List Relocation} {f : Unit → Traced β}
    {y : Except Error β} (h : Traces (f ()) y) : Traces (note image outstanding >>= f) y :=
  fun _ => h _

theorem notePatch_bind {p : Patch} {f : Unit → Traced β} {y : Except Error β}
    (h : Traces (f ()) y) : Traces (notePatch p >>= f) y :=
  fun _ => h _

theorem ofExcept (y : Except Error α) : Traces (Traced.ofExcept y) y := by
  cases y with
  | ok a => exact pure a
  | error e => exact throw e

theorem within {x : Traced α} {y : Except Error α} (call : Option Location) (h : Traces x y) :
    Traces (Traced.within call x) (Assembly.within call y) := by
  intro log
  have hx := h log
  unfold Traced.within Assembly.within
  cases hr : x log <;> rw [hr] at hx <;> rw [← hx] <;> cases call <;> rfl

end Traces

namespace State
variable (s : State) (place : Place) (location : Location)

theorem add_eq_map (p : Piece) :
    s.add place location p = (p.put place s.image).map fun image =>
      { s with
        image
        relocations := s.relocations ++ p.relocations location (s.image.cursor place) } := by
  unfold add
  cases p.put place s.image <;> rfl

theorem add_code_nil : s.add place location (.code []) = .ok s := by
  rw [add_eq_map]
  simp [Piece.put, Image.putWords, Piece.relocations, linksFrom, Except.map]

/-- The words of a line may be placed one after the other. -/
theorem add_code_cons (e : Emission) (rest : List Emission) :
    s.add place location (.code (e :: rest)) =
      (s.add place location (.code [e]) >>= (·.add place location (.code rest))) := by
  have hput (words : List Emission) : (Piece.code (e :: words)).put place s.image =
      (s.image.putWord place e.word >>= Image.putWords place words) := rfl
  rw [add_eq_map, add_eq_map _ _ _ (.code [e]), hput, hput]
  cases hp : s.image.putWord place e.word with
  | error e => rfl
  | ok i =>
    have hc : i.cursor place = s.image.cursor place + 4 := by
      rw [Image.cursor_put hp, LittleEndian.length_encode]
      rfl
    change _ = State.add _ place location (.code rest)
    rw [add_eq_map, ok_bind]
    change _ = Except.map _ (Image.putWords place rest i)
    congr 1
    funext image
    simp [Piece.relocations, linksFrom, hc, append_list_assoc]

end State

namespace Traces

/-- Pieces that come one after the other to the piece. -/
theorem traceAdd (around : List Relocation) (place : Place) (location : Location) (p : Piece)
    (s : State) :
    Traces (s.traceAdd around place location p.parts)
      (located location.line location.file (s.add place location p)) := by
  cases p with
  | datum stored =>
    have h := (ofExcept (located location.line location.file
      (s.add place location (.datum stored)))).bind (g := .ok)
        (f := fun s => note s.image (s.outstanding around) >>= fun _ => Pure.pure s)
        fun s => note_bind (pure s)
    exact h.congr (bind_pure _)
  | code words =>
    induction words generalizing s with
    | nil =>
      rw [State.add_code_nil]
      exact pure s
    | cons e rest ih =>
      rw [State.add_code_cons, located_bind]
      exact (ofExcept _).bind fun s => note_bind (ih s)

theorem traceResolve (around : List Relocation) (labels : Symbols) (image : Image)
    (unresolved : Array Relocation) (rs : List Relocation) :
    Traces (Assembly.traceResolve around labels image unresolved rs)
      ((resolve labels image.memory unresolved rs).map fun (memory, unresolved) =>
        ({ image with memory }, unresolved)) := by
  induction rs generalizing image unresolved with
  | nil => exact pure _
  | cons r rest ih =>
    unfold Assembly.traceResolve resolve
    cases labels.lookup r.label with
    | none => exact ih image _
    | some target =>
      dsimp only
      cases r.kind.apply image.memory r.address target with
      | error kind => exact throw _
      | ok memory => exact notePatch_bind (note_bind (ih { image with memory } unresolved))

theorem script (x : Script) (around : List Relocation) (s : State) :
    Traces (x.trace around s) (x.run s) := by
  induction x generalizing around s with
  | done mode => exact pure _
  | failed error => exact throw _
  | label place name rest ih => exact ih around _
  | globals names line rest ih => exact ih around _
  | piece place location p rest ih =>
    exact Traces.bind (traceAdd around place location p s) (ih around)
  | expansion call body rest ihb ihr =>
    refine (within call ?_).bind (ihr around)
    refine (ihb _ _).bind fun inner => ?_
    have h := (traceResolve around inner.labels inner.image s.relocations
      inner.relocations.toList).bind
        (g := fun (image, relocations) =>
          .ok { inner with toMode := s.toMode, image, labels := s.labels, relocations })
        fun _ => pure _
    refine h.congr ?_
    cases resolve inner.labels inner.image.memory s.relocations inner.relocations.toList <;> rfl

theorem add (catalog : Catalog) (file : Source.File) (l : Linkage) :
    Traces (l.traceAdd catalog file) (l.add catalog file) := by
  have hlines : (Script.ofFile catalog file).run (.start l.image) =
      assembleLines catalog file.name (Source.linesOf catalog file.text) (.start l.image) :=
    Script.run_ofLines catalog file.name _ (.start l.image)
  unfold Linkage.add
  dsimp only
  rw [← hlines]
  refine (script _ _ _).bind fun s => ?_
  let l' := Linkage.exports file.name s.labels s.globals.toList l
  have h := (traceResolve [] s.labels s.image l'.deferred s.relocations.toList).bind
    (g := fun (image, deferred) => .ok { l' with image, deferred }) fun _ => pure _
  refine h.congr ?_
  cases resolve s.labels s.image.memory l'.deferred s.relocations.toList <;> rfl

theorem addAll (catalog : Catalog) (files : List Source.File) (l : Linkage) :
    Traces (l.traceAddAll catalog files) (l.addAll catalog files) := by
  induction files generalizing l with
  | nil => exact pure l
  | cons file rest ih => exact Traces.bind (add catalog file l) ih

theorem link (l : Linkage) : Traces l.traceLink l.link := by
  unfold Linkage.traceLink Linkage.link
  cases l.pending.toList.find? fun (name, _) => (l.globals.lookup name).isNone with
  | some d => exact throw _
  | none =>
    have h := (traceResolve [] l.globals l.image #[] l.deferred.toList).bind
      (g := fun (image, unresolved) => l.finish image.memory unresolved.toList)
      fun _ => ofExcept _
    refine h.congr ?_
    cases resolve l.globals l.image.memory #[] l.deferred.toList with
    | error e => rfl
    | ok resolved =>
      obtain ⟨memory, unresolved⟩ := resolved
      change l.finish memory unresolved.toList = _
      rw [ok_bind]
      dsimp only
      cases unresolved.toList <;> rfl

/-- The trace of an assembly is that of the assembly. -/
theorem assemble (catalog : Catalog) (stackSize : Nat) (files : List Source.File) :
    Traces (traceAssemble catalog stackSize files) (Assembly.assemble catalog stackSize files) :=
  note_bind (Traces.bind (addAll catalog files _) link)

end Traces

end RiscvToolkit.Assembly
