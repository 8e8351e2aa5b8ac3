import RiscvToolkit.Assembly.Program
import RiscvToolkit.Proofs.Except

/-! Scripts. What the lines of a block place, bind and declare does not depend on the image that they are
assembled into; a script says it without an image, and assembling is running the script. -/
namespace RiscvToolkit.Assembly
open Source (Operand Operands)

section
variable {s s' : State}

theorem State.exists_of_add {place : Place} {location : Location} {p : Piece}
    (h : s.add place location p = .ok s') :
    ∃ image, p.put place s.image = .ok image ∧ s' = { s with
      image
      relocations := s.relocations ++ p.relocations location (s.image.cursor place) } := by
  unfold State.add at h
  obtain ⟨image, hp, h⟩ := bind_eq_ok_iff.mp h
  cases h
  exact ⟨image, hp, rfl⟩

/-- What a body leaves behind it, and what of that goes on. -/
theorem ok_of_inScope {body : State → Except Error State} (h : inScope body s = .ok s') :
    ∃ inner resolved, body { s with labels := [], relocations := #[] } = .ok inner ∧
      resolve inner.labels inner.image.memory s.relocations inner.relocations.toList =
        .ok resolved ∧
      s' = { s with
        image := { inner.image with memory := resolved.1 }
        globals := inner.globals
        relocations := resolved.2 } := by
  unfold inScope at h
  obtain ⟨inner, hb, h⟩ := bind_eq_ok_iff.mp h
  obtain ⟨resolved, hr, h⟩ := bind_eq_ok_iff.mp h
  cases h
  exact ⟨inner, resolved, hb, hr, rfl⟩

end

inductive Script where
  /-- The end of a block, in this mode. -/
  | done (mode : Mode)
  | failed (error : Error)
  | label (place : Place) (name : String) (rest : Script)
  | globals (names : List String) (line : Nat) (rest : Script)
  | piece (place : Place) (location : Location) (piece : Piece) (rest : Script)
  /-- A call that assembles `body` in a scope of its own. -/
  | expansion (call : Option Location) (body rest : Script)

namespace Script

/-- The script that goes on where the first ends. -/
def bind : Script → (Mode → Script) → Script
  | done mode, next => next mode
  | failed error, _ => failed error
  | label place name rest, next => label place name (rest.bind next)
  | globals names line rest, next => globals names line (rest.bind next)
  | piece place location p rest, next => piece place location p (rest.bind next)
  | expansion call body rest, next => expansion call body (rest.bind next)

/-- Does what a script says. -/
def run : Script → State → Except Error State
  | done mode, s => .ok { s with toMode := mode }
  | failed error, _ => .error error
  | label place name rest, s => rest.run (s.define place name)
  | globals names line rest, s => rest.run (s.declare names line)
  | piece place location p rest, s => do
    rest.run (← located location.line location.file (s.add place location p))
  | expansion call body rest, s => do rest.run (← within call (inScope body.run s))

/-- Goes on with a result unless there is none. -/
def check {α : Type} (line : Nat) (file : String) (result : Except ErrorKind α)
    (next : α → Script) : Script :=
  match result with
  | .ok a => next a
  | .error kind => failed ⟨kind, ⟨line, file⟩, []⟩

/-- The script of a line that a mnemonic has been read from. -/
def ofInstruction (expand : Expansion → Mode → Script) (c : Context) (line : Nat) (entry : Entry)
    (ops : Operands) (m : Mode) : Script :=
  match entry with
  | ⟨name, .template params body⟩ =>
    check line c.file (templateCall c.catalog line name params body ops) (expand · m)
  | ⟨_, encoding⟩ =>
    let code := encode encoding ops
    piece m.place ⟨line, c.file⟩ (.code code.words)
      (match code.failure with
      | none => done m
      | some kind => failed ⟨kind, ⟨line, c.file⟩, []⟩)

/-- The script of a data item, and of what comes behind it. -/
def ofDatum (c : Context) (line : Nat) (item : Datum) (m : Mode) (rest : Script) : Script :=
  check line c.file (m.store item) fun stored =>
    piece .data ⟨line, c.file⟩ (.datum stored) rest

/-- The script of the rest of a line. -/
def ofOperands (expand : Expansion → Mode → Script) (c : Context) (line : Nat) :
    Operands → Mode → Script
  | .done, m => done m
  | .failed kind, _ => failed ⟨kind, ⟨line, c.file⟩, []⟩
  | .next (.label name) rest, m => label m.place name (ofOperands expand c line rest m)
  | .next (.directive name) rest, m =>
    if Directive.ofName? name = some .global then
      check line c.file (globalNames name rest) fun names => globals names line (done m)
    else check line c.file (applyDirective name m) (ofOperands expand c line rest)
  | .next (.instruction entry) rest, m => ofInstruction expand c line entry rest m
  | .next (.register r) _, _ =>
    failed ⟨.loneRegister (c.catalog.reg r.regClass r.index), ⟨line, c.file⟩, []⟩
  | .next (.placeholder name) _, _ => failed ⟨.unboundVariable name, ⟨line, c.file⟩, []⟩
  | .next (.group _) _, _ => failed ⟨.strayParenthesis, ⟨line, c.file⟩, []⟩
  | .next (.symbol name) rest, m =>
    match m.macros.lookup name with
    | some definition => check line c.file (macroCall line name definition rest) (expand · m)
    | none => ofDatum c line (.label name) m (ofOperands expand c line rest m)
  | .next (.int value) rest, m => ofDatum c line (.int value) m (ofOperands expand c line rest m)
  | .next (.float value) rest, m =>
    ofDatum c line (.float value) m (ofOperands expand c line rest m)
  | .next (.string text) rest, m =>
    ofDatum c line (.string text) m (ofOperands expand c line rest m)

/-- The script of what stands in a block. -/
def ofItems (expand : Expansion → Mode → Script) (c : Context) :
    List Source.Item → Mode → Script
  | [], m => done m
  | .definition number result :: rest, m =>
    check number c.file result fun named =>
      ofItems expand c rest { m with macros := named :: m.macros }
  | .line l :: rest, m =>
    (ofOperands expand c l.number (Source.operands c.bindings l.tokens) m).bind
      (ofItems expand c rest)

/-- The script of a call, while at most `depth` calls are active below. -/
def ofExpansion (catalog : Catalog) (file : String) : Nat → Expansion → Mode → Script
  | 0, e, _ => failed ⟨.expansionTooDeep maxDepth, ⟨e.line, file⟩, []⟩
  | depth + 1, e, m =>
    expansion (e.call? file)
      (ofItems (ofExpansion catalog file depth) (e.context catalog file) (Source.items e.body) m)
      (done m)

/-- The script of the lines of a file. -/
def ofLines (catalog : Catalog) (file : String) (lines : List Source.Line) (m : Mode) : Script :=
  ofItems (ofExpansion catalog file maxDepth) ⟨catalog, file, []⟩ (Source.items lines) m

def ofFile (catalog : Catalog) (file : Source.File) : Script :=
  ofLines catalog file.name (Source.linesOf catalog file.text) .start

private theorem add_toMode (s : State) (m : Mode) (place : Place) (location : Location)
    (p : Piece) :
    State.add { s with toMode := m } place location p =
      (s.add place location p).map ({ · with toMode := m }) := by
  unfold State.add
  dsimp only
  cases p.put place s.image <;> rfl

private theorem inScope_toMode (body : Script) (s : State) (m : Mode)
    (ih : ∀ s, body.run { s with toMode := m } = body.run s) :
    inScope body.run { s with toMode := m } =
      (inScope body.run s).map ({ · with toMode := m }) := by
  have hb := ih { s with labels := [], relocations := #[] }
  unfold inScope
  dsimp only at hb ⊢
  rw [hb]
  cases body.run { s with labels := [], relocations := #[] } with
  | error e => rfl
  | ok inner =>
    rw [ok_bind, ok_bind]
    cases resolve inner.labels inner.image.memory s.relocations inner.relocations.toList <;> rfl

/-- The mode of a state is what a script is made from, not what it runs in. -/
theorem run_toMode (x : Script) (s : State) (m : Mode) :
    x.run { s with toMode := m } = x.run s := by
  induction x generalizing s m with
  | done mode => rfl
  | failed error => rfl
  | label place name rest ih => exact ih (s.define place name) m
  | globals names line rest ih => exact ih (s.declare names line) m
  | piece place location p rest ih =>
    simp only [run]
    rw [add_toMode, located_map]
    cases located location.line location.file (s.add place location p) with
    | error e => rfl
    | ok s' => exact ih s' m
  | expansion call body rest hb hr =>
    simp only [run]
    rw [inScope_toMode body s m (fun s => hb s m), within_map]
    cases within call (inScope body.run s) with
    | error e => rfl
    | ok s' => exact hr s' m

theorem run_bind (x : Script) (next : Mode → Script) (s : State) :
    (x.bind next).run s = (x.run s >>= fun s' => (next s'.toMode).run s') := by
  induction x generalizing s with
  | done mode => exact ((next mode).run_toMode s mode).symm
  | failed error => rfl
  | label place name rest ih => exact ih _
  | globals names line rest ih => exact ih _
  | piece place location p rest ih =>
    simp only [bind, run]
    cases located location.line location.file (s.add place location p) with
    | error e => rfl
    | ok s' => exact ih s'
  | expansion call body rest _ ih =>
    simp only [bind, run]
    cases within call (inScope body.run s) with
    | error e => rfl
    | ok s' => exact ih s'

theorem run_check {α : Type} (line : Nat) (file : String) (result : Except ErrorKind α)
    (next : α → Script) (s : State) :
    (check line file result next).run s = (located line file result >>= (next · |>.run s)) := by
  cases result <;> rfl

theorem ok_of_run_piece {s s' : State} {place : Place} {location : Location} {p : Piece}
    {rest : Script} (h : (piece place location p rest).run s = .ok s') :
    ∃ t, s.add place location p = .ok t ∧ rest.run t = .ok s' := by
  simp only [run] at h
  obtain ⟨t, hp, h⟩ := bind_eq_ok_iff.mp h
  exact ⟨t, ok_of_located hp, h⟩

theorem ok_of_run_expansion {s s' : State} {call : Option Location} {body rest : Script}
    (h : (expansion call body rest).run s = .ok s') :
    ∃ t, inScope body.run s = .ok t ∧ rest.run t = .ok s' := by
  simp only [run] at h
  obtain ⟨t, hb, h⟩ := bind_eq_ok_iff.mp h
  exact ⟨t, ok_of_within hb, h⟩

theorem toMode_add {s s' : State} {place : Place} {location : Location} {p : Piece}
    (h : s.add place location p = .ok s') : s'.toMode = s.toMode := by
  obtain ⟨image, -, rfl⟩ := State.exists_of_add h
  rfl

theorem toMode_inScope {body : State → Except Error State} {s s' : State}
    (h : inScope body s = .ok s') : s'.toMode = s.toMode := by
  obtain ⟨inner, resolved, -, -, rfl⟩ := ok_of_inScope h
  rfl

theorem run_of_toMode (next : Mode → Script) {s s' : State} (h : s'.toMode = s.toMode) :
    (next s.toMode).run s' = (next s'.toMode).run s' := by
  rw [h]

/-- A way to expand calls, and the scripts of the same expansions. -/
def Agrees (scripts : Expansion → Mode → Script) (expand : Expander) : Prop :=
  ∀ e s, (scripts e s.toMode).run s = expand e s

section
variable {scripts : Expansion → Mode → Script} {expand : Expander}

theorem run_ofInstruction (h : Agrees scripts expand) (c : Context) (line : Nat) (entry : Entry)
    (ops : Operands) (s : State) :
    (ofInstruction scripts c line entry ops s.toMode).run s =
      assembleInstruction expand c line entry ops s := by
  unfold ofInstruction assembleInstruction
  split
  · rw [run_check]
    congr 1
    funext e
    exact h e s
  · simp only [run]
    rw [located_bind]
    cases hp : s.add s.place ⟨line, c.file⟩ _ with
    | error e => rfl
    | ok s' =>
      change Script.run (match Code.failure _ with | none => _ | some kind => _) s' =
        located line c.file (match Code.failure _ with | none => _ | some kind => _)
      cases Code.failure _ with
      | none =>
        have hm := toMode_add hp
        simp only [run, ← hm]
        rfl
      | some kind => rfl

theorem run_ofDatum (c : Context) (line : Nat) (item : Datum) (next : Mode → Script)
    (s : State) :
    (ofDatum c line item s.toMode (next s.toMode)).run s =
      (located line c.file (placeDatum ⟨line, c.file⟩ item s) >>= fun s' =>
        (next s'.toMode).run s') := by
  unfold ofDatum placeDatum
  rw [run_check, located_bind, bind_assoc]
  congr 1
  funext stored
  simp only [run]
  cases hp : s.add .data ⟨line, c.file⟩ (.datum stored) with
  | error e => rfl
  | ok s' => exact run_of_toMode next (toMode_add hp)

theorem run_ofOperands (h : Agrees scripts expand) (c : Context) (line : Nat) (ops : Operands)
    (s : State) :
    (ofOperands scripts c line ops s.toMode).run s = assembleOperands expand c line ops s := by
  induction ops generalizing s with
  | done => rfl
  | failed kind => rfl
  | next head rest ih =>
    have hd (item : Datum) :
        (ofDatum c line item s.toMode (ofOperands scripts c line rest s.toMode)).run s = (do
          let s ← located line c.file (placeDatum ⟨line, c.file⟩ item s)
          assembleOperands expand c line rest s) := by
      rw [run_ofDatum c line item (ofOperands scripts c line rest)]
      congr 1
      funext s'
      exact ih s'
    cases head with
    | label name => exact ih (s.define s.place name)
    | directive name =>
      simp only [ofOperands, assembleOperands]
      split
      · rw [run_check]
        rfl
      · rw [run_check]
        congr 1
        funext m
        rw [← run_toMode _ s m]
        exact ih { s with toMode := m }
    | instruction entry => exact run_ofInstruction h c line entry rest s
    | register r => rfl
    | placeholder name => rfl
    | group items => rfl
    | symbol name =>
      simp only [ofOperands, assembleOperands]
      cases s.macros.lookup name with
      | some m =>
        simp only [run_check]
        congr 1
        funext e
        exact h e s
      | none => exact hd (.label name)
    | int value => exact hd (.int value)
    | float value => exact hd (.float value)
    | string text => exact hd (.string text)

theorem run_ofItems (h : Agrees scripts expand) (c : Context) (items : List Source.Item)
    (s : State) :
    (ofItems scripts c items s.toMode).run s = assembleItems expand c items s := by
  induction items generalizing s with
  | nil => rfl
  | cons item rest ih =>
    cases item with
    | definition number result =>
      simp only [ofItems, assembleItems]
      rw [run_check]
      congr 1
      funext named
      rw [← run_toMode _ s { s.toMode with macros := named :: s.macros }]
      exact ih { s with macros := named :: s.macros }
    | line l =>
      simp only [ofItems, assembleItems]
      rw [run_bind, run_ofOperands h]
      congr 1
      funext s'
      exact ih s'

end

theorem run_ofExpansion (catalog : Catalog) (file : String) (depth : Nat) :
    Agrees (ofExpansion catalog file depth) (Assembly.expand catalog file depth) := by
  induction depth with
  | zero =>
    intro e s
    rfl
  | succ depth ih =>
    intro e s
    have hb : inScope (ofItems (ofExpansion catalog file depth) (e.context catalog file)
          (Source.items e.body) s.toMode).run s =
        inScope (assembleItems (Assembly.expand catalog file depth) (e.context catalog file)
          (Source.items e.body)) s := by
      have hi := run_ofItems ih (e.context catalog file) (Source.items e.body)
        { s with labels := [], relocations := #[] }
      unfold inScope
      rw [← hi]
    simp only [ofExpansion, run, Assembly.expand]
    rw [hb]
    cases hr : inScope _ s with
    | error error => cases e.call? file <;> rfl
    | ok s' =>
      rw [← toMode_inScope hr]
      cases e.call? file <;> rfl

/-- Assembling the lines of a file is running their script. -/
theorem run_ofLines (catalog : Catalog) (file : String) (lines : List Source.Line) (s : State) :
    (ofLines catalog file lines s.toMode).run s = assembleLines catalog file lines s :=
  run_ofItems (run_ofExpansion catalog file maxDepth) _ _ s

end Script

end RiscvToolkit.Assembly
