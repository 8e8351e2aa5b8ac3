import RiscvToolkit.Proofs.Assembly.Lead

/-! Requests for expansions. A request is made where a run has come to a call, with the calls whose bodies are being
assembled there; no more than `maxDepth` of them ever are, and just there the request is refused. -/
namespace RiscvToolkit.Assembly
open Source (Operand Operands)

/-- `LineRequests c line ops s e t`: assembled from state `s` on, the rest of a line comes to a call, which asks
for the expansion `e` in state `t`. -/
inductive LineRequests (c : Context) (line : Nat) :
    Operands → State → Expansion → State → Prop
  | label {name rest s e t} (h : LineRequests c line rest (s.define s.place name) e t) :
    LineRequests c line (.next (.label name) rest) s e t
  | directive {name rest s mode e t} (hn : Directive.ofName? name ≠ some .global)
    (hm : applyDirective name s.toMode = .ok mode)
    (h : LineRequests c line rest { s with toMode := mode } e t) :
    LineRequests c line (.next (.directive name) rest) s e t
  | datum {o item rest s s' e t} (hd : datum? s.macros o = some item)
    (hs : placeDatum ⟨line, c.file⟩ item s = .ok s') (h : LineRequests c line rest s' e t) :
    LineRequests c line (.next o rest) s e t
  | template {name params body rest s e}
    (h : templateCall c.catalog line name params body rest = .ok e) :
    LineRequests c line (.next (.instruction ⟨name, .template params body⟩) rest) s e s
  | call {name m rest s e} (hm : s.macros.lookup name = some m)
    (h : macroCall line name m rest = .ok e) :
    LineRequests c line (.next (.symbol name) rest) s e s

/-- A block comes to a call in one of its lines, if the lines before it have been assembled. -/
inductive BlockRequests (expand : Expander) (c : Context) :
    List Source.Item → State → Expansion → State → Prop
  | here {l rest s e t}
    (h : LineRequests c l.number (Source.operands c.bindings l.tokens) s e t) :
    BlockRequests expand c (.line l :: rest) s e t
  | later {l rest s s' e t}
    (hs : assembleOperands expand c l.number (Source.operands c.bindings l.tokens) s = .ok s')
    (h : BlockRequests expand c rest s' e t) : BlockRequests expand c (.line l :: rest) s e t
  | definition {number named rest s e t}
    (h : BlockRequests expand c rest { s with macros := named :: s.macros } e t) :
    BlockRequests expand c (.definition number (.ok named) :: rest) s e t

/-- `Requested catalog file start depth active e t`: while a file is assembled from state `start` on, the
expansion `e` is asked for in state `t`. The bodies of `active` are being assembled there, the innermost first,
and `depth` more may be. -/
inductive Requested (catalog : Catalog) (file : Source.File) (start : State) :
    Nat → List Expansion → Expansion → State → Prop
  | file {e t}
    (h : BlockRequests (expand catalog file.name maxDepth) ⟨catalog, file.name, []⟩
      (Source.items (Source.linesOf catalog file.text)) start e t) :
    Requested catalog file start maxDepth [] e t
  | body {depth active e t e' t'} (hr : Requested catalog file start (depth + 1) active e t)
    (h : BlockRequests (expand catalog file.name depth) (e.context catalog file.name)
      (Source.items e.body) { t with labels := [], relocations := #[] } e' t') :
    Requested catalog file start depth (e :: active) e' t'

/-- An error that has come through calls. -/
def Error.through (file : String) (calls : List Expansion) (error : Error) : Error :=
  { error with trace := error.trace ++ calls.filterMap (·.call? file) }

section
variable {expand : Expander} {c : Context} {s t : State} {e : Expansion}

theorem assembleOperands_datum {line : Nat} {o : Operand} {item : Datum}
    (hd : datum? s.macros o = some item) (rest : Operands) :
    assembleOperands expand c line (.next o rest) s = (do
      let s ← located line c.file (placeDatum ⟨line, c.file⟩ item s)
      assembleOperands expand c line rest s) := by
  cases o with
  | symbol name =>
    simp only [datum?] at hd
    split_ifs at hd with hn
    cases hd
    rw [Option.isNone_iff_eq_none] at hn
    simp only [assembleOperands, hn]
  | int value =>
    cases hd
    rfl
  | float value =>
    cases hd
    rfl
  | string text =>
    cases hd
    rfl
  | _ => cases hd

/-- The result of a line that comes to a call is that of the expansion. -/
theorem LineRequests.assembleOperands_eq {line : Nat} {ops : Operands}
    (h : LineRequests c line ops s e t) : assembleOperands expand c line ops s = expand e t := by
  induction h with
  | label h ih => exact ih
  | directive hn hm h ih =>
    simp only [assembleOperands, if_neg hn, hm, located, ok_bind]
    exact ih
  | datum hd hs h ih =>
    rw [assembleOperands_datum hd, hs]
    exact ih
  | template h =>
    simp only [assembleOperands, assembleInstruction, h]
    rfl
  | call hm h =>
    simp only [assembleOperands, hm, h]
    rfl

/-- The lines of a template have the number of its call. -/
theorem number_of_templateCall {catalog : Catalog} {line params : Nat} {name : String} {body : List String}
    {ops : Operands} (h : templateCall catalog line name params body ops = .ok e) :
    e.line = line ∧ e.traced = false ∧ ∀ l ∈ e.body, l.number = line := by
  unfold templateCall at h
  obtain ⟨args, -, h⟩ := bind_eq_ok_iff.mp h
  cases h
  refine ⟨rfl, rfl, fun l hl => ?_⟩
  obtain ⟨text, -, rfl⟩ := List.mem_map.mp hl
  rfl

theorem body_of_macroCall {line : Nat} {name : String} {m : Source.Macro} {ops : Operands}
    (h : macroCall line name m ops = .ok e) :
    e.line = line ∧ e.traced = true ∧ e.body = m.body := by
  unfold macroCall at h
  obtain ⟨args, -, h⟩ := bind_eq_ok_iff.mp h
  cases h
  exact ⟨rfl, rfl, rfl⟩

/-- An expansion has the number of the line that asks for it. -/
theorem LineRequests.line_eq {line : Nat} {ops : Operands} (h : LineRequests c line ops s e t) :
    e.line = line := by
  induction h with
  | label h ih => exact ih
  | directive hn hm h ih => exact ih
  | datum hd hs h ih => exact ih
  | template h => exact (number_of_templateCall h).1
  | call hm h => exact (body_of_macroCall h).1

theorem BlockRequests.assembleItems_of_error {items : List Source.Item} {error : Error}
    (h : BlockRequests expand c items s e t) (he : expand e t = .error error) :
    assembleItems expand c items s = .error error := by
  induction h with
  | here h =>
    rw [assembleItems, h.assembleOperands_eq, he]
    rfl
  | later hs h ih =>
    rw [assembleItems, hs]
    exact ih he
  | definition h ih => exact ih he

end

section
variable {catalog : Catalog} {file : Source.File} {start t : State} {depth : Nat}
variable {active : List Expansion} {e : Expansion}

theorem Error.through_append (file : String) (inner outer : List Expansion) (error : Error) :
    (error.through file inner).through file outer = error.through file (inner ++ outer) := by
  simp [Error.through]

/-- An error inside a call comes out of it with the call in its trace, if it is one to trace. -/
theorem expand_of_inScope_error {file : String} {error : Error}
    (h : inScope (assembleItems (expand catalog file depth) (e.context catalog file)
      (Source.items e.body)) t = .error error) :
    expand catalog file (depth + 1) e t = .error (error.through file [e]) := by
  rw [expand, h]
  cases hc : e.call? file <;>
    simp [within, Except.mapError, Error.through, Error.within, hc]

/-- The calls that are active and those that may yet be add up to the limit. -/
theorem Requested.depth_add_length (h : Requested catalog file start depth active e t) :
    depth + active.length = maxDepth := by
  induction h with
  | file h => rfl
  | body hr h ih =>
    rw [List.length_cons]
    omega

/-- The error of an expansion is that of the file, with the calls that are active in its trace. -/
theorem Requested.assembleLines_of_error {error : Error}
    (h : Requested catalog file start depth active e t)
    (he : expand catalog file.name depth e t = .error error) :
    assembleLines catalog file.name (Source.linesOf catalog file.text) start =
      .error (error.through file.name active) := by
  induction h generalizing error with
  | file h =>
    rw [Error.through, List.filterMap_nil, List.append_nil]
    exact h.assembleItems_of_error he
  | @body depth active e t e' t' hr h ih =>
    have hscope : inScope (assembleItems (expand catalog file.name depth)
        (e.context catalog file.name) (Source.items e.body)) t = .error error := by
      rw [inScope, h.assembleItems_of_error he]
      rfl
    rw [ih (expand_of_inScope_error hscope), Error.through_append, List.singleton_append]

end

end RiscvToolkit.Assembly
