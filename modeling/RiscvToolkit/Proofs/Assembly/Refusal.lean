import RiscvToolkit.Proofs.Assembly.Layout
import RiscvToolkit.Proofs.Assembly.Reading
import RiscvToolkit.Proofs.Assembly.Request
import RiscvToolkit.Proofs.Assembly.Resolution

/-! Refusals. That expansions are nested too deep is the error of a request that is refused, and of nothing else that
goes on in an assembly. -/
namespace RiscvToolkit.Assembly
open Source (Operand Operands Token)

/-- True of every error but a refusal. -/
def ErrorKind.Ordinary (kind : ErrorKind) : Prop :=
  ∀ limit, kind ≠ .expansionTooDeep limit

theorem ErrorKind.ordinary_of_textual (kind : ErrorKind) (h : kind.Textual) : kind.Ordinary := by
  rintro limit rfl
  exact h

/-- True of a value with `P`, and of every error but a refusal. -/
def Reads {α : Type} (P : α → Prop) : Except ErrorKind α → Prop
  | .ok a => P a
  | .error kind => kind.Ordinary

namespace Reads
variable {α β : Type} {P : α → Prop} {Q : β → Prop} {x : Except ErrorKind α}

theorem bind (h : Reads P x) {f : α → Except ErrorKind β} (hf : ∀ a, P a → Reads Q (f a)) :
    Reads Q (x >>= f) := by
  cases x with
  | error kind => exact h
  | ok a => exact hf a h

theorem map (h : Reads P x) {f : α → β} (hf : ∀ a, P a → Q (f a)) :
    Reads Q (x.map f) := by
  cases x with
  | error kind => exact h
  | ok a => exact hf a h

/-- What is wrong with a text is no refusal. -/
theorem of_reading (h : Reading ErrorKind.Ordinary P x) : Reads P x := by
  cases x <;> exact h

end Reads

/-- True of operands that end with no refusal. -/
def Legible (ops : Operands) : Prop :=
  ops.All (fun _ => True) ErrorKind.Ordinary

/-- A line that is read comes to no refusal. -/
theorem legible_operands (bindings : Source.Bindings) (ts : List Token) :
    Legible (Source.operands bindings ts) :=
  readable_operands ErrorKind.ordinary_of_textual bindings ts

/-! ### Lines -/

/-- True of code that is stopped by no refusal. -/
def Code.Ordinary (code : Code) : Prop :=
  ∀ kind ∈ code.failure, kind.Ordinary

theorem ordinary_encode {ops : Operands} (encoding : Encoding) (h : Legible ops) :
    (encode encoding ops).Ordinary :=
  fails_encode ErrorKind.ordinary_of_textual encoding h

theorem reads_put (p : Piece) (place : Place) (i : Image) :
    Reads (fun _ => True) (p.put place i) := by
  cases hp : p.put place i with
  | ok j => trivial
  | error kind =>
    rw [Piece.error_of_put hp]
    exact fun _ h => ErrorKind.noConfusion h

theorem reads_add (s : State) (place : Place) (location : Location) (p : Piece) :
    Reads (fun _ => True) (s.add place location p) :=
  (reads_put p place s.image).bind fun _ _ => trivial

theorem reads_placeDatum (location : Location) (item : Datum) (s : State) :
    Reads (fun _ => True) (placeDatum location item s) := by
  have hstore := reading_store ErrorKind.ordinary_of_textual s.toMode item
  exact (Reads.of_reading hstore).bind fun stored _ => reads_add s .data location _

/-! ### Blocks -/

section
variable {expand : Expander} {c : Context} {line : Nat} {s : State} {error : Error}

/-- True of an error that is a refusal. -/
def Error.Refusal (error : Error) : Prop :=
  ∃ limit, error.kind = .expansionTooDeep limit

theorem Reads.not_refusal {α : Type} {P : α → Prop} {x : Except ErrorKind α} {line : Nat}
    {file : String} (h : Reads P x) (he : located line file x = .error error) :
    ¬error.Refusal := by
  rintro ⟨limit, hk⟩
  cases x with
  | ok a => cases he
  | error kind =>
    cases he
    exact h limit hk

/-- A refusal comes from behind what is read. -/
theorem Reads.of_refusal {α β : Type} {P : α → Prop} {x : Except ErrorKind α} {line : Nat}
    {file : String} (h : Reads P x) {f : α → Except Error β}
    (he : (located line file x >>= f) = .error error) (hr : error.Refusal) :
    ∃ a, x = .ok a ∧ f a = .error error := by
  cases x with
  | ok a => exact ⟨a, rfl, he⟩
  | error kind =>
    have herror : located line file (.error kind : Except ErrorKind α) = .error error := by
      cases he
      rfl
    exact absurd hr (h.not_refusal herror)

private theorem requests_instruction {entry : Entry} {ops : Operands} (hl : Legible ops)
    (h : assembleInstruction expand c line entry ops s = .error error) (hr : error.Refusal) :
    ∃ e t, LineRequests c line (.next (.instruction entry) ops) s e t ∧ expand e t = .error error := by
  obtain ⟨name, encoding⟩ := entry
  cases encoding with
  | template params body =>
    have hreads : Reads (fun _ => True) (templateCall c.catalog line name params body ops) :=
      .of_reading (reading_templateCall ErrorKind.ordinary_of_textual c.catalog line name params
        body hl)
    obtain ⟨e, hc, h⟩ := hreads.of_refusal h hr
    exact ⟨e, s, .template hc, h⟩
  | _ =>
    refine absurd hr (Reads.not_refusal (P := fun _ => True) ?_ h)
    refine (reads_add s s.place ⟨line, c.file⟩ _).bind fun s' _ => ?_
    split
    next => trivial
    next hf => exact ordinary_encode _ hl _ hf

/-- A line is refused only for a call that it comes to. -/
theorem requests_of_line {ops : Operands} (hl : Legible ops)
    (h : assembleOperands expand c line ops s = .error error) (hr : error.Refusal) :
    ∃ e t, LineRequests c line ops s e t ∧ expand e t = .error error := by
  induction ops generalizing s with
  | done => cases h
  | failed kind =>
    have hreads : Reads (fun _ : State => True) (.error kind) := hl
    exact absurd hr (hreads.not_refusal h)
  | next head rest ih =>
    have hdatum {item : Datum} (hd : datum? s.macros head = some item) :
        ∃ e t, LineRequests c line (.next head rest) s e t ∧ expand e t = .error error := by
      rw [assembleOperands_datum hd] at h
      obtain ⟨s', hs, h⟩ := (reads_placeDatum ⟨line, c.file⟩ item s).of_refusal h hr
      obtain ⟨e, t, hreq, he⟩ := ih hl.2 h
      exact ⟨e, t, .datum hd hs hreq, he⟩
    cases head with
    | label name =>
      obtain ⟨e, t, hreq, he⟩ := ih hl.2 h
      exact ⟨e, t, .label hreq, he⟩
    | directive name =>
      simp only [assembleOperands] at h
      split at h
      next =>
        obtain ⟨names, -, h⟩ :=
          (Reads.of_reading (reading_globalNames ErrorKind.ordinary_of_textual name
            hl.2)).of_refusal h hr
        cases h
      next hn =>
        obtain ⟨mode, hm, h⟩ :=
          (Reads.of_reading (reading_applyDirective ErrorKind.ordinary_of_textual name
            s.toMode)).of_refusal h hr
        obtain ⟨e, t, hreq, he⟩ := ih hl.2 h
        exact ⟨e, t, .directive hn hm hreq, he⟩
    | instruction entry => exact requests_instruction hl.2 h hr
    | symbol name =>
      cases hm : s.macros.lookup name with
      | none => exact hdatum (if_pos (by rw [hm]; rfl))
      | some m =>
        simp only [assembleOperands, hm] at h
        have hreads : Reads (fun _ => True) (macroCall line name m rest) :=
          .of_reading (reading_macroCall ErrorKind.ordinary_of_textual line name m hl.2)
        obtain ⟨e, hc, h⟩ := hreads.of_refusal h hr
        exact ⟨e, s, .call hm hc, h⟩
    | int value => exact hdatum rfl
    | float value => exact hdatum rfl
    | string text => exact hdatum rfl
    | register r | placeholder name | group items =>
      cases h
      obtain ⟨limit, hk⟩ := hr
      cases hk

/-- A block is refused only for a call that it comes to. -/
theorem requests_of_block {items : List Source.Item}
    (hi : ∀ number result, .definition number result ∈ items → Reads (fun _ => True) result)
    (h : assembleItems expand c items s = .error error) (hr : error.Refusal) :
    ∃ e t, BlockRequests expand c items s e t ∧ expand e t = .error error := by
  induction items generalizing s with
  | nil => cases h
  | cons item rest ih =>
    have hrest : ∀ number result, .definition number result ∈ rest → Reads (fun _ => True) result :=
      fun number result hm => hi number result (List.mem_cons_of_mem _ hm)
    cases item with
    | definition number result =>
      simp only [assembleItems] at h
      obtain ⟨named, rfl, h⟩ := (hi number result List.mem_cons_self).of_refusal h hr
      obtain ⟨e, t, hreq, he⟩ := ih hrest h
      exact ⟨e, t, .definition hreq, he⟩
    | line l =>
      simp only [assembleItems] at h
      cases hs : assembleOperands expand c l.number (Source.operands c.bindings l.tokens) s with
      | error error' =>
        rw [hs] at h
        cases h
        obtain ⟨e, t, hreq, he⟩ := requests_of_line (legible_operands c.bindings l.tokens) hs hr
        exact ⟨e, t, .here hreq, he⟩
      | ok s' =>
        rw [hs] at h
        obtain ⟨e, t, hreq, he⟩ := ih hrest h
        exact ⟨e, t, .later hs hreq, he⟩

end

theorem RelocationKind.reads_apply (kind : RelocationKind) (m : Memory) (address target : UInt32) :
    Reads (fun _ => True) (kind.apply m address target) := by
  have hoverflow {α : Type} (result : Except AccessError α) :
      Reads (fun _ => True) (result.mapError fun _ => ErrorKind.segmentOverflow (placeOf address)) := by
    cases result with
    | ok a => trivial
    | error e => exact fun _ h => ErrorKind.noConfusion h
  have hoffset (transfer : Transfer) :
      Reads (fun _ => True) (transferOffset transfer address target) := by
    unfold transferOffset
    dsimp only
    split_ifs <;> first | trivial | exact fun _ h => ErrorKind.noConfusion h
  have hbits : Reads (fun _ => True) (kind.bits address target) := by
    cases kind with
    | branch => exact (hoffset .branch).map fun _ _ => trivial
    | jump => exact (hoffset .jump).map fun _ _ => trivial
    | _ => trivial
  unfold apply
  dsimp only
  split
  · exact hoverflow _
  · exact hbits.bind fun _ _ => (hoverflow _).bind fun _ _ => hoverflow _

/-- A relocation that its label does not fit is at fault, whatever has been patched before it. -/
theorem exists_of_resolve_error {labels : Symbols} {m : Memory} {unresolved : Array Relocation}
    {rs : List Relocation} {error : Error} (h : resolve labels m unresolved rs = .error error) :
    error.trace = [] ∧ ∃ r ∈ rs, error.location = r.location ∧ ∃ target m',
      labels.lookup r.label = some target ∧
        r.kind.apply m' r.address target = .error error.kind := by
  induction rs generalizing m unresolved with
  | nil => cases h
  | cons r rest ih =>
    have hrest {m : Memory} {us : Array Relocation} (h : resolve labels m us rest = .error error) :
        error.trace = [] ∧ ∃ q ∈ r :: rest, error.location = q.location ∧ ∃ target m',
          labels.lookup q.label = some target ∧
            q.kind.apply m' q.address target = .error error.kind := by
      obtain ⟨ht, q, hq, hq'⟩ := ih h
      exact ⟨ht, q, List.mem_cons_of_mem _ hq, hq'⟩
    unfold resolve at h
    split at h
    next => exact hrest h
    next target hl =>
      split at h
      next => exact hrest h
      next kind hk =>
        cases h
        exact ⟨rfl, r, List.mem_cons_self, rfl, target, m, hl, hk⟩

theorem not_refusal_of_resolve {labels : Symbols} {m : Memory} {unresolved : Array Relocation}
    {rs : List Relocation} {error : Error} (h : resolve labels m unresolved rs = .error error) :
    ¬error.Refusal := by
  obtain ⟨-, r, -, -, target, m', -, hk⟩ := exists_of_resolve_error h
  have hreads := r.kind.reads_apply m' r.address target
  rw [hk] at hreads
  rintro ⟨limit, he⟩
  exact hreads limit he

/-! ### Files -/

theorem error_of_inScope {body : State → Except Error State} {s : State} {error : Error}
    (h : inScope body s = .error error) :
    body { s with labels := [], relocations := #[] } = .error error ∨
      ∃ inner, body { s with labels := [], relocations := #[] } = .ok inner ∧
        resolve inner.labels inner.image.memory s.relocations inner.relocations.toList =
          .error error := by
  unfold inScope at h
  rcases bind_eq_error_iff.mp h with hb | ⟨inner, hb, h⟩
  · exact .inl hb
  · rcases bind_eq_error_iff.mp h with hres | ⟨resolved, -, h⟩
    · exact .inr ⟨inner, hb, hres⟩
    · cases h

theorem inScope_of_refusal {body : State → Except Error State} {s : State} {error : Error}
    (h : inScope body s = .error error) (hr : error.Refusal) :
    body { s with labels := [], relocations := #[] } = .error error := by
  rcases error_of_inScope h with h | ⟨inner, -, hres⟩
  · exact h
  · exact absurd hr (not_refusal_of_resolve hres)

/-- A call adds to the trace of an error, and changes nothing else of it. -/
theorem error_of_within {α : Type} {call : Option Location} {x : Except Error α} {error : Error}
    (h : within call x = .error error) :
    ∃ inner, x = .error inner ∧ inner.kind = error.kind ∧ inner.location = error.location := by
  cases x with
  | ok a => cases call <;> cases h
  | error inner =>
    refine ⟨inner, rfl, ?_⟩
    cases call <;> cases h <;> exact ⟨rfl, rfl⟩

section
variable {catalog : Catalog} {file : Source.File} {start : State} {error : Error}

/-- What is refused within an expansion has been asked for with all calls active. -/
theorem Requested.exists_refused {depth : Nat} {active : List Expansion} {e : Expansion} {t : State}
    (h : Requested catalog file start depth active e t)
    (he : expand catalog file.name depth e t = .error error) (hr : error.Refusal) :
    ∃ active e t, Requested catalog file start 0 active e t := by
  induction depth generalizing active e t error with
  | zero => exact ⟨active, e, t, h⟩
  | succ depth ih =>
    rw [expand] at he
    obtain ⟨inner, hinner, hk, -⟩ := error_of_within he
    have hr : inner.Refusal := by
      obtain ⟨limit, hl⟩ := hr
      exact ⟨limit, hk.trans hl⟩
    have hbody := inScope_of_refusal hinner hr
    obtain ⟨e', t', hreq, he'⟩ :=
      requests_of_block (fun number result hm =>
        .of_reading (reading_definition ErrorKind.ordinary_of_textual e.body hm)) hbody hr
    exact ih (h.body hreq) he' hr

/-- The error of a file that is refused tells the request. -/
theorem exists_refused_of_assembleLines
    (h : assembleLines catalog file.name (Source.linesOf catalog file.text) start = .error error)
    (hr : error.Refusal) :
    ∃ active e t, Requested catalog file start 0 active e t ∧
      error = Error.through file.name active ⟨.expansionTooDeep maxDepth, ⟨e.line, file.name⟩, []⟩ := by
  obtain ⟨e, t, hreq, he⟩ :=
    requests_of_block (fun number result hm =>
      .of_reading (reading_definition ErrorKind.ordinary_of_textual _ hm)) h hr
  obtain ⟨active, e, t, hreq⟩ := (Requested.file hreq).exists_refused he hr
  have herror := hreq.assembleLines_of_error rfl
  exact ⟨active, e, t, hreq, Except.error.inj (h.symm.trans herror)⟩

end

/-- The state in which a file is assembled, when those before it have been. -/
def Begins (catalog : Catalog) (stackSize : Nat) (files : List Source.File) (file : Source.File)
    (start : State) : Prop :=
  ∃ before after l, files = before ++ file :: after ∧
    Linkage.addAll catalog before ⟨.empty stackSize, [], #[], #[]⟩ = .ok l ∧ start = .start l.image

section
variable {catalog : Catalog} {files : List Source.File} {error : Error}

/-- The error of a file behind others is that of the assembly. -/
theorem assemble_of_add {stackSize : Nat} {before after : List Source.File} {file : Source.File}
    {l : Linkage} (hl : Linkage.addAll catalog before ⟨.empty stackSize, [], #[], #[]⟩ = .ok l)
    (he : l.add catalog file = .error error) :
    assemble catalog stackSize (before ++ file :: after) = .error error := by
  unfold assemble
  dsimp only
  rw [addAll_append, hl, ok_bind, Linkage.addAll, he]
  rfl

theorem assemble_of_begins {stackSize : Nat} {file : Source.File} {start : State}
    (h : Begins catalog stackSize files file start)
    (he : assembleLines catalog file.name (Source.linesOf catalog file.text) start = .error error) :
    assemble catalog stackSize files = .error error := by
  obtain ⟨before, after, l, rfl, hl, rfl⟩ := h
  refine assemble_of_add hl ?_
  unfold Linkage.add
  dsimp only
  rw [he]
  rfl

/-- An error of several files is that of one of them. -/
theorem Linkage.exists_add_of_error {l : Linkage} (h : addAll catalog files l = .error error) :
    ∃ before file after l', files = before ++ file :: after ∧
      addAll catalog before l = .ok l' ∧ l'.add catalog file = .error error := by
  induction files generalizing l with
  | nil => cases h
  | cons file rest ih =>
    simp only [addAll] at h
    rcases bind_eq_error_iff.mp h with ha | ⟨l₁, ha, h⟩
    · exact ⟨[], file, rest, l, rfl, rfl, ha⟩
    · obtain ⟨before, file', after, l', rfl, hb, he⟩ := ih h
      refine ⟨file :: before, file', after, l', rfl, ?_, he⟩
      rw [addAll, ha, ok_bind, hb]

theorem Linkage.add_eq (l : Linkage) (file : Source.File) :
    l.add catalog file = (do
      let s ← (Script.ofFile catalog file).run (.start l.image)
      let l' := exports file.name s.labels s.globals.toList l
      let (memory, deferred) ←
        resolve s.labels s.image.memory l'.deferred s.relocations.toList
      return { l' with image := { s.image with memory }, deferred }) := by
  have hrun : (Script.ofFile catalog file).run (.start l.image) =
      assembleLines catalog file.name (Source.linesOf catalog file.text) (.start l.image) :=
    Script.run_ofLines catalog file.name _ (.start l.image)
  rw [hrun]
  rfl

/-- What a file leaves to those behind it. -/
theorem Linkage.exists_of_add {l l' : Linkage} {file : Source.File}
    (h : l.add catalog file = .ok l') :
    ∃ s memory, (Script.ofFile catalog file).run (.start l.image) = .ok s ∧
      l' = { exports file.name s.labels s.globals.toList l with
        image := { s.image with memory }
        deferred := l.deferred ++ unsettled s.labels s.relocations.toList } := by
  rw [add_eq] at h
  obtain ⟨s, hs, h⟩ := bind_eq_ok_iff.mp h
  rw [exports_eq] at h
  dsimp only at h
  obtain ⟨resolved, hres, h⟩ := bind_eq_ok_iff.mp h
  cases h
  refine ⟨s, resolved.1, hs, ?_⟩
  rw [exports_eq, ← eq_append_of_resolve hres]

/-- The error of a file is one of its lines or of the patches behind them. -/
theorem Linkage.error_of_add {l : Linkage} {file : Source.File}
    (h : l.add catalog file = .error error) :
    assembleLines catalog file.name (Source.linesOf catalog file.text) (.start l.image) =
        .error error ∨
      ∃ s, assembleLines catalog file.name (Source.linesOf catalog file.text) (.start l.image) =
          .ok s ∧
        resolve s.labels s.image.memory l.deferred s.relocations.toList = .error error := by
  unfold add at h
  dsimp only at h
  rcases bind_eq_error_iff.mp h with hs | ⟨s, hs, h⟩
  · exact .inl hs
  · rw [exports_eq] at h
    dsimp only at h
    rcases bind_eq_error_iff.mp h with hres | ⟨resolved, -, h⟩
    · exact .inr ⟨s, hs, hres⟩
    · cases h

theorem Linkage.addAll_of_refusal {l : Linkage} (h : addAll catalog files l = .error error)
    (hr : error.Refusal) :
    ∃ before file after l', files = before ++ file :: after ∧
      addAll catalog before l = .ok l' ∧
      assembleLines catalog file.name (Source.linesOf catalog file.text) (.start l'.image) =
        .error error := by
  obtain ⟨before, file, after, l', hfiles, hb, he⟩ := exists_add_of_error h
  refine ⟨before, file, after, l', hfiles, hb, ?_⟩
  rcases error_of_add he with he | ⟨s, -, hres⟩
  · exact he
  · exact absurd hr (not_refusal_of_resolve hres)

theorem Linkage.not_refusal_of_link {l : Linkage} (h : l.link = .error error) : ¬error.Refusal := by
  unfold link at h
  split at h
  next =>
    cases h
    rintro ⟨limit, hk⟩
    cases hk
  next =>
    cases hres : resolve l.globals l.image.memory #[] l.deferred.toList with
    | error e =>
      rw [hres] at h
      cases h
      exact not_refusal_of_resolve hres
    | ok resolved =>
      rw [hres, ok_bind] at h
      dsimp only at h
      split at h
      next =>
        cases h
        rintro ⟨limit, hk⟩
        cases hk
      next => cases h

/-- An assembly that is refused has come to a request with all calls active. -/
theorem exists_refused_of_assemble {stackSize : Nat}
    (h : assemble catalog stackSize files = .error error) (hr : error.Refusal) :
    ∃ file start active e t, Begins catalog stackSize files file start ∧
      Requested catalog file start 0 active e t ∧
      error = Error.through file.name active ⟨.expansionTooDeep maxDepth, ⟨e.line, file.name⟩, []⟩ := by
  unfold assemble at h
  dsimp only at h
  rcases bind_eq_error_iff.mp h with hl | ⟨l, -, h⟩
  · obtain ⟨before, file, after, l, hfiles, hb, he⟩ := Linkage.addAll_of_refusal hl hr
    obtain ⟨active, e, t, hreq, herror⟩ := exists_refused_of_assembleLines he hr
    exact ⟨file, _, active, e, t, ⟨before, after, l, hfiles, hb, rfl⟩, hreq, herror⟩
  · exact absurd hr (Linkage.not_refusal_of_link h)

end

end RiscvToolkit.Assembly
