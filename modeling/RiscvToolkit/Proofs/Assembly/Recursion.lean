import RiscvToolkit.Proofs.Assembly.Refusal
import RiscvToolkit.Proofs.Assembly.Success

/-! Recursion. Expansions nest only as deep as the limit says, which settles what any source is assembled to; a macro
that comes back to itself by calls of its own text is refused. -/
namespace RiscvToolkit.Assembly
open Source (Bindings Operand Operands Token)

/-- Where `active` calls are being expanded, a call is refused at the limit; below it its body is assembled with
one call more. -/
def Unfolds (catalog : Catalog) (file : String) (expanders : Nat → Expander) : Prop :=
  ∀ active e s, expanders active e s =
    if active < maxDepth then
      within (e.call? file)
        (inScope (assembleItems (expanders (active + 1)) (e.context catalog file)
          (Source.items e.body)) s)
    else .error ⟨.expansionTooDeep maxDepth, ⟨e.line, file⟩, []⟩

theorem unfolds_expand (catalog : Catalog) (file : String) :
    Unfolds catalog file fun active => expand catalog file (maxDepth - active) := by
  intro active e s
  dsimp only
  split_ifs with h
  · have hdepth : maxDepth - active = maxDepth - (active + 1) + 1 := by omega
    rw [hdepth]
    rfl
  · have hdepth : maxDepth - active = 0 := by omega
    rw [hdepth]
    rfl

/-- The recursion ends: it has one solution. -/
theorem Unfolds.eq_expand {catalog : Catalog} {file : String} {expanders : Nat → Expander}
    (h : Unfolds catalog file expanders) (active : Nat) :
    expanders active = expand catalog file (maxDepth - active) := by
  have hd (depth active : Nat) (hactive : maxDepth - active = depth) :
      expanders active = expand catalog file depth := by
    induction depth generalizing active with
    | zero =>
      funext e s
      rw [h, if_neg (by omega)]
      rfl
    | succ depth ih =>
      funext e s
      rw [h, if_pos (by omega), ih (active + 1) (by omega)]
      rfl
  exact hd _ active rfl

/-! ### Calls by name -/

/-- True of a line that goes on to a call of a macro by its name. Labels, directives and data may stand in front of
the name, but no placeholder: what is put in its place may take the name as an operand. -/
def LineCalls (macros : List (String × Source.Macro)) (name : String) (tokens : List Token) : Prop :=
  ∃ lead word rest, tokens = lead ++ word :: rest ∧ (∀ t ∈ lead, leads macros t = true) ∧
    word.kind = .symbol ∧ String.ofList word.text = name

/-- True of macros of which the body of one has a line that calls the other by its name. -/
def CallsByName (macros : List (String × Source.Macro)) (caller callee : String) : Prop :=
  ∃ d, macros.lookup caller = some d ∧ (∃ l ∈ d.body, LineCalls macros callee l.tokens) ∧
    (macros.lookup callee).isSome

/-- True of macros with no definition in their bodies that has an end. -/
def Closed (macros : List (String × Source.Macro)) : Prop :=
  ∀ named ∈ macros, ∀ l ∈ named.2.body, l.leading? ≠ some "end_macro".toList

namespace Script

theorem mode?_of_run {x : Script} {s s' : State} (h : x.run s = .ok s') :
    x.mode? = some s'.toMode := by
  induction x generalizing s s' with
  | done mode =>
    cases h
    rfl
  | failed error => cases h
  | label place name rest ih => exact ih h
  | globals names line rest ih => exact ih h
  | piece place location p rest ih =>
    obtain ⟨t, -, hrest⟩ := ok_of_run_piece h
    exact ih hrest
  | expansion call body rest ihb ih =>
    obtain ⟨t, ht, hrest⟩ := ok_of_run_expansion h
    obtain ⟨inner, resolved, hinner, -, -⟩ := ok_of_inScope ht
    rw [mode?, ihb hinner, Option.bind_some, ih hrest]

end Script

section
variable {catalog : Catalog} {file : String} {depth : Nat} {c : Context} {s s' : State}

theorem macros_assembleOperands {line : Nat} {ops : Operands}
    (h : assembleOperands (expand catalog file depth) c line ops s = .ok s') :
    s'.macros = s.macros := by
  rw [← Script.run_ofOperands (Script.run_ofExpansion catalog file depth)] at h
  exact Script.macros_ofOperands (Script.keepsMode_ofExpansion catalog file depth)
    (Script.mode?_of_run h)

theorem isFailed_of_assembleItems {items : List Source.Item}
    (h : assembleItems (expand catalog file depth) c items s = .ok s') :
    ∀ item ∈ items, item.isFailed = false := by
  rw [← Script.run_ofItems (Script.run_ofExpansion catalog file depth)] at h
  exact Script.isFailed_of_succeeds ⟨_, Script.mode?_of_run h⟩

theorem operand_of_leads {macros : List (String × Source.Macro)} {t : Token}
    (h : leads macros t = true) (b : Bindings) : t.operand b = t.operand [] := by
  obtain ⟨kind, text⟩ := t
  cases kind <;> first | rfl | cases h

theorem toMode_placeDatum {location : Location} {item : Datum}
    (h : placeDatum location item s = .ok s') : s'.toMode = s.toMode := by
  unfold placeDatum at h
  obtain ⟨stored, -, h⟩ := bind_eq_ok_iff.mp h
  exact Script.toMode_add h

/-- A line that is assembled is assembled from any word on that nothing but its lead is in front of. -/
theorem exists_of_lead {expand : Expander} {line : Nat} {lead : List Token}
    (hlead : ∀ t ∈ lead, leads s.macros t = true) {b : Bindings} {ts : List Token}
    (h : assembleOperands expand c line (Source.operands b (lead ++ ts)) s = .ok s') :
    ∃ t, t.macros = s.macros ∧
      assembleOperands expand c line (Source.operands b ts) t = .ok s' := by
  induction lead generalizing s with
  | nil => exact ⟨s, rfl, h⟩
  | cons t lead ih =>
    obtain ⟨ht, hlead⟩ := List.forall_mem_cons.mp hlead
    have hnext {o : Operand} (ho : t.operand [] = .ok o) :
        Source.operands b (t :: (lead ++ ts)) = .next o (Source.operands b (lead ++ ts)) :=
      Source.operandsFrom_operand ((operand_of_leads ht b).trans ho) [] _
    rw [List.cons_append] at h
    cases leading_of_leads ht with
    | trivia ht =>
      unfold Source.operands at h
      rw [Source.operandsFrom_trivia ht] at h
      exact ih hlead h
    | failed hs ho =>
      unfold Source.operands at h
      rw [Source.operandsFrom_single hs, operand_of_leads ht b, ho] at h
      cases h
    | label ho =>
      rw [hnext ho] at h
      exact ih (s := s.define s.place _) hlead h
    | directive ho hn =>
      rw [hnext ho] at h
      simp only [assembleOperands, if_neg hn] at h
      obtain ⟨mode, hm, h⟩ := bind_eq_ok_iff.mp h
      have hmacros : mode.macros = s.macros := Script.macros_applyDirective (ok_of_located hm)
      rw [← hmacros] at hlead ⊢
      exact ih (s := { s with toMode := mode }) hlead h
    | @datum o item ho hd =>
      rw [hnext ho, assembleOperands_datum hd] at h
      obtain ⟨t, hp, h⟩ := bind_eq_ok_iff.mp h
      have hmode := toMode_placeDatum (ok_of_located hp)
      rw [← hmode] at hlead ⊢
      exact ih hlead h

/-- A line that is assembled and calls a macro by its name has an expansion of it. -/
theorem exists_call {name : String} {d : Source.Macro} {line : Nat} {tokens : List Token}
    (hm : s.macros.lookup name = some d) (hcalls : LineCalls s.macros name tokens)
    {expand : Expander}
    (h : assembleOperands expand c line (Source.operands c.bindings tokens) s = .ok s') :
    ∃ e t, t.macros = s.macros ∧ e.body = d.body ∧ expand e t = .ok s' := by
  obtain ⟨lead, word, rest, rfl, hlead, hword, rfl⟩ := hcalls
  obtain ⟨t, ht, h⟩ := exists_of_lead hlead h
  have ho : word.operand c.bindings = .ok (.symbol (String.ofList word.text)) := by
    unfold Token.operand
    rw [hword]
  have hops : Source.operands c.bindings (word :: rest) =
      .next (.symbol (String.ofList word.text)) (Source.operands c.bindings rest) :=
    Source.operandsFrom_operand ho [] rest
  rw [← ht] at hm
  rw [hops] at h
  simp only [assembleOperands, hm] at h
  obtain ⟨e, hc, h⟩ := bind_eq_ok_iff.mp h
  exact ⟨e, t, ht, (body_of_macroCall (ok_of_located hc)).2.2, h⟩

theorem exists_of_lines {ls : List Source.Line}
    (h : assembleItems (expand catalog file depth) c (ls.map .line) s = .ok s') :
    ∀ l ∈ ls, ∃ t t', t.macros = s.macros ∧
      assembleOperands (expand catalog file depth) c l.number
        (Source.operands c.bindings l.tokens) t = .ok t' := by
  induction ls generalizing s with
  | nil => exact List.forall_mem_nil _
  | cons l ls ih =>
    simp only [List.map_cons, assembleItems] at h
    obtain ⟨t, hl, h⟩ := bind_eq_ok_iff.mp h
    have hmacros := macros_assembleOperands hl
    rw [← hmacros]
    refine List.forall_mem_cons.mpr ⟨⟨s, t, hmacros.symm, hl⟩, ih h⟩

end

/-- However many calls may be active, a macro that comes back to itself is not expanded. -/
theorem expand_ne_ok_of_transGen {catalog : Catalog} {file : String} (depth : Nat) {name : String}
    {e : Expansion} {t : State} {d : Source.Macro} (hm : t.macros.lookup name = some d)
    (hbody : e.body = d.body) (hclosed : Closed t.macros)
    (h : Relation.TransGen (CallsByName t.macros) name name) (t' : State) :
    expand catalog file depth e t ≠ .ok t' := by
  induction depth generalizing name e t d t' with
  | zero => exact fun hr => nomatch hr
  | succ depth ih =>
    intro hr
    obtain ⟨callee, hcall, hback⟩ := Relation.TransGen.head'_iff.mp h
    have hcycle : Relation.TransGen (CallsByName t.macros) callee callee :=
      Relation.TransGen.tail' hback hcall
    obtain ⟨d', hd', ⟨l, hl, hline⟩, hcallee⟩ := hcall
    obtain rfl : d = d' := Option.some.inj (hm.symm.trans hd')
    obtain ⟨dc, hdc⟩ := Option.isSome_iff_exists.mp hcallee
    rw [expand] at hr
    obtain ⟨inner, resolved, hi, -, -⟩ := ok_of_inScope (ok_of_within hr)
    obtain ⟨before, after, hsplit, -⟩ := List.lookup_eq_some_iff.mp hm
    have hmem : (name, d) ∈ t.macros := hsplit ▸ List.mem_append_right _ List.mem_cons_self
    have hitems := Source.items_eq_map_of_body (hbody ▸ hclosed _ hmem)
      (isFailed_of_assembleItems hi)
    rw [hitems] at hi
    obtain ⟨s, s', hs, hassembled⟩ := exists_of_lines hi l (hbody ▸ hl)
    rw [← hs] at hdc hline
    obtain ⟨e', u, hu, hbody', hexpand⟩ := exists_call hdc hline hassembled
    have humacros : u.macros = t.macros := hu.trans hs
    rw [hs, ← humacros] at hdc
    rw [← humacros] at hclosed hcycle
    exact ih hdc hbody' hclosed hcycle _ hexpand

theorem LineRequests.macros_eq {c : Context} {line : Nat} {ops : Operands} {s t : State}
    {e : Expansion} (h : LineRequests c line ops s e t) : t.macros = s.macros := by
  induction h with
  | label h ih => exact ih
  | directive hn hm h ih => exact ih.trans (Script.macros_applyDirective hm)
  | datum hd hs h ih => exact ih.trans (congrArg Mode.macros (toMode_placeDatum hs))
  | template h => rfl
  | call hm h => rfl

section
variable {catalog : Catalog} {file : String} {depth : Nat} {c : Context} {s t : State}
variable {e : Expansion}

theorem BlockRequests.closed {items : List Source.Item}
    (h : BlockRequests (expand catalog file depth) c items s e t)
    (hi : ∀ number named, .definition number (.ok named) ∈ items →
      ∀ l ∈ named.2.body, l.leading? ≠ some "end_macro".toList)
    (hs : Closed s.macros) : Closed t.macros := by
  induction h with
  | here h =>
    rw [h.macros_eq]
    exact hs
  | later hl h ih =>
    refine ih (fun number named hm => hi number named (List.mem_cons_of_mem _ hm)) ?_
    rw [macros_assembleOperands hl]
    exact hs
  | definition h ih =>
    refine ih (fun number named hm => hi number named (List.mem_cons_of_mem _ hm)) ?_
    exact List.forall_mem_cons.mpr ⟨hi _ _ List.mem_cons_self, hs⟩

end

theorem closed_of_mem_items {ls : List Source.Line} {number : Nat} {named : String × Source.Macro}
    (h : .definition number (.ok named) ∈ Source.items ls) :
    ∀ l ∈ named.2.body, l.leading? ≠ some "end_macro".toList := by
  have hmem : named ∈ Source.definitions (Source.items ls) :=
    List.mem_reverse.mpr (List.mem_filterMap.mpr ⟨_, h, rfl⟩)
  exact fun l hl => (Source.body_of_mem_definitions hmem l hl).2

section
variable {catalog : Catalog} {stackSize : Nat} {files : List Source.File} {file : Source.File}
variable {start t : State} {depth : Nat} {active : List Expansion} {e : Expansion}

theorem Begins.macros_eq (h : Begins catalog stackSize files file start) : start.macros = [] := by
  obtain ⟨before, after, l, -, -, rfl⟩ := h
  rfl

/-- No macro that is visible where a call is made has a definition with an end in its body. -/
theorem Requested.closed (h : Requested catalog file start depth active e t)
    (hs : start.macros = []) : Closed t.macros := by
  induction h with
  | file h =>
    refine h.closed (fun number named hm => closed_of_mem_items hm) ?_
    rw [hs]
    exact List.forall_mem_nil _
  | body hr h ih => exact h.closed (fun number named hm => closed_of_mem_items hm) ih

/-- What is refused is an error of the whole assembly. -/
theorem Requested.assemble_of_error {error : Error}
    (h : Requested catalog file start depth active e t)
    (hb : Begins catalog stackSize files file start)
    (he : expand catalog file.name depth e t = .error error) :
    assemble catalog stackSize files = .error (error.through file.name active) :=
  assemble_of_begins hb (h.assembleLines_of_error he)

end

/-- Calls are expanded at most `maxDepth` deep, which settles what any source is assembled to: a call is refused,
with an error at its line, just where so many are active. No program has a call of a macro that comes back to itself
by calls that the bodies of the macros make by name. -/
theorem expansions_bounded (catalog : Catalog) (stackSize : Nat) (files : List Source.File) :
    (∀ file : String, ∃! expanders, Unfolds catalog file expanders) ∧
    (∀ c line ops s e t, LineRequests c line ops s e t → e.line = line) ∧
    (∀ file start depth active e t, Begins catalog stackSize files file start →
      Requested catalog file start depth active e t →
        active.length ≤ maxDepth ∧
        (∀ expanders, Unfolds catalog file.name expanders →
          expand catalog file.name depth e t = expanders active.length e t) ∧
        (active.length = maxDepth →
          assemble catalog stackSize files = .error (Error.through file.name active
            ⟨.expansionTooDeep maxDepth, ⟨e.line, file.name⟩, []⟩))) ∧
    (∀ error limit, assemble catalog stackSize files = .error error →
      error.kind = .expansionTooDeep limit →
        ∃ file start depth active e t, Begins catalog stackSize files file start ∧
          Requested catalog file start depth active e t ∧ active.length = maxDepth ∧
          error = Error.through file.name active
            ⟨.expansionTooDeep maxDepth, ⟨e.line, file.name⟩, []⟩) ∧
    ∀ p, assemble catalog stackSize files = .ok p →
      ∀ file start depth active e t, Begins catalog stackSize files file start →
        Requested catalog file start depth active e t →
          ∀ name d, t.macros.lookup name = some d → e.body = d.body →
            ¬Relation.TransGen (CallsByName t.macros) name name := by
  refine ⟨fun file => ⟨_, unfolds_expand catalog file, fun expanders h => funext h.eq_expand⟩,
    fun c line ops s e t h => h.line_eq, ?_, ?_, ?_⟩
  · intro file start depth active e t hb hreq
    have hlength := hreq.depth_add_length
    refine ⟨by omega, fun expanders h => ?_, fun hfull => ?_⟩
    · have hdepth : maxDepth - active.length = depth := by omega
      rw [h.eq_expand, hdepth]
    · obtain rfl : depth = 0 := by omega
      exact hreq.assemble_of_error hb rfl
  · intro error limit herror hk
    obtain ⟨file, start, active, e, t, hb, hreq, rfl⟩ := exists_refused_of_assemble herror ⟨limit, hk⟩
    exact ⟨file, start, 0, active, e, t, hb, hreq, by simpa using hreq.depth_add_length, rfl⟩
  · intro p hp file start depth active e t hb hreq name d hm hbody hcycle
    cases he : expand catalog file.name depth e t with
    | ok t' =>
      exact expand_ne_ok_of_transGen depth hm hbody (hreq.closed hb.macros_eq) hcycle t' he
    | error error =>
      rw [hreq.assemble_of_error hb he] at hp
      cases hp

private def recursiveFile : Source.File := ⟨"a.s", ".macro m\nm\n.end_macro\nm"⟩

private def plainFile : Source.File := ⟨"a.s", ".macro m\nnop\n.end_macro\nm"⟩

/-- What stops an assembly, and where. -/
private def stopOf (result : Except Error Program) : Option (ErrorKind × Location) :=
  match result with
  | .ok _ => none
  | .error e => some (e.kind, e.location)

/-- A macro that calls itself is refused at the line of its body where it does so with 64 calls active. A macro that
does not is expanded where it is called. -/
theorem expansions_bounded_recursive :
    (∃ error file start depth active e t,
      assemble Catalog.builtin 0 [recursiveFile] = .error error ∧ error.location = ⟨2, "a.s"⟩ ∧
        Begins Catalog.builtin 0 [recursiveFile] file start ∧
        Requested Catalog.builtin file start depth active e t ∧ active.length = 64) ∧
    ∃ p e, assemble Catalog.builtin 0 [plainFile] = .ok p ∧
      Requested Catalog.builtin plainFile (.start (.empty 0)) 64 [] e
        { State.start (.empty 0) with macros := [("m", ⟨[], e.body⟩)] } ∧
      ¬Relation.TransGen (CallsByName [("m", ⟨[], e.body⟩)]) "m" "m" := by
  constructor
  · have hfails : stopOf (assemble Catalog.builtin 0 [recursiveFile]) =
        some (.expansionTooDeep 64, ⟨2, "a.s"⟩) := by decide +kernel
    cases herror : assemble Catalog.builtin 0 [recursiveFile] with
    | ok p =>
      rw [herror] at hfails
      cases hfails
    | error error =>
      rw [herror] at hfails
      obtain ⟨hkind, hlocation⟩ := Prod.mk.inj (Option.some.inj hfails)
      obtain ⟨file, start, depth, active, e, t, hb, hreq, hfull, -⟩ :=
        (expansions_bounded Catalog.builtin 0 [recursiveFile]).2.2.2.1 error 64 herror hkind
      exact ⟨error, file, start, depth, active, e, t, rfl, hlocation, hb, hreq, hfull⟩
  · have hok : (assemble Catalog.builtin 0 [plainFile]).toOption.isSome = true := by decide +kernel
    obtain ⟨p, hp⟩ := Option.isSome_iff_exists.mp hok
    rw [toOption_eq_some_iff] at hp
    obtain ⟨tokens, body, hitems⟩ : ∃ tokens body,
        Source.items (Source.linesOf Catalog.builtin plainFile.text) =
          [.definition 1 (.ok ("m", ⟨[], body⟩)), .line ⟨4, tokens⟩] ∧
        Source.operands [] tokens = .next (.symbol "m") .done := ⟨_, _, rfl, rfl⟩
    have hbegins : Begins Catalog.builtin 0 [plainFile] plainFile (.start (.empty 0)) :=
      ⟨[], [], _, rfl, rfl, rfl⟩
    have hreq : Requested Catalog.builtin plainFile (.start (.empty 0)) 64 []
        ⟨[], body, 4, true⟩ { State.start (.empty 0) with macros := [("m", ⟨[], body⟩)] } := by
      refine .file ?_
      rw [hitems.1]
      refine .definition (.here ?_)
      dsimp only
      rw [hitems.2]
      exact .call (m := ⟨[], body⟩) rfl rfl
    exact ⟨p, _, hp, hreq, (expansions_bounded Catalog.builtin 0 [plainFile]).2.2.2.2 p hp plainFile _ _
      _ _ _ hbegins hreq "m" ⟨[], body⟩ rfl rfl⟩

end RiscvToolkit.Assembly
