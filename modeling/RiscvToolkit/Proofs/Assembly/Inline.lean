import RiscvToolkit.Proofs.Assembly.Agree
import RiscvToolkit.Proofs.Assembly.Call
import RiscvToolkit.Proofs.Assembly.Separate

/-! Calls put inline. A file with the body of a macro, the source of the arguments put in, in place of a call of the
macro assembles to the same program. -/
namespace RiscvToolkit.Assembly
open Source (Token Line tokenize operands textOf numbered)

namespace Call
variable {catalog : Catalog} {file : Source.File} (call : Call catalog file)

/-- The lines of the body with the source of the arguments put in, as they are read. -/
def bodyLines : List Line :=
  numbered catalog call.before.length (call.expanded.map textOf)

/-- The lines in place of the line of the call, as they are read. -/
def replacementLines : List Line :=
  numbered catalog call.before.length (call.replacement.map textOf)

/-- The lines behind the call, numbered anew. -/
def afterLines : List Line :=
  numbered catalog (call.before.length + call.replacement.length) call.after

theorem joined_of_mem_expanded {e : Expansion} (he : call.expansion? = .ok e)
    {tokens : List Token} (h : tokens ∈ call.expanded) : Source.Joined catalog tokens := by
  obtain ⟨l, hl, rfl⟩ := List.mem_map.mp h
  obtain ⟨line, -, hline⟩ := Source.exists_tokenize_of_mem_numbered (call.body_subset hl).1
  rw [hline]
  exact (call.expansion?_eq_ok he).1.joined_substitute (Source.joined_tokenize line)

/-- With the source of the arguments put in, the body reads as it does with the arguments bound. -/
theorem operands_bodyLines {e : Expansion} (he : call.expansion? = .ok e) :
    List.Forall₂ (fun l r => operands e.bindings l.tokens = operands [] r.tokens)
      call.called.body call.bodyLines := by
  unfold bodyLines expanded
  rw [List.map_map]
  refine Source.forall₂_numbered
    (R := fun (l : Line) tokens => operands e.bindings l.tokens = operands [] tokens) fun l hl => ?_
  have hmem : Source.substitute call.arguments l.tokens ∈ call.expanded := List.mem_map_of_mem hl
  rw [Function.comp_apply, (call.joined_of_mem_expanded he hmem).operands_tokenize]
  exact ((call.expansion?_eq_ok he).1.operandsFrom_substitute [] l.tokens).symm

/-- The lines in place of the line of the call are what stands in front of the call, and the body. -/
theorem ofItems_replacementLines {e : Expansion} (he : call.expansion? = .ok e) {m : Mode}
    (hm : m.macros = call.macros) :
    Script.ofItems call.expand call.context (call.replacementLines.map .line) m =
      (Script.ofOperands call.expand call.context call.number (operands [] call.lead) m).bind
        (Script.ofItems call.expand call.context (call.bodyLines.map .line)) := by
  have hleads : ∀ t ∈ call.lead, Assembly.leads m.macros t = true := by
    rw [hm]
    exact call.leads
  have hlead {tokens : List Token} (h : Source.Joined catalog tokens) :
      operands [] (tokenize catalog (textOf (call.lead ++ tokens))) =
        operands [] (call.lead ++ tokens) := by
    have hword : call.word.kind.isWord = true := by rw [call.symbol]; rfl
    exact (call.joined_tokens.replace hword h).operands_tokenize
  have hjoined : ∀ tokens ∈ call.expanded, Source.Joined catalog tokens :=
    fun _ h => call.joined_of_mem_expanded he h
  unfold replacementLines bodyLines replacement
  generalize call.expanded = expanded at hjoined ⊢
  cases expanded with
  | nil =>
    have hnil := hlead .nil
    rw [List.append_nil] at hnil
    change (Script.ofOperands _ _ _ (operands [] (tokenize catalog (textOf call.lead))) m).bind
      _ = _
    rw [hnil]
    rfl
  | cons first others =>
    have hfirst := hjoined first List.mem_cons_self
    change (Script.ofOperands _ _ call.number
      (operands [] (tokenize catalog (textOf (call.lead ++ first)))) m).bind _ = _
    rw [hlead hfirst, Script.ofOperands_append hleads, Script.bind_assoc,
      ← hfirst.operands_tokenize]
    rfl

/-- The body of a call as part of the file has the layout that it has in a scope of its own. -/
theorem exists_inline_body {i : Image} {l : Layout} (laid : call.Laid i l)
    (hm : laid.lead.mode.macros = call.macros)
    (hplain : ∀ tokens ∈ call.expanded, Plain call.macros tokens) :
    ∃ body, (Script.ofItems call.expand call.context (call.bodyLines.map .line)
        laid.lead.mode).lay laid.lead.image = some body ∧ body.mode = laid.lead.mode ∧
      body.image = laid.body.image ∧
      (Outline.expansion laid.body.outline .done).Agrees body.outline := by
  have hkeeps : (Script.ofItems call.expand call.context (call.bodyLines.map .line)
      laid.lead.mode).Keeps laid.lead.mode := by
    refine Script.keeps_ofItems (Script.keeps_ofExpansion catalog file.name maxDepth)
      fun r hr => ?_
    obtain ⟨text, htext, hr⟩ := Source.exists_tokenize_of_mem_numbered hr
    obtain ⟨tokens, htokens, rfl⟩ := List.mem_map.mp htext
    refine ⟨tokens, ?_, hm ▸ hplain tokens htokens⟩
    rw [hr]
    exact (call.joined_of_mem_expanded laid.expands htokens).operands_tokenize
  have halike : (Script.ofItems call.expand ⟨catalog, file.name, laid.expansion.bindings⟩
      (call.called.body.map .line) laid.lead.mode).Alike catalog (fun _ => True)
        (Script.ofItems call.expand call.context (call.bodyLines.map .line) laid.lead.mode) :=
    Script.alike_of_operands (Script.alike_ofExpansion file.name file.name maxDepth)
      (call.operands_bodyLines laid.expands) (.refl catalog laid.lead.mode)
  obtain ⟨body, hbody, hab⟩ := halike.exists_lay laid.lay_body
  obtain ⟨hmode, hlabels, -⟩ := Script.static_of_lay hbody
  obtain ⟨hmode', hnone⟩ := hkeeps _ hmode
  rw [hnone] at hlabels
  have hempty : body.outline.labels = [] := List.map_eq_nil_iff.mp hlabels
  have hagrees := Outline.Agrees.of_bare hab.outline
  refine ⟨body, hbody, hmode', hab.image.symm, ?_⟩
  exact (Outline.agrees_expansion (hagrees.labels.trans hempty)).trans hagrees

/-- A file with a call put inline is laid out like the file. -/
theorem laysLike_inlined (hplain : ∀ tokens ∈ call.expanded, Plain call.macros tokens)
    {text : String} (htext : Text.lines text.toList = call.inlined) :
    LaysLike catalog file ⟨file.name, text⟩ := by
  intro i l h
  obtain ⟨laid⟩ := call.laid h
  have hm := call.macros_front laid.lay_front
  obtain ⟨body, hbody, hmode, himage, hagrees⟩ :=
    call.exists_inline_body laid ((call.macros_lead laid.lay_lead).trans hm) hplain
  have hreplaced : (Script.ofItems call.expand call.context (call.replacementLines.map .line)
      laid.front.mode).lay laid.front.image =
        some { body with outline := laid.lead.outline.append body.outline } := by
    rw [call.ofItems_replacementLines laid.expands hm, Script.lay_bind_eq_some_iff]
    exact ⟨laid.lead, body, laid.lay_lead, hbody, rfl⟩
  have hitems : Source.items (call.replacementLines ++ call.afterLines) =
      call.replacementLines.map .line ++ Source.items call.afterLines :=
    Source.items_append_of_leading?
      (Script.leading?_of_succeeds ⟨_, (Script.static_of_lay hreplaced).1⟩) _
  have hlines : Source.linesOf catalog text =
      numbered catalog 0 call.before ++ (call.replacementLines ++ call.afterLines) := by
    change numbered catalog 0 (Text.lines text.toList) = _
    rw [htext, inlined, Source.numbered_append, Source.numbered_append, List.length_map,
      Nat.zero_add]
    rfl
  have halike : (Script.ofLines catalog file.name (numbered catalog call.number call.after)
      laid.lead.mode).Alike catalog (fun _ => True)
        (Script.ofLines catalog file.name call.afterLines laid.lead.mode) :=
    Script.alike_ofLines file.name file.name (Source.sameText_numbered ..)
      (fun _ _ _ _ => trivial) (.refl catalog laid.lead.mode)
  obtain ⟨behind, hbehind, hab⟩ := halike.exists_lay laid.lay_behind
  refine ⟨{ behind with
    outline := laid.front.outline.append
      ((laid.lead.outline.append body.outline).append behind.outline) },
    ?_, hab.image.symm.trans laid.image.symm, ?_⟩
  · unfold Script.ofFile
    rw [hlines, Script.ofLines_append _ _ call.closed, Script.lay_bind_eq_some_iff]
    refine ⟨laid.front, { behind with
      outline := (laid.lead.outline.append body.outline).append behind.outline },
      laid.lay_front, ?_, rfl⟩
    unfold Script.ofLines
    rw [hitems, Script.ofItems_append, Script.lay_bind_eq_some_iff]
    refine ⟨_, behind, hreplaced, ?_, rfl⟩
    dsimp only
    rw [hmode, himage]
    exact hbehind
  · rw [laid.outline]
    have hbehind := Outline.Agrees.of_bare hab.outline
    exact (Outline.Agrees.refl _).append (((Outline.Agrees.refl _).append hagrees).append hbehind)

/-! ### The text of the file with the call put inline -/

private theorem newline_notMem_textOf {tokens : List Token} :
    '\n' ∉ textOf tokens ↔ ∀ t ∈ tokens, '\n' ∉ t.text := by
  unfold textOf
  rw [List.mem_flatMap]
  push Not
  rfl

theorem newline_notMem_of_mem_lines {line : List Char}
    (h : line ∈ call.before ++ call.line :: call.after) : '\n' ∉ line :=
  Source.newline_notMem_of_mem_lines (call.lines ▸ h)

theorem newline_notMem_of_mem_tokens {t : Token} (h : t ∈ call.lead ++ call.word :: call.rest) :
    '\n' ∉ t.text := by
  have hline := call.newline_notMem_of_mem_lines (List.mem_append_right _ List.mem_cons_self)
  rw [← Source.textOf_tokenize catalog call.line, call.tokens] at hline
  exact newline_notMem_textOf.mp hline t h

theorem newline_notMem_of_mem_expanded {tokens : List Token} (h : tokens ∈ call.expanded) :
    '\n' ∉ textOf tokens := by
  obtain ⟨l, hl, rfl⟩ := List.mem_map.mp h
  rw [newline_notMem_textOf]
  intro t ht
  rcases Source.mem_substitute ht with rfl | ht | ⟨a, ha, ht⟩
  · decide
  · obtain ⟨line, hmem, hline⟩ := Source.exists_tokenize_of_mem_numbered (call.body_subset hl).1
    have hbody := call.newline_notMem_of_mem_lines (List.mem_append_left _ hmem)
    rw [← Source.textOf_tokenize catalog line, ← hline] at hbody
    exact newline_notMem_textOf.mp hbody t ht
  · obtain ⟨-, ha⟩ := List.of_mem_zip (List.mem_reverse.mp ha)
    refine call.newline_notMem_of_mem_tokens (List.mem_append_right _ (List.mem_cons_of_mem _ ?_))
    exact Source.mem_of_mem_argumentSpans ha ht

theorem newline_notMem_of_mem_replacement {tokens : List Token} (h : tokens ∈ call.replacement) :
    '\n' ∉ textOf tokens := by
  have hlead : ∀ t ∈ call.lead, '\n' ∉ t.text := fun t ht =>
    call.newline_notMem_of_mem_tokens (List.mem_append_left _ ht)
  have hexpanded : ∀ tokens ∈ call.expanded, '\n' ∉ textOf tokens :=
    fun _ => call.newline_notMem_of_mem_expanded
  unfold replacement at h
  generalize call.expanded = expanded at h hexpanded
  cases expanded with
  | nil =>
    obtain rfl := List.mem_singleton.mp h
    exact newline_notMem_textOf.mpr hlead
  | cons first others =>
    obtain ⟨hfirst, hothers⟩ := List.forall_mem_cons.mp hexpanded
    rcases List.mem_cons.mp h with rfl | h
    · refine newline_notMem_textOf.mpr (List.forall_mem_append.mpr ⟨hlead, ?_⟩)
      exact newline_notMem_textOf.mp hfirst
    · exact hothers tokens h

/-- Some file has the call put inline. -/
theorem exists_text : ∃ text : String, Text.lines text.toList = call.inlined := by
  refine ⟨String.ofList (call.inlined.flatMap (· ++ ['\r', '\n'])), ?_⟩
  rw [String.toList_ofList]
  refine Source.lines_flatMap fun line hline => ?_
  rcases List.mem_append.mp hline with hline | hline
  · exact call.newline_notMem_of_mem_lines (List.mem_append_left _ hline)
  rcases List.mem_append.mp hline with hline | hline
  · obtain ⟨tokens, htokens, rfl⟩ := List.mem_map.mp hline
    exact call.newline_notMem_of_mem_replacement htokens
  · exact call.newline_notMem_of_mem_lines
      (List.mem_append_right _ (List.mem_cons_of_mem _ hline))

end Call

/-- A call of a macro means what the body means in its place: where the body, with the source of the arguments put
in, neither defines a label nor sets the segment or the data format, the file with the call put inline assembles to
the same program. -/
theorem assemble_inlined {catalog : Catalog} {file : Source.File} (call : Call catalog file)
    (hplain : ∀ tokens ∈ call.expanded, Plain call.macros tokens) {fs gs : List Source.File}
    {stackSize : Nat} {p : Program}
    (hp : assemble catalog stackSize (fs ++ file :: gs) = .ok p) :
    (∃ text : String, Text.lines text.toList = call.inlined) ∧
      ∀ text : String, Text.lines text.toList = call.inlined →
        assemble catalog stackSize (fs ++ ⟨file.name, text⟩ :: gs) = .ok p := by
  refine ⟨call.exists_text, fun text htext => assemble_of_laysLike ?_ hp⟩
  have hsame (fs : List Source.File) : List.Forall₂ (LaysLike catalog) fs fs :=
    List.forall₂_same.mpr fun file _ => .refl catalog file
  exact List.rel_append (hsame fs) (.cons (call.laysLike_inlined hplain htext) (hsame gs))

private def macrosText : String :=
  ".macro put(%r, %v)\nli %r, %v\n.end_macro\n" ++
    ".macro go %l, %v\nput(a0, %v)\n.global main\nj %l\n.end_macro\n"

private def callingFile : Source.File :=
  ⟨"a.s", macrosText ++ "main: go (end, 3)\nend: ecall\n"⟩

private def inlinedText : String :=
  macrosText ++ "main: put(a0,  3 )\n.global main\nj  end \nend: ecall\n"

private def callingLine : List Token :=
  tokenize Catalog.builtin "main: go (end, 3)".toList

private def goCall : Call Catalog.builtin callingFile where
  before := Text.lines macrosText.toList
  line := "main: go (end, 3)".toList
  after := ["end: ecall".toList]
  lines := by decide +kernel
  closed := by decide +kernel
  lead := callingLine.take 2
  word := ⟨.symbol, "go".toList⟩
  rest := callingLine.drop 3
  tokens := by decide +kernel
  leads := by decide +kernel
  symbol := rfl
  called := ⟨["l", "v"], [⟨5, tokenize Catalog.builtin "put(a0, %v)".toList⟩,
    ⟨6, tokenize Catalog.builtin ".global main".toList⟩,
    ⟨7, tokenize Catalog.builtin "j %l".toList⟩]⟩
  lookup := by decide +kernel

theorem assemble_inlined_nested :
    ∃ p, assemble Catalog.builtin 0 [callingFile] = .ok p ∧
      assemble Catalog.builtin 0 [⟨callingFile.name, inlinedText⟩] = .ok p := by
  have hok : (assemble Catalog.builtin 0 [callingFile]).toOption.isSome = true := by
    decide +kernel
  obtain ⟨p, hp⟩ := Option.isSome_iff_exists.mp hok
  rw [toOption_eq_some_iff] at hp
  have hplain : ∀ tokens ∈ goCall.expanded, Plain goCall.macros tokens := by decide +kernel
  have htext : Text.lines inlinedText.toList = goCall.inlined := by decide +kernel
  have hfiles : assemble Catalog.builtin 0 ([] ++ callingFile :: []) = .ok p := hp
  exact ⟨p, hp, (assemble_inlined goCall hplain hfiles).2 inlinedText htext⟩

end RiscvToolkit.Assembly
