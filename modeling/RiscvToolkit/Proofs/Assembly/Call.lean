import RiscvToolkit.Proofs.Assembly.Lead
import RiscvToolkit.Proofs.Assembly.Success
import RiscvToolkit.Proofs.Source.Substitute

/-! Calls of macros on the lines of a file: what a call puts in place of its line, and how a file with a call is
laid out around the body of the macro. -/
namespace RiscvToolkit.Assembly
open Source (Token Line tokenize operands textOf numbered)

/-- A call of a macro on a line of a file, outside of macro definitions. -/
structure Call (catalog : Catalog) (file : Source.File) where
  /-- The lines in front of the line of the call. -/
  before : List (List Char)
  line : List Char
  after : List (List Char)
  lines : Text.lines file.text.toList = before ++ line :: after
  closed : ∀ item ∈ Source.items (numbered catalog 0 before), item.isOpen = false
  /-- The tokens in front of the call. -/
  lead : List Token
  /-- The name of the macro. -/
  word : Token
  /-- The tokens of the arguments. -/
  rest : List Token
  tokens : tokenize catalog line = lead ++ word :: rest
  /-- Labels, directives and data items alone; behind anything else, a name is an operand. -/
  leads : ∀ t ∈ lead,
    Assembly.leads (Source.definitions (Source.items (numbered catalog 0 before))) t = true
  symbol : word.kind = .symbol
  called : Source.Macro
  lookup : (Source.definitions (Source.items (numbered catalog 0 before))).lookup
    (String.ofList word.text) = some called

namespace Call
variable {catalog : Catalog} {file : Source.File} (call : Call catalog file)

/-- The macros in force at the call. -/
def macros : List (String × Source.Macro) :=
  Source.definitions (Source.items (numbered catalog 0 call.before))

/-- The source of the arguments by parameter, the last of several of one name first. -/
def arguments : List (String × List Token) :=
  (call.called.params.zip (Source.argumentSpans call.rest)).reverse

/-- The lines of the body with the source of the arguments put in. -/
def expanded : List (List Token) :=
  call.called.body.map fun l => Source.substitute call.arguments l.tokens

/-- The lines that stand in place of the line of the call. -/
def replacement : List (List Token) :=
  match call.expanded with
  | [] => [call.lead]
  | first :: others => (call.lead ++ first) :: others

/-- The lines of the file with the call put inline. -/
def inlined : List (List Char) :=
  call.before ++ (call.replacement.map textOf ++ call.after)

end Call

theorem callArguments_eq_ok {name : String} {expected : Nat} {ops : Source.Operands}
    {args : List Source.Operand} (h : callArguments name expected ops = .ok args) :
    ∃ os, ops.toList = .ok os ∧ Source.unwrap os = args := by
  unfold callArguments at h
  obtain ⟨os, hl, h⟩ := bind_eq_ok_iff.mp h
  refine ⟨os, hl, ?_⟩
  split at h
  · rw [ok_bind] at h
    dsimp only at h
    split_ifs at h
    cases h
    rfl
  · rename_i hne
    rw [ok_bind] at h
    dsimp only at h
    split_ifs at h
    cases h
    exact Source.unwrap_of_ne hne

theorem forall₂_zip {α β γ : Type} {R : α → β → Prop} (names : List γ) {xs : List α}
    {ys : List β} (h : List.Forall₂ R xs ys) :
    List.Forall₂ (fun a b => a.1 = b.1 ∧ R a.2 b.2) (names.zip xs) (names.zip ys) := by
  induction h generalizing names with
  | nil =>
    rw [List.zip_nil_right, List.zip_nil_right]
    exact .nil
  | cons h _ ih =>
    cases names with
    | nil => exact .nil
    | cons name names => exact .cons ⟨rfl, h⟩ (ih names)

namespace Call
variable {catalog : Catalog} {file : Source.File} (call : Call catalog file)

/-- What reads the lines of the file. -/
def context (_ : Call catalog file) : Context := ⟨catalog, file.name, []⟩

def expand (_ : Call catalog file) : Expansion → Mode → Script :=
  Script.ofExpansion catalog file.name maxDepth

/-- The number of the line of the call. -/
def number : Nat := call.before.length + 1

theorem joined_tokens : Source.Joined catalog (call.lead ++ call.word :: call.rest) :=
  call.tokens ▸ Source.joined_tokenize call.line

/-- A line with a call on it starts no definition. -/
theorem leading?_line (i : Nat) :
    (Line.mk i (tokenize catalog call.line)).leading? ≠ some "macro".toList := by
  unfold Line.leading?
  rw [call.tokens, List.find?_append, List.find?_cons_of_pos (by simp [call.symbol])]
  intro h
  cases hf : call.lead.find? (·.kind ≠ .space) with
  | none =>
    rw [hf] at h
    simp [call.symbol] at h
  | some t =>
    rw [hf] at h
    dsimp only [Option.some_or] at h
    split_ifs at h with hd
    have ht := call.leads t (List.mem_of_find?_eq_some hf)
    simp only [Assembly.leads, hd, alters] at ht
    rw [Option.some.inj h] at ht
    cases ht

/-- The script of the file, cut behind the lines in front of the call, behind what stands in front of it, and
behind the call. -/
theorem ofFile_eq : Script.ofFile catalog file =
    (Script.ofLines catalog file.name (numbered catalog 0 call.before) .start).bind fun m =>
      (Script.ofOperands call.expand call.context call.number
        (operands [] (call.lead ++ call.word :: call.rest)) m).bind
          (Script.ofLines catalog file.name (numbered catalog call.number call.after)) := by
  have hlines : Source.linesOf catalog file.text = numbered catalog 0 call.before ++
      (⟨call.number, tokenize catalog call.line⟩ ::
        numbered catalog call.number call.after) := by
    change numbered catalog 0 (Text.lines file.text.toList) = _
    rw [call.lines, Source.numbered_append, Nat.zero_add]
    rfl
  have hitems := Source.items_append_of_leading?
    (List.forall_mem_singleton.mpr (call.leading?_line call.number))
    (numbered catalog call.number call.after)
  unfold Script.ofFile
  rw [hlines, Script.ofLines_append _ _ call.closed]
  congr 1
  funext m
  unfold Script.ofLines
  rw [← List.singleton_append, hitems, ← call.tokens]
  rfl

theorem body_subset {l : Line} (hl : l ∈ call.called.body) :
    l ∈ numbered catalog 0 call.before ∧ l.leading? ≠ some "end_macro".toList := by
  obtain ⟨ls, rs, hd, -⟩ := List.lookup_eq_some_iff.mp call.lookup
  have hmem : (String.ofList call.word.text, call.called) ∈
      Source.definitions (Source.items (numbered catalog 0 call.before)) :=
    hd ▸ List.mem_append_right _ List.mem_cons_self
  exact Source.body_of_mem_definitions hmem l hl

/-- What the call expands to. -/
def expansion? : Except ErrorKind Expansion :=
  macroCall call.number (String.ofList call.word.text) call.called (operands [] call.rest)

/-- The parts that the file is laid out in: what is in front of the line of the call and of the call on it, the
body of the macro, and what is behind. -/
structure Laid (i : Image) (l : Layout) where
  front : Layout
  lead : Layout
  expansion : Expansion
  body : Layout
  behind : Layout
  lay_front : (Script.ofLines catalog file.name (numbered catalog 0 call.before) .start).lay i =
    some front
  lay_lead : (Script.ofOperands call.expand call.context call.number (operands [] call.lead)
    front.mode).lay front.image = some lead
  expands : call.expansion? = .ok expansion
  lay_body : (Script.ofItems call.expand ⟨catalog, file.name, expansion.bindings⟩
    (call.called.body.map .line) lead.mode).lay lead.image = some body
  lay_behind : (Script.ofLines catalog file.name (numbered catalog call.number call.after)
    lead.mode).lay body.image = some behind
  outline : l.outline = front.outline.append
    ((lead.outline.append (.expansion body.outline .done)).append behind.outline)
  image : l.image = behind.image

/-- The macros in force at the call are those that the lines in front of it define. -/
theorem macros_front {i : Image} {front : Layout}
    (h : (Script.ofLines catalog file.name (numbered catalog 0 call.before) .start).lay i =
      some front) : front.mode.macros = call.macros := by
  obtain ⟨hmode, -⟩ := Script.static_of_lay h
  have hm := Script.macros_eq_definitions
    (Script.keepsMode_ofExpansion catalog file.name maxDepth) hmode
  exact hm.trans (List.append_nil _)

theorem macros_lead {line : Nat} {tokens : List Token} {m : Mode} {i : Image} {lead : Layout}
    (h : (Script.ofOperands call.expand call.context line (operands [] tokens) m).lay i =
      some lead) : lead.mode.macros = m.macros := by
  obtain ⟨hmode, -⟩ := Script.static_of_lay h
  exact Script.macros_ofOperands (Script.keepsMode_ofExpansion catalog file.name maxDepth) hmode

/-- What a call passes on: operands that its tokens spell, and the body of the macro. -/
theorem expansion?_eq_ok {e : Expansion} (h : call.expansion? = .ok e) :
    Source.Spell catalog call.arguments e.bindings ∧ e.body = call.called.body := by
  unfold expansion? macroCall at h
  obtain ⟨args, ha, h⟩ := bind_eq_ok_iff.mp h
  cases h
  obtain ⟨os, hos, rfl⟩ := callArguments_eq_ok ha
  have hrest : Source.Joined catalog call.rest := by
    obtain ⟨-, hword, -⟩ := Source.joined_append.mp call.joined_tokens
    exact (Source.joined_cons.mp hword).2.2
  have hspans := (Source.reads_of_toList hos).argumentSpans
  have hzip := forall₂_zip call.called.params hspans
  refine ⟨List.rel_reverse (hzip.imp fun a b h => ?_), rfl⟩
  exact ⟨h.1, h.2.1, hrest.infix h.2.2⟩

/-- A call that is laid out has its body laid out, at any depth. -/
theorem exists_body {m : Mode} (hm : m.macros = call.macros) {i : Image} {k : Layout}
    (h : (Script.ofOperands call.expand call.context call.number
      (operands [] (call.word :: call.rest)) m).lay i = some k) :
    ∃ e d, call.expansion? = .ok e ∧
      (Script.ofItems call.expand ⟨catalog, file.name, e.bindings⟩ (call.called.body.map .line)
        m).lay i = some d ∧ k = ⟨.expansion d.outline .done, m, d.image⟩ := by
  have hword : call.word.operand [] = .ok (.symbol (String.ofList call.word.text)) := by
    unfold Source.Token.operand
    rw [call.symbol]
  have hops : operands [] (call.word :: call.rest) =
      .next (.symbol (String.ofList call.word.text)) (operands [] call.rest) :=
    Source.operandsFrom_operand hword [] call.rest
  have hlookup : m.macros.lookup (String.ofList call.word.text) = some call.called := by
    rw [hm]
    exact call.lookup
  rw [hops] at h
  simp only [Script.ofOperands, hlookup] at h
  change (Script.check _ _ call.expansion? _).lay i = some k at h
  cases he : call.expansion? with
  | error kind =>
    rw [he] at h
    cases h
  | ok e =>
    rw [he] at h
    obtain ⟨d, hd, hk⟩ := Option.bind_eq_some_iff.mp h
    cases hk
    rw [(call.expansion?_eq_ok he).2] at hd
    obtain ⟨hmode, -⟩ := Script.static_of_lay hd
    have hitems : Source.items call.called.body = call.called.body.map .line :=
      Source.items_eq_map_of_body (fun l hl => (call.body_subset hl).2)
        (Script.isFailed_of_succeeds ⟨_, hmode⟩)
    rw [hitems] at hd hmode
    refine ⟨e, d, rfl, ?_, rfl⟩
    -- inside the macro one level less of nesting is left, and that was enough
    have hdeep := Script.ofItems_extends (Script.ofExpansion_extends catalog file.name 63) ⟨_, hmode⟩
    rw [← hdeep] at hd
    exact hd

/-- A file that is laid out is laid out in parts around the body of the macro. -/
theorem laid {i : Image} {l : Layout} (h : (Script.ofFile catalog file).lay i = some l) :
    Nonempty (call.Laid i l) := by
  rw [call.ofFile_eq, Script.lay_bind_eq_some_iff] at h
  obtain ⟨front, back, hfront, hback, rfl⟩ := h
  have hm := call.macros_front hfront
  have hleads : ∀ t ∈ call.lead, Assembly.leads front.mode.macros t = true := by
    rw [hm]
    exact call.leads
  rw [Script.lay_bind_eq_some_iff] at hback
  obtain ⟨line, behind, hline, hbehind, rfl⟩ := hback
  rw [Script.ofOperands_append hleads, Script.lay_bind_eq_some_iff] at hline
  obtain ⟨lead, k, hlead, hk, rfl⟩ := hline
  obtain ⟨e, body, he, hbody, rfl⟩ := call.exists_body ((call.macros_lead hlead).trans hm) hk
  exact ⟨⟨front, lead, e, body, behind, hfront, hlead, he, hbody, hbehind, rfl, rfl⟩⟩

end Call

end RiscvToolkit.Assembly
