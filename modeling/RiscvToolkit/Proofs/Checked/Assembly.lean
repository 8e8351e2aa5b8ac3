import RiscvToolkit.Proofs.Assembly.Call
import RiscvToolkit.Proofs.Assembly.Recursion
import RiscvToolkit.Proofs.Checked.Block
import RiscvToolkit.Proofs.Checked.Image

/-! Assembly of lines that looks mnemonics and macros up again where it uses them, and tells operands apart arm by arm.
It goes on as it should with whatever an operand can be, arguments of calls included. -/
namespace RiscvToolkit.Checked
open Assembly (Code Context ErrorKind Error Expansion Location Mode State callArguments
  callArguments_eq_ok located macros_assembleOperands ok_of_located within)
open Source (Operand Operands)

/-- How calls are expanded. -/
abbrev Expander := Expansion → State → Checked Error State

/-- The words of a line. Templates have been expanded. -/
def encode (encoding : Encoding) (ops : Operands) : Except Defect Code :=
  match encoding with
  | .template .. => .error .unreachable
  | encoding => .ok (Assembly.encode encoding ops)

/-- The call of a template. -/
def templateCall (catalog : Catalog) (line : Nat) (name : String) (params : Nat)
    (body : List String) (ops : Operands) : Checked ErrorKind Expansion := do
  let args ← of (callArguments name params ops)
  let lines ← body.mapM fun text => tokenize catalog text.toList
  return {
    bindings := args.zipIdx.map fun (arg, i) => (toString (i + 1), arg)
    body := lines.map (⟨line, ·⟩)
    line
    traced := false }

/-- Assembles a line of words. -/
def assembleWords (c : Context) (line : Nat) (encoding : Encoding) (ops : Operands) (s : State) :
    Checked Error State :=
  mapResult (located line c.file) do
    let code ← encode encoding ops
    let s ← emitAll ⟨line, c.file⟩ s.place code.words s
    match code.failure with
    | none => return s
    | some kind => throw kind

/-- Assembles a line that the mnemonic `name` has been read from. -/
def assembleInstruction (expand : Expander) (c : Context) (line : Nat) (name : String)
    (ops : Operands) (s : State) : Checked Error State :=
  match c.catalog.find? name with
  | none => defect .unreachable
  | some ⟨_, .template params body⟩ => do
    let call := templateCall c.catalog line name params body ops
    expand (← mapResult (located line c.file) call) s
  | some ⟨_, encoding⟩ => assembleWords c line encoding ops s

/-- Calls the macro `name`. -/
def callMacro (expand : Expander) (c : Context) (line : Nat) (name : String) (ops : Operands)
    (s : State) : Checked Error State :=
  match s.macros.lookup name with
  | none => defect .unreachable
  | some m => do expand (← of (located line c.file (Assembly.macroCall line name m ops))) s

/-- The name of the macro that an operand calls. -/
def macro? (m : Mode) : Operand → Option String
  | .symbol name => if (m.macros.lookup name).isSome then some name else none
  | _ => none

/-- Assembles the rest of a line. -/
def assembleOperands (expand : Expander) (c : Context) (line : Nat) :
    Operands → State → Checked Error State
  | .done, s => return s
  | .failed kind, _ => of (located line c.file (.error kind))
  | .next o rest, s =>
    match macro? s.toMode o with
    | some name => callMacro expand c line name rest s
    | none =>
      match o with
      | .label name => do
        let address ← cursor s.image s.place
        assembleOperands expand c line rest { s with labels := (name, address) :: s.labels }
      | .directive name =>
        if Assembly.Directive.ofName? name = some .global then do
          return s.declare (← of (located line c.file (Assembly.globalNames name rest))) line
        else do
          let mode ← of (located line c.file (Assembly.applyDirective name s.toMode))
          assembleOperands expand c line rest { s with toMode := mode }
      | .instruction entry => assembleInstruction expand c line entry.name rest s
      | .register r =>
        of (located line c.file (.error (.loneRegister (c.catalog.reg r.regClass r.index))))
      | .placeholder name => of (located line c.file (.error (.unboundVariable name)))
      | .group _ => of (located line c.file (.error .strayParenthesis))
      | data => do
        let s ← mapResult (located line c.file) (placeData ⟨line, c.file⟩ data s)
        assembleOperands expand c line rest s

/-- Assembles what stands in a block. -/
def assembleItems (expand : Expander) (c : Context) :
    List Source.Item → State → Checked Error State
  | [], s => return s
  | .definition number result :: rest, s => do
    let named ← of (located number c.file result)
    assembleItems expand c rest { s with macros := named :: s.macros }
  | .line l :: rest, s => do
    let s ← assembleOperands expand c l.number (← operands c.bindings l.tokens) s
    assembleItems expand c rest s

/-- Expands calls while at most `depth` of them are active below. -/
def expand (catalog : Catalog) (file : String) : Nat → Expander
  | 0, e, _ => of (located e.line file (.error (.expansionTooDeep Assembly.maxDepth)))
  | depth + 1, e, s =>
    let body (s : State) : Checked Error State := do
      assembleItems (expand catalog file depth) (e.context catalog file) (← items e.body) s
    mapResult (within (e.call? file)) (inScope body s)

/-! ### What can stand where -/

/-- True of modes with macros of tokens of a catalog. -/
def SoundMode (catalog : Catalog) (m : Mode) : Prop :=
  ∀ named ∈ m.macros, SoundMacro catalog named.2

/-- True of calls with arguments and a body of tokens of a catalog. -/
structure SoundCall (catalog : Catalog) (e : Expansion) : Prop where
  bindings : ∀ b ∈ e.bindings, Sound catalog b.2
  body : ∀ l ∈ e.body, SoundLine catalog l

/-- True of catalogs whose templates have lines of less than `textLimit` bytes. -/
def SoundTemplates (catalog : Catalog) : Prop :=
  ∀ entry ∈ catalog.entries, ∀ params body, entry.encoding = .template params body →
    ∀ text ∈ body, text.utf8ByteSize < textLimit

/-- True of operands that are all made of tokens of a catalog. -/
abbrev SoundOperands (catalog : Catalog) (ops : Operands) : Prop :=
  ops.All (Sound catalog) fun _ => True

/-- Expanders that do the same with all calls of tokens of a catalog. -/
def Agree (catalog : Catalog) (x : Expander) (y : Assembly.Expander) : Prop :=
  ∀ e s, SoundCall catalog e → SoundMode catalog s.toMode → x e s = of (y e s)

section
variable {catalog : Catalog} {file : String}

theorem byteSize_toList (text : String) : byteSize text.toList = text.utf8ByteSize := by
  rw [← utf8ByteSize_ofList, String.ofList_toList]

/-- Arguments are operands of the line, or of a group on it. -/
theorem sound_callArguments {name : String} {expected : Nat} {ops : Operands}
    (hops : SoundOperands catalog ops) {args : List Operand}
    (h : callArguments name expected ops = .ok args) : ∀ arg ∈ args, Sound catalog arg := by
  obtain ⟨os, hos, rfl⟩ := callArguments_eq_ok h
  have hsound := hops.of_toList hos
  unfold Source.unwrap
  split
  next items =>
    cases hsound _ (List.mem_singleton_self _) with
    | group hitems => exact hitems
  next => exact hsound

theorem soundCall_macroCall {line : Nat} {name : String} {m : Source.Macro} {ops : Operands}
    (hm : SoundMacro catalog m) (hops : SoundOperands catalog ops) {e : Expansion}
    (h : Assembly.macroCall line name m ops = .ok e) : SoundCall catalog e := by
  unfold Assembly.macroCall at h
  obtain ⟨args, ha, h⟩ := bind_eq_ok_iff.mp h
  cases h
  refine ⟨fun b hb => ?_, hm⟩
  obtain ⟨-, harg⟩ := List.of_mem_zip (List.mem_reverse.mp hb)
  exact sound_callArguments hops ha b.2 harg

theorem soundCall_templateCall {line : Nat} {name : String} {params : Nat} {body : List String}
    (hbody : ∀ text ∈ body, text.utf8ByteSize < textLimit) {ops : Operands}
    (hops : SoundOperands catalog ops) {e : Expansion}
    (h : Assembly.templateCall catalog line name params body ops = .ok e) :
    SoundCall catalog e := by
  unfold Assembly.templateCall at h
  obtain ⟨args, ha, h⟩ := bind_eq_ok_iff.mp h
  cases h
  refine ⟨fun b hb => ?_, fun l hl => ?_⟩
  · obtain ⟨⟨arg, i⟩, hz, rfl⟩ := List.mem_map.mp hb
    exact sound_callArguments hops ha arg (List.fst_mem_of_mem_zipIdx hz)
  · obtain ⟨text, ht, rfl⟩ := List.mem_map.mp hl
    exact soundLine_tokenize ((byteSize_toList text).trans_lt (hbody text ht)) line

theorem soundMode_cons {m : Mode} (hm : SoundMode catalog m) {named : String × Source.Macro}
    (h : SoundMacro catalog named.2) :
    SoundMode catalog { m with macros := named :: m.macros } :=
  List.forall_mem_cons.mpr ⟨h, hm⟩

/-! ### Agreement -/

theorem templateCall_eq (line : Nat) (name : String) (params : Nat) (body : List String)
    (ops : Operands) : templateCall catalog line name params body ops =
      of (Assembly.templateCall catalog line name params body ops) := by
  unfold templateCall Assembly.templateCall
  refine bind_eq_of rfl fun args _ => ?_
  have hlines : (body.mapM fun text => liftM (tokenize catalog text.toList)) =
      (of (.ok (body.map fun text => Source.tokenize catalog text.toList)) :
        Checked ErrorKind (List (List Source.Token))) := by
    simp only [tokenize_eq, liftM_ok, ← pure_eq]
    exact List.mapM_pure
  rw [hlines, of_ok_bind, List.map_map]
  rfl

/-- Only templates have no words of their own. -/
theorem encode_eq {encoding : Encoding} (h : ∀ params body, encoding ≠ .template params body)
    (ops : Operands) : encode encoding ops = .ok (Assembly.encode encoding ops) := by
  cases encoding with
  | template params body => exact absurd rfl (h params body)
  | _ => rfl

theorem assembleWords_eq (y : Assembly.Expander) (c : Context) (line : Nat) (name : String)
    {encoding : Encoding} (h : ∀ params body, encoding ≠ .template params body) (ops : Operands)
    (s : State) : assembleWords c line encoding ops s =
      of (Assembly.assembleInstruction y c line ⟨name, encoding⟩ ops s) := by
  have hcode (code : Code) : (do
      let s ← emitAll ⟨line, c.file⟩ s.place code.words s
      match code.failure with
      | none => return s
      | some kind => throw kind : Checked ErrorKind State) =
        of (do
          let s ← s.add s.place ⟨line, c.file⟩ (.code code.words)
          match code.failure with
          | none => .ok s
          | some kind => .error kind) := by
    refine bind_eq_of (emitAll_eq ..) fun t _ => ?_
    cases code.failure <;> rfl
  rw [assembleWords, encode_eq h, liftM_ok, of_ok_bind, hcode,
    Assembly.assembleInstruction.eq_2 _ _ _ _ _ _ _ h]
  rfl

/-- A mnemonic is found again. -/
theorem assembleInstruction_eq (htemplates : SoundTemplates catalog) {x : Expander}
    {y : Assembly.Expander} (hxy : Agree catalog x y) {c : Context} (hc : c.catalog = catalog)
    (line : Nat) {entry : Entry} (hfind : catalog.find? entry.name = some entry) {ops : Operands}
    (hops : SoundOperands catalog ops) {s : State} (hs : SoundMode catalog s.toMode) :
    assembleInstruction x c line entry.name ops s =
      of (Assembly.assembleInstruction y c line entry ops s) := by
  subst hc
  obtain ⟨name, encoding⟩ := entry
  unfold assembleInstruction
  rw [hfind]
  by_cases ht : ∃ params body, encoding = .template params body
  · obtain ⟨params, body, rfl⟩ := ht
    have hmem := List.mem_of_find?_eq_some hfind
    have hbody := htemplates _ hmem params body rfl
    dsimp only
    rw [templateCall_eq, mapResult_of]
    refine bind_eq_of rfl fun e he => ?_
    exact hxy e s (soundCall_templateCall hbody hops (ok_of_located he)) hs
  · have hne (params : Nat) (body : List String) : encoding ≠ .template params body := fun h =>
      ht ⟨params, body, h⟩
    rw [← assembleWords_eq y c line name hne ops s]
    cases encoding with
    | template params body => exact absurd rfl (hne params body)
    | _ => rfl

theorem callMacro_eq {x : Expander} {y : Assembly.Expander} (hxy : Agree catalog x y) (c : Context)
    (line : Nat) {name : String} {ops : Operands} (hops : SoundOperands catalog ops) {s : State}
    (hs : SoundMode catalog s.toMode) {m : Source.Macro} (hm : s.macros.lookup name = some m) :
    callMacro x c line name ops s =
      of (located line c.file (Assembly.macroCall line name m ops) >>= fun e => y e s) := by
  unfold callMacro
  rw [hm]
  refine bind_eq_of rfl fun e he => ?_
  have hmacro : SoundMacro catalog m := by
    obtain ⟨before, behind, hmacros, -⟩ := List.lookup_eq_some_iff.mp hm
    exact hs _ (hmacros ▸ List.mem_append_right _ List.mem_cons_self)
  exact hxy e s (soundCall_macroCall hmacro hops (ok_of_located he)) hs

/-- An operand is told apart by the arms that come first: what is left for data is data. -/
theorem assembleOperands_eq (htemplates : SoundTemplates catalog) {x : Expander}
    {y : Assembly.Expander} (hxy : Agree catalog x y) {c : Context} (hc : c.catalog = catalog)
    (line : Nat) {ops : Operands} (hops : SoundOperands catalog ops) {s : State}
    (hs : SoundMode catalog s.toMode) :
    assembleOperands x c line ops s = of (Assembly.assembleOperands y c line ops s) := by
  induction ops generalizing s with
  | done => rfl
  | failed kind => rfl
  | next o rest ih =>
    obtain ⟨ho, hrest⟩ := hops
    have hdata {item : Assembly.Datum} (hd : datum o = .ok item)
        (htext : ∀ text, item = .string text → text.utf8ByteSize < textLimit) :
        (do
          let s ← mapResult (located line c.file) (placeData ⟨line, c.file⟩ o s)
          assembleOperands x c line rest s) =
        of (do
          let s ← located line c.file (Assembly.placeDatum ⟨line, c.file⟩ item s)
          Assembly.assembleOperands y c line rest s) := by
      rw [placeData_eq _ hd htext, mapResult_of]
      refine bind_eq_of rfl fun t ht => ih hrest ?_
      rw [Assembly.toMode_placeDatum (ok_of_located ht)]
      exact hs
    cases ho with
    | int => exact hdata rfl fun text h => by cases h
    | float => exact hdata rfl fun text h => by cases h
    | string htext =>
      refine hdata rfl fun text h => ?_
      cases h
      exact htext
    | @label name =>
      simp only [assembleOperands, Assembly.assembleOperands, macro?, cursor_eq, liftM_ok,
        of_ok_bind]
      exact ih hrest hs
    | @directive name =>
      simp only [assembleOperands, Assembly.assembleOperands, macro?]
      split_ifs with hglobal
      · exact bind_eq_of rfl fun names _ => rfl
      · refine bind_eq_of rfl fun mode hmode => ih hrest ?_
        have hmacros := Assembly.Script.macros_applyDirective (ok_of_located hmode)
        intro named hnamed
        exact hs named (hmacros ▸ hnamed)
    | instruction hfind => exact assembleInstruction_eq htemplates hxy hc line hfind hrest hs
    | register => rfl
    | placeholder => rfl
    | @symbol name =>
      cases hm : s.macros.lookup name with
      | none =>
        simp only [assembleOperands, Assembly.assembleOperands, macro?, hm]
        exact hdata rfl fun text h => by cases h
      | some m =>
        simp only [assembleOperands, Assembly.assembleOperands, macro?, hm]
        exact callMacro_eq hxy c line hrest hs hm
    | group => rfl

/-- Macros that a block defines are made of its lines, and a line leaves the macros as they are. -/
theorem assembleItems_eq (htemplates : SoundTemplates catalog) {x : Expander} {depth : Nat}
    (hx : Agree catalog x (Assembly.expand catalog file depth)) {c : Context}
    (hc : c.catalog = catalog) (hb : ∀ b ∈ c.bindings, Sound catalog b.2)
    {items : List Source.Item} (hitems : ∀ item ∈ items, SoundItem catalog item) {s : State}
    (hs : SoundMode catalog s.toMode) :
    assembleItems x c items s =
      of (Assembly.assembleItems (Assembly.expand catalog file depth) c items s) := by
  induction items generalizing s with
  | nil => rfl
  | cons item rest ih =>
    obtain ⟨hitem, hrest⟩ := List.forall_mem_cons.mp hitems
    cases item with
    | definition number result =>
      refine bind_eq_of rfl fun named hnamed => ih hrest (soundMode_cons hs ?_)
      cases ok_of_located hnamed
      exact hitem
    | line l =>
      have hshaped (t : Source.Token) (ht : t ∈ l.tokens) := (hitem t ht).1
      have hops := all_sound_operands hb hshaped fun t ht => (hitem t ht).2
      rw [assembleItems, operands_eq c.bindings hshaped, liftM_ok, of_ok_bind]
      refine bind_eq_of (assembleOperands_eq htemplates hx hc l.number hops hs) fun t ht => ?_
      refine ih hrest fun named hnamed => ?_
      exact hs named (macros_assembleOperands ht ▸ hnamed)

/-- An expansion starts with the macros of the call. -/
theorem agree_expand (htemplates : SoundTemplates catalog) (file : String) (depth : Nat) :
    Agree catalog (expand catalog file depth) (Assembly.expand catalog file depth) := by
  induction depth with
  | zero => exact fun _ _ _ _ => rfl
  | succ depth ih =>
    intro e s he hs
    have hbody : (do
        assembleItems (expand catalog file depth) (e.context catalog file) (← items e.body)
          { s with labels := [], relocations := #[] }) =
        of (Assembly.assembleItems (Assembly.expand catalog file depth) (e.context catalog file)
          (Source.items e.body) { s with labels := [], relocations := #[] }) := by
      rw [items_eq he.body, liftM_ok, of_ok_bind]
      exact assembleItems_eq htemplates ih rfl he.bindings (soundItem_of_items he.body) hs
    rw [expand, inScope_eq hbody, mapResult_of]
    rfl

end

end RiscvToolkit.Checked
