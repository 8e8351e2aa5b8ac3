import RiscvToolkit.Proofs.Except
import RiscvToolkit.Proofs.Source.Operands
import RiscvToolkit.Assembly.Block

/-! What is wrong with a text. Tokens, operands, directives and the headers of macros are read without a label, an image
or a call being looked at, and so are the errors that reading ends in. -/
namespace RiscvToolkit.Assembly
open Source (Operand Operands Token)

/-- True of errors that a text has by itself. -/
def ErrorKind.Textual : ErrorKind → Prop
  | .expansionTooDeep _ | .unresolvedLabel _ | .oddTarget | .targetOutOfRange _ _ |
    .segmentOverflow _ => False
  | _ => True

/-- True of a value with `P`, and of an error with `K`. -/
def Reading {α : Type} (K : ErrorKind → Prop) (P : α → Prop) : Except ErrorKind α → Prop
  | .ok a => P a
  | .error kind => K kind

namespace Reading
variable {α β : Type} {K : ErrorKind → Prop} {P : α → Prop} {Q : β → Prop}
variable {x : Except ErrorKind α}

theorem bind (h : Reading K P x) {f : α → Except ErrorKind β}
    (hf : ∀ a, P a → Reading K Q (f a)) : Reading K Q (x >>= f) := by
  cases x with
  | error kind => exact h
  | ok a => exact hf a h

theorem map (h : Reading K P x) {f : α → β} (hf : ∀ a, P a → Q (f a)) :
    Reading K Q (x.map f) := by
  cases x with
  | error kind => exact h
  | ok a => exact hf a h

end Reading

/-- True of operands that end with an error with `K`, if with one. -/
def Readable (K : ErrorKind → Prop) (ops : Operands) : Prop :=
  ops.All (fun _ => True) K

/-- True of code that is stopped by an error with `K`, if by one. -/
def Code.Fails (K : ErrorKind → Prop) (code : Code) : Prop :=
  ∀ kind ∈ code.failure, K kind

/-! ### Operands -/

section
variable {K : ErrorKind → Prop} {ops : Operands}

theorem reading_toList (h : Readable K ops) : Reading K (fun _ => True) ops.toList := by
  cases ho : ops.toList with
  | ok os => trivial
  | error kind => exact h.of_toList_error ho

variable (hK : ∀ kind, kind.Textual → K kind)
include hK

theorem reading_decoded (t : Token) : Reading K (fun _ => True) t.decoded := by
  unfold Token.decoded
  cases Text.Quoted.decode t.inner with
  | ok cs => trivial
  | error c => exact hK _ trivial

theorem reading_operand (bindings : Source.Bindings) (t : Token) :
    Reading K (fun _ => True) (t.operand bindings) := by
  have hd := reading_decoded hK t
  unfold Token.operand
  split
  case h_9 => exact hd.map fun _ _ => trivial
  case h_10 =>
    split
    next => trivial
    next => exact hK _ trivial
    next hk =>
      rw [hk] at hd
      exact hd
  all_goals first | trivial | exact hK _ trivial

theorem readable_operands (bindings : Source.Bindings) (ts : List Token) :
    Readable K (Source.operands bindings ts) := by
  refine Source.all_operandsFrom (fun _ _ => trivial) (hK _ trivial) (fun _ _ _ _ => trivial)
    (fun t _ kind ho => ?_) (List.forall_mem_nil _)
  have hr := reading_operand hK bindings t
  rw [ho] at hr
  exact hr

theorem reading_required (h : Readable K ops) :
    Reading K (fun r => Readable K r.2) ops.required := by
  cases ops with
  | done => exact hK _ trivial
  | failed kind => exact h
  | next head tail => exact h.2

theorem reading_finish (h : Readable K ops) : Reading K (fun _ => True) ops.finish := by
  cases ops with
  | done => trivial
  | failed kind => exact h
  | next head tail => exact hK _ trivial

theorem reading_expectRegister (regClass : RegClass) (h : Readable K ops) :
    Reading K (fun r => Readable K r.2) (expectRegister regClass ops) := by
  refine (reading_required hK h).bind fun r hr => ?_
  split
  · split
    · exact hr
    · cases regClass <;> exact hK _ trivial
  · cases regClass <;> exact hK _ trivial

theorem reading_expectInt (h : Readable K ops) :
    Reading K (fun r => Readable K r.2) (expectInt ops) := by
  refine (reading_required hK h).bind fun r hr => ?_
  split
  · exact hr
  · exact hK _ trivial

theorem reading_expectLabel (h : Readable K ops) :
    Reading K (fun r => Readable K r.2) (expectLabel ops) := by
  refine (reading_required hK h).bind fun r hr => ?_
  split
  · exact hr
  · exact hK _ trivial

theorem reading_expectSigned12 (h : Readable K ops) :
    Reading K (fun r => Readable K r.2) (expectSigned12 ops) := by
  refine (reading_expectInt hK h).bind fun r hr => ?_
  dsimp only
  split
  · exact hr
  · exact hK _ trivial

theorem reading_expectAmount (h : Readable K ops) :
    Reading K (fun r => Readable K r.2) (expectAmount ops) := by
  refine (reading_expectInt hK h).bind fun r hr => ?_
  dsimp only
  split
  · exact hr
  · exact hK _ trivial

theorem reading_baseRegister (items : List Operand) :
    Reading K (fun _ => True) (baseRegister items) := by
  unfold baseRegister
  split
  case h_2 => split <;> first | trivial | exact hK _ trivial
  all_goals exact hK _ trivial

theorem reading_labelInParens (items : List Operand) :
    Reading K (fun _ => True) (labelInParens items) := by
  unfold labelInParens
  split
  case h_2 => trivial
  all_goals exact hK _ trivial

theorem reading_memoryOperand (scratch : Option Reg) (h : Readable K ops) :
    Reading K (fun m => Readable K m.rest) (memoryOperand scratch ops) := by
  refine (reading_required hK h).bind fun r hr => ?_
  split
  next =>
    split
    · exact (reading_baseRegister hK _).bind fun _ _ => hr.2
    · exact hK _ trivial
  next => exact hK _ trivial
  next => exact hr
  next =>
    dsimp only
    split
    · trivial
    · split
      · split <;> first | trivial | exact hK _ trivial
      · exact hK _ trivial
  next => exact (reading_baseRegister hK _).bind fun _ _ => hr
  next =>
    dsimp only
    split
    · exact hr
    · exact (reading_expectRegister hK .int hr).bind fun _ h => h
  next => exact hK _ trivial

theorem reading_upperOperand (h : Readable K ops) :
    Reading K (fun r => Readable K r.2.2) (upperOperand ops) := by
  refine (reading_required hK h).bind fun r hr => ?_
  split
  next => exact hr
  next =>
    refine (reading_required hK hr).bind fun r hr => ?_
    split
    · exact (reading_labelInParens hK _).bind fun _ _ => hr
    · exact hK _ trivial
  next =>
    split
    · exact hr
    · exact hK _ trivial
  next => exact hK _ trivial

/-! ### Lines -/

omit hK in
theorem fails_ofExcept {x : Except ErrorKind (List Emission)} (h : Reading K (fun _ => True) x) :
    (Code.ofExcept x).Fails K := by
  cases x with
  | ok words => exact fun _ h => absurd h (Option.not_mem_none _)
  | error kind =>
    rintro _ ⟨⟩
    exact h

theorem fails_accessCode (link : String → Link) (word : Reg → UInt32 → UInt32)
    {m : Except ErrorKind MemoryOperand} (h : Reading K (fun m => Readable K m.rest) m) :
    (accessCode link word m).Fails K := by
  cases m with
  | error kind =>
    rintro _ ⟨⟩
    exact h
  | ok m =>
    have hf : Reading K (fun _ => True) m.rest.finish := reading_finish hK h
    unfold accessCode
    dsimp only
    split
    next hm =>
      rw [hm] at hf
      rintro _ ⟨⟩
      exact hf
    next => exact fun _ h => absurd h (Option.not_mem_none _)

theorem fails_encode (encoding : Encoding) (h : Readable K ops) :
    (encode encoding ops).Fails K := by
  cases encoding with
  | r opcode funct3 funct7 rd rs1 rs2 =>
    refine fails_ofExcept ((reading_expectRegister hK rd h).bind fun _ h => ?_)
    refine (reading_expectRegister hK rs1 h).bind fun _ h => ?_
    refine (reading_expectRegister hK rs2 h).bind fun _ h => ?_
    exact (reading_finish hK h).bind fun _ _ => trivial
  | i opcode funct3 operands =>
    cases operands with
    | immediate rd rs1 =>
      refine fails_ofExcept ((reading_expectRegister hK rd h).bind fun _ h => ?_)
      refine (reading_expectRegister hK rs1 h).bind fun _ h => ?_
      refine (reading_expectSigned12 hK h).bind fun _ h => ?_
      exact (reading_finish hK h).bind fun _ _ => trivial
    | shift rd rs1 funct7 =>
      refine fails_ofExcept ((reading_expectRegister hK rd h).bind fun _ h => ?_)
      refine (reading_expectRegister hK rs1 h).bind fun _ h => ?_
      refine (reading_expectAmount hK h).bind fun _ h => ?_
      exact (reading_finish hK h).bind fun _ _ => trivial
    | offset rd =>
      have hr := reading_expectRegister hK rd h
      unfold encode
      dsimp only
      split
      next he =>
        rw [he] at hr
        rintro _ ⟨⟩
        exact hr
      next he =>
        rw [he] at hr
        exact fails_accessCode hK _ _ (reading_memoryOperand hK _ hr)
  | s opcode funct3 source =>
    have hr := reading_expectRegister hK source h
    unfold encode
    dsimp only
    split
    next he =>
      rw [he] at hr
      rintro _ ⟨⟩
      exact hr
    next he =>
      rw [he] at hr
      exact fails_accessCode hK _ _ (reading_memoryOperand hK _ hr)
  | b opcode funct3 rs1 rs2 =>
    refine fails_ofExcept ((reading_expectRegister hK rs1 h).bind fun _ h => ?_)
    refine (reading_expectRegister hK rs2 h).bind fun _ h => ?_
    refine (reading_expectLabel hK h).bind fun _ h => ?_
    exact (reading_finish hK h).bind fun _ _ => trivial
  | j opcode =>
    refine fails_ofExcept ((reading_expectRegister hK .int h).bind fun _ h => ?_)
    exact (reading_expectLabel hK h).bind fun _ h => (reading_finish hK h).bind fun _ _ => trivial
  | u opcode =>
    refine fails_ofExcept ((reading_expectRegister hK .int h).bind fun _ h => ?_)
    exact (reading_upperOperand hK h).bind fun _ h => (reading_finish hK h).bind fun _ _ => trivial
  | w word => exact fails_ofExcept ((reading_finish hK h).bind fun _ _ => trivial)
  | template params lines => exact fun _ h => absurd h (Option.not_mem_none _)
  | la =>
    refine fails_ofExcept ((reading_expectRegister hK .int h).bind fun _ h => ?_)
    exact (reading_expectLabel hK h).bind fun _ h => (reading_finish hK h).bind fun _ _ => trivial
  | li =>
    refine fails_ofExcept ((reading_expectRegister hK .int h).bind fun _ h => ?_)
    refine (reading_expectInt hK h).bind fun _ h => (reading_finish hK h).bind fun _ _ => ?_
    unfold loadInteger
    dsimp only
    split
    · trivial
    · split <;> first | trivial | exact hK _ trivial

theorem reading_callArguments (name : String) (expected : Nat) (h : Readable K ops) :
    Reading K (fun _ => True) (callArguments name expected ops) := by
  refine (reading_toList h).bind fun args _ => ?_
  dsimp only
  split <;>
    · rw [ok_bind]
      split_ifs <;> first | trivial | exact hK _ trivial

theorem reading_templateCall (catalog : Catalog) (line : Nat) (name : String) (params : Nat)
    (body : List String) (h : Readable K ops) :
    Reading K (fun _ => True) (templateCall catalog line name params body ops) :=
  (reading_callArguments hK name params h).bind fun _ _ => trivial

theorem reading_macroCall (line : Nat) (name : String) (m : Source.Macro) (h : Readable K ops) :
    Reading K (fun _ => True) (macroCall line name m ops) :=
  (reading_callArguments hK name m.params.length h).bind fun _ _ => trivial

theorem reading_globalNames (directive : String) (h : Readable K ops) :
    Reading K (fun _ => True) (globalNames directive ops) := by
  have hnames (labels : List Operand) :
      Reading K (fun _ => True) (labelNames directive labels) := by
    induction labels with
    | nil => trivial
    | cons o rest ih =>
      cases o with
      | symbol name => exact ih.map fun _ _ => trivial
      | _ => exact hK _ trivial
  refine (reading_toList h).bind fun labels _ => ?_
  split
  · exact hK _ trivial
  · exact hnames _

theorem reading_applyDirective (name : String) (m : Mode) :
    Reading K (fun _ => True) (applyDirective name m) := by
  unfold applyDirective
  split
  case h_2 => split <;> first | trivial | exact hK _ trivial
  all_goals first | trivial | exact hK _ trivial

theorem reading_store (m : Mode) (item : Datum) : Reading K (fun _ => True) (m.store item) := by
  unfold Mode.store
  split
  · exact hK _ trivial
  · unfold DataFormat.store
    split <;> first | trivial | exact hK _ trivial

/-! ### Macros -/

theorem reading_header (l : Source.Line) : Reading K (fun _ => True) (Source.header l) := by
  have hparameter (o : Operand) : Reading K (fun _ => True) (Source.parameter o) := by
    cases o <;> first | trivial | exact hK _ trivial
  have hgroup (items : List Operand) : Reading K (fun _ => True) (items.mapM Source.parameter) := by
    induction items with
    | nil => trivial
    | cons o items ih =>
      rw [List.mapM_cons]
      exact (hparameter o).bind fun _ _ => ih.bind fun _ _ => trivial
  have hall (ops : List Operand) : Reading K (fun _ => True) (Source.parameters ops) := by
    induction ops with
    | nil => trivial
    | cons o rest ih =>
      cases o with
      | group items => exact (hgroup items).bind fun _ _ => ih.bind fun _ _ => trivial
      | _ => exact (hparameter _).bind fun _ _ => ih.bind fun _ _ => trivial
  have hl := readable_operands hK [] l.tokens
  unfold Source.header
  split
  next name rest ho =>
    rw [ho] at hl
    exact (reading_toList hl.2.2).bind fun ops _ => (hall ops).bind fun _ _ => trivial
  next kind ho =>
    rw [ho] at hl
    exact hl.2
  next => exact hK _ trivial

/-- What is wrong with a definition is in the text. -/
theorem reading_definition (ls : List Source.Line) {number : Nat}
    {result : Except ErrorKind (String × Source.Macro)}
    (h : .definition number result ∈ Source.items ls) : Reading K (fun _ => True) result := by
  unfold Source.items at h
  generalize (none : Option Source.Unfinished) = u at h
  fun_induction Source.itemsFrom u ls with
  | case1 => cases h
  | case2 =>
    cases List.mem_singleton.mp h
    exact hK _ trivial
  | case4 l rest hl kind hh ih =>
    rcases List.mem_cons.mp h with h | h
    · cases h
      have hreads := reading_header hK l
      rw [hh] at hreads
      exact hreads
    · exact ih h
  | case5 l rest hl ih =>
    rcases List.mem_cons.mp h with h | h
    · cases h
    · exact ih h
  | case6 u l rest hl ih =>
    rcases List.mem_cons.mp h with h | h
    · cases h
      trivial
    · exact ih h
  | case3 _ _ _ _ _ _ ih | case7 _ _ _ _ ih => exact ih h

end

end RiscvToolkit.Assembly
