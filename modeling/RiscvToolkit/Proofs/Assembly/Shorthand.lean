import RiscvToolkit.Proofs.Assembly.Inventory
import RiscvToolkit.Proofs.Assembly.MachineLine
import RiscvToolkit.Proofs.Source.Operands

/-! The shorthands of the built-in catalog. Each is a template of one line: a use places the word that the line places
with the operands in it, and a machine that executes the word does what the name says. -/
namespace RiscvToolkit
open Source (Bindings Operand Operands)

namespace Source
open Assembly (operandsOf)

/-- What an operand outside of parentheses stands for under bindings. -/
def Operand.filled (bindings : Bindings) : Operand → Operand
  | .placeholder name => (bindings.lookup name).getD (.placeholder name)
  | o => o

theorem Token.operand_filled (bindings : Bindings) {t : Token} {o : Operand}
    (h : t.operand [] = .ok o) : t.operand bindings = .ok (o.filled bindings) := by
  obtain ⟨kind, text⟩ := t
  cases kind with
  | placeholder =>
    cases h
    rfl
  | string =>
    simp only [Token.operand] at h ⊢
    cases hd : Token.decoded ⟨.string, text⟩ with
    | error kind =>
      rw [hd] at h
      cases h
    | ok cs =>
      rw [hd] at h
      cases h
      rfl
  | char =>
    simp only [Token.operand] at h ⊢
    split at h <;> cases h
    rfl
  | _ => cases h <;> rfl

/-- A line without parentheses is read with what its placeholders stand for. -/
theorem operands_filled (bindings : Bindings) {ts : List Token}
    (hts : ∀ t ∈ ts, t.kind ≠ .openParen ∧ t.kind ≠ .closeParen) {os : List Operand}
    (h : operands [] ts = operandsOf os) :
    operands bindings ts = operandsOf (os.map (·.filled bindings)) := by
  unfold operands at h ⊢
  induction ts generalizing os with
  | nil =>
    cases os with
    | nil => rfl
    | cons o os => cases h
  | cons t ts ih =>
    obtain ⟨⟨hopen, hclose⟩, hts⟩ := List.forall_mem_cons.mp hts
    by_cases ht : t.isTrivia = true
    · rw [operandsFrom_trivia ht] at h ⊢
      exact ih hts h
    · have hsingle := isSingle_of_not ht hopen hclose
      rw [operandsFrom_single hsingle] at h ⊢
      cases ho : t.operand [] with
      | error kind =>
        rw [ho] at h
        cases os <;> cases h
      | ok o =>
        rw [ho] at h
        cases os with
        | nil => cases h
        | cons o' os =>
          obtain ⟨rfl, hrest⟩ := Operands.next.inj h
          rw [Token.operand_filled bindings ho, List.map_cons, operandsOf, ← ih hts hrest]
          rfl

end Source

def Encoding.isTemplate : Encoding → Bool
  | .template .. => true
  | _ => false

namespace Assembly

/-! ### What the names say -/

/-- Shorthands that compute a register from another. -/
inductive Unary where
  | mv | not | neg | seqz | snez | sltz | sgtz
  deriving DecidableEq, Repr

/-- Branches that compare a register with zero. -/
inductive ZeroTest where
  | beqz | bnez | blez | bgez | bltz | bgtz
  deriving DecidableEq, Repr

/-- Branches that compare two registers. -/
inductive Comparison where
  | bgt | ble | bgtu | bleu
  deriving DecidableEq, Repr

/-- Jumps to a label. -/
inductive Goto where
  | j | tail | call
  deriving DecidableEq, Repr

def Unary.value (op : Unary) (v : UInt64) : UInt64 :=
  match op with
  | mv => v
  | not => ~~~v
  | neg => -v
  | seqz => if v = 0 then 1 else 0
  | snez => if v ≠ 0 then 1 else 0
  | sltz => if v.toInt64.toInt < 0 then 1 else 0
  | sgtz => if 0 < v.toInt64.toInt then 1 else 0

def ZeroTest.holds (op : ZeroTest) (v : UInt64) : Bool :=
  match op with
  | beqz => v = 0
  | bnez => v ≠ 0
  | blez => v.toInt64.toInt ≤ 0
  | bgez => 0 ≤ v.toInt64.toInt
  | bltz => v.toInt64.toInt < 0
  | bgtz => 0 < v.toInt64.toInt

/-- The last two compare without a sign. -/
def Comparison.holds (op : Comparison) (a b : UInt64) : Bool :=
  match op with
  | bgt => b.toInt64.toInt < a.toInt64.toInt
  | ble => a.toInt64.toInt ≤ b.toInt64.toInt
  | bgtu => b.toNat < a.toNat
  | bleu => a.toNat ≤ b.toNat

/-- A shorthand with its operands. -/
inductive Shorthand where
  | nop
  | ret
  | jr (source : Reg)
  | unary (op : Unary) (rd source : Reg)
  | goto (op : Goto) (label : String)
  | zeroTest (op : ZeroTest) (source : Reg) (label : String)
  | comparison (op : Comparison) (first second : Reg) (label : String)
  deriving DecidableEq, Repr

/-- The register of the return address. -/
def returnAddress : Reg := .ofNat 1

/-- What a machine that executes a shorthand becomes, if the label of the shorthand is at `target`. -/
def Shorthand.effect (target : UInt64) (m : Machine) : Shorthand → Machine
  | nop => { m with pc := m.pc + 4 }
  | ret => { m with pc := m.regs.get returnAddress }
  | jr source => { m with pc := m.regs.get source }
  | unary op rd source =>
    { m with regs := m.regs.set rd (op.value (m.regs.get source)), pc := m.pc + 4 }
  | goto .call _ => { m with regs := m.regs.set returnAddress (m.pc + 4), pc := target }
  | goto .j _ | goto .tail _ => { m with pc := target }
  | zeroTest op source _ =>
    { m with pc := if op.holds (m.regs.get source) then target else m.pc + 4 }
  | comparison op first second _ =>
    { m with pc := if op.holds (m.regs.get first) (m.regs.get second) then target else m.pc + 4 }

/-! ### Templates -/

/-- A name, the line that it is a template of, and the operands that are read from the line. -/
structure Template where
  name : String
  text : String
  pattern : List Operand

/-- True of a template whose line is read as its pattern, without parentheses. -/
structure Template.Sound (t : Template) : Prop where
  pattern : Source.operands [] (Source.tokenize Catalog.builtin t.text.toList) =
    operandsOf t.pattern
  flat : ∀ token ∈ Source.tokenize Catalog.builtin t.text.toList,
    token.kind ≠ .openParen ∧ token.kind ≠ .closeParen

def Unary.template : Unary → Template
  | mv => ⟨"mv", "addi %1, %2, 0", [.instruction ⟨"addi", .i 0x13 0 (.immediate .int .int)⟩,
      .placeholder "1", .placeholder "2", .int 0]⟩
  | not => ⟨"not", "xori %1, %2, -1", [.instruction ⟨"xori", .i 0x13 4 (.immediate .int .int)⟩,
      .placeholder "1", .placeholder "2", .int (-1)]⟩
  | neg => ⟨"neg", "sub %1, zero, %2", [.instruction ⟨"sub", .r 0x33 0 0x20 .int .int .int⟩,
      .placeholder "1", .register ⟨.zero, .int⟩, .placeholder "2"]⟩
  | seqz => ⟨"seqz", "sltiu %1, %2, 1", [.instruction ⟨"sltiu", .i 0x13 3 (.immediate .int .int)⟩,
      .placeholder "1", .placeholder "2", .int 1]⟩
  | snez => ⟨"snez", "sltu %1, zero, %2", [.instruction ⟨"sltu", .r 0x33 3 0x0 .int .int .int⟩,
      .placeholder "1", .register ⟨.zero, .int⟩, .placeholder "2"]⟩
  | sltz => ⟨"sltz", "slt %1, %2, zero", [.instruction ⟨"slt", .r 0x33 2 0x0 .int .int .int⟩,
      .placeholder "1", .placeholder "2", .register ⟨.zero, .int⟩]⟩
  | sgtz => ⟨"sgtz", "slt %1, zero, %2", [.instruction ⟨"slt", .r 0x33 2 0x0 .int .int .int⟩,
      .placeholder "1", .register ⟨.zero, .int⟩, .placeholder "2"]⟩

def Goto.template : Goto → Template
  | j => ⟨"j", "jal zero, %1",
      [.instruction ⟨"jal", .j 0x6f⟩, .register ⟨.zero, .int⟩, .placeholder "1"]⟩
  | tail => ⟨"tail", "jal zero, %1",
      [.instruction ⟨"jal", .j 0x6f⟩, .register ⟨.zero, .int⟩, .placeholder "1"]⟩
  | call => ⟨"call", "jal ra, %1",
      [.instruction ⟨"jal", .j 0x6f⟩, .register ⟨returnAddress, .int⟩, .placeholder "1"]⟩

def ZeroTest.template : ZeroTest → Template
  | beqz => ⟨"beqz", "beq %1, zero, %2", [.instruction ⟨"beq", .b 0x63 0 .int .int⟩,
      .placeholder "1", .register ⟨.zero, .int⟩, .placeholder "2"]⟩
  | bnez => ⟨"bnez", "bne %1, zero, %2", [.instruction ⟨"bne", .b 0x63 1 .int .int⟩,
      .placeholder "1", .register ⟨.zero, .int⟩, .placeholder "2"]⟩
  | blez => ⟨"blez", "bge zero, %1, %2", [.instruction ⟨"bge", .b 0x63 5 .int .int⟩,
      .register ⟨.zero, .int⟩, .placeholder "1", .placeholder "2"]⟩
  | bgez => ⟨"bgez", "bge %1, zero, %2", [.instruction ⟨"bge", .b 0x63 5 .int .int⟩,
      .placeholder "1", .register ⟨.zero, .int⟩, .placeholder "2"]⟩
  | bltz => ⟨"bltz", "blt %1, zero, %2", [.instruction ⟨"blt", .b 0x63 4 .int .int⟩,
      .placeholder "1", .register ⟨.zero, .int⟩, .placeholder "2"]⟩
  | bgtz => ⟨"bgtz", "blt zero, %1, %2", [.instruction ⟨"blt", .b 0x63 4 .int .int⟩,
      .register ⟨.zero, .int⟩, .placeholder "1", .placeholder "2"]⟩

def Comparison.template : Comparison → Template
  | bgt => ⟨"bgt", "blt %2, %1, %3", [.instruction ⟨"blt", .b 0x63 4 .int .int⟩,
      .placeholder "2", .placeholder "1", .placeholder "3"]⟩
  | ble => ⟨"ble", "bge %2, %1, %3", [.instruction ⟨"bge", .b 0x63 5 .int .int⟩,
      .placeholder "2", .placeholder "1", .placeholder "3"]⟩
  | bgtu => ⟨"bgtu", "bltu %2, %1, %3", [.instruction ⟨"bltu", .b 0x63 6 .int .int⟩,
      .placeholder "2", .placeholder "1", .placeholder "3"]⟩
  | bleu => ⟨"bleu", "bgeu %2, %1, %3", [.instruction ⟨"bgeu", .b 0x63 7 .int .int⟩,
      .placeholder "2", .placeholder "1", .placeholder "3"]⟩

theorem Unary.sound (op : Unary) : op.template.Sound := by
  cases op <;> exact ⟨rfl, by decide⟩

theorem Goto.sound (op : Goto) : op.template.Sound := by
  cases op <;> exact ⟨rfl, by decide⟩

theorem ZeroTest.sound (op : ZeroTest) : op.template.Sound := by
  cases op <;> exact ⟨rfl, by decide⟩

theorem Comparison.sound (op : Comparison) : op.template.Sound := by
  cases op <;> exact ⟨rfl, by decide⟩

namespace Shorthand

def template : Shorthand → Template
  | nop => ⟨"nop", "addi zero, zero, 0", [.instruction ⟨"addi", .i 0x13 0 (.immediate .int .int)⟩,
      .register ⟨.zero, .int⟩, .register ⟨.zero, .int⟩, .int 0]⟩
  | ret => ⟨"ret", "jalr zero, ra, 0", [.instruction ⟨"jalr", .i 0x67 0 (.immediate .int .int)⟩,
      .register ⟨.zero, .int⟩, .register ⟨returnAddress, .int⟩, .int 0]⟩
  | jr _ => ⟨"jr", "jalr zero, %1, 0", [.instruction ⟨"jalr", .i 0x67 0 (.immediate .int .int)⟩,
      .register ⟨.zero, .int⟩, .placeholder "1", .int 0]⟩
  | unary op .. => op.template
  | goto op _ => op.template
  | zeroTest op .. => op.template
  | comparison op .. => op.template

def operands : Shorthand → List Operand
  | nop | ret => []
  | jr source => [.register ⟨source, .int⟩]
  | unary _ rd source => [.register ⟨rd, .int⟩, .register ⟨source, .int⟩]
  | goto _ label => [.symbol label]
  | zeroTest _ source label => [.register ⟨source, .int⟩, .symbol label]
  | comparison _ first second label =>
    [.register ⟨first, .int⟩, .register ⟨second, .int⟩, .symbol label]

def label? : Shorthand → Option String
  | goto _ label | zeroTest _ _ label | comparison _ _ _ label => some label
  | nop | ret | jr _ | unary .. => none

def entry (x : Shorthand) : Entry :=
  ⟨x.template.name, .template x.operands.length [x.template.text]⟩

/-- The machine instruction that the template becomes. -/
def line : Shorthand → MachineLine
  | nop => .arithImm .addi .zero .zero 0 0 rfl rfl
  | ret => .jalr .zero returnAddress
  | jr source => .jalr .zero source
  | unary .mv rd source => .arithImm .addi rd source 0 0 rfl rfl
  | unary .not rd source => .arithImm .xori rd source (-1) 4 rfl rfl
  | unary .neg rd source => .arith .sub rd .zero source
  | unary .seqz rd source => .arithImm .sltiu rd source 1 3 rfl rfl
  | unary .snez rd source => .arith .sltu rd .zero source
  | unary .sltz rd source => .arith .slt rd source .zero
  | unary .sgtz rd source => .arith .slt rd .zero source
  | goto .j label | goto .tail label => .jal .zero label
  | goto .call label => .jal returnAddress label
  | zeroTest .beqz source label => .branch .beq source .zero label
  | zeroTest .bnez source label => .branch .bne source .zero label
  | zeroTest .blez source label => .branch .bge .zero source label
  | zeroTest .bgez source label => .branch .bge source .zero label
  | zeroTest .bltz source label => .branch .blt source .zero label
  | zeroTest .bgtz source label => .branch .blt .zero source label
  | comparison .bgt first second label => .branch .blt second first label
  | comparison .ble first second label => .branch .bge second first label
  | comparison .bgtu first second label => .branch .bltu second first label
  | comparison .bleu first second label => .branch .bgeu second first label

/-- One shorthand of each name. -/
def ofEachName : List Shorthand :=
  [.nop, .ret, .jr .zero] ++
  [Unary.mv, .not, .neg, .seqz, .snez, .sltz, .sgtz].map (.unary · .zero .zero) ++
  [Goto.j, .tail, .call].map (.goto · "") ++
  [ZeroTest.beqz, .bnez, .blez, .bgez, .bltz, .bgtz].map (.zeroTest · .zero "") ++
  [Comparison.bgt, .ble, .bgtu, .bleu].map (.comparison · .zero .zero "")

theorem find?_name (x : Shorthand) : Catalog.builtin.find? x.template.name = some x.entry := by
  cases x with
  | nop | ret | jr source => rfl
  | unary op rd source => cases op <;> rfl
  | goto op label => cases op <;> rfl
  | zeroTest op source label => cases op <;> rfl
  | comparison op first second label => cases op <;> rfl

/-- The catalog has no other templates. -/
theorem exists_entry_eq {e : Entry} (he : e ∈ Catalog.builtin.entries) {params : Nat}
    {lines : List String} (ht : e.encoding = .template params lines) :
    ∃ x : Shorthand, x.entry = e := by
  have hall : ∀ e ∈ Catalog.builtin.entries, e.encoding.isTemplate = true →
      e ∈ ofEachName.map entry := by
    decide
  have hmem : e ∈ ofEachName.map entry := hall e he (by rw [ht]; rfl)
  obtain ⟨x, -, hx⟩ := List.mem_map.mp hmem
  exact ⟨x, hx⟩

theorem sound (x : Shorthand) : x.template.Sound := by
  cases x with
  | nop | ret => exact ⟨rfl, by decide⟩
  | jr source => exact show (jr .zero).template.Sound from ⟨rfl, by decide⟩
  | unary op => exact op.sound
  | goto op => exact op.sound
  | zeroTest op => exact op.sound
  | comparison op => exact op.sound

/-- What the placeholders of a template stand for. -/
def bindings (x : Shorthand) : Bindings :=
  x.operands.zipIdx.map fun (o, i) => (toString (i + 1), o)

/-- The line of a template is read with the operands in their places. -/
theorem operands_template (x : Shorthand) :
    Source.operands x.bindings (Source.tokenize Catalog.builtin x.template.text.toList) =
      operandsOf (.instruction x.line.entry :: x.line.operands) := by
  have hfilled : x.template.pattern.map (·.filled x.bindings) =
      .instruction x.line.entry :: x.line.operands := by
    cases x with
    | nop | ret | jr source => rfl
    | unary op rd source => cases op <;> rfl
    | goto op label => cases op <;> rfl
    | zeroTest op source label => cases op <;> rfl
    | comparison op first second label => cases op <;> rfl
  rw [Source.operands_filled x.bindings x.sound.flat x.sound.pattern, hfilled]

/-- The line of a template defines no macro. -/
theorem items_template (x : Shorthand) (number : Nat) :
    Source.items [⟨number, Source.tokenize Catalog.builtin x.template.text.toList⟩] =
      [.line ⟨number, Source.tokenize Catalog.builtin x.template.text.toList⟩] := by
  obtain ⟨e, rest, hp⟩ : ∃ e rest, x.template.pattern = .instruction e :: rest := by
    cases x with
    | nop | ret | jr source => exact ⟨_, _, rfl⟩
    | unary op rd source => cases op <;> exact ⟨_, _, rfl⟩
    | goto op label => cases op <;> exact ⟨_, _, rfl⟩
    | zeroTest op source label => cases op <;> exact ⟨_, _, rfl⟩
    | comparison op first second label => cases op <;> exact ⟨_, _, rfl⟩
  have hplain : (Source.Line.mk number
      (Source.tokenize Catalog.builtin x.template.text.toList)).leading? = none :=
    Source.leading?_eq_none (x.sound.pattern.trans (congrArg operandsOf hp))
  exact Source.items_line hplain

/-- True of the operands that stand behind a shorthand, in parentheses or not. -/
def Written (x : Shorthand) (ops : Operands) : Prop :=
  ops = operandsOf x.operands ∨ ops = operandsOf [.group x.operands]

theorem toList_operandsOf (os : List Operand) : (operandsOf os).toList = .ok os := by
  induction os with
  | nil => rfl
  | cons o os ih =>
    rw [operandsOf, Operands.toList, ih]
    rfl

theorem templateCall_eq (x : Shorthand) {ops : Operands} (h : x.Written ops) (number : Nat) :
    templateCall Catalog.builtin number x.template.name x.operands.length [x.template.text] ops =
      .ok ⟨x.bindings, [⟨number, Source.tokenize Catalog.builtin x.template.text.toList⟩],
        number, false⟩ := by
  have hargs : callArguments x.template.name x.operands.length ops = .ok x.operands := by
    unfold callArguments
    rcases h with rfl | rfl
    · rw [toList_operandsOf]
      cases x <;> rfl
    · rw [toList_operandsOf]
      cases x <;> rfl
  unfold templateCall
  rw [hargs]
  rfl

end Shorthand

/-! ### Uses -/

theorem MachineLine.ofOperands_eq (x : MachineLine) (expand : Expansion → Mode → Script)
    (c : Context) (number : Nat) (m : Mode) :
    Script.ofOperands expand c number (operandsOf (.instruction x.entry :: x.operands)) m =
      .piece m.place ⟨number, c.file⟩ (.code [x.emission]) (.done m) := by
  change Script.ofInstruction expand c number x.entry (operandsOf x.operands) m = _
  rw [Script.ofInstruction_of_ne_template x.ne_template, x.encode_operands]

section
variable {file : String} {b : Bindings} {ops : Operands} {depth : Nat}

/-- The script of a use: its word, in a scope of its own. -/
theorem Shorthand.ofOperands_eq (x : Shorthand) (h : x.Written ops) (number : Nat) (m : Mode) :
    Script.ofOperands (Script.ofExpansion Catalog.builtin file (depth + 1))
        ⟨Catalog.builtin, file, b⟩ number (.next (.instruction x.entry) ops) m =
      .expansion none (.piece m.place ⟨number, file⟩ (.code [x.line.emission]) (.done m))
        (.done m) := by
  unfold Script.ofOperands Script.ofInstruction entry
  dsimp only
  rw [x.templateCall_eq h number, Script.check]
  unfold Script.ofExpansion
  rw [x.items_template, Script.ofItems]
  unfold Expansion.context
  dsimp only
  rw [x.operands_template, MachineLine.ofOperands_eq]
  rfl

end

theorem resolve_nil (memory : Memory) (before : Array Relocation) (rs : List Relocation) :
    resolve [] memory before rs = .ok (memory, before ++ rs) := by
  induction rs generalizing before with
  | nil => simp [resolve]
  | cons r rest ih =>
    rw [resolve]
    simp [ih]

/-- A piece in a scope of its own is placed as one without. -/
theorem inScope_piece (s : State) (place : Place) (location : Location) (p : Piece) (m : Mode) :
    inScope (Script.piece place location p (.done m)).run s =
      located location.line location.file (s.add place location p) := by
  unfold inScope State.add
  simp only [Script.run, State.add]
  cases p.put place s.image with
  | error kind => rfl
  | ok image =>
    have hlist : ((#[] : Array Relocation) ++ p.relocations location (s.image.cursor place)).toList =
        p.relocations location (s.image.cursor place) := by
      simp
    simp only [ok_bind, pure, Except.pure, located]
    rw [hlist, resolve_nil]
    rfl

/-- A machine instruction is placed as its word. -/
theorem MachineLine.assembleOperands_eq (x : MachineLine) (file : String) (depth : Nat)
    (b : Bindings) (number : Nat) (s : State) :
    assembleOperands (expand Catalog.builtin file depth) ⟨Catalog.builtin, file, b⟩ number
        (operandsOf (.instruction x.entry :: x.operands)) s =
      located number file (s.add s.place ⟨number, file⟩ (.code [x.emission])) := by
  have hrun := Script.run_ofOperands (Script.run_ofExpansion Catalog.builtin file depth)
    ⟨Catalog.builtin, file, b⟩ number (operandsOf (.instruction x.entry :: x.operands)) s
  rw [x.ofOperands_eq, Script.run] at hrun
  rw [← hrun]
  cases hadd : s.add s.place ⟨number, file⟩ (.code [x.emission]) with
  | error kind => rfl
  | ok s' =>
    have hmode := Script.toMode_add hadd
    dsimp only [located, Except.mapError]
    rw [ok_bind, Script.run, ← hmode]

section
variable {file : String} {b : Bindings} {ops : Operands}

/-- A use places its word wherever it stands, and nothing else. -/
theorem Shorthand.assembleOperands_eq (x : Shorthand) (h : x.Written ops) (depth number : Nat)
    (s : State) :
    assembleOperands (expand Catalog.builtin file (depth + 1)) ⟨Catalog.builtin, file, b⟩ number
        (.next (.instruction x.entry) ops) s =
      located number file (s.add s.place ⟨number, file⟩ (.code [x.line.emission])) := by
  have hrun := Script.run_ofOperands (Script.run_ofExpansion Catalog.builtin file (depth + 1))
    ⟨Catalog.builtin, file, b⟩ number (.next (.instruction x.entry) ops) s
  rw [x.ofOperands_eq h, Script.run, inScope_piece] at hrun
  rw [← hrun]
  dsimp only [within]
  cases hadd : s.add s.place ⟨number, file⟩ (.code [x.line.emission]) with
  | error kind => rfl
  | ok s' =>
    have hmode := Script.toMode_add hadd
    dsimp only [located, Except.mapError]
    rw [ok_bind, Script.run, ← hmode]

/-- The inventory of a use. -/
theorem Shorthand.lists (x : Shorthand) (h : x.Written ops) (number : Nat) (m : Mode) :
    Lists Catalog.builtin file b (.line number (.next (.instruction x.entry) ops)) m
      [.item m.place ⟨number, file⟩ (.word x.line.emission)] m := by
  have hline : Lists Catalog.builtin file x.bindings (.line number (Source.operands x.bindings
      (Source.tokenize Catalog.builtin x.template.text.toList))) m
      (wordItems m.place ⟨number, file⟩ [x.line.emission]) m := by
    rw [x.operands_template]
    exact .words x.line.ne_template x.line.encode_operands
  have hbody : Lists Catalog.builtin file x.bindings (.block (Source.items
      [⟨number, Source.tokenize Catalog.builtin x.template.text.toList⟩])) m
      (wordItems m.place ⟨number, file⟩ [x.line.emission] ++ []) m := by
    rw [x.items_template]
    exact .cons hline .nil
  exact .template (x.templateCall_eq h number) hbody

end

end Assembly

end RiscvToolkit
