import RiscvToolkit.Proofs.Assembly.Lead

/-! Inventories: what a source places, in the order in which it is placed. An inventory is read off the lines alone,
with the body of a call in place of the call; it tells in which segment an item is, not at which address. -/
namespace RiscvToolkit

/-- The bytes of a text are its UTF-8 encoding. -/
theorem Text.utf8_eq (text : String) : Text.utf8 text = text.toUTF8.data.toList := by
  have h : text.toList.utf8Encode = text.toUTF8 := text.utf8Encode_toList
  rw [← h]
  simp [Text.utf8, List.utf8Encode]

theorem Text.length_utf8 (text : String) : (Text.utf8 text).length = text.utf8ByteSize := by
  rw [utf8_eq]
  rfl

namespace Assembly
open Source (Bindings Operand Operands)

/-- What takes room in a segment. -/
inductive Content where
  | word (word : Emission)
  | datum (format : DataFormat) (item : Datum)

/-- The number of bytes that an item takes. -/
def Content.size : Content → Nat
  | word _ => 4
  | datum (.int width) _ => width.size
  | datum .float _ => 4
  | datum .double _ => 8
  | datum .ascii (.string text) => text.utf8ByteSize
  | datum .asciz (.string text) => text.utf8ByteSize + 1
  | datum _ _ => 0

/-- An entry of an inventory. -/
inductive Placed where
  | label (place : Place) (name : String)
  | item (place : Place) (location : Location) (content : Content)

/-- The words of a line, each an item of its own. -/
def wordItems (place : Place) (location : Location) (words : List Emission) : List Placed :=
  words.map fun e => .item place location (.word e)

/-- A part of a source: the rest of a line, or the rest of a block. -/
inductive Portion where
  | line (number : Nat) (ops : Operands)
  | block (items : List Source.Item)

/-- `Lists catalog file bindings portion m ps n`: read from mode `m` on, a part of a file places `ps` and leaves
mode `n`. -/
inductive Lists (catalog : Catalog) (file : String) :
    Bindings → Portion → Mode → List Placed → Mode → Prop
  | done {b number m} : Lists catalog file b (.line number .done) m [] m
  | label {b number name rest m ps n} (h : Lists catalog file b (.line number rest) m ps n) :
    Lists catalog file b (.line number (.next (.label name) rest)) m (.label m.place name :: ps) n
  | globals {b number name rest m} (hn : Directive.ofName? name = some .global) :
    Lists catalog file b (.line number (.next (.directive name) rest)) m [] m
  | directive {b number name rest m k ps n} (hn : Directive.ofName? name ≠ some .global)
    (hk : applyDirective name m = .ok k) (h : Lists catalog file b (.line number rest) k ps n) :
    Lists catalog file b (.line number (.next (.directive name) rest)) m ps n
  | datum {b number o item rest m ps n} (hd : datum? m.macros o = some item)
    (h : Lists catalog file b (.line number rest) m ps n) :
    Lists catalog file b (.line number (.next o rest)) m
      (.item m.place ⟨number, file⟩ (.datum m.format item) :: ps) n
  | words {b number entry rest m words}
    (ht : ∀ params body, entry.encoding ≠ .template params body)
    (he : encode entry.encoding rest = ⟨words, none⟩) :
    Lists catalog file b (.line number (.next (.instruction entry) rest)) m
      (wordItems m.place ⟨number, file⟩ words) m
  | template {b number name params body rest m e ps n}
    (hc : templateCall catalog number name params body rest = .ok e)
    (h : Lists catalog file e.bindings (.block (Source.items e.body)) m ps n) :
    Lists catalog file b
      (.line number (.next (.instruction ⟨name, .template params body⟩) rest)) m ps m
  | call {b number name d rest m e ps n} (hm : m.macros.lookup name = some d)
    (hc : macroCall number name d rest = .ok e)
    (h : Lists catalog file e.bindings (.block (Source.items e.body)) m ps n) :
    Lists catalog file b (.line number (.next (.symbol name) rest)) m ps m
  | nil {b m} : Lists catalog file b (.block []) m [] m
  | definition {b number named items m ps n}
    (h : Lists catalog file b (.block items) { m with macros := named :: m.macros } ps n) :
    Lists catalog file b (.block (.definition number (.ok named) :: items)) m ps n
  | cons {b l items m ps k qs n}
    (hl : Lists catalog file b (.line l.number (Source.operands b l.tokens)) m ps k)
    (h : Lists catalog file b (.block items) k qs n) :
    Lists catalog file b (.block (.line l :: items)) m (ps ++ qs) n

/-- The inventory of files, one behind the other. -/
inductive ListsAll (catalog : Catalog) : List Source.File → List Placed → Prop
  | nil : ListsAll catalog [] []
  | cons {file files ps qs n}
    (h : Lists catalog file.name []
      (.block (Source.items (Source.linesOf catalog file.text))) .start ps n)
    (hs : ListsAll catalog files qs) : ListsAll catalog (file :: files) (ps ++ qs)

/-- A part of a file has one inventory. -/
theorem Lists.unique {catalog : Catalog} {file : String} {b : Bindings} {x : Portion} {m n n' : Mode}
    {ps ps' : List Placed} (h : Lists catalog file b x m ps n)
    (h' : Lists catalog file b x m ps' n') : ps = ps' ∧ n = n' := by
  induction h generalizing ps' n' with
  | done =>
    cases h'
    exact ⟨rfl, rfl⟩
  | label h ih =>
    cases h' with
    | label h' =>
      obtain ⟨rfl, rfl⟩ := ih h'
      exact ⟨rfl, rfl⟩
    | datum hd => cases hd
  | globals hn =>
    cases h' with
    | globals => exact ⟨rfl, rfl⟩
    | directive hn' => exact absurd hn hn'
    | datum hd => cases hd
  | directive hn hk h ih =>
    cases h' with
    | globals hn' => exact absurd hn' hn
    | directive _ hk' h' =>
      cases hk.symm.trans hk'
      exact ih h'
    | datum hd => cases hd
  | datum hd h ih =>
    cases h' with
    | datum hd' h' =>
      cases hd.symm.trans hd'
      obtain ⟨rfl, rfl⟩ := ih h'
      exact ⟨rfl, rfl⟩
    | label | globals | directive | words | template => cases hd
    | call hm =>
      simp only [datum?, hm] at hd
      cases hd
  | words ht he =>
    cases h' with
    | words _ he' =>
      cases he.symm.trans he'
      exact ⟨rfl, rfl⟩
    | template => exact absurd rfl (ht _ _)
    | datum hd => cases hd
  | template hc h ih =>
    cases h' with
    | template hc' h' =>
      cases hc.symm.trans hc'
      exact ⟨(ih h').1, rfl⟩
    | words ht => exact absurd rfl (ht _ _)
    | datum hd => cases hd
  | call hm hc h ih =>
    cases h' with
    | call hm' hc' h' =>
      cases hm.symm.trans hm'
      cases hc.symm.trans hc'
      exact ⟨(ih h').1, rfl⟩
    | datum hd =>
      simp only [datum?, hm] at hd
      cases hd
  | nil =>
    cases h'
    exact ⟨rfl, rfl⟩
  | definition h ih =>
    cases h' with
    | definition h' => exact ih h'
  | cons hl h ihl ih =>
    cases h' with
    | cons hl' h' =>
      obtain ⟨rfl, rfl⟩ := ihl hl'
      obtain ⟨rfl, rfl⟩ := ih h'
      exact ⟨rfl, rfl⟩

theorem ListsAll.unique {catalog : Catalog} {files : List Source.File} {ps ps' : List Placed}
    (h : ListsAll catalog files ps) (h' : ListsAll catalog files ps') : ps = ps' := by
  induction h generalizing ps' with
  | nil =>
    cases h'
    rfl
  | cons h hs ih =>
    cases h' with
    | cons h' hs' =>
      obtain ⟨rfl, -⟩ := h.unique h'
      rw [ih hs']

namespace Script

/-- True of a script that places what an inventory says. -/
inductive Tells : Script → List Placed → Prop
  | done {m} : Tells (.done m) []
  | label {place name rest ps} (h : Tells rest ps) :
    Tells (.label place name rest) (.label place name :: ps)
  | globals {names line rest ps} (h : Tells rest ps) : Tells (.globals names line rest) ps
  | words {place location words rest ps} (h : Tells rest ps) :
    Tells (.piece place location (.code words) rest) (wordItems place location words ++ ps)
  | datum {location format item stored rest ps} (hs : format.store item = .ok stored)
    (h : Tells rest ps) :
    Tells (.piece .data location (.datum stored) rest)
      (.item .data location (.datum format item) :: ps)
  | expansion {call body rest ps qs} (hb : Tells body ps) (h : Tells rest qs) :
    Tells (.expansion call body rest) (ps ++ qs)

theorem Tells.bind {x : Script} {n : Mode} (hn : x.mode? = some n) {f : Mode → Script}
    {ps qs : List Placed} (hx : x.Tells ps) (hf : (f n).Tells qs) : (x.bind f).Tells (ps ++ qs) := by
  induction hx with
  | done =>
    cases hn
    exact hf
  | label h ih => exact .label (ih hn)
  | globals h ih => exact .globals (ih hn)
  | words h ih =>
    rw [List.append_assoc]
    exact .words (ih hn)
  | datum hs h ih => exact .datum hs (ih hn)
  | expansion hb h _ ih =>
    obtain ⟨k, -, hn⟩ := Option.bind_eq_some_iff.mp hn
    rw [List.append_assoc]
    exact .expansion hb (ih hn)

/-- True of a script that is told by the inventory of a part of a file. -/
def Listed (catalog : Catalog) (file : String) (b : Bindings) (portion : Portion) (m n : Mode)
    (x : Script) : Prop :=
  ∃ ps, Lists catalog file b portion m ps n ∧ x.Tells ps

section
variable {catalog : Catalog} {file : String} {m n : Mode}

/-- True of a way to expand calls that places the inventories of their bodies. -/
def ListsCalls (catalog : Catalog) (file : String) (expand : Expansion → Mode → Script) : Prop :=
  ∀ e m n, (expand e m).mode? = some n → n = m ∧ ∃ ps k,
    Lists catalog file e.bindings (.block (Source.items e.body)) m ps k ∧ (expand e m).Tells ps

variable {b : Bindings} {number : Nat}

private theorem listed_ofDatum {o : Operand} {item : Datum} {rest : Operands} {x : Script}
    (hd : datum? m.macros o = some item)
    (ih : x.mode? = some n → Listed catalog file b (.line number rest) m n x)
    (h : (ofDatum ⟨catalog, file, b⟩ number item m x).mode? = some n) :
    Listed catalog file b (.line number (.next o rest)) m n
      (ofDatum ⟨catalog, file, b⟩ number item m x) := by
  unfold ofDatum at h ⊢
  cases hs : m.store item with
  | error kind =>
    rw [hs] at h
    cases h
  | ok stored =>
    rw [hs] at h
    obtain ⟨ps, hl, ht⟩ := ih h
    have hlist := Lists.datum hd hl
    unfold Mode.store at hs
    cases hp : m.place with
    | text =>
      rw [hp] at hs
      cases hs
    | data =>
      rw [hp] at hs hlist
      exact ⟨_, hlist, .datum hs ht⟩

variable {expand : Expansion → Mode → Script}

theorem ofInstruction_of_ne_template {entry : Entry}
    (ht : ∀ params body, entry.encoding ≠ .template params body) (c : Context) (ops : Operands) :
    ofInstruction expand c number entry ops m =
      piece m.place ⟨number, c.file⟩ (.code (encode entry.encoding ops).words)
        (match (encode entry.encoding ops).failure with
        | none => .done m
        | some kind => failed ⟨kind, ⟨number, c.file⟩, []⟩) := by
  obtain ⟨name, encoding⟩ := entry
  cases encoding with
  | template params body => exact absurd rfl (ht params body)
  | _ => rfl

variable (he : ListsCalls catalog file expand)
include he

private theorem listed_ofInstruction {entry : Entry} {rest : Operands}
    (h : (ofInstruction expand ⟨catalog, file, b⟩ number entry rest m).mode? = some n) :
    Listed catalog file b (.line number (.next (.instruction entry) rest)) m n
      (ofInstruction expand ⟨catalog, file, b⟩ number entry rest m) := by
  by_cases ht : ∀ params body, entry.encoding ≠ .template params body
  · rw [ofInstruction_of_ne_template ht] at h ⊢
    cases hf : (encode entry.encoding rest).failure with
    | some kind =>
      rw [hf] at h
      cases h
    | none =>
      rw [hf] at h
      cases h
      have hcode : encode entry.encoding rest = ⟨(encode entry.encoding rest).words, none⟩ := by
        rw [← hf]
      have htells : Tells (.piece m.place ⟨number, file⟩
          (.code (encode entry.encoding rest).words) (.done m))
          (wordItems m.place ⟨number, file⟩ (encode entry.encoding rest).words ++ []) :=
        .words .done
      rw [List.append_nil] at htells
      exact ⟨_, .words ht hcode, htells⟩
  · push Not at ht
    obtain ⟨params, body, ht⟩ := ht
    obtain ⟨name, encoding⟩ := entry
    cases ht
    simp only [ofInstruction] at h ⊢
    cases hc : templateCall catalog number name params body rest with
    | error kind =>
      rw [hc] at h
      cases h
    | ok e =>
      rw [hc] at h
      obtain ⟨rfl, ps, k, hl, ht⟩ := he e m n h
      exact ⟨ps, .template hc hl, ht⟩

theorem listed_ofOperands {ops : Operands}
    (h : (ofOperands expand ⟨catalog, file, b⟩ number ops m).mode? = some n) :
    Listed catalog file b (.line number ops) m n
      (ofOperands expand ⟨catalog, file, b⟩ number ops m) := by
  induction ops generalizing m n with
  | done =>
    cases h
    exact ⟨[], .done, .done⟩
  | failed kind => cases h
  | next head rest ih =>
    have hdatum {item : Datum} (hd : datum? m.macros head = some item) :
        Listed catalog file b (.line number (.next head rest)) m n
          (ofOperands expand ⟨catalog, file, b⟩ number (.next head rest) m) := by
      rw [ofOperands_datum hd] at h ⊢
      exact listed_ofDatum hd ih h
    cases head with
    | label name =>
      obtain ⟨ps, hl, ht⟩ := ih (m := m) h
      exact ⟨_, .label hl, .label ht⟩
    | directive name =>
      by_cases hn : Directive.ofName? name = some .global
      · simp only [ofOperands, if_pos hn] at h ⊢
        cases hg : globalNames name rest with
        | error kind =>
          rw [hg] at h
          cases h
        | ok names =>
          rw [hg] at h
          cases h
          exact ⟨[], .globals hn, .globals .done⟩
      · rw [ofOperands_directive hn] at h ⊢
        cases hk : applyDirective name m with
        | error kind =>
          rw [hk] at h
          cases h
        | ok k =>
          rw [hk] at h
          obtain ⟨ps, hl, ht⟩ := ih h
          exact ⟨ps, .directive hn hk hl, ht⟩
    | instruction entry =>
      exact listed_ofInstruction he h
    | register r => cases h
    | placeholder name => cases h
    | group items => cases h
    | symbol name =>
      cases hm : m.macros.lookup name with
      | none => exact hdatum (if_pos (by rw [hm]; rfl))
      | some d =>
        simp only [ofOperands, hm] at h ⊢
        cases hc : macroCall number name d rest with
        | error kind =>
          rw [hc] at h
          cases h
        | ok e =>
          rw [hc] at h
          obtain ⟨rfl, ps, k, hl, ht⟩ := he e m n h
          exact ⟨ps, .call hm hc hl, ht⟩
    | int value => exact hdatum rfl
    | float value => exact hdatum rfl
    | string text => exact hdatum rfl

theorem listed_ofItems {items : List Source.Item}
    (h : (ofItems expand ⟨catalog, file, b⟩ items m).mode? = some n) :
    Listed catalog file b (.block items) m n (ofItems expand ⟨catalog, file, b⟩ items m) := by
  induction items generalizing m with
  | nil =>
    cases h
    exact ⟨[], .nil, .done⟩
  | cons item rest ih =>
    cases item with
    | definition number result =>
      cases result with
      | error kind => cases h
      | ok named =>
        obtain ⟨ps, hl, ht⟩ := ih (m := { m with macros := named :: m.macros }) h
        exact ⟨ps, .definition hl, ht⟩
    | line l =>
      simp only [ofItems] at h ⊢
      rw [mode?_bind] at h
      obtain ⟨k, hk, h⟩ := Option.bind_eq_some_iff.mp h
      obtain ⟨ps, hline, hps⟩ := listed_ofOperands he hk
      obtain ⟨qs, hrest, hqs⟩ := ih h
      exact ⟨ps ++ qs, .cons hline hrest, hps.bind hk hqs⟩

end

theorem listsCalls_ofExpansion (catalog : Catalog) (file : String) (depth : Nat) :
    ListsCalls catalog file (ofExpansion catalog file depth) := by
  induction depth with
  | zero => exact fun e m n h => nomatch h
  | succ depth ih =>
    intro e m n h
    obtain ⟨k, hk, hn⟩ := Option.bind_eq_some_iff.mp h
    obtain ⟨ps, hlist, htells⟩ := listed_ofItems ih (b := e.bindings) hk
    have hcall : Tells (.expansion (e.call? file) _ (.done m)) (ps ++ []) :=
      .expansion htells .done
    rw [List.append_nil] at hcall
    exact ⟨(Option.some.inj hn).symm, ps, k, hlist, hcall⟩

/-- A file without an error in it has an inventory. -/
theorem listed_ofFile {catalog : Catalog} {file : Source.File} {n : Mode}
    (h : (ofFile catalog file).mode? = some n) :
    Listed catalog file.name [] (.block (Source.items (Source.linesOf catalog file.text))) .start n
      (ofFile catalog file) :=
  listed_ofItems (listsCalls_ofExpansion catalog file.name maxDepth) h

end Script

end Assembly

end RiscvToolkit
