import Mathlib.Data.List.Forall2
import RiscvToolkit.Catalog.Builtin
import RiscvToolkit.Source.Block

/-! Mentions. What the operands of a line can name is named by its tokens or bound to its placeholders, so a
block reads the same wherever the names that it mentions mean the same. -/
namespace RiscvToolkit.Source

/-- True if tokens name something by a word of its own, or by a template that one of them calls. -/
inductive Mentions (catalog : Catalog) (name : String) : List Token → Prop
  | symbol {tokens : List Token} {t : Token} (ht : t ∈ tokens) (hk : t.kind = .symbol)
    (hn : String.ofList t.text = name) : Mentions catalog name tokens
  | template {tokens : List Token} {t : Token} {mnemonic text : String} {params : Nat}
    {body : List String} (ht : t ∈ tokens)
    (hk : t.kind = .instruction ⟨mnemonic, .template params body⟩) (hb : text ∈ body)
    (hm : Mentions catalog name (tokenize catalog text.toList)) : Mentions catalog name tokens

inductive Operand.Mentions (catalog : Catalog) (name : String) : Operand → Prop
  | symbol : Operand.Mentions catalog name (.symbol name)
  | template {mnemonic text : String} {params : Nat} {body : List String} (hb : text ∈ body)
    (hm : Source.Mentions catalog name (tokenize catalog text.toList)) :
    Operand.Mentions catalog name (.instruction ⟨mnemonic, .template params body⟩)
  | group {items : List Operand} {item : Operand} (hi : item ∈ items)
    (hm : Operand.Mentions catalog name item) : Operand.Mentions catalog name (.group items)

def Bindings.Mentions (catalog : Catalog) (name : String) (bindings : Bindings) : Prop :=
  ∃ b ∈ bindings, b.2.Mentions catalog name

def Operands.Mentions (catalog : Catalog) (name : String) : Operands → Prop
  | done | failed _ => False
  | next head tail => head.Mentions catalog name ∨ tail.Mentions catalog name

section
variable {catalog : Catalog} {name : String}

theorem Mentions.mono {ts us : List Token} (hs : ts ⊆ us) (h : Mentions catalog name ts) :
    Mentions catalog name us := by
  cases h with
  | symbol ht hk hn => exact .symbol (hs ht) hk hn
  | template ht hk hb hm => exact .template (hs ht) hk hb hm

theorem Operands.mentions_of_mem_toList {ops : Operands} {args : List Operand}
    (h : ops.toList = .ok args) {o : Operand} (ho : o ∈ args) (hm : o.Mentions catalog name) :
    ops.Mentions catalog name := by
  induction ops generalizing args with
  | done =>
    cases h
    cases ho
  | failed kind => cases h
  | next head tail ih =>
    unfold toList at h
    cases ht : tail.toList with
    | error kind =>
      rw [ht] at h
      cases h
    | ok rest =>
      rw [ht] at h
      cases h
      rcases List.mem_cons.mp ho with rfl | ho
      · exact .inl hm
      · exact .inr (ih ht ho)

/-- A token makes an operand that it mentions itself, or one that is bound to it. -/
theorem Token.mentions_of_operand {bindings : Bindings} {t : Token} {o : Operand}
    (h : t.operand bindings = .ok o) (hm : o.Mentions catalog name) :
    Mentions catalog name [t] ∨ bindings.Mentions catalog name := by
  unfold operand at h
  cases hk : t.kind <;> rw [hk] at h
  case instruction entry =>
    cases h
    cases hm with
    | template hb hm => exact .inl (.template (List.mem_singleton_self t) hk hb hm)
  case symbol =>
    cases h
    cases hm
    exact .inl (.symbol (List.mem_singleton_self t) hk rfl)
  case placeholder =>
    cases hl : bindings.lookup (String.ofList t.text.tail) with
    | none =>
      simp only [hl] at h
      cases h
      cases hm
    | some o' =>
      simp only [hl] at h
      cases h
      obtain ⟨l₁, l₂, rfl, -⟩ := List.lookup_eq_some_iff.mp hl
      exact .inr ⟨_, List.mem_append_right _ List.mem_cons_self, hm⟩
  case string =>
    cases hd : t.decoded <;> simp only [hd] at h <;> cases h
    cases hm
  case char =>
    dsimp only at h
    split at h <;> cases h
    cases hm
  all_goals
    cases h
    try cases hm

theorem Operand.mentions_group {items : List Operand} :
    (group items).Mentions catalog name ↔ ∃ o ∈ items, o.Mentions catalog name := by
  constructor
  · rintro (_ | _ | ⟨hi, hm⟩)
    exact ⟨_, hi, hm⟩
  · rintro ⟨o, hi, hm⟩
    exact .group hi hm

/-- True if an item of an open group mentions the name. -/
private def MentionsIn (catalog : Catalog) (name : String) (outer : List (List Operand)) : Prop :=
  ∃ items ∈ outer, ∃ o ∈ items, o.Mentions catalog name

private theorem mentionsIn_cons {items : List Operand} {outer : List (List Operand)} :
    MentionsIn catalog name (items :: outer) ↔
      (∃ o ∈ items, o.Mentions catalog name) ∨ MentionsIn catalog name outer :=
  List.exists_mem_cons_iff ..

private theorem mentions_operandsFrom {bindings : Bindings} {outer : List (List Operand)}
    {tokens : List Token} (h : (operandsFrom bindings outer tokens).Mentions catalog name) :
    Mentions catalog name tokens ∨ bindings.Mentions catalog name ∨
      MentionsIn catalog name outer := by
  have htail {t : Token} {rest : List Token} (hm : Mentions catalog name rest) :
      Mentions catalog name (t :: rest) := hm.mono (List.subset_cons_self t rest)
  have hhead {t : Token} {rest : List Token} (hm : Mentions catalog name [t]) :
      Mentions catalog name (t :: rest) := hm.mono (List.cons_subset_cons t (List.nil_subset rest))
  fun_induction operandsFrom bindings outer tokens with
  | case1 => cases h
  | case2 => cases h
  | case3 outer t rest _ ih => exact (ih h).imp_left htail
  | case4 outer t rest _ ih => exact (ih h).imp_left htail
  | case5 outer t rest _ ih =>
    rw [mentionsIn_cons] at ih
    rcases ih h with hm | hm | ⟨_, ho, -⟩ | hm
    · exact .inl (htail hm)
    · exact .inr (.inl hm)
    · cases ho
    · exact .inr (.inr hm)
  | case6 => cases h
  | case7 t rest items _ ih =>
    rw [mentionsIn_cons]
    rcases h with hm | hm
    · obtain ⟨o, ho, hm⟩ := Operand.mentions_group.mp hm
      exact .inr (.inr (.inl ⟨o, List.mem_reverse.mp ho, hm⟩))
    · rcases ih hm with hm | hm | ⟨_, ho, -⟩
      · exact .inl (htail hm)
      · exact .inr (.inl hm)
      · cases ho
  | case8 t rest items items' outer _ ih =>
    rw [mentionsIn_cons, List.exists_mem_cons_iff, Operand.mentions_group] at ih
    rw [mentionsIn_cons, mentionsIn_cons]
    rcases ih h with hm | hm | (⟨o, ho, hm⟩ | hm) | hm
    · exact .inl (htail hm)
    · exact .inr (.inl hm)
    · exact .inr (.inr (.inl ⟨o, List.mem_reverse.mp ho, hm⟩))
    · exact .inr (.inr (.inr (.inl hm)))
    · exact .inr (.inr (.inr (.inr hm)))
  | case9 => cases h
  | case10 t rest operand ho _ _ _ _ _ _ ih =>
    rw [ho] at h
    rcases h with hm | hm
    · rcases Token.mentions_of_operand ho hm with hm | hm
      · exact .inl (hhead hm)
      · exact .inr (.inl hm)
    · exact (ih hm).imp_left htail
  | case11 t rest operand items outer ho _ _ _ _ _ _ ih =>
    rw [ho] at h
    rw [mentionsIn_cons, List.exists_mem_cons_iff] at ih
    rw [mentionsIn_cons]
    rcases ih h with hm | hm | (hm | hm) | hm
    · exact .inl (htail hm)
    · exact .inr (.inl hm)
    · rcases Token.mentions_of_operand ho hm with hm | hm
      · exact .inl (hhead hm)
      · exact .inr (.inl hm)
    · exact .inr (.inr (.inl hm))
    · exact .inr (.inr (.inr hm))

/-- The operands of a line mention what its tokens mention, or what is bound to them. -/
theorem mentions_of_operands {bindings : Bindings} {tokens : List Token}
    (h : (operands bindings tokens).Mentions catalog name) :
    Mentions catalog name tokens ∨ bindings.Mentions catalog name := by
  rcases mentions_operandsFrom h with hm | hm | ⟨_, hi, -⟩
  · exact .inl hm
  · exact .inr hm
  · cases hi

theorem mem_entries_of_identify {word : List Char} {entry : Entry}
    (h : identify catalog word = .instruction entry) : entry ∈ catalog.entries := by
  unfold identify at h
  dsimp only at h
  split at h
  · rename_i found hf
    cases h
    exact List.mem_of_find?_eq_some hf
  · split at h
    · cases h
    split at h
    · cases h
    split at h
    · cases h
    split_ifs at h

private theorem mem_entries_of_nextToken {c : Char} {rest : List Char} {entry : Entry}
    (h : (nextToken catalog c rest).1.kind = .instruction entry) : entry ∈ catalog.entries := by
  unfold nextToken at h
  split_ifs at h
  · dsimp only at h
    split_ifs at h
  · dsimp only at h
    split_ifs at h
  · exact mem_entries_of_identify h

theorem mem_entries_of_tokenize {line : List Char} {t : Token} (ht : t ∈ tokenize catalog line)
    {entry : Entry} (hk : t.kind = .instruction entry) : entry ∈ catalog.entries := by
  unfold tokenize at ht
  generalize line.length = fuel at ht
  induction fuel generalizing line with
  | zero => cases line <;> cases ht
  | succ fuel ih =>
    cases line with
    | nil => cases ht
    | cons c rest =>
      rcases List.mem_cons.mp ht with rfl | ht
      · exact mem_entries_of_nextToken hk
      · exact ih ht

end

/-- True of a word that names a label or a macro, or calls a template. -/
def Token.isName (t : Token) : Bool :=
  match t.kind with
  | .symbol | .instruction ⟨_, .template ..⟩ => true
  | _ => false

/-- The built-in templates name nothing. -/
theorem isName_of_builtin {mnemonic text : String} {params : Nat} {body : List String}
    (he : ⟨mnemonic, .template params body⟩ ∈ Catalog.builtin.entries) (ht : text ∈ body) :
    ∀ t ∈ tokenize Catalog.builtin text.toList, t.isName = false := by
  have h : ∀ e ∈ Catalog.builtin.entries,
      (match e.encoding with
        | .template _ lines =>
          lines.all fun text => (tokenize Catalog.builtin text.toList).all (!·.isName)
        | _ => true) = true := by
    decide +kernel
  have hb := List.all_eq_true.mp (List.all_eq_true.mp (h _ he) text ht)
  intro t hm
  simpa using hb t hm

/-- With the built-in catalog, a line mentions its own words only. -/
theorem mentions_builtin_iff {line : List Char} {name : String} :
    Mentions Catalog.builtin name (tokenize Catalog.builtin line) ↔
      ∃ t ∈ tokenize Catalog.builtin line, t.kind = .symbol ∧ String.ofList t.text = name := by
  constructor
  · rintro (⟨ht, hk, hn⟩ | ⟨ht, hk, hb, hm⟩)
    · exact ⟨_, ht, hk, hn⟩
    · have hs := isName_of_builtin (mem_entries_of_tokenize ht hk) hb
      rcases hm with ⟨ht, hk, -⟩ | ⟨ht, hk, -, -⟩
      · have hf := hs _ ht
        simp [Token.isName, hk] at hf
      · have hf := hs _ ht
        simp [Token.isName, hk] at hf
  · rintro ⟨t, ht, hk, hn⟩
    exact .symbol ht hk hn

end RiscvToolkit.Source
