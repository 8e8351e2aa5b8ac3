import RiscvToolkit.Assembly.Program
import RiscvToolkit.Proofs.Assembly.Stripped
import RiscvToolkit.Proofs.Source.Layout

/-! Files laid out anew assemble to the same program, or fail with the same error. -/
namespace RiscvToolkit.Assembly
open Source (FilesRelaid HasLines Item TextRelaid numbered significant)

section
variable {catalog : Catalog}

theorem assembleItems_append (expand : Expander) (c : Context) (is js : List Item) (s : State) :
    assembleItems expand c (is ++ js) s =
      (assembleItems expand c is s >>= assembleItems expand c js) := by
  induction is generalizing s with
  | nil => rfl
  | cons i is ih =>
    have hrest : assembleItems expand c (is ++ js) =
        fun s => assembleItems expand c is s >>= assembleItems expand c js := funext ih
    cases i <;> simp only [List.cons_append, assembleItems, hrest, bind_assoc]

/-- A line that has no operands does nothing, at the end of a block. -/
theorem assembleLines_append_blank (file : String) (ls : List Source.Line) {l : Source.Line}
    (hl : Source.stripped l.tokens = []) (s : State) :
    assembleLines catalog file (ls ++ [l]) s = assembleLines catalog file ls s := by
  have hlead : l.leading? = none := by
    rw [← Source.leading?_stripped, Source.Line.leading?, Source.Line.stripped, hl]
    rfl
  have hops : Source.operands [] l.tokens = .done := by
    rw [← Source.operands_stripped, hl]
    rfl
  unfold assembleLines
  obtain hi | hi := Source.items_append_line hlead ls
  · rw [hi]
  · rw [hi, assembleItems_append]
    cases assembleItems _ _ (Source.items ls) s with
    | error e => rfl
    | ok s' =>
      rw [ok_bind, assembleItems, hops]
      rfl

theorem assembleLines_of_hasLines {text : String} {ls : List (List Char)}
    (h : HasLines text.toList ls) (file : String) (s : State) :
    assembleLines catalog file (numbered catalog 0 ls) s =
      assembleLines catalog file (Source.linesOf catalog text) s := by
  rcases h with rfl | rfl
  · rfl
  · rw [Source.numbered_append]
    exact assembleLines_append_blank file _ rfl s

theorem layoutFree_assembleLines (file : String) {ls rs : List Source.Line}
    (h : ls.map Source.Line.stripped = rs.map Source.Line.stripped) :
    LayoutFree (assembleLines catalog file ls) (assembleLines catalog file rs) := by
  refine layoutFree_assembleItems (expandsFree_expand catalog file maxDepth) _ ?_
  rw [← Source.items_stripped, h, Source.items_stripped]

/-- What a file leaves is in its state without the layout of macros. -/
theorem add_of_relaid {file file' : Source.File} (hname : file.name = file'.name)
    (h : TextRelaid catalog file.text.toList file'.text.toList) (l : Linkage) :
    l.add catalog file' = l.add catalog file := by
  obtain ⟨ls, ls', hls, hls', hsame⟩ := h.exists_lines
  have hfree : LayoutFree (assembleLines catalog file.name (numbered catalog 0 ls'))
      (assembleLines catalog file.name (numbered catalog 0 ls)) :=
    layoutFree_assembleLines file.name (Source.stripped_numbered hsame 0)
  have hlines := hfree (.start l.image) (.start l.image) rfl
  rw [assembleLines_of_hasLines hls', assembleLines_of_hasLines hls] at hlines
  unfold Linkage.add
  rw [← hname]
  dsimp only
  generalize assembleLines catalog file.name (Source.linesOf catalog file.text) _ = x at hlines ⊢
  generalize assembleLines catalog file.name (Source.linesOf catalog file'.text) _ = y at hlines ⊢
  cases x with
  | error e =>
    cases y with
    | error e' =>
      cases hlines
      rfl
    | ok t => cases hlines
  | ok s =>
    cases y with
    | error e' => cases hlines
    | ok t =>
      obtain ⟨-, himage, hglobals, hlabels, hrelocations⟩ :=
        State.stripped_eq_iff.mp (Except.ok.inj hlines.symm)
      rw [ok_bind, ok_bind, himage, hglobals, hlabels, hrelocations]

theorem addAll_append (before after : List Source.File) (l : Linkage) :
    l.addAll catalog (before ++ after) = (l.addAll catalog before >>= (·.addAll catalog after)) := by
  induction before generalizing l with
  | nil => rfl
  | cons file before ih =>
    simp only [List.cons_append, Linkage.addAll, bind_assoc]
    congr 1
    funext l'
    exact ih l'

theorem assemble_of_filesRelaid {files files' : List Source.File} (stackSize : Nat)
    (h : FilesRelaid catalog files files') :
    assemble catalog stackSize files' = assemble catalog stackSize files := by
  obtain ⟨before, file, file', after, rfl, rfl, hname, htext⟩ := h
  unfold assemble
  simp only [addAll_append, Linkage.addAll, add_of_relaid hname htext]

/-- However the lines of files are laid out anew, one change after the other, they assemble to the same program, or
fail with the same error at the same place. -/
theorem assemble_relaid {files files' : List Source.File} (stackSize : Nat)
    (h : Relation.ReflTransGen (FilesRelaid catalog) files files') :
    assemble catalog stackSize files' = assemble catalog stackSize files := by
  induction h with
  | refl => rfl
  | tail _ hstep ih => rw [assemble_of_filesRelaid stackSize hstep, ih]

end

private theorem relaid_line (before rest : String) {text text' : String} {line line' : List Char}
    (h : Source.Relaid Catalog.builtin line line')
    (ht : text.toList = before.toList ++ line ++ '\n' :: rest.toList ∧
      text'.toList = before.toList ++ line' ++ '\n' :: rest.toList ∧
      (before.toList = [] ∨ before.toList.getLast? = some '\n') ∧ '\n' ∉ line ∧
        line.getLast? ≠ some '\r') :
    FilesRelaid Catalog.builtin [⟨"a.s", text⟩] [⟨"a.s", text'⟩] := by
  obtain ⟨htext, htext', hb, hn, hr⟩ := ht
  refine ⟨[], _, _, [], rfl, rfl, rfl, ?_⟩
  rw [htext, htext']
  exact .line hb hn (.feed hr) h

private def headerTokens : List Source.Token :=
  Source.tokenize Catalog.builtin ".macro put %x# one".toList

private def bodyTokens : List Source.Token :=
  Source.tokenize Catalog.builtin "li a0,%x".toList

private def callTokens : List Source.Token :=
  Source.tokenize Catalog.builtin "put(3)".toList

/-- Without the comment of a macro header, with more space in the body, and some in the call. -/
theorem assemble_relaid_macro :
    ∃ p, assemble Catalog.builtin 0
        [⟨"a.s", ".macro put %x# one\nli a0,%x\n.end_macro\nput(3)\n"⟩] = .ok p ∧
      assemble Catalog.builtin 0
        [⟨"a.s", ".macro put %x\nli a0 , %x\n.end_macro\nput (3)\n"⟩] = .ok p := by
  have hheader : headerTokens = headerTokens.take 5 ++ [⟨.comment, "# one".toList⟩] := by
    decide +kernel
  have hbody : bodyTokens = bodyTokens.take 3 ++ ⟨.space, [',']⟩ :: bodyTokens.drop 4 := by
    decide +kernel
  have hcall : callTokens = callTokens.take 1 ++ callTokens.drop 1 :=
    (List.take_append_drop 1 callTokens).symm
  have hopen : ∀ t ∈ (callTokens.take 1).getLast?, t.kind ≠ .openString ∧ t.kind ≠ .openChar := by
    decide +kernel
  have hcomma : Source.IsRun " , ".toList := by decide
  have hblank : Source.IsRun " ".toList := by decide
  have hfirst : FilesRelaid Catalog.builtin
      [⟨"a.s", ".macro put %x# one\nli a0,%x\n.end_macro\nput(3)\n"⟩]
      [⟨"a.s", ".macro put %x\nli a0,%x\n.end_macro\nput(3)\n"⟩] :=
    relaid_line "" "li a0,%x\n.end_macro\nput(3)\n" (.uncomment hheader rfl) (by decide +kernel)
  have hsecond : FilesRelaid Catalog.builtin
      [⟨"a.s", ".macro put %x\nli a0,%x\n.end_macro\nput(3)\n"⟩]
      [⟨"a.s", ".macro put %x\nli a0 , %x\n.end_macro\nput(3)\n"⟩] :=
    relaid_line ".macro put %x\n" ".end_macro\nput(3)\n" (.replace hbody rfl hcomma)
      (by decide +kernel)
  have hthird : FilesRelaid Catalog.builtin
      [⟨"a.s", ".macro put %x\nli a0 , %x\n.end_macro\nput(3)\n"⟩]
      [⟨"a.s", ".macro put %x\nli a0 , %x\n.end_macro\nput (3)\n"⟩] :=
    relaid_line ".macro put %x\nli a0 , %x\n.end_macro\n" "" (.insert hcall hopen hblank)
      (by decide +kernel)
  have hrelaid := assemble_relaid 0 (((Relation.ReflTransGen.single hfirst).tail hsecond).tail hthird)
  have hok : (assemble Catalog.builtin 0
      [⟨"a.s", ".macro put %x# one\nli a0,%x\n.end_macro\nput(3)\n"⟩]).toOption.isSome = true := by
    decide +kernel
  obtain ⟨p, hp⟩ := Option.isSome_iff_exists.mp hok
  rw [toOption_eq_some_iff] at hp
  exact ⟨p, hp, hrelaid.trans hp⟩

end RiscvToolkit.Assembly
