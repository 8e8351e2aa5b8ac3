import RiscvToolkit.Proofs.Assembly.Standing

/-! Alignment. The text segment only ever takes whole words, so that labels in it are aligned, and a transfer has an odd
offset only if one of its ends is in data. -/
namespace RiscvToolkit.Assembly

theorem Transfer.odd_of_unreachable {t : Transfer} {offset : Int}
    (h : ErrorKind.oddTarget = t.unreachable offset) : offset % 2 ≠ 0 := by
  unfold unreachable at h
  split_ifs at h with he
  exact he

/-- Two places of which the distance is odd are not both places of words in text. -/
theorem data_of_odd {address target : UInt32} (ha : Sited address) (ht : Sited target)
    (ho : Transfer.distance address target % 2 ≠ 0) :
    Place.data.Spans target ∨ Place.data.Spans address := by
  rcases ha with ha | ⟨-, ha⟩
  · exact .inr ha
  rcases ht with ht | ⟨-, ht⟩
  · exact .inl ht
  · unfold Transfer.distance at ho
    omega

/-- At every point of an assembly, between two words of a line just as between files and at the link, the next address in
text is a multiple of 4. A label that is bound while text is in force gets such an address, of the segment or the one
behind it. An error for an odd target is therefore raised by the relocation of a branch or a jump for which the address of
its label or its own is in data. -/
theorem text_aligned (catalog : Catalog) (stackSize : Nat) (files : List Source.File) :
    (∀ ps y t, Visits catalog stackSize files ps y t → 4 ∣ (t.image.cursor .text).toNat) ∧
    (∀ l, Linkage.addAll catalog files ⟨.empty stackSize, [], #[], #[]⟩ = .ok l →
      4 ∣ (l.image.cursor .text).toNat) ∧
    (∀ ps name rest t, Visits catalog stackSize files ps (.label .text name rest) t →
      ∃ address, (t.define .text name).labels.lookup name = some address ∧
        4 ∣ address.toNat ∧ Place.text.Spans address) ∧
    ∀ location, FailsAt (assemble catalog stackSize files) .oddTarget location →
      ∃ r target, Settles catalog stackSize files r target ∧ r.location = location ∧
        (∃ m, r.kind.apply m r.address target = .error .oddTarget) ∧
        (r.kind = .branch ∨ r.kind = .jump) ∧
        (Place.data.Spans target ∨ Place.data.Spans r.address) := by
  refine ⟨fun ps y t h => Image.dvd_cursor h.orderly.1.text,
    fun l h => Image.dvd_cursor ((Linkage.Orderly.start stackSize).addAll h).text,
    fun ps name rest t h => ?_, fun location h => ?_⟩
  · refine ⟨t.image.cursor .text, ?_, Image.dvd_cursor h.orderly.1.text, t.image.spans_cursor .text⟩
    simp [State.define]
  · cases exists_cause h with
    | early h =>
      rcases h with h | ⟨limit, h⟩
      · exact h.elim
      · cases h
    | item hv hy hp => cases Piece.error_of_put (State.put_of_add_error hp)
    | @patch r target m _ hs hk =>
      obtain ⟨htarget, i, hi, haddress⟩ := hs.sited
      obtain ⟨t, hkind, hu⟩ := RelocationKind.error_of_apply hi hk
      have hdata := data_of_odd haddress htarget (t.odd_of_unreachable hu)
      refine ⟨r, target, hs, rfl, ⟨m, hk⟩, ?_, hdata⟩
      rw [hkind]
      cases t with
      | branch => exact .inl rfl
      | jump => exact .inr rfl

private def oddFile : Source.File :=
  ⟨"a.s", "main: nop\n.data\n.byte 1\nx: .byte 2\n.text\nj x"⟩

private def failureOf (result : Except Error Program) : Option (ErrorKind × Location) :=
  match result with
  | .ok _ => none
  | .error e => some (e.kind, e.location)

/-- A jump to a byte of data that has an odd address. -/
theorem text_aligned_jump :
    (∃ rest address, Script.ofFile Catalog.builtin oddFile = .label .text "main" rest ∧
      ((State.start (.empty 0)).define .text "main").labels.lookup "main" = some address ∧
      4 ∣ address.toNat ∧ Place.text.Spans address) ∧
    ∃ r target, FailsAt (assemble Catalog.builtin 0 [oddFile]) .oddTarget ⟨6, "a.s"⟩ ∧
      Settles Catalog.builtin 0 [oddFile] r target ∧ r.location = ⟨6, "a.s"⟩ ∧
      (∃ m, r.kind.apply m r.address target = .error .oddTarget) ∧
      (r.kind = .branch ∨ r.kind = .jump) ∧
      (Place.data.Spans target ∨ Place.data.Spans r.address) := by
  obtain ⟨-, -, hlabel, hodd⟩ := text_aligned Catalog.builtin 0 [oddFile]
  constructor
  · obtain ⟨rest, hrest⟩ : ∃ rest,
        Script.ofFile Catalog.builtin oddFile = .label .text "main" rest := ⟨_, rfl⟩
    have hv : Visits Catalog.builtin 0 [oddFile] [] (.label .text "main" rest)
        (.start (.empty 0)) := .first (hrest ▸ .here)
    obtain ⟨address, h⟩ := hlabel _ "main" rest _ hv
    exact ⟨rest, address, hrest, h⟩
  · have hfails : failureOf (assemble Catalog.builtin 0 [oddFile]) =
        some (.oddTarget, ⟨6, "a.s"⟩) := by decide +kernel
    have hf : FailsAt (assemble Catalog.builtin 0 [oddFile]) .oddTarget ⟨6, "a.s"⟩ := by
      cases he : assemble Catalog.builtin 0 [oddFile] with
      | ok p =>
        rw [he] at hfails
        cases hfails
      | error e =>
        obtain ⟨kind, location, trace⟩ := e
        rw [he] at hfails
        cases hfails
        exact ⟨trace, rfl⟩
    obtain ⟨r, target, h⟩ := hodd ⟨6, "a.s"⟩ hf
    exact ⟨r, target, hf, h⟩

end RiscvToolkit.Assembly
