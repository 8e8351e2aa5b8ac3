import RiscvToolkit.Json.Record
import RiscvToolkit.Proofs.Checked.Operand

/-! The texts in a JSON tree are no longer than the text that the tree is read from, as no escape is shorter than the
character it stands for. -/
namespace RiscvToolkit.Json
open Checked (byteSize byteSize_append byteSize_cons byteSize_le_of_sublist byteSize_nil
  utf8ByteSize_ofList)

/-! ### Strings -/

/-- The bytes that a code point takes. -/
def unitSize (n : Nat) : Nat :=
  if n < 0x80 then 1 else if n < 0x800 then 2 else if n < 0x10000 then 3 else 4

theorem unitSize_le (n : Nat) : unitSize n ≤ 4 := by
  unfold unitSize
  split_ifs <;> decide

theorem utf8Size_eq (c : Char) : c.utf8Size = unitSize c.toNat := by
  unfold Char.utf8Size unitSize
  simp only [UInt32.le_iff_toNat_le, Char.toNat, UInt32.toNat_ofNatLT]
  split_ifs <;> omega

theorem utf8Size_ofNat {n : Nat} (h : n.isValidChar) : (Char.ofNat n).utf8Size = unitSize n := by
  rw [utf8Size_eq, Char.toNat_ofNat, if_pos h]

/-- A pair of surrogates takes four bytes, and six on their own. -/
theorem byteSize_ofUnits? {units : List Nat} {cs : List Char} (h : ofUnits? units = some cs) :
    byteSize cs ≤ (units.map unitSize).sum := by
  fun_induction ofUnits? units generalizing cs with
  | case1 =>
    cases h
    exact Nat.le_refl _
  | case2 n hn =>
    cases h
    simp [utf8Size_ofNat hn]
  | case3 n hn => cases h
  | case4 hi lo rest hpair ih =>
    obtain ⟨ds, hds, rfl⟩ := Option.map_eq_some_iff.mp h
    have hle := ih hds
    have hchar := Char.utf8Size_le_four (Char.ofNat (0x10000 + (hi - 0xd800) * 0x400 + (lo - 0xdc00)))
    have hsize (n : Nat) (hn : 0xd800 ≤ n) : 3 ≤ unitSize n := by
      unfold unitSize
      split_ifs <;> omega
    have hhi := hsize hi (by omega)
    have hlo := hsize lo (by omega)
    simp only [byteSize_cons, List.map_cons, List.sum_cons]
    omega
  | case5 hi lo rest hpair hn ih =>
    obtain ⟨ds, hds, rfl⟩ := Option.map_eq_some_iff.mp h
    have hle := ih hds
    simp only [byteSize_cons, List.map_cons, List.sum_cons, utf8Size_ofNat hn] at hle ⊢
    omega
  | case6 => cases h

theorem exists_unit {x : Option Nat} {tail : Option (List Nat × List Char)} {units : List Nat}
    {rest : List Char}
    (h : (do
      let unit ← x
      let (units, rest) ← tail
      pure (unit :: units, rest)) = some (units, rest)) :
    ∃ unit inner, x = some unit ∧ tail = some (inner, rest) ∧ units = unit :: inner := by
  cases x with
  | none => cases h
  | some unit =>
    cases tail with
    | none => cases h
    | some p =>
      cases h
      exact ⟨unit, p.1, rfl, rfl, rfl⟩

/-- An escape has no fewer bytes than what it stands for. -/
theorem byteSize_stringUnits? {text : List Char} {units : List Nat} {rest : List Char}
    (h : stringUnits? text = some (units, rest)) :
    (units.map unitSize).sum + byteSize rest ≤ byteSize text := by
  fun_induction stringUnits? text generalizing units rest with
  | case1 => cases h
  | case2 left =>
    cases h
    simp
  | case3 a b c d left ih =>
    obtain ⟨unit, inner, -, hinner, rfl⟩ := exists_unit h
    have hle := ih hinner
    have hunit := unitSize_le unit
    have hpos := Char.utf8Size_pos
    have ha := hpos a
    have hb := hpos b
    have hc := hpos c
    have hd := hpos d
    simp only [byteSize_cons, List.map_cons, List.sum_cons]
    omega
  | case4 c left hne ih =>
    obtain ⟨unit, inner, hunit, hinner, rfl⟩ := exists_unit h
    have hle := ih hinner
    have hsize : unitSize unit = 1 := by
      unfold plainEscape? at hunit
      split at hunit <;> cases hunit <;> rfl
    have hpos := Char.utf8Size_pos c
    simp only [byteSize_cons, List.map_cons, List.sum_cons]
    omega
  | case5 => cases h
  | case6 c left =>
    rename_i ih
    obtain ⟨unit, inner, hunit, hinner, rfl⟩ := exists_unit (x := some c.toNat) h
    have hle := ih hinner
    cases hunit
    simp only [byteSize_cons, List.map_cons, List.sum_cons, utf8Size_eq c]
    omega

/-! ### Trees -/

/-- True of trees with no text of more than `n` bytes among the values. -/
inductive Within (n : Nat) : Json → Prop
  | null : Within n .null
  | bool {b} : Within n (.bool b)
  | number {value} : Within n (.number value)
  | string {text : Option String} (h : ∀ t ∈ text, t.utf8ByteSize ≤ n) : Within n (.string text)
  | array {items} (h : ∀ item ∈ items, Within n item) : Within n (.array items)
  | object {members : List (Option String × Json)} (h : ∀ m ∈ members, Within n m.2) :
    Within n (.object members)

/-- True of readers that find what `P` is true of, and leave no more than `n` bytes. -/
def Reads {α : Type} (n : Nat) (P : α → Prop) (x : Option (α × List Char)) : Prop :=
  ∀ p ∈ x, P p.1 ∧ byteSize p.2 ≤ n

section
variable {α β : Type} {n : Nat} {P : α → Prop} {Q : β → Prop}

theorem reads_none : Reads n P none := fun _ h => by cases h

theorem reads_some {a : α} (ha : P a) {rest : List Char} (hrest : byteSize rest ≤ n) :
    Reads n P (some (a, rest)) := fun p h => by
  cases h
  exact ⟨ha, hrest⟩

theorem Reads.bind {x : Option (α × List Char)} (hx : Reads n P x)
    {f : α × List Char → Option (β × List Char)}
    (hf : ∀ a rest, P a → byteSize rest ≤ n → Reads n Q (f (a, rest))) : Reads n Q (x >>= f) := by
  cases x with
  | none => exact reads_none
  | some p =>
    obtain ⟨ha, hrest⟩ := hx p rfl
    exact hf p.1 p.2 ha hrest

theorem Reads.map {x : Option (α × List Char)} (hx : Reads n P x) {f : α → β}
    (hf : ∀ a, P a → Q (f a)) : Reads n Q (x.map fun (a, rest) => (f a, rest)) := by
  cases x with
  | none => exact reads_none
  | some p =>
    obtain ⟨ha, hrest⟩ := hx p rfl
    exact reads_some (hf p.1 ha) hrest

end

section
variable {n : Nat} {text : List Char}

theorem byteSize_skipSpace (h : byteSize text ≤ n) : byteSize (skipSpace text) ≤ n :=
  (byteSize_le_of_sublist (List.dropWhile_sublist _)).trans h

theorem byteSize_of_cons {c : Char} {rest : List Char} (h : byteSize (c :: rest) ≤ n) :
    byteSize rest ≤ n := by
  rw [byteSize_cons] at h
  omega

theorem byteSize_of_skipSpace (h : byteSize text ≤ n) {c : Char} {rest : List Char}
    (heq : skipSpace text = c :: rest) : byteSize rest ≤ n :=
  byteSize_of_cons (heq ▸ byteSize_skipSpace h)

theorem reads_quoted? (h : byteSize text ≤ n) :
    Reads n (fun s => ∀ t ∈ s, t.utf8ByteSize ≤ n) (quoted? text) := by
  unfold quoted?
  rintro ⟨s, rest⟩ hp
  obtain ⟨⟨units, left⟩, hunits, heq⟩ := Option.map_eq_some_iff.mp hp
  have hle := byteSize_stringUnits? hunits
  cases heq
  refine ⟨fun t ht => ?_, by dsimp only; omega⟩
  obtain ⟨cs, hcs, rfl⟩ := Option.map_eq_some_iff.mp ht
  have hsize := byteSize_ofUnits? hcs
  rw [utf8ByteSize_ofList]
  omega

theorem reads_digits? (h : byteSize text ≤ n) : Reads n (fun _ => True) (digits? text) := by
  unfold digits?
  dsimp only
  split_ifs
  · exact reads_none
  · exact reads_some trivial ((byteSize_le_of_sublist (List.dropWhile_sublist _)).trans h)

theorem reads_flag (h : byteSize text ≤ n) :
    Reads n (fun _ => True) ((digits? text).map fun (_, rest) => (true, rest)) := by
  rintro p hp
  obtain ⟨q, hq, rfl⟩ := Option.map_eq_some_iff.mp hp
  exact ⟨trivial, (reads_digits? h q hq).2⟩

theorem reads_fraction? (h : byteSize text ≤ n) : Reads n (fun _ => True) (fraction? text) := by
  unfold fraction?
  dsimp only
  split
  on_goal 1 => refine (reads_flag (byteSize_of_cons h)).bind fun point rest _ hrest => ?_
  on_goal 2 => refine (reads_some (P := fun _ => True) trivial h).bind fun point rest _ hrest => ?_
  all_goals
    dsimp only
    split
    on_goal 3 => exact reads_some trivial hrest
    all_goals
      have hexponent := byteSize_of_cons hrest
      split
      · exact reads_flag (byteSize_of_cons hexponent)
      · exact reads_flag (byteSize_of_cons hexponent)
      · exact reads_flag hexponent

theorem reads_number? (h : byteSize text ≤ n) : Reads n (fun _ => True) (number? text) := by
  unfold number?
  split
  next negative unsigned heq =>
    have hunsigned : byteSize unsigned ≤ n := by
      split at heq
      · cases heq
        exact byteSize_of_cons h
      · cases heq
        exact h
    split
    on_goal 1 =>
      have hrest := byteSize_of_cons hunsigned
      refine (reads_some (P := fun _ => True) trivial hrest).bind fun whole rest _ hrest => ?_
    on_goal 2 => refine (reads_digits? hunsigned).bind fun whole rest _ hrest => ?_
    all_goals exact (reads_fraction? hrest).bind fun _ _ _ hrest => reads_some trivial hrest

section
variable {fuel : Nat} (hvalue : ∀ text, byteSize text ≤ n → Reads n (Within n) (value? fuel text))
  (hitems : ∀ text, byteSize text ≤ n →
    Reads n (fun vs => ∀ v ∈ vs, Within n v) (items? fuel text))
  (hmembers : ∀ text, byteSize text ≤ n →
    Reads n (fun ms => ∀ m ∈ ms, Within n m.2) (members? fuel text))

include hitems hmembers in
theorem reads_value?_succ (h : byteSize text ≤ n) :
    Reads n (Within n) (value? (fuel + 1) text) := by
  have hskip := byteSize_skipSpace h
  unfold value?
  split
  next heq =>
    rw [heq] at hskip
    exact reads_some .null (by simp only [byteSize_cons] at hskip; omega)
  next heq =>
    rw [heq] at hskip
    exact reads_some .bool (by simp only [byteSize_cons] at hskip; omega)
  next heq =>
    rw [heq] at hskip
    exact reads_some .bool (by simp only [byteSize_cons] at hskip; omega)
  next heq => exact (reads_quoted? (byteSize_of_skipSpace h heq)).map fun _ => .string
  next heq =>
    have hrest := byteSize_of_skipSpace h heq
    split
    next hend =>
      exact reads_some (.array (List.forall_mem_nil _)) (byteSize_of_skipSpace hrest hend)
    next => exact (hitems _ (byteSize_skipSpace hrest)).map fun _ => .array
  next heq =>
    have hrest := byteSize_of_skipSpace h heq
    split
    next hend =>
      exact reads_some (.object (List.forall_mem_nil _)) (byteSize_of_skipSpace hrest hend)
    next => exact (hmembers _ (byteSize_skipSpace hrest)).map fun _ => .object
  next => exact (reads_number? hskip).map fun _ _ => .number

include hvalue hitems in
theorem reads_items?_succ (h : byteSize text ≤ n) :
    Reads n (fun vs => ∀ v ∈ vs, Within n v) (items? (fuel + 1) text) := by
  unfold items?
  refine (hvalue text h).bind fun item rest hitem hrest => ?_
  dsimp only
  split
  next heq =>
    exact reads_some (List.forall_mem_singleton.mpr hitem) (byteSize_of_skipSpace hrest heq)
  next heq =>
    refine (hitems _ (byteSize_of_skipSpace hrest heq)).bind fun items rest hitems hrest => ?_
    exact reads_some (List.forall_mem_cons.mpr ⟨hitem, hitems⟩) hrest
  next => exact reads_none

include hvalue hmembers in
theorem reads_members?_succ (h : byteSize text ≤ n) :
    Reads n (fun ms => ∀ m ∈ ms, Within n m.2) (members? (fuel + 1) text) := by
  unfold members?
  dsimp only
  split
  next heq =>
    refine (reads_quoted? (byteSize_of_skipSpace h heq)).bind fun key rest _ hrest => ?_
    dsimp only
    split
    next heq =>
      refine (hvalue _ (byteSize_of_skipSpace hrest heq)).bind fun value rest hv hrest => ?_
      dsimp only
      split
      next heq =>
        have hms : ∀ m ∈ [(key, value)], Within n m.2 := List.forall_mem_singleton.mpr hv
        exact reads_some hms (byteSize_of_skipSpace hrest heq)
      next heq =>
        refine (hmembers _ (byteSize_of_skipSpace hrest heq)).bind fun members rest hms hrest => ?_
        have hms : ∀ m ∈ (key, value) :: members, Within n m.2 :=
          List.forall_mem_cons.mpr ⟨hv, hms⟩
        exact reads_some hms hrest
      next => exact reads_none
    next => exact reads_none
  next => exact reads_none

end

/-- A value, the items of an array and the members of an object, as they read each other. -/
theorem reads_value? (fuel : Nat) :
    (∀ text, byteSize text ≤ n → Reads n (Within n) (value? fuel text)) ∧
      (∀ text, byteSize text ≤ n → Reads n (fun vs => ∀ v ∈ vs, Within n v) (items? fuel text)) ∧
      ∀ text, byteSize text ≤ n →
        Reads n (fun ms => ∀ m ∈ ms, Within n m.2) (members? fuel text) := by
  induction fuel with
  | zero => exact ⟨fun _ _ => reads_none, fun _ _ => reads_none, fun _ _ => reads_none⟩
  | succ fuel ih =>
    obtain ⟨hvalue, hitems, hmembers⟩ := ih
    exact ⟨fun _ => reads_value?_succ hitems hmembers, fun _ => reads_items?_succ hvalue hitems,
      fun _ => reads_members?_succ hvalue hmembers⟩

end

/-- No text in a tree is longer than the text of the tree. -/
theorem within_of_parse? {text : String} {json : Json} (h : parse? text = some json) :
    json.Within text.utf8ByteSize := by
  have hsize : byteSize text.toList ≤ text.utf8ByteSize := by
    rw [← utf8ByteSize_ofList, String.ofList_toList]
  unfold parse? at h
  obtain ⟨⟨value, rest⟩, hvalue, h⟩ := Option.bind_eq_some_iff.mp h
  have hwithin := ((reads_value? _).1 _ hsize _ hvalue).1
  dsimp only at h
  split_ifs at h
  cases h
  exact hwithin

/-! ### Records -/

/-- Each value that is read is read from an item. -/
theorem exists_of_mem_mapM {α β : Type} {f : α → Option β} {xs : List α} {ys : List β}
    (h : xs.mapM f = some ys) {y : β} (hy : y ∈ ys) : ∃ x ∈ xs, f x = some y := by
  induction xs generalizing ys with
  | nil =>
    cases h
    cases hy
  | cons x xs ih =>
    rw [List.mapM_cons] at h
    obtain ⟨z, hz, h⟩ := Option.bind_eq_some_iff.mp h
    obtain ⟨zs, hzs, h⟩ := Option.bind_eq_some_iff.mp h
    cases h
    rcases List.mem_cons.mp hy with rfl | hy
    · exact ⟨x, List.mem_cons_self, hz⟩
    · obtain ⟨w, hw, hf⟩ := ih hzs hy
      exact ⟨w, List.mem_cons_of_mem x hw, hf⟩

section
variable {n : Nat} {json : Json}

/-- The values of fields are values of members or items. -/
theorem within_of_fields? (hj : json.Within n) {names : List String} {values : List (Option Json)}
    (h : json.fields? names = some values) : ∀ value ∈ values, ∀ v ∈ value, Within n v := by
  intro value hvalue v hv
  unfold fields? at h
  cases hj with
  | array hitems =>
    dsimp only at h
    split_ifs at h
    cases h
    obtain ⟨⟨name, i⟩, -, rfl⟩ := List.mem_map.mp hvalue
    exact hitems v (List.mem_of_getElem? hv)
  | object hmembers =>
    obtain ⟨members, hm, h⟩ := Option.bind_eq_some_iff.mp h
    obtain ⟨name, -, hname⟩ := exists_of_mem_mapM h hvalue
    split at hname
    next =>
      cases hname
      cases hv
    next key w hfilter =>
      cases hname
      cases hv
      have hmem : (key, v) ∈ members := List.mem_of_mem_filter (hfilter ▸ List.mem_singleton_self _)
      obtain ⟨⟨key?, w⟩, hw, hkey⟩ := exists_of_mem_mapM hm hmem
      obtain ⟨key', -, heq⟩ := Option.map_eq_some_iff.mp hkey
      cases heq
      exact hmembers _ hw
    next => cases hname
  | _ => cases h

/-- What a list holds is read from items. -/
theorem of_mem_list? {α : Type} {item? : Json → Option α} (hj : json.Within n) {as : List α}
    (h : json.list? item? = some as) {a : α} (ha : a ∈ as) :
    ∃ item, item.Within n ∧ item? item = some a := by
  cases hj with
  | array hitems =>
    obtain ⟨item, hmem, hitem⟩ := exists_of_mem_mapM h ha
    exact ⟨item, hitems item hmem, hitem⟩
  | _ => cases h

end

end RiscvToolkit.Json
