import Mathlib
import RiscvToolkit.Assembly.Block

/-! Results that are an error or a value: sequencing, what becomes of it once errors are forgotten, and results
that are related. -/
namespace RiscvToolkit
variable {ε α β : Type}

@[simp] theorem ok_bind (a : α) (f : α → Except ε β) : ((.ok a : Except ε α) >>= f) = f a := rfl

@[simp] theorem error_bind (e : ε) (f : α → Except ε β) :
    ((.error e : Except ε α) >>= f) = .error e := rfl

@[simp] theorem toOption_ok (a : α) : (Except.ok a : Except ε α).toOption = some a := rfl

@[simp] theorem toOption_error (e : ε) : (Except.error e : Except ε α).toOption = none := rfl

theorem toOption_bind (x : Except ε α) (f : α → Except ε β) :
    (x >>= f).toOption = x.toOption.bind fun a => (f a).toOption := by
  cases x <;> rfl

theorem toOption_eq_some_iff (x : Except ε α) (a : α) : x.toOption = some a ↔ x = .ok a := by
  cases x <;> simp

theorem bind_eq_ok_iff {x : Except ε α} {f : α → Except ε β} {b : β} :
    x >>= f = .ok b ↔ ∃ a, x = .ok a ∧ f a = .ok b := by
  cases x <;> simp

theorem bind_eq_error_iff {x : Except ε α} {f : α → Except ε β} {e : ε} :
    x >>= f = .error e ↔ x = .error e ∨ ∃ a, x = .ok a ∧ f a = .error e := by
  cases x <;> simp

theorem map_eq_ok_iff {x : Except ε α} {f : α → β} {b : β} :
    x.map f = .ok b ↔ ∃ a, x = .ok a ∧ f a = b := by
  cases x <;> simp [Except.map]

theorem map_eq_error_iff {x : Except ε α} {f : α → β} {e : ε} :
    x.map f = .error e ↔ x = .error e := by
  cases x <;> simp [Except.map]

theorem mapError_eq_error_iff {ε' : Type} {x : Except ε α} {f : ε → ε'} {e : ε'} :
    x.mapError f = .error e ↔ ∃ d, x = .error d ∧ f d = e := by
  cases x <;> simp [Except.mapError]

theorem mapError_eq_ok_iff {ε' : Type} {x : Except ε α} {f : ε → ε'} {a : α} :
    x.mapError f = .ok a ↔ x = .ok a := by
  cases x <;> simp [Except.mapError]

/-- Work that keeps its state after an error, one part after the other. -/
theorem bind_run {σ : Type} (x : EStateM ε σ α) (f : α → EStateM ε σ β) (s : σ) :
    (x >>= f) s = match x s with
      | .ok a s => f a s
      | .error e s => .error e s := by
  change EStateM.bind x f s = _
  unfold EStateM.bind
  cases x s <;> rfl

section
variable {γ δ : Type} {R : α → β → Prop} {S : γ → δ → Prop} {a : Option α} {b : Option β}

theorem rel_map (h : Option.Rel R a b) {f : α → γ} {g : β → δ}
    (hf : ∀ x ∈ a, ∀ y ∈ b, R x y → S (f x) (g y)) : Option.Rel S (a.map f) (b.map g) := by
  cases h with
  | none => exact .none
  | some h => exact .some (hf _ rfl _ rfl h)

theorem rel_bind (h : Option.Rel R a b) {f : α → Option γ} {g : β → Option δ}
    (hf : ∀ x ∈ a, ∀ y ∈ b, R x y → Option.Rel S (f x) (g y)) :
    Option.Rel S (a.bind f) (b.bind g) := by
  cases h with
  | none => exact .none
  | some h => exact hf _ rfl _ rfl h

end

/-- The same error on both sides, or values that are related. -/
inductive ExceptRel (R : α → β → Prop) : Except ε α → Except ε β → Prop
  | error (e : ε) : ExceptRel R (.error e) (.error e)
  | ok {a : α} {b : β} (h : R a b) : ExceptRel R (.ok a) (.ok b)

theorem ExceptRel.ok_or_error {R : α → β → Prop} {x : Except ε α} {y : Except ε β}
    (h : ExceptRel R x y) :
    (∃ a b, x = .ok a ∧ y = .ok b ∧ R a b) ∨ ∃ e, x = .error e ∧ y = .error e := by
  cases h with
  | error e => exact .inr ⟨e, rfl, rfl⟩
  | ok h => exact .inl ⟨_, _, rfl, rfl, h⟩

/-- Results that `p` makes equal, and what goes on with them. -/
theorem map_bind_congr {α' β' : Type} {p : α → α'} {q : β → β'} {x y : Except ε α}
    (h : x.map p = y.map p) {f g : α → Except ε β}
    (hf : ∀ a b, p a = p b → (f a).map q = (g b).map q) :
    (x >>= f).map q = (y >>= g).map q := by
  cases x with
  | error e =>
    cases y with
    | error e' =>
      cases h
      rfl
    | ok b => cases h
  | ok a =>
    cases y with
    | error e' => cases h
    | ok b => exact hf a b (Except.ok.inj h)

namespace Assembly

theorem located_bind (line : Nat) (file : String) (x : Except ErrorKind α)
    (f : α → Except ErrorKind β) :
    located line file (x >>= f) = (located line file x >>= fun a => located line file (f a)) := by
  cases x <;> rfl

theorem located_map (line : Nat) (file : String) (x : Except ErrorKind α) (f : α → β) :
    located line file (x.map f) = (located line file x).map f := by
  cases x <;> rfl

theorem within_map (call : Option Location) (x : Except Error α) (f : α → β) :
    within call (x.map f) = (within call x).map f := by
  cases call <;> cases x <;> rfl

@[simp] theorem toOption_located (line : Nat) (file : String) (x : Except ErrorKind α) :
    (located line file x).toOption = x.toOption := by
  cases x <;> rfl

@[simp] theorem toOption_within (call : Option Location) (x : Except Error α) :
    (within call x).toOption = x.toOption := by
  cases call <;> cases x <;> rfl

theorem ok_of_located {line : Nat} {file : String} {x : Except ErrorKind α} {a : α}
    (h : located line file x = .ok a) : x = .ok a := by
  rw [← toOption_eq_some_iff, toOption_located, toOption_eq_some_iff] at h
  exact h

theorem ok_of_within {call : Option Location} {x : Except Error α} {a : α}
    (h : within call x = .ok a) : x = .ok a := by
  rw [← toOption_eq_some_iff, toOption_within, toOption_eq_some_iff] at h
  exact h

end Assembly

end RiscvToolkit
