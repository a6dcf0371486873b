import StackLisp.Proofs.Code.Emits

/-!
# Results of two runs

One function is run twice, on operands that are the same up to something.  Its two results
**match** (`Matches`) if both runs succeed, with values that are related again, or both fail, with
errors that are.  Matching goes through a sequence of computations one step at a time
(`Matches.bind`), so it is shown of a function by following its definition.

What is the same is mostly said by a function that leaves something out, such as a location: two
values are the same **up to** it if it takes them to the same value (`Upto`).
-/

namespace StackLisp

/-- **The same up to what `f` leaves out.** -/
@[simp] abbrev Upto {α β : Type} (f : α → β) (a b : α) : Prop :=
  f b = f a

/-- **Two results that match**: values with `R` or errors with `E`. -/
inductive Matches {ε α : Type} (E : ε → ε → Prop) (R : α → α → Prop) :
    Except ε α → Except ε α → Prop
  | ok {a b : α} (h : R a b) : Matches E R (.ok a) (.ok b)
  | error {e f : ε} (h : E e f) : Matches E R (.error e) (.error f)

namespace Matches
variable {ε ε' α β : Type} {E : ε → ε → Prop} {R : α → α → Prop} {r s : Except ε α}

/-- **Computations that match, one after the other.** -/
theorem bind {S : β → β → Prop} {f g : α → Except ε β} (h : Matches E R r s)
    (hf : ∀ a b, R a b → Matches E S (f a) (g b)) : Matches E S (r >>= f) (s >>= g) := by
  cases h with
  | ok h => exact hf _ _ h
  | error h => exact .error h

theorem mono {E' : ε → ε → Prop} {R' : α → α → Prop} (h : Matches E R r s)
    (hE : ∀ e f, E e f → E' e f) (hR : ∀ a b, R a b → R' a b) : Matches E' R' r s := by
  cases h with
  | ok h => exact .ok (hR _ _ h)
  | error h => exact .error (hE _ _ h)

/-- Errors that are wrapped. -/
theorem mapError {E' : ε' → ε' → Prop} {f g : ε → ε'} (h : Matches E R r s)
    (hE : ∀ e e', E e e' → E' (f e) (g e')) : Matches E' R (r.mapError f) (s.mapError g) := by
  cases h with
  | ok h => exact .ok h
  | error h => exact .error (hE _ _ h)

/-- The second value is used further. -/
theorem map_right {R' : α → α → Prop} {f : α → α} (h : Matches E R r s)
    (hf : ∀ a b, R a b → R' a (f b)) : Matches E R' r (s.map f) := by
  cases h with
  | ok h => exact .ok (hf _ _ h)
  | error h => exact .error h

theorem exists_ok {a : α} (h : Matches E R r s) (hr : r = .ok a) : ∃ b, s = .ok b ∧ R a b := by
  subst hr
  cases h with
  | ok h => exact ⟨_, rfl, h⟩

theorem exists_error {e : ε} (h : Matches E R r s) (hr : r = .error e) :
    ∃ f, s = .error f ∧ E e f := by
  subst hr
  cases h with
  | error h => exact ⟨_, rfl, h⟩

/-! ## Up to a function -/

section Upto
variable {δ γ : Type} {f : ε → δ} {g : α → γ}

theorem refl (r : Except ε α) : Matches (Upto f) Eq r r := by
  cases r with
  | ok a => exact .ok rfl
  | error e => exact .error rfl

theorem symm (h : Matches (Upto f) (Upto g) r s) : Matches (Upto f) (Upto g) s r := by
  cases h with
  | ok h => exact .ok h.symm
  | error h => exact .error h.symm

theorem trans {t : Except ε α} (h : Matches (Upto f) (Upto g) r s)
    (h' : Matches (Upto f) (Upto g) s t) : Matches (Upto f) (Upto g) r t := by
  cases h with
  | ok h =>
    cases h' with
    | ok h' => exact .ok (h'.trans h)
  | error h =>
    cases h' with
    | error h' => exact .error (h'.trans h)

/-- Results that are the same without what is left out. -/
theorem of_eq (h : (s.map g).mapError f = (r.map g).mapError f) :
    Matches (Upto f) (Upto g) r s := by
  cases r with
  | error e =>
    cases s with
    | error e' => exact .error (Except.error.inj h)
    | ok b => cases h
  | ok a =>
    cases s with
    | error e' => cases h
    | ok b => exact .ok (Except.ok.inj h)

end Upto

end Matches

end StackLisp
