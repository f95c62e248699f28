/-!
Pre- and postconditions for computations in `Except`: `Spec x Q E` says that `x` returns a value
with `Q` or fails with an error with `E`. The rules follow the constructs of `do` notation.
-/

namespace Outcome

variable {ε α β : Type}

theorem bind_eq_ok {x : Except ε α} {f : α → Except ε β} {b : β}
    : x >>= f = .ok b ↔ ∃ a, x = .ok a ∧ f a = .ok b := by
  cases x with
  | ok a => simp [bind, Except.bind]
  | error e => simp [bind, Except.bind]

@[simp]
theorem ok_bind (a : α) (f : α → Except ε β) : (Except.ok a >>= f) = f a := rfl

@[simp]
theorem pure_eq_ok (a : α) : (pure a : Except ε α) = .ok a := rfl

@[simp]
theorem throw_eq_error (e : ε) : (throw e : Except ε α) = .error e := rfl

def Spec (x : Except ε α) (Q : α → Prop) (E : ε → Prop) : Prop :=
  match x with
  | .ok a => Q a
  | .error e => E e

namespace Spec

variable {x y : Except ε α} {f : α → Except ε β} {Q R : α → Prop} {S : β → Prop} {E : ε → Prop}

theorem ok {a : α} (h : Spec x Q E) (hx : x = .ok a) : Q a := by
  rw [hx] at h
  exact h

theorem error {e : ε} (h : Spec x Q E) (hx : x = .error e) : E e := by
  rw [hx] at h
  exact h

theorem pure {a : α} (h : Q a) : Spec (pure a) Q E := h

theorem throw {e : ε} (h : E e) : Spec (throw e) Q E := h

theorem mono (h : Spec x R E) (hQ : ∀ a, R a → Q a) : Spec x Q E := by
  cases x with
  | ok a =>
    apply hQ
    exact h
  | error e => exact h

theorem always (x : Except ε α) : Spec x (fun _ => True) (fun _ => True) := by
  cases x with
  | ok a => trivial
  | error e => trivial

theorem bind (hx : Spec x R E) (hf : ∀ a, R a → Spec (f a) S E) : Spec (x >>= f) S E := by
  cases x with
  | ok a =>
    apply hf
    exact hx
  | error e => exact hx

theorem ite {p : Prop} [Decidable p] (ht : p → Spec x Q E) (hf : ¬p → Spec y Q E)
    : Spec (if p then x else y) Q E := by
  split
  . next h => exact ht h
  . next h => exact hf h

end Spec
end Outcome
