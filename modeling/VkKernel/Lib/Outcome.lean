import Mathlib

/-!
# Postconditions of fallible programs

A program returns a value or stops with an error. `Holds x Q E` says that its
value satisfies `Q` and its error satisfies `E`, so one statement covers both
what a call achieves and which errors it can end in.
-/

namespace Outcome

variable {ε α β : Type}

def Holds (x : Except ε α) (Q : α → Prop) (E : ε → Prop) : Prop :=
  match x with
  | .ok a => Q a
  | .error e => E e

@[simp] theorem holds_ok {a : α} {Q : α → Prop} {E : ε → Prop} :
    Holds (.ok a) Q E ↔ Q a := Iff.rfl

/-- Sequential composition: the value of the first program meets the
precondition of the second. -/
theorem holds_bind {x : Except ε α} {f : α → Except ε β} {Q : β → Prop} {E : ε → Prop} :
    Holds (x >>= f) Q E ↔ Holds x (fun a => Holds (f a) Q E) E := by
  cases x <;> rfl

theorem Holds.mono {x : Except ε α} {Q Q' : α → Prop} {E E' : ε → Prop} (h : Holds x Q E)
    (hQ : ∀ a, Q a → Q' a) (hE : ∀ e, E e → E' e) : Holds x Q' E' := by
  cases x with
  | ok a => exact hQ a h
  | error e => exact hE e h

theorem Holds.of_ok {x : Except ε α} {Q : α → Prop} {E : ε → Prop} (h : Holds x Q E) {a : α}
    (hx : x = .ok a) : Q a := by
  subst hx
  exact h

theorem Holds.of_error {x : Except ε α} {Q : α → Prop} {E : ε → Prop} (h : Holds x Q E) {e : ε}
    (hx : x = .error e) : E e := by
  subst hx
  exact h

/-- A program without errors returns a value. -/
theorem Holds.exists_ok {x : Except ε α} {Q : α → Prop} (h : Holds x Q fun _ => False) :
    ∃ a, x = .ok a ∧ Q a := by
  cases x with
  | ok a => exact ⟨a, rfl, h⟩
  | error e => exact h.elim

theorem bind_eq_ok {x : Except ε α} {f : α → Except ε β} {b : β} :
    (x >>= f) = .ok b ↔ ∃ a, x = .ok a ∧ f a = .ok b := by
  constructor
  · intro h
    cases x with
    | ok a => exact ⟨a, rfl, h⟩
    | error e => cases h
  · rintro ⟨a, rfl, h⟩
    exact h

@[simp] theorem ok_bind {a : α} {f : α → Except ε β} :
    ((.ok a : Except ε α) >>= f) = f a := rfl

end Outcome
