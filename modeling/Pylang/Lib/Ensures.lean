/-
What a computation that may fail ensures: one predicate of its errors, one of
its results. A `do` block is taken apart from the front (`ensures_bind`).
-/
import Mathlib.Logic.Basic

namespace Pylang

section
variable {ε α β : Type} {E : ε → Prop}

def Ensures (E : ε → Prop) (x : Except ε α) (P : α → Prop) : Prop :=
  match x with
  | .ok a => P a
  | .error e => E e

theorem ensures_ok {a : α} {P : α → Prop} : Ensures E (.ok a) P ↔ P a := Iff.rfl

theorem ensures_pure {a : α} {P : α → Prop} : Ensures E (pure a) P ↔ P a := Iff.rfl

theorem ensures_error {e : ε} {P : α → Prop} : Ensures E (.error e) P ↔ E e := Iff.rfl

theorem ensures_throw {e : ε} {P : α → Prop} : Ensures E (throw e) P ↔ E e := Iff.rfl

theorem ensures_bind {x : Except ε α} {f : α → Except ε β} {P : β → Prop} :
    Ensures E (x >>= f) P ↔ Ensures E x fun a => Ensures E (f a) P := by
  cases x with
  | ok a => exact Iff.rfl
  | error e => exact Iff.rfl

theorem ensures_ite {c : Prop} [Decidable c] {x y : Except ε α} {P : α → Prop} :
    Ensures E (if c then x else y) P ↔ (c → Ensures E x P) ∧ (¬ c → Ensures E y P) := by
  split
  next h => simp [h]
  next h => simp [h]

theorem bind_eq_ok {x : Except ε α} {f : α → Except ε β} {b : β} : x >>= f = .ok b ↔ ∃ a, x = .ok a ∧ f a = .ok b := by
  cases x with
  | ok a => exact ⟨fun h => ⟨a, rfl, h⟩, fun ⟨_, ha, h⟩ => by cases ha; exact h⟩
  | error e => exact ⟨nofun, fun ⟨_, ha, _⟩ => by cases ha⟩

theorem Ensures.mono {x : Except ε α} {P Q : α → Prop} (h : Ensures E x P) (hPQ : ∀ a, P a → Q a) :
    Ensures E x Q := by
  cases x with
  | ok a => exact hPQ a h
  | error e => exact h

theorem Ensures.of_ok {x : Except ε α} {P : α → Prop} {a : α} (h : Ensures E x P) (hx : x = .ok a) : P a := by
  rw [hx] at h
  exact h

/-- The result, beside what it ensures. -/
theorem Ensures.with_eq {x : Except ε α} {P : α → Prop} (h : Ensures E x P) : Ensures E x fun a => x = .ok a ∧ P a := by
  cases x with
  | ok a => exact ⟨rfl, h⟩
  | error e => exact h

theorem Ensures.and {x : Except ε α} {P Q : α → Prop} (h : Ensures E x P) (h' : Ensures E x Q) :
    Ensures E x fun a => P a ∧ Q a := by
  cases x with
  | ok a => exact ⟨h, h'⟩
  | error e => exact h

theorem Ensures.of_error {x : Except ε α} {P : α → Prop} {e : ε} (h : Ensures E x P) (hx : x = .error e) : E e := by
  rw [hx] at h
  exact h

end

end Pylang
