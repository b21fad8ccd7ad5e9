/-
A machine that takes one step at a time and either goes on or halts with a
result: runs as a relation, runs for a number of steps, and how the two meet.
-/
import Mathlib.Logic.Relation

namespace Pylang

variable {σ ρ : Type*}

/-- Zero or more steps that continue. -/
inductive Star (step : σ → σ ⊕ ρ) : σ → σ → Prop
  | refl {s} : Star step s s
  | cons {s s' s''} : step s = .inl s' → Star step s' s'' → Star step s s''

/-- The run from `s` halts with `r`. -/
def HaltsWith (step : σ → σ ⊕ ρ) (s : σ) (r : ρ) : Prop := ∃ s', Star step s s' ∧ step s' = .inr r

/-- At most `n` steps from `s`. -/
def runFor (step : σ → σ ⊕ ρ) : Nat → σ → σ ⊕ ρ
  | 0, s => .inl s
  | n + 1, s =>
    match step s with
    | .inl s' => runFor step n s'
    | .inr r => .inr r

variable {step : σ → σ ⊕ ρ}

theorem Star.one {s s' : σ} (h : step s = .inl s') : Star step s s' := .cons h .refl

theorem Star.trans {s s' s'' : σ} (h : Star step s s') (h' : Star step s' s'') : Star step s s'' := by
  induction h with
  | refl => exact h'
  | cons hs _ ih => exact .cons hs (ih h')

theorem HaltsWith.of_star {s s' : σ} {r : ρ} (h : Star step s s') (h' : HaltsWith step s' r) : HaltsWith step s r := by
  obtain ⟨t, ht, hr⟩ := h'
  exact ⟨t, h.trans ht, hr⟩

theorem HaltsWith.of_runFor {n : Nat} : ∀ {s : σ} {r : ρ}, runFor step n s = .inr r → HaltsWith step s r := by
  induction n with
  | zero =>
    intro s r h
    cases h
  | succ n ih =>
    intro s r h
    unfold runFor at h
    split at h
    next hs => exact .of_star (.one hs) (ih h)
    next hs =>
      cases h
      exact ⟨s, .refl, hs⟩

/-- A run has one end. -/
theorem HaltsWith.unique {s : σ} {r r' : ρ} (h : HaltsWith step s r) (h' : HaltsWith step s r') : r = r' := by
  obtain ⟨t, ht, hr⟩ := h
  obtain ⟨t', ht', hr'⟩ := h'
  induction ht with
  | refl =>
    cases ht' with
    | refl =>
      rw [hr] at hr'
      cases hr'
      rfl
    | cons hs _ =>
      rw [hr] at hs
      cases hs
  | cons hs _ ih =>
    cases ht' with
    | refl =>
      rw [hr'] at hs
      cases hs
    | cons hs' h' =>
      rw [hs] at hs'
      cases hs'
      exact ih hr h'

end Pylang
