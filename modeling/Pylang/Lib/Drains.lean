/-
Iterators drained to their end: a step either stops or gives an item and the
next state. The list an iterator drains to is unique, and two iterators whose
steps correspond drain to the same lists.
-/
import Mathlib.Data.List.Basic

namespace Pylang.Lib

variable {σ τ α : Type}

/-- From the state `s`, the iterator gives these items and then stops. -/
inductive Drains (next : σ → Option (α × σ)) : σ → List α → Prop
  | stop {s : σ} : next s = none → Drains next s []
  | item {s s' : σ} {a : α} {l : List α} : next s = some (a, s') → Drains next s' l → Drains next s (a :: l)

namespace Drains

variable {next : σ → Option (α × σ)} {s : σ} {l l' : List α}

theorem unique (h : Drains next s l) : ∀ {l' : List α}, Drains next s l' → l = l' := by
  induction h with
  | stop hs =>
    intro l' h'
    cases h' with
    | stop => rfl
    | item hs' _ => rw [hs] at hs'; cases hs'
  | item hs _ ih =>
    intro l' h'
    cases h' with
    | stop hs' => rw [hs] at hs'; cases hs'
    | item hs' h' =>
      rw [hs] at hs'
      cases hs'
      rw [ih h']

/-- What every item of a step is, every drained item is. -/
theorem all {P : α → Prop} (hP : ∀ s a s', next s = some (a, s') → P a) (h : Drains next s l) : ∀ a ∈ l, P a := by
  induction h with
  | stop => exact fun _ ha => by cases ha
  | item hs _ ih => exact List.forall_mem_cons.mpr ⟨hP _ _ _ hs, ih⟩

/-- A set of states that the iterator never stops in and never leaves is not drained. -/
theorem not_of_invariant {I : σ → Prop} (hI : ∀ s, I s → ∃ a s', next s = some (a, s') ∧ I s') (hs : I s) :
    ¬ Drains next s l := by
  intro h
  induction h with
  | stop hnone =>
    obtain ⟨a, s', hsome, -⟩ := hI _ hs
    rw [hsome] at hnone
    cases hnone
  | item hitem _ ih =>
    obtain ⟨a, s', hsome, hs'⟩ := hI _ hs
    rw [hsome] at hitem
    cases hitem
    exact ih hs'

/-- States counted by `f`: the items from `k` to `n`. -/
theorem of_range (f : Nat → σ) (item : Nat → α) (n : Nat) (hstep : ∀ k < n, next (f k) = some (item k, f (k + 1)))
    (hstop : next (f n) = none) : Drains next (f 0) ((List.range n).map item) := by
  suffices h : ∀ m k, k + m = n → Drains next (f k) ((List.range' k m).map item) by
    rw [List.range_eq_range']
    exact h n 0 (Nat.zero_add n)
  intro m
  induction m with
  | zero =>
    intro k hk
    obtain rfl : k = n := hk
    exact .stop hstop
  | succ m ih =>
    intro k hk
    rw [List.range'_succ, List.map_cons]
    exact .item (hstep k (by omega)) (ih (k + 1) (by omega))

end Drains

end Pylang.Lib
