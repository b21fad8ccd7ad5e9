/-
Traces of what happens at the nodes of a tree. A step carries the path of its
node, so that the part of a trace that belongs to one child can be read off,
and traces put together from the same parts are equal only if the parts are.
-/
import Mathlib.Data.List.Basic

namespace Pylang.Lib

/-- Something that happens at the node at `path`. -/
structure PathStep (α : Type*) where
  path : List Nat
  act : α
  deriving DecidableEq

abbrev PathTrace (α : Type*) := List (PathStep α)

namespace PathTrace

variable {α : Type*}

/-- A child's trace, seen from its parent. -/
def child (i : Nat) (t : PathTrace α) : PathTrace α := t.map fun s => { s with path := i :: s.path }

/-- One step of the node itself. -/
def own (a : α) : PathTrace α := [⟨[], a⟩]

/-- The traces of a list of nodes one after the other, the first at `n`. -/
def listed : Nat → List (PathTrace α) → PathTrace α
  | _, [] => []
  | n, t :: ts => child n t ++ listed (n + 1) ts

/-- What of a trace happens in the child `i`. -/
def part (i : Nat) (t : PathTrace α) : PathTrace α :=
  t.filterMap fun s => match s.path with
    | [] => none
    | j :: q => if j = i then some { s with path := q } else none

@[simp] theorem child_nil (i : Nat) : child i ([] : PathTrace α) = [] := rfl

@[simp] theorem child_eq_nil {i : Nat} {t : PathTrace α} : child i t = [] ↔ t = [] := List.map_eq_nil_iff

@[simp] theorem part_nil (i : Nat) : part i ([] : PathTrace α) = [] := rfl

@[simp] theorem part_own (i : Nat) (a : α) : part i (own a) = [] := rfl

@[simp] theorem part_append (i : Nat) (s t : PathTrace α) : part i (s ++ t) = part i s ++ part i t :=
  List.filterMap_append

@[simp] theorem part_child (i j : Nat) (t : PathTrace α) : part i (child j t) = if j = i then t else [] := by
  unfold part child
  rw [List.filterMap_map]
  split
  · next h => simp [h]
  · next h => simp [h]

theorem part_listed_of_lt {i : Nat} : ∀ {n : Nat} (ts : List (PathTrace α)), i < n → part i (listed n ts) = []
  | _, [], _ => rfl
  | n, t :: ts, h => by
    have hne : n ≠ i := by omega
    simp [listed, hne, part_listed_of_lt ts (show i < n + 1 by omega)]

theorem child_inj {i : Nat} {s t : PathTrace α} : child i s = child i t ↔ s = t := by
  constructor
  · intro h
    simpa using congrArg (part i) h
  · intro h
    obtain rfl := h
    rfl

/-- Lists of traces of one length are told apart by what they list. -/
theorem listed_inj : ∀ {n : Nat} {ss ts : List (PathTrace α)}, ss.length = ts.length →
    (listed n ss = listed n ts ↔ ss = ts)
  | _, [], [], _ => by simp
  | n, s :: ss, t :: ts, hlen => by
    constructor
    · intro h
      have hst : s = t := by
        simpa [listed, part_listed_of_lt] using congrArg (part n) h
      subst hst
      rw [listed, listed, List.append_cancel_left_eq] at h
      rw [(listed_inj (by simpa using hlen)).mp h]
    · rintro ⟨⟩
      rfl

theorem listed_eq_nil {n : Nat} {ts : List (PathTrace α)} : listed n ts = [] ↔ ∀ t ∈ ts, t = [] := by
  induction ts generalizing n with
  | nil => simp [listed]
  | cons t ts ih => simp [listed, ih]

section Interleaving

/-- Two lists of traces, in turn; what is left of the longer one comes last. -/
def pairs : Nat → List (PathTrace α) → List (PathTrace α) → PathTrace α
  | n, s :: ss, t :: ts => child 0 (child n s) ++ child 1 (child n t) ++ pairs (n + 1) ss ts
  | n, ss, [] => child 0 (listed n ss)
  | n, [], ts => child 1 (listed n ts)

@[simp] theorem child_append (i : Nat) (s t : PathTrace α) : child i (s ++ t) = child i s ++ child i t :=
  List.map_append

theorem part_zero_pairs : ∀ (n : Nat) (ss ts : List (PathTrace α)), part 0 (pairs n ss ts) = listed n ss
  | n, s :: ss, t :: ts => by simp [pairs, listed, part_zero_pairs (n + 1) ss ts]
  | n, [], [] => by simp [pairs]
  | n, s :: ss, [] => by simp [pairs]
  | n, [], t :: ts => by simp [pairs, listed]

theorem part_one_pairs : ∀ (n : Nat) (ss ts : List (PathTrace α)), part 1 (pairs n ss ts) = listed n ts
  | n, s :: ss, t :: ts => by simp [pairs, listed, part_one_pairs (n + 1) ss ts]
  | n, [], [] => by simp [pairs, listed]
  | n, s :: ss, [] => by simp [pairs, listed]
  | n, [], t :: ts => by simp [pairs]

/-- Taking turns makes no difference where, of each pair, the second has no
steps or nothing of the first list comes after it. -/
def turnsIdle : List (PathTrace α) → List (PathTrace α) → Prop
  | _ :: ss, t :: ts => (t = [] ∨ ∀ s ∈ ss, s = []) ∧ turnsIdle ss ts
  | _, _ => True

theorem child_append_comm {i j : Nat} (hij : i ≠ j) {s t : PathTrace α} {u v : PathTrace α}
    (h : child i s ++ u = child j t ++ v) : s = [] ∨ t = [] := by
  cases s with
  | nil => exact Or.inl rfl
  | cons a s =>
    cases t with
    | nil => exact Or.inr rfl
    | cons b t =>
      have hhead : i :: a.path = j :: b.path := congrArg PathStep.path (List.cons.inj h).1
      exact absurd (List.cons.inj hhead).1 hij

theorem listed_append_eq_pairs : ∀ (n : Nat) (ss ts : List (PathTrace α)),
    child 0 (listed n ss) ++ child 1 (listed n ts) = pairs n ss ts ↔ turnsIdle ss ts
  | n, [], [] => by simp [pairs, listed, turnsIdle]
  | n, s :: ss, [] => by simp [pairs, listed, turnsIdle]
  | n, [], t :: ts => by simp [pairs, listed, turnsIdle]
  | n, s :: ss, t :: ts => by
    have ih := listed_append_eq_pairs (n + 1) ss ts
    have hcancel : child 0 (listed n (s :: ss)) ++ child 1 (listed n (t :: ts)) = pairs n (s :: ss) (t :: ts) ↔
        child 0 (listed (n + 1) ss) ++ (child 1 (child n t) ++ child 1 (listed (n + 1) ts)) =
          child 1 (child n t) ++ pairs (n + 1) ss ts := by
      simp [listed, pairs, List.append_assoc]
    rw [hcancel, turnsIdle]
    by_cases ht : t = []
    · simp [ht, ih]
    by_cases hss : ∀ s ∈ ss, s = []
    · have hnil : listed (n + 1) ss = [] := listed_eq_nil.mpr hss
      rw [← ih, hnil]
      simpa using fun _ => Or.inr hss
    · refine iff_of_false (fun h => ?_) (fun h => h.1.elim ht hss)
      rcases child_append_comm (by decide) h with hs | ht'
      · exact hss (listed_eq_nil.mp hs)
      · exact ht (child_eq_nil.mp ht')

end Interleaving

section Counting

variable [DecidableEq α]

/-- How often `a` happens at the node itself. -/
def ownCount (a : α) (t : PathTrace α) : Nat := t.count ⟨[], a⟩

@[simp] theorem ownCount_nil (a : α) : ownCount a [] = 0 := rfl

@[simp] theorem ownCount_append (a : α) (s t : PathTrace α) :
    ownCount a (s ++ t) = ownCount a s + ownCount a t := List.count_append

@[simp] theorem ownCount_own (a b : α) : ownCount a (own b) = if b = a then 1 else 0 := by
  simp [ownCount, own, List.count_singleton]

@[simp] theorem ownCount_child (a : α) (i : Nat) (t : PathTrace α) : ownCount a (child i t) = 0 := by
  unfold ownCount child
  rw [List.count_eq_zero]
  simp

end Counting

end PathTrace

end Pylang.Lib
