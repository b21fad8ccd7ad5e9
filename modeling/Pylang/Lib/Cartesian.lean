/-
The product of lists: the tuples of positions, one in each list, in lexicographic
order (`tuples`), and the elements that they name (`picks`). Appending the
elements of one list after the other to all that there is gives the same tuples
in the same order (`foldl_product`).
-/
import Mathlib.Data.List.Forall2
import Mathlib.Data.List.Lex

namespace Pylang.Lib

/-- The tuples of numbers, each below the one at its place, in lexicographic order. -/
def tuples : List Nat → List (List Nat)
  | [] => [[]]
  | n :: ns => (List.range n).flatMap fun i => (tuples ns).map (i :: ·)

/-- `ts` has the tuples that are below `ns`, each once, in lexicographic order. -/
structure Product (ns : List Nat) (ts : List (List Nat)) : Prop where
  mem_iff : ∀ t, t ∈ ts ↔ List.Forall₂ (· < ·) t ns
  sorted : ts.Pairwise (List.Lex (· < ·))

theorem mem_tuples : ∀ {ns t : List Nat}, t ∈ tuples ns ↔ List.Forall₂ (· < ·) t ns := by
  intro ns
  induction ns with
  | nil => simp [tuples]
  | cons n ns ih =>
    intro t
    rw [tuples, List.mem_flatMap]
    constructor
    · intro h
      obtain ⟨i, hi, h⟩ := h
      obtain ⟨t, ht, rfl⟩ := List.mem_map.mp h
      exact .cons (List.mem_range.mp hi) (ih.mp ht)
    · intro h
      cases h with
      | cons hi ht => exact ⟨_, List.mem_range.mpr hi, List.mem_map_of_mem (ih.mpr ht)⟩

/-- **The tuples** are those of the product. -/
theorem product_tuples (ns : List Nat) : Product ns (tuples ns) := by
  refine ⟨fun t => mem_tuples, ?_⟩
  induction ns with
  | nil => exact List.pairwise_singleton _ _
  | cons n ns ih =>
    refine List.pairwise_flatMap.mpr ⟨fun i _ => List.pairwise_map.mpr (ih.imp .cons), ?_⟩
    refine List.pairwise_lt_range.imp fun hlt t ht t' ht' => ?_
    obtain ⟨t, -, rfl⟩ := List.mem_map.mp ht
    obtain ⟨t', -, rfl⟩ := List.mem_map.mp ht'
    exact .rel hlt

theorem tuples_eq_nil_iff {ns : List Nat} : tuples ns = [] ↔ 0 ∈ ns := by
  induction ns with
  | nil => simp [tuples]
  | cons n ns ih =>
    rw [tuples, List.flatMap_eq_nil_iff, List.mem_cons, ← ih]
    constructor
    · intro h
      cases n with
      | zero => exact .inl rfl
      | succ n => exact .inr (List.map_eq_nil_iff.mp (h 0 (List.mem_range.mpr (Nat.succ_pos n))))
    · intro h i hi
      rcases h with rfl | h
      · cases hi
      · rw [h, List.map_nil]

section
variable {α : Type}

/-- The elements that the positions name. -/
def picked : List (List α) → List Nat → List α
  | pool :: pools, i :: t => pool[i]?.toList ++ picked pools t
  | _, _ => []

/-- The tuples of elements. -/
def picks (pools : List (List α)) : List (List α) := (tuples (pools.map List.length)).map (picked pools)

theorem length_picked : ∀ {pools : List (List α)} {t : List Nat}, List.Forall₂ (· < ·) t (pools.map List.length) →
    (picked pools t).length = pools.length := by
  intro pools
  induction pools with
  | nil =>
    intro t h
    cases h
    rfl
  | cons pool pools ih =>
    intro t h
    cases h with
    | cons hi ht =>
      rw [picked, List.getElem?_eq_getElem hi, List.length_append, ih ht, Option.toList_some, List.length_singleton,
        List.length_cons, Nat.add_comm]

theorem flatMap_range {β : Type} (f : α → List β) (pool : List α) :
    ((List.range pool.length).flatMap fun i => pool[i]?.toList.flatMap f) = pool.flatMap f := by
  induction pool with
  | nil => rfl
  | cons x pool ih =>
    rw [List.length_cons, List.range_succ_eq_map, List.flatMap_cons, List.flatMap_map, List.flatMap_cons, ← ih]
    simp

theorem picks_cons (pool : List α) (pools : List (List α)) :
    picks (pool :: pools) = pool.flatMap fun y => (picks pools).map (y :: ·) := by
  rw [← flatMap_range, picks, List.map_cons, tuples, List.map_flatMap]
  refine List.flatMap_congr fun i hi => ?_
  rw [List.getElem?_eq_getElem (List.mem_range.mp hi), Option.toList_some, List.flatMap_singleton, picks, List.map_map,
    List.map_map]
  refine List.map_congr_left fun t _ => ?_
  rw [Function.comp_apply, picked, List.getElem?_eq_getElem (List.mem_range.mp hi)]
  rfl

/-- **Building the product** level by level. -/
theorem foldl_product : ∀ (pools : List (List α)) (result : List (List α)),
    pools.foldl (fun result pool => result.flatMap fun x => pool.map fun y => x ++ [y]) result =
      result.flatMap fun x => (picks pools).map (x ++ ·) := by
  intro pools
  induction pools with
  | nil =>
    intro result
    simp [picks, tuples, picked]
  | cons pool pools ih =>
    intro result
    rw [List.foldl_cons, ih, List.flatMap_assoc, picks_cons]
    refine List.flatMap_congr fun x _ => ?_
    rw [List.flatMap_map, List.map_flatMap]
    refine List.flatMap_congr fun y _ => ?_
    rw [List.map_map]
    exact List.map_congr_left fun t _ => by simp

end

end Pylang.Lib
