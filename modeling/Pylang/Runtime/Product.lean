/-
`itertools.product`. The pools are put one after the other `repeat` times and the
whole product is built by the first call that finds none; a `repeat` of 0 gives an
iterator at its end, and one is read modulo `2 ^ 64`.
-/
import Mathlib
import Pylang.Lib.Cartesian

namespace Pylang.Runtime

open Lib (tuples picked picks mem_tuples product_tuples tuples_eq_nil_iff length_picked foldl_product)

structure Product (V : Type) where
  pools : List (List V)
  repeats : Nat
  result : List (List V) := []
  iterationCount : Nat := 0
deriving DecidableEq

inductive ProductReply (V : Type) where
  | item (tuple : List V)
  | stopIteration
deriving DecidableEq

namespace Product

variable {V : Type}

/-- The loop of `create` that inserts the first `poolSize` pools at the end. -/
def appendPools (poolSize : Nat) : Nat → List (List V) → List (List V)
  | 0, els => els
  | left + 1, els => appendPools poolSize left (els ++ els.take poolSize)

/-- `Product::create`, for the elements of the iterables. -/
def create (pools : List (List V)) (repeats : Option Nat) : Product V :=
  if repeats = some 0 then { pools := [], repeats := 0 }
  else { pools := appendPools pools.length (repeats.getD 1 - 1) pools, repeats := repeats.getD 1 }

/-- `__new__`, with the dictionary of the keywords, if there is one, and its `repeat`; the error is a `TypeError`. -/
def new (pools : List (List V)) (kwargs : Option (Option Int)) : Except String (Product V) :=
  match kwargs with
  | none => .ok (create pools none)
  -- without the key, `get` answers `None`
  | some none => .error "'NoneType' object cannot be interpreted as an integer"
  -- `l.get_ui()` gives the last 64 bits
  | some (some l) => .ok (create pools (some (if l < 0 then 0 else (l % 2 ^ 64).toNat)))

/-- The product of the pools, level by level. -/
def build (pools : List (List V)) : List (List V) :=
  pools.foldl (fun result pool => result.flatMap fun x => pool.map fun y => x ++ [y]) [[]]

/-- `__next__`. -/
def next (p : Product V) : ProductReply V × Product V :=
  if p.repeats = 0 then (.stopIteration, p)
  else
    let result := if p.result = [] then build p.pools else p.result
    match result[p.iterationCount]? with
    | some tuple => (.item tuple, { p with result, iterationCount := p.iterationCount + 1 })
    | none => (.stopIteration, { p with result })

/-- After `k` calls. -/
def after (p : Product V) : Nat → Product V
  | 0 => p
  | k + 1 => (p.next.2).after k

/-- The reply to the call after `k` others. -/
def reply (p : Product V) (k : Nat) : ProductReply V := (p.after k).next.1

/-- The pools, one after the other; once without a `repeat`. -/
def repeated (pools : List (List V)) (repeats : Option Nat) : List (List V) :=
  (List.replicate (repeats.getD 1) pools).flatten

/-- The keywords of a call: none at all, or `repeat`. -/
def keywords (repeats : Option Nat) : Option (Option Int) := repeats.map fun n : Nat => some (n : Int)

/-- The tuples of the product of the pools, repeated, one after the other, and then `StopIteration` for ever. -/
def YieldsRight (pools : List (List V)) (repeats : Option Nat) : Prop :=
  ∃ p, new pools (keywords repeats) = .ok p ∧ ∃ ts, Lib.Product ((repeated pools repeats).map List.length) ts ∧
    ∀ k, p.reply k = match ts[k]? with
      | some t => .item (picked (repeated pools repeats) t)
      | none => .stopIteration

/-- No tuple, and `StopIteration` for ever. -/
def YieldsNothing (pools : List (List V)) (repeats : Option Nat) : Prop :=
  ∃ p, new pools (keywords repeats) = .ok p ∧ ∀ k, p.reply k = .stopIteration

/-! ## A run -/

theorem build_eq (pools : List (List V)) : build pools = picks pools := by
  rw [build, foldl_product, List.flatMap_singleton]
  simp

theorem appendPools_eq (pools : List (List V)) : ∀ (left n : Nat), 0 < n →
    appendPools pools.length left (List.replicate n pools).flatten = (List.replicate (n + left) pools).flatten := by
  intro left
  induction left with
  | zero => exact fun n _ => rfl
  | succ left ih =>
    intro n hn
    have htake : (List.replicate n pools).flatten.take pools.length = pools := by
      obtain ⟨m, rfl⟩ := Nat.exists_eq_add_of_lt hn
      rw [Nat.zero_add, List.replicate_succ, List.flatten_cons, List.take_left]
    have hnext : (List.replicate n pools).flatten ++ pools = (List.replicate (n + 1) pools).flatten := by
      rw [List.replicate_succ', List.flatten_append, List.flatten_singleton]
    rw [appendPools, htake, hnext, ih (n + 1) (by omega), show n + 1 + left = n + (left + 1) by omega]

theorem create_eq (pools : List (List V)) {n : Nat} (hn : n ≠ 0) :
    create pools (some n) = { pools := (List.replicate n pools).flatten, repeats := n } := by
  have hone := appendPools_eq pools (n - 1) 1 (by omega)
  rw [List.replicate_one, List.flatten_singleton, show 1 + (n - 1) = n by omega] at hone
  rw [create, if_neg (by simpa using hn)]
  simp only [Option.getD_some, hone]

/-- The state between the calls: the product is built, or to be built, and the count is at the next tuple. -/
structure At (pools : List (List V)) (k : Nat) (p : Product V) : Prop where
  kept : p.pools = pools
  repeats : p.repeats ≠ 0
  result : p.result = [] ∨ p.result = build pools
  count : p.iterationCount = min k (build pools).length

theorem At.next {pools : List (List V)} {k : Nat} {p : Product V} (h : At pools k p) :
    (p.next.1 = match (build pools)[k]? with
      | some tuple => .item tuple
      | none => .stopIteration) ∧ At pools (k + 1) p.next.2 := by
  have hresult : (if p.result = [] then build p.pools else p.result) = build pools := by
    rw [h.kept]
    rcases h.result with hnil | hbuilt
    · rw [if_pos hnil]
    · rw [hbuilt]
      split
      next => rfl
      next => rfl
  unfold Product.next
  rw [if_neg h.repeats]
  simp only [hresult, h.count]
  by_cases hk : k < (build pools).length
  · rw [Nat.min_eq_left (Nat.le_of_lt hk), List.getElem?_eq_getElem hk]
    exact ⟨rfl, { kept := h.kept, repeats := h.repeats, result := .inr rfl, count := by dsimp only; omega }⟩
  · rw [Nat.min_eq_right (by omega), List.getElem?_eq_none (Nat.le_refl _), List.getElem?_eq_none (by omega)]
    exact ⟨rfl, { kept := h.kept, repeats := h.repeats, result := .inr rfl, count := by dsimp only; omega }⟩

theorem At.after {pools : List (List V)} : ∀ {n k : Nat} {p : Product V}, At pools k p → At pools (k + n) (p.after n) := by
  intro n
  induction n with
  | zero => exact fun h => h
  | succ n ih =>
    intro k p h
    have hnext := ih h.next.2
    rw [Nat.add_right_comm] at hnext
    exact hnext

theorem At.reply {pools : List (List V)} {p : Product V} (h : At pools 0 p) (k : Nat) :
    p.reply k = match (build pools)[k]? with
      | some tuple => .item tuple
      | none => .stopIteration := by
  have hafter := h.after (n := k)
  rw [Nat.zero_add] at hafter
  exact hafter.next.1

theorem reply_of_ne_zero (pools : List (List V)) {n : Nat} (hn : n ≠ 0) (k : Nat) :
    (create pools (some n)).reply k = match (tuples ((List.replicate n pools).flatten.map List.length))[k]? with
      | some t => .item (picked (List.replicate n pools).flatten t)
      | none => .stopIteration := by
  have hat : At (List.replicate n pools).flatten 0 (create pools (some n)) := by
    rw [create_eq pools hn]
    exact { kept := rfl, repeats := hn, result := .inl rfl, count := (Nat.zero_min _).symm }
  rw [hat.reply, build_eq, picks, List.getElem?_map]
  cases (tuples ((List.replicate n pools).flatten.map List.length))[k]? with
  | some t => rfl
  | none => rfl

theorem after_zero (pools : List (List V)) : ∀ k, (create pools (some 0)).after k = create pools (some 0) := by
  intro k
  induction k with
  | zero => rfl
  | succ k ih => exact ih

theorem reply_zero (pools : List (List V)) (k : Nat) : (create pools (some 0)).reply k = .stopIteration := by
  rw [reply, after_zero]
  rfl

/-! ## Against the product -/

theorem new_eq (pools : List (List V)) (repeats : Option Nat) :
    new pools (keywords repeats) = .ok (create pools (some (repeats.getD 1 % 2 ^ 64))) := by
  cases repeats with
  | none => rfl
  | some n =>
    have hread : (if (n : Int) < 0 then 0 else ((n : Int) % 2 ^ 64).toNat) = n % 2 ^ 64 := by
      rw [if_neg (by omega)]
      omega
    rw [Option.getD_some, ← hread]
    rfl

/-- What the calls reply is that of the pools and of what is read of the repeat. -/
theorem yields_iff (pools : List (List V)) (repeats : Option Nat) :
    YieldsRight pools repeats ↔ ∃ ts, Lib.Product ((repeated pools repeats).map List.length) ts ∧
      ∀ k, (create pools (some (repeats.getD 1 % 2 ^ 64))).reply k = match ts[k]? with
        | some t => .item (picked (repeated pools repeats) t)
        | none => .stopIteration := by
  rw [YieldsRight, new_eq]
  simp only [Except.ok.injEq, exists_eq_left']

/-- The repeats that make the product by what is read of them. -/
def Repeats (pools : List (List V)) (n : Nat) : Prop :=
  n ≠ 0 ∧ ([] ∈ pools ∨ n < 2 ^ 64 ∨ pools = [] ∧ n % 2 ^ 64 ≠ 0)

theorem zero_mem_lengths {pools : List (List V)} {n : Nat} :
    0 ∈ (List.replicate n pools).flatten.map List.length ↔ n ≠ 0 ∧ [] ∈ pools := by
  simp [List.mem_replicate, List.length_eq_zero_iff]

theorem reply_of_empty {pools : List (List V)} (h : [] ∈ pools) (n k : Nat) :
    (create pools (some n)).reply k = .stopIteration := by
  by_cases hn : n = 0
  · rw [hn, reply_zero]
  · rw [reply_of_ne_zero pools hn, tuples_eq_nil_iff.mpr (zero_mem_lengths.mpr ⟨hn, h⟩)]
    rfl

theorem first_length {pools : List (List V)} {n : Nat} {ts : List (List Nat)}
    (h : Lib.Product ((List.replicate n pools).flatten.map List.length) ts) (hne : ¬ (n ≠ 0 ∧ [] ∈ pools)) :
    ∃ t, ts[0]? = some t ∧ (picked (List.replicate n pools).flatten t).length = n * pools.length := by
  have hsome : tuples ((List.replicate n pools).flatten.map List.length) ≠ [] :=
    tuples_eq_nil_iff.not.mpr (zero_mem_lengths.not.mpr hne)
  obtain ⟨t', ht'⟩ := List.exists_mem_of_ne_nil _ hsome
  have hmem := (h.mem_iff t').mpr (mem_tuples.mp ht')
  obtain ⟨t, rest, rfl⟩ := List.exists_cons_of_ne_nil (List.ne_nil_of_mem hmem)
  refine ⟨t, rfl, ?_⟩
  rw [length_picked ((h.mem_iff t).mp List.mem_cons_self)]
  simp

theorem not_yields_zero {pools : List (List V)} {repeats : Option Nat} (hzero : repeats.getD 1 = 0) :
    ¬ YieldsRight pools repeats := by
  intro h
  obtain ⟨ts, hts, hreply⟩ := (yields_iff pools repeats).mp h
  obtain ⟨t, ht, -⟩ := first_length hts fun h => h.1 hzero
  have hfirst := hreply 0
  rw [hzero, Nat.zero_mod, reply_zero, ht] at hfirst
  cases hfirst

theorem yieldsNothing_zero (pools : List (List V)) : YieldsNothing pools (some 0) :=
  ⟨create pools (some 0), new_eq pools (some 0), reply_zero pools⟩

/-- **`product` yields right** where the repeat is not 0 and is read as it is, or makes no difference, and nothing where
the repeat is 0. -/
theorem productRight_iff (pools : List (List V)) (repeats : Option Nat) :
    (YieldsRight pools repeats ↔ Repeats pools (repeats.getD 1)) ∧ YieldsNothing pools (some 0) := by
  refine ⟨?_, yieldsNothing_zero pools⟩
  constructor
  · intro h
    have hzero : repeats.getD 1 ≠ 0 := fun hzero => not_yields_zero hzero h
    refine ⟨hzero, ?_⟩
    by_contra hnot
    obtain ⟨hempty, hnot⟩ := not_or.mp hnot
    obtain ⟨hlarge, hnil⟩ := not_or.mp hnot
    obtain ⟨ts, hts, hreply⟩ := (yields_iff pools repeats).mp h
    obtain ⟨t, ht, hlength⟩ := first_length hts fun h => hempty h.2
    have hfirst := hreply 0
    rw [ht] at hfirst
    by_cases hread : repeats.getD 1 % 2 ^ 64 = 0
    · rw [hread, reply_zero] at hfirst
      cases hfirst
    · obtain ⟨t', ht', hlength'⟩ :=
        first_length (product_tuples _) fun h : repeats.getD 1 % 2 ^ 64 ≠ 0 ∧ [] ∈ pools => hempty h.2
      rw [reply_of_ne_zero pools hread, ht'] at hfirst
      have heq := congrArg List.length (ProductReply.item.inj hfirst)
      rw [repeated, hlength, hlength'] at heq
      have hpos : 0 < pools.length := List.length_pos_iff.mpr fun h => hnil ⟨h, hread⟩
      have hsame := Nat.eq_of_mul_eq_mul_right hpos heq
      omega
  · intro h
    obtain ⟨hzero, h⟩ := h
    refine (yields_iff pools repeats).mpr
      ⟨tuples ((repeated pools repeats).map List.length), product_tuples _, fun k => ?_⟩
    rw [repeated]
    by_cases hempty : [] ∈ pools
    · rw [reply_of_empty hempty, tuples_eq_nil_iff.mpr (zero_mem_lengths.mpr ⟨hzero, hempty⟩)]
      rfl
    · rcases h.resolve_left hempty with hsmall | ⟨rfl, hread⟩
      · rw [Nat.mod_eq_of_lt hsmall, reply_of_ne_zero pools hzero]
      · rw [reply_of_ne_zero [] hread]
        simp

/-- `next(itertools.product(repeat=0))`. -/
theorem repeatZero_empty : YieldsNothing ([] : List (List Nat)) (some 0) ∧ ¬ YieldsRight ([] : List (List Nat)) (some 0) :=
  ⟨yieldsNothing_zero [], not_yields_zero rfl⟩

end Product

end Pylang.Runtime
