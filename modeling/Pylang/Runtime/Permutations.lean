/-
`itertools.permutations`, against the arrangements of the positions of the pool
in lexicographic order.

The two arrays are a number of mixed radix: `m_indices` are the positions that
the digits name, then the others in order, and `m_cycles` counts what is left of
each digit. For no elements the index into `m_cycles` starts before the array.
-/
import Pylang.Lib.Arrangements
import Pylang.Lib.ListFacts
import Pylang.Runtime.ListSort

namespace Pylang.Runtime

open Lib (Digits increment allDigits chosen remaining Arrangements Drains counter)

/-- The difference of two `size_t`. -/
def sizeSub (a b : Nat) : Nat := if b ≤ a then a - b else a + 2 ^ 64 - b

structure Permutations (V : Type) where
  pool : List V
  length : Nat
  iteratorLength : Nat
  innerIteration : Nat
  indices : List Nat
  cycles : List Nat
  done : Bool
  first : Bool := true
deriving DecidableEq

/-- What `__next__` returns; `undefined` after an access out of bounds. -/
inductive PermutationsReply (V : Type) where
  | item (tuple : List V)
  | stopIteration
  | undefined
deriving DecidableEq

/-- How the loop over the cycles ends: at a cycle that is not over, or past the first. -/
inductive Turn where
  | found (innerIteration : Nat) (indices cycles : List Nat) (cycle : Nat)
  | done (indices cycles : List Nat)
  | undefined
deriving DecidableEq

/-- `m_cycles[i] -= 1`. -/
def decrement (cycles : List Nat) (i : Nat) : Option (List Nat) :=
  match cycles[i]? with
  | some cycle => some (cycles.set i (sizeSub cycle 1))
  | none => none

/-- `std::rotate` by one of the part from `i` on. -/
def rotateFrom (indices : List Nat) (i : Nat) : Option (List Nat) :=
  match indices[i]? with
  | some index => some (indices.take i ++ indices.drop (i + 1) ++ [index])
  | none => none

/-- The loop while the cycle is over. -/
def turn (n : Nat) : Nat → List Nat → List Nat → Turn
  | i, indices, cycles =>
    match cycles[i]? with
    | none => .undefined
    | some (cycle + 1) => .found i indices cycles (cycle + 1)
    | some 0 =>
      match rotateFrom indices i with
      | none => .undefined
      | some indices =>
        match i with
        | 0 => .done indices (cycles.set 0 (sizeSub n 0))
        | i + 1 =>
          match decrement (cycles.set (i + 1) (sizeSub n (i + 1))) i with
          | none => .undefined
          | some cycles => turn n i indices cycles

namespace Permutations

variable {V : Type}

def create (pool : List V) (length : Option Nat) : Permutations V :=
  let length := length.getD pool.length
  { pool, length
    iteratorLength := pool.length
    innerIteration := sizeSub length 1
    indices := List.range pool.length
    cycles := if length ≤ pool.length then (List.range length).map (pool.length - ·) else []
    done := decide (pool.length < length) }

/-- `__new__`, for the elements of the iterable; `none` where `as_size_t` aborts. -/
def new (pool : List V) : Option Int → Option (Permutations V)
  | none => some (create pool none)
  | some length => if 0 ≤ length ∧ length < 2 ^ 64 then some (create pool (some length.toNat)) else none

/-- `__next__`. -/
def next (p : Permutations V) : PermutationsReply V × Permutations V :=
  if p.done then (.stopIteration, p)
  else if p.first then
    match (List.range p.length).mapM (p.pool[·]?) with
    | some result => (.item result, { p with first := false })
    | none => (.undefined, p)
  else
    match decrement p.cycles p.innerIteration with
    | none => (.undefined, p)
    | some cycles =>
      match turn p.iteratorLength p.innerIteration p.indices cycles with
      | .undefined => (.undefined, p)
      | .done indices cycles => (.stopIteration, { p with indices, cycles, innerIteration := 0, done := true })
      | .found i indices cycles cycle =>
        match iterSwap indices (sizeSub indices.length cycle) i with
        | none => (.undefined, p)
        | some indices =>
          match (List.range p.length).mapM fun i => (indices[i]?).bind (p.pool[·]?) with
          | none => (.undefined, p)
          | some result => (.item result, { p with indices, cycles, innerIteration := sizeSub p.length 1 })

/-- After `k` calls. -/
def after (p : Permutations V) : Nat → Permutations V
  | 0 => p
  | k + 1 => (p.next.2).after k

/-- The reply to the call after `k` others. -/
def reply (p : Permutations V) (k : Nat) : PermutationsReply V := (p.after k).next.1

/-- The tuples of the arrangements of `r` positions, one after the other, and then `StopIteration` for ever. -/
def YieldsRight (pool : List V) (r : Nat) : Prop :=
  ∃ p arrangements, new pool (some r) = some p ∧ Arrangements (· < ·) (List.finRange pool.length) r arrangements ∧
    ∀ k, p.reply k = match arrangements[k]? with
      | some positions => .item (positions.map pool.get)
      | none => .stopIteration

end Permutations

/-! ## The arrays of a number -/

/-- `m_indices`. -/
def arranged {α : Type} (ts : List Nat) (l : List α) : List α := chosen ts l ++ remaining ts l

/-- `m_cycles`. -/
def cycleCounts : Nat → List Nat → List Nat
  | _, [] => []
  | n, t :: ts => (n - t) :: cycleCounts (n - 1) ts

@[simp] theorem length_cycleCounts (n : Nat) : ∀ ts : List Nat, (cycleCounts n ts).length = ts.length := by
  intro ts
  induction ts generalizing n with
  | nil => rfl
  | cons t ts ih => rw [cycleCounts, List.length_cons, ih, List.length_cons]

theorem cycleCounts_append {n : Nat} : ∀ as ts : List Nat,
    cycleCounts n (as ++ ts) = cycleCounts n as ++ cycleCounts (n - as.length) ts := by
  intro as ts
  induction as generalizing n with
  | nil => rfl
  | cons a as ih =>
    rw [List.cons_append, cycleCounts, ih, cycleCounts, List.cons_append, List.length_cons,
      show n - 1 - as.length = n - (as.length + 1) by omega]

theorem cycleCounts_zeros {n : Nat} : ∀ m, cycleCounts n (List.replicate m 0) = (List.range m).map (n - ·) := by
  intro m
  induction m generalizing n with
  | zero => rfl
  | succ m ih =>
    rw [List.replicate_succ, cycleCounts, ih, List.range_succ_eq_map, List.map_cons, List.map_map]
    refine congrArg _ (List.map_congr_left fun i _ => ?_)
    show n - 1 - i = n - (i + 1)
    omega

section

variable {α : Type} {l : List α} {as : List Nat} {t m : Nat}

theorem getElem?_middle {init tail : List α} {x : α} {k : Nat} (h : init.length = k) : (init ++ x :: tail)[k]? = some x := by
  subst h
  rw [List.getElem?_append_right (Nat.le_refl _), Nat.sub_self, List.getElem?_cons_zero]

theorem set_middle {init tail : List α} {x y : α} {k : Nat} (h : init.length = k) :
    (init ++ x :: tail).set k y = init ++ y :: tail := by
  subst h
  rw [List.set_append_right _ _ (Nat.le_refl _), Nat.sub_self, List.set_cons_zero]

theorem arranged_zeros (m : Nat) (l : List α) : arranged (List.replicate m 0) l = l := by
  rw [arranged, Lib.chosen_zeros, Lib.remaining_zeros, List.take_append_drop]

theorem arranged_last (ht : t < (remaining as l).length) : arranged (as ++ t :: List.replicate m 0) l =
    chosen as l ++ (remaining as l)[t] :: (remaining as l).eraseIdx t := by
  rw [arranged, Lib.chosen_append, Lib.remaining_append, chosen, remaining, List.getElem?_eq_getElem ht,
    List.append_assoc, Option.toList_some, List.append_assoc]
  exact congrArg (fun tail => chosen as l ++ (remaining as l)[t] :: tail) (arranged_zeros m _)

theorem length_arranged {ts : List Nat} (h : Digits l.length ts) : (arranged ts l).length = l.length := by
  have hle := h.length_le
  rw [arranged, List.length_append, Lib.length_chosen h, Lib.length_remaining h]
  omega

theorem rotateFrom_arranged {l : List Nat} (hdigits : Digits l.length as) (ht : t + 1 = (remaining as l).length) :
    rotateFrom (arranged (as ++ t :: List.replicate m 0) l) as.length = some (arranged as l) := by
  have hlt : t < (remaining as l).length := by omega
  have hlength : (chosen as l).length = as.length := Lib.length_chosen hdigits
  unfold rotateFrom
  rw [arranged_last hlt, ← hlength, getElem?_middle rfl]
  refine congrArg some ?_
  rw [List.take_left' rfl, List.drop_append, List.drop_eq_nil_of_le (Nat.le_succ _), Nat.add_sub_cancel_left]
  have hrest : (remaining as l).eraseIdx t ++ [(remaining as l)[t]] = remaining as l := by
    rw [List.eraseIdx_eq_take_drop_succ, List.drop_eq_nil_of_le (by omega), List.append_nil, List.take_append_getElem,
      List.take_of_length_le (by omega)]
  rw [arranged, List.nil_append, List.drop_succ_cons, List.drop_zero, List.append_assoc, hrest]

theorem set_eraseIdx {l : List α} (ht : t + 1 < l.length) : (l.eraseIdx t).set t l[t] = l.eraseIdx (t + 1) := by
  refine List.ext_getElem? fun k => ?_
  rw [List.getElem?_set, List.length_eraseIdx, if_pos (show t < l.length by omega), List.getElem?_eraseIdx,
    List.getElem?_eraseIdx]
  rcases Nat.lt_trichotomy k t with hk | rfl | hk
  · rw [if_neg (by omega), if_pos hk, if_pos (by omega)]
  · rw [if_pos rfl, if_pos (by omega), if_pos (by omega), List.getElem?_eq_getElem]
  · rw [if_neg (by omega), if_neg (by omega), if_neg (by omega)]

theorem iterSwap_arranged (hdigits : Digits l.length as) (ht : t + 1 < (remaining as l).length) :
    iterSwap (arranged (as ++ t :: List.replicate m 0) l) (as.length + t + 1) as.length =
      some (arranged (as ++ (t + 1) :: List.replicate m 0) l) := by
  have hlt : t < (remaining as l).length := by omega
  have hlength : (chosen as l).length = as.length := Lib.length_chosen hdigits
  rw [arranged_last hlt, arranged_last ht, ← hlength]
  have hother : (chosen as l ++ (remaining as l)[t] :: (remaining as l).eraseIdx t)[(chosen as l).length + t + 1]? =
      some (remaining as l)[t + 1] := by
    rw [List.getElem?_append_right (by omega), show (chosen as l).length + t + 1 - (chosen as l).length = t + 1 by omega,
      List.getElem?_cons_succ, List.getElem?_eraseIdx, if_neg (lt_irrefl t), List.getElem?_eq_getElem ht]
  rw [iterSwap, hother, getElem?_middle rfl]
  refine congrArg some ?_
  rw [List.set_append_right _ _ (by omega), show (chosen as l).length + t + 1 - (chosen as l).length = t + 1 by omega,
    List.set_cons_succ, set_middle rfl, set_eraseIdx ht]

end

/-! ## The loop finds the number that follows -/

/-- With a swap, the arrays of this number; without one, the loop is past the first cycle. -/
def Turn.Follows (n : Nat) : Turn → Option (List Nat) → Prop
  | .found i indices cycles cycle, some ts => cycles = cycleCounts n ts ∧
      iterSwap indices (sizeSub indices.length cycle) i = some (arranged ts (List.range n))
  | .done _ _, none => True
  | _, _ => False

section

variable {n t m : Nat} {as zs : List Nat}

theorem length_remaining_range (h : Digits n as) : (remaining as (List.range n)).length = n - as.length := by
  rw [Lib.length_remaining (by rwa [List.length_range]), List.length_range]

/-- The cycles at the digit `t` behind `as`, which is counted down, with zeros behind it. -/
def cyclesAt (n : Nat) (as : List Nat) (t m : Nat) : List Nat :=
  cycleCounts n as ++ (n - as.length - (t + 1)) :: cycleCounts (n - as.length - 1) (List.replicate m 0)

theorem getElem?_cyclesAt (n : Nat) (as : List Nat) (t m : Nat) :
    (cyclesAt n as t m)[as.length]? = some (n - as.length - (t + 1)) := getElem?_middle (length_cycleCounts n as)

theorem cyclesAt_eq : cyclesAt n as t m = cycleCounts n (as ++ (t + 1) :: List.replicate m 0) := by
  rw [cycleCounts_append, cycleCounts, cyclesAt]

theorem turn_found (hdigits : Digits n (as ++ t :: List.replicate m 0)) (hlength : zs.length = m)
    (hnone : increment (n - as.length - 1) zs = none) (hlt : t + 1 < n - as.length) :
    (turn n as.length (arranged (as ++ t :: List.replicate m 0) (List.range n)) (cyclesAt n as t m)).Follows n
      (increment n (as ++ t :: zs)) := by
  obtain ⟨has, -⟩ := Lib.digits_append.mp hdigits
  have hnext : increment n (as ++ t :: zs) = some (as ++ (t + 1) :: List.replicate m 0) := by
    refine Lib.increment_append ?_
    rw [increment, hnone, if_pos hlt, hlength]
  obtain ⟨cycle, hcycle⟩ : ∃ cycle, n - as.length - (t + 1) = cycle + 1 := ⟨n - as.length - (t + 1) - 1, by omega⟩
  have hturn : turn n as.length (arranged (as ++ t :: List.replicate m 0) (List.range n)) (cyclesAt n as t m) =
      .found as.length (arranged (as ++ t :: List.replicate m 0) (List.range n)) (cyclesAt n as t m) (cycle + 1) := by
    rw [turn.eq_def]
    simp only [getElem?_cyclesAt, hcycle]
  rw [hturn, hnext]
  refine ⟨cyclesAt_eq, ?_⟩
  have hsize : sizeSub (arranged (as ++ t :: List.replicate m 0) (List.range n)).length (cycle + 1) =
      as.length + t + 1 := by
    rw [length_arranged (by rwa [List.length_range]), List.length_range, sizeSub, if_pos (by omega)]
    omega
  rw [hsize]
  exact iterSwap_arranged (by rwa [List.length_range]) (by rwa [length_remaining_range has])

/-- Behind the digit that is over, the loop goes on with the digit before. -/
theorem turn_over {a : Nat} (hdigits : Digits n ((as ++ [a]) ++ t :: List.replicate m 0))
    (heq : t + 1 = n - (as ++ [a]).length) :
    turn n (as ++ [a]).length (arranged ((as ++ [a]) ++ t :: List.replicate m 0) (List.range n))
        (cyclesAt n (as ++ [a]) t m) =
      turn n as.length (arranged (as ++ a :: List.replicate (m + 1) 0) (List.range n)) (cyclesAt n as a (m + 1)) := by
  obtain ⟨has, -⟩ := Lib.digits_append.mp hdigits
  obtain ⟨-, hlast⟩ := Lib.digits_append.mp has
  have ha : a < n - as.length := hlast.1
  have hzero : n - (as ++ [a]).length - (t + 1) = 0 := by omega
  have hrotate : rotateFrom (arranged ((as ++ [a]) ++ t :: List.replicate m 0) (List.range n)) (as.length + 1) =
      some (arranged (as ++ a :: List.replicate (m + 1) 0) (List.range n)) := by
    have hlt : a < (remaining as (List.range n)).length := by
      rwa [length_remaining_range (Lib.digits_append.mp has).1]
    have h := rotateFrom_arranged (l := List.range n) (m := m) (by rwa [List.length_range])
      (by rw [length_remaining_range has, heq] : t + 1 = (remaining (as ++ [a]) (List.range n)).length)
    rw [List.length_append, List.length_singleton] at h
    rw [h, arranged_last hlt, ← arranged_last (m := 0) hlt]
    rfl
  have hcycles : decrement ((cyclesAt n (as ++ [a]) t m).set (as.length + 1) (sizeSub n (as.length + 1))) as.length =
      some (cyclesAt n as a (m + 1)) := by
    have hset : (cyclesAt n (as ++ [a]) t m).set (as.length + 1) (sizeSub n (as.length + 1)) =
        cycleCounts n as ++ (n - as.length - a) :: cycleCounts (n - as.length - 1) (List.replicate (m + 1) 0) := by
      rw [cyclesAt, set_middle (by simp), cycleCounts_append, List.append_assoc, sizeSub, if_pos (by omega)]
      simp only [cycleCounts, List.replicate_succ, List.cons_append, List.nil_append, List.length_append,
        List.length_singleton, Nat.sub_zero, Nat.sub_sub]
    rw [hset, decrement, getElem?_middle (length_cycleCounts n as)]
    simp only [set_middle (length_cycleCounts n as)]
    rw [sizeSub, if_pos (by omega), cyclesAt, show n - as.length - a - 1 = n - as.length - (a + 1) by omega]
  rw [List.length_append, List.length_singleton, turn.eq_def]
  have hat : (cyclesAt n (as ++ [a]) t m)[as.length + 1]? = some 0 := by
    have h := getElem?_cyclesAt n (as ++ [a]) t m
    rwa [hzero, List.length_append, List.length_singleton] at h
  simp only [hat, hrotate, hcycles]

/-- **The loop follows the count**, by the digits in front of the one it looks at. -/
theorem turn_follows (hdigits : Digits n (as ++ t :: List.replicate m 0)) (hlength : zs.length = m)
    (hnone : increment (n - as.length - 1) zs = none) :
    (turn n as.length (arranged (as ++ t :: List.replicate m 0) (List.range n)) (cyclesAt n as t m)).Follows n
      (increment n (as ++ t :: zs)) := by
  induction as using List.reverseRecOn generalizing t m zs with
  | nil =>
    by_cases hlt : t + 1 < n
    · exact turn_found hdigits hlength hnone hlt
    · have ht : t < n := hdigits.1
      have hnext : increment n (t :: zs) = none := by
        rw [increment, show n - 1 = n - ([] : List Nat).length - 1 from rfl, hnone, if_neg hlt]
      have hat : (cyclesAt n [] t m)[0]? = some 0 := by
        rw [show (0 : Nat) = ([] : List Nat).length from rfl, getElem?_cyclesAt]
        simp; omega
      have hrotate : rotateFrom (arranged (t :: List.replicate m 0) (List.range n)) 0 = some (arranged [] (List.range n)) :=
        rotateFrom_arranged (show Digits (List.range n).length [] from trivial)
          (show t + 1 = (List.range n).length by rw [List.length_range]; omega)
      simp only [List.nil_append, List.length_nil]
      rw [hnext, turn.eq_def]
      simp only [hat, hrotate, Turn.Follows]
  | append_singleton as a ih =>
    by_cases hlt : t + 1 < n - (as ++ [a]).length
    · exact turn_found hdigits hlength hnone hlt
    · obtain ⟨has, ht, -⟩ := Lib.digits_append.mp hdigits
      obtain ⟨hinit, ha, -⟩ := Lib.digits_append.mp has
      have hmore : increment n (as ++ [a] ++ t :: zs) = increment n (as ++ a :: (t :: zs)) := by
        rw [List.append_assoc]
        rfl
      rw [turn_over hdigits (by omega), hmore]
      refine ih (Lib.digits_append.mpr ⟨hinit, ha, Lib.digits_zeros ?_⟩) (by rw [List.length_cons, hlength]) ?_
      · have hle := hdigits.length_le
        simp at hle
        omega
      · rw [increment, show n - as.length - 1 - 1 = n - (as ++ [a]).length - 1 by simp; omega, hnone, if_neg]
        simp at hlt ⊢
        omega

end

/-! ## The calls -/

namespace Permutations

variable {V : Type} {pool : List V} {r : Nat} {ts : List Nat} {p : Permutations V}

/-- The iterator after the tuple of a number. -/
def counted (pool : List V) (r : Nat) (ts : List Nat) : Permutations V where
  pool := pool
  length := r
  iteratorLength := pool.length
  innerIteration := sizeSub r 1
  indices := arranged ts (List.range pool.length)
  cycles := cycleCounts pool.length ts
  done := false
  first := false

def tuple (pool : List V) (ts : List Nat) : List V := (chosen ts (List.finRange pool.length)).map pool.get

theorem length_tuple (hdigits : Digits pool.length ts) : (tuple pool ts).length = ts.length := by
  rw [tuple, List.length_map, Lib.length_chosen (by rwa [List.length_finRange])]

theorem tuple_zeros (m : Nat) : tuple pool (List.replicate m 0) = pool.take m := by
  rw [tuple, Lib.chosen_zeros, List.map_take, List.map_get_finRange]

theorem mapM_indices (hdigits : Digits pool.length ts) :
    (List.range ts.length).mapM (fun i => ((arranged ts (List.range pool.length))[i]?).bind (pool[·]?)) =
      some (tuple pool ts) := by
  rw [← length_tuple hdigits]
  refine Lib.mapM_range fun i hi => ?_
  have hchosen : chosen ts (List.range pool.length) = (chosen ts (List.finRange pool.length)).map Fin.val := by
    rw [← Lib.chosen_map, List.map_coe_finRange_eq_range]
  have hlt : i < (chosen ts (List.range pool.length)).length := by
    rw [hchosen, List.length_map]
    simpa [tuple] using hi
  rw [arranged, List.getElem?_append_left hlt, hchosen, List.getElem?_map, tuple, List.getElem?_map]
  cases (chosen ts (List.finRange pool.length))[i]? with
  | none => rfl
  | some position => exact List.getElem?_eq_getElem position.isLt

/-- A call moves on to the number that follows. -/
theorem next_counted (hr : r ≠ 0) (hdigits : Digits pool.length ts) (hlength : ts.length = r) :
    match increment pool.length ts with
    | some ts' => (counted pool r ts).next = (.item (tuple pool ts'), counted pool r ts')
    | none => (counted pool r ts).next.1 = .stopIteration ∧ (counted pool r ts).next.2.done = true := by
  obtain ⟨as, t, rfl⟩ : ∃ as t, ts = as ++ [t] :=
    ⟨ts.dropLast, ts.getLast (by rintro rfl; exact hr hlength.symm), (List.dropLast_append_getLast _).symm⟩
  have hinner : sizeSub r 1 = as.length := by
    rw [sizeSub, if_pos (Nat.one_le_iff_ne_zero.mpr hr), ← hlength]
    simp
  have hdecrement : decrement (cycleCounts pool.length (as ++ [t])) as.length = some (cyclesAt pool.length as t 0) := by
    obtain ⟨-, ht, -⟩ := Lib.digits_append.mp hdigits
    rw [cycleCounts_append, cycleCounts, decrement, getElem?_middle (length_cycleCounts _ as)]
    simp only [set_middle (length_cycleCounts _ as)]
    rw [sizeSub, if_pos (by omega), Nat.sub_sub]
    rfl
  have hturn : (turn pool.length as.length (arranged (as ++ [t]) (List.range pool.length))
      (cyclesAt pool.length as t 0)).Follows pool.length (increment pool.length (as ++ [t])) :=
    turn_follows (m := 0) hdigits List.length_nil rfl
  unfold next
  simp only [counted, Bool.false_eq_true, if_false, hinner, hdecrement]
  cases hnext : increment pool.length (as ++ [t]) with
  | none =>
    rw [hnext] at hturn
    cases hloop : turn pool.length as.length (arranged (as ++ [t]) (List.range pool.length))
      (cyclesAt pool.length as t 0) with
    | done indices cycles => exact ⟨rfl, rfl⟩
    | found i indices cycles cycle => rw [hloop] at hturn; exact hturn.elim
    | undefined => rw [hloop] at hturn; exact hturn.elim
  | some ts' =>
    rw [hnext] at hturn
    obtain ⟨hdigits', hlength'⟩ := Lib.increment_digits hdigits hnext
    cases hloop : turn pool.length as.length (arranged (as ++ [t]) (List.range pool.length))
      (cyclesAt pool.length as t 0) with
    | done indices cycles => rw [hloop] at hturn; exact hturn.elim
    | undefined => rw [hloop] at hturn; exact hturn.elim
    | found i indices cycles cycle =>
      rw [hloop] at hturn
      obtain ⟨rfl, hswap⟩ := hturn
      have hitem := mapM_indices hdigits'
      rw [hlength', hlength] at hitem
      simp only [hswap, hitem]

theorem reply_done (h : p.done = true) : ∀ k, p.reply k = .stopIteration := by
  have hnext : p.next = (.stopIteration, p) := by rw [next, if_pos h]
  intro k
  induction k with
  | zero => rw [reply, after, hnext]
  | succ k ih =>
    rw [reply, after, hnext]
    exact ih

theorem reply_counted (hr : r ≠ 0) {L : List (List Nat)} (h : Drains (counter pool.length) ts L) :
    Digits pool.length ts → ts.length = r → ∀ k, (counted pool r ts).reply k = match L[k]? with
      | some ts => .item (tuple pool ts)
      | none => .stopIteration := by
  induction h with
  | @stop ts hstop =>
    intro hdigits hlength k
    have hnone : increment pool.length ts = none := by simpa [counter] using hstop
    have hnext := next_counted hr hdigits hlength
    rw [hnone] at hnext
    cases k with
    | zero => exact hnext.1
    | succ k => exact reply_done hnext.2 k
  | @item ts s ts' L hitem _ ih =>
    intro hdigits hlength k
    obtain ⟨_, hsome, heq⟩ := Option.map_eq_some_iff.mp hitem
    cases heq
    obtain ⟨hdigits', hlength'⟩ := Lib.increment_digits hdigits hsome
    have hnext := next_counted hr hdigits hlength
    rw [hsome] at hnext
    cases k with
    | zero =>
      rw [reply, after, hnext]
      rfl
    | succ k =>
      rw [reply, after, hnext]
      exact ih hdigits' (hlength'.trans hlength) k

theorem next_create (hr : r ≤ pool.length) :
    (create pool (some r)).next = (.item (pool.take r), counted pool r (List.replicate r 0)) := by
  have hitem : (List.range r).mapM (pool[·]?) = some (pool.take r) := by
    have hlength : (pool.take r).length = r := by rw [List.length_take, Nat.min_eq_left hr]
    have h := Lib.mapM_range (f := fun i => pool[i]?) (r := pool.take r) fun i hi => by
      rw [List.getElem?_take_of_lt (hlength ▸ hi)]
    rwa [hlength] at h
  unfold next create counted
  simp only [Option.getD_some, hitem, Nat.not_lt.mpr hr, decide_false, Bool.false_eq_true, if_false, if_true, if_pos hr,
    arranged_zeros, cycleCounts_zeros]

theorem not_yieldsRight_zero (pool : List V) : ¬ YieldsRight pool 0 := by
  intro h
  obtain ⟨p, arrangements, hnew, -, hreply⟩ := h
  have hp : p = create pool (some 0) := by simpa [new] using hnew.symm
  have hsecond : p.reply 1 = .undefined := by
    rw [hp, reply, after, after, next_create (Nat.zero_le _)]
    simp [next, counted, decrement, cycleCounts]
  rw [hreply 1] at hsecond
  split at hsecond <;> cases hsecond

/-- **`permutations(pool, r)`** is right for the positive `r` of 64 bits. -/
theorem yieldsRight_iff (pool : List V) (r : Nat) : YieldsRight pool r ↔ r ≠ 0 ∧ r < 2 ^ 64 := by
  constructor
  · intro h
    refine ⟨fun hzero => not_yieldsRight_zero pool (hzero ▸ h), ?_⟩
    obtain ⟨p, arrangements, hnew, -, -⟩ := h
    by_contra hfits
    rw [new, if_neg (by omega)] at hnew
    cases hnew
  · intro h
    obtain ⟨hr, hfits⟩ := h
    have hnew : new pool (some (r : Int)) = some (create pool (some r)) := by
      rw [new, if_pos (by omega), Int.toNat_natCast]
    have harrangements : Arrangements (· < ·) (List.finRange pool.length) r _ :=
      Lib.arrangements_allDigits (fun a => lt_irrefl a) (List.pairwise_lt_finRange pool.length) r
    rw [List.length_finRange] at harrangements
    refine ⟨_, _, hnew, harrangements, fun k => ?_⟩
    by_cases hle : r ≤ pool.length
    · obtain ⟨rest, hall, hdrains⟩ := Lib.drains_allDigits hle
      rw [hall, List.map_cons]
      cases k with
      | zero =>
        rw [reply, after, next_create hle, ← tuple_zeros r]
        rfl
      | succ k =>
        rw [reply, after, next_create hle]
        have hrest := reply_counted hr hdrains (Lib.digits_zeros hle) List.length_replicate k
        rw [reply] at hrest
        rw [hrest, List.getElem?_cons_succ, List.getElem?_map]
        cases rest[k]? <;> rfl
    · have hdone : (create pool (some r)).done = true := by simpa [create] using hle
      rw [reply_done hdone, Lib.allDigits_eq_nil (by omega)]
      rfl

/-- `permutations([7], 0)`. -/
theorem not_yields_empty : ¬ YieldsRight [7] 0 := not_yieldsRight_zero [7]

end Permutations

end Pylang.Runtime
