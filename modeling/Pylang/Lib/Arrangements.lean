/-
The arrangements of `r` elements of a list, counted in a mixed radix: a digit
names the next element among those that are left, so the radix falls by one from
digit to digit. The number after another is found from its last digit that is not
the greatest. Counting from zero gives every arrangement once, in lexicographic
order.
-/
import Pylang.Lib.Drains
import Mathlib.Data.List.Lex
import Mathlib.Data.List.Nodup

namespace Pylang.Lib

variable {α β : Type}

/-- The digits of a number, the first below `n`. -/
def Digits : Nat → List Nat → Prop
  | _, [] => True
  | n, t :: ts => t < n ∧ Digits (n - 1) ts

/-- The number that follows. -/
def increment : Nat → List Nat → Option (List Nat)
  | _, [] => none
  | n, t :: ts =>
    match increment (n - 1) ts with
    | some ts => some (t :: ts)
    | none => if t + 1 < n then some ((t + 1) :: List.replicate ts.length 0) else none

/-- All numbers of `r` digits. -/
def allDigits : Nat → Nat → List (List Nat)
  | _, 0 => [[]]
  | n, r + 1 => (List.range n).flatMap fun t => (allDigits (n - 1) r).map (t :: ·)

/-- The elements that the digits name. -/
def chosen : List Nat → List α → List α
  | [], _ => []
  | t :: ts, l => l[t]?.toList ++ chosen ts (l.eraseIdx t)

/-- The elements that are left. -/
def remaining : List Nat → List α → List α
  | [], l => l
  | t :: ts, l => remaining ts (l.eraseIdx t)

/-- The lists of `r` elements of `l`, each once, in lexicographic order. -/
structure Arrangements (lt : α → α → Prop) (l : List α) (r : Nat) (arrangements : List (List α)) : Prop where
  mem_iff : ∀ p, p ∈ arrangements ↔ p.length = r ∧ p.Nodup ∧ ∀ a ∈ p, a ∈ l
  sorted : arrangements.Pairwise (List.Lex lt)

/-! ## Digits -/

theorem digits_append {n : Nat} : ∀ {as ts : List Nat}, Digits n (as ++ ts) ↔ Digits n as ∧ Digits (n - as.length) ts
  | [], _ => by simp [Digits]
  | a :: as, ts => by
    rw [List.cons_append, Digits, digits_append, Digits, and_assoc, List.length_cons,
      show n - 1 - as.length = n - (as.length + 1) by omega]

theorem digits_zeros : ∀ {n m : Nat}, m ≤ n → Digits n (List.replicate m 0)
  | _, 0, _ => trivial
  | n, m + 1, h => by
    rw [List.replicate_succ]
    exact ⟨by omega, digits_zeros (by omega)⟩

theorem Digits.length_le : ∀ {n : Nat} {ts : List Nat}, Digits n ts → ts.length ≤ n
  | _, [], _ => Nat.zero_le _
  | n, t :: ts, h => by
    have hrest := length_le h.2
    have ht := h.1
    rw [List.length_cons]
    omega

theorem increment_append {n : Nat} : ∀ {as ts ts' : List Nat}, increment (n - as.length) ts = some ts' →
    increment n (as ++ ts) = some (as ++ ts')
  | [], _, _, h => h
  | a :: as, ts, ts', h => by
    have hrest : increment (n - 1) (as ++ ts) = some (as ++ ts') :=
      increment_append (by rwa [show n - 1 - as.length = n - (a :: as).length by simp; omega])
    rw [List.cons_append, increment, hrest]
    rfl

theorem increment_digits : ∀ {n : Nat} {ts ts' : List Nat}, Digits n ts → increment n ts = some ts' → Digits n ts' ∧
    ts'.length = ts.length
  | _, [], _, _, h => by cases h
  | n, t :: ts, ts', hts, h => by
    rw [increment] at h
    cases hrest : increment (n - 1) ts with
    | some rest =>
      rw [hrest] at h
      cases h
      obtain ⟨hdigits, hlength⟩ := increment_digits hts.2 hrest
      exact ⟨⟨hts.1, hdigits⟩, by simp [hlength]⟩
    | none =>
      rw [hrest] at h
      by_cases ht : t + 1 < n
      · rw [if_pos ht] at h
        cases h
        exact ⟨⟨ht, digits_zeros hts.2.length_le⟩, by simp⟩
      · rw [if_neg ht] at h
        cases h

/-! ## The count -/

/-- `increment` as an iterator. -/
def counter (n : Nat) (ts : List Nat) : Option (List Nat × List Nat) := (increment n ts).map fun ts => (ts, ts)

theorem allDigits_eq_nil : ∀ {n r : Nat}, n < r → allDigits n r = []
  | n, r + 1, h => by
    rw [allDigits, List.flatMap_eq_nil_iff]
    intro t ht
    have hn := List.mem_range.mp ht
    rw [allDigits_eq_nil (by omega), List.map_nil]

/-- After a block of numbers with one first digit comes `M`. -/
theorem Drains.block {n t : Nat} {ts : List Nat} {L M : List (List Nat)} (h : Drains (counter (n - 1)) ts L)
    (hlast : ∀ last, last.length = ts.length → increment (n - 1) last = none → Drains (counter n) (t :: last) M)
    (hts : Digits (n - 1) ts) : Drains (counter n) (t :: ts) (L.map (t :: ·) ++ M) := by
  induction h with
  | stop hstop =>
    refine hlast _ rfl ?_
    simpa [counter] using hstop
  | @item ts next ts' L hitem _ ih =>
    obtain ⟨_, hnext, heq⟩ := Option.map_eq_some_iff.mp hitem
    cases heq
    obtain ⟨hdigits, hlength⟩ := increment_digits hts hnext
    have hstep : counter n (t :: ts) = some (t :: next, t :: next) := by
      rw [counter, increment, hnext]
      rfl
    exact .item hstep (ih (fun last hl hnone => hlast last (hl.trans hlength) hnone) hdigits)

/-- **Counting from zero** gives all numbers, and then stops. -/
theorem drains_allDigits : ∀ {n r : Nat}, r ≤ n → ∃ rest, allDigits n r = List.replicate r 0 :: rest ∧
    Drains (counter n) (List.replicate r 0) rest
  | n, 0, _ => ⟨[], rfl, .stop rfl⟩
  | n, r + 1, h => by
    obtain ⟨rest, hall, hdrains⟩ := drains_allDigits (n := n - 1) (r := r) (by omega)
    have hzeros : Digits (n - 1) (List.replicate r 0) := digits_zeros (by omega)
    -- from the block of a first digit on, by the number of blocks that follow
    have hblocks : ∀ m t, t + m + 1 = n → Drains (counter n) (t :: List.replicate r 0)
        (rest.map (t :: ·) ++ (List.range' (t + 1) m).flatMap fun t => (allDigits (n - 1) r).map (t :: ·)) := by
      intro m
      induction m with
      | zero =>
        intro t ht
        refine hdrains.block (fun last _ hnone => .stop ?_) hzeros
        rw [counter, increment, hnone, if_neg (by omega)]
        rfl
      | succ m ih =>
        intro t ht
        refine hdrains.block (fun last hlength hnone => ?_) hzeros
        rw [List.range'_succ, List.flatMap_cons, hall, List.map_cons, List.cons_append, ← hall]
        have hstep : counter n (t :: last) = some ((t + 1) :: List.replicate r 0, (t + 1) :: List.replicate r 0) := by
          rw [counter, increment, hnone, if_pos (by omega), hlength, List.length_replicate]
          rfl
        exact .item hstep (ih (t + 1) (by omega))
    refine ⟨_, ?_, hblocks (n - 1) 0 (by omega)⟩
    rw [allDigits, List.range_eq_range', show n = n - 1 + 1 by omega, List.range'_succ, List.flatMap_cons,
      Nat.add_sub_cancel, hall, List.map_cons, List.cons_append, ← hall, List.replicate_succ]

/-! ## The elements of a number -/

theorem chosen_append {as ts : List Nat} : ∀ {l : List α},
    chosen (as ++ ts) l = chosen as l ++ chosen ts (remaining as l) := by
  induction as with
  | nil => exact rfl
  | cons a as ih =>
    intro l
    rw [List.cons_append, chosen, ih, chosen, remaining, List.append_assoc]

theorem remaining_append {as ts : List Nat} : ∀ {l : List α}, remaining (as ++ ts) l = remaining ts (remaining as l) := by
  induction as with
  | nil => exact rfl
  | cons a as ih => exact ih

theorem length_remaining : ∀ {ts : List Nat} {l : List α}, Digits l.length ts →
    (remaining ts l).length = l.length - ts.length
  | [], _, _ => rfl
  | t :: ts, l, h => by
    have herase : (l.eraseIdx t).length = l.length - 1 := by rw [List.length_eraseIdx, if_pos h.1]
    rw [remaining, length_remaining (herase ▸ h.2), herase, List.length_cons]
    omega

theorem length_chosen : ∀ {ts : List Nat} {l : List α}, Digits l.length ts → (chosen ts l).length = ts.length
  | [], _, _ => rfl
  | t :: ts, l, h => by
    have herase : (l.eraseIdx t).length = l.length - 1 := by rw [List.length_eraseIdx, if_pos h.1]
    rw [chosen, List.getElem?_eq_getElem h.1, List.length_append, length_chosen (herase ▸ h.2), List.length_cons]
    simp [Nat.add_comm]

/-- Zeros name the elements in their order. -/
theorem chosen_zeros : ∀ (m : Nat) (l : List α), chosen (List.replicate m 0) l = l.take m
  | 0, _ => rfl
  | m + 1, [] => by rw [List.replicate_succ, chosen, List.eraseIdx_nil, chosen_zeros m []]; simp
  | m + 1, a :: l => by rw [List.replicate_succ, chosen, List.eraseIdx_cons_zero, chosen_zeros m l]; rfl

theorem remaining_zeros : ∀ (m : Nat) (l : List α), remaining (List.replicate m 0) l = l.drop m
  | 0, _ => rfl
  | m + 1, [] => by rw [List.replicate_succ, remaining, List.eraseIdx_nil, remaining_zeros m []]; simp
  | m + 1, a :: l => by rw [List.replicate_succ, remaining, List.eraseIdx_cons_zero, remaining_zeros m l]; rfl

theorem chosen_map (f : α → β) : ∀ (ts : List Nat) (l : List α), chosen ts (l.map f) = (chosen ts l).map f
  | [], _ => rfl
  | t :: ts, l => by
    have herase : (l.map f).eraseIdx t = (l.eraseIdx t).map f := by
      rw [List.eraseIdx_eq_take_drop_succ, List.eraseIdx_eq_take_drop_succ, List.map_append, List.map_take, List.map_drop]
    rw [chosen, chosen, herase, chosen_map f ts, List.map_append, List.getElem?_map]
    cases l[t]? <;> rfl

/-! ## The arrangements -/

/-- The numbers by their first digit. -/
theorem map_chosen_succ (n r : Nat) (l : List α) : (allDigits n (r + 1)).map (chosen · l) =
    (List.range n).flatMap fun t => ((allDigits (n - 1) r).map (chosen · (l.eraseIdx t))).map (l[t]?.toList ++ ·) := by
  rw [allDigits, List.map_flatMap]
  refine congrArg (List.flatMap · (List.range n)) (funext fun t => ?_)
  rw [List.map_map, List.map_map]
  rfl

theorem mem_eraseIdx_nodup {l : List α} (h : l.Nodup) {t : Nat} (ht : t < l.length) {a : α} :
    a ∈ l.eraseIdx t ↔ a ∈ l ∧ a ≠ l[t] := by
  rw [List.mem_eraseIdx_iff_getElem]
  constructor
  · intro hmem
    obtain ⟨i, hi, hne, rfl⟩ := hmem
    exact ⟨List.getElem_mem hi, fun heq => hne ((List.Nodup.getElem_inj_iff h).mp heq)⟩
  · intro hmem
    obtain ⟨i, hi, rfl⟩ := List.mem_iff_getElem.mp hmem.1
    exact ⟨i, hi, fun heq => hmem.2 (by subst heq; rfl), rfl⟩

theorem mem_map_chosen : ∀ {n r : Nat} {l : List α}, l.length = n → l.Nodup → ∀ p,
    p ∈ (allDigits n r).map (chosen · l) ↔ p.length = r ∧ p.Nodup ∧ ∀ a ∈ p, a ∈ l
  | n, 0, l, _, _, p => by
    simp only [allDigits, List.map_cons, List.map_nil, List.mem_singleton, chosen]
    refine ⟨fun hp => ?_, fun hp => List.length_eq_zero_iff.mp hp.1⟩
    subst hp
    simp
  | n, r + 1, l, hlength, hnodup, p => by
    have hblock : ∀ t, t < l.length → ∀ q, q ∈ (allDigits (n - 1) r).map (chosen · (l.eraseIdx t)) ↔
        q.length = r ∧ q.Nodup ∧ ∀ a ∈ q, a ∈ l.eraseIdx t := fun t ht =>
      mem_map_chosen (by rw [List.length_eraseIdx, if_pos ht, hlength]) (hnodup.eraseIdx t)
    rw [map_chosen_succ, List.mem_flatMap]
    constructor
    · intro hp
      obtain ⟨t, ht, hp⟩ := hp
      obtain ⟨q, hq, rfl⟩ := List.mem_map.mp hp
      have ht : t < l.length := hlength ▸ List.mem_range.mp ht
      obtain ⟨hql, hqn, hqm⟩ := (hblock t ht q).mp hq
      rw [List.getElem?_eq_getElem ht]
      refine ⟨by simp [hql], List.nodup_cons.mpr ⟨fun hmem => ?_, hqn⟩, fun a ha => ?_⟩
      · exact ((mem_eraseIdx_nodup hnodup ht).mp (hqm _ hmem)).2 rfl
      · rcases List.mem_cons.mp ha with rfl | ha
        · exact List.getElem_mem ht
        · exact ((mem_eraseIdx_nodup hnodup ht).mp (hqm a ha)).1
    · intro hp
      obtain ⟨hpl, hpn, hpm⟩ := hp
      cases p with
      | nil => cases hpl
      | cons x q =>
        obtain ⟨hx, hqn⟩ := List.nodup_cons.mp hpn
        obtain ⟨t, ht, rfl⟩ := List.mem_iff_getElem.mp (hpm x List.mem_cons_self)
        refine ⟨t, List.mem_range.mpr (hlength ▸ ht),
          List.mem_map.mpr ⟨q, (hblock t ht q).mpr ⟨?_, hqn, fun a ha => ?_⟩, ?_⟩⟩
        · simpa using hpl
        · refine (mem_eraseIdx_nodup hnodup ht).mpr ⟨hpm a (List.mem_cons_of_mem _ ha), fun heq => ?_⟩
          exact hx (heq ▸ ha)
        · rw [List.getElem?_eq_getElem ht]
          rfl

theorem sorted_map_chosen {lt : α → α → Prop} : ∀ {n r : Nat} {l : List α}, l.length = n → l.Pairwise lt →
    ((allDigits n r).map (chosen · l)).Pairwise (List.Lex lt)
  | _, 0, _, _, _ => List.pairwise_singleton _ _
  | n, r + 1, l, hlength, hl => by
    rw [map_chosen_succ]
    refine List.pairwise_flatMap.mpr ⟨fun t ht => ?_, ?_⟩
    · have ht : t < l.length := hlength ▸ List.mem_range.mp ht
      have hrest := sorted_map_chosen (r := r) (n := n - 1) (l := l.eraseIdx t)
        (by rw [List.length_eraseIdx, if_pos ht, hlength]) (hl.sublist (List.eraseIdx_sublist l t))
      refine List.pairwise_map.mpr (hrest.imp fun hlex => ?_)
      rw [List.getElem?_eq_getElem ht]
      exact .cons hlex
    · refine (List.pairwise_lt_range).imp_of_mem fun ht ht' hlt p hp q hq => ?_
      obtain ⟨p, -, rfl⟩ := List.mem_map.mp hp
      obtain ⟨q, -, rfl⟩ := List.mem_map.mp hq
      have ht := hlength ▸ List.mem_range.mp ht
      have ht' := hlength ▸ List.mem_range.mp ht'
      rw [List.getElem?_eq_getElem ht, List.getElem?_eq_getElem ht']
      exact .rel (List.pairwise_iff_getElem.mp hl _ _ ht ht' hlt)

/-- **The numbers of `r` digits** name the arrangements. -/
theorem arrangements_allDigits {lt : α → α → Prop} (hirrefl : ∀ a, ¬ lt a a) {l : List α} (h : l.Pairwise lt) (r : Nat) :
    Arrangements lt l r ((allDigits l.length r).map (chosen · l)) := by
  have hnodup : l.Nodup := by
    refine List.Pairwise.imp (fun {a b} hlt heq => ?_) h
    subst heq
    exact hirrefl a hlt
  exact ⟨mem_map_chosen rfl hnodup, sorted_map_chosen rfl h⟩

end Pylang.Lib
