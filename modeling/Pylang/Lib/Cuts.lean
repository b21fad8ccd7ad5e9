/-
A list cut at the occurrences of a pattern that is not empty, from the left and
up to a number of cuts: the pieces join to the list again (`join_cuts`), and no
piece but one that is left when the cuts are used up has the pattern in it. And
a list cut into the maximal runs of the elements that are no separators.
-/
import Mathlib

namespace Pylang.Lib

variable {α : Type}

section
variable [DecidableEq α]

/-- What stands before and after the first occurrence. -/
def breakOn (p : List α) : List α → Option (List α × List α)
  | [] => if p = [] then some ([], []) else none
  | x :: s => if p <+: x :: s then some ([], (x :: s).drop p.length) else (breakOn p s).map fun r => (x :: r.1, r.2)

/-- The pieces of at most `limit` cuts. -/
def cuts (p : List α) : Nat → List α → List (List α)
  | 0, s => [s]
  | limit + 1, s =>
    match breakOn p s with
    | none => [s]
    | some (before, after) => before :: cuts p limit after

variable {p s before after : List α}

/-! ## The first occurrence -/

theorem breakOn_append (p s : List α) : breakOn p (p ++ s) = some ([], s) := by
  rcases h : p ++ s with _ | ⟨x, t⟩
  · obtain ⟨rfl, rfl⟩ := List.append_eq_nil_iff.mp h
    rfl
  · rw [breakOn, if_pos (h ▸ List.prefix_append p s), ← h, List.drop_left]

theorem breakOn_cons {x : α} (h : ¬ p <+: x :: s) : breakOn p (x :: s) = (breakOn p s).map fun r => (x :: r.1, r.2) := by
  rw [breakOn, if_neg h]

theorem breakOn_eq : ∀ {s before : List α}, breakOn p s = some (before, after) → s = before ++ (p ++ after) := by
  intro s
  induction s with
  | nil =>
    intro before h
    rw [breakOn] at h
    split at h
    next hp =>
      cases h
      rw [hp]
      rfl
    next => cases h
  | cons x s ih =>
    intro before h
    by_cases hp : p <+: x :: s
    · obtain ⟨t, ht⟩ := hp
      rw [← ht, breakOn_append] at h
      cases h
      exact ht.symm
    · rw [breakOn_cons hp] at h
      obtain ⟨⟨b, a⟩, hrest, h⟩ := Option.map_eq_some_iff.mp h
      cases h
      rw [ih hrest]
      rfl

/-- No occurrence is before the first. -/
theorem breakOn_first : ∀ {s before x y : List α}, breakOn p s = some (before, after) → s = x ++ (p ++ y) →
    before.length ≤ x.length := by
  intro s
  induction s with
  | nil =>
    intro before x y h heq
    have hs := breakOn_eq h
    rw [(List.append_eq_nil_iff.mp hs.symm).1]
    exact Nat.zero_le _
  | cons z s ih =>
    intro before x y h heq
    by_cases hp : p <+: z :: s
    · rw [breakOn, if_pos hp] at h
      cases h
      exact Nat.zero_le _
    · rw [breakOn_cons hp] at h
      obtain ⟨⟨b, a⟩, hrest, h⟩ := Option.map_eq_some_iff.mp h
      cases h
      cases x with
      | nil => exact absurd ⟨y, heq.symm⟩ hp
      | cons z' x =>
        cases heq
        exact Nat.succ_le_succ (ih hrest rfl)

theorem breakOn_none_iff : breakOn p s = none ↔ ¬ p <:+: s := by
  induction s with
  | nil =>
    rw [breakOn, List.infix_nil]
    split
    next h => simp [h]
    next h => simp [h]
  | cons x s ih =>
    rw [List.infix_cons_iff]
    by_cases hp : p <+: x :: s
    · rw [breakOn, if_pos hp]
      simp [hp]
    · rw [breakOn_cons hp, Option.map_eq_none_iff, ih]
      simp [hp]

theorem infix_of_breakOn (h : breakOn p s = some (before, after)) : p <:+: s := by
  by_contra hnot
  cases h.symm.trans (breakOn_none_iff.mpr hnot)

/-- The piece before the first occurrence has none. -/
theorem not_infix_before (hp : p ≠ []) (h : breakOn p s = some (before, after)) : ¬ p <:+: before := by
  intro hmatch
  obtain ⟨x, y, heq⟩ := hmatch
  have hle := breakOn_first (x := x) (y := y ++ (p ++ after)) h (by rw [breakOn_eq h, ← heq]; simp)
  have hlength := congrArg List.length heq
  have hpos := List.length_pos_iff.mpr hp
  rw [List.length_append, List.length_append] at hlength
  omega

/-! ## The pieces -/

theorem cuts_of_no_match (h : ¬ p <:+: s) (limit : Nat) : cuts p limit s = [s] := by
  cases limit with
  | zero => rfl
  | succ limit => rw [cuts, breakOn_none_iff.mpr h]

theorem cuts_append (p : List α) (limit : Nat) (s : List α) : cuts p (limit + 1) (p ++ s) = [] :: cuts p limit s := by
  rw [cuts, breakOn_append]

theorem cuts_ne_nil (p : List α) (limit : Nat) (s : List α) : cuts p limit s ≠ [] := by
  cases limit with
  | zero => exact List.cons_ne_nil _ _
  | succ limit =>
    rw [cuts]
    split <;> exact List.cons_ne_nil _ _

theorem cuts_cons {x : α} (h : ¬ p <+: x :: s) (limit : Nat) :
    cuts p limit (x :: s) = (cuts p limit s).modifyHead (x :: ·) := by
  cases limit with
  | zero => rfl
  | succ limit =>
    rw [cuts, breakOn_cons h, cuts]
    rcases breakOn p s with _ | ⟨b, a⟩ <;> rfl

/-- `cuts_cons`, also where no cut is left. -/
theorem cuts_cons_of {x : α} {limit : Nat} (h : ¬ (0 < limit ∧ p <+: x :: s)) :
    cuts p limit (x :: s) = (cuts p limit s).modifyHead (x :: ·) := by
  cases limit with
  | zero => rfl
  | succ limit => exact cuts_cons (fun hp => h ⟨Nat.succ_pos limit, hp⟩) _

/-- What stands before an element that begins no occurrence goes with it. -/
theorem cuts_cons_append {x : α} (h : ¬ p <+: x :: s) (limit : Nat) (pend : List α) :
    (cuts p limit (x :: s)).modifyHead (pend ++ ·) = (cuts p limit s).modifyHead (pend ++ [x] ++ ·) := by
  obtain ⟨piece, pieces, hpieces⟩ := List.exists_cons_of_ne_nil (cuts_ne_nil p limit s)
  rw [cuts_cons h, hpieces, List.modifyHead_cons, List.modifyHead_cons, List.modifyHead_cons, List.append_assoc]
  rfl

theorem modifyHead_nil_append (pieces : List (List α)) : pieces.modifyHead ([] ++ ·) = pieces := by
  cases pieces <;> rfl

/-- **The pieces** join to the list. -/
theorem join_cuts (p : List α) : ∀ (limit : Nat) (s : List α), p.intercalate (cuts p limit s) = s := by
  intro limit
  induction limit with
  | zero => exact fun s => List.intercalate_singleton
  | succ limit ih =>
    intro s
    rw [cuts]
    rcases h : breakOn p s with _ | ⟨b, a⟩
    · exact List.intercalate_singleton
    · dsimp only
      rw [List.intercalate_cons_of_ne_nil (cuts_ne_nil p limit a), ih, breakOn_eq h, List.append_assoc]

theorem length_cuts_le (p : List α) : ∀ (limit : Nat) (s : List α), (cuts p limit s).length ≤ limit + 1 := by
  intro limit
  induction limit with
  | zero => exact fun s => Nat.le_refl 1
  | succ limit ih =>
    intro s
    rw [cuts]
    split
    next => exact Nat.succ_le_succ (Nat.zero_le _)
    next => exact Nat.succ_le_succ (ih _)

/-- Every piece before the last has no occurrence, and the last has none unless the cuts are used up. -/
theorem not_infix_cuts (hp : p ≠ []) : ∀ {limit : Nat} {s piece : List α}, piece ∈ cuts p limit s →
    p <:+: piece → (cuts p limit s).length = limit + 1 ∧ (cuts p limit s).getLast? = some piece := by
  intro limit
  induction limit with
  | zero =>
    intro s piece hpiece _
    cases List.mem_singleton.mp hpiece
    exact ⟨rfl, rfl⟩
  | succ limit ih =>
    intro s piece hpiece hmatch
    rw [cuts] at hpiece ⊢
    rcases h : breakOn p s with _ | ⟨b, a⟩
    · rw [h] at hpiece
      cases List.mem_singleton.mp hpiece
      exact absurd hmatch (breakOn_none_iff.mp h)
    · rw [h] at hpiece
      rcases List.mem_cons.mp hpiece with rfl | hrest
      · exact absurd hmatch (not_infix_before hp h)
      · obtain ⟨hlength, hlast⟩ := ih hrest hmatch
        refine ⟨congrArg (· + 1) hlength, ?_⟩
        dsimp only
        rw [List.getLast?_cons, hlast]
        rfl

/-- A cut uses up a part of the list. -/
theorem length_after (hp : p ≠ []) (h : breakOn p s = some (before, after)) : after.length < s.length := by
  have hpos := List.length_pos_iff.mpr hp
  rw [breakOn_eq h, List.length_append, List.length_append]
  omega

theorem length_cuts_le_length (hp : p ≠ []) : ∀ (limit : Nat) (s : List α), (cuts p limit s).length ≤ s.length + 1 := by
  intro limit
  induction limit with
  | zero => exact fun s => Nat.le_add_left 1 s.length
  | succ limit ih =>
    intro s
    rw [cuts]
    split
    next => exact Nat.le_add_left 1 s.length
    next b a h =>
      have hless := length_after hp h
      have hrest := ih a
      rw [List.length_cons]
      omega

/-- As many cuts as the list has elements are all. -/
theorem cuts_of_length_le (hp : p ≠ []) : ∀ {limit limit' : Nat} {s : List α}, s.length ≤ limit → s.length ≤ limit' →
    cuts p limit s = cuts p limit' s := by
  intro limit
  induction limit with
  | zero =>
    intro limit' s h _
    obtain rfl := List.length_eq_zero_iff.mp (Nat.le_zero.mp h)
    rw [cuts_of_no_match (by rwa [List.infix_nil]), cuts_of_no_match (by rwa [List.infix_nil])]
  | succ limit ih =>
    intro limit' s h h'
    rcases hbreak : breakOn p s with _ | ⟨b, a⟩
    · rw [cuts_of_no_match (breakOn_none_iff.mp hbreak), cuts_of_no_match (breakOn_none_iff.mp hbreak)]
    · have hless := length_after hp hbreak
      cases limit' with
      | zero => omega
      | succ limit' =>
        rw [cuts, cuts, hbreak]
        exact congrArg (b :: ·) (ih (by omega) (by omega))

/-- So are as many as there are occurrences. -/
theorem cuts_of_length_cuts_le (hp : p ≠ []) : ∀ {limit limit' : Nat} {s : List α}, s.length ≤ limit' →
    (cuts p limit' s).length ≤ limit + 1 → cuts p limit s = cuts p limit' s := by
  intro limit
  induction limit with
  | zero =>
    intro limit' s h hone
    cases limit' with
    | zero => rfl
    | succ limit' =>
      rw [cuts] at hone ⊢
      rcases hbreak : breakOn p s with _ | ⟨b, a⟩
      · rfl
      · rw [hbreak] at hone
        have hpos := List.length_pos_iff.mpr (cuts_ne_nil p limit' a)
        rw [List.length_cons] at hone
        omega
  | succ limit ih =>
    intro limit' s h hle
    rcases hbreak : breakOn p s with _ | ⟨b, a⟩
    · rw [cuts_of_no_match (breakOn_none_iff.mp hbreak), cuts_of_no_match (breakOn_none_iff.mp hbreak)]
    · have hless := length_after hp hbreak
      cases limit' with
      | zero => omega
      | succ limit' =>
        rw [cuts, hbreak] at hle
        rw [cuts, cuts, hbreak]
        exact congrArg (b :: ·) (ih (by omega) (Nat.le_of_succ_le_succ hle))

/-- There is a cut where the pattern occurs. -/
theorem one_lt_length_cuts {limit : Nat} (hlimit : limit ≠ 0) : 1 < (cuts p limit s).length ↔ p <:+: s := by
  obtain ⟨limit, rfl⟩ := Nat.exists_eq_succ_of_ne_zero hlimit
  rw [Nat.succ_eq_add_one, cuts]
  rcases h : breakOn p s with _ | ⟨b, a⟩
  · have hnot := breakOn_none_iff.mp h
    simp [hnot]
  · have hpos := List.length_pos_iff.mpr (cuts_ne_nil p limit a)
    refine ⟨fun _ => infix_of_breakOn h, fun _ => ?_⟩
    rw [List.length_cons]
    omega

end

/-! ## Positions -/

/-- The pattern is at a position of the list. -/
def Occurs (p l : List α) (i : Nat) : Prop := i ≤ l.length ∧ p <+: l.drop i

theorem occurs_iff {p l : List α} {i : Nat} : Occurs p l i ↔ ∃ x y, l = x ++ (p ++ y) ∧ x.length = i := by
  constructor
  · intro h
    obtain ⟨hi, y, hy⟩ := h
    exact ⟨l.take i, y, by rw [hy, List.take_append_drop], by rw [List.length_take, Nat.min_eq_left hi]⟩
  · intro h
    obtain ⟨x, y, rfl, rfl⟩ := h
    refine ⟨by rw [List.length_append]; omega, ?_⟩
    rw [List.drop_left]
    exact List.prefix_append p y

theorem Occurs.length {p l : List α} {i : Nat} (h : Occurs p l i) : i + p.length ≤ l.length := by
  obtain ⟨x, y, rfl, rfl⟩ := occurs_iff.mp h
  rw [List.length_append, List.length_append]
  omega

theorem Occurs.getElem? {p l : List α} {i k : Nat} (h : Occurs p l i) (hk : k < p.length) : l[i + k]? = p[k]? := by
  obtain ⟨x, y, rfl, rfl⟩ := occurs_iff.mp h
  rw [List.getElem?_append_right (Nat.le_add_right _ _), Nat.add_sub_cancel_left, List.getElem?_append_left hk]

theorem occurs_drop {p l : List α} {d i : Nat} (hd : d ≤ l.length) : Occurs p (l.drop d) i ↔ Occurs p l (d + i) := by
  unfold Occurs
  rw [List.length_drop, List.drop_drop]
  exact and_congr_left fun _ => by omega

theorem infix_of_occurs {p l : List α} {i : Nat} (h : Occurs p l i) : p <:+: l := by
  obtain ⟨x, y, heq, -⟩ := occurs_iff.mp h
  exact ⟨x, y, by rw [heq, List.append_assoc]⟩

theorem exists_occurs {p l : List α} (h : p <:+: l) : ∃ i, Occurs p l i := by
  obtain ⟨x, y, heq⟩ := h
  exact ⟨x.length, occurs_iff.mpr ⟨x, y, by rw [← heq, List.append_assoc], rfl⟩⟩

/-- In a part of the list. -/
theorem occurs_part {p l : List α} {start stop i : Nat} (hp : p ≠ []) :
    Occurs p ((l.take stop).drop start) i ↔ Occurs p l (start + i) ∧ start + i + p.length ≤ stop := by
  have hpos := List.length_pos_iff.mpr hp
  have hdrop : ((l.take stop).drop start).drop i = (l.drop (start + i)).take (stop - (start + i)) := by
    rw [List.drop_drop, List.drop_take]
  unfold Occurs
  rw [hdrop, List.prefix_take_iff, List.length_drop, List.length_take]
  constructor
  · intro h
    obtain ⟨hi, hfront, hle⟩ := h
    have hlength := hfront.length_le
    rw [List.length_drop] at hlength
    exact ⟨⟨by omega, hfront⟩, by omega⟩
  · intro h
    obtain ⟨⟨hi, hfront⟩, hle⟩ := h
    have hlength := hfront.length_le
    rw [List.length_drop] at hlength
    exact ⟨by omega, hfront, by omega⟩

section
variable [DecidableEq α] {p l before after : List α}

theorem occurs_breakOn (h : breakOn p l = some (before, after)) :
    Occurs p l before.length ∧ ∀ i, Occurs p l i → before.length ≤ i := by
  refine ⟨occurs_iff.mpr ⟨before, after, breakOn_eq h, rfl⟩, fun i hi => ?_⟩
  obtain ⟨x, y, heq, rfl⟩ := occurs_iff.mp hi
  exact breakOn_first h heq

theorem not_occurs_breakOn (h : breakOn p l = none) (i : Nat) : ¬ Occurs p l i :=
  fun hi => breakOn_none_iff.mp h (infix_of_occurs hi)

/-- After the first occurrence. -/
theorem occurs_after {i : Nat} (h : breakOn p l = some (before, after)) :
    Occurs p after i ↔ Occurs p l (before.length + p.length + i) := by
  have hafter : after = l.drop (before.length + p.length) := by
    rw [breakOn_eq h, ← List.append_assoc, ← List.length_append, List.drop_left]
  rw [hafter, occurs_drop (occurs_breakOn h).1.length]

end

/-- Two lists with their patterns at the same positions have as many pieces, if two occurrences are in the way of each other
in both or in none. -/
theorem length_cuts_congr {β : Type} [DecidableEq α] [DecidableEq β] {p : List α} {q : List β} (hp : p ≠ []) (hq : q ≠ []) :
    ∀ {limit : Nat} {l : List α} {m : List β}, (∀ i, Occurs p l i ↔ Occurs q m i) →
      (∀ i j, Occurs p l i → Occurs p l j → i < j → p.length = q.length) →
        (cuts p limit l).length = (cuts q limit m).length := by
  intro limit
  induction limit with
  | zero => exact fun _ _ => rfl
  | succ limit ih =>
    intro l m hsame hspace
    rcases hl : breakOn p l with _ | ⟨b, a⟩
    · have hm : ¬ q <:+: m := fun hmatch => by
        obtain ⟨i, hi⟩ := exists_occurs hmatch
        exact not_occurs_breakOn hl i ((hsame i).mpr hi)
      rw [cuts_of_no_match (breakOn_none_iff.mp hl), cuts_of_no_match hm]
      rfl
    · obtain ⟨hb, hleast⟩ := occurs_breakOn hl
      rcases hm : breakOn q m with _ | ⟨b', a'⟩
      · exact absurd ((hsame _).mp hb) (not_occurs_breakOn hm _)
      · obtain ⟨hb', hleast'⟩ := occurs_breakOn hm
        have hfirst : b.length = b'.length :=
          Nat.le_antisymm (hleast _ ((hsame _).mpr hb')) (hleast' _ ((hsame _).mp hb))
        have hpos := List.length_pos_iff.mpr hp
        have hpos' := List.length_pos_iff.mpr hq
        rw [cuts, cuts, hl, hm, List.length_cons, List.length_cons]
        refine congrArg (· + 1) ?_
        by_cases hlength : p.length = q.length
        · refine ih (fun i => ?_) fun _ _ _ _ _ => hlength
          rw [occurs_after hl, occurs_after hm, hsame, hfirst, hlength]
        · -- there is but one occurrence
          have ha : ¬ p <:+: a := fun hmatch => by
            obtain ⟨i, hi⟩ := exists_occurs hmatch
            rw [occurs_after hl] at hi
            exact hlength (hspace _ _ hb hi (by omega))
          have ha' : ¬ q <:+: a' := fun hmatch => by
            obtain ⟨i, hi⟩ := exists_occurs hmatch
            rw [occurs_after hm, ← hsame] at hi
            exact hlength (hspace _ _ hb hi (by omega))
          rw [cuts_of_no_match ha, cuts_of_no_match ha']
          rfl

theorem intercalate_modifyHead (p : List α) (x : α) {pieces : List (List α)} (h : pieces ≠ []) :
    p.intercalate (pieces.modifyHead (x :: ·)) = x :: p.intercalate pieces := by
  cases pieces with
  | nil => exact absurd rfl h
  | cons piece pieces => exact List.intercalate_cons_cons_left

theorem length_intercalate (p : List α) (pieces : List (List α)) :
    (p.intercalate pieces).length = (pieces.map List.length).sum + (pieces.length - 1) * p.length := by
  induction pieces with
  | nil => simp
  | cons piece pieces ih =>
    cases pieces with
    | nil => simp
    | cons piece' pieces =>
      rw [List.intercalate_cons_cons, List.length_append, List.length_append, ih]
      simp only [List.map_cons, List.sum_cons, List.length_cons, Nat.add_sub_cancel, Nat.succ_mul]
      omega

/-! ## Runs -/

/-- The maximal runs of elements that are no separators, in order. -/
def runs (sep : α → Bool) (l : List α) : List (List α) := (l.splitOnP sep).filter fun w => !w.isEmpty

section
variable {sep : α → Bool}

@[simp] theorem runs_nil : runs sep [] = [] := by
  rw [runs, List.splitOnP_nil]
  rfl

theorem runs_of_forall {l : List α} (hne : l ≠ []) (h : ∀ x ∈ l, sep x = false) : runs sep l = [l] := by
  rw [runs, List.splitOnP_eq_singleton h, List.filter_cons_of_pos (by simp [hne]), List.filter_nil]

/-- A separator ends what stands before it. -/
theorem runs_append_cons (l l' : List α) {x : α} (hx : sep x = true) :
    runs sep (l ++ x :: l') = runs sep l ++ runs sep l' := by
  rw [runs, List.splitOnP_append_cons l l' hx, List.filter_append]
  rfl

theorem runs_cons {l : List α} {x : α} (hx : sep x = true) : runs sep (x :: l) = runs sep l := by
  have h := runs_append_cons [] l hx
  rw [runs_nil] at h
  exact h

theorem not_sep_of_mem_splitOnP : ∀ {l w : List α}, w ∈ l.splitOnP sep → ∀ x ∈ w, sep x = false := by
  intro l
  induction l with
  | nil =>
    intro w hw x hx
    rw [List.splitOnP_nil] at hw
    cases List.mem_singleton.mp hw
    cases hx
  | cons y l ih =>
    intro w hw x hx
    rw [List.splitOnP_cons_eq_if_modifyHead] at hw
    split at hw
    next =>
      rcases List.mem_cons.mp hw with rfl | hw
      · cases hx
      · exact ih hw x hx
    next hy =>
      obtain ⟨v, vs, hv⟩ := List.exists_cons_of_ne_nil (List.splitOnP_ne_nil sep l)
      rw [hv, List.modifyHead_cons] at hw
      rcases List.mem_cons.mp hw with rfl | hw
      · rcases List.mem_cons.mp hx with rfl | hx
        · exact Bool.eq_false_iff.mpr hy
        · exact ih (hv ▸ List.mem_cons_self) x hx
      · exact ih (hv ▸ List.mem_cons_of_mem v hw) x hx

theorem not_sep_of_mem_runs {l w : List α} (hw : w ∈ runs sep l) : ∀ x ∈ w, sep x = false :=
  not_sep_of_mem_splitOnP (List.mem_filter.mp hw).1

/-- An element that is no separator is in a run. -/
theorem exists_mem_runs {x : α} (hx : sep x = false) : ∀ {l : List α}, x ∈ l → ∃ w ∈ runs sep l, x ∈ w := by
  intro l
  induction l with
  | nil => exact fun h => by cases h
  | cons y l ih =>
    intro h
    unfold runs at ih ⊢
    rw [List.splitOnP_cons_eq_if_modifyHead]
    obtain ⟨v, vs, hv⟩ := List.exists_cons_of_ne_nil (List.splitOnP_ne_nil sep l)
    rcases List.mem_cons.mp h with rfl | h
    · rw [if_neg (by simp [hx]), hv, List.modifyHead_cons, List.filter_cons_of_pos rfl]
      exact ⟨x :: v, List.mem_cons_self, List.mem_cons_self⟩
    · obtain ⟨w, hw, hxw⟩ := ih h
      split
      next =>
        obtain ⟨hmem, hne⟩ := List.mem_filter.mp hw
        exact ⟨w, List.mem_filter.mpr ⟨List.mem_cons_of_mem _ hmem, hne⟩, hxw⟩
      next =>
        have hmem := (List.mem_filter.mp hw).1
        rw [hv] at hmem
        rw [hv, List.modifyHead_cons, List.filter_cons_of_pos rfl]
        rcases List.mem_cons.mp hmem with rfl | hmem
        · exact ⟨y :: w, List.mem_cons_self, List.mem_cons_of_mem y hxw⟩
        · exact ⟨w, List.mem_cons_of_mem _ (List.mem_filter.mpr ⟨hmem, (List.mem_filter.mp hw).2⟩), hxw⟩

theorem runs_congr {sep' : α → Bool} {l : List α} (h : ∀ x ∈ l, sep x = sep' x) : runs sep l = runs sep' l := by
  have hsplit : List.splitOnP sep l = List.splitOnP sep' l := by
    induction l with
    | nil => rw [List.splitOnP_nil, List.splitOnP_nil]
    | cons x l ih =>
      obtain ⟨hx, hl⟩ := List.forall_mem_cons.mp h
      rw [List.splitOnP_cons_eq_if_modifyHead, List.splitOnP_cons_eq_if_modifyHead, hx, ih hl]
  rw [runs, hsplit]
  rfl

theorem splitOnP_append {l l' : List α} (h : ∀ x ∈ l, sep x = false) :
    (l ++ l').splitOnP sep = (l'.splitOnP sep).modifyHead (l ++ ·) := by
  obtain ⟨v, vs, hv⟩ := List.exists_cons_of_ne_nil (List.splitOnP_ne_nil sep l')
  induction l with
  | nil => rw [List.nil_append, hv, List.modifyHead_cons, List.nil_append]
  | cons x l ih =>
    obtain ⟨hx, hl⟩ := List.forall_mem_cons.mp h
    rw [List.cons_append, List.splitOnP_cons_eq_if_modifyHead, if_neg (by simp [hx]), ih hl, hv, List.modifyHead_cons,
      List.modifyHead_cons, List.modifyHead_cons, List.cons_append]

/-- The runs of a list whose elements are written out: a separator as one, and any other with none. -/
theorem runs_flatMap {β : Type} {sep' : β → Bool} {e : α → List β}
    (hsep : ∀ x, sep x = true → ∃ b, e x = [b] ∧ sep' b = true)
    (hother : ∀ x, sep x = false → e x ≠ [] ∧ ∀ b ∈ e x, sep' b = false) (l : List α) :
    runs sep' (l.flatMap e) = (runs sep l).map (List.flatMap e) := by
  have hsplit : (l.flatMap e).splitOnP sep' = (l.splitOnP sep).map (List.flatMap e) := by
    induction l with
    | nil => rw [List.flatMap_nil, List.splitOnP_nil, List.splitOnP_nil, List.map_cons, List.map_nil, List.flatMap_nil]
    | cons x l ih =>
      rw [List.flatMap_cons, List.splitOnP_cons_eq_if_modifyHead]
      by_cases hx : sep x = true
      · obtain ⟨b, hb, hsep'⟩ := hsep x hx
        rw [if_pos hx, hb, List.singleton_append, List.splitOnP_cons_eq_if_modifyHead, if_pos hsep', ih, List.map_cons,
          List.flatMap_nil]
      · obtain ⟨v, vs, hv⟩ := List.exists_cons_of_ne_nil (List.splitOnP_ne_nil sep l)
        rw [if_neg hx, splitOnP_append (hother x (Bool.eq_false_iff.mpr hx)).2, ih, hv, List.map_cons,
          List.modifyHead_cons, List.modifyHead_cons, List.map_cons, List.flatMap_cons]
  have hempty (w : List α) : (w.flatMap e).isEmpty = w.isEmpty := by
    cases w with
    | nil => rfl
    | cons x w =>
      have hne : e x ≠ [] := by
        cases hx : sep x with
        | true =>
          obtain ⟨b, hb, -⟩ := hsep x hx
          rw [hb]
          exact List.cons_ne_nil _ _
        | false => exact (hother x hx).1
      rw [List.flatMap_cons, List.isEmpty_cons, List.isEmpty_eq_false_iff]
      exact List.append_ne_nil_of_left_ne_nil hne _
  rw [runs, hsplit, List.filter_map]
  exact congrArg (List.map (List.flatMap e)) (List.filter_congr fun w _ => congrArg (!·) (hempty w))

end

end Pylang.Lib
