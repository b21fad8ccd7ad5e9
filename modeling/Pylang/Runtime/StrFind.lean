/-
`PyString::find`, `PyString::rfind` and `PyString::count`: the searches among the
bytes of a string, with bounds and results that are byte positions too. They are
the positions of the characters where all before them are ASCII.
-/
import Pylang.Lib.Cuts
import Pylang.Runtime.Affix
import Mathlib.Order.Bounds.Basic

namespace Pylang.Runtime.StrFind

open Lib (breakOn cuts Occurs)

/-- `std::string::find`, with `none` for `npos`. -/
def findFrom (value p : Bytes) (pos : Nat) : Option Nat :=
  if pos ≤ value.length then (breakOn p (value.drop pos)).map fun r => pos + r.1.length else none

/-- What is returned for a result. -/
def index : Option Nat → Int
  | some i => i
  | none => -1

/-- `PyString::find`. -/
def find (value p : Bytes) (bounds : Bounds) : Except SliceStop Int := do
  let checked ← bounds.check
  if bounds = .none then return index (findFrom value p 0)
  let positions ← Bounds.positions value.length checked
  return index ((findFrom value p (positions.1.getD 0)).filter (· < positions.2.getD value.length))

theorem findFrom_le {value p : Bytes} {pos i : Nat} (h : findFrom value p pos = some i) : pos ≤ i := by
  unfold findFrom at h
  split at h
  next =>
    obtain ⟨r, -, rfl⟩ := Option.map_eq_some_iff.mp h
    exact Nat.le_add_right pos _
  next => cases h

/-- The loop of `rfind`. -/
def rfindLoop (value p : Bytes) (endIdx startIdx : Nat) (result : Option Nat) : Option Nat :=
  if startIdx < endIdx then
    match h : findFrom value p startIdx with
    | some i => if i < endIdx then rfindLoop value p endIdx (i + 1) (some i) else result
    | none => result
  else result
termination_by endIdx - startIdx
decreasing_by
  have hle := findFrom_le h
  omega

/-- `PyString::rfind`. -/
def rfind (value p : Bytes) (bounds : Bounds) : Except SliceStop Int := do
  let checked ← bounds.check
  let positions ← Bounds.positions value.length checked
  return index (rfindLoop value p (positions.2.getD value.length) (positions.1.getD 0) none)

/-- The loop of `count`, of the bytes from `iter` to `end_it`; `none` if it goes on. -/
def countLoop (p : Bytes) : Nat → Bytes → Nat → Option Nat
  | 0, _, _ => none
  | _ + 1, [], result => some result
  | fuel + 1, c :: rest, result =>
    match breakOn p (c :: rest) with
    | some (_, after) => if p.length ≤ after.length then countLoop p fuel after (result + 1) else some (result + 1)
    | none => some result

/-- `PyString::count`. Iterators that are not in the string, or in the wrong order, are undefined. -/
def count (fuel : Nat) (value p : Bytes) (bounds : Bounds) : Except SliceStop (Option Nat) := do
  let checked ← bounds.check
  let positions ← Bounds.positions value.length checked
  let start := positions.1.getD 0
  let stop := positions.2.getD value.length
  if start ≤ stop ∧ stop ≤ value.length then return countLoop p fuel ((value.take stop).drop start) 0
  .error .undefined

/-! ## What they are for -/

/-- The positions of `p` in the part of `s` that the bounds select. -/
def places (s p : List Char) (bounds : Bounds) : Set Nat :=
  {k | ∃ i : Nat, Occurs p (bounds.window s) i ∧ (k : Int) = (bounds.slice.indices s.length).start + i}

/-- The occurrences of `p` from left to right that do not overlap. -/
def occurrences (p t : List Char) : Nat := if p = [] then t.length + 1 else (cuts p t.length t).length - 1

/-- The best one of a set, or none of an empty one. -/
def Reported (best : Set Nat → Nat → Prop) (places : Set Nat) : Option Nat → Prop
  | some i => best places i
  | none => places = ∅

/-- What is asked of the three methods. -/
structure FindsRight (s p : List Char) (bounds : Bounds) : Prop where
  find : ∃ r, find (utf8 s) (utf8 p) bounds = .ok (index r) ∧ Reported IsLeast (places s p bounds) r
  rfind : ∃ r, rfind (utf8 s) (utf8 p) bounds = .ok (index r) ∧ Reported IsGreatest (places s p bounds) r
  count : ∃ enough, ∀ fuel ≥ enough,
    count fuel (utf8 s) (utf8 p) bounds = .ok (some (occurrences p (bounds.window s)))

/-- The byte positions of `p` from `start` on and before `stop`. -/
def hits (value p : Bytes) (start stop : Nat) : Set Nat := {x | (start ≤ x ∧ x < stop) ∧ Occurs p value x}

/-- The bytes between the places. -/
def bytesBetween (s : List Char) (start stop : Nat) : Bytes := ((utf8 s).take stop).drop start

/-- The pattern is not empty, the bounds are read, and their places are in the string and in order. -/
structure Searches (s p : List Char) (bounds : Bounds) : Prop where
  ne : p ≠ []
  reads : bounds.Reads (utf8 s).length
  order : (bounds.places (utf8 s).length).1 ≤ (bounds.places (utf8 s).length).2
  inside : (bounds.places (utf8 s).length).2 ≤ (utf8 s).length

/-- Then the first occurrence has the same number by bytes and by characters, and so has the last one, and as many that do
not overlap are there. -/
structure Agrees (s p : List Char) (start stop : Nat) (bounds : Bounds) : Prop where
  first : ∀ r, Reported IsLeast (hits (utf8 s) (utf8 p) start stop) r ↔ Reported IsLeast (places s p bounds) r
  last : ∀ r, Reported IsGreatest (hits (utf8 s) (utf8 p) start stop) r ↔ Reported IsGreatest (places s p bounds) r
  number : (cuts (utf8 p) (bytesBetween s start stop).length (bytesBetween s start stop)).length =
    (cuts p (bounds.window s).length (bounds.window s)).length

/-- The byte position of a character. -/
def bytePosition (s : List Char) (i : Nat) : Nat := (utf8 (s.take i)).length

/-- An occurrence that one of the two ways of counting puts between the places has nothing but ASCII before it, and all its
bytes before the end. -/
def Aligned (s p : List Char) (start stop : Nat) : Prop :=
  ∀ i, Occurs p s i → (start ≤ bytePosition s i ∧ bytePosition s i < stop ∨ start ≤ i ∧ i + p.length ≤ stop) →
    (∀ c ∈ s.take i, isAscii c = true) ∧ i + (utf8 p).length ≤ stop

/-! ## `find` and `rfind` -/

section
variable {value p : Bytes} {start stop : Nat}

theorem findFrom_least (value p : Bytes) (pos : Nat) :
    Reported IsLeast {x | pos ≤ x ∧ Occurs p value x} (findFrom value p pos) := by
  unfold findFrom
  by_cases hpos : pos ≤ value.length
  · rw [if_pos hpos]
    have hdrop {x : Nat} (hx : pos ≤ x) (hocc : Occurs p value x) : Occurs p (value.drop pos) (x - pos) := by
      rw [Lib.occurs_drop hpos, Nat.add_sub_cancel' hx]
      exact hocc
    rcases h : breakOn p (value.drop pos) with _ | ⟨before, after⟩
    · refine Set.eq_empty_iff_forall_notMem.mpr fun x hx => ?_
      exact Lib.not_occurs_breakOn h _ (hdrop hx.1 hx.2)
    · obtain ⟨hocc, hleast⟩ := Lib.occurs_breakOn h
      refine ⟨⟨Nat.le_add_right _ _, (Lib.occurs_drop hpos).mp hocc⟩, fun x hx => ?_⟩
      have hle := hleast _ (hdrop hx.1 hx.2)
      have hpos := hx.1
      show pos + before.length ≤ x
      omega
  · rw [if_neg hpos]
    refine Set.eq_empty_iff_forall_notMem.mpr fun x hx => ?_
    have hle := hx.2.1
    have hpos := hx.1
    omega

theorem filter_least {r : Option Nat} (h : Reported IsLeast {x | start ≤ x ∧ Occurs p value x} r) :
    Reported IsLeast (hits value p start stop) (r.filter (· < stop)) := by
  cases r with
  | none =>
    refine Set.eq_empty_iff_forall_notMem.mpr fun x hx => ?_
    exact Set.eq_empty_iff_forall_notMem.mp h x ⟨hx.1.1, hx.2⟩
  | some i =>
    obtain ⟨⟨hstart, hocc⟩, hleast⟩ := h
    by_cases hi : i < stop
    · rw [show (some i).filter (· < stop) = some i from Option.filter_some_pos (decide_eq_true hi)]
      exact ⟨⟨⟨hstart, hi⟩, hocc⟩, fun x hx => hleast ⟨hx.1.1, hx.2⟩⟩
    · rw [show (some i).filter (· < stop) = none from Option.filter_some_neg (decide_eq_false hi)]
      refine Set.eq_empty_iff_forall_notMem.mpr fun x hx => ?_
      have hle : i ≤ x := hleast ⟨hx.1.1, hx.2⟩
      have hlt := hx.1.2
      omega

theorem hits_congr {startIdx : Nat} (h : ∀ x, startIdx ≤ x → x < stop → ¬ Occurs p value x) :
    hits value p start (min startIdx stop) = hits value p start stop := by
  ext x
  constructor
  · intro hx
    have hlt := hx.1.2
    exact ⟨⟨hx.1.1, by omega⟩, hx.2⟩
  · intro hx
    have hlt := hx.1.2
    have hbefore : x < startIdx := by
      by_contra hle
      exact h x (by omega) hlt hx.2
    exact ⟨⟨hx.1.1, by omega⟩, hx.2⟩

theorem rfindLoop_greatest (startIdx : Nat) (result : Option Nat) (hle : start ≤ startIdx)
    (h : Reported IsGreatest (hits value p start (min startIdx stop)) result) :
    Reported IsGreatest (hits value p start stop) (rfindLoop value p stop startIdx result) := by
  fun_induction rfindLoop value p stop startIdx result with
  | case1 startIdx result hlt i hfind hi ih =>
    have hleast := findFrom_least value p startIdx
    rw [hfind] at hleast
    obtain ⟨⟨hstart, hocc⟩, -⟩ := hleast
    refine ih (by omega) ⟨⟨⟨by omega, by omega⟩, hocc⟩, fun x hx => ?_⟩
    have hbefore := hx.1.2
    omega
  | case2 startIdx result hlt i hfind hi =>
    have hleast := findFrom_least value p startIdx
    rw [hfind] at hleast
    rwa [hits_congr fun x hx hstop hocc => ?_] at h
    have hle : i ≤ x := hleast.2 ⟨hx, hocc⟩
    omega
  | case3 startIdx result hlt hfind =>
    have hempty := findFrom_least value p startIdx
    rw [hfind] at hempty
    rwa [hits_congr fun x hx hstop hocc => Set.eq_empty_iff_forall_notMem.mp hempty x ⟨hx, hocc⟩] at h
  | case4 startIdx result hge => rwa [hits_congr fun x hx hstop => by omega] at h

end

/-! ## `count` -/

section
variable {p : Bytes}

/-- The loop counts the cuts. -/
theorem countLoop_eq (hp : p ≠ []) : ∀ {fuel : Nat} {window : Bytes} {result : Nat}, window.length < fuel →
    countLoop p fuel window result = some (result + ((cuts p window.length window).length - 1)) := by
  intro fuel
  induction fuel with
  | zero => exact fun h => absurd h (Nat.not_lt_zero _)
  | succ fuel ih =>
    intro window result hfuel
    cases window with
    | nil => rfl
    | cons c rest =>
      rw [countLoop]
      rcases h : breakOn p (c :: rest) with _ | ⟨before, after⟩
      · rw [Lib.cuts_of_no_match (Lib.breakOn_none_iff.mp h)]
        rfl
      · have hlt := Lib.length_after hp h
        have hcuts : (cuts p (c :: rest).length (c :: rest)).length = (cuts p after.length after).length + 1 := by
          rw [List.length_cons, cuts, h, List.length_cons]
          exact congrArg (fun t => t.length + 1) (Lib.cuts_of_length_le hp (Nat.le_of_lt_succ hlt) (Nat.le_refl _))
        have hne := List.length_pos_iff.mpr (Lib.cuts_ne_nil p after.length after)
        rw [hcuts]
        by_cases hle : p.length ≤ after.length
        · show (if p.length ≤ after.length then countLoop p fuel after (result + 1) else _) = _
          rw [if_pos hle, ih (by omega)]
          exact congrArg some (by omega)
        · have hnot : ¬ p <:+: after := fun hmatch => hle hmatch.length_le
          show (if p.length ≤ after.length then _ else some (result + 1)) = _
          rw [if_neg hle, Lib.cuts_of_no_match hnot]
          rfl

theorem countLoop_nil {window : Bytes} (hwindow : window ≠ []) : ∀ (fuel result : Nat),
    countLoop [] fuel window result = none := by
  obtain ⟨c, rest, rfl⟩ := List.exists_cons_of_ne_nil hwindow
  intro fuel
  induction fuel with
  | zero => exact fun _ => rfl
  | succ fuel ih =>
    intro result
    rw [countLoop, show breakOn [] (c :: rest) = some ([], c :: rest) from Lib.breakOn_append [] (c :: rest)]
    exact (if_pos (Nat.zero_le _)).trans (ih (result + 1))

end

/-! ## A call -/

section
variable {value p : Bytes} {bounds : Bounds} {checked : Option Int × Option Int} {ps : Option Nat × Option Nat}

theorem find_reported (hp : p ≠ []) (hcheck : bounds.check = .ok checked)
    (h : Bounds.positions value.length checked = .ok ps) : ∃ r, find value p bounds = .ok (index r) ∧
      Reported IsLeast (hits value p (bounds.places value.length).1 (bounds.places value.length).2) r := by
  have hplaces := Bounds.positions_places hcheck h
  rw [← hplaces]
  unfold find
  rw [hcheck]
  by_cases hnone : bounds = .none
  · subst hnone
    refine ⟨findFrom value p 0, rfl, ?_⟩
    have hsame : hits value p 0 value.length = {x | 0 ≤ x ∧ Occurs p value x} := by
      ext x
      refine and_congr_left fun hocc => ⟨fun hx => hx.1, fun hx => ⟨hx, ?_⟩⟩
      have hlength := hocc.length
      have hpos := List.length_pos_iff.mpr hp
      omega
    rw [hplaces]
    exact hsame ▸ findFrom_least value p 0
  · refine ⟨_, ?_, filter_least (findFrom_least value p (ps.1.getD 0))⟩
    show (if bounds = .none then _ else _) = _
    rw [if_neg hnone]
    show (do let positions ← Bounds.positions value.length checked; _) = _
    rw [h]
    rfl

theorem rfind_reported (hcheck : bounds.check = .ok checked) (h : Bounds.positions value.length checked = .ok ps) :
    ∃ r, rfind value p bounds = .ok (index r) ∧
      Reported IsGreatest (hits value p (bounds.places value.length).1 (bounds.places value.length).2) r := by
  rw [← Bounds.positions_places hcheck h]
  unfold rfind
  rw [hcheck]
  refine ⟨_, ?_, rfindLoop_greatest (ps.1.getD 0) none (Nat.le_refl _) ?_⟩
  · show (do let positions ← Bounds.positions value.length checked; _) = _
    rw [h]
    rfl
  · refine Set.eq_empty_iff_forall_notMem.mpr fun x hx => ?_
    have hlt := hx.1
    omega

theorem count_eq (hcheck : bounds.check = .ok checked) (h : Bounds.positions value.length checked = .ok ps)
    (fuel : Nat) : count fuel value p bounds =
      if (bounds.places value.length).1 ≤ (bounds.places value.length).2 ∧ (bounds.places value.length).2 ≤ value.length then
        .ok (countLoop p fuel ((value.take (bounds.places value.length).2).drop (bounds.places value.length).1) 0)
      else .error .undefined := by
  rw [← Bounds.positions_places hcheck h]
  unfold count
  rw [hcheck]
  show (do let positions ← Bounds.positions value.length checked; _) = _
  rw [h]
  rfl

end

/-! ## Characters -/

section
variable {s p : List Char}

theorem occurs_utf8_iff (hp : p ≠ []) {x : Nat} :
    Occurs (utf8 p) (utf8 s) x ↔ ∃ i, Occurs p s i ∧ bytePosition s i = x := by
  constructor
  · intro h
    obtain ⟨before, after, heq, hx⟩ := Lib.occurs_iff.mp h
    obtain ⟨t₁, t₂, rfl, rfl, -⟩ := utf8_infix_parts hp heq
    exact ⟨t₁.length, Lib.occurs_iff.mpr ⟨t₁, t₂, rfl, rfl⟩, by rw [bytePosition, List.take_left, hx]⟩
  · intro h
    obtain ⟨i, hi, rfl⟩ := h
    obtain ⟨t₁, t₂, rfl, rfl⟩ := Lib.occurs_iff.mp hi
    refine Lib.occurs_iff.mpr ⟨utf8 t₁, utf8 t₂, by rw [utf8_append, utf8_append], ?_⟩
    rw [bytePosition, List.take_left]

theorem le_bytePosition {i : Nat} (hi : i ≤ s.length) : i ≤ bytePosition s i := by
  have hle := length_le_utf8 (s.take i)
  rw [List.length_take, Nat.min_eq_left hi] at hle
  exact hle

theorem bytePosition_eq_iff {i : Nat} (hi : i ≤ s.length) : bytePosition s i = i ↔ ∀ c ∈ s.take i, isAscii c = true := by
  rw [← length_utf8_eq_iff, List.length_take, Nat.min_eq_left hi]
  rfl

theorem ascii_of_occurs {i j : Nat} (hi : Occurs p s i) (hj : Occurs p s j) (hlt : i < j)
    (hascii : ∀ c ∈ s.take j, isAscii c = true) : ∀ c ∈ p, isAscii c = true := by
  have hat : ∀ k : Nat, ∀ c, p[k]? = some c → isAscii c = true := by
    intro k
    induction k using Nat.strong_induction_on with
    | h k ih =>
      intro c hc
      have hk := (List.getElem?_eq_some_iff.mp hc).1
      have hs := hi.getElem? hk
      by_cases hbefore : i + k < j
      · refine hascii c (List.mem_of_getElem? (?_ : (s.take j)[i + k]? = some c))
        rw [List.getElem?_take_of_lt hbefore, hs, hc]
      · refine ih (i + k - j) (by omega) c ?_
        rw [← hj.getElem? (by omega), show j + (i + k - j) = i + k by omega, hs, hc]
  exact fun c hc => by
    obtain ⟨k, hk⟩ := List.mem_iff_getElem?.mp hc
    exact hat k c hk

end

/-! ## Characters and bytes -/

section
variable {s p : List Char} {start stop : Nat}

theorem utf8_ne (hp : p ≠ []) : utf8 p ≠ [] := by
  intro h
  have hle := length_le_utf8 p
  rw [h] at hle
  exact hp (List.eq_nil_of_length_eq_zero (Nat.le_zero.mp hle))

theorem hits_of_aligned (hp : p ≠ []) (h : Aligned s p start stop) :
    hits (utf8 s) (utf8 p) start stop = {k | start ≤ k ∧ Occurs p s k ∧ k + p.length ≤ stop} := by
  have hle := length_le_utf8 p
  have hpos := List.length_pos_iff.mpr hp
  ext x
  constructor
  · intro hx
    obtain ⟨hbetween, hocc⟩ := hx
    obtain ⟨i, hi, rfl⟩ := (occurs_utf8_iff hp).mp hocc
    obtain ⟨hascii, hend⟩ := h i hi (.inl hbetween)
    rw [(bytePosition_eq_iff hi.1).mpr hascii] at hbetween ⊢
    exact ⟨hbetween.1, hi, by omega⟩
  · intro hx
    obtain ⟨hstart, hi, hstop⟩ := hx
    obtain ⟨hascii, hend⟩ := h x hi (.inr ⟨hstart, hstop⟩)
    exact ⟨⟨hstart, by omega⟩, (occurs_utf8_iff hp).mpr ⟨x, hi, (bytePosition_eq_iff hi.1).mpr hascii⟩⟩

theorem length_cuts_aligned (hp : p ≠ []) (h : Aligned s p start stop) {t : List Char}
    (ht : ∀ i, Occurs p t i ↔ Occurs p s (start + i) ∧ start + i + p.length ≤ stop) (limit : Nat) :
    (cuts (utf8 p) limit (bytesBetween s start stop)).length = (cuts p limit t).length := by
  have hle := length_le_utf8 p
  have hhits := hits_of_aligned hp h
  refine (Lib.length_cuts_congr hp (utf8_ne hp) (fun i => ?_) fun i j hi hj hlt => ?_).symm
  · rw [ht, bytesBetween, Lib.occurs_part (utf8_ne hp)]
    constructor
    · intro hi
      have hmem : start + i ∈ hits (utf8 s) (utf8 p) start stop := by
        rw [hhits]
        exact ⟨Nat.le_add_right _ _, hi⟩
      exact ⟨hmem.2, (h _ hi.1 (.inr ⟨Nat.le_add_right _ _, hi.2⟩)).2⟩
    · intro hi
      have hpos := List.length_pos_iff.mpr (utf8_ne hp)
      have hmem : start + i ∈ hits (utf8 s) (utf8 p) start stop := ⟨⟨Nat.le_add_right _ _, by omega⟩, hi.1⟩
      rw [hhits] at hmem
      exact hmem.2
  · rw [ht] at hi hj
    have hascii := (h _ hj.1 (.inr ⟨Nat.le_add_right _ _, hj.2⟩)).1
    exact (length_utf8_eq_iff.mpr (ascii_of_occurs hi.1 hj.1 (Nat.add_lt_add_left hlt start) hascii)).symm

end

/-! ## The part that the bounds select -/

section
variable {s p : List Char} {bounds : Bounds} {checked : Option Int × Option Int}

theorem place_inside {size : Nat} {m : Int} (h : Bounds.place size m ≤ size) :
    0 ≤ m ∧ m = Bounds.place size m := by
  unfold Bounds.place at h ⊢
  split at h <;> omega

/-- A slice with two places in order starts and stops at them. -/
theorem indices_of_places (hcheck : bounds.check = .ok checked)
    (horder : (bounds.places (utf8 s).length).1 ≤ (bounds.places (utf8 s).length).2)
    (hinside : (bounds.places (utf8 s).length).2 ≤ (utf8 s).length) :
    (bounds.slice.indices s.length).start = min (bounds.places (utf8 s).length).1 s.length ∧
      (bounds.slice.indices s.length).stop = min (bounds.places (utf8 s).length).2 s.length := by
  have hle := length_le_utf8 s
  have hint {m : Int} (hm : Bounds.place (utf8 s).length m ≤ (utf8 s).length) :
      PySlice.bound (.int m) 0 1 s.length = min (Bounds.place (utf8 s).length m) s.length := by
    obtain ⟨h0, hplace⟩ := place_inside hm
    refine (if_neg (show ¬ m < 0 by omega)).trans ?_
    show min m s.length = _
    omega
  have hall : (s.length : Int) = (min (utf8 s).length s.length : Nat) := by omega
  cases bounds with
  | none =>
    refine ⟨?_, hall⟩
    show (0 : Int) = (min 0 s.length : Nat)
    omega
  | start m =>
    cases m with
    | int m => exact ⟨hint (Nat.le_trans horder hinside), hall⟩
    | none => cases hcheck
    | other => cases hcheck
  | both m n =>
    cases m with
    | int m =>
      cases n with
      | int n => exact ⟨hint (Nat.le_trans horder hinside), hint hinside⟩
      | none => cases hcheck
      | other => cases hcheck
    | none => cases hcheck
    | other => cases hcheck

theorem slice_stepValue (bounds : Bounds) : bounds.slice.stepValue = 1 := by cases bounds <;> rfl

theorem occurs_window (hp : p ≠ []) (hcheck : bounds.check = .ok checked)
    (horder : (bounds.places (utf8 s).length).1 ≤ (bounds.places (utf8 s).length).2)
    (hinside : (bounds.places (utf8 s).length).2 ≤ (utf8 s).length) (i : Nat) :
    Occurs p (bounds.window s) i ↔ Occurs p s ((bounds.places (utf8 s).length).1 + i) ∧
      (bounds.places (utf8 s).length).1 + i + p.length ≤ (bounds.places (utf8 s).length).2 := by
  have hpos := List.length_pos_iff.mpr hp
  obtain ⟨hstart, hstop⟩ := indices_of_places hcheck horder hinside
  rw [Bounds.window, PyString.slice_one (slice_stepValue bounds), Lib.occurs_part hp, hstart, hstop]
  by_cases hle : (bounds.places (utf8 s).length).1 ≤ s.length
  · rw [Int.toNat_natCast, Int.toNat_natCast, Nat.min_eq_left hle]
    refine and_congr_right fun hocc => ?_
    have hlength := hocc.length
    omega
  · refine iff_of_false (fun h => ?_) fun h => ?_
    · have hlength := h.1.length
      omega
    · have hlength := h.1.length
      omega

theorem places_eq (hp : p ≠ []) (hcheck : bounds.check = .ok checked)
    (horder : (bounds.places (utf8 s).length).1 ≤ (bounds.places (utf8 s).length).2)
    (hinside : (bounds.places (utf8 s).length).2 ≤ (utf8 s).length) :
    places s p bounds = {k | (bounds.places (utf8 s).length).1 ≤ k ∧ Occurs p s k ∧
      k + p.length ≤ (bounds.places (utf8 s).length).2} := by
  have hstart := (indices_of_places hcheck horder hinside).1
  ext k
  constructor
  · intro hk
    obtain ⟨i, hi, hk⟩ := hk
    rw [occurs_window hp hcheck horder hinside] at hi
    have hlength := hi.1.length
    rw [hstart] at hk
    have heq : k = (bounds.places (utf8 s).length).1 + i := by omega
    rw [heq]
    exact ⟨Nat.le_add_right _ _, hi⟩
  · intro hk
    obtain ⟨hle, hocc, hend⟩ := hk
    have hlength := hocc.length
    refine ⟨k - (bounds.places (utf8 s).length).1, ?_, by rw [hstart]; omega⟩
    rw [occurs_window hp hcheck horder hinside, Nat.add_sub_cancel' hle]
    exact ⟨hocc, hend⟩

end

/-! ## The three together -/

section
variable {s p : List Char} {bounds : Bounds}

theorem index_injective {r r' : Option Nat} (h : index r = index r') : r = r' := by
  cases r with
  | none =>
    cases r' with
    | none => rfl
    | some j =>
      have hj : (-1 : Int) = j := h
      omega
  | some i =>
    cases r' with
    | none =>
      have hi : (i : Int) = -1 := h
      omega
    | some j => exact congrArg some (Int.ofNat_inj.mp h)

theorem Reported.unique {best : Set Nat → Nat → Prop} (hmem : ∀ {A x}, best A x → x ∈ A)
    (hbest : ∀ {A x y}, best A x → best A y → x = y) {A : Set Nat} {r r' : Option Nat} (h : Reported best A r)
    (h' : Reported best A r') : r = r' := by
  cases r with
  | none =>
    cases r' with
    | none => rfl
    | some y => exact absurd (hmem h') (Set.eq_empty_iff_forall_notMem.mp h y)
  | some x =>
    cases r' with
    | none => exact absurd (hmem h) (Set.eq_empty_iff_forall_notMem.mp h' x)
    | some y => exact congrArg some (hbest h h')

theorem agrees_of_aligned (h : Searches s p bounds)
    (haligned : Aligned s p (bounds.places (utf8 s).length).1 (bounds.places (utf8 s).length).2) :
    Agrees s p (bounds.places (utf8 s).length).1 (bounds.places (utf8 s).length).2 bounds := by
  obtain ⟨checked, hcheck, -⟩ := h.reads
  have hplaces := places_eq h.ne hcheck h.order h.inside
  rw [← hits_of_aligned h.ne haligned] at hplaces
  refine { first := fun r => by rw [hplaces], last := fun r => by rw [hplaces], number := ?_ }
  have hcuts := length_cuts_aligned h.ne haligned (occurs_window h.ne hcheck h.order h.inside)
    ((bytesBetween s (bounds.places (utf8 s).length).1 (bounds.places (utf8 s).length).2).length +
      (bounds.window s).length)
  rwa [Lib.cuts_of_length_le (utf8_ne h.ne) (Nat.le_add_right _ _) (Nat.le_refl _),
    Lib.cuts_of_length_le h.ne (Nat.le_add_left _ _) (Nat.le_refl (bounds.window s).length)] at hcuts

theorem findsRight_of_agrees (h : Searches s p bounds)
    (hagrees : Agrees s p (bounds.places (utf8 s).length).1 (bounds.places (utf8 s).length).2 bounds) :
    FindsRight s p bounds := by
  obtain ⟨checked, hcheck, ps, hps⟩ := h.reads
  obtain ⟨r, hfind, hleast⟩ := find_reported (utf8_ne h.ne) hcheck hps
  obtain ⟨r', hrfind, hgreatest⟩ := rfind_reported (p := utf8 p) hcheck hps
  refine { find := ⟨r, hfind, (hagrees.first r).mp hleast⟩, rfind := ⟨r', hrfind, (hagrees.last r').mp hgreatest⟩,
           count := ⟨(utf8 s).length + 1, fun fuel hfuel => ?_⟩ }
  have hlt : (bytesBetween s (bounds.places (utf8 s).length).1 (bounds.places (utf8 s).length).2).length < fuel := by
    rw [bytesBetween, List.length_drop, List.length_take]
    omega
  rw [count_eq hcheck hps, if_pos ⟨h.order, h.inside⟩]
  refine congrArg Except.ok ((countLoop_eq (utf8_ne h.ne) hlt).trans ?_)
  rw [hagrees.number, Nat.zero_add, occurrences, if_neg h.ne]

theorem searches_of_findsRight (h : FindsRight s p bounds) : Searches s p bounds := by
  obtain ⟨enough, hcount⟩ := h.count
  have hcount := hcount (enough + 1) (Nat.le_succ _)
  obtain ⟨checked, hcheck, hcount'⟩ := bind_eq_ok.mp hcount
  obtain ⟨ps, hps, -⟩ := bind_eq_ok.mp hcount'
  rw [count_eq hcheck hps] at hcount
  have hin : (bounds.places (utf8 s).length).1 ≤ (bounds.places (utf8 s).length).2 ∧
      (bounds.places (utf8 s).length).2 ≤ (utf8 s).length := by
    by_contra hout
    rw [if_neg hout] at hcount
    cases hcount
  refine { ne := fun hp => ?_, reads := ⟨checked, hcheck, ps, hps⟩, order := hin.1, inside := hin.2 }
  subst hp
  rw [if_pos hin] at hcount
  by_cases hpart : ((utf8 s).take (bounds.places (utf8 s).length).2).drop (bounds.places (utf8 s).length).1 = []
  · rw [hpart] at hcount
    have hzero : 0 = (bounds.window s).length + 1 := Option.some.inj (Except.ok.inj hcount)
    omega
  · rw [show utf8 [] = [] from rfl, countLoop_nil hpart] at hcount
    cases hcount

theorem agrees_of_findsRight (h : FindsRight s p bounds) :
    Agrees s p (bounds.places (utf8 s).length).1 (bounds.places (utf8 s).length).2 bounds := by
  have hsearches := searches_of_findsRight h
  obtain ⟨checked, hcheck, ps, hps⟩ := hsearches.reads
  have hne := utf8_ne hsearches.ne
  refine { first := ?_, last := ?_, number := ?_ }
  · obtain ⟨r, hr, hplaces⟩ := h.find
    obtain ⟨r', hr', hhits⟩ := find_reported hne hcheck hps
    obtain rfl := index_injective (Except.ok.inj (hr.symm.trans hr'))
    have hunique {A : Set Nat} {q q' : Option Nat} (hq : Reported IsLeast A q) (hq' : Reported IsLeast A q') : q = q' :=
      Reported.unique (fun hx => hx.1) (fun hx hy => hx.unique hy) hq hq'
    exact fun q => ⟨fun hq => hunique hhits hq ▸ hplaces, fun hq => hunique hplaces hq ▸ hhits⟩
  · obtain ⟨r, hr, hplaces⟩ := h.rfind
    obtain ⟨r', hr', hhits⟩ := rfind_reported (p := utf8 p) hcheck hps
    obtain rfl := index_injective (Except.ok.inj (hr.symm.trans hr'))
    have hunique {A : Set Nat} {q q' : Option Nat} (hq : Reported IsGreatest A q) (hq' : Reported IsGreatest A q') :
        q = q' := Reported.unique (fun hx => hx.1) (fun hx hy => hx.unique hy) hq hq'
    exact fun q => ⟨fun hq => hunique hhits hq ▸ hplaces, fun hq => hunique hplaces hq ▸ hhits⟩
  · obtain ⟨enough, hcount⟩ := h.count
    have hcount := hcount (enough + ((utf8 s).length + 1)) (Nat.le_add_right _ _)
    have hlt : (bytesBetween s (bounds.places (utf8 s).length).1 (bounds.places (utf8 s).length).2).length <
        enough + ((utf8 s).length + 1) := by
      rw [bytesBetween, List.length_drop, List.length_take]
      omega
    rw [count_eq hcheck hps, if_pos ⟨hsearches.order, hsearches.inside⟩, occurrences, if_neg hsearches.ne] at hcount
    have heq := Option.some.inj ((countLoop_eq hne hlt).symm.trans (Except.ok.inj hcount))
    have hpos := List.length_pos_iff.mpr (Lib.cuts_ne_nil (utf8 p)
      (bytesBetween s (bounds.places (utf8 s).length).1 (bounds.places (utf8 s).length).2).length
      (bytesBetween s (bounds.places (utf8 s).length).1 (bounds.places (utf8 s).length).2))
    have hpos' := List.length_pos_iff.mpr (Lib.cuts_ne_nil p (bounds.window s).length (bounds.window s))
    omega

theorem exists_last (h : FindsRight s p bounds) {x : Nat}
    (hx : x ∈ hits (utf8 s) (utf8 p) (bounds.places (utf8 s).length).1 (bounds.places (utf8 s).length).2) :
    ∃ m, m ∈ places s p bounds ∧
      ∀ y ∈ hits (utf8 s) (utf8 p) (bounds.places (utf8 s).length).1 (bounds.places (utf8 s).length).2, y ≤ m := by
  obtain ⟨r, -, hplaces⟩ := h.rfind
  have hhits := ((agrees_of_findsRight h).last r).mpr hplaces
  cases r with
  | none => exact absurd hx (Set.eq_empty_iff_forall_notMem.mp hhits x)
  | some m => exact ⟨m, hplaces.1, fun y hy => hhits.2 hy⟩

/-- Without bounds, or in an ASCII string, they are right only where the occurrences are aligned. -/
theorem aligned_of_findsRight (hplain : bounds = .none ∨ ∀ c ∈ s, isAscii c = true) (h : FindsRight s p bounds) :
    Aligned s p (bounds.places (utf8 s).length).1 (bounds.places (utf8 s).length).2 := by
  obtain ⟨hp, ⟨checked, hcheck, ps, hps⟩, horder, hinside⟩ := searches_of_findsRight h
  intro i hi hbetween
  have hpos := List.length_pos_iff.mpr (utf8_ne hp)
  have hbytes {k : Nat} (hk : Occurs p s k) : Occurs (utf8 p) (utf8 s) (bytePosition s k) :=
    (occurs_utf8_iff hp).mpr ⟨k, hk, rfl⟩
  rcases hplain with rfl | hascii
  · have hhit {k : Nat} (hk : Occurs p s k) : bytePosition s k ∈ hits (utf8 s) (utf8 p) 0 (utf8 s).length := by
      have hlength := (hbytes hk).length
      exact ⟨⟨Nat.zero_le _, by omega⟩, hbytes hk⟩
    obtain ⟨m, hm, hlast⟩ := exists_last h (hhit hi)
    rw [places_eq hp hcheck horder hinside] at hm
    have hocc := hm.2.1
    -- the last one is where its bytes are, so nothing but ASCII is before it, nor before the others
    have heq := Nat.le_antisymm (hlast _ (hhit hocc)) (le_bytePosition hocc.1)
    have hall := (bytePosition_eq_iff hocc.1).mp heq
    have hle : i ≤ m := Nat.le_trans (le_bytePosition hi.1) (hlast _ (hhit hi))
    have htake : ∀ c ∈ s.take i, isAscii c = true := fun c hc =>
      hall c (List.take_subset_take_left s hle hc)
    have hlength := (hbytes hi).length
    rw [(bytePosition_eq_iff hi.1).mpr htake] at hlength
    exact ⟨htake, hlength⟩
  · have hat {k : Nat} (hk : k ≤ s.length) : bytePosition s k = k :=
      (bytePosition_eq_iff hk).mpr fun c hc => hascii c (List.mem_of_mem_take hc)
    have hlength : (utf8 p).length = p.length :=
      length_utf8_eq_iff.mpr fun c hc => hascii c ((Lib.infix_of_occurs hi).subset hc)
    refine ⟨fun c hc => hascii c (List.mem_of_mem_take hc), ?_⟩
    rw [hlength]
    rcases hbetween with hbetween | hbetween
    · obtain ⟨m, hm, hlast⟩ := exists_last h ⟨hbetween, hbytes hi⟩
      have hle := hlast _ ⟨hbetween, hbytes hi⟩
      rw [places_eq hp hcheck horder hinside] at hm
      rw [hat hi.1] at hle
      have hend := hm.2.2
      omega
    · exact hbetween.2

/-- **`find`, `rfind` and `count` are right** where the pattern is not empty and the bytes agree with the characters. They do
if the occurrences are aligned; without bounds, or in an ASCII string, only then. -/
theorem findsRight_iff (s p : List Char) (bounds : Bounds) :
    (FindsRight s p bounds ↔ Searches s p bounds ∧
      Agrees s p (bounds.places (utf8 s).length).1 (bounds.places (utf8 s).length).2 bounds) ∧
    (Searches s p bounds → Aligned s p (bounds.places (utf8 s).length).1 (bounds.places (utf8 s).length).2 →
      FindsRight s p bounds) ∧
    ((bounds = .none ∨ ∀ c ∈ s, isAscii c = true) → FindsRight s p bounds →
      Aligned s p (bounds.places (utf8 s).length).1 (bounds.places (utf8 s).length).2) := by
  refine ⟨⟨fun h => ?_, fun h => findsRight_of_agrees h.1 h.2⟩, fun h haligned => ?_, aligned_of_findsRight⟩
  · exact ⟨searches_of_findsRight h, agrees_of_findsRight h⟩
  · exact findsRight_of_agrees h (agrees_of_aligned h haligned)

/-- `"aé".find("é")` and the others. -/
theorem findsRight_last : FindsRight ['a', 'é'] ['é'] .none := by
  refine (findsRight_iff _ _ _).2.1 { ne := List.cons_ne_nil _ _, reads := ⟨_, rfl, _, rfl⟩, order := ?_, inside := ?_ } ?_
  · decide
  · decide
  · intro i hi _
    have hlength : i + 1 ≤ 2 := hi.length
    have hcases : i = 0 ∨ i = 1 := by omega
    rcases hcases with rfl | rfl
    · exact absurd hi.2 (by decide)
    · exact ⟨List.all_eq_true.mp rfl, by decide⟩

/-- `"éa".find("a")`. -/
theorem byte_position : find (utf8 ['é', 'a']) (utf8 ['a']) .none = .ok 2 ∧ 1 ∈ places ['é', 'a'] ['a'] .none ∧
    ¬ FindsRight ['é', 'a'] ['a'] .none := by
  have hfind : find (utf8 ['é', 'a']) (utf8 ['a']) .none = .ok 2 := by decide
  have hplace : 1 ∈ places ['é', 'a'] ['a'] .none := ⟨1, ⟨by decide, by decide⟩, rfl⟩
  refine ⟨hfind, hplace, fun h => ?_⟩
  obtain ⟨r, hr, hleast⟩ := h.find
  obtain rfl : some 2 = r := index_injective (Except.ok.inj (hfind.symm.trans hr))
  exact absurd (hleast.2 hplace) (by decide)

end

end Pylang.Runtime.StrFind
