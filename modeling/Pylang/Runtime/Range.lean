/-
`range`: its iterator, the fast one of compiled loops, its subscription and its
reversal, against the `len` items `start + i * step`.

The constructor takes any integers, a step of 0 too. The length that
subscription and reversal compute is the quotient rounded to 0, and only the
upper bound of an index is checked.
-/
import Mathlib.Tactic.Ring
import Pylang.Lib.Drains
import Pylang.Tagged.RtValue

namespace Pylang.Runtime

open Lib Tagged

structure PyRange where
  start : Int
  stop : Int
  step : Int
  deriving DecidableEq

/-- What a subscription of a range with an integer comes to. A division by 0 ends the program. -/
inductive Subscription where
  | item (value : Int)
  | indexError (message : String)
  | valueError (message : String)
  | abort
  deriving DecidableEq

/-- `RtValue::from_int_or_box`. -/
def fromIntOrBox (n : Int) : RtValue :=
  if fitsTaggedInt n then .tagged (fromInt (BitVec.ofInt 64 n)) else .heap n

namespace PyRange

variable (r : PyRange)

/-- `within_range` of the iterators. -/
def withinRange (current : Int) : Bool := if r.step < 0 then current > r.stop else current < r.stop

/-- `PyRangeIterator::__next__`, from its `m_current_index`. -/
def next (current : Int) : Option (Int × Int) :=
  if r.withinRange current then some (current, current + r.step) else none

/-- `PyRangeIterator::next_fast`. -/
def nextFast (current : Int) : Option (Int × Int) :=
  if r.withinRange current then
    if fitsSlong current then some (current, current + r.step) else none
  else none

/-- `rt_iter_next` of a range iterator. -/
def rtIterNext (current : Int) : Option (RtValue × Int) :=
  (r.nextFast current).map fun (value, current) => (fromIntOrBox value, current)

/-- The quotient that `__reversed__` and `__getitem__` take for the length; none where it is a division by 0. -/
def quotient? : Option Int := if r.step = 0 then none else some ((r.stop - r.start).tdiv r.step)

/-- `PyRange::__reversed__`: the range whose iterator it returns. -/
def reversed : Option PyRange :=
  r.quotient?.map fun n => ⟨r.start + (n - 1) * r.step, r.start - r.step, -r.step⟩

/-- `PyRange::__getitem__(int64_t)`. -/
def getitemIndex (index : Int) : Subscription :=
  match r.quotient? with
  | none => .abort
  | some n =>
    let index := if index < 0 then index + n else index
    if n ≤ index then .indexError "range object index out of range" else .item (r.start + r.step * index)

/-- `PyRange::__getitem__(PyObject *)` of an integer. -/
def getitem (key : Int) : Subscription :=
  if fitsSlong key then r.getitemIndex key else .valueError "range object index too large"

/-! ## What a range is -/

/-- `max(0, ceil((stop - start) / step))`. -/
def len : Nat := (-(-(r.stop - r.start)).fdiv r.step).toNat

def value (i : Nat) : Int := r.start + i * r.step

def values : List Int := (List.range r.len).map r.value

/-- `r[i]`. -/
def subscript (i : Int) : Subscription :=
  if -(r.len : Int) ≤ i ∧ i < r.len then .item (r.value (if i < 0 then i + r.len else i).toNat)
  else .indexError "range object index out of range"

/-- The iterators, the subscription with `i` and the reversal agree on the values. -/
structure Faithful (i : Int) : Prop where
  iterates : Drains r.next r.start r.values
  subscripts : r.getitem i = r.subscript i
  reverses : ∃ r', r.reversed = some r' ∧ Drains r'.next r'.start r.values.reverse
  fast : ∃ words, Drains r.rtIterNext r.start words ∧ words.map RtValue.box = r.values

variable {r}

/-! ## The length -/

theorem ceil_up (h : 0 < r.step) : -(-(r.stop - r.start)).fdiv r.step = -((r.start - r.stop) / r.step) := by
  rw [Int.fdiv_eq_ediv_of_nonneg _ (Int.le_of_lt h), Int.neg_sub]

theorem ceil_down (h : r.step < 0) : -(-(r.stop - r.start)).fdiv r.step = -((r.stop - r.start) / -r.step) := by
  have hneg : (-(r.stop - r.start)).fdiv r.step = (r.stop - r.start).fdiv (-r.step) := by
    conv_lhs => rw [← Int.neg_neg r.step]
    exact Int.neg_fdiv_neg _ _
  rw [hneg, Int.fdiv_eq_ediv_of_nonneg _ (by omega)]

theorem within_iff (h : r.step ≠ 0) (k : Nat) : r.withinRange (r.value k) = true ↔ k < r.len := by
  unfold withinRange value len
  rcases Int.lt_or_gt_of_ne h with hneg | hpos
  · have hmul : (k : Int) * -r.step = -(k * r.step) := Int.mul_neg _ _
    rw [if_pos hneg, decide_eq_true_eq, ceil_down hneg]
    have hlt : (r.stop - r.start) / -r.step < -k ↔ r.stop - r.start < -k * -r.step :=
      Int.ediv_lt_iff_lt_mul (by omega)
    rw [Int.neg_mul, hmul] at hlt
    omega
  · rw [if_neg (by omega), decide_eq_true_eq, ceil_up hpos]
    have hlt : (r.start - r.stop) / r.step < -k ↔ r.start - r.stop < -k * r.step := Int.ediv_lt_iff_lt_mul hpos
    rw [Int.neg_mul] at hlt
    omega

theorem quotient_toNat (h : r.step ≠ 0) : ((r.stop - r.start).tdiv r.step).toNat =
    if r.step ∣ r.stop - r.start then r.len else r.len - 1 := by
  have htdiv := Int.tdiv_eq_ediv (a := r.stop - r.start) (b := r.step)
  unfold len
  rcases Int.lt_or_gt_of_ne h with hneg | hpos
  · rw [ceil_down hneg, Int.ediv_neg, Int.neg_neg]
    rw [Int.sign_eq_neg_one_of_neg hneg] at htdiv
    have hsign : 0 ≤ r.stop - r.start → (r.stop - r.start) / r.step ≤ 0 :=
      fun hspan => Int.ediv_nonpos_of_nonneg_of_nonpos hspan (Int.le_of_lt hneg)
    split_ifs at htdiv ⊢ <;> omega
  · have hceil : -((r.start - r.stop) / r.step) =
        (r.stop - r.start) / r.step + if r.step ∣ r.stop - r.start then 0 else 1 := by
      rw [← Int.neg_sub, Int.neg_ediv, Int.sign_eq_one_of_pos hpos]
      omega
    rw [ceil_up hpos, hceil]
    rw [Int.sign_eq_one_of_pos hpos] at htdiv
    have hsign : r.stop - r.start < 0 → (r.stop - r.start) / r.step < 0 := fun hspan => Int.ediv_neg_of_neg_of_pos hspan hpos
    have hsign' : 0 ≤ r.stop - r.start → 0 ≤ (r.stop - r.start) / r.step :=
      fun hspan => Int.ediv_nonneg hspan (Int.le_of_lt hpos)
    split_ifs at htdiv ⊢ <;> omega

theorem values_eq_nil : r.values = [] ↔ r.len = 0 := by
  unfold values
  rw [List.map_eq_nil_iff, List.range_eq_nil]

/-! ## Iteration -/

theorem value_zero : r.value 0 = r.start := by simp [value]

theorem value_succ (k : Nat) : r.value k + r.step = r.value (k + 1) := by
  unfold value
  rw [Int.natCast_add, Int.add_mul, Int.natCast_one, Int.one_mul, Int.add_assoc]

theorem next_of_lt (h : r.step ≠ 0) {k : Nat} (hk : k < r.len) : r.next (r.value k) = some (r.value k, r.value (k + 1)) := by
  unfold next
  rw [if_pos ((within_iff h k).mpr hk), value_succ]

theorem not_within_len (h : r.step ≠ 0) : r.withinRange (r.value r.len) = false :=
  Bool.eq_false_iff.mpr fun hw => Nat.lt_irrefl _ ((within_iff h _).mp hw)

theorem drains_next (h : r.step ≠ 0) : Drains r.next r.start r.values := by
  have hdrains := Drains.of_range r.value r.value r.len (fun k hk => next_of_lt h hk) (by simp [next, not_within_len h])
  rwa [value_zero] at hdrains

theorem not_drains_of_step_zero (h : r.step = 0) (hlt : r.start < r.stop) {l : List Int} : ¬ Drains r.next r.start l := by
  refine Drains.not_of_invariant (I := fun s => s = r.start) (fun s hs => ?_) rfl
  subst hs
  exact ⟨r.start, r.start, by simp [next, withinRange, h, hlt], rfl⟩

/-! ## The fast iterator -/

@[simp] theorem box_fromIntOrBox (n : Int) : (fromIntOrBox n).box = n := by
  unfold fromIntOrBox
  split
  next hfits =>
    have hbounds := fitsTaggedInt_iff.mp hfits
    have hslong : fitsSlong n = true := by
      rw [fitsSlong_iff]
      omega
    have hflat : (RtValue.heap n).flatten = .tagged (fromInt (BitVec.ofInt 64 n)) := if_pos (by rw [hslong, hfits]; rfl)
    rw [← hflat]
    exact box_flatten (.heap n)
  next => rfl

theorem rtIterNext_fits {s s' : Int} {w : RtValue} (h : r.rtIterNext s = some (w, s')) : fitsSlong w.box = true := by
  unfold rtIterNext nextFast at h
  split at h
  · split at h
    next hfits =>
      cases h
      rw [box_fromIntOrBox]
      exact hfits
    · cases h
  · cases h

theorem drains_rtIterNext (h : r.step ≠ 0) (hfits : ∀ k < r.len, fitsSlong (r.value k) = true) :
    Drains r.rtIterNext r.start ((List.range r.len).map fun k => fromIntOrBox (r.value k)) := by
  have hdrains : Drains r.rtIterNext (r.value 0) ((List.range r.len).map fun k => fromIntOrBox (r.value k)) :=
    Drains.of_range r.value (fun k => fromIntOrBox (r.value k)) r.len
      (fun k hk => by simp [rtIterNext, nextFast, (within_iff h k).mpr hk, hfits k hk, value_succ])
      (by simp [rtIterNext, nextFast, not_within_len h])
  rwa [value_zero] at hdrains

theorem fast_iff (h : r.step ≠ 0) : (∃ words, Drains r.rtIterNext r.start words ∧ words.map RtValue.box = r.values) ↔
    ∀ k < r.len, fitsSlong (r.value k) = true := by
  constructor
  · intro h k hk
    obtain ⟨words, hwords, heq⟩ := h
    have hall := hwords.all (P := fun w => fitsSlong w.box = true) fun _ _ _ => rtIterNext_fits
    have hmem : r.value k ∈ words.map RtValue.box := heq ▸ List.mem_map_of_mem (List.mem_range.mpr hk)
    obtain ⟨w, hw, hbox⟩ := List.mem_map.mp hmem
    exact hbox ▸ hall w hw
  · intro hfits
    exact ⟨_, drains_rtIterNext h hfits, by simp [values]⟩

/-! ## The reversal -/

theorem len_reversed {n : Int} (h : r.step ≠ 0) :
    (PyRange.mk (r.start + (n - 1) * r.step) (r.start - r.step) (-r.step)).len = n.toNat := by
  have hspan : -(r.start - r.step - (r.start + (n - 1) * r.step)) = -n * -r.step := by ring
  unfold len
  dsimp only
  rw [hspan, Int.mul_fdiv_cancel _ (Int.neg_ne_zero.mpr h), Int.neg_neg]

theorem values_reversed {n : Int} (h : r.step ≠ 0) (hn : n.toNat = r.len) :
    (PyRange.mk (r.start + (n - 1) * r.step) (r.start - r.step) (-r.step)).values = r.values.reverse := by
  refine List.ext_getElem (by simp [values, len_reversed h, hn]) fun k hk _ => ?_
  have hlen : k < r.len := by simpa [values, len_reversed h, hn] using hk
  have hn' : n = r.len := by omega
  simp only [values, List.getElem_map, List.getElem_range, List.getElem_reverse, List.length_map, List.length_range, value]
  rw [hn', show r.len - 1 - k = r.len - (1 + k) by omega, Nat.cast_sub (by omega)]
  push_cast
  ring

theorem reversed_eq (h : r.step ≠ 0) : r.reversed =
    some ⟨r.start + ((r.stop - r.start).tdiv r.step - 1) * r.step, r.start - r.step, -r.step⟩ := by
  unfold reversed quotient?
  rw [if_neg h, Option.map_some]

theorem reverses_iff (h : r.step ≠ 0) :
    (∃ r', r.reversed = some r' ∧ Drains r'.next r'.start r.values.reverse) ↔ r.step ∣ r.stop - r.start ∨ r.len = 0 := by
  have hquotient := quotient_toNat h
  rw [reversed_eq h]
  constructor
  · intro h
    obtain ⟨r', hr', hdrains⟩ := h
    cases hr'
    have hvalues := congrArg List.length (hdrains.unique (drains_next (Int.neg_ne_zero.mpr h)))
    simp only [List.length_reverse, values, List.length_map, List.length_range, len_reversed h] at hvalues
    split at hquotient
    next hdvd => exact Or.inl hdvd
    next => exact Or.inr (by omega)
  · intro hcond
    have hn : ((r.stop - r.start).tdiv r.step).toNat = r.len := by
      rcases hcond with hdvd | hzero
      · rwa [if_pos hdvd] at hquotient
      · split at hquotient <;> omega
    exact ⟨_, rfl, values_reversed h hn ▸ drains_next (Int.neg_ne_zero.mpr h)⟩

/-! ## The subscription -/

theorem getitemIndex_eq (h : r.step ≠ 0) (index : Int) : r.getitemIndex index =
    if (r.stop - r.start).tdiv r.step ≤ (if index < 0 then index + (r.stop - r.start).tdiv r.step else index) then
      .indexError "range object index out of range"
    else .item (r.start + r.step * if index < 0 then index + (r.stop - r.start).tdiv r.step else index) := by
  unfold getitemIndex quotient?
  rw [if_neg h]

theorem subscript_cases (i : Int) : (∃ n, r.subscript i = .item n) ∨ ∃ m, r.subscript i = .indexError m := by
  unfold subscript
  split
  · exact Or.inl ⟨_, rfl⟩
  · exact Or.inr ⟨_, rfl⟩

theorem step_ne_zero_of_subscripts {i : Int} (hs : r.getitem i = r.subscript i) : r.step ≠ 0 := by
  intro h
  unfold getitem getitemIndex quotient? at hs
  rw [if_pos h] at hs
  rcases r.subscript_cases i with ⟨n, hn⟩ | ⟨m, hm⟩
  · rw [hn] at hs
    split at hs <;> cases hs
  · rw [hm] at hs
    split at hs <;> cases hs

theorem subscripts_iff (h : r.step ≠ 0) (hcond : r.step ∣ r.stop - r.start ∨ r.len = 0) (i : Int) :
    r.getitem i = r.subscript i ↔ fitsSlong i = true ∧ -(r.len : Int) ≤ i := by
  have hquotient := quotient_toNat h
  have hn : ((r.stop - r.start).tdiv r.step).toNat = r.len := by
    rcases hcond with hdvd | hzero
    · rwa [if_pos hdvd] at hquotient
    · split at hquotient <;> omega
  unfold getitem subscript
  rw [getitemIndex_eq h]
  generalize (r.stop - r.start).tdiv r.step = n at hn
  constructor
  · intro heq
    split at heq
    next hfits =>
      refine ⟨hfits, ?_⟩
      by_contra hlow
      rw [if_pos (show i < 0 by omega), if_neg (show ¬ n ≤ i + n by omega), if_neg fun hboth => hlow hboth.1] at heq
      cases heq
    next => split at heq <;> cases heq
  · intro h
    obtain ⟨hfits, hlow⟩ := h
    rw [if_pos hfits]
    by_cases hneg : i < 0
    · have hn' : n = r.len := by omega
      rw [if_pos hneg, if_neg (by omega), if_pos ⟨hlow, by omega⟩, if_pos hneg, hn', value,
        Int.toNat_of_nonneg (by omega), Int.mul_comm]
    · rw [if_neg hneg]
      by_cases hlt : i < r.len
      · rw [if_neg (by omega), if_pos ⟨hlow, hlt⟩, if_neg hneg, value, Int.toNat_of_nonneg (by omega), Int.mul_comm]
      · rw [if_pos (by omega), if_neg fun hboth => hlt hboth.2]

/-- **The range is faithful** where the step divides the span, the values have 64 bits and the index is not below them. -/
theorem faithful_iff (r : PyRange) (i : Int) : r.Faithful i ↔
    r.step ≠ 0 ∧ (r.step ∣ r.stop - r.start ∨ r.len = 0) ∧ (fitsSlong i = true ∧ -(r.len : Int) ≤ i) ∧
      ∀ k < r.len, fitsSlong (r.value k) = true := by
  constructor
  · intro hr
    have h := step_ne_zero_of_subscripts hr.subscripts
    have hcond := (reverses_iff h).mp hr.reverses
    exact ⟨h, hcond, (subscripts_iff h hcond i).mp hr.subscripts, (fast_iff h).mp hr.fast⟩
  · intro h
    obtain ⟨h, hcond, hindex, hfits⟩ := h
    exact
      { iterates := drains_next h
        subscripts := (subscripts_iff h hcond i).mpr hindex
        reverses := (reverses_iff h).mpr hcond
        fast := (fast_iff h).mpr hfits }

/-- `range(0, 5, 2)[2]` is 4 and raises, and the reversal misses it. -/
theorem lastValue_missed :
    (⟨0, 5, 2⟩ : PyRange).getitem 2 = .indexError "range object index out of range" ∧
      (⟨0, 5, 2⟩ : PyRange).values = [0, 2, 4] ∧ ¬ (⟨0, 5, 2⟩ : PyRange).Faithful 2 := by
  refine ⟨by decide, by decide, fun h => ?_⟩
  exact absurd h.subscripts (by decide)

end PyRange

end Pylang.Runtime
