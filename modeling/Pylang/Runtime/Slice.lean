/-
Slices: what `PySlice::unpack`, `PySlice::adjust_indices` and
`PySlice::get_indices` make of a slice and a length, against Python's rule.

The rule puts each bound into the sequence and takes the positions of the range
between the bounds. `adjust_indices` does, up to the one step whose negation
has no 64 bits; `get_indices` takes `min` where a bound counted from the end
needs `max`.
-/
import Pylang.Lib.Ensures
import Pylang.Runtime.Range

namespace Pylang.Runtime

open Tagged (fitsSlong fitsSlong_iff)

/-- What stands for a bound or the step of a slice: `None`, an `int`, or any other object. -/
inductive SliceItem where
  | none
  | int (n : Int)
  | other
  deriving DecidableEq

structure PySlice where
  start : SliceItem
  stop : SliceItem
  step : SliceItem
  deriving DecidableEq

/-- How a reading of a slice ends without one. -/
inductive SliceStop where
  | typeError (message : String)
  | valueError (message : String)
  | indexError (message : String)
  /-- An assertion fails. -/
  | abort
  /-- The behaviour is undefined: signed arithmetic overflows, or the end of a vector is erased. -/
  | undefined
  deriving DecidableEq

/-- `m_start`, `m_stop` and `m_step` are checked in this order. -/
def PySlice.checkTypes (s : PySlice) : Except SliceStop Unit :=
  if s.start = .other ∨ s.stop = .other ∨ s.step = .other then
    .error (.typeError "slice indices must be integers or None or have an __index__ method")
  else .ok ()

/-- `as<PyInteger>(item)->as_i64()`, or the default for `None`. -/
def SliceItem.asI64 (item : SliceItem) (default : Int) : Except SliceStop Int :=
  match item with
  | .none => .ok default
  | .int n => if fitsSlong n then .ok n else .error .abort
  | .other => .error .abort

def PySlice.unpack (s : PySlice) : Except SliceStop (Int × Int × Int) := do
  s.checkTypes
  let step ← s.step.asI64 1
  if step = 0 then .error (.valueError "slice step cannot be zero")
  else do
    let start ← s.start.asI64 (if step < 0 then 2 ^ 63 - 1 else 0)
    let stop ← s.stop.asI64 (if step < 0 then -2 ^ 63 else 2 ^ 63 - 1)
    .ok (start, stop, step)

/-- The result of 64-bit signed arithmetic. -/
def int64 (n : Int) : Except SliceStop Int := if fitsSlong n then .ok n else .error .undefined

/-- What `adjust_indices` does to `start`, and again to `stop`. -/
def adjustBound (bound step length : Int) : Except SliceStop Int :=
  if bound < 0 then do
    let bound ← int64 (bound + length)
    .ok (if bound < 0 then (if step < 0 then -1 else 0) else bound)
  else if length ≤ bound then (if step < 0 then int64 (length - 1) else .ok length)
  else .ok bound

/-- `PySlice::adjust_indices`: the two bounds and the count. -/
def adjustIndices (start stop step length : Int) : Except SliceStop (Int × Int × Int) :=
  if step = 0 then .error .abort
  else do
    let start ← adjustBound start step length
    let stop ← adjustBound stop step length
    if step < 0 then
      if stop < start then do
        let span ← int64 (start - stop)
        let span ← int64 (span - 1)
        let magnitude ← int64 (-step)
        .ok (start, stop, ← int64 (span.tdiv magnitude + 1))
      else .ok (start, stop, 0)
    else
      if start < stop then do
        let span ← int64 (stop - start)
        let span ← int64 (span - 1)
        .ok (start, stop, ← int64 (span.tdiv step + 1))
      else .ok (start, stop, 0)

/-- What `get_indices` does to a bound; `unbounded` is what it takes for `None`. -/
def SliceItem.getBound (item : SliceItem) (unbounded lower upper length : Int) : Except SliceStop Int :=
  if item = .none then .ok unbounded
  else do
    let bound ← item.asI64 0
    if bound < 0 then do
      let bound ← int64 (bound + length)
      .ok (min bound lower)
    else .ok (min bound upper)

/-- `lower_upper` of `get_indices`. -/
def lowerUpper (step length : Int) : Except SliceStop (Int × Int) :=
  if step < 0 then do return (-1, ← int64 (length - 1)) else .ok (0, length)

/-- `PySlice::get_indices`. -/
def PySlice.getIndices (s : PySlice) (length : Int) : Except SliceStop (Int × Int × Int) := do
  s.checkTypes
  let step ← s.step.asI64 1
  if step = 0 then .error (.valueError "slice step cannot be zero")
  else do
    let (lower, upper) ← lowerUpper step length
    let start ← s.start.getBound (if 0 < step then lower else upper) lower upper length
    let stop ← s.stop.getBound (if 0 < step then upper else lower) lower upper length
    .ok (start, stop, step)

namespace SliceItem

/-- The integer, if it has 64 bits, or the default. -/
def Reads (item : SliceItem) (default n : Int) : Prop :=
  item = .none ∧ n = default ∨ item = .int n ∧ fitsSlong n = true

theorem asI64_ok {item : SliceItem} {default n : Int} : item.asI64 default = .ok n ↔ item.Reads default n := by
  unfold asI64 Reads
  cases item with
  | none =>
    constructor
    · rintro ⟨⟩
      exact .inl ⟨rfl, rfl⟩
    · rintro (⟨-, rfl⟩ | ⟨h, -⟩)
      · rfl
      · cases h
  | int m =>
    dsimp only
    split
    next h =>
      constructor
      · rintro ⟨⟩
        exact .inr ⟨rfl, h⟩
      · rintro (⟨h', -⟩ | ⟨h', -⟩) <;> cases h'
        rfl
    next h =>
      constructor
      · rintro ⟨⟩
      · rintro (⟨h', -⟩ | ⟨h', hfits⟩) <;> cases h'
        exact absurd hfits h
  | other => simp

theorem Reads.fits {item : SliceItem} {default n : Int} (h : item.Reads default n)
    (hdefault : fitsSlong default = true) : fitsSlong n = true := by
  rcases h with ⟨-, rfl⟩ | ⟨-, h⟩
  · exact hdefault
  · exact h

end SliceItem

/-! ## Python's rule -/

namespace PySlice

def lower (step : Int) : Int := if step < 0 then -1 else 0

def upper (step length : Int) : Int := if step < 0 then length - 1 else length

/-- A bound, counted from the end if it is negative, and put into the sequence. -/
def clamp (bound step length : Int) : Int :=
  if bound < 0 then max (bound + length) (lower step) else min bound (upper step length)

/-- The bound that an item of a slice stands for; `unbounded` is the one for `None`. -/
def bound (item : SliceItem) (unbounded step length : Int) : Int :=
  match item with
  | .int n => clamp n step length
  | _ => unbounded

variable (s : PySlice) (length : Int)

/-- The step, for a slice of integers and `None`. -/
def stepValue : Int := match s.step with | .int n => n | _ => 1

/-- `slice.indices`, as the range that it spans. -/
def indices : PyRange where
  start := bound s.start (if s.stepValue < 0 then upper s.stepValue length else lower s.stepValue) s.stepValue length
  stop := bound s.stop (if s.stepValue < 0 then lower s.stepValue else upper s.stepValue length) s.stepValue length
  step := s.stepValue

/-- The positions that the slice selects, in order. -/
def positions : List Int := (s.indices length).values

variable {s length}

/-! ## `adjust_indices` -/

theorem int64_of_fits {n : Int} (h : fitsSlong n = true) : int64 n = .ok n := if_pos h

theorem ends_cases (step length : Int) : step < 0 ∧ lower step = -1 ∧ upper step length = length - 1 ∨
    ¬ step < 0 ∧ lower step = 0 ∧ upper step length = length := by
  unfold lower upper
  by_cases h : step < 0
  · exact .inl ⟨h, if_pos h, if_pos h⟩
  · exact .inr ⟨h, if_neg h, if_neg h⟩

theorem clamp_bounds (bound step : Int) (h0 : 0 ≤ length) :
    lower step ≤ clamp bound step length ∧ clamp bound step length ≤ upper step length := by
  unfold clamp
  rcases ends_cases step length with ⟨-, hl, hu⟩ | ⟨-, hl, hu⟩ <;> rw [hl, hu] <;> split <;> omega

theorem adjustBound_eq {bound : Int} (step : Int) (hbound : fitsSlong bound = true) (h0 : 0 ≤ length)
    (hlength : fitsSlong length = true) : adjustBound bound step length = .ok (clamp bound step length) := by
  rw [fitsSlong_iff] at hbound hlength
  unfold adjustBound clamp lower upper
  by_cases hneg : bound < 0
  · rw [if_pos hneg, if_pos hneg, int64_of_fits (fitsSlong_iff.mpr (by omega))]
    show Except.ok _ = Except.ok _
    congr 1
    split <;> split <;> omega
  · rw [if_neg hneg, if_neg hneg]
    by_cases hle : length ≤ bound
    · rw [if_pos hle]
      split
      · rw [int64_of_fits (fitsSlong_iff.mpr (by omega)), Int.min_eq_right (by omega)]
      · rw [Int.min_eq_right hle]
    · rw [if_neg hle]
      congr 1
      split <;> omega

theorem neg_ediv_ceil {m : Int} (d : Int) (hm : 0 < m) : -(-d / m) = (d - 1) / m + 1 := by
  have hdiv := Int.mul_ediv_add_emod (d - 1) m
  have hnonneg := Int.emod_nonneg (d - 1) (Int.ne_of_gt hm)
  have hlt := Int.emod_lt_of_pos (d - 1) hm
  have hneg : -d = -((d - 1) / m + 1) * m + (m - 1 - (d - 1) % m) := by
    rw [Int.neg_mul, Int.add_mul, Int.one_mul, Int.mul_comm]
    omega
  rw [hneg, Int.add_comm, Int.add_mul_ediv_right _ _ (Int.ne_of_gt hm), Int.ediv_eq_zero_of_lt (by omega) (by omega)]
  omega

theorem len_up {r : PyRange} (hstep : 0 < r.step) :
    (r.len : Int) = if r.start < r.stop then (r.stop - r.start - 1).tdiv r.step + 1 else 0 := by
  unfold PyRange.len
  rw [PyRange.ceil_up hstep, ← Int.neg_sub, neg_ediv_ceil _ hstep]
  split
  next h =>
    have hq := Int.ediv_nonneg (a := r.stop - r.start - 1) (by omega) (Int.le_of_lt hstep)
    rw [Int.tdiv_eq_ediv_of_nonneg (by omega)]
    omega
  next h =>
    have hq := Int.ediv_neg_of_neg_of_pos (a := r.stop - r.start - 1) (by omega) hstep
    omega

theorem len_down {r : PyRange} (hstep : r.step < 0) :
    (r.len : Int) = if r.stop < r.start then (r.start - r.stop - 1).tdiv (-r.step) + 1 else 0 := by
  have hpos : 0 < -r.step := by omega
  unfold PyRange.len
  rw [PyRange.ceil_down hstep, ← Int.neg_sub r.start, neg_ediv_ceil _ hpos]
  split
  next h =>
    have hq := Int.ediv_nonneg (a := r.start - r.stop - 1) (by omega) (Int.le_of_lt hpos)
    rw [Int.tdiv_eq_ediv_of_nonneg (by omega)]
    omega
  next h =>
    have hq := Int.ediv_neg_of_neg_of_pos (a := r.start - r.stop - 1) (by omega) hpos
    omega

theorem len_eq_zero_iff {r : PyRange} (hstep : r.step ≠ 0) :
    r.len = 0 ↔ if r.step < 0 then r.start ≤ r.stop else r.stop ≤ r.start := by
  have hzero := PyRange.within_iff hstep 0
  rw [PyRange.value_zero, PyRange.withinRange] at hzero
  split at hzero
  next hneg =>
    rw [decide_eq_true_eq] at hzero
    rw [if_pos hneg]
    omega
  next hneg =>
    rw [decide_eq_true_eq] at hzero
    rw [if_neg hneg]
    omega

theorem value_mem {r : PyRange} (hstep : r.step ≠ 0) (hstart : lower r.step ≤ r.start ∧ r.start ≤ upper r.step length)
    (hstop : lower r.step ≤ r.stop ∧ r.stop ≤ upper r.step length) {k : Nat} (hk : k < r.len) :
    0 ≤ r.value k ∧ r.value k < length := by
  have hwithin := (PyRange.within_iff hstep k).mpr hk
  unfold PyRange.withinRange at hwithin
  rcases ends_cases r.step length with ⟨hneg, hl, hu⟩ | ⟨hpos, hl, hu⟩
  · rw [if_pos hneg, decide_eq_true_eq] at hwithin
    have hmul : (k : Int) * r.step ≤ 0 := Int.mul_nonpos_of_nonneg_of_nonpos (by omega) (by omega)
    have hvalue : r.value k = r.start + k * r.step := rfl
    omega
  · rw [if_neg hpos, decide_eq_true_eq] at hwithin
    have hmul : 0 ≤ (k : Int) * r.step := Int.mul_nonneg (by omega) (by omega)
    have hvalue : r.value k = r.start + k * r.step := rfl
    omega

/-- `adjust_indices` of clamped bounds: the count is the length of the range, unless the step has no negation. -/
theorem adjustIndices_eq {start stop step : Int} (hstart : fitsSlong start = true) (hstop : fitsSlong stop = true)
    (hstep : fitsSlong step = true) (hne : step ≠ 0) (h0 : 0 ≤ length) (hlength : fitsSlong length = true) :
    adjustIndices start stop step length =
      if step = -2 ^ 63 ∧ clamp stop step length < clamp start step length then .error .undefined
      else .ok (clamp start step length, clamp stop step length,
        (PyRange.mk (clamp start step length) (clamp stop step length) step).len) := by
  have hi := clamp_bounds start step h0
  have hj := clamp_bounds stop step h0
  unfold adjustIndices
  rw [if_neg hne, adjustBound_eq step hstart h0 hlength, adjustBound_eq step hstop h0 hlength]
  generalize clamp start step length = i at hi
  generalize clamp stop step length = j at hj
  rw [fitsSlong_iff] at hstep hlength
  show (if step < 0 then _ else _) = _
  rcases ends_cases step length with ⟨hneg, hl, hu⟩ | ⟨hpos, hl, hu⟩
  · rw [if_pos hneg, len_down (r := ⟨i, j, step⟩) hneg]
    dsimp only
    by_cases hlt : j < i
    · rw [if_pos hlt, if_pos hlt, int64_of_fits (fitsSlong_iff.mpr (by omega))]
      show (do let span ← int64 (i - j - 1); _) = _
      rw [int64_of_fits (fitsSlong_iff.mpr (by omega))]
      show (do let magnitude ← int64 (-step); _) = _
      by_cases hmin : step = -2 ^ 63
      · rw [if_pos ⟨hmin, hlt⟩, int64, if_neg (by rw [fitsSlong_iff]; omega)]
        rfl
      · rw [if_neg fun h => hmin h.1, int64_of_fits (fitsSlong_iff.mpr (by omega))]
        have hq := Int.tdiv_nonneg (a := i - j - 1) (b := -step) (by omega) (by omega)
        have hle := Int.tdiv_le_self (a := i - j - 1) (-step) (by omega)
        show (do let n ← int64 ((i - j - 1).tdiv (-step) + 1); _) = _
        rw [int64_of_fits (fitsSlong_iff.mpr (by omega))]
        rfl
    · rw [if_neg hlt, if_neg hlt, if_neg fun h => hlt h.2]
  · have hpos' : 0 < step := by omega
    have hmin : ¬ (step = -2 ^ 63 ∧ j < i) := by omega
    rw [if_neg hpos, len_up (r := ⟨i, j, step⟩) hpos', if_neg hmin]
    dsimp only
    by_cases hlt : i < j
    · rw [if_pos hlt, if_pos hlt, int64_of_fits (fitsSlong_iff.mpr (by omega))]
      show (do let span ← int64 (j - i - 1); _) = _
      rw [int64_of_fits (fitsSlong_iff.mpr (by omega))]
      have hq := Int.tdiv_nonneg (a := j - i - 1) (b := step) (by omega) (by omega)
      have hle := Int.tdiv_le_self (a := j - i - 1) step (by omega)
      show (do let n ← int64 ((j - i - 1).tdiv step + 1); _) = _
      rw [int64_of_fits (fitsSlong_iff.mpr (by omega))]
      rfl
    · rw [if_neg hlt, if_neg hlt]

/-! ## What `unpack` gives -/

theorem unpack_ok {start stop step : Int} (h : s.unpack = .ok (start, stop, step)) :
    s.step.Reads 1 step ∧ step ≠ 0 ∧ s.start.Reads (if step < 0 then 2 ^ 63 - 1 else 0) start ∧
      s.stop.Reads (if step < 0 then -2 ^ 63 else 2 ^ 63 - 1) stop := by
  unfold unpack at h
  obtain ⟨_, -, h⟩ := bind_eq_ok.mp h
  obtain ⟨step', hstep, h⟩ := bind_eq_ok.mp h
  split at h
  next => cases h
  next hne =>
    obtain ⟨start', hstart, h⟩ := bind_eq_ok.mp h
    obtain ⟨stop', hstop, h⟩ := bind_eq_ok.mp h
    cases h
    exact ⟨SliceItem.asI64_ok.mp hstep, hne, SliceItem.asI64_ok.mp hstart, SliceItem.asI64_ok.mp hstop⟩

/-- The ends of the 64-bit range, which `unpack` gives for `None`, are clamped to the ends of the sequence. -/
theorem indices_of_unpack {start stop step : Int} (h : s.unpack = .ok (start, stop, step)) (h0 : 0 ≤ length)
    (hlength : fitsSlong length = true) : s.indices length = ⟨clamp start step length, clamp stop step length, step⟩ := by
  obtain ⟨hstep, hne, hstart, hstop⟩ := unpack_ok h
  rw [fitsSlong_iff] at hlength
  have hvalue : s.stepValue = step := by
    unfold stepValue
    rcases hstep with ⟨hread, rfl⟩ | ⟨hread, -⟩ <;> rw [hread]
  unfold indices
  rw [hvalue]
  congr 1
  · rcases hstart with ⟨hread, rfl⟩ | ⟨hread, -⟩ <;> rw [hread] <;> dsimp only [bound]
    unfold clamp
    rcases ends_cases step length with ⟨hneg, hl, hu⟩ | ⟨hpos, hl, hu⟩ <;> rw [hl, hu]
    · rw [if_pos hneg, if_pos hneg]
      omega
    · rw [if_neg hpos, if_neg hpos]
      omega
  · rcases hstop with ⟨hread, rfl⟩ | ⟨hread, -⟩ <;> rw [hread] <;> dsimp only [bound]
    unfold clamp
    rcases ends_cases step length with ⟨hneg, hl, hu⟩ | ⟨hpos, hl, hu⟩ <;> rw [hl, hu]
    · rw [if_pos hneg, if_pos hneg]
      omega
    · rw [if_neg hpos, if_neg hpos]
      omega

/-- What is asked of `adjust_indices`: it gives bounds and a count, with no overflow, and the count first multiples of the
step are positions in the sequence, those that the slice selects. -/
def AdjustsRight (s : PySlice) (length start stop step : Int) : Prop :=
  ∃ i j n, adjustIndices start stop step length = .ok (i, j, n) ∧ 0 ≤ n ∧
    (∀ k, 0 ≤ k → k < n → 0 ≤ i + k * step ∧ i + k * step < length) ∧
    (List.range n.toNat).map (fun k : Nat => i + k * step) = s.positions length

/-- **`adjust_indices` is right** but for the step without a negation, where it selects a position. -/
theorem adjustIndices_iff (s : PySlice) (length start stop step : Int) (h : s.unpack = .ok (start, stop, step))
    (h0 : 0 ≤ length) (hlength : fitsSlong length = true) :
    s.AdjustsRight length start stop step ↔ step ≠ -2 ^ 63 ∨ s.positions length = [] := by
  obtain ⟨hstep, hne, hstart, hstop⟩ := unpack_ok h
  have hindices := indices_of_unpack h h0 hlength
  have hi := clamp_bounds start step h0
  have hj := clamp_bounds stop step h0
  have heq := adjustIndices_eq (hstart.fits (by split <;> decide)) (hstop.fits (by split <;> decide))
    (hstep.fits (by decide)) hne h0 hlength
  unfold AdjustsRight positions
  rw [heq, hindices]
  generalize clamp start step length = i at hi
  generalize clamp stop step length = j at hj
  rw [PyRange.values_eq_nil]
  constructor
  · intro h
    obtain ⟨i', j', n, hok, -⟩ := h
    by_contra hcond
    obtain ⟨hmin, hlen⟩ := not_or.mp hcond
    have hmin : step = -2 ^ 63 := not_not.mp hmin
    have hlt : ¬ i ≤ j := by
      rw [len_eq_zero_iff hne, if_pos (show step < 0 by omega)] at hlen
      exact hlen
    rw [if_pos ⟨hmin, by omega⟩] at hok
    cases hok
  · intro hcond
    have hdefined : ¬ (step = -2 ^ 63 ∧ j < i) := by
      intro h
      obtain ⟨hmin, hlt⟩ := h
      rcases hcond with hne' | hlen
      · exact hne' hmin
      · rw [len_eq_zero_iff hne, if_pos (show step < 0 by omega)] at hlen
        dsimp only at hlen
        omega
    refine ⟨i, j, _, if_neg hdefined, by omega, fun k hk0 hk => ?_, rfl⟩
    obtain ⟨m, rfl⟩ := Int.eq_ofNat_of_zero_le hk0
    exact value_mem (r := ⟨i, j, step⟩) hne hi hj (by omega)

/-- Three positions, backwards. -/
theorem adjustIndices_backwards : (⟨.none, .none, .int (-1)⟩ : PySlice).AdjustsRight 3 (2 ^ 63 - 1) (-2 ^ 63) (-1) :=
  (adjustIndices_iff _ 3 _ _ _ rfl (by decide) (by decide)).mpr (.inl (by decide))

/-- `[0][::-2**63]`. -/
theorem leastStep_overflows :
    (⟨.none, .none, .int (-2 ^ 63)⟩ : PySlice).unpack = .ok (2 ^ 63 - 1, -2 ^ 63, -2 ^ 63) ∧
      adjustIndices (2 ^ 63 - 1) (-2 ^ 63) (-2 ^ 63) 1 = .error .undefined ∧
      ¬ (⟨.none, .none, .int (-2 ^ 63)⟩ : PySlice).AdjustsRight 1 (2 ^ 63 - 1) (-2 ^ 63) (-2 ^ 63) := by
  refine ⟨rfl, rfl, ?_⟩
  intro h
  obtain ⟨i, j, n, hok, -⟩ := h
  have herror : adjustIndices (2 ^ 63 - 1) (-2 ^ 63) (-2 ^ 63) 1 = .error .undefined := rfl
  cases herror.symm.trans hok

/-! ## `get_indices` -/

/-- What is asked of `get_indices`: the bounds and the step of `slice.indices`, and the positions that `unpack` and
`adjust_indices` give. -/
structure IndicesRight (s : PySlice) (length : Int) : Prop where
  indices : s.getIndices length = .ok ((s.indices length).start, (s.indices length).stop, (s.indices length).step)
  positions : ∀ i j k start stop step i' j' n, s.getIndices length = .ok (i, j, k) → s.unpack = .ok (start, stop, step) →
    adjustIndices start stop step length = .ok (i', j', n) →
      (PyRange.mk i j k).values = (List.range n.toNat).map fun m : Nat => i' + m * step

end PySlice

namespace SliceItem

/-- An integer has 64 bits. -/
def Fits (item : SliceItem) : Prop := ∀ n, item = .int n → fitsSlong n = true

/-- An integer that counts from the end is the one before the first position, or, for a step up, the first. -/
def AtStart (item : SliceItem) (step length : Int) : Prop :=
  ∀ n, item = .int n → n < 0 → n + length = PySlice.lower step

end SliceItem

namespace PySlice

variable {s : PySlice} {length : Int}

theorem checkTypes_ok (h : s.checkTypes = .ok ()) : s.start ≠ .other ∧ s.stop ≠ .other ∧ s.step ≠ .other := by
  unfold checkTypes at h
  split at h
  next => cases h
  next hnot => exact ⟨fun he => hnot (.inl he), fun he => hnot (.inr (.inl he)), fun he => hnot (.inr (.inr he))⟩

/-- A bound is the clamped one only where `min` and `max` agree. -/
theorem getBound_ok_iff {item : SliceItem} {step : Int} (unbounded : Int) (hitem : item ≠ .other) (h0 : 0 ≤ length)
    (hlength : fitsSlong length = true) :
    item.getBound unbounded (lower step) (upper step length) length =
        .ok (bound item unbounded step length) ↔
      item.Fits ∧ item.AtStart step length := by
  rw [fitsSlong_iff] at hlength
  cases item with
  | none => exact ⟨fun _ => ⟨nofun, nofun⟩, fun _ => rfl⟩
  | other => exact absurd rfl hitem
  | int n =>
    have hbound : SliceItem.getBound (.int n) unbounded (lower step) (upper step length) length =
        if fitsSlong n then .ok (if n < 0 then min (n + length) (lower step) else min n (upper step length))
        else .error .abort := by
      unfold SliceItem.getBound SliceItem.asI64
      rw [if_neg nofun]
      by_cases hfits : fitsSlong n = true
      · have hn := fitsSlong_iff.mp hfits
        dsimp only
        rw [if_pos hfits, if_pos hfits]
        show (if n < 0 then _ else _) = _
        by_cases hneg : n < 0
        · rw [if_pos hneg, if_pos hneg, int64_of_fits (fitsSlong_iff.mpr (by omega))]
          rfl
        · rw [if_neg hneg, if_neg hneg]
      · dsimp only
        rw [if_neg hfits, if_neg hfits]
        rfl
    rw [hbound]
    unfold bound clamp
    dsimp only
    constructor
    · intro h
      split at h
      next hfits =>
        refine ⟨fun m hm => by cases hm; exact hfits, fun m hm hneg => ?_⟩
        cases hm
        have h := Except.ok.inj h
        rw [if_pos hneg, if_pos hneg] at h
        omega
      next => cases h
    · intro h
      obtain ⟨hfits, hstart⟩ := h
      rw [if_pos (hfits n rfl)]
      congr 1
      split
      next hneg =>
        have hn := hstart n rfl hneg
        omega
      next => rfl

theorem asI64_ok_iff (hstep : s.step ≠ .other) : s.step.asI64 1 = .ok s.stepValue ↔ s.step.Fits := by
  rw [SliceItem.asI64_ok]
  unfold SliceItem.Reads stepValue SliceItem.Fits
  cases h : s.step with
  | none => simp
  | int n => simp
  | other => exact absurd h hstep

theorem lowerUpper_eq (step : Int) (h0 : 0 ≤ length) (hlength : fitsSlong length = true) :
    lowerUpper step length = .ok (lower step, upper step length) := by
  rw [fitsSlong_iff] at hlength
  unfold lowerUpper lower upper
  split
  · rw [int64_of_fits (fitsSlong_iff.mpr (by omega))]
    rfl
  · rfl

theorem getIndices_ok_iff (hs : s.checkTypes = .ok ()) (hstep : s.stepValue ≠ 0) (h0 : 0 ≤ length)
    (hlength : fitsSlong length = true) :
    s.getIndices length = .ok ((s.indices length).start, (s.indices length).stop, (s.indices length).step) ↔
      s.step.Fits ∧ (s.start.Fits ∧ s.start.AtStart s.stepValue length) ∧
        s.stop.Fits ∧ s.stop.AtStart s.stepValue length := by
  obtain ⟨hstart', hstop', hstep'⟩ := checkTypes_ok hs
  have hunbounded (a b : Int) : (if 0 < s.stepValue then a else b) = if s.stepValue < 0 then b else a := by
    split <;> split <;> omega
  rw [← asI64_ok_iff hstep',
    ← getBound_ok_iff (if s.stepValue < 0 then upper s.stepValue length else lower s.stepValue) hstart' h0 hlength,
    ← getBound_ok_iff (if s.stepValue < 0 then lower s.stepValue else upper s.stepValue length) hstop' h0 hlength]
  unfold getIndices
  rw [hs]
  constructor
  · intro h
    obtain ⟨_, -, h⟩ := bind_eq_ok.mp h
    obtain ⟨step, hread, h⟩ := bind_eq_ok.mp h
    split at h
    next => cases h
    next hne =>
      obtain ⟨ends, hends, h⟩ := bind_eq_ok.mp h
      cases hends.symm.trans (lowerUpper_eq step h0 hlength)
      obtain ⟨start, hbound, h⟩ := bind_eq_ok.mp h
      obtain ⟨stop, hbound', h⟩ := bind_eq_ok.mp h
      have heq := Except.ok.inj h
      obtain rfl : step = s.stepValue := congrArg (fun t => t.2.2) heq
      obtain rfl : start = (s.indices length).start := congrArg (fun t => t.1) heq
      obtain rfl : stop = (s.indices length).stop := congrArg (fun t => t.2.1) heq
      rw [hunbounded] at hbound hbound'
      exact ⟨hread, hbound, hbound'⟩
  · intro h
    obtain ⟨hread, hbound, hbound'⟩ := h
    rw [hread]
    show (if s.stepValue = 0 then _ else _) = _
    rw [if_neg hstep, lowerUpper_eq _ h0 hlength]
    show (do let start ← s.start.getBound (if 0 < s.stepValue then _ else _) _ _ length; _) = _
    rw [hunbounded, hbound]
    show (do let stop ← s.stop.getBound (if 0 < s.stepValue then _ else _) _ _ length; _) = _
    rw [hunbounded, hbound']
    rfl

/-- **`get_indices` is right** where every integer has 64 bits and a bound that counts from the end is the first. -/
theorem indicesRight_iff (s : PySlice) (length : Int) (hs : s.checkTypes = .ok ()) (hstep : s.stepValue ≠ 0)
    (h0 : 0 ≤ length) (hlength : fitsSlong length = true) :
    s.IndicesRight length ↔ s.step.Fits ∧ (s.start.Fits ∧ s.start.AtStart s.stepValue length) ∧
      s.stop.Fits ∧ s.stop.AtStart s.stepValue length := by
  rw [← getIndices_ok_iff hs hstep h0 hlength]
  refine ⟨IndicesRight.indices, fun h => ⟨h, fun i j k start stop step i' j' n hget hunpack hadjust => ?_⟩⟩
  cases hget.symm.trans h
  obtain ⟨hread, hne, hstart, hstop⟩ := unpack_ok hunpack
  have heq := adjustIndices_eq (hstart.fits (by split <;> decide)) (hstop.fits (by split <;> decide))
    (hread.fits (by decide)) hne h0 hlength
  rw [hadjust] at heq
  have hindices := indices_of_unpack hunpack h0 hlength
  split at heq
  next => cases heq
  next =>
    cases heq
    rw [hindices]
    rfl

/-- `slice(1, 2, 1)`. -/
theorem getIndices_forwards : (⟨.int 1, .int 2, .int 1⟩ : PySlice).IndicesRight 3 := by
  refine (indicesRight_iff ⟨.int 1, .int 2, .int 1⟩ 3 rfl (by decide) (by decide) (by decide)).mpr
    ⟨?_, ⟨?_, ?_⟩, ?_, ?_⟩
  all_goals
    intro n hn
    cases hn
    decide

/-- `slice(-1, None, 1).indices(3)` begins at 2. -/
theorem fromEnd_wrong : (⟨.int (-1), .none, .int 1⟩ : PySlice).getIndices 3 = .ok (0, 3, 1) ∧
    (⟨.int (-1), .none, .int 1⟩ : PySlice).indices 3 = ⟨2, 3, 1⟩ ∧
    ¬ (⟨.int (-1), .none, .int 1⟩ : PySlice).IndicesRight 3 := by
  refine ⟨rfl, rfl, fun h => ?_⟩
  have hwrong : (⟨.int (-1), .none, .int 1⟩ : PySlice).getIndices 3 = .ok (0, 3, 1) := rfl
  cases hwrong.symm.trans h.indices

end PySlice

namespace SliceItem

/-- The integer, or the default for `None`. -/
def value (item : SliceItem) (default : Int) : Int := match item with | .int n => n | _ => default

theorem asI64_of_fits {item : SliceItem} {default : Int} (hitem : item ≠ .other) (h : item.Fits) :
    item.asI64 default = .ok (item.value default) := by
  cases item with
  | none => rfl
  | int n => exact if_pos (h n rfl)
  | other => exact absurd rfl hitem

theorem Reads.itemFits {item : SliceItem} {default n : Int} (h : item.Reads default n) : item.Fits := by
  intro m hm
  rcases h with ⟨hnone, -⟩ | ⟨hint, hfits⟩
  · cases hnone.symm.trans hm
  · cases hint.symm.trans hm
    exact hfits

end SliceItem

namespace PySlice

/-- An integer of the slice has 64 bits. -/
structure Fits (s : PySlice) : Prop where
  start : s.start.Fits
  stop : s.stop.Fits
  step : s.step.Fits

variable {s : PySlice} {length : Int}

/-! ## The positions of a slice -/

theorem bound_bounds (item : SliceItem) {unbounded : Int} (step : Int) (h0 : 0 ≤ length)
    (hunbounded : lower step ≤ unbounded ∧ unbounded ≤ upper step length) :
    lower step ≤ bound item unbounded step length ∧ bound item unbounded step length ≤ upper step length := by
  cases item with
  | int n => exact clamp_bounds n step h0
  | none => exact hunbounded
  | other => exact hunbounded

theorem indices_bounds (s : PySlice) (h0 : 0 ≤ length) :
    (lower s.stepValue ≤ (s.indices length).start ∧ (s.indices length).start ≤ upper s.stepValue length) ∧
      lower s.stepValue ≤ (s.indices length).stop ∧ (s.indices length).stop ≤ upper s.stepValue length := by
  have hends : lower s.stepValue ≤ upper s.stepValue length := by
    rcases ends_cases s.stepValue length with ⟨-, hl, hu⟩ | ⟨-, hl, hu⟩ <;> omega
  constructor
  · refine bound_bounds s.start s.stepValue h0 ?_
    split <;> omega
  · refine bound_bounds s.stop s.stepValue h0 ?_
    split <;> omega

theorem indices_bounds_one (h1 : s.stepValue = 1) (length : Nat) :
    (0 ≤ (s.indices length).start ∧ (s.indices length).start ≤ length) ∧
      0 ≤ (s.indices length).stop ∧ (s.indices length).stop ≤ length := by
  have hbounds := s.indices_bounds (show (0 : Int) ≤ length by omega)
  rcases ends_cases s.stepValue length with ⟨hneg, -, -⟩ | ⟨-, hl, hu⟩
  · omega
  · rw [hl, hu] at hbounds
    exact hbounds

theorem positions_mem (hstep : s.stepValue ≠ 0) (h0 : 0 ≤ length) {i : Int} (hi : i ∈ s.positions length) :
    0 ≤ i ∧ i < length := by
  obtain ⟨k, hk, rfl⟩ := List.mem_map.mp hi
  obtain ⟨hstart, hstop⟩ := s.indices_bounds h0
  exact value_mem (r := s.indices length) hstep hstart hstop (List.mem_range.mp hk)

/-- `l[s]`. -/
def slice {α : Type} (s : PySlice) (l : List α) : List α :=
  (s.positions l.length).filterMap fun i => l[i.toNat]?

theorem unpack_fits {bounds : Int × Int × Int} (h : s.unpack = .ok bounds) : s.Fits := by
  obtain ⟨start, stop, step⟩ := bounds
  obtain ⟨hstep, -, hstart, hstop⟩ := unpack_ok h
  exact { start := hstart.itemFits, stop := hstop.itemFits, step := hstep.itemFits }

theorem unpack_of_fits (hs : s.checkTypes = .ok ()) (hstep : s.stepValue ≠ 0) (h : s.Fits) :
    s.unpack = .ok (s.start.value (if s.stepValue < 0 then 2 ^ 63 - 1 else 0),
      s.stop.value (if s.stepValue < 0 then -2 ^ 63 else 2 ^ 63 - 1), s.stepValue) := by
  obtain ⟨hstart', hstop', hstep'⟩ := checkTypes_ok hs
  unfold unpack
  rw [hs, (asI64_ok_iff hstep').mpr h.step]
  show (if s.stepValue = 0 then _ else _) = _
  rw [if_neg hstep, SliceItem.asI64_of_fits hstart' h.start, SliceItem.asI64_of_fits hstop' h.stop]
  rfl

end PySlice

end Pylang.Runtime
