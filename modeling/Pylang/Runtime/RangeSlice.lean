/-
`range` subscribed with a slice, against the slice of the list of its items.

The bounds of the slice are taken as offsets into the range as they stand: none
is counted from the end, and none is put into the range. An open end, and an end
of the 64-bit range, is the offset -1, but for the start of a step up.
-/
import Pylang.Runtime.Slice

namespace Pylang.Runtime

open Lib Tagged

/-- `PyRange::__getitem__(PyObject *)` of a slice. -/
def PyRange.getitemSlice (r : PyRange) (s : PySlice) : Except SliceStop PyRange := do
  let (start, stop, step) ← s.unpack
  let start := if start = 2 ^ 63 - 1 then -1 else start
  let stop := if stop = -2 ^ 63 ∨ stop = 2 ^ 63 - 1 then -1 else stop
  .ok ⟨r.start + start * r.step, r.start + stop * r.step, step * r.step⟩

namespace PySlice

variable (s : PySlice)

/-- The start, not counted from the end. -/
def startOffset : Int :=
  match s.start with
  | .int n => if n = 2 ^ 63 - 1 then -1 else n
  | _ => if s.stepValue < 0 then -1 else 0

/-- The stop, not counted from the end. -/
def stopOffset : Int :=
  match s.stop with
  | .int n => if n = -2 ^ 63 ∨ n = 2 ^ 63 - 1 then -1 else n
  | _ => -1

/-- The offsets that the slice spans as it stands. -/
def offsets : PyRange := ⟨s.startOffset, s.stopOffset, s.stepValue⟩

/-- The stop of a step down ends at the right position: it is open, or before the start and no offset is selected between
it and where it is counted from the end. -/
def StopsDown (item : SliceItem) (first last step length : Int) : Prop :=
  item = .none ∨ ∃ n, item = .int n ∧ n < first ∧
    (0 ≤ n ∨ n + length < first ∧ ∀ m : Nat, ¬ (last < first + m * step ∧ first + m * step ≤ max (n + length) (-1)))

/-- The slice selects the same whether its bounds are counted from the end and put into the sequence or not. -/
def Plain (length : Int) : Prop :=
  s.offsets.values = [] ∧ s.positions length = [] ∨
    (0 ≤ s.startOffset ∧ s.startOffset < length) ∧
      if s.stepValue < 0 then s.stopOffset < s.startOffset ∧
        StopsDown s.stop s.startOffset s.stopOffset s.stepValue length
      else s.startOffset < s.stopOffset ∧
        ∀ m : Nat, ¬ (length ≤ s.startOffset + m * s.stepValue ∧ s.startOffset + m * s.stepValue < s.stopOffset)

end PySlice

namespace PyRange

/-! ## Ranges with one step -/

theorem values_getElem? (r : PyRange) (k : Nat) : r.values[k]? = if k < r.len then some (r.value k) else none := by
  unfold values
  rw [List.getElem?_map]
  split
  next hk => rw [List.getElem?_range hk, Option.map_some]
  next hk => rw [List.getElem?_eq_none (by rw [List.length_range]; omega), Option.map_none]

theorem values_eq_iff (r r' : PyRange) (hstep : r.step = r'.step) :
    r.values = r'.values ↔ r.len = r'.len ∧ (r.len = 0 ∨ r.start = r'.start) := by
  constructor
  · intro h
    have hlen : r.len = r'.len := by simpa [values] using congrArg List.length h
    refine ⟨hlen, ?_⟩
    by_cases hzero : r.len = 0
    · exact .inl hzero
    · have hhead := congrArg (·[0]?) h
      simp only [values_getElem?] at hhead
      rw [if_pos (by omega), if_pos (by omega), value_zero, value_zero] at hhead
      exact .inr (Option.some.inj hhead)
  · rintro ⟨hlen, hzero | hstart⟩
    · rw [values_eq_nil.mpr hzero, values_eq_nil.mpr (hlen ▸ hzero)]
    · have hvalue : r.value = r'.value := by
        funext k
        unfold value
        rw [hstart, hstep]
      rw [values, values, hlen, hvalue]

theorem len_eq_iff {r r' : PyRange} (hne : r.step ≠ 0) (hstep : r.step = r'.step) (hstart : r.start = r'.start) :
    r.len = r'.len ↔ ∀ m : Nat, r.withinRange (r.value m) = r'.withinRange (r.value m) := by
  have hvalue : r.value = r'.value := by
    funext k
    unfold value
    rw [hstart, hstep]
  have hwithin (m : Nat) : (r.withinRange (r.value m) = true ↔ m < r.len) ∧
      (r'.withinRange (r.value m) = true ↔ m < r'.len) :=
    ⟨within_iff hne m, hvalue ▸ within_iff (hstep ▸ hne) m⟩
  constructor
  · intro h m
    rw [Bool.eq_iff_iff, (hwithin m).1, (hwithin m).2, h]
  · intro h
    have hlt (m : Nat) : m < r.len ↔ m < r'.len := by rw [← (hwithin m).1, ← (hwithin m).2, h]
    have hle := hlt r.len
    have hle' := hlt r'.len
    omega

theorem values_scale (start stop step a : Int) {m : Int} (hm : m ≠ 0) :
    (PyRange.mk (a + start * m) (a + stop * m) (step * m)).values = (PyRange.mk start stop step).values.map (a + · * m) := by
  have hspan : -(a + stop * m - (a + start * m)) = m * -(stop - start) := by ring
  have hlen : (PyRange.mk (a + start * m) (a + stop * m) (step * m)).len = (PyRange.mk start stop step).len := by
    unfold len
    dsimp only
    rw [hspan, Int.mul_comm step]
    rcases Int.lt_or_gt_of_ne hm with hneg | hpos
    · rw [← Int.neg_fdiv_neg, ← Int.neg_mul, ← Int.neg_mul, Int.mul_fdiv_mul_of_pos _ _ (by omega)]
    · rw [Int.mul_fdiv_mul_of_pos _ _ hpos]
  unfold values
  rw [hlen, List.map_map]
  refine List.map_congr_left fun k _ => ?_
  show a + start * m + k * (step * m) = a + (start + k * step) * m
  ring

end PyRange

namespace PySlice

variable {s : PySlice} {length : Int}

theorem slice_values (r : PyRange) (hstep : s.stepValue ≠ 0) :
    s.slice r.values = (s.positions r.len).map (r.start + · * r.step) := by
  have hlength : (r.values.length : Int) = r.len := by simp [PyRange.values]
  unfold slice
  rw [hlength, ← List.filterMap_eq_map]
  refine List.filterMap_congr fun i hi => ?_
  obtain ⟨h0, hlt⟩ := positions_mem hstep (by omega) hi
  rw [PyRange.values_getElem?, if_pos (by omega)]
  unfold PyRange.value
  rw [Int.toNat_of_nonneg h0]
  rfl

/-! ## The offsets -/

theorem startOffset_eq (s : PySlice) : (if s.start.value (if s.stepValue < 0 then 2 ^ 63 - 1 else 0) = 2 ^ 63 - 1 then -1
    else s.start.value (if s.stepValue < 0 then 2 ^ 63 - 1 else 0)) = s.startOffset := by
  unfold startOffset SliceItem.value
  cases s.start with
  | int n => rfl
  | none =>
    dsimp only
    split <;> rfl
  | other =>
    dsimp only
    split <;> rfl

theorem stopOffset_eq (s : PySlice) :
    (if s.stop.value (if s.stepValue < 0 then -2 ^ 63 else 2 ^ 63 - 1) = -2 ^ 63 ∨
        s.stop.value (if s.stepValue < 0 then -2 ^ 63 else 2 ^ 63 - 1) = 2 ^ 63 - 1 then -1
      else s.stop.value (if s.stepValue < 0 then -2 ^ 63 else 2 ^ 63 - 1)) = s.stopOffset := by
  unfold stopOffset SliceItem.value
  cases s.stop with
  | int n => rfl
  | none =>
    dsimp only
    split <;> rfl
  | other =>
    dsimp only
    split <;> rfl

theorem getitemSlice_eq (r : PyRange) (hs : s.checkTypes = .ok ()) (hstep : s.stepValue ≠ 0) (h : s.Fits) :
    r.getitemSlice s = .ok ⟨r.start + s.startOffset * r.step, r.start + s.stopOffset * r.step, s.stepValue * r.step⟩ := by
  unfold PyRange.getitemSlice
  rw [unpack_of_fits hs hstep h, ← startOffset_eq, ← stopOffset_eq]
  rfl

theorem fits_of_getitemSlice {r r' : PyRange} (h : r.getitemSlice s = .ok r') : s.Fits := by
  obtain ⟨_, hunpack, -⟩ := bind_eq_ok.mp h
  exact unpack_fits hunpack

/-! ## Offsets and positions -/

theorem start_of_offset (hstart : s.start ≠ .other) (h : 0 ≤ s.startOffset ∧ s.startOffset < length) :
    (s.indices length).start = s.startOffset := by
  unfold startOffset at h ⊢
  unfold indices bound clamp
  cases hitem : s.start with
  | other => exact absurd hitem hstart
  | none =>
    rw [hitem] at h
    dsimp only at h ⊢
    rcases ends_cases s.stepValue length with ⟨hneg, -, -⟩ | ⟨hpos, hl, -⟩
    · rw [if_pos hneg] at h
      omega
    · rw [if_neg hpos, if_neg hpos, hl]
  | int n =>
    rw [hitem] at h
    dsimp only at h ⊢
    split at h
    next => omega
    next hmax =>
      rw [if_neg hmax, if_neg (by omega)]
      rcases ends_cases s.stepValue length with ⟨-, -, hu⟩ | ⟨-, -, hu⟩ <;> rw [hu] <;> omega

theorem offset_of_start (h0 : 0 ≤ length) (hstep : s.stepValue ≠ 0)
    (hlen : (s.indices length).len ≠ 0) (h : s.startOffset = (s.indices length).start) :
    0 ≤ s.startOffset ∧ s.startOffset < length := by
  obtain ⟨hi, hj⟩ := s.indices_bounds h0
  have hmem := value_mem (r := s.indices length) hstep hi hj (k := 0) (by omega)
  rwa [PyRange.value_zero, ← h] at hmem

theorem startOffset_lt (h : s.start.Fits) : s.startOffset < 2 ^ 63 := by
  unfold startOffset
  cases hitem : s.start with
  | int n =>
    have hn := (fitsSlong_iff.mp (h n hitem)).2
    dsimp only
    split <;> omega
  | none =>
    dsimp only
    split <;> omega
  | other =>
    dsimp only
    split <;> omega

theorem select_iff (r r' : PyRange) (hne : r.step ≠ 0) (hstep : r.step = r'.step) (hstart : r.start = r'.start) :
    r.len = r'.len ∧ r.len ≠ 0 ↔
      r.withinRange r.start = true ∧ ∀ m : Nat, r.withinRange (r.value m) = r'.withinRange (r.value m) := by
  have hzero := PyRange.within_iff hne 0
  rw [PyRange.value_zero] at hzero
  rw [PyRange.len_eq_iff hne hstep hstart, hzero, and_comm, Nat.pos_iff_ne_zero]

theorem stop_of_offset (hneg : ¬ s.stepValue < 0) (h : 0 < s.stopOffset) :
    (s.indices length).stop = min s.stopOffset length := by
  unfold stopOffset at h ⊢
  unfold indices bound clamp
  rcases ends_cases s.stepValue length with ⟨hneg', -, -⟩ | ⟨-, -, hu⟩
  · exact absurd hneg' hneg
  · cases hitem : s.stop with
    | int n =>
      rw [hitem] at h
      dsimp only at h ⊢
      split at h
      next => omega
      next hend => rw [if_neg hend, if_neg (by omega), hu]
    | none =>
      rw [hitem] at h
      dsimp only at h
      omega
    | other =>
      rw [hitem] at h
      dsimp only at h
      omega

theorem selects_up (hpos : ¬ s.stepValue < 0) (hne : s.stepValue ≠ 0) (hfirst : 0 ≤ s.startOffset)
    (hstart : (s.indices length).start = s.startOffset) :
    s.offsets.len = (s.indices length).len ∧ s.offsets.len ≠ 0 ↔ s.startOffset < s.stopOffset ∧
      ∀ m : Nat, ¬ (length ≤ s.startOffset + m * s.stepValue ∧ s.startOffset + m * s.stepValue < s.stopOffset) := by
  rw [select_iff s.offsets (s.indices length) hne rfl hstart.symm]
  have hwithin (r : PyRange) (hr : r.step = s.stepValue) (n : Int) : r.withinRange n = decide (n < r.stop) := by
    unfold PyRange.withinRange
    rw [hr, if_neg hpos]
  rw [hwithin _ rfl, decide_eq_true_eq]
  refine and_congr_right fun hlt => forall_congr' fun m => ?_
  rw [hwithin _ rfl, hwithin _ rfl, stop_of_offset hpos (show 0 < s.stopOffset from Int.lt_of_le_of_lt hfirst hlt),
    decide_eq_decide]
  change s.startOffset < s.stopOffset at hlt
  show (s.startOffset + m * s.stepValue < s.stopOffset ↔
    s.startOffset + m * s.stepValue < min s.stopOffset length) ↔ _
  omega

/-- Down to an integer, the same terms are before both stops where the slice stops so. -/
theorem stopsDown_iff {n : Int} (hitem : s.stop = .int n) (hneg : s.stepValue < 0) (hmax : s.startOffset < 2 ^ 63)
    (hfirst : 0 ≤ s.startOffset ∧ s.startOffset < length) (hlt : s.stopOffset < s.startOffset) :
    (∀ m : Nat, s.stopOffset < s.startOffset + m * s.stepValue ↔
      (s.indices length).stop < s.startOffset + m * s.stepValue) ↔
      StopsDown (.int n) s.startOffset s.stopOffset s.stepValue length := by
  rcases ends_cases s.stepValue length with ⟨-, hl, hu⟩ | ⟨hpos, -, -⟩
  case inr => exact absurd hneg hpos
  have hlast : s.stopOffset = if n = -2 ^ 63 ∨ n = 2 ^ 63 - 1 then -1 else n := by
    unfold stopOffset
    rw [hitem]
  have hends : (s.indices length).stop = if n < 0 then max (n + length) (-1) else min n (length - 1) := by
    unfold indices bound clamp
    rw [hitem]
    dsimp only
    rw [hl, hu]
  unfold StopsDown
  constructor
  · intro h
    have hbegin : (s.indices length).stop < s.startOffset := by
      have h0 := h 0
      rw [Nat.cast_zero, Int.zero_mul, Int.add_zero] at h0
      exact h0.mp hlt
    refine .inr ⟨n, rfl, ?_, ?_⟩
    · split at hends <;> omega
    · by_cases hn : n < 0
      · rw [if_pos hn] at hends
        refine .inr ⟨by omega, fun m hm => ?_⟩
        have := h m
        omega
      · exact .inl (by omega)
  · rintro (hnone | ⟨n', hn', hbefore, hcond⟩)
    · cases hnone
    · cases hn'
      intro m
      by_cases hn : n < 0
      · rw [if_pos hn] at hends
        rcases hcond with hnonneg | ⟨-, hterm⟩
        · omega
        · have := hterm m
          split at hlast <;> omega
      · rw [if_neg hn] at hends
        rw [if_neg (by omega)] at hlast
        omega

theorem selects_down (hstop : s.stop ≠ .other) (hneg : s.stepValue < 0) (hfits : s.start.Fits)
    (hfirst : 0 ≤ s.startOffset ∧ s.startOffset < length) (hstart : (s.indices length).start = s.startOffset) :
    s.offsets.len = (s.indices length).len ∧ s.offsets.len ≠ 0 ↔ s.stopOffset < s.startOffset ∧
      StopsDown s.stop s.startOffset s.stopOffset s.stepValue length := by
  rw [select_iff s.offsets (s.indices length) (Int.ne_of_lt hneg) rfl hstart.symm]
  have hwithin (r : PyRange) (hr : r.step = s.stepValue) (n : Int) : r.withinRange n = decide (r.stop < n) := by
    unfold PyRange.withinRange
    rw [hr, if_pos hneg]
  rw [hwithin _ rfl, decide_eq_true_eq]
  refine and_congr_right fun hlt => ?_
  have hterms : (∀ m : Nat, s.offsets.withinRange (s.offsets.value m) = (s.indices length).withinRange (s.offsets.value m)) ↔
      ∀ m : Nat, (s.stopOffset < s.startOffset + m * s.stepValue ↔
        (s.indices length).stop < s.startOffset + m * s.stepValue) := by
    refine forall_congr' fun m => ?_
    rw [hwithin _ rfl, hwithin _ rfl, decide_eq_decide]
    rfl
  rw [hterms]
  cases hitem : s.stop with
  | other => exact absurd hitem hstop
  | none =>
    rcases ends_cases s.stepValue length with ⟨-, hl, -⟩ | ⟨hpos, -, -⟩
    case inr => exact absurd hneg hpos
    have hends : s.stopOffset = (s.indices length).stop := by
      unfold stopOffset indices bound
      rw [hitem]
      dsimp only
      rw [if_pos hneg, hl]
    exact ⟨fun _ => .inl rfl, fun _ m => by rw [hends]⟩
  | int n => exact stopsDown_iff hitem hneg (startOffset_lt hfits) hfirst hlt

/-- The offsets are the positions where the slice is plain. -/
theorem plain_iff (hs : s.checkTypes = .ok ()) (hstep : s.stepValue ≠ 0) (hfits : s.start.Fits) (h0 : 0 ≤ length) :
    s.offsets.values = s.positions length ↔ s.Plain length := by
  obtain ⟨hstart, hstop, -⟩ := checkTypes_ok hs
  unfold positions
  rw [PyRange.values_eq_iff s.offsets (s.indices length) rfl]
  unfold Plain positions
  rw [PyRange.values_eq_nil, PyRange.values_eq_nil]
  have hselects (hfirst : 0 ≤ s.startOffset ∧ s.startOffset < length) :
      s.offsets.len = (s.indices length).len ∧ s.offsets.len ≠ 0 ↔ if s.stepValue < 0 then
        s.stopOffset < s.startOffset ∧ StopsDown s.stop s.startOffset s.stopOffset s.stepValue length
      else s.startOffset < s.stopOffset ∧
        ∀ m : Nat, ¬ (length ≤ s.startOffset + m * s.stepValue ∧ s.startOffset + m * s.stepValue < s.stopOffset) := by
    have hbegin := start_of_offset hstart hfirst
    split
    next hneg => exact selects_down hstop hneg hfits hfirst hbegin
    next hpos => exact selects_up hpos hstep hfirst.1 hbegin
  constructor
  · rintro ⟨hlen, hempty | hbegin⟩
    · exact .inl ⟨hempty, hlen ▸ hempty⟩
    · by_cases hempty : s.offsets.len = 0
      · exact .inl ⟨hempty, hlen ▸ hempty⟩
      · have hfirst := offset_of_start h0 hstep (hlen ▸ hempty) hbegin
        exact .inr ⟨hfirst, (hselects hfirst).mp ⟨hlen, hempty⟩⟩
  · rintro (⟨hempty, hempty'⟩ | ⟨hfirst, hcond⟩)
    · exact ⟨hempty.trans hempty'.symm, .inl hempty⟩
    · exact ⟨((hselects hfirst).mpr hcond).1, .inr (start_of_offset hstart hfirst).symm⟩

end PySlice

namespace PyRange

/-- What is asked of a slice of a range: the range ends, and the slice is one of the items of the list at the positions. -/
def SlicesRight (r : PyRange) (s : PySlice) : Prop :=
  ∃ l, Drains r.next r.start l ∧ ∃ r', r.getitemSlice s = .ok r' ∧ Drains r'.next r'.start (s.slice l)

theorem drains_of_step_zero {r : PyRange} (h : r.step = 0) (hle : r.stop ≤ r.start) : Drains r.next r.start [] := by
  refine .stop ?_
  unfold next withinRange
  rw [h, if_neg (Int.lt_irrefl 0), decide_eq_false (by omega)]
  rfl

/-- **Slices of a range are right** where the integers have 64 bits and the slice is plain. -/
theorem slicesRight_iff (r : PyRange) (s : PySlice) (hs : s.checkTypes = .ok ()) (hstep : s.stepValue ≠ 0) :
    r.SlicesRight s ↔ s.Fits ∧ if r.step = 0 then r.stop ≤ r.start else s.Plain r.len := by
  unfold SlicesRight
  by_cases hzero : r.step = 0
  · rw [if_pos hzero]
    constructor
    · intro h
      obtain ⟨l, hdrains, r', hget, -⟩ := h
      refine ⟨PySlice.fits_of_getitemSlice hget, ?_⟩
      by_contra hlt
      exact not_drains_of_step_zero hzero (by omega) hdrains
    · intro h
      obtain ⟨hfits, hle⟩ := h
      refine ⟨[], drains_of_step_zero hzero hle, _, PySlice.getitemSlice_eq r hs hstep hfits, ?_⟩
      rw [show s.slice ([] : List Int) = [] from List.filterMap_eq_nil_iff.mpr fun _ _ => rfl]
      exact drains_of_step_zero (by simp [hzero]) (by simp [hzero])
  · rw [if_neg hzero]
    have hdrains := drains_next hzero
    have hnext : s.stepValue * r.step ≠ 0 := Int.mul_ne_zero hstep hzero
    have hvalues : (PyRange.mk (r.start + s.startOffset * r.step) (r.start + s.stopOffset * r.step)
        (s.stepValue * r.step)).values = s.slice r.values ↔ s.offsets.values = s.positions r.len := by
      rw [values_scale _ _ _ _ hzero, PySlice.slice_values r hstep]
      have hinj : Function.Injective (r.start + · * r.step) := fun i j hij =>
        Int.eq_of_mul_eq_mul_right hzero (Int.add_left_cancel hij)
      exact (List.map_injective_iff.mpr hinj).eq_iff
    constructor
    · intro h
      obtain ⟨l, hl, r', hget, hslice⟩ := h
      obtain rfl := hl.unique hdrains
      have hfits := PySlice.fits_of_getitemSlice hget
      cases hget.symm.trans (PySlice.getitemSlice_eq r hs hstep hfits)
      have hplain := hvalues.mp ((drains_next hnext).unique hslice)
      exact ⟨hfits, (PySlice.plain_iff hs hstep hfits.start (by omega)).mp hplain⟩
    · intro h
      obtain ⟨hfits, hplain⟩ := h
      have heq := hvalues.mpr ((PySlice.plain_iff hs hstep hfits.start (by omega)).mpr hplain)
      exact ⟨_, hdrains, _, PySlice.getitemSlice_eq r hs hstep hfits, heq ▸ drains_next hnext⟩

/-- `range(5)[1:3]`. -/
theorem slicesRight_middle : (⟨0, 5, 1⟩ : PyRange).SlicesRight ⟨.int 1, .int 3, .none⟩ := by
  refine (slicesRight_iff ⟨0, 5, 1⟩ ⟨.int 1, .int 3, .none⟩ rfl (by decide)).mpr ⟨⟨?_, ?_, nofun⟩, .inr ⟨?_, ?_, ?_⟩⟩
  · rintro n ⟨⟩
    decide
  · rintro n ⟨⟩
    decide
  · decide
  · decide
  · intro m h
    obtain ⟨h, h'⟩ := h
    have hlen : (⟨0, 5, 1⟩ : PyRange).len = 5 := by decide
    rw [hlen] at h
    change 5 ≤ 1 + (m : Int) * 1 at h
    change 1 + (m : Int) * 1 < 3 at h'
    omega

/-- `range(5)[1:]` is empty. -/
theorem openEnd_empty : (⟨0, 5, 1⟩ : PyRange).getitemSlice ⟨.int 1, .none, .none⟩ = .ok ⟨1, -1, 1⟩ ∧
    (PyRange.mk 1 (-1) 1).values = [] ∧
    (⟨.int 1, .none, .none⟩ : PySlice).slice (⟨0, 5, 1⟩ : PyRange).values = [1, 2, 3, 4] ∧
    ¬ (⟨0, 5, 1⟩ : PyRange).SlicesRight ⟨.int 1, .none, .none⟩ := by
  have hget : (⟨0, 5, 1⟩ : PyRange).getitemSlice ⟨.int 1, .none, .none⟩ = .ok ⟨1, -1, 1⟩ := rfl
  have hempty : (PyRange.mk 1 (-1) 1).values = [] := by decide
  have hslice : (⟨.int 1, .none, .none⟩ : PySlice).slice (⟨0, 5, 1⟩ : PyRange).values = [1, 2, 3, 4] := by decide
  refine ⟨hget, hempty, hslice, ?_⟩
  intro h
  obtain ⟨l, hl, r', hr', hdrains⟩ := h
  cases hget.symm.trans hr'
  obtain rfl := hl.unique (drains_next (r := ⟨0, 5, 1⟩) (by decide))
  have hnil := hdrains.unique (drains_next (r := ⟨1, -1, 1⟩) (by decide))
  rw [hslice, hempty] at hnil
  cases hnil

end PyRange

end Pylang.Runtime
