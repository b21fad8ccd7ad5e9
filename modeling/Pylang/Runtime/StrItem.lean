/-
`PyString::__getitem__`: the code point at an index, and the string of those that
a slice selects. For an empty selection the code makes a list.
-/
import Pylang.Runtime.ListDelete
import Pylang.Runtime.Utf8

namespace Pylang.Runtime

open Tagged (fitsSlong fitsSlong_iff)

namespace PyString

/-- The object that `__getitem__` gives: a string, by its value, or `PyList::create()`. -/
inductive Item where
  | str (value : Bytes)
  | emptyList
  deriving DecidableEq

/-- The string of a code point. -/
def codepointString (cp : Nat) : Except SliceStop Bytes :=
  if cp < 0x110000 then .ok (toUTF8String [cp]) else .error .abort

/-- `size()` and `codepoints()`, with what they stop with. -/
def sizeOf (value : Bytes) : Except SliceStop Nat :=
  match size value with
  | some n => .ok n
  | none => .error .undefined

def codepointsOf (value : Bytes) : Except SliceStop (List Nat) :=
  match codepoints value with
  | some cps => .ok cps
  | none => .error .abort

/-- `codepoints[idx]`, as a string. -/
def codepointAt (cps : List Nat) (idx : Int) : Except SliceStop Bytes :=
  if 0 ≤ idx then
    match cps[idx.toNat]? with
    | some cp => codepointString cp
    | none => .error .undefined
  else .error .undefined

/-- What `operator[]` makes of a negative index. `std::abs` of the least `int64_t` is undefined. -/
def fromEnd (index : Int) (strSize : Nat) : Except SliceStop Int :=
  if index < 0 then do
    let magnitude ← int64 (-index)
    if strSize < magnitude then .error (.indexError "string index out of range") else .ok (index + strSize)
  else .ok index

/-- `PyString::operator[]`. -/
def subscript (value : Bytes) (index : Int) : Except SliceStop Item := do
  let strSize ← sizeOf value
  let index ← fromEnd index strSize
  if strSize ≤ index then .error (.indexError "string index out of range")
  else do
    let cps ← codepointsOf value
    let str ← codepointAt cps index
    .ok (.str str)

/-- The loop over the code points that a slice selects, `left` of which are still to be read. -/
def gather (cps : List Nat) (step : Int) : Nat → Int → Bytes → Except SliceStop Bytes
  | 0, _, newStr => .ok newStr
  | left + 1, idx, newStr => do
    let str ← codepointAt cps idx
    let idx ← int64 (idx + step)
    gather cps step left idx (newStr ++ str)

/-- `PyString::__getitem__`. -/
def getitem (value : Bytes) : DelKey → Except SliceStop Item
  | .index n => if fitsSlong n then subscript value n else .error .abort
  | .slice s => do
    let cps ← codepointsOf value
    let (start, stop, step) ← s.unpack
    let (start, stop, sliceLength) ← adjustIndices start stop step cps.length
    if sliceLength = 0 then .ok .emptyList
    else if start = 0 ∧ stop = cps.length ∧ step = 1 then .ok (.str value)
    else do
      let newStr ← gather cps step sliceLength.toNat start []
      .ok (.str newStr)
  | .other typeName => .error (.typeError s!"str indices must be integers or slices, not {typeName}")

/-! ## What it is for -/

/-- What is asked of `s[key]`. -/
def ItemRight (s : List Char) (key : DelKey) : Prop :=
  match key with
  | .index i =>
    match listPosition i s.length with
    | some k => ∃ c, s[k]? = some c ∧ getitem (utf8 s) (.index i) = .ok (.str (utf8 [c]))
    | none => ∃ message, getitem (utf8 s) (.index i) = .error (.indexError message)
  | .slice sl => getitem (utf8 s) (.slice sl) = .ok (.str (utf8 (sl.slice s)))
  | .other _ => ∃ message, getitem (utf8 s) key = .error (.typeError message)

/-- The keys that are read right from a string of a length. -/
def Readable (key : DelKey) (length : Int) : Prop :=
  match key with
  | .index i => -2 ^ 63 < i ∧ i < 2 ^ 63
  | .slice sl => sl.Fits ∧ sl.positions length ≠ [] ∧ sl.stepValue ≠ -2 ^ 63 ∧
    ∀ i ∈ sl.positions length, fitsSlong (i + sl.stepValue) = true
  | .other _ => True

/-! ## One code point -/

theorem codepointsOf_utf8 (s : List Char) : codepointsOf (utf8 s) = .ok (points s) := by
  rw [codepointsOf, codepoints_utf8]

theorem sizeOf_utf8 (s : List Char) : sizeOf (utf8 s) = .ok s.length := by
  rw [sizeOf, size_utf8]

theorem codepointString_toNat (c : Char) : codepointString c.toNat = .ok (utf8 [c]) := by
  have hvalid := toNat_valid c
  rw [codepointString, if_pos (by omega)]
  exact congrArg Except.ok (toUTF8String_points [c])

theorem codepointAt_points {s : List Char} {i : Int} (h0 : 0 ≤ i) (h : i < s.length) :
    ∃ c, s[i.toNat]? = some c ∧ codepointAt (points s) i = .ok (utf8 [c]) := by
  have hlt : i.toNat < s.length := by omega
  refine ⟨s[i.toNat], List.getElem?_eq_getElem hlt, ?_⟩
  rw [codepointAt, if_pos h0, points, List.getElem?_map, List.getElem?_eq_getElem hlt]
  exact codepointString_toNat _

theorem fromEnd_eq {i : Int} {n : Nat} (hi : -2 ^ 63 < i ∧ i < 2 ^ 63) :
    fromEnd i n = if i < 0 then (if 0 ≤ i + n then .ok (i + n) else .error (.indexError "string index out of range"))
      else .ok i := by
  unfold fromEnd
  by_cases hneg : i < 0
  · rw [if_pos hneg, if_pos hneg, PySlice.int64_of_fits (fitsSlong_iff.mpr (by omega))]
    show (if (n : Int) < -i then _ else _) = _
    by_cases hin : 0 ≤ i + n
    · rw [if_pos hin, if_neg (by omega)]
    · rw [if_neg hin, if_pos (by omega)]
  · rw [if_neg hneg, if_neg hneg]

theorem subscript_of_fromEnd {s : List Char} {i j : Int} (h : fromEnd i s.length = .ok j) (h0 : 0 ≤ j) :
    if j < s.length then ∃ c, s[j.toNat]? = some c ∧ subscript (utf8 s) i = .ok (.str (utf8 [c]))
    else subscript (utf8 s) i = .error (.indexError "string index out of range") := by
  have heq : subscript (utf8 s) i = if s.length ≤ j then .error (.indexError "string index out of range")
      else (codepointAt (points s) j).map .str := by
    unfold subscript
    rw [sizeOf_utf8, codepointsOf_utf8]
    show (do let index ← fromEnd i s.length; _) = _
    rw [h]
    rfl
  rw [heq]
  split
  next hlt =>
    obtain ⟨c, hc, hat⟩ := codepointAt_points h0 hlt
    refine ⟨c, hc, ?_⟩
    rw [if_neg (by omega), hat]
    rfl
  next hge => rw [if_pos (by omega)]

theorem subscript_eq (s : List Char) {i : Int} (hi : -2 ^ 63 < i ∧ i < 2 ^ 63) :
    match listPosition i s.length with
    | some k => ∃ c, s[k]? = some c ∧ subscript (utf8 s) i = .ok (.str (utf8 [c]))
    | none => subscript (utf8 s) i = .error (.indexError "string index out of range") := by
  have hend := fromEnd_eq (n := s.length) hi
  unfold listPosition
  by_cases hneg : i < 0
  · rw [if_pos hneg] at hend ⊢
    by_cases hin : 0 ≤ i + s.length
    · rw [if_pos hin] at hend ⊢
      have hgives := subscript_of_fromEnd hend hin
      rw [if_pos (by omega)] at hgives
      exact hgives
    · rw [if_neg hin] at hend ⊢
      dsimp only
      rw [subscript, sizeOf_utf8]
      show (do let index ← fromEnd i s.length; _) = _
      rw [hend]
      rfl
  · rw [if_neg hneg] at hend ⊢
    have hgives := subscript_of_fromEnd hend (by omega)
    by_cases hin : i.toNat < s.length
    · rw [if_pos (by omega)] at hgives
      rw [if_pos hin]
      exact hgives
    · rw [if_neg (by omega)] at hgives
      rw [if_neg hin]
      exact hgives

/-! ## A slice -/

theorem gather_ok {s : List Char} {step : Int} : ∀ {n : Nat} {idx : Int} {newStr : Bytes},
    (∀ k < n, 0 ≤ idx + k * step ∧ idx + k * step < s.length) →
    (∀ k < n, fitsSlong (idx + k * step + step) = true) →
    gather (points s) step n idx newStr =
      .ok (newStr ++ utf8 (((List.range n).map fun k : Nat => idx + k * step).filterMap fun i => s[i.toNat]?)) := by
  intro n
  induction n with
  | zero =>
    intro idx newStr _ _
    rw [gather, List.range_zero, List.map_nil, List.filterMap_nil, utf8_nil, List.append_nil]
  | succ n ih =>
    intro idx newStr hin hfits
    have hnext (k : Nat) : idx + step + k * step = idx + (k + 1 : Nat) * step := by
      rw [Int.natCast_succ, Int.add_mul]
      omega
    have hfirst := hin 0 (by omega)
    have hfit := hfits 0 (by omega)
    rw [Int.natCast_zero, Int.zero_mul, Int.add_zero] at hfirst hfit
    obtain ⟨c, hc, hat⟩ := codepointAt_points hfirst.1 hfirst.2
    rw [gather, hat]
    show (do let idx ← int64 (idx + step); gather (points s) step n idx (newStr ++ utf8 [c])) = _
    rw [PySlice.int64_of_fits hfit]
    refine (@ih (idx + step) _ (fun k hk => ?_) (fun k hk => ?_)).trans ?_
    · rw [hnext]
      exact hin (k + 1) (by omega)
    · rw [hnext]
      exact hfits (k + 1) (by omega)
    · have hmap : (List.range n).map (fun k : Nat => idx + step + k * step) =
          ((List.range n).map Nat.succ).map fun k : Nat => idx + k * step := by
        rw [List.map_map]
        exact List.map_congr_left fun k _ => hnext k
      have hzero : idx + ((0 : Nat) : Int) * step = idx := by rw [Int.natCast_zero, Int.zero_mul, Int.add_zero]
      rw [List.range_succ_eq_map, List.map_cons, hzero, List.filterMap_cons_some (f := fun i : Int => s[i.toNat]?) hc, hmap,
        List.append_assoc, ← utf8_append, List.singleton_append]

theorem gather_fits {cps : List Nat} {step : Int} : ∀ {n : Nat} {idx : Int} {newStr r : Bytes},
    gather cps step n idx newStr = .ok r → ∀ k < n, fitsSlong (idx + k * step + step) = true := by
  intro n
  induction n with
  | zero => exact fun _ k hk => absurd hk (Nat.not_lt_zero k)
  | succ n ih =>
    intro idx newStr r h k hk
    rw [gather] at h
    obtain ⟨str, -, h⟩ := bind_eq_ok.mp h
    obtain ⟨idx', hint, h⟩ := bind_eq_ok.mp h
    unfold int64 at hint
    split at hint
    next hfit =>
      cases hint
      cases k with
      | zero =>
        rw [Int.natCast_zero, Int.zero_mul, Int.add_zero]
        exact hfit
      | succ k =>
        have hrest := ih h k (by omega)
        rw [Int.natCast_succ, Int.add_mul, Int.one_mul]
        rw [show idx + (k * step + step) + step = idx + step + k * step + step by omega]
        exact hrest
    next => cases hint

end PyString

namespace PySlice

variable {s : PySlice} {length : Int}

theorem adjust_of_unpack {start stop step : Int} (h : s.unpack = .ok (start, stop, step)) (h0 : 0 ≤ length)
    (hlength : fitsSlong length = true) : adjustIndices start stop step length =
      if step = -2 ^ 63 ∧ s.positions length ≠ [] then .error .undefined
      else .ok ((s.indices length).start, (s.indices length).stop, (s.positions length).length) := by
  obtain ⟨hstep, hne, hstart, hstop⟩ := unpack_ok h
  have hindices := indices_of_unpack h h0 hlength
  rw [adjustIndices_eq (hstart.fits (by split <;> decide)) (hstop.fits (by split <;> decide)) (hstep.fits (by decide)) hne
    h0 hlength]
  unfold positions
  rw [hindices]
  have hnil := len_eq_zero_iff (r := ⟨clamp start step length, clamp stop step length, step⟩) hne
  have hvalues := PyRange.values_eq_nil (r := ⟨clamp start step length, clamp stop step length, step⟩)
  dsimp only at hnil ⊢
  have hlen : (PyRange.mk (clamp start step length) (clamp stop step length) step).values.length =
      (PyRange.mk (clamp start step length) (clamp stop step length) step).len := by
    rw [PyRange.values, List.length_map, List.length_range]
  rw [hlen]
  refine ite_congr (propext ⟨fun hboth => ⟨hboth.1, fun hempty => ?_⟩, fun hboth => ⟨hboth.1, ?_⟩⟩) (fun _ => rfl)
    fun _ => rfl
  · rw [hvalues, hnil, if_pos (by omega)] at hempty
    omega
  · by_contra hle
    refine hboth.2 (hvalues.mpr (hnil.mpr ?_))
    rw [if_pos (by omega)]
    omega

end PySlice

namespace PyString

theorem filterMap_range {α : Type} (l : List α) : (List.range l.length).filterMap (fun k => l[k]?) = l := by
  induction l with
  | nil => rfl
  | cons x l ih =>
    rw [List.length_cons, List.range_succ_eq_map, List.filterMap_cons_some (f := fun k => (x :: l)[k]?) (b := x) rfl,
      List.filterMap_map]
    exact congrArg (x :: ·) ih

theorem slice_one {sl : PySlice} (h1 : sl.stepValue = 1) (s : List Char) :
    sl.slice s = (s.take (sl.indices s.length).stop.toNat).drop (sl.indices s.length).start.toNat := by
  obtain ⟨⟨hstart, hstartle⟩, hstop, hstople⟩ := PySlice.indices_bounds_one h1 s.length
  obtain ⟨part, hpart⟩ : ∃ part, part = (s.take (sl.indices s.length).stop.toNat).drop (sl.indices s.length).start.toNat :=
    ⟨_, rfl⟩
  have hstep : (sl.indices s.length).step = 1 := h1
  have hlen : (sl.indices s.length).len = part.length := by
    rw [hpart, List.length_drop, List.length_take, PyRange.len, hstep, Int.fdiv_one]
    omega
  rw [← hpart, PySlice.slice, PySlice.positions, PyRange.values, hlen, List.filterMap_map]
  refine Eq.trans (List.filterMap_congr fun k hk => ?_) (filterMap_range part)
  have hk := List.mem_range.mp hk
  have hvalue : ((sl.indices s.length).value k).toNat = (sl.indices s.length).start.toNat + k := by
    rw [PyRange.value, hstep]
    omega
  show s[((sl.indices s.length).value k).toNat]? = part[k]?
  rw [hpart, List.length_drop, List.length_take] at hk
  rw [hvalue, hpart, List.getElem?_drop, List.getElem?_take_of_lt (by omega)]

theorem getitem_slice {s : List Char} {sl : PySlice} {start stop step : Int} (h : sl.unpack = .ok (start, stop, step))
    (hsize : fitsSlong s.length = true) : getitem (utf8 s) (.slice sl) =
      if step = -2 ^ 63 ∧ sl.positions s.length ≠ [] then .error .undefined
      else if sl.positions s.length = [] then .ok .emptyList
      else if (sl.indices s.length).start = 0 ∧ (sl.indices s.length).stop = s.length ∧ step = 1 then .ok (.str (utf8 s))
      else (gather (points s) step (sl.positions s.length).length (sl.indices s.length).start []).map .str := by
  have hadjust := PySlice.adjust_of_unpack h (Int.natCast_nonneg s.length) hsize
  have hlength : (points s).length = s.length := List.length_map _
  unfold getitem
  dsimp only
  rw [codepointsOf_utf8, h]
  show (do
    let (start, stop, sliceLength) ← adjustIndices start stop step ((points s).length : Nat)
    _) = _
  rw [hlength, hadjust]
  by_cases hundefined : step = -2 ^ 63 ∧ sl.positions s.length ≠ []
  · rw [if_pos hundefined, if_pos hundefined]
    rfl
  rw [if_neg hundefined, if_neg hundefined]
  show (if ((sl.positions s.length).length : Int) = 0 then _ else _) = _
  refine ite_congr (propext ?_) (fun _ => rfl) fun _ => ?_
  · rw [Int.natCast_eq_zero, List.length_eq_zero_iff]
  · refine ite_congr rfl (fun _ => rfl) fun _ => ?_
    rfl

theorem index_right_iff (s : List Char) (i : Int) : ItemRight s (.index i) ↔ -2 ^ 63 < i ∧ i < 2 ^ 63 := by
  unfold ItemRight getitem
  dsimp only
  by_cases hi : -2 ^ 63 < i ∧ i < 2 ^ 63
  · have hgives := subscript_eq s hi
    rw [if_pos (fitsSlong_iff.mpr (by omega))]
    refine ⟨fun _ => hi, fun _ => ?_⟩
    split
    next k hk =>
      rw [hk] at hgives
      exact hgives
    next hk =>
      rw [hk] at hgives
      exact ⟨_, hgives⟩
  · refine ⟨fun h => absurd h ?_, fun h => absurd h hi⟩
    -- The least index is the one that fits and has no absolute value.
    have hwrong : (if fitsSlong i then subscript (utf8 s) i else .error .abort) = .error .abort ∨
        (if fitsSlong i then subscript (utf8 s) i else .error .abort) = .error .undefined := by
      split
      next hfits =>
        rw [fitsSlong_iff] at hfits
        obtain rfl : i = -2 ^ 63 := by omega
        rw [subscript, sizeOf_utf8]
        exact .inr rfl
      next => exact .inl rfl
    intro h
    split at h
    next =>
      obtain ⟨c, -, hok⟩ := h
      rcases hwrong with heq | heq <;> cases heq.symm.trans hok
    next =>
      obtain ⟨message, hok⟩ := h
      rcases hwrong with heq | heq <;> cases heq.symm.trans hok

theorem slice_right_iff (s : List Char) {sl : PySlice} (hs : sl.checkTypes = .ok ()) (hstep : sl.stepValue ≠ 0)
    (hsize : fitsSlong s.length = true) : ItemRight s (.slice sl) ↔ Readable (.slice sl) s.length := by
  have hin {i : Int} (hi : i ∈ sl.positions s.length) := PySlice.positions_mem hstep (Int.natCast_nonneg _) hi
  have hterm {k : Nat} (hk : k < (sl.positions s.length).length) :
      (sl.indices s.length).start + k * sl.stepValue ∈ sl.positions s.length := by
    rw [PySlice.positions, PyRange.values, List.length_map, List.length_range] at hk
    exact List.mem_map.mpr ⟨k, List.mem_range.mpr hk, rfl⟩
  have hterms : sl.positions s.length = (List.range (sl.positions s.length).length).map fun k : Nat =>
      (sl.indices s.length).start + k * sl.stepValue := by
    rw [PySlice.positions, PyRange.values, List.length_map, List.length_range]
    rfl
  rw [fitsSlong_iff] at hsize
  unfold ItemRight Readable
  dsimp only
  constructor
  · intro h
    have hfits : sl.Fits := by
      unfold getitem at h
      dsimp only at h
      rw [codepointsOf_utf8] at h
      obtain ⟨bounds, hunpack, -⟩ := bind_eq_ok.mp (show (do let bounds ← sl.unpack; _) = _ from h)
      exact PySlice.unpack_fits hunpack
    rw [getitem_slice (PySlice.unpack_of_fits hs hstep hfits) (fitsSlong_iff.mpr hsize)] at h
    by_cases hundefined : sl.stepValue = -2 ^ 63 ∧ sl.positions s.length ≠ []
    · rw [if_pos hundefined] at h
      cases h
    rw [if_neg hundefined] at h
    by_cases hempty : sl.positions s.length = []
    · rw [if_pos hempty] at h
      cases h
    rw [if_neg hempty] at h
    refine ⟨hfits, hempty, fun hmin => hundefined ⟨hmin, hempty⟩, fun i hi => ?_⟩
    have hbounds := hin hi
    by_cases hself : (sl.indices s.length).start = 0 ∧ (sl.indices s.length).stop = s.length ∧ sl.stepValue = 1
    · rw [hself.2.2, fitsSlong_iff]
      omega
    rw [if_neg hself] at h
    obtain ⟨k, hk, rfl⟩ := List.mem_map.mp (hterms ▸ hi)
    rcases hgather : gather (points s) sl.stepValue (sl.positions s.length).length (sl.indices s.length).start [] with
      e | r
    · rw [hgather] at h
      cases h
    · exact gather_fits hgather k (List.mem_range.mp hk)
  · intro h
    obtain ⟨hfits, hempty, hmin, hsteps⟩ := h
    rw [getitem_slice (PySlice.unpack_of_fits hs hstep hfits) (fitsSlong_iff.mpr hsize),
      if_neg fun hundefined => hmin hundefined.1, if_neg hempty]
    by_cases hself : (sl.indices s.length).start = 0 ∧ (sl.indices s.length).stop = s.length ∧ sl.stepValue = 1
    · obtain ⟨hstart, hstop, hone⟩ := hself
      rw [if_pos ⟨hstart, hstop, hone⟩, slice_one hone, hstart, hstop, Int.toNat_natCast, List.take_length]
      rfl
    · rw [if_neg hself, gather_ok (fun k hk => hin (hterm hk)) fun k hk => hsteps _ (hterm hk), ← hterms, List.nil_append]
      rfl

/-- **`s[key]` is right** for the indices that have an absolute value of 64 bits, and for the slices that select a code
point and whose steps stay in 64 bits. -/
theorem itemRight_iff (s : List Char) (key : DelKey) (hkey : key.Proper) (hsize : fitsSlong s.length = true) :
    ItemRight s key ↔ Readable key s.length := by
  cases key with
  | index i => exact index_right_iff s i
  | slice sl =>
    obtain ⟨hs, hstep⟩ := hkey sl rfl
    exact slice_right_iff s hs hstep hsize
  | other typeName => exact ⟨fun _ => trivial, fun _ => ⟨_, rfl⟩⟩

/-- `"ab"[-1]` and `"ab"[1:2]`. -/
theorem itemRight_last : ItemRight ['a', 'b'] (.index (-1)) ∧ ItemRight ['a', 'b'] (.slice ⟨.int 1, .int 2, .none⟩) := by
  constructor
  · exact (itemRight_iff ['a', 'b'] (.index (-1)) (fun _ h => by cases h) (by decide)).mpr (by unfold Readable; decide)
  · have hproper : DelKey.Proper (.slice ⟨.int 1, .int 2, .none⟩) := by
      intro sl h
      cases h
      decide
    refine (itemRight_iff ['a', 'b'] (.slice ⟨.int 1, .int 2, .none⟩) hproper (by decide)).mpr ?_
    have hfits : PySlice.Fits ⟨.int 1, .int 2, .none⟩ :=
      { start := fun n h => by cases h; decide, stop := fun n h => by cases h; decide, step := fun n h => by cases h }
    exact ⟨hfits, by decide, by decide, by decide⟩

/-- `"a"[1:1]` is a list. -/
theorem emptySelection_list : getitem (utf8 ['a']) (.slice ⟨.int 1, .int 1, .none⟩) = .ok .emptyList ∧
    (⟨.int 1, .int 1, .none⟩ : PySlice).slice ['a'] = [] ∧ ¬ ItemRight ['a'] (.slice ⟨.int 1, .int 1, .none⟩) := by
  have hunpack : (⟨.int 1, .int 1, .none⟩ : PySlice).unpack = .ok (1, 1, 1) := rfl
  have hlist : getitem (utf8 ['a']) (.slice ⟨.int 1, .int 1, .none⟩) = .ok .emptyList := by
    rw [getitem_slice (s := ['a']) hunpack (by decide)]
    decide
  refine ⟨hlist, by decide, fun h => ?_⟩
  cases hlist.symm.trans h

end PyString

end Pylang.Runtime
