/-
`PyList::__delitem__`, against the removal of a position and of the positions of
a slice.

The index of the last element plus one passes the check. The stop of a slice is
overwritten by its start, so a slice deletes nothing, but for a step up whose
stop is the least of the 64-bit integers.
-/
import Pylang.Runtime.ListStorage
import Pylang.Runtime.Slice

namespace Pylang.Runtime

open Tagged (fitsSlong fitsSlong_iff)

/-- The key of a `del`; an object of another type with its name. -/
inductive DelKey where
  | index (n : Int)
  | slice (s : PySlice)
  | other (typeName : String)
  deriving DecidableEq

/-- The vector that a deletion leaves, and how it ends. -/
abbrev Deletion (α : Type) := List α × Except SliceStop Unit

/-- `validate_index`. `std::abs` of the least `long` is undefined. -/
def validateIndex (size : Nat) (index : Int) : Except SliceStop Nat :=
  if 0 ≤ index then
    if index < 2 ^ 64 then
      if size < index.toNat then .error (.indexError "list deletion index out of range") else .ok index.toNat
    else .error .abort
  else if fitsSlong index then do
    let magnitude ← int64 (-index)
    if size < magnitude.toNat then .error (.indexError "list deletion index out of range")
    else .ok (size - magnitude.toNat)
  else .error .abort

section

variable {α : Type}

/-- `delete_index`. -/
def deleteIndex (elements : List α) (index : Int) : Deletion α :=
  match validateIndex elements.length index with
  | .error e => (elements, .error e)
  | .ok index => if index < elements.length then (elements.eraseIdx index, .ok ()) else (elements, .error .undefined)

/-- The loop of a step up. -/
def deleteUp (step : Int) (hstep : 0 < step) (elements : List α) (idx stop : Int) : Deletion α :=
  if idx < stop then
    match deleteIndex elements idx with
    | (elements, .error e) => (elements, .error e)
    | (elements, .ok ()) =>
      if fitsSlong (idx - 1 + step) then deleteUp step hstep elements (idx - 1 + step) (stop - 1)
      else (elements, .error .undefined)
  else (elements, .ok ())
  termination_by (stop - idx).toNat

/-- The loop of a step down. -/
def deleteDown (step : Int) (hstep : step < 0) (elements : List α) (idx stop : Int) : Deletion α :=
  if stop < idx then
    match deleteIndex elements idx with
    | (elements, .error e) => (elements, .error e)
    | (elements, .ok ()) => deleteDown step hstep elements (idx + step) stop
  else (elements, .ok ())
  termination_by (idx - stop).toNat

/-- What follows the two checks of the bounds. -/
def deleteBetween (elements : List α) (start stop step : Int) : Deletion α :=
  if hup : 0 < step then
    if stop < start then (elements, .ok ())
    else if step = 1 then (elements.take start.toNat ++ elements.drop stop.toNat, .ok ())
    else deleteUp step hup elements start stop
  else if hdown : step < 0 then
    if start ≤ stop then (elements, .ok ()) else deleteDown step hdown elements (start - 1) stop
  else (elements, .ok ())

def deleteSlice (elements : List α) (s : PySlice) : Deletion α :=
  match s.unpack with
  | .error e => (elements, .error e)
  | .ok (start, stop, step) =>
    let start := if start = 2 ^ 63 - 1 then (elements.length : Int) - 1 else start
    let stop := if stop = -2 ^ 63 then (elements.length : Int) - 1 else start
    if step = 0 then (elements, .error (.valueError "slice step cannot be zero"))
    else
      match validateIndex elements.length start with
      | .error e => (elements, .error e)
      | .ok start =>
        match validateIndex elements.length stop with
        | .error e => (elements, .error e)
        | .ok stop => deleteBetween elements start stop step

/-- `__delitem__`, on the vector of a list. -/
def deleteKey (elements : List α) : DelKey → Deletion α
  | .index n => deleteIndex elements n
  | .slice s => deleteSlice elements s
  | .other typeName =>
    (elements, .error (.typeError s!"list indices must be integers or slices, not {typeName}"))

end

namespace PyList

variable {Obj : Type}

/-- `PyList::__delitem__`. -/
def delitem (l : PyList Obj) (key : DelKey) : PyList Obj × Except SliceStop Unit :=
  let l := l.normalizeStorage
  let (elements, reply) := deleteKey l.elements key
  ({ l with elements }, reply)

end PyList

/-! ## What a deletion is for -/

namespace PySlice

variable (s : PySlice)

/-- The elements at the positions that the slice does not select. -/
def keep {α : Type} (l : List α) : List α :=
  (l.zipIdx.filter fun p => decide ((p.2 : Int) ∉ s.positions l.length)).map Prod.fst

/-- Where a deletion starts: at the last element, if the start is open for a step down. -/
def deleteStart (length : Int) : Int :=
  match s.start with
  | .int n => if n = 2 ^ 63 - 1 then length - 1 else n
  | _ => if s.stepValue < 0 then length - 1 else 0

/-- The stop is the least of the 64-bit integers, or open for a step down. -/
def StopsLeast : Prop := s.stop = .int (-2 ^ 63) ∨ s.stop = .none ∧ s.stepValue < 0

/-- The slice selects nothing, it starts within a list or at its end, and a stop that is the least integer does not come after
the start. -/
structure DeletesNothing (length : Int) : Prop where
  fits : s.Fits
  empty : s.positions length = []
  start : -length ≤ s.deleteStart length ∧ s.deleteStart length ≤ length
  stop : s.StopsLeast → 0 < length ∧ (0 < s.stepValue →
    length - 1 ≤ if s.deleteStart length < 0 then s.deleteStart length + length else s.deleteStart length)

end PySlice

namespace PyList

variable {Obj : Type}

/-- What is asked of `del l[key]`. -/
def DeletesRight (l : PyList Obj) (key : DelKey) : Prop :=
  match key with
  | .index i =>
    match listPosition i l.contents.length with
    | some k => (l.delitem key).2 = .ok () ∧ (l.delitem key).1.contents = l.contents.eraseIdx k
    | none => (∃ message, (l.delitem key).2 = .error (.indexError message)) ∧ (l.delitem key).1.contents = l.contents
  | .slice s => (l.delitem key).2 = .ok () ∧ (l.delitem key).1.contents = s.keep l.contents
  | .other _ => (∃ message, (l.delitem key).2 = .error (.typeError message)) ∧ (l.delitem key).1.contents = l.contents

end PyList

namespace DelKey

/-- A slice is of integers and `None`, with a step other than 0. -/
def Proper (key : DelKey) : Prop := ∀ s, key = .slice s → s.checkTypes = .ok () ∧ s.stepValue ≠ 0

/-- The keys that are deleted right from a list of a length. -/
def Deletable (key : DelKey) (length : Int) : Prop :=
  match key with
  | .index i => i ≠ length ∧ -2 ^ 63 < i ∧ i < 2 ^ 64
  | .slice s => s.DeletesNothing length
  | .other _ => True

end DelKey

/-! ## Positions -/

section

variable {α : Type}

theorem validateIndex_eq {size : Nat} {i : Int} (hi : -2 ^ 63 < i ∧ i < 2 ^ 64) :
    validateIndex size i = if -(size : Int) ≤ i ∧ i ≤ size then .ok (if i < 0 then i + size else i).toNat
      else .error (.indexError "list deletion index out of range") := by
  unfold validateIndex
  by_cases h0 : 0 ≤ i
  · rw [if_pos h0, if_pos hi.2, if_neg (show ¬ i < 0 by omega)]
    split
    next h => rw [if_neg (by omega)]
    next h => rw [if_pos (by omega)]
  · rw [if_neg h0, if_pos (fitsSlong_iff.mpr (by omega)),
      PySlice.int64_of_fits (fitsSlong_iff.mpr (by omega)), if_pos (show i < 0 by omega)]
    show (if size < (-i).toNat then _ else _) = _
    split
    next h => rw [if_neg (by omega)]
    next h =>
      rw [if_pos (by omega)]
      congr 1
      omega

theorem validateIndex_out (size : Nat) {i : Int} (hi : ¬ (-2 ^ 63 < i ∧ i < 2 ^ 64)) :
    validateIndex size i = .error .abort ∨ validateIndex size i = .error .undefined := by
  unfold validateIndex
  by_cases h0 : 0 ≤ i
  · rw [if_pos h0, if_neg (by omega)]
    exact .inl rfl
  · rw [if_neg h0]
    split
    next hfits =>
      have hi' := fitsSlong_iff.mp hfits
      rw [int64, if_neg (by rw [fitsSlong_iff]; omega)]
      exact .inr rfl
    next => exact .inl rfl

theorem validateIndex_ok_iff {size k : Nat} {i : Int} (hsize : fitsSlong size = true) (hfits : fitsSlong i = true) :
    validateIndex size i = .ok k ↔ (-(size : Int) ≤ i ∧ i ≤ size) ∧ (k : Int) = if i < 0 then i + size else i := by
  rw [fitsSlong_iff] at hsize hfits
  by_cases hi : -2 ^ 63 < i
  · rw [validateIndex_eq ⟨hi, by omega⟩]
    constructor
    · intro h
      split at h
      next hin =>
        cases h
        refine ⟨hin, ?_⟩
        split <;> omega
      next => cases h
    · intro h
      obtain ⟨hin, hk⟩ := h
      rw [if_pos hin]
      congr 1
      split at hk <;> split <;> omega
  · constructor
    · intro h
      rcases validateIndex_out size (i := i) (by omega) with hout | hout <;> cases hout.symm.trans h
    · omega

theorem deleteIndex_length (elements : List α) (idx : Int) :
    (deleteIndex elements idx).1.length ≤ elements.length ∧
      ((deleteIndex elements idx).2 = .ok () → (deleteIndex elements idx).1.length < elements.length) := by
  unfold deleteIndex
  split
  next => exact ⟨Nat.le_refl _, nofun⟩
  next k hk =>
    split
    next hlt =>
      have hlen := List.length_eraseIdx_of_lt hlt
      dsimp only
      omega
    next => exact ⟨Nat.le_refl _, nofun⟩

theorem deleteUp_length {step : Int} (hstep : 0 < step) (elements : List α) (idx stop : Int) :
    (deleteUp step hstep elements idx stop).1.length ≤ elements.length ∧
      (idx < stop → (deleteUp step hstep elements idx stop).2 = .ok () →
        (deleteUp step hstep elements idx stop).1.length < elements.length) := by
  fun_induction deleteUp step hstep elements idx stop with
  | case1 elements idx stop hlt left e heq =>
    have h := deleteIndex_length elements idx
    rw [heq] at h
    exact ⟨h.1, fun _ h' => by cases h'⟩
  | case2 elements idx stop hlt left heq hfits ih =>
    have h := deleteIndex_length elements idx
    rw [heq] at h
    have hless := h.2 rfl
    dsimp only at hless
    omega
  | case3 elements idx stop hlt left heq hfits =>
    have h := deleteIndex_length elements idx
    rw [heq] at h
    exact ⟨h.1, fun _ h' => by cases h'⟩
  | case4 elements idx stop hlt => exact ⟨Nat.le_refl _, fun h => absurd h hlt⟩

theorem keep_eq_self_iff {s : PySlice} (hstep : s.stepValue ≠ 0) (l : List α) : s.keep l = l ↔ s.positions l.length = [] := by
  unfold PySlice.keep
  constructor
  · intro h
    have hlen := congrArg List.length h
    have hzip : l.zipIdx.length = l.length := List.length_zipIdx
    rw [List.length_map] at hlen
    have hall := List.length_filter_eq_length_iff.mp (hlen.trans hzip.symm)
    rw [List.eq_nil_iff_forall_not_mem]
    intro i hi
    obtain ⟨h0, hlt⟩ := PySlice.positions_mem hstep (by omega) hi
    have hk : i.toNat < l.length := by omega
    have hmem : (l[i.toNat], i.toNat) ∈ l.zipIdx := by
      rw [List.mk_mem_zipIdx_iff_getElem?]
      exact List.getElem?_eq_getElem hk
    have hnot := of_decide_eq_true (hall _ hmem)
    rw [Int.toNat_of_nonneg h0] at hnot
    exact hnot hi
  · intro h
    rw [h, List.filter_eq_self.mpr fun _ _ => decide_eq_true List.not_mem_nil, List.zipIdx_map_fst]

/-! ## Slices -/

theorem deleteBetween_unchanged (elements : List α) {start stop step : Int}
    (h : if 0 < step then stop ≤ start else start ≤ stop ∨ start = stop + 1) :
    deleteBetween elements start stop step = (elements, .ok ()) := by
  unfold deleteBetween
  split
  next hup =>
    rw [if_pos hup] at h
    split
    next => rfl
    next hle =>
      obtain rfl : stop = start := by omega
      split
      next => rw [List.take_append_drop]
      next => rw [deleteUp, if_neg (Int.lt_irrefl _)]
  next hup =>
    rw [if_neg hup] at h
    split
    next =>
      split
      next => rfl
      next hlt => rw [deleteDown, if_neg (by omega)]
    next => rfl

theorem deleteBetween_length (elements : List α) {start stop step : Int} (hstep : 0 < step) (hlt : start < stop)
    (h0 : 0 ≤ start) (hle : stop ≤ elements.length) (hok : (deleteBetween elements start stop step).2 = .ok ()) :
    (deleteBetween elements start stop step).1.length < elements.length := by
  unfold deleteBetween at hok ⊢
  rw [dif_pos hstep, if_neg (by omega)] at hok ⊢
  split
  next =>
    dsimp only
    rw [List.length_append, List.length_take, List.length_drop]
    omega
  next hne =>
    rw [if_neg hne] at hok
    exact (deleteUp_length hstep elements start stop).2 hlt hok

end

namespace PySlice

variable {s : PySlice}

instance : Decidable s.StopsLeast := inferInstanceAs (Decidable (_ ∨ _))

theorem deleteStart_eq (s : PySlice) (length : Int) :
    (if s.start.value (if s.stepValue < 0 then 2 ^ 63 - 1 else 0) = 2 ^ 63 - 1 then length - 1
      else s.start.value (if s.stepValue < 0 then 2 ^ 63 - 1 else 0)) = s.deleteStart length := by
  unfold deleteStart SliceItem.value
  cases s.start with
  | int n => rfl
  | none =>
    dsimp only
    split <;> rfl
  | other =>
    dsimp only
    split <;> rfl

theorem stopsLeast_iff (hstop : s.stop ≠ .other) :
    s.stop.value (if s.stepValue < 0 then -2 ^ 63 else 2 ^ 63 - 1) = -2 ^ 63 ↔ s.StopsLeast := by
  unfold StopsLeast SliceItem.value
  cases h : s.stop with
  | int n => simp
  | other => exact absurd h hstop
  | none =>
    dsimp only
    split
    next hneg => simp [hneg]
    next hneg => simp [hneg]

theorem deleteStart_fits (hfits : s.start.Fits) {size : Nat} (hsize : fitsSlong size = true) :
    fitsSlong (s.deleteStart size) = true := by
  rw [fitsSlong_iff] at hsize ⊢
  unfold deleteStart
  cases h : s.start with
  | int n =>
    have hn := fitsSlong_iff.mp (hfits n h)
    dsimp only
    split <;> omega
  | none =>
    dsimp only
    split <;> omega
  | other =>
    dsimp only
    split <;> omega

theorem positions_of_stopsLeast (hpos : 0 < s.stepValue) (h : s.StopsLeast) {length : Int} (h0 : 0 ≤ length)
    (hlength : fitsSlong length = true) : s.positions length = [] := by
  rw [fitsSlong_iff] at hlength
  rcases h with hstop | ⟨-, hneg⟩
  · obtain ⟨hstart, -⟩ := s.indices_bounds h0
    rcases ends_cases s.stepValue length with ⟨hneg, -, -⟩ | ⟨hnot, hl, hu⟩
    · omega
    · have hends : (s.indices length).stop = 0 := by
        unfold indices bound clamp
        rw [hstop]
        dsimp only
        rw [hl]
        omega
      unfold positions
      rw [PyRange.values_eq_nil, len_eq_zero_iff (r := s.indices length) (Int.ne_of_gt hpos), hends]
      rw [if_neg (show ¬ (s.indices length).step < 0 from hnot)]
      omega
  · omega

end PySlice

theorem deleteSlice_eq {α : Type} {s : PySlice} (hs : s.checkTypes = .ok ()) (hstep : s.stepValue ≠ 0) (hfits : s.Fits)
    (elements : List α) : deleteSlice elements s =
      match validateIndex elements.length (s.deleteStart elements.length) with
      | .error e => (elements, .error e)
      | .ok start =>
        match validateIndex elements.length
          (if s.StopsLeast then (elements.length : Int) - 1 else s.deleteStart elements.length) with
        | .error e => (elements, .error e)
        | .ok stop => deleteBetween elements start stop s.stepValue := by
  obtain ⟨-, hstop, -⟩ := PySlice.checkTypes_ok hs
  unfold deleteSlice
  rw [PySlice.unpack_of_fits hs hstep hfits]
  dsimp only
  rw [if_neg hstep, PySlice.deleteStart_eq, ite_congr (propext (PySlice.stopsLeast_iff hstop)) (fun _ => rfl) fun _ => rfl]

section

variable {α : Type} {s : PySlice} {elements : List α} {start stop : Nat}

theorem fits_last {size : Nat} (h : fitsSlong size = true) : fitsSlong ((size : Int) - 1) = true := by
  rw [fitsSlong_iff] at h ⊢
  omega

/-- A slice that leaves what it should does not erase: the one that would has the least of the integers for its stop, so
nothing should go. -/
theorem not_erases (hstep : s.stepValue ≠ 0) (hsize : fitsSlong elements.length = true)
    (hstart : validateIndex elements.length (s.deleteStart elements.length) = .ok start)
    (hstop : validateIndex elements.length
      (if s.StopsLeast then (elements.length : Int) - 1 else s.deleteStart elements.length) = .ok stop)
    (hok : (deleteBetween elements start stop s.stepValue).2 = .ok ())
    (hleft : (deleteBetween elements start stop s.stepValue).1 = s.keep elements) : ¬ (0 < s.stepValue ∧ start < stop) := by
  intro h
  obtain ⟨hup, hlt⟩ := h
  have hleast : s.StopsLeast := by
    by_contra hnot
    rw [if_neg hnot, hstart] at hstop
    cases hstop
    omega
  rw [if_pos hleast] at hstop
  obtain ⟨-, hend⟩ := (validateIndex_ok_iff hsize (fits_last hsize)).mp hstop
  have hshorter := deleteBetween_length elements hup (Int.ofNat_lt.mpr hlt) (by omega) (by split at hend <;> omega) hok
  rw [hleft, (keep_eq_self_iff hstep elements).mpr (PySlice.positions_of_stopsLeast hup hleast (by omega) hsize)] at hshorter
  omega

theorem deletesNothing_of_deleteSlice (hs : s.checkTypes = .ok ()) (hstep : s.stepValue ≠ 0)
    (hsize : fitsSlong elements.length = true) (hok : (deleteSlice elements s).2 = .ok ())
    (hleft : (deleteSlice elements s).1 = s.keep elements) : s.DeletesNothing elements.length := by
  have hfits : s.Fits := by
    unfold deleteSlice at hok
    split at hok
    next => cases hok
    next hunpack => exact PySlice.unpack_fits hunpack
  rw [deleteSlice_eq hs hstep hfits] at hok hleft
  split at hok
  next => cases hok
  next start hstart =>
    split at hok
    next => cases hok
    next stop hstop =>
      rw [hstart] at hleft
      dsimp only at hleft
      rw [hstop] at hleft
      dsimp only at hleft
      have herases := not_erases hstep hsize hstart hstop hok hleft
      obtain ⟨hbounds, hbegin⟩ := (validateIndex_ok_iff hsize (PySlice.deleteStart_fits hfits.start hsize)).mp hstart
      have hcond : if 0 < s.stepValue then (stop : Int) ≤ start else (start : Int) ≤ stop ∨ (start : Int) = stop + 1 := by
        split
        next => omega
        next =>
          split at hstop
          next =>
            obtain ⟨-, hend⟩ := (validateIndex_ok_iff hsize (fits_last hsize)).mp hstop
            split at hbegin <;> split at hend <;> omega
          next =>
            cases hstart.symm.trans hstop
            omega
      rw [deleteBetween_unchanged elements hcond] at hleft
      refine ⟨hfits, (keep_eq_self_iff hstep elements).mp hleft.symm, hbounds, fun hleast => ?_⟩
      rw [if_pos hleast] at hstop
      obtain ⟨hin, hend⟩ := (validateIndex_ok_iff hsize (fits_last hsize)).mp hstop
      refine ⟨by omega, fun hup => ?_⟩
      rw [if_pos hup] at hcond
      split at hend <;> omega

theorem deleteSlice_of_deletesNothing (hs : s.checkTypes = .ok ()) (hstep : s.stepValue ≠ 0)
    (hsize : fitsSlong elements.length = true) (h : s.DeletesNothing elements.length) :
    deleteSlice elements s = (elements, .ok ()) := by
  obtain ⟨hfits, -, hbounds, hcond⟩ := h
  have hstart := (validateIndex_ok_iff (k := (if s.deleteStart elements.length < 0 then
    s.deleteStart elements.length + elements.length else s.deleteStart elements.length).toNat) hsize
    (PySlice.deleteStart_fits hfits.start hsize)).mpr ⟨hbounds, by split <;> omega⟩
  rw [deleteSlice_eq hs hstep hfits, hstart]
  dsimp only
  by_cases hleast : s.StopsLeast
  · obtain ⟨hne, hafter⟩ := hcond hleast
    have hstop := (validateIndex_ok_iff (k := elements.length - 1) hsize (fits_last hsize)).mpr
      ⟨by omega, by split <;> omega⟩
    rw [if_pos hleast, hstop]
    refine deleteBetween_unchanged elements ?_
    split
    next hup =>
      have := hafter hup
      omega
    next => split <;> omega
  · rw [if_neg hleast, hstart]
    refine deleteBetween_unchanged elements ?_
    split <;> omega

theorem deleteSlice_iff (hs : s.checkTypes = .ok ()) (hstep : s.stepValue ≠ 0) (elements : List α)
    (hsize : fitsSlong elements.length = true) :
    (deleteSlice elements s).2 = .ok () ∧ (deleteSlice elements s).1 = s.keep elements ↔
      s.DeletesNothing elements.length := by
  constructor
  · intro h
    obtain ⟨hok, hleft⟩ := h
    exact deletesNothing_of_deleteSlice hs hstep hsize hok hleft
  · intro h
    rw [deleteSlice_of_deletesNothing hs hstep hsize h, (keep_eq_self_iff hstep elements).mpr h.empty]
    exact ⟨rfl, rfl⟩

end

theorem deleteIndex_of_lt {α : Type} {elements : List α} {i : Int} {k : Nat} (hi : -2 ^ 63 < i ∧ i < 2 ^ 64)
    (hk : listPosition i elements.length = some k) : deleteIndex elements i = (elements.eraseIdx k, .ok ()) := by
  have hlt := PyList.listPosition_lt hk
  unfold listPosition at hk
  unfold deleteIndex
  rw [validateIndex_eq hi, if_pos (by split at hk <;> split at hk <;> first | omega | cases hk)]
  dsimp only
  have heq : (if i < 0 then i + elements.length else i).toNat = k := by
    split at hk <;> split at hk <;> cases hk
    · rw [if_pos (by assumption)]
    · rw [if_neg (by assumption)]
  rw [heq, if_pos hlt]

theorem deleteIndex_none {α : Type} {elements : List α} {i : Int} (hk : listPosition i elements.length = none) :
    (∃ message, (deleteIndex elements i).2 = .error (.indexError message)) ∧ (deleteIndex elements i).1 = elements ↔
      i ≠ elements.length ∧ -2 ^ 63 < i ∧ i < 2 ^ 64 := by
  unfold listPosition at hk
  unfold deleteIndex
  by_cases hi : -2 ^ 63 < i ∧ i < 2 ^ 64
  · rw [validateIndex_eq hi]
    by_cases hend : i = elements.length
    · subst hend
      rw [if_pos (by omega), if_neg (show ¬ (elements.length : Int) < 0 by omega)]
      dsimp only
      rw [if_neg (by omega)]
      exact ⟨fun ⟨⟨_, h⟩, _⟩ => (by cases h), fun h => absurd rfl h.1⟩
    · rw [if_neg (by split at hk <;> split at hk <;> first | omega | cases hk)]
      exact ⟨fun _ => ⟨hend, hi⟩, fun _ => ⟨⟨_, rfl⟩, rfl⟩⟩
  · rcases validateIndex_out elements.length hi with hout | hout <;> rw [hout]
    all_goals exact ⟨fun ⟨⟨_, h⟩, _⟩ => (by cases h), fun h => absurd h.2 hi⟩

namespace PyList

variable {Obj : Type} {l : PyList Obj}

theorem delitem_contents (h : l.Inv) (key : DelKey) : (l.delitem key).1.contents = (deleteKey l.contents key).1 ∧
    (l.delitem key).2 = (deleteKey l.contents key).2 := by
  unfold delitem
  rw [normalizeStorage_eq h]
  exact ⟨rfl, rfl⟩

/-- **`del l[key]` is right** but for an index at the end or with too many bits, and for the slices that select a position or
whose bounds the check refuses. -/
theorem deletesRight_iff (h : l.Inv) (hsize : fitsSlong l.contents.length = true) (key : DelKey) (hkey : key.Proper) :
    l.DeletesRight key ↔ key.Deletable l.contents.length := by
  unfold DeletesRight DelKey.Deletable
  cases key with
  | index i =>
    dsimp only
    obtain ⟨hleft, hreply⟩ := delitem_contents h (.index i)
    rw [hleft, hreply]
    show (match listPosition i l.contents.length with
      | some k => (deleteIndex l.contents i).2 = .ok () ∧ (deleteIndex l.contents i).1 = l.contents.eraseIdx k
      | none => (∃ message, (deleteIndex l.contents i).2 = .error (.indexError message)) ∧
          (deleteIndex l.contents i).1 = l.contents) ↔ _
    cases hk : listPosition i l.contents.length with
    | none => exact deleteIndex_none hk
    | some k =>
      have hlt := listPosition_lt hk
      have hin : i ≠ l.contents.length ∧ -2 ^ 63 < i ∧ i < 2 ^ 64 := by
        rw [fitsSlong_iff] at hsize
        unfold listPosition at hk
        split at hk <;> split at hk <;> first | omega | cases hk
      rw [deleteIndex_of_lt hin.2 hk]
      exact ⟨fun _ => hin, fun _ => ⟨rfl, rfl⟩⟩
  | slice s =>
    dsimp only
    obtain ⟨hleft, hreply⟩ := delitem_contents h (.slice s)
    obtain ⟨hs, hstep⟩ := hkey s rfl
    rw [hleft, hreply]
    exact deleteSlice_iff hs hstep l.contents hsize
  | other typeName =>
    obtain ⟨hleft, hreply⟩ := delitem_contents h (.other typeName)
    exact ⟨fun _ => trivial, fun _ => ⟨⟨_, hreply⟩, hleft⟩⟩

/-- The second of three elements. -/
theorem delitem_second : (create [.obj 0, .obj 1, .obj 2] : PyList Nat).DeletesRight (.index 1) :=
  (deletesRight_iff ((inv_vector _ 0).mpr (Nat.zero_le _)) (by decide) (.index 1) (by rintro s ⟨⟩)).mpr
    ⟨by decide, by decide, by decide⟩

/-- `del a[0:1]` leaves both elements, and `del a[2]` erases the end of the vector. -/
theorem delitem_wrong : (create [.obj 0, .obj 1] : PyList Nat).delitem (.slice ⟨.int 0, .int 1, .none⟩) =
      (create [.obj 0, .obj 1], .ok ()) ∧
    (create [.obj 0, .obj 1] : PyList Nat).delitem (.index 2) = (create [.obj 0, .obj 1], .error .undefined) ∧
    (⟨.int 0, .int 1, .none⟩ : PySlice).keep [ListValue.obj 0, .obj 1] = [.obj 1] ∧
    ¬ (create [.obj 0, .obj 1] : PyList Nat).DeletesRight (.slice ⟨.int 0, .int 1, .none⟩) := by
  have hdel : (create [.obj 0, .obj 1] : PyList Nat).delitem (.slice ⟨.int 0, .int 1, .none⟩) =
      (create [.obj 0, .obj 1], .ok ()) := rfl
  refine ⟨hdel, rfl, rfl, fun h => ?_⟩
  have hleft := h.2
  rw [hdel] at hleft
  cases hleft

end PyList

end Pylang.Runtime
