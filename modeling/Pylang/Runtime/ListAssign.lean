/-
`PyList::__setitem__` of a slice, against the splice of a list and the
assignment to the positions of a slice.

As in a deletion, the stop of the slice is overwritten by its start, so that a
slice of step 1 replaces nothing and another assigns nothing, but for a stop that
is the least of the 64-bit integers. The number of the new values is not looked
at, and the bounds are not put into the list.
-/
import Mathlib.Data.List.Nodup
import Pylang.Runtime.ListDelete

namespace Pylang.Runtime

open Tagged (fitsSlong fitsSlong_iff)

/-- The right-hand side: the list itself, or another object with its items and the error that ends them, if any. -/
inductive AssignValue (α E : Type) where
  | self
  | iterable (items : List α) (error : Option E)
  | notIterable

inductive AssignStop (E : Type) where
  | slice (e : SliceStop)
  | raised (e : E)
  deriving DecidableEq

/-- The vector that an assignment leaves, and how it ends. -/
abbrev Assignment (α E : Type) := List α × Except (AssignStop E) Unit

section

variable {α E : Type}

namespace AssignValue

/-- `new_values`, or the error of the iteration. -/
def newValues (elements : List α) : AssignValue α E → Except (AssignStop E) (List α)
  | self => .ok elements
  | iterable items none => .ok items
  | iterable _ (some e) => .error (.raised e)
  | notIterable => .error (.slice (.typeError "can only assign an iterable"))

def isIterable : AssignValue α E → Bool
  | notIterable => false
  | _ => true

end AssignValue

/-- `validate_index` of `__setitem__`: that of `__delitem__`, with another text. -/
def validateAssignIndex (size : Nat) (index : Int) : Except SliceStop Nat :=
  match validateIndex size index with
  | .error (.indexError _) => .error (.indexError "list assignment index out of range")
  | result => result

/-- The loop over the positions. An index that is refused is unwrapped all the same, and neither vector is asked for its
size. -/
def assignLoop (stop step : Int) (elements : List α) (i : Int) (values : List α) : Assignment α E :=
  if (if 0 < step then i < stop else stop < i) then
    match values with
    | [] => (elements, .error (.slice .undefined))
    | value :: values =>
      match validateAssignIndex elements.length i with
      | .error .undefined => (elements, .error (.slice .undefined))
      | .error _ => (elements, .error (.slice .abort))
      | .ok index =>
        if index < elements.length ∧ fitsSlong (i + step) then
          assignLoop stop step (elements.set index value) (i + step) values
        else (elements, .error (.slice .undefined))
  else (elements, .ok ())

/-- What follows the iteration over the value. -/
def assignBetween (elements : List α) (start stop step : Int) (values : List α) : Assignment α E :=
  if step = 1 then
    if 0 ≤ start ∧ start ≤ stop ∧ stop ≤ elements.length then
      (elements.take start.toNat ++ values ++ elements.drop stop.toNat, .ok ())
    else (elements, .error (.slice .undefined))
  else assignLoop stop step elements start values

def assignSlice (elements : List α) (s : PySlice) (value : AssignValue α E) : Assignment α E :=
  if value.isIterable then
    match s.unpack with
    | .error e => (elements, .error (.slice e))
    | .ok (start, stop, step) =>
      let start := if start = 2 ^ 63 - 1 then (elements.length : Int) - 1 else start
      let stop := if stop = -2 ^ 63 then (elements.length : Int) - 1 else start
      if step = 0 then (elements, .error (.slice (.valueError "slice step cannot be zero")))
      else
        match value.newValues elements with
        | .error e => (elements, .error e)
        | .ok values => assignBetween elements start stop step values
  else (elements, .error (.slice (.typeError "can only assign an iterable")))

end

/-- `PyList::__setitem__`, of a slice. -/
def PyList.setitemSlice {Obj E : Type} (l : PyList Obj) (s : PySlice) (value : AssignValue (ListValue Obj) E) :
    PyList Obj × Except (AssignStop E) Unit :=
  let l := l.normalizeStorage
  let (elements, reply) := assignSlice l.elements s value
  ({ l with elements }, reply)

/-! ## What an assignment is for -/

namespace PySlice

variable {α : Type} (s : PySlice)

/-- The selected segment is replaced; it is empty where the stop comes before the start. -/
def splice (l values : List α) : List α :=
  l.take (s.indices l.length).start.toNat ++ values ++
    l.drop (max (s.indices l.length).start (s.indices l.length).stop).toNat

/-- One value after the other is set at its position. -/
def setAll (l : List α) : List Int → List α → List α
  | i :: positions, value :: values => setAll (l.set i.toNat value) positions values
  | _, _ => l

/-- The slice selects nothing and starts within the list, a stop that is the least of the integers is not before the last
element, and a start that is the largest comes before it: there each value is that element. -/
structure Inserts (l values : List α) : Prop where
  empty : s.positions l.length = []
  start : 0 ≤ s.deleteStart l.length ∧ s.deleteStart l.length ≤ l.length
  stop : s.StopsLeast → s.deleteStart l.length = l.length - 1
  last : s.start = .int (2 ^ 63 - 1) → ∀ value ∈ values, l.getLast? = some value

/-- The values are there already, and a stop that is the least of the integers is not past the start. -/
structure Keeps (l values : List α) : Prop where
  values : values = s.slice l
  stop : s.StopsLeast →
    if 0 < s.stepValue then (l.length : Int) - 1 ≤ s.deleteStart l.length else s.deleteStart l.length ≤ (l.length : Int) - 1

/-- The assignments that are right. -/
def Assignable (l values : List α) : Prop := s.Fits ∧ if s.stepValue = 1 then s.Inserts l values else s.Keeps l values

/-- What is asked of the assignment to a slice. -/
def AssignsRight {E : Type} (l values : List α) (result : Assignment α E) : Prop :=
  if s.stepValue = 1 then result = (s.splice l values, .ok ())
  else if values.length = (s.positions l.length).length then
    result = (setAll l (s.positions l.length) values, .ok ())
  else ∃ message, result = (l, .error (.slice (.valueError message)))

end PySlice

/-! ## Reading the slice -/

namespace PySlice

variable {s : PySlice}

theorem asI64_or_abort {item : SliceItem} (default : Int) (hitem : item ≠ .other) :
    item.asI64 default = .error .abort ∨ ∃ n, item.asI64 default = .ok n := by
  unfold SliceItem.asI64
  cases item with
  | none => exact .inr ⟨default, rfl⟩
  | other => exact absurd rfl hitem
  | int n =>
    dsimp only
    split
    next => exact .inr ⟨n, rfl⟩
    next => exact .inl rfl

/-- An integer that does not fit stops the program. -/
theorem unpack_of_not_fits (hs : s.checkTypes = .ok ()) (hstep : s.stepValue ≠ 0) (h : ¬ s.Fits) :
    s.unpack = .error .abort := by
  obtain ⟨hstart', hstop', hstep'⟩ := checkTypes_ok hs
  cases hunpack : s.unpack with
  | ok bounds => exact absurd (unpack_fits hunpack) h
  | error e =>
    unfold unpack at hunpack
    rw [hs] at hunpack
    rcases asI64_or_abort 1 hstep' with hread | ⟨step, hread⟩
    · rw [hread] at hunpack
      cases hunpack
      rfl
    · have hvalue : step = s.stepValue := by
        have hfits := (SliceItem.asI64_ok.mp hread).itemFits
        rw [(asI64_ok_iff hstep').mpr hfits] at hread
        exact (Except.ok.inj hread).symm
      rw [hread] at hunpack
      replace hunpack : (if step = 0 then Except.error (SliceStop.valueError "slice step cannot be zero")
        else do
          let start ← s.start.asI64 (if step < 0 then 2 ^ 63 - 1 else 0)
          let stop ← s.stop.asI64 (if step < 0 then -2 ^ 63 else 2 ^ 63 - 1)
          .ok (start, stop, step)) = .error e := hunpack
      rw [if_neg (hvalue ▸ hstep)] at hunpack
      rcases asI64_or_abort (if step < 0 then 2 ^ 63 - 1 else 0) hstart' with hread' | ⟨start, hread'⟩
      · rw [hread'] at hunpack
        cases hunpack
        rfl
      · rcases asI64_or_abort (if step < 0 then -2 ^ 63 else 2 ^ 63 - 1) hstop' with hread'' | ⟨stop, hread''⟩
        · rw [hread', hread''] at hunpack
          cases hunpack
          rfl
        · rw [hread', hread''] at hunpack
          cases hunpack

end PySlice

section

variable {α E : Type} {s : PySlice} {l elements values : List α}

theorem assignSlice_eq (hs : s.checkTypes = .ok ()) (hstep : s.stepValue ≠ 0) (hfits : s.Fits) {value : AssignValue α E}
    (hvalue : value.newValues elements = .ok values) : assignSlice elements s value =
      assignBetween elements (s.deleteStart elements.length)
        (if s.StopsLeast then (elements.length : Int) - 1 else s.deleteStart elements.length) s.stepValue values := by
  obtain ⟨-, hstop, -⟩ := PySlice.checkTypes_ok hs
  have hiterable : value.isIterable = true := by
    cases value with
    | notIterable => cases hvalue
    | self => rfl
    | iterable items error => rfl
  unfold assignSlice
  rw [if_pos hiterable, PySlice.unpack_of_fits hs hstep hfits]
  dsimp only
  rw [if_neg hstep, hvalue, PySlice.deleteStart_eq,
    ite_congr (propext (PySlice.stopsLeast_iff hstop)) (fun _ => rfl) fun _ => rfl]

theorem assignsRight_fits (hs : s.checkTypes = .ok ()) (hstep : s.stepValue ≠ 0) {value : AssignValue α E}
    (hvalue : value.newValues l = .ok values) (h : s.AssignsRight l values (assignSlice l s value)) : s.Fits := by
  by_contra hnot
  have hiterable : value.isIterable = true := by
    cases value with
    | notIterable => cases hvalue
    | self => rfl
    | iterable items error => rfl
  have hresult : assignSlice l s value = (l, .error (.slice .abort)) := by
    unfold assignSlice
    rw [if_pos hiterable, PySlice.unpack_of_not_fits hs hstep hnot]
  unfold PySlice.AssignsRight at h
  rw [hresult] at h
  split at h
  next => simp at h
  next =>
    split at h
    next => simp at h
    next => obtain ⟨message, hmessage⟩ := h; simp at hmessage

/-! ## Step 1 -/

theorem append_singleton_eq_cons {a : α} : values ++ [a] = a :: values ↔ ∀ value ∈ values, value = a := by
  induction values with
  | nil => simp
  | cons b values ih =>
    rw [List.cons_append, List.cons.injEq, List.forall_mem_cons]
    constructor
    · intro h
      obtain ⟨rfl, h⟩ := h
      exact ⟨rfl, ih.mp h⟩
    · intro h
      obtain ⟨rfl, h⟩ := h
      exact ⟨rfl, ih.mpr h⟩

/-- Before the last element or behind it: the values are the same there if each is that element. -/
theorem insert_last (hne : l ≠ []) : l.take (l.length - 1) ++ values ++ l.drop (l.length - 1) = l ++ values ↔
    ∀ value ∈ values, l.getLast? = some value := by
  obtain ⟨init, a, rfl⟩ : ∃ init a, l = init ++ [a] :=
    ⟨l.dropLast, l.getLast hne, (List.dropLast_append_getLast hne).symm⟩
  have hlength : (init ++ [a]).length - 1 = init.length := by simp
  rw [hlength, List.take_left, List.drop_left, List.append_assoc, List.append_assoc, List.append_cancel_left_eq,
    List.singleton_append, append_singleton_eq_cons]
  simp [eq_comm]

namespace PySlice

theorem positions_one (h1 : s.stepValue = 1) (length : Nat) :
    s.positions length = [] ↔ (s.indices length).stop ≤ (s.indices length).start := by
  have hne : (s.indices length).step ≠ 0 := by show s.stepValue ≠ 0; omega
  unfold positions
  rw [PyRange.values_eq_nil, len_eq_zero_iff hne,
    if_neg (show ¬ (s.indices length).step < 0 by show ¬ s.stepValue < 0; omega)]

theorem start_one (h1 : s.stepValue = 1) {length : Nat} (hlength : fitsSlong length = true)
    (hstart : 0 ≤ s.deleteStart length ∧ s.deleteStart length ≤ length) :
    if s.start = .int (2 ^ 63 - 1) then (s.indices length).start = length ∧ s.deleteStart length = length - 1
    else (s.indices length).start = s.deleteStart length := by
  rw [fitsSlong_iff] at hlength
  have hnot : ¬ s.stepValue < 0 := by omega
  unfold deleteStart at hstart ⊢
  unfold indices bound clamp lower upper
  cases hitem : s.start with
  | int n =>
    rw [hitem] at hstart
    dsimp only at hstart ⊢
    simp only [hnot, if_false, SliceItem.int.injEq]
    split <;> split <;> simp_all <;> omega
  | none =>
    rw [hitem] at hstart
    simp [hnot]
  | other =>
    rw [hitem] at hstart
    simp [hnot]

theorem inserts_iff (h1 : s.stepValue = 1) (hlength : fitsSlong l.length = true) (hempty : s.positions l.length = [])
    (hstart : 0 ≤ s.deleteStart l.length ∧ s.deleteStart l.length ≤ l.length) :
    l.take (s.deleteStart l.length).toNat ++ values ++ l.drop (s.deleteStart l.length).toNat = s.splice l values ↔
      (s.start = .int (2 ^ 63 - 1) → ∀ value ∈ values, l.getLast? = some value) := by
  have hcross := (positions_one h1 l.length).mp hempty
  have hbegin := start_one h1 hlength hstart
  unfold splice
  rw [max_eq_left hcross]
  split at hbegin
  next hmax =>
    obtain ⟨hlo, hdelete⟩ := hbegin
    have hne : l ≠ [] := by
      intro hnil
      rw [hnil, List.length_nil] at hdelete hstart
      omega
    have hlast : (s.deleteStart l.length).toNat = l.length - 1 := by omega
    rw [hlo, hlast, Int.toNat_natCast, List.take_length, List.drop_length, List.append_nil, insert_last hne]
    simp [hmax]
  next hmax =>
    rw [hbegin]
    exact iff_of_true rfl fun h => absurd h hmax

end PySlice

theorem stop_of_splice (h1 : s.stepValue = 1) (hlength : fitsSlong l.length = true) {start stop : Int}
    (hstop : stop = if s.StopsLeast then (l.length : Int) - 1 else start) (hbounds : 0 ≤ start ∧ start ≤ stop ∧ stop ≤ l.length)
    (hsplice : l.take start.toNat ++ values ++ l.drop stop.toNat = s.splice l values) :
    s.positions l.length = [] ∧ stop = start := by
  obtain ⟨⟨hlo, hlo'⟩, hhi, hhi'⟩ := PySlice.indices_bounds_one h1 l.length
  -- as many elements are erased as are selected
  have hlengths := congrArg List.length hsplice
  simp only [PySlice.splice, List.length_append, List.length_take, List.length_drop] at hlengths
  have hempty : s.positions l.length = [] := by
    by_cases hleast : s.StopsLeast
    · exact PySlice.positions_of_stopsLeast (by omega) hleast (by omega) hlength
    · rw [if_neg hleast] at hstop
      rw [PySlice.positions_one h1]
      omega
  have hcross := (PySlice.positions_one h1 l.length).mp hempty
  exact ⟨hempty, by omega⟩

theorem assignBetween_one (h1 : s.stepValue = 1) (hlength : fitsSlong l.length = true) {stop : Int}
    (hstop : stop = if s.StopsLeast then (l.length : Int) - 1 else s.deleteStart l.length) :
    assignBetween (E := E) l (s.deleteStart l.length) stop s.stepValue values = (s.splice l values, .ok ()) ↔
      s.Inserts l values := by
  unfold assignBetween
  rw [if_pos h1]
  constructor
  · intro h
    split at h
    next hbounds =>
      have hsplice := congrArg Prod.fst h
      obtain ⟨hempty, hsame⟩ := stop_of_splice h1 hlength hstop hbounds hsplice
      have hstart : 0 ≤ s.deleteStart l.length ∧ s.deleteStart l.length ≤ l.length := ⟨hbounds.1, by omega⟩
      rw [hsame] at hsplice
      refine ⟨hempty, hstart, fun hleast => ?_, (PySlice.inserts_iff h1 hlength hempty hstart).mp hsplice⟩
      rw [if_pos hleast] at hstop
      omega
    next => simp at h
  · intro h
    have hsame : stop = s.deleteStart l.length := by
      split at hstop
      next hleast => rw [hstop, h.stop hleast]
      next => exact hstop
    rw [hsame, if_pos ⟨h.start.1, le_refl _, h.start.2⟩]
    rw [(PySlice.inserts_iff h1 hlength h.empty h.start).mpr h.last]

/-! ## The other steps -/

theorem setAll_getElem? {k : Nat} : ∀ {positions : List Int} {l values : List α}, (∀ i ∈ positions, i.toNat ≠ k) →
    (PySlice.setAll l positions values)[k]? = l[k]?
  | [], _, values, _ => by cases values <;> rfl
  | _ :: _, _, [], _ => rfl
  | i :: positions, l, value :: values, h => by
    rw [PySlice.setAll, setAll_getElem? fun j hj => h j (List.mem_cons_of_mem i hj)]
    exact List.getElem?_set_ne (h i List.mem_cons_self)

/-- Values leave a list as it is if they are there. -/
theorem setAll_eq_self {positions : List Int} {l values : List α} (hnodup : (positions.map Int.toNat).Nodup)
    (hin : ∀ i ∈ positions, i.toNat < l.length) (hlength : values.length = positions.length) :
    PySlice.setAll l positions values = l ↔ values = positions.filterMap fun i => l[i.toNat]? := by
  induction positions generalizing values with
  | nil =>
    rw [List.length_nil, List.length_eq_zero_iff] at hlength
    simp [hlength, PySlice.setAll]
  | cons i positions ih =>
    cases values with
    | nil => cases hlength
    | cons value values =>
      rw [List.map_cons, List.nodup_cons] at hnodup
      have hi := hin i List.mem_cons_self
      have ih := ih hnodup.2 (fun j hj => hin j (List.mem_cons_of_mem i hj)) (Nat.succ.inj hlength)
      have hself : l.set i.toNat l[i.toNat] = l := List.set_getElem_self hi
      rw [List.filterMap_cons, List.getElem?_eq_getElem hi, PySlice.setAll, List.cons.injEq]
      constructor
      · intro h
        have hother : ∀ j ∈ positions, j.toNat ≠ i.toNat := fun j hj heq => hnodup.1 (List.mem_map.mpr ⟨j, hj, heq⟩)
        have hget : (PySlice.setAll (l.set i.toNat value) positions values)[i.toNat]? = (l.set i.toNat value)[i.toNat]? :=
          setAll_getElem? hother
        rw [h, List.getElem?_set_self hi, List.getElem?_eq_getElem hi, Option.some.injEq] at hget
        rw [← hget, hself] at h
        exact ⟨hget.symm, ih.mp h⟩
      · intro h
        obtain ⟨rfl, hvalues⟩ := h
        rw [hself]
        exact ih.mpr hvalues

theorem positions_nodup (hstep : s.stepValue ≠ 0) (length : Nat) : ((s.positions length).map Int.toNat).Nodup := by
  unfold PySlice.positions PyRange.values
  rw [List.map_map]
  refine List.Nodup.map_on (fun i hi j hj heq => ?_) List.nodup_range
  have hbounds := s.indices_bounds (show (0 : Int) ≤ length by omega)
  have hmem {k : Nat} (hk : k ∈ List.range (s.indices length).len) : 0 ≤ (s.indices length).value k :=
    (PySlice.positions_mem hstep (by omega) (List.mem_map.mpr ⟨k, hk, rfl⟩)).1
  have hvalues : (s.indices length).value i = (s.indices length).value j := by
    have hi' := hmem hi
    have hj' := hmem hj
    have heq : ((s.indices length).value i).toNat = ((s.indices length).value j).toNat := heq
    omega
  have hproduct : (i : Int) * s.stepValue = j * s.stepValue := add_left_cancel hvalues
  exact_mod_cast mul_right_cancel₀ hstep hproduct

theorem assignLoop_done {stop step i : Int} (h : ¬ if 0 < step then i < stop else stop < i) :
    assignLoop (E := E) stop step elements i values = (elements, .ok ()) := by
  rw [assignLoop.eq_def, if_neg h]

theorem assignLoop_ne_valueError {stop step i : Int} (message : String) :
    (assignLoop (E := E) stop step elements i values).2 ≠ .error (.slice (.valueError message)) := by
  induction values generalizing elements i with
  | nil =>
    rw [assignLoop.eq_def]
    by_cases hin : if 0 < step then i < stop else stop < i
    · simp [if_pos hin]
    · simp [if_neg hin]
  | cons value values ih =>
    by_cases hin : if 0 < step then i < stop else stop < i
    · rw [assignLoop.eq_def, if_pos hin]
      dsimp only
      split
      next => simp
      next => simp
      next =>
        split
        next => exact ih
        next => simp
    · simp [assignLoop_done hin]

theorem assignLoop_behind (elements values : List α) {stop step i : Int} (hin : if 0 < step then i < stop else stop < i)
    (hi : elements.length ≤ i) (hfits : fitsSlong i = true) :
    (assignLoop (E := E) stop step elements i values).2 = .error (.slice .undefined) ∨
      (assignLoop (E := E) stop step elements i values).2 = .error (.slice .abort) := by
  rw [assignLoop.eq_def, if_pos hin]
  cases values with
  | nil => exact .inl rfl
  | cons value values =>
    rw [fitsSlong_iff] at hfits
    dsimp only
    unfold validateAssignIndex
    rw [validateIndex_eq (by omega), if_neg (show ¬ i < 0 by omega)]
    by_cases hend : i = elements.length
    · rw [if_pos (by omega), hend]
      dsimp only
      rw [if_neg (by omega)]
      exact .inl rfl
    · rw [if_neg (by omega)]
      exact .inr rfl

/-- A loop that assigns anything is wrong. -/
theorem not_right_of_runs (h1 : s.stepValue ≠ 1) (hfits : s.Fits)
    (hlength : fitsSlong l.length = true) (hleast : s.StopsLeast)
    (hruns : if 0 < s.stepValue then s.deleteStart l.length < (l.length : Int) - 1
      else (l.length : Int) - 1 < s.deleteStart l.length) :
    ¬ s.AssignsRight l values
      (assignLoop (E := E) ((l.length : Int) - 1) s.stepValue l (s.deleteStart l.length) values) := by
  intro h
  unfold PySlice.AssignsRight at h
  rw [if_neg h1] at h
  by_cases hup : 0 < s.stepValue
  · rw [PySlice.positions_of_stopsLeast hup hleast (by omega) hlength] at h
    split at h
    next hempty =>
      obtain rfl := List.length_eq_zero_iff.mp hempty
      have hreply := congrArg Prod.snd h
      rw [assignLoop.eq_def, if_pos hruns] at hreply
      cases hreply
    next =>
      obtain ⟨message, hmessage⟩ := h
      exact assignLoop_ne_valueError message (congrArg Prod.snd hmessage)
  · have hbehind := assignLoop_behind (E := E) l values hruns (by rw [if_neg hup] at hruns; omega)
      (PySlice.deleteStart_fits hfits.start hlength)
    split at h
    next => rcases hbehind with hreply | hreply <;> rw [h] at hreply <;> cases hreply
    next =>
      obtain ⟨message, hmessage⟩ := h
      rcases hbehind with hreply | hreply <;> rw [hmessage] at hreply <;> cases hreply

/-- With another step. -/
theorem assignBetween_other (h1 : s.stepValue ≠ 1) (hstep : s.stepValue ≠ 0) (hfits : s.Fits)
    (hlength : fitsSlong l.length = true) {stop : Int}
    (hstop : stop = if s.StopsLeast then (l.length : Int) - 1 else s.deleteStart l.length) :
    s.AssignsRight l values (assignBetween (E := E) l (s.deleteStart l.length) stop s.stepValue values) ↔
      s.Keeps l values := by
  unfold assignBetween
  rw [if_neg h1]
  by_cases hruns : if 0 < s.stepValue then s.deleteStart l.length < stop else stop < s.deleteStart l.length
  · have hleast : s.StopsLeast := by
      by_contra hnot
      rw [if_neg hnot] at hstop
      split at hruns <;> omega
    rw [if_pos hleast] at hstop
    subst hstop
    refine iff_of_false (not_right_of_runs h1 hfits hlength hleast hruns) fun h => ?_
    have hkeep := h.stop hleast
    split at hruns <;> simp_all <;> omega
  · rw [assignLoop_done hruns]
    have hcond : s.StopsLeast → if 0 < s.stepValue then (l.length : Int) - 1 ≤ s.deleteStart l.length
        else s.deleteStart l.length ≤ (l.length : Int) - 1 := by
      intro hleast
      rw [if_pos hleast] at hstop
      split at hruns <;> simp_all
    have hin : ∀ i ∈ s.positions l.length, i.toNat < l.length := by
      intro i hi
      obtain ⟨h0, hlt⟩ := PySlice.positions_mem hstep (by omega) hi
      omega
    unfold PySlice.AssignsRight
    rw [if_neg h1]
    constructor
    · intro h
      split at h
      next hsame =>
        have hself := (congrArg Prod.fst h).symm
        exact ⟨(setAll_eq_self (positions_nodup hstep l.length) hin hsame).mp hself, hcond⟩
      next =>
        obtain ⟨message, hmessage⟩ := h
        cases hmessage
    · intro h
      have hsame : values.length = (s.positions l.length).length := by
        rw [h.values, PySlice.slice]
        refine List.filterMap_length_eq_length.mpr fun i hi => ?_
        rw [List.getElem?_eq_getElem (hin i hi)]
        rfl
      rw [if_pos hsame, (setAll_eq_self (positions_nodup hstep l.length) hin hsame).mpr h.values]

end

namespace PyList

variable {Obj E : Type} {l : PyList Obj}

/-- **`l[s] = xs` is right** where a slice of step 1 selects nothing and starts within the list, and where the values are
there already for another. -/
theorem assignsRight_iff (h : l.Inv) (hsize : fitsSlong l.contents.length = true) (s : PySlice)
    (hs : s.checkTypes = .ok ()) (hstep : s.stepValue ≠ 0) {value : AssignValue (ListValue Obj) E}
    {values : List (ListValue Obj)} (hvalue : value.newValues l.contents = .ok values) :
    s.AssignsRight l.contents values ((l.setitemSlice s value).1.contents, (l.setitemSlice s value).2) ↔
      s.Assignable l.contents values := by
  have hresult : ((l.setitemSlice s value).1.contents, (l.setitemSlice s value).2) = assignSlice l.contents s value := by
    unfold setitemSlice
    rw [normalizeStorage_eq h]
    rfl
  rw [hresult]
  unfold PySlice.Assignable
  by_cases hfits : s.Fits
  · rw [assignSlice_eq hs hstep hfits hvalue]
    by_cases h1 : s.stepValue = 1
    · rw [if_pos h1]
      unfold PySlice.AssignsRight
      rw [if_pos h1]
      exact (assignBetween_one h1 hsize rfl).trans (and_iff_right hfits).symm
    · rw [if_neg h1]
      exact (assignBetween_other h1 hstep hfits hsize rfl).trans (and_iff_right hfits).symm
  · exact iff_of_false (fun hright => hfits (assignsRight_fits hs hstep hvalue hright)) fun hcond => hfits hcond.1

/-- `a[1:1] = a`. -/
theorem assign_inserted : (⟨.int 1, .int 1, .none⟩ : PySlice).AssignsRight [.obj 0, .obj 1] [.obj 0, .obj 1]
    (((create [.obj 0, .obj 1] : PyList Nat).setitemSlice (E := Empty) ⟨.int 1, .int 1, .none⟩ .self).1.contents,
      ((create [.obj 0, .obj 1] : PyList Nat).setitemSlice (E := Empty) ⟨.int 1, .int 1, .none⟩ .self).2) := by
  refine (assignsRight_iff (l := create [.obj 0, .obj 1]) ((inv_vector _ 0).mpr (Nat.zero_le _)) (by decide) _ rfl
    (by decide) (rfl : (AssignValue.self : AssignValue (ListValue Nat) Empty).newValues _ = .ok _)).mpr
    ⟨⟨?_, ?_, ?_⟩, ⟨rfl, by decide, fun h => ?_, fun h => ?_⟩⟩
  · intro n hn
    cases hn
    decide
  · intro n hn
    cases hn
    decide
  · exact fun n hn => nomatch hn
  · exact absurd h (by decide)
  · exact absurd h (by decide)

/-- `a[0:1] = [2]` inserts the 2 and replaces nothing. -/
theorem assign_inserts_only : ¬ (⟨.int 0, .int 1, .none⟩ : PySlice).AssignsRight [.obj 0, .obj 1] [.obj 2]
    (((create [.obj 0, .obj 1] : PyList Nat).setitemSlice (E := Empty) ⟨.int 0, .int 1, .none⟩ (.iterable [.obj 2] none)).1.contents,
      ((create [.obj 0, .obj 1] : PyList Nat).setitemSlice (E := Empty) ⟨.int 0, .int 1, .none⟩ (.iterable [.obj 2] none)).2) := by
  intro h
  have hright : ([.obj 2, .obj 0, .obj 1] : List (ListValue Nat)) = [.obj 2, .obj 1] := congrArg Prod.fst h
  cases hright

end PyList

end Pylang.Runtime
