/-
`unpack_sequence` and `unpack_ex`, against what the iterable yields. The loops
ask for one item after the other, and an iterable may yield items without end.

The number of elements of a tuple or a list is compared as an `int32_t`, and so
is that of the elements `unpack_ex` has collected. `unpack_sequence` knows only
`StopIteration` itself for the end, and no exception derived from it.
-/
import Mathlib
import Pylang.Runtime.ListStorage

namespace Pylang.Runtime

/-- An exception of `next`: its type is `StopIteration`, or derived from it, or another. -/
inductive NextError (E : Type) where
  | stopIteration
  | derived
  | error (e : E)
  deriving DecidableEq

inductive UnpackStop (E : Type) where
  | valueError (message : String)
  | raised (e : NextError E)
  | undefined
  deriving DecidableEq

/-- The results of the calls of `next` of an iterator, one after the other. -/
abbrev Nexts (Obj E : Type) := Nat → Except (NextError E) (ListValue Obj)

/-- An exact tuple, an exact list, or another object with what `iter` gives. -/
inductive Unpackable (Obj E : Type) where
  | tuple (elements : List (ListValue Obj))
  | list (l : { l : PyList Obj // l.Inv })
  | other (iter : Except (NextError E) (Nexts Obj E))

/-- `static_cast<int32_t>` of a size. -/
def toInt32 (size : Nat) : Int := (size : Int).bmod (2 ^ 32)

/-- An `int32_t` that is not negative. -/
abbrev Count := Fin (2 ^ 31)

namespace Unpackable

variable {Obj E : Type}

/-- `PyTupleIterator` and `PyListIterator`, or the iterator of the object. -/
def iter : Unpackable Obj E → Except (NextError E) (Nexts Obj E)
  | tuple elements => .ok fun i =>
    match elements[i]? with
    | some value => .ok value
    | none => .error .stopIteration
  | list l => .ok fun i => if i < l.val.logicalSize then .ok (l.val.uncheckedValueAt i) else .error .stopIteration
  | other iter => iter

/-- The fast paths of `unpack_sequence`. -/
def unpackElements (elements : List (ListValue Obj)) (count : Count) : Except (UnpackStop E) (List (ListValue Obj)) :=
  if toInt32 elements.length ≠ count.val then
    if toInt32 elements.length < count.val then
      .error (.valueError s!"not enough values to unpack (expected {count.val}, got {elements.length})")
    else .error (.valueError s!"too many values to unpack (expected {count.val})")
  else .ok (elements.take count)

/-- The loop of `unpack_sequence` from item `i` on, with as many left, and the call of `next` after it. -/
def unpackRest (next : Nexts Obj E) (count i : Nat) : Nat → Except (UnpackStop E) (List (ListValue Obj))
  | 0 =>
    match next i with
    | .ok _ => .error (.valueError s!"too many values to unpack (expected {count})")
    | .error .stopIteration => .ok []
    | .error e => .error (.raised e)
  | left + 1 =>
    match next i with
    | .ok value => (unpackRest next count (i + 1) left).map (value :: ·)
    | .error .stopIteration =>
      .error (.valueError s!"not enough values to unpack (expected {count}, got {i})")
    | .error e => .error (.raised e)

/-- The generic path of `unpack_sequence`. -/
def unpackIter (x : Unpackable Obj E) (count : Count) : Except (UnpackStop E) (List (ListValue Obj)) :=
  match x.iter with
  | .ok next => unpackRest next count 0 count
  | .error e => .error (.raised e)

def unpackSequence (x : Unpackable Obj E) (count : Count) : Except (UnpackStop E) (List (ListValue Obj)) :=
  match x with
  | tuple elements => unpackElements elements count
  | list l => unpackElements l.val.normalizeStorage.elements count
  | other iter => unpackIter (other iter) count

/-- What `unpack_ex` stores: the values before the star, the elements of the new list, and the values after it. -/
structure Starred (Obj : Type) where
  front : List (ListValue Obj)
  middle : List (ListValue Obj)
  back : List (ListValue Obj)
  deriving DecidableEq

/-- The loop of `unpack_ex` from item `i` on. -/
def _collect (next : Nexts Obj E) (i : Nat) : Option (Except (NextError E) (List (ListValue Obj))) := do
  match next i with
  | .ok value =>
    let values ← _collect next (i + 1)
    return values.map (value :: ·)
  | .error (.error e) => return .error (.error e)
  | .error _ => return .ok []
partial_fixpoint

/-- What follows the loop; the sum of the counts may overflow. -/
def store (elements : List (ListValue Obj)) (before after : Count) : Except (UnpackStop E) (Starred Obj) :=
  let total := toInt32 elements.length
  let minRequired := before.val + after.val
  if 2 ^ 31 ≤ minRequired then .error .undefined
  else if total < minRequired then
    .error (.valueError s!"not enough values to unpack (expected at least {minRequired}, got {total})")
  else
    let middle := (total - before.val - after.val).toNat
    .ok ⟨elements.take before, (elements.drop before).take middle, (elements.drop (before + middle)).take after⟩

/-- `unpack_ex`; nothing, if the items do not end. -/
def unpackEx (x : Unpackable Obj E) (before after : Count) : Option (Except (UnpackStop E) (Starred Obj)) :=
  match x.iter with
  | .ok next => (_collect next 0).map fun
    | .ok elements => store elements before after
    | .error e => .error (.raised e)
  | .error e => some (.error (.raised e))

/-! ## What is asked of it -/

/-- From item `i` on, the iterator yields these items and ends. -/
inductive Yields (next : Nexts Obj E) : Nat → List (ListValue Obj) → Prop where
  | stop {i : Nat} : next i = .error .stopIteration ∨ next i = .error .derived → Yields next i []
  | item {i : Nat} {value : ListValue Obj} {values : List (ListValue Obj)} :
      next i = .ok value → Yields next (i + 1) values → Yields next i (value :: values)

def Iterated (x : Unpackable Obj E) (values : List (ListValue Obj)) : Prop :=
  ∃ next, x.iter = .ok next ∧ Yields next 0 values

/-- It succeeds for as many items as there are targets, and gives them in their order, whatever the path. -/
structure SequenceRight (x : Unpackable Obj E) (count : Count) : Prop where
  delivers : ∀ values, x.unpackSequence count = .ok values ↔ x.Iterated values ∧ values.length = count
  agrees : x.unpackSequence count = x.unpackIter count

/-- It succeeds for no fewer items than there are targets, which are cut in three. -/
structure ExRight (x : Unpackable Obj E) (before after : Count) : Prop where
  delivers : ∀ s : Starred Obj, x.unpackEx before after = some (.ok s) ↔
    x.Iterated (s.front ++ s.middle ++ s.back) ∧ s.front.length = before ∧ s.back.length = after
  defined : x.unpackEx before after ≠ some (.error .undefined)

/-- The size fits, or looks too large where it is; no other iterator ends as asked but with an exception derived from
`StopIteration`. -/
def SequenceFits (count : Count) : Unpackable Obj E → Prop
  | tuple elements => elements.length < 2 ^ 31 ∨ count.val < toInt32 elements.length
  | list l => l.val.contents.length < 2 ^ 31 ∨ count.val < toInt32 l.val.contents.length
  | other iter => ∀ next, iter = .ok next → (∀ i < count.val, (next i).isOk) → next count ≠ .error .derived

/-- Of what ends, the number of items and that of the targets fit an `int32_t`. -/
def ExFits (x : Unpackable Obj E) (before after : Count) : Prop :=
  ∀ values, x.Iterated values → values.length < 2 ^ 31 ∧ before.val + after.val < 2 ^ 31

section

variable {next : Nexts Obj E} {values values' elements : List (ListValue Obj)} {i left count : Nat}

theorem toInt32_of_lt (h : i < 2 ^ 31) : toInt32 i = i := Int.bmod_eq_of_le (by omega) (by omega)

theorem toInt32_lt (size : Nat) : toInt32 size < 2 ^ 31 := Int.bmod_lt (by decide)

/-! ## Iterations -/

theorem Yields.isOk (h : Yields next i values) : ∀ k < values.length, (next (i + k)).isOk := by
  induction h with
  | stop => exact fun k hk => (nomatch hk)
  | @item i value values hvalue _ ih =>
    intro k hk
    cases k with
    | zero => rw [Nat.add_zero, hvalue]; rfl
    | succ k =>
      have := ih k (Nat.lt_of_succ_lt_succ hk)
      rwa [Nat.succ_add_eq_add_succ] at this

theorem Yields.last (h : Yields next i values) :
    next (i + values.length) = .error .stopIteration ∨ next (i + values.length) = .error .derived := by
  induction h with
  | stop hstop => exact hstop
  | @item i value values _ _ ih =>
    rwa [Nat.succ_add_eq_add_succ] at ih

theorem Yields.unique (h : Yields next i values) (h' : Yields next i values') : values = values' := by
  induction h generalizing values' with
  | stop hstop =>
    cases h' with
    | stop => rfl
    | item hvalue => rw [hvalue] at hstop; simp at hstop
  | item hvalue _ ih =>
    cases h' with
    | stop hstop => rw [hvalue] at hstop; simp at hstop
    | item hvalue' hrest =>
      rw [hvalue] at hvalue'
      cases hvalue'
      rw [ih hrest]

theorem exists_yields (hitems : ∀ k < left, (next (i + k)).isOk)
    (hstop : next (i + left) = .error .stopIteration ∨ next (i + left) = .error .derived) :
    ∃ values, values.length = left ∧ Yields next i values := by
  induction left generalizing i with
  | zero => exact ⟨[], rfl, .stop hstop⟩
  | succ left ih =>
    obtain ⟨values, hlength, hyields⟩ := ih (i := i + 1)
      (fun k hk => by rw [Nat.succ_add_eq_add_succ]; exact hitems (k + 1) (Nat.succ_lt_succ hk))
      (by rwa [Nat.succ_add_eq_add_succ])
    have hfirst := hitems 0 (Nat.succ_pos left)
    cases hvalue : next i with
    | error e => rw [Nat.add_zero, hvalue] at hfirst; cases hfirst
    | ok value => exact ⟨value :: values, by rw [List.length_cons, hlength], .item hvalue hyields⟩

/-! ## `unpack_sequence` -/

theorem unpackRest_eq_ok : unpackRest next count i left = .ok values ↔
    Yields next i values ∧ values.length = left ∧ next (i + left) = .error .stopIteration := by
  induction left generalizing i values with
  | zero =>
    rw [unpackRest, Nat.add_zero]
    constructor
    · intro h
      split at h
      next => cases h
      next hstop => cases h; exact ⟨.stop (.inl hstop), rfl, hstop⟩
      next => cases h
    · intro h
      obtain ⟨-, hlength, hstop⟩ := h
      rw [hstop, List.length_eq_zero_iff.mp hlength]
  | succ left ih =>
    rw [unpackRest]
    cases hvalue : next i with
    | ok value =>
      dsimp only
      constructor
      · intro h
        cases hrest : unpackRest next count (i + 1) left with
        | error e => rw [hrest] at h; cases h
        | ok rest =>
          rw [hrest] at h
          cases h
          obtain ⟨hyields, hlength, hstop⟩ := ih.mp hrest
          exact ⟨.item hvalue hyields, by rw [List.length_cons, hlength], by rwa [Nat.succ_add_eq_add_succ] at hstop⟩
      · intro h
        obtain ⟨hyields, hlength, hstop⟩ := h
        cases hyields with
        | stop hend => rw [hvalue] at hend; simp at hend
        | item hvalue' hrest =>
          rw [hvalue] at hvalue'
          cases hvalue'
          rw [ih.mpr ⟨hrest, Nat.succ.inj hlength, by rwa [Nat.succ_add_eq_add_succ]⟩]
          rfl
    | error e =>
      have hnone : ¬ (Yields next i values ∧ values.length = left + 1 ∧ next (i + (left + 1)) = .error .stopIteration) := by
        intro h
        obtain ⟨hyields, hlength, -⟩ := h
        have hfirst := hyields.isOk 0 (by omega)
        rw [Nat.add_zero, hvalue] at hfirst
        cases hfirst
      cases e <;> simp [hnone]

theorem unpackRest_delivers {count : Nat}
    (h : (∀ i < count, (next i).isOk) → next count ≠ .error .derived) :
    unpackRest next count 0 count = .ok values ↔ Yields next 0 values ∧ values.length = count := by
  rw [unpackRest_eq_ok, Nat.zero_add]
  refine ⟨fun hok => ⟨hok.1, hok.2.1⟩, fun hyields => ⟨hyields.1, hyields.2, ?_⟩⟩
  obtain ⟨hyields, rfl⟩ := hyields
  have hlast := hyields.last
  have hitems := hyields.isOk
  simp only [Nat.zero_add] at hlast hitems
  exact hlast.resolve_right (h hitems)

/-- The iterator over elements that are there. -/
def nextsOf (elements : List (ListValue Obj)) : Nexts Obj E := fun i =>
  match elements[i]? with
  | some value => .ok value
  | none => .error .stopIteration

theorem iter_list (l : { l : PyList Obj // l.Inv }) : (list l : Unpackable Obj E).iter = .ok (nextsOf l.val.contents) := by
  show Except.ok _ = _
  refine congrArg Except.ok (funext fun i => ?_)
  rw [nextsOf, PyList.logicalSize_eq, PyList.uncheckedValueAt_eq]
  by_cases hi : i < l.val.contents.length
  · rw [if_pos hi, List.getElem?_eq_getElem hi]; rfl
  · rw [if_neg hi, List.getElem?_eq_none (by omega)]

theorem nextsOf_ne_derived : (nextsOf elements : Nexts Obj E) i ≠ .error .derived := by
  unfold nextsOf
  split <;> simp

theorem unpackRest_nextsOf (hi : i ≤ elements.length) : unpackRest (E := E) (nextsOf elements) count i left =
    if elements.length < i + left then
      .error (.valueError s!"not enough values to unpack (expected {count}, got {elements.length})")
    else if i + left < elements.length then .error (.valueError s!"too many values to unpack (expected {count})")
    else .ok (elements.drop i) := by
  induction left generalizing i with
  | zero =>
    rw [unpackRest, Nat.add_zero, if_neg (by omega)]
    by_cases hlt : i < elements.length
    · rw [if_pos hlt]
      simp [nextsOf, List.getElem?_eq_getElem hlt]
    · obtain rfl : i = elements.length := by omega
      rw [if_neg hlt]
      simp [nextsOf]
  | succ left ih =>
    rw [unpackRest]
    by_cases hlt : i < elements.length
    · have hnext : (nextsOf elements : Nexts Obj E) i = .ok elements[i] := by
        simp [nextsOf, List.getElem?_eq_getElem hlt]
      rw [hnext, ih hlt, Nat.succ_add_eq_add_succ]
      dsimp only
      split
      next => rfl
      next =>
        split
        next => rfl
        next => rw [List.drop_eq_getElem_cons hlt]; rfl
    · obtain rfl : i = elements.length := by omega
      have hnext : (nextsOf elements : Nexts Obj E) elements.length = .error .stopIteration := by simp [nextsOf]
      rw [hnext, if_pos (by omega)]

theorem unpackRest_elements (elements : List (ListValue Obj)) (count : Nat) :
    unpackRest (E := E) (nextsOf elements) count 0 count =
      if elements.length < count then
        .error (.valueError s!"not enough values to unpack (expected {count}, got {elements.length})")
      else if count < elements.length then .error (.valueError s!"too many values to unpack (expected {count})")
      else .ok elements := by
  rw [unpackRest_nextsOf (Nat.zero_le _), Nat.zero_add, List.drop_zero]

theorem notEnough_ne_tooMany (count size : Nat) : s!"not enough values to unpack (expected {count}, got {size})" ≠
    s!"too many values to unpack (expected {count})" := by
  intro h
  have hfirst := congrArg (fun s => s.toList.head?) h
  have hnot : (toString "not enough values to unpack (expected ").toList.head? = some 'n' := by decide
  have htoo : (toString "too many values to unpack (expected ").toList.head? = some 't' := by decide
  simp [hnot, htoo] at hfirst

/-- The fast path is the generic one, of a size that fits or looks too large. -/
theorem unpackElements_agrees (elements : List (ListValue Obj)) (count : Count) :
    unpackElements (E := E) elements count = unpackRest (nextsOf elements) count 0 count ↔
      elements.length < 2 ^ 31 ∨ count.val < toInt32 elements.length := by
  rw [unpackRest_elements]
  unfold unpackElements
  have hcount := count.isLt
  by_cases hfits : elements.length < 2 ^ 31
  · simp only [hfits, true_or, iff_true, toInt32_of_lt hfits]
    by_cases heq : elements.length = count.val
    · have htake : elements.take count = elements := List.take_of_length_le (by omega)
      simp [heq, htake]
    · by_cases hlt : elements.length < count.val
      · have hne : (elements.length : Int) ≠ count.val := by omega
        have hlt' : (elements.length : Int) < count.val := by omega
        simp only [hne, hlt, hlt', ne_eq, not_false_eq_true, if_true]
      · have hne : (elements.length : Int) ≠ count.val := by omega
        have hlt' : ¬ (elements.length : Int) < count.val := by omega
        have hgt : count.val < elements.length := by omega
        simp only [hne, hlt, hlt', hgt, ne_eq, not_false_eq_true, if_true, if_false]
  · have hlt : ¬ elements.length < count.val := by omega
    have hgt : count.val < elements.length := by omega
    simp only [hfits, hlt, hgt, false_or, if_true, if_false]
    by_cases heq : toInt32 elements.length = count.val
    · simp [heq]
    · simp only [heq, ne_eq, not_false_eq_true, if_true]
      by_cases hlt' : toInt32 elements.length < count.val
      · have hne := notEnough_ne_tooMany count.val elements.length
        simp only [hlt', if_true, Except.error.injEq, UnpackStop.valueError.injEq, hne, false_iff]
        omega
      · simp only [hlt', if_false, true_iff]
        omega

theorem delivers_elements {x : Unpackable Obj E} (hiter : x.iter = .ok (nextsOf elements)) (count : Count) :
    x.unpackIter count = .ok values ↔ x.Iterated values ∧ values.length = count := by
  unfold unpackIter Iterated
  rw [hiter]
  refine (unpackRest_delivers fun _ => nextsOf_ne_derived).trans (and_congr_left fun _ => ?_)
  simp

theorem sequenceRight_elements {x : Unpackable Obj E} (hiter : x.iter = .ok (nextsOf elements)) {count : Count}
    (hfast : x.unpackSequence count = unpackElements elements count) :
    x.SequenceRight count ↔ elements.length < 2 ^ 31 ∨ count.val < toInt32 elements.length := by
  have hgeneric : x.unpackIter count = unpackRest (nextsOf elements) count 0 count := by
    unfold unpackIter
    rw [hiter]
  rw [← unpackElements_agrees (E := E), ← hfast, ← hgeneric]
  refine ⟨fun h => h.agrees, fun h => ⟨fun values => ?_, h⟩⟩
  rw [h]
  exact delivers_elements hiter count

theorem sequenceRight_iff (x : Unpackable Obj E) (count : Count) : x.SequenceRight count ↔ SequenceFits count x := by
  cases x with
  | tuple elements => exact sequenceRight_elements rfl rfl
  | list l =>
    refine sequenceRight_elements (iter_list l) ?_
    show unpackElements l.val.normalizeStorage.elements count = _
    rw [PyList.normalizeStorage_eq l.property]
    rfl
  | other iter =>
    cases iter with
    | error e =>
      refine ⟨fun _ next hnext => (nomatch hnext), fun _ => ⟨fun values => ?_, rfl⟩⟩
      simp [unpackSequence, unpackIter, Unpackable.iter, Iterated]
    | ok next =>
      have hiterated (values : List (ListValue Obj)) : (other (.ok next)).Iterated values ↔ Yields next 0 values := by
        simp [Iterated, Unpackable.iter]
      constructor
      · intro h next' hnext hitems hderived
        cases hnext
        obtain ⟨values, hlength, hyields⟩ : ∃ values, values.length = count.val ∧ Yields next 0 values :=
          exists_yields (by simpa using hitems) (.inr (by simpa using hderived))
        have hok := (h.delivers values).mpr ⟨(hiterated values).mpr hyields, hlength⟩
        have hstop := (unpackRest_eq_ok.mp hok).2.2
        rw [Nat.zero_add, hderived] at hstop
        cases hstop
      · intro h
        refine ⟨fun values => ?_, rfl⟩
        rw [hiterated]
        exact unpackRest_delivers (h next rfl)

/-! ## `unpack_ex` -/

theorem collect_eq_some : _collect next i = some (.ok values) ↔ Yields next i values := by
  constructor
  · intro h
    refine _collect.partial_correctness next (fun i r => ∀ values, r = .ok values → Yields next i values)
      (fun collect ih i r hr values hvalues => ?_) i (.ok values) h values rfl
    subst hvalues
    split at hr
    next value hvalue =>
      obtain ⟨rest, hrest, hmap⟩ := Option.bind_eq_some_iff.mp hr
      cases rest with
      | error e => cases hmap
      | ok rest =>
        cases hmap
        exact .item hvalue (ih (i + 1) (.ok rest) hrest rest rfl)
    next => cases hr
    next e hne hstop =>
      cases hr
      cases e with
      | stopIteration => exact .stop (.inl hstop)
      | derived => exact .stop (.inr hstop)
      | error e => exact absurd rfl (hne e)
  · intro h
    induction h with
    | stop hstop =>
      rw [_collect]
      rcases hstop with hstop | hstop <;> rw [hstop] <;> rfl
    | item hvalue _ ih =>
      rw [_collect, hvalue]
      simp only [ih]
      rfl

theorem store_of_lt {before after : Count} (hsum : before.val + after.val < 2 ^ 31) (hlength : elements.length < 2 ^ 31) :
    store (E := E) elements before after =
      if elements.length < before.val + after.val then
        .error (.valueError s!"not enough values to unpack (expected at least {before.val + after.val}, got {(elements.length : Int)})")
      else .ok ⟨elements.take before, (elements.drop before).take (elements.length - before - after),
        elements.drop (elements.length - after)⟩ := by
  unfold store
  dsimp only
  rw [toInt32_of_lt hlength, if_neg (by omega)]
  by_cases hlt : elements.length < before.val + after.val
  · rw [if_pos (by omega), if_pos hlt]
  · rw [if_neg (by omega), if_neg hlt]
    have hmiddle : ((elements.length : Int) - before.val - after.val).toNat = elements.length - before.val - after.val := by
      omega
    have hback : (elements.drop (before.val + (elements.length - before.val - after.val))).take after.val =
        elements.drop (elements.length - after.val) := by
      rw [List.take_of_length_le (by rw [List.length_drop]; omega)]
      congr 1
      omega
    rw [hmiddle, hback]

theorem toInt32_le (size : Nat) : toInt32 size ≤ size := by
  unfold toInt32 Int.bmod
  dsimp only
  split <;> omega

theorem store_length {before after : Count} {s : Starred Obj} (h : store (E := E) elements before after = .ok s) :
    ((s.front ++ s.middle ++ s.back).length : Int) = toInt32 elements.length ∧ before.val + after.val < 2 ^ 31 := by
  unfold store at h
  dsimp only at h
  split at h
  next => cases h
  next hsum =>
    split at h
    next => cases h
    next hlt =>
      cases h
      have hle := toInt32_le elements.length
      simp only [List.length_append, List.length_take, List.length_drop]
      omega

theorem eq_of_append {s : Starred Obj} {front back : Nat} (hfront : s.front.length = front) (hback : s.back.length = back) :
    s = ⟨(s.front ++ s.middle ++ s.back).take front,
      ((s.front ++ s.middle ++ s.back).drop front).take ((s.front ++ s.middle ++ s.back).length - front - back),
      (s.front ++ s.middle ++ s.back).drop ((s.front ++ s.middle ++ s.back).length - back)⟩ := by
  subst hfront hback
  have hmiddle : (s.front ++ s.middle ++ s.back).length - s.front.length - s.back.length = s.middle.length := by
    simp only [List.length_append]
    omega
  have hlast : (s.front ++ s.middle ++ s.back).length - s.back.length = (s.front ++ s.middle).length := by
    simp only [List.length_append]
    omega
  rw [hmiddle, hlast, List.drop_left, List.append_assoc, List.take_left, List.drop_left, List.take_left]

theorem take_drop_append {front back : Nat} (h : front + back ≤ elements.length) :
    elements.take front ++ (elements.drop front).take (elements.length - front - back) ++
      elements.drop (elements.length - back) = elements := by
  have hsplit : elements.length - back = front + (elements.length - front - back) := by omega
  rw [hsplit, ← List.drop_drop, List.append_assoc, List.take_append_drop, List.take_append_drop]

theorem exists_cut {front back : Nat} (h : front + back ≤ elements.length) :
    ∃ s : Starred Obj, s.front ++ s.middle ++ s.back = elements ∧ s.front.length = front ∧ s.back.length = back := by
  refine ⟨⟨elements.take front, (elements.drop front).take (elements.length - front - back),
    elements.drop (elements.length - back)⟩, take_drop_append h, ?_, ?_⟩
  · simp only [List.length_take]
    omega
  · simp only [List.length_drop]
    omega

theorem store_eq_ok {before after : Count} (hsum : before.val + after.val < 2 ^ 31) (hlength : elements.length < 2 ^ 31)
    (s : Starred Obj) : store (E := E) elements before after = .ok s ↔
      elements = s.front ++ s.middle ++ s.back ∧ s.front.length = before ∧ s.back.length = after := by
  rw [store_of_lt hsum hlength]
  constructor
  · intro h
    split at h
    next => cases h
    next hlt =>
      cases h
      refine ⟨(take_drop_append (by omega)).symm, ?_, ?_⟩
      · rw [List.length_take]
        omega
      · rw [List.length_drop]
        omega
  · intro h
    obtain ⟨rfl, hfront, hback⟩ := h
    rw [if_neg (by simp only [List.length_append]; omega)]
    exact congrArg Except.ok (eq_of_append hfront hback).symm

section

variable {x : Unpackable Obj E} {before after : Count}

theorem iterated_iff (hiter : x.iter = .ok next) : x.Iterated values ↔ _collect next 0 = some (.ok values) := by
  rw [collect_eq_some]
  simp [Iterated, hiter]

theorem unpackEx_of_collect (before after : Count) (hiter : x.iter = .ok next)
    (hcollect : _collect next 0 = some (.ok elements)) :
    x.unpackEx before after = some (store elements before after) := by
  unfold unpackEx
  rw [hiter]
  simp [hcollect]

theorem exRight_of_not_iterated (hnone : ∀ values, ¬ x.Iterated values) : x.ExRight before after := by
  have hex : x.unpackEx before after = none ∨ ∃ e, x.unpackEx before after = some (.error (.raised e)) := by
    unfold unpackEx
    cases hiter : x.iter with
    | error e => exact .inr ⟨e, rfl⟩
    | ok next =>
      rcases hcollect : _collect next 0 with _ | e | values
      · exact .inl (by simp [hcollect])
      · exact .inr ⟨e, by simp [hcollect]⟩
      · exact absurd ((iterated_iff hiter).mpr hcollect) (hnone values)
  rcases hex with hex | ⟨e, hex⟩
  · exact ⟨fun s => by simp [hex, hnone], by simp [hex]⟩
  · exact ⟨fun s => by simp [hex, hnone], by simp [hex]⟩

theorem ExRight.fits (h : x.ExRight before after) : x.ExFits before after := by
  intro values hvalues
  obtain ⟨next, hiter, -⟩ := id hvalues
  have hresult := unpackEx_of_collect before after hiter ((iterated_iff hiter).mp hvalues)
  have hsum : before.val + after.val < 2 ^ 31 := by
    by_contra hle
    refine h.defined (hresult.trans ?_)
    unfold store
    rw [if_pos (Nat.le_of_not_lt hle)]
  refine ⟨?_, hsum⟩
  by_contra hle
  obtain ⟨s, hs, hlengths⟩ := exists_cut (show before.val + after.val ≤ values.length by omega)
  have hok := (h.delivers s).mpr ⟨by rwa [hs], hlengths⟩
  rw [hresult] at hok
  have hstored := (store_length (Option.some.inj hok)).1
  have hbound := toInt32_lt values.length
  rw [hs] at hstored
  omega

theorem ExFits.right (h : x.ExFits before after) : x.ExRight before after := by
  by_cases hsome : ∃ values, x.Iterated values
  · obtain ⟨values, hvalues⟩ := hsome
    obtain ⟨next, hiter, -⟩ := id hvalues
    obtain ⟨hlength, hsum⟩ := h values hvalues
    have hcollect := (iterated_iff hiter).mp hvalues
    have hresult := unpackEx_of_collect before after hiter hcollect
    refine ⟨fun s => ?_, ?_⟩
    · rw [hresult, Option.some.injEq, store_eq_ok hsum hlength, iterated_iff hiter, hcollect]
      simp
    · rw [hresult, store_of_lt hsum hlength]
      split <;> simp
  · exact exRight_of_not_iterated (not_exists.mp hsome)

end

/-- **Unpacking** is right for numbers of items that fit an `int32_t`, and an iterator that ends with no other exception
than `StopIteration`. -/
theorem unpackRight_iff (x : Unpackable Obj E) (count before after : Count) :
    x.SequenceRight count ∧ x.ExRight before after ↔ SequenceFits count x ∧ x.ExFits before after :=
  and_congr (sequenceRight_iff x count) ⟨ExRight.fits, ExFits.right⟩

end

/-- `a, = x`, for an iterator of one item that ends with an exception derived from `StopIteration`, and for a tuple of
2^32 + 1 elements. -/
theorem unpack_derived :
    ¬ (other (.ok fun i => if i = 0 then .ok (.bool true) else .error .derived) : Unpackable Empty Empty).SequenceRight 1 ∧
      ¬ (tuple (List.replicate (2 ^ 32 + 1) (.bool true)) : Unpackable Empty Empty).SequenceRight 1 := by
  refine ⟨fun h => ?_, fun h => ?_⟩
  · have hyields : @Yields Empty Empty (fun i => if i = 0 then .ok (.bool true) else .error .derived) 0 [.bool true] :=
      .item rfl (.stop (.inr rfl))
    have hok := (h.delivers [.bool true]).mpr ⟨⟨_, rfl, hyields⟩, rfl⟩
    cases hok
  · have hfits : (List.replicate (2 ^ 32 + 1) (.bool true : ListValue Empty)).length < 2 ^ 31 ∨
        1 < toInt32 (List.replicate (2 ^ 32 + 1) (.bool true : ListValue Empty)).length := (sequenceRight_iff _ _).mp h
    rw [List.length_replicate] at hfits
    rcases hfits with hfits | hfits
    · exact absurd hfits (by decide)
    · exact absurd hfits (by decide)

end Unpackable

end Pylang.Runtime
