/-
The three short cuts of `x.insert(i, v)` against the call of the attribute: the
intrinsics of `rt_call_method_raw_ptrs` and `rt_call_method_ic_ptrs`, and
`rt_list_insert_0_tuple2`, which stands for `x.insert(0, (a, b))`.

The intrinsics read the index with `get_si`, which drops what does not fit in 64
bits. The fused call takes every receiver for a list, whose `insert` is that of
`list`.
-/
import Pylang.Runtime.ListStorage
import Pylang.Runtime.MethodCall

namespace Pylang.Runtime

/-- `get_si` of an integer: the lowest 63 bits, and the sign. -/
def getSi (n : Int) : Int := if 0 ≤ n then n % 2 ^ 63 else -1 - (-n - 1) % 2 ^ 63

/-- The objects of the calls: the integers, the lists, and the values that are stored in lists. -/
structure InsertWorld (ο : Type) extends Methods ο where
  intValue : ο → Option Int
  value : ο → ListValue ο
  /-- The storage of an object of `list` or of a subclass. -/
  lists : ο → { l : PyList ο // l.Inv }
  /-- The 0 of the call that is fused. -/
  zero : ο
  createTuple : ο → ο → ο
  isInteger_eq : ∀ o, isInteger o = (intValue o).isSome
  intValue_zero : intValue zero = some 0

/-- What a short cut does: it changes a list itself, or makes a call. -/
inductive Insertion (ο : Type) where
  | insertRawClamped (list : ο) (index : Int) (value : ο)
  | pushFrontRaw (list : ο) (value : ο)
  | called (c : Called ο)
  | undefined

namespace InsertWorld

variable {ο : Type} [DecidableEq ο] (W : InsertWorld ο)

/-- The method `insert` of `list`. -/
def insertMethod : ο := W.builtinMethod W.list "insert"

/-- The branches that call; an intrinsic is `insert` here. -/
def insertion (S : Store ο) (created : ο) : Invocation ο → Insertion ο
  | .intrinsic owner name [index, value] =>
    match W.intValue index with
    | some n => .insertRawClamped owner (getSi n) value
    | none => .called (W.called S created (.intrinsic owner name [index, value]))
  | invocation => .called (W.called S created invocation)

/-- `rt_call_method_raw_ptrs(x, "insert", …)`. -/
def insertRaw (S : Store ο) (created owner index value : ο) : Insertion ο :=
  W.insertion S created (W.rtCallMethodRawPtrs S owner "insert" [index, value] false)

/-- `rt_call_method_ic_ptrs(cache, x, "insert", …)`. -/
def insertIc (S : Store ο) (cache : MethodCache ο) (created owner index value : ο) : Insertion ο :=
  W.insertion S created (W.rtCallMethodIcPtrs S cache owner "insert" [index, value] false).1

/-- `rt_list_insert_0_tuple2`; the object is not asked for its type. -/
def listInsert0Tuple2 (owner a b : ο) : Insertion ο :=
  if W.issubclass (W.typeOf owner) W.list then .pushFrontRaw owner (W.createTuple a b) else .undefined

/-- The call of the attribute `insert`. -/
def insertGeneric (S : Store ο) (created owner index value : ο) : Called ο :=
  W.callRead "insert" [index, value] (W.read S created owner "insert")

/-! ## What is asked of a short cut -/

/-- The elements that `list.insert` leaves. -/
def inserted (owner : ο) (n : Int) (value : ο) : List (ListValue ο) :=
  ((W.lists owner).val.insert n (W.value value)).contents

/-- The same call, or the effect of the call of `list.insert` with an integer. -/
def Alike : Insertion ο → Called ο → Prop
  | .called c, c' => c = c'
  | .insertRawClamped owner k value, c' => ∃ index n, c' = .call W.insertMethod [owner, index, value] ∧
      W.intValue index = some n ∧
      ((W.lists owner).val.insertRawClamped k (W.value value)).contents = W.inserted owner n value
  | .pushFrontRaw owner value, c' => ∃ index n, c' = .call W.insertMethod [owner, index, value] ∧
      W.intValue index = some n ∧ ((W.lists owner).val.pushFrontRaw (W.value value)).contents = W.inserted owner n value
  | .undefined, _ => False

/-- All short cuts do what the call of the attribute does. -/
structure InsertsAlike (S : Store ο) (cache : MethodCache ο) (created owner index value a b : ο) : Prop where
  raw : W.Alike (W.insertRaw S created owner index value) (W.insertGeneric S created owner index value)
  ic : W.Alike (W.insertIc S cache created owner index value) (W.insertGeneric S created owner index value)
  fused : W.Alike (W.listInsert0Tuple2 owner a b) (W.insertGeneric S created owner W.zero (W.createTuple a b))

/-- From one position up to the other, the list holds the value. -/
def Between {α : Type} (l : List α) (v : α) (i j : Nat) : Prop := ∀ k, min i j ≤ k → k < max i j → l[k]? = some v

/-- Between the place of the index and the place of what is left of it, the list holds the value. -/
def SamePlace (owner value : ο) (n : Int) : Prop :=
  Between (W.lists owner).val.contents (W.value value)
    (clampIndex (getSi n) (W.lists owner).val.contents.length) (clampIndex n (W.lists owner).val.contents.length)

/-- What the attribute is, where an intrinsic takes its place. -/
def IntrinsicAlike (S : Store ο) (owner value : ο) (n : Int) : Prop :=
  W.toClasses.lookup S (W.typeOf owner) "insert" = some W.insertMethod ∧ W.SamePlace owner value n

/-- The uncached call: of a list with an integer, or of another receiver. -/
def RawFits (S : Store ο) (owner index value : ο) : Prop :=
  match W.intValue index with
  | some n => if W.typeOf owner = W.list then W.IntrinsicAlike S owner value n
      else W.CallsAlike S owner "insert" [index, value] false
  | none => W.CallsAlike S owner "insert" [index, value] false

/-- The cached call: on a hit, the attribute is the function of the slot, bound as the tag says. -/
def HitFits (S : Store ο) (cache : MethodCache ο) (created owner index value : ο) : Prop :=
  match W.findSlot S owner cache.slots with
  | some slot => W.Gives slot.resolvedFunc (match slot.tag with | .function => some owner | .callable => none)
      (W.read S created owner "insert")
  | none => W.CallsAlike S owner "insert" [index, value] false

def IcFits (S : Store ο) (cache : MethodCache ο) (created owner index value : ο) : Prop :=
  match W.intValue index with
  | some n => if W.typeOf owner = W.list then W.IntrinsicAlike S owner value n
      else W.HitFits S cache created owner index value
  | none => W.HitFits S cache created owner index value

/-- The fused call: the attribute is the method of `list`, bound to the receiver. -/
def FusedFits (S : Store ο) (created owner : ο) : Prop :=
  W.Gives W.insertMethod (some owner) (W.read S created owner "insert")

/-! ## Positions -/

section

variable {α : Type}

theorem cons_eq_insertIdx {v : α} {d : Nat} {l : List α} (hd : d ≤ l.length) :
    v :: l = l.insertIdx d v ↔ ∀ k < d, l[k]? = some v := by
  induction d generalizing l with
  | zero => simp
  | succ d ih =>
    cases l with
    | nil => cases hd
    | cons x l =>
      have ih := ih (l := l) (Nat.le_of_succ_le_succ hd)
      rw [List.insertIdx_succ_cons, List.cons.injEq]
      constructor
      · intro h
        obtain ⟨rfl, h⟩ := h
        intro k hk
        cases k with
        | zero => rfl
        | succ k => exact ih.mp h k (Nat.lt_of_succ_lt_succ hk)
      · intro h
        have hx : x = v := by simpa using h 0 (Nat.succ_pos d)
        subst hx
        exact ⟨rfl, ih.mpr fun k hk => h (k + 1) (Nat.succ_lt_succ hk)⟩

theorem insertIdx_eq_of_le {l : List α} {v : α} {i j : Nat} (hij : i ≤ j) (hj : j ≤ l.length) :
    l.insertIdx i v = l.insertIdx j v ↔ ∀ k, i ≤ k → k < j → l[k]? = some v := by
  induction i generalizing l j with
  | zero =>
    rw [List.insertIdx_zero, cons_eq_insertIdx hj]
    simp
  | succ i ih =>
    cases l with
    | nil => simp at hj; omega
    | cons x l =>
      cases j with
      | zero => cases hij
      | succ j =>
        rw [List.insertIdx_succ_cons, List.insertIdx_succ_cons, List.cons.injEq]
        simp only [true_and]
        rw [ih (Nat.le_of_succ_le_succ hij) (Nat.le_of_succ_le_succ hj)]
        constructor
        · intro h k hik hkj
          cases k with
          | zero => cases hik
          | succ k => exact h k (Nat.le_of_succ_le_succ hik) (Nat.lt_of_succ_lt_succ hkj)
        · exact fun h k hik hkj => h (k + 1) (Nat.succ_le_succ hik) (Nat.succ_lt_succ hkj)

theorem insertIdx_eq_iff {l : List α} {v : α} {i j : Nat} (hi : i ≤ l.length) (hj : j ≤ l.length) :
    l.insertIdx i v = l.insertIdx j v ↔ Between l v i j := by
  unfold Between
  rcases Nat.le_total i j with hij | hji
  · rw [Nat.min_eq_left hij, Nat.max_eq_right hij]
    exact insertIdx_eq_of_le hij hj
  · rw [Nat.min_eq_right hji, Nat.max_eq_left hji, eq_comm]
    exact insertIdx_eq_of_le hji hi

end

/-! ## The short cuts -/

section

variable {W} {S : Store ο} {cache : MethodCache ο} {created owner index value a b : ο} {n : Int}

omit [DecidableEq ο] in
theorem insertRawClamped_eq_iff (owner value : ο) (k n : Int) :
    ((W.lists owner).val.insertRawClamped k (W.value value)).contents = W.inserted owner n value ↔
      Between (W.lists owner).val.contents (W.value value)
        (clampIndex k (W.lists owner).val.contents.length) (clampIndex n (W.lists owner).val.contents.length) := by
  have hinv := (W.lists owner).property
  unfold inserted
  rw [(PyList.insertRawClamped_standsFor hinv k _).2, (PyList.insert_standsFor hinv n _).2]
  exact insertIdx_eq_iff (PyList.clampIndex_le ..) (PyList.clampIndex_le ..)

theorem isIntrinsic_insert : W.isIntrinsic (W.typeOf owner) "insert" [index, value] =
    (decide (W.typeOf owner = W.list) && (W.intValue index).isSome) := by
  simp [Builtins.isIntrinsic, W.isInteger_eq]

/-- A call of what is read hands the arguments on, behind a receiver or none. -/
theorem args_of_callRead {name : String} {args l : List ο} {r : Read ο} {f : ο} (h : W.callRead name args r = .call f l) :
    ∃ receiver : Option ο, l = receiver.toList ++ args := by
  cases r with
  | value v =>
    cases h
    exact ⟨none, rfl⟩
  | slot obj => cases h
  | error => cases h
  | get d instance_ type =>
    simp only [Methods.callRead, Methods.callGet] at h
    split_ifs at h
    · cases h
      exact ⟨_, rfl⟩
    · cases instance_ with
      | none =>
        cases h
        exact ⟨none, rfl⟩
      | some self =>
        dsimp only at h
        split_ifs at h
        cases h
        exact ⟨some self, rfl⟩
    · cases h
      exact ⟨some (W.underlyingType _), rfl⟩
    · cases h
      exact ⟨none, rfl⟩

theorem generic_eq_insert {index' : ο} : W.insertGeneric S created owner index value =
    .call W.insertMethod [owner, index', value] ↔
      index' = index ∧ W.Gives W.insertMethod (some owner) (W.read S created owner "insert") := by
  unfold insertGeneric
  constructor
  · intro h
    obtain ⟨receiver, hargs⟩ := args_of_callRead h
    have hindex : index' = index := by
      cases receiver with
      | none => simp at hargs
      | some self => simp_all
    subst hindex
    exact ⟨rfl, (Methods.callRead_eq_bound owner).mp h⟩
  · intro h
    obtain ⟨rfl, h⟩ := h
    exact (Methods.callRead_eq_bound owner).mpr h

theorem isIntrinsic_of_list (value : ο) (hlist : W.typeOf owner = W.list) (hindex : W.intValue index = some n) :
    W.isIntrinsic (W.typeOf owner) "insert" [index, value] = true := by
  rw [isIntrinsic_insert, hindex, hlist]
  simp

/-- A change of the list itself is right if the attribute is `insert` of `list`, and so is the list that it leaves. -/
theorem alike_insertRawClamped (hindex : W.intValue index = some n) (k : Int) :
    W.Alike (.insertRawClamped owner k value) (W.insertGeneric S created owner index value) ↔
      W.Gives W.insertMethod (some owner) (W.read S created owner "insert") ∧
        ((W.lists owner).val.insertRawClamped k (W.value value)).contents = W.inserted owner n value := by
  constructor
  · intro h
    obtain ⟨index', n', hcall, hindex', heffect⟩ := h
    obtain ⟨rfl, hgives⟩ := generic_eq_insert.mp hcall
    rw [hindex] at hindex'
    cases hindex'
    exact ⟨hgives, heffect⟩
  · intro h
    exact ⟨index, n, generic_eq_insert.mpr ⟨rfl, h.1⟩, hindex, h.2⟩

theorem issubclass_of_gives {r : Read ο} (h : W.Gives W.insertMethod (some owner) r) :
    W.issubclass (W.typeOf owner) W.list = true := by
  have htype := W.builtinMethod_type W.list (by simp) "insert"
  have hunder : W.underlyingType W.insertMethod = W.list := W.builtinMethod_underlying W.list (by simp) "insert"
  obtain ⟨hfunction, hwrapper⟩ := Methods.wrapper_of_type (d := W.insertMethod) htype
  cases r with
  | value v => cases h.2
  | slot obj => exact h.elim
  | error => exact h.elim
  | get d instance_ type =>
    simp only [Methods.Gives] at h
    split_ifs at h with hf hw
    · rw [h.1, hfunction] at hf
      cases hf
    · obtain ⟨rfl, rfl, hsub⟩ := h
      rw [← hunder]
      exact hsub owner rfl
    · rw [h.1, hwrapper] at hw
      exact absurd rfl hw
    · cases h.2.2

theorem fused_iff : W.Alike (W.listInsert0Tuple2 owner a b) (W.insertGeneric S created owner W.zero (W.createTuple a b)) ↔
    W.FusedFits S created owner := by
  unfold FusedFits listInsert0Tuple2
  have hfront : ((W.lists owner).val.pushFrontRaw (W.value (W.createTuple a b))).contents =
      W.inserted owner 0 (W.createTuple a b) := by
    have hinv := (W.lists owner).property
    unfold inserted
    rw [(PyList.pushFrontRaw_standsFor hinv _).2, (PyList.insert_standsFor hinv 0 _).2]
    simp [clampIndex]
  split
  next hsub =>
    constructor
    · intro h
      obtain ⟨index', n', hcall, -, -⟩ := h
      exact (generic_eq_insert.mp hcall).2
    · intro h
      exact ⟨W.zero, 0, generic_eq_insert.mpr ⟨rfl, h⟩, W.intValue_zero, hfront⟩
  next hsub => exact iff_of_false id fun h => hsub (issubclass_of_gives h)

theorem intrinsic_fits (hlist : W.typeOf owner = W.list) (hindex : W.intValue index = some n) :
    W.Alike (W.insertion S created (.intrinsic owner "insert" [index, value])) (W.insertGeneric S created owner index value) ↔
      W.IntrinsicAlike S owner value n := by
  have hintrinsic := isIntrinsic_of_list value hlist hindex
  have hlookup : _ = W.callRead "insert" [index, value] (W.read S created owner "insert") ↔ _ :=
    Methods.intrinsic_iff hintrinsic
  rw [eq_comm, Methods.callRead_eq_bound, hlist] at hlookup
  have hinsertion : W.insertion S created (.intrinsic owner "insert" [index, value]) =
      .insertRawClamped owner (getSi n) value := by
    simp [insertion, hindex]
  unfold IntrinsicAlike SamePlace
  rw [hinsertion, alike_insertRawClamped hindex, insertRawClamped_eq_iff, hlist]
  exact and_congr_left fun _ => hlookup

theorem raw_of_intrinsic (h : W.isIntrinsic (W.typeOf owner) "insert" [index, value] = true) :
    W.rtCallMethodRawPtrs S owner "insert" [index, value] false = .intrinsic owner "insert" [index, value] := by
  have hneeds : W.needsGetattribute (W.typeOf owner) = false := by
    obtain ⟨hpython, htype⟩ := W.builtin_getattribute _ (Methods.container_of_intrinsic h)
    simp [Builtins.needsGetattribute, hpython, htype]
  unfold Builtins.rtCallMethodRawPtrs
  simp [hneeds, h]

theorem raw_called (h : W.isIntrinsic (W.typeOf owner) "insert" [index, value] = false) :
    W.insertion S created (W.rtCallMethodRawPtrs S owner "insert" [index, value] false) =
      .called (W.called S created (W.rtCallMethodRawPtrs S owner "insert" [index, value] false)) := by
  cases hraw : W.rtCallMethodRawPtrs S owner "insert" [index, value] false with
  | call callable args => rfl
  | getattribute owner name args => rfl
  | bound descriptor owner args => rfl
  | intrinsic owner' name args =>
    unfold Builtins.rtCallMethodRawPtrs at hraw
    simp only [h, Bool.and_false, Bool.false_eq_true, if_false] at hraw
    repeat' split at hraw
    all_goals cases hraw

theorem raw_fits (h : W.isIntrinsic (W.typeOf owner) "insert" [index, value] = false) :
    W.Alike (W.insertRaw S created owner index value) (W.insertGeneric S created owner index value) ↔
      W.CallsAlike S owner "insert" [index, value] false := by
  unfold insertRaw
  rw [raw_called h]
  exact Methods.called_eq_callRead W.toMethods S created owner "insert" [index, value] false

theorem ic_fits (h : W.isIntrinsic (W.typeOf owner) "insert" [index, value] = false) :
    W.Alike (W.insertIc S cache created owner index value) (W.insertGeneric S created owner index value) ↔
      W.HitFits S cache created owner index value := by
  have hsort : W.isSort (W.typeOf owner) "insert" [index, value] = false := by simp [Builtins.isSort]
  unfold insertIc HitFits Builtins.rtCallMethodIcPtrs
  simp only [h, hsort, Bool.and_false, Bool.false_eq_true, if_false]
  cases hfind : W.findSlot S owner cache.slots with
  | none =>
    dsimp only
    have hsame : (if W.needsGetattribute (W.typeOf owner) = true then
        (W.rtCallMethodRawPtrs S owner "insert" [index, value] false, cache)
        else (W.rtCallMethodRawPtrs S owner "insert" [index, value] false, W.updateMethodCache S cache owner "insert")).1 =
        W.rtCallMethodRawPtrs S owner "insert" [index, value] false := by
      split <;> rfl
    rw [hsame]
    exact raw_fits h
  | some slot =>
    dsimp only
    show Called.call _ _ = W.callRead _ _ _ ↔ _
    have hgives {callable : ο} {receiver : Option ο} {r : Read ο} :
        W.callRead "insert" [index, value] r = .call callable (receiver.toList ++ [index, value]) ↔
          W.Gives callable receiver r := Methods.callRead_eq_call
    rw [eq_comm, ← hgives]
    cases slot.tag <;> rfl

theorem raw_iff : W.Alike (W.insertRaw S created owner index value) (W.insertGeneric S created owner index value) ↔
    W.RawFits S owner index value := by
  unfold RawFits
  cases hindex : W.intValue index with
  | none => exact raw_fits (by simp [isIntrinsic_insert, hindex])
  | some n =>
    dsimp only
    split
    next hlist =>
      unfold insertRaw
      rw [raw_of_intrinsic (isIntrinsic_of_list value hlist hindex)]
      exact intrinsic_fits hlist hindex
    next hlist => exact raw_fits (by simp [isIntrinsic_insert, hlist])

theorem ic_iff : W.Alike (W.insertIc S cache created owner index value) (W.insertGeneric S created owner index value) ↔
    W.IcFits S cache created owner index value := by
  unfold IcFits
  cases hindex : W.intValue index with
  | none => exact ic_fits (by simp [isIntrinsic_insert, hindex])
  | some n =>
    dsimp only
    split
    next hlist =>
      have hic : (W.rtCallMethodIcPtrs S cache owner "insert" [index, value] false).1 =
          .intrinsic owner "insert" [index, value] := by
        simp [Builtins.rtCallMethodIcPtrs, isIntrinsic_of_list value hlist hindex]
      unfold insertIc
      rw [hic]
      exact intrinsic_fits hlist hindex
    next hlist => exact ic_fits (by simp [isIntrinsic_insert, hlist])

end

/-- **The short cuts of `insert`** are right for a list with an index that is left where it was or falls between elements
that are the value, for a receiver whose attribute is what the call or the cache takes, and for a fused call whose receiver
has the `insert` of `list`. -/
theorem insertsAlike_iff (W : InsertWorld ο) (S : Store ο) (cache : MethodCache ο) (created owner index value a b : ο) :
    W.InsertsAlike S cache created owner index value a b ↔
      W.RawFits S owner index value ∧ W.IcFits S cache created owner index value ∧ W.FusedFits S created owner := by
  constructor
  · intro h
    exact ⟨raw_iff.mp h.raw, ic_iff.mp h.ic, fused_iff.mp h.fused⟩
  · intro h
    obtain ⟨hraw, hic, hfused⟩ := h
    exact ⟨raw_iff.mpr hraw, ic_iff.mpr hic, fused_iff.mpr hfused⟩

end InsertWorld

/-- The types of `shadowedTypes`; objects 20 to 29 are lists, 30 and 31 integers, and the methods of the containers are
from 40 on. -/
def insertTypes : Builtins Nat :=
  { shadowedTypes with
    typeOf := fun o => if o < 20 then 1 else if o < 30 then 2 else if o = 32 ∨ 40 ≤ o then 6 else 13
    hasGet := fun t => t ∈ [5, 12, 6, 11, 7, 8, 9]
    isInteger := fun o => o = 30 ∨ o = 31
    listSort_type := by decide }

theorem insertTypes_typeOf {o : Nat} (h : 40 ≤ o) : insertTypes.typeOf o = 6 := by
  have hclass : ¬ o < 20 := by omega
  have hobject : ¬ o < 30 := by omega
  simp [insertTypes, hclass, hobject, h]

/-- Every list is `[50]`; 30 is 0 and 31 is 2^63. -/
def insertObjects : InsertWorld Nat where
  toBuiltins := insertTypes
  getSlot := fun t => if t = 1 then .type else .object
  setSlot := fun _ => .object
  mro_head := fun _ _ => rfl
  object := 0
  pyNone := 33
  underlyingType := fun o => o - 40
  builtinMethod := fun t _ => 40 + t
  nativeRead := fun _ _ _ => .error
  python_iff := fun t => by by_cases ht : t = 1 <;> simp [insertTypes, shadowedTypes, ht]
  container_slot := by decide
  builtinMethod_type := fun t _ _ => insertTypes_typeOf (Nat.le_add_right 40 t)
  builtinMethod_underlying := fun t _ _ => Nat.add_sub_cancel_left 40 t
  callable_get := by decide
  meta_isData := fun o => by
    simp only [insertTypes]
    split_ifs <;> decide
  intValue := fun o => if o = 30 then some 0 else if o = 31 then some (2 ^ 63) else none
  value := .obj
  lists := fun _ => ⟨PyList.create [.obj 50], (PyList.inv_vector _ 0).mpr (Nat.zero_le _)⟩
  zero := 30
  createTuple := fun _ _ => 60
  isInteger_eq := fun o => by
    simp only [insertTypes]
    by_cases h30 : o = 30
    · simp [h30]
    · by_cases h31 : o = 31 <;> simp [h30, h31]
  intValue_zero := rfl

/-- `list.insert` is 42. -/
def insertStore : Store Nat :=
  { unshadowed with dict := fun t name => if t = 2 ∧ name = "insert" then some 42 else none }

/-- `[50].insert(2 ** 63, 51)` inserts in front, and the fused call takes an integer for a list. -/
theorem insert_truncated :
    insertObjects.insertRaw insertStore 70 20 31 51 = .insertRawClamped 20 0 51 ∧
    insertObjects.insertGeneric insertStore 70 20 31 51 = .call 42 [20, 31, 51] ∧
    insertObjects.inserted 20 (2 ^ 63) 51 = [.obj 50, .obj 51] ∧
    insertObjects.listInsert0Tuple2 31 51 52 = .undefined ∧
    ¬ insertObjects.InsertsAlike insertStore (.empty 4) 70 20 31 51 51 52 := by
  refine ⟨rfl, by decide, rfl, rfl, fun h => ?_⟩
  have hplace := (InsertWorld.raw_iff.mp h.raw).2 0 (by decide) (by decide)
  exact absurd hplace (by decide)

end Pylang.Runtime
