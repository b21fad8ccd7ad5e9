/-
The intrinsics of `rt_call_method_raw_ptrs` with their bodies. Those of `set`,
of `dict` and of `pop` run the function that the method runs. `rt_list_append`
flattens the value first, which makes integers of booleans, and that of
`insert` reads the index with `get_si`.
-/
import Pylang.Runtime.ListInsert

namespace Pylang.Runtime

/-- The objects of the calls, with the booleans. -/
structure MethodWorld (ο : Type) extends InsertWorld ο where
  pyTrue : ο
  pyFalse : ο
  one : ο
  value_pyTrue : value pyTrue = .bool true
  value_pyFalse : value pyFalse = .bool false
  intValue_one : intValue one = some 1
  /-- An integer is not stored as a boolean is. -/
  value_integer : ∀ o, (intValue o).isSome → exactBoolValue (value o) = none

/-- What a method call does: two intrinsics change the list themselves. -/
inductive Effect (ο : Type) where
  | appendRaw (list value : ο)
  | insertRawClamped (list : ο) (index : Int) (value : ο)
  | called (c : Called ο)
  deriving DecidableEq

namespace MethodWorld

variable {ο : Type} [DecidableEq ο] (W : MethodWorld ο)

/-- `RtValue::flatten`: a boolean becomes an integer, and an integer keeps its value, however it is held. -/
def flatten (v : ο) : ο := if v = W.pyTrue then W.one else if v = W.pyFalse then W.zero else v

/-- The bodies of the intrinsics, and the calls. -/
def effect (S : Store ο) (created : ο) : Invocation ο → Effect ο
  | .intrinsic owner name [value] =>
    if name = "append" then .appendRaw owner (W.flatten value)
    else .called (W.called S created (.intrinsic owner name [value]))
  | .intrinsic owner name [index, value] =>
    match if name = "insert" then W.intValue index else none with
    | some n => .insertRawClamped owner (getSi n) value
    | none => .called (W.called S created (.intrinsic owner name [index, value]))
  | invocation => .called (W.called S created invocation)

/-- `rt_call_method_raw_ptrs`. -/
def callMethod (S : Store ο) (created owner : ο) (name : String) (args : List ο) (kwargs : Bool) : Effect ο :=
  W.effect S created (W.rtCallMethodRawPtrs S owner name args kwargs)

/-- The call of what `getattribute` returns. -/
def callAttribute (S : Store ο) (created owner : ο) (name : String) (args : List ο) : Called ο :=
  W.callRead name args (W.read S created owner name)

/-- The same call, or the effect of the call of the method of `list`. -/
def SameEffect : Effect ο → Called ο → Prop
  | .called c, c' => c = c'
  | .appendRaw owner value, c' => ∃ arg, c' = .call (W.builtinMethod W.list "append") [owner, arg] ∧
      ((W.lists owner).val.appendRaw (W.value value)).contents =
        ((W.lists owner).val.appendRaw (W.value arg)).contents
  | .insertRawClamped owner k value, c' => W.Alike (.insertRawClamped owner k value) c'

/-- What a list intrinsic asks of its arguments: no boolean is appended, and an
insertion is to the place that is left of the index, or between elements that are the value. -/
def KeepsArguments (owner : ο) (name : String) : List ο → Prop
  | [value] => name = "append" → value ≠ W.pyTrue ∧ value ≠ W.pyFalse
  | [index, value] => name = "insert" → ∀ n, W.intValue index = some n → W.SamePlace owner value n
  | _ => True

/-- The calls that do what `getattribute` and a call do. -/
def MethodAlike (S : Store ο) (owner : ο) (name : String) (args : List ο) (kwargs : Bool) : Prop :=
  W.CallsAlike S owner name args kwargs ∧ (W.typeOf owner = W.list → kwargs = false → W.KeepsArguments owner name args)

section

variable {W} {S : Store ο} {created owner index value : ο} {name : String} {args : List ο} {kwargs : Bool} {n : Int}

theorem value_flatten : W.value (W.flatten value) = W.value value ↔ value ≠ W.pyTrue ∧ value ≠ W.pyFalse := by
  have hbool {o : ο} {b : Bool} {n : Int} (ho : W.intValue o = some n) : W.value o ≠ .bool b := by
    intro h
    have hnone := W.value_integer o (by simp [ho])
    rw [h] at hnone
    cases hnone
  unfold flatten
  split_ifs with htrue hfalse
  · subst htrue
    exact iff_of_false (W.value_pyTrue ▸ hbool W.intValue_one) fun h => h.1 rfl
  · subst hfalse
    exact iff_of_false (W.value_pyFalse ▸ hbool W.intValue_zero) fun h => h.2 rfl
  · exact iff_of_true rfl ⟨htrue, hfalse⟩

omit [DecidableEq ο] in
theorem appendRaw_eq_iff (owner v w : ο) :
    ((W.lists owner).val.appendRaw (W.value v)).contents = ((W.lists owner).val.appendRaw (W.value w)).contents ↔
      W.value v = W.value w := by
  have hinv := (W.lists owner).property
  rw [(PyList.appendRaw_standsFor hinv _).2, (PyList.appendRaw_standsFor hinv _).2, List.append_right_inj,
    List.cons.injEq]
  exact and_iff_left rfl

theorem callAttribute_iff (h : W.isIntrinsic (W.typeOf owner) name args = true) :
    W.callAttribute S created owner name args = .call (W.builtinMethod (W.typeOf owner) name) (owner :: args) ↔
      W.toClasses.lookup S (W.typeOf owner) name = some (W.builtinMethod (W.typeOf owner) name) := by
  unfold callAttribute
  rw [eq_comm]
  exact Methods.intrinsic_iff h

theorem needsGetattribute_of_intrinsic (h : W.isIntrinsic (W.typeOf owner) name args = true) :
    W.needsGetattribute (W.typeOf owner) = false := by
  obtain ⟨hpython, htype⟩ := W.builtin_getattribute _ (Methods.container_of_intrinsic h)
  simp [Builtins.needsGetattribute, hpython, htype]

theorem callsAlike_of_intrinsic (h : W.isIntrinsic (W.typeOf owner) name args = true) :
    W.CallsAlike S owner name args false ↔
      W.toClasses.lookup S (W.typeOf owner) name = some (W.builtinMethod (W.typeOf owner) name) := by
  simp [Methods.CallsAlike, needsGetattribute_of_intrinsic h, h]

theorem rtCallMethodRawPtrs_intrinsic (h : W.isIntrinsic (W.typeOf owner) name args = true) :
    W.rtCallMethodRawPtrs S owner name args false = .intrinsic owner name args := by
  unfold Builtins.rtCallMethodRawPtrs
  simp [needsGetattribute_of_intrinsic h, h]

theorem append_alike (hlist : W.typeOf owner = W.list) :
    W.SameEffect (.appendRaw owner (W.flatten value)) (W.callAttribute S created owner "append" [value]) ↔
      W.toClasses.lookup S (W.typeOf owner) "append" = some (W.builtinMethod (W.typeOf owner) "append") ∧
        value ≠ W.pyTrue ∧ value ≠ W.pyFalse := by
  have hintrinsic : W.isIntrinsic (W.typeOf owner) "append" [value] = true := by simp [Builtins.isIntrinsic, hlist]
  have hattribute : W.callAttribute S created owner "append" [value] =
      .call (W.builtinMethod (W.typeOf owner) "append") [owner, value] ↔ _ := callAttribute_iff hintrinsic
  rw [← hattribute, ← value_flatten, ← appendRaw_eq_iff owner, hlist]
  constructor
  · intro h
    obtain ⟨arg, hcall, heffect⟩ := h
    obtain ⟨receiver, hargs⟩ := InsertWorld.args_of_callRead hcall
    have harg : arg = value := by
      cases receiver with
      | none => simp at hargs
      | some self => simp_all
    subst harg
    exact ⟨hcall, heffect⟩
  · intro h
    exact ⟨value, h.1, h.2⟩

theorem insert_alike (hlist : W.typeOf owner = W.list) (hindex : W.intValue index = some n) :
    W.SameEffect (.insertRawClamped owner (getSi n) value) (W.callAttribute S created owner "insert" [index, value]) ↔
      W.toClasses.lookup S (W.typeOf owner) "insert" = some (W.builtinMethod (W.typeOf owner) "insert") ∧
        W.SamePlace owner value n := by
  have hfits : W.Alike (W.insertion S created (.intrinsic owner "insert" [index, value]))
      (W.insertGeneric S created owner index value) ↔ W.IntrinsicAlike S owner value n :=
    InsertWorld.intrinsic_fits hlist hindex
  have hinsertion : W.insertion S created (.intrinsic owner "insert" [index, value]) =
      .insertRawClamped owner (getSi n) value := by
    simp [InsertWorld.insertion, hindex]
  have hmethod : W.builtinMethod (W.typeOf owner) "insert" = W.insertMethod := by
    rw [hlist]
    rfl
  rw [hinsertion] at hfits
  rw [hmethod]
  exact hfits

/-- An intrinsic does what the call of the attribute does, if the method of the container is the attribute and the
intrinsic of a list keeps its arguments. -/
theorem intrinsic_alike (h : W.isIntrinsic (W.typeOf owner) name args = true) :
    W.SameEffect (W.effect S created (.intrinsic owner name args)) (W.callAttribute S created owner name args) ↔
      W.toClasses.lookup S (W.typeOf owner) name = some (W.builtinMethod (W.typeOf owner) name) ∧
        (W.typeOf owner = W.list → W.KeepsArguments owner name args) := by
  have hplain : .call (W.builtinMethod (W.typeOf owner) name) (owner :: args) = W.callAttribute S created owner name args ↔
      W.toClasses.lookup S (W.typeOf owner) name = some (W.builtinMethod (W.typeOf owner) name) := by
    rw [eq_comm]
    exact callAttribute_iff h
  cases args with
  | nil => exact hplain.trans (and_iff_left fun _ => trivial).symm
  | cons index rest =>
    cases rest with
    | nil =>
      by_cases hname : name = "append"
      · subst hname
        have hlist : W.typeOf owner = W.list := by simpa [Builtins.isIntrinsic] using h
        simp only [effect, if_true, KeepsArguments, hlist, forall_const]
        rw [← hlist]
        exact append_alike hlist
      · simp only [effect, hname, if_false, KeepsArguments, false_imp_iff, implies_true, and_true]
        exact hplain
    | cons value rest =>
      cases rest with
      | nil =>
        by_cases hname : name = "insert"
        · subst hname
          have hlist : W.typeOf owner = W.list := by
            simp [Builtins.isIntrinsic] at h
            exact h.1
          have hsome : (W.intValue index).isSome := by
            simpa [Builtins.isIntrinsic, hlist, W.isInteger_eq] using h
          obtain ⟨n, hindex⟩ := Option.isSome_iff_exists.mp hsome
          simp only [effect, if_true, hindex, KeepsArguments, hlist, forall_const, Option.some.injEq, forall_eq']
          rw [← hlist]
          exact insert_alike hlist hindex
        · simp only [effect, hname, if_false, KeepsArguments, false_imp_iff, implies_true, and_true]
          exact hplain
      | cons third rest => simp [Builtins.isIntrinsic] at h

theorem callMethod_called (h : (!kwargs && W.isIntrinsic (W.typeOf owner) name args) = false) :
    W.callMethod S created owner name args kwargs =
      .called (W.called S created (W.rtCallMethodRawPtrs S owner name args kwargs)) := by
  unfold callMethod
  cases hraw : W.rtCallMethodRawPtrs S owner name args kwargs with
  | call callable args => rfl
  | getattribute owner name args => rfl
  | bound descriptor owner args => rfl
  | intrinsic owner' name' args' =>
    unfold Builtins.rtCallMethodRawPtrs at hraw
    simp only [h, Bool.false_eq_true, if_false] at hraw
    repeat' split at hraw
    all_goals cases hraw

theorem keepsArguments_of_not (hlist : W.typeOf owner = W.list) (h : W.isIntrinsic (W.typeOf owner) name args = false) :
    W.KeepsArguments owner name args := by
  cases args with
  | nil => trivial
  | cons index rest =>
    cases rest with
    | nil =>
      intro hname
      simp [Builtins.isIntrinsic, hlist, hname] at h
    | cons value rest =>
      cases rest with
      | nil =>
        intro hname n hindex
        simp [Builtins.isIntrinsic, hlist, hname, W.isInteger_eq, hindex] at h
      | cons third rest => trivial

end

/-- **A method call does what the call of the attribute does** as long as no slot of the object has the name of a function
of its class, nothing comes before that function, it binds to the object, and an intrinsic keeps its arguments. -/
theorem callMethod_same_iff (W : MethodWorld ο) (S : Store ο) (created owner : ο) (name : String) (args : List ο)
    (kwargs : Bool) :
    W.SameEffect (W.callMethod S created owner name args kwargs) (W.callAttribute S created owner name args) ↔
      W.MethodAlike S owner name args kwargs := by
  unfold MethodAlike
  cases hintrinsic : !kwargs && W.isIntrinsic (W.typeOf owner) name args with
  | true =>
    obtain ⟨hkwargs, h⟩ := Bool.and_eq_true_iff.mp hintrinsic
    have hfalse : kwargs = false := by simpa using hkwargs
    subst hfalse
    unfold callMethod
    rw [rtCallMethodRawPtrs_intrinsic h, intrinsic_alike h, callsAlike_of_intrinsic h]
    simp
  | false =>
    have hkeeps : W.typeOf owner = W.list → kwargs = false → W.KeepsArguments owner name args := by
      intro hlist hkwargs
      subst hkwargs
      exact keepsArguments_of_not hlist hintrinsic
    rw [callMethod_called hintrinsic, and_iff_left hkeeps]
    exact Methods.called_eq_callRead W.toMethods S created owner name args kwargs

end MethodWorld

/-- The objects of `shadowedTypes`, with the methods of the containers from 40 on; 34 and 35 are 0 and 1, 36 and 37 the
booleans. -/
def shadowedBuiltins : Builtins Nat :=
  { shadowedTypes with
    typeOf := fun o =>
      if o < 20 then 1 else if o < 30 then 10 else if o = 32 ∨ 40 ≤ o then 6 else if o < 34 then 5 else 13
    hasGet := fun t => t ∈ [5, 12, 6, 11, 7, 8, 9]
    isInteger := fun o => o = 34 ∨ o = 35
    listSort_type := by decide }

theorem shadowedBuiltins_typeOf {o : Nat} (h : 40 ≤ o) : shadowedBuiltins.typeOf o = 6 := by
  have hclass : ¬ o < 20 := by omega
  have hobject : ¬ o < 30 := by omega
  simp [shadowedBuiltins, hclass, hobject, h]

/-- Every list is empty. -/
def shadowedMethods : MethodWorld Nat where
  toBuiltins := shadowedBuiltins
  getSlot := fun t => if t = 1 then .type else .object
  setSlot := fun _ => .object
  mro_head := fun _ _ => rfl
  object := 0
  pyNone := 21
  underlyingType := fun o => o - 40
  builtinMethod := fun t _ => 40 + t
  nativeRead := fun _ _ _ => .error
  python_iff := fun t => by by_cases ht : t = 1 <;> simp [shadowedBuiltins, shadowedTypes, ht]
  container_slot := by decide
  builtinMethod_type := fun t _ _ => shadowedBuiltins_typeOf (Nat.le_add_right 40 t)
  builtinMethod_underlying := fun t _ _ => Nat.add_sub_cancel_left 40 t
  callable_get := by decide
  meta_isData := fun o => by
    simp only [shadowedBuiltins]
    split_ifs <;> decide
  intValue := fun o => if o = 34 then some 0 else if o = 35 then some 1 else none
  value := fun o => if o = 36 then .bool false else if o = 37 then .bool true else .obj o
  lists := fun _ => ⟨PyList.create [], (PyList.inv_vector _ 0).mpr (Nat.zero_le _)⟩
  zero := 34
  createTuple := fun _ _ => 60
  isInteger_eq := fun o => by
    simp only [shadowedBuiltins]
    by_cases h34 : o = 34
    · simp [h34]
    · by_cases h35 : o = 35 <;> simp [h34, h35]
  intValue_zero := rfl
  pyTrue := 37
  pyFalse := 36
  one := 35
  value_pyTrue := rfl
  value_pyFalse := rfl
  intValue_one := rfl
  value_integer := fun o h => by
    by_cases h34 : o = 34
    · rw [h34]
      rfl
    · by_cases h35 : o = 35
      · rw [h35]
        rfl
      · simp [h34, h35] at h

/-- After `o.m = f` the call of `o.m()` calls `f`, and `getattribute` binds the function of the class. -/
theorem slot_before_function :
    shadowedMethods.callMethod shadowed 40 20 "m" [] false = .called (.call 31 []) ∧
      shadowedMethods.callAttribute shadowed 40 20 "m" [] = .call 30 [20] := by
  decide

end Pylang.Runtime
