/-
The inline cache of a method call: `rt_call_method_ic_ptrs` against
`rt_call_method_raw_ptrs`. A hit checks the type, the version of the classes
and the shape, which fix the method, but not that the shape has no attribute
of the method's name, which the uncached call prefers to it.
-/
import Pylang.Runtime.ObjectStore
import Mathlib.Data.List.Basic

namespace Pylang.Runtime

/-- The types the calls name, and what their objects hold. -/
structure Builtins (ο : Type) extends Classes ο where
  type : ο
  list : ο
  set : ο
  dict : ο
  function : ο
  nativeFunction : ο
  methodWrapper : ο
  classmethodDescriptor : ο
  classmethod : ο
  /-- The types whose `__getattribute__` slot holds a Python function. -/
  pythonGetattribute : ο → Bool
  /-- `PyStaticMethod::static_method`. -/
  staticFunction : ο → ο
  /-- The entry `sort` of `list`, whose body is `PyList::sort`. -/
  listSort : ο
  /-- A tagged integer, or a `PyInteger`. -/
  isInteger : ο → Bool
  listSort_type : typeOf listSort = methodWrapper
  builtin_getattribute : ∀ t ∈ [list, set, dict], pythonGetattribute t = false ∧ t ≠ type
  containers_nodup : [list, set, dict].Nodup
  callables_nodup :
    [function, nativeFunction, methodWrapper, slotWrapper, classmethodDescriptor, classmethod, staticMethod].Nodup

/-- What a method call comes to. The keyword arguments go along unchanged. -/
inductive Invocation (ο : Type)
  /-- The body of a built-in method, on the owner and the arguments. -/
  | intrinsic (owner : ο) (name : String) (args : List ο)
  | call (callable : ο) (args : List ο)
  /-- The call of what `getattribute` returns. -/
  | getattribute (owner : ο) (name : String) (args : List ο)
  /-- The call of what the `__get__` of a `classmethod` returns. -/
  | bound (descriptor owner : ο) (args : List ο)
  deriving DecidableEq

/-- `tag` of a cache slot that is filled: 1 calls with the owner in front, 2 without. -/
inductive Tag
  | function
  | callable
  deriving DecidableEq

/-- A filled `MethodCacheSlot`. -/
structure CacheSlot (ο : Type) where
  expectedType : ο
  typeVersion : Nat
  expectedShape : Option (Shape ο)
  attrName : String
  resolvedFunc : ο
  tag : Tag
  deriving DecidableEq

/-- A `MethodCache`; a slot that is `none` has the tag 0. -/
structure MethodCache (ο : Type) where
  slots : List (Option (CacheSlot ο))
  /-- A byte. -/
  nextEvictSlot : Nat
  deriving DecidableEq

def MethodCache.empty (size : Nat) : MethodCache ο := ⟨List.replicate size none, 0⟩

namespace Builtins

variable {ο : Type} [DecidableEq ο] (B : Builtins ο)

/-- The test for the complete `getattribute`. -/
def needsGetattribute (t : ο) : Bool := B.pythonGetattribute t || t = B.type

/-- The built-in methods that both calls run directly. -/
def isIntrinsic (t : ο) (name : String) (args : List ο) : Bool :=
  (t = B.list && name = "append" && args.length = 1) ||
  (t = B.set && name = "add" && args.length = 1) ||
  (t = B.dict && ((name = "get" && (args.length = 1 || args.length = 2)) ||
    ((name = "items" || name = "keys" || name = "values") && args.length = 0))) ||
  (t = B.list && ((name = "pop" && args.length = 0) ||
    (name = "insert" && args.length = 2 && (args.head?.map B.isInteger).getD false)))

/-- `list->sort(nullptr, nullptr)`, which only the cached call has. -/
def isSort (t : ο) (name : String) (args : List ο) : Bool := t = B.list && name = "sort" && args.length = 0

/-- The attribute in the slots of the shape. -/
def shapeAttribute (S : Store ο) (owner : ο) (name : String) : Option ο :=
  (S.offset? owner name).bind ((S.slots owner)[·]?)

/-- `rt_call_method_raw_ptrs`. -/
def rtCallMethodRawPtrs (S : Store ο) (owner : ο) (name : String) (args : List ο) (kwargs : Bool) : Invocation ο :=
  let type := B.typeOf owner
  if B.needsGetattribute type then .getattribute owner name args
  else if !kwargs && B.isIntrinsic type name args then .intrinsic owner name args
  else
    match B.lookup S type name with
    | none => .getattribute owner name args
    | some desc =>
      let descType := B.typeOf desc
      if descType = B.function ∨ descType = B.nativeFunction ∨ descType = B.methodWrapper ∨ descType = B.slotWrapper then
        match shapeAttribute S owner name with
        | some func => .call func args
        | none => .call desc (owner :: args)
      else if descType = B.classmethodDescriptor then .call desc (type :: args)
      else if descType = B.staticMethod then .call (B.staticFunction desc) args
      else if descType = B.classmethod then .bound desc owner args
      else if B.descriptorIsData desc then .getattribute owner name args
      else
        match shapeAttribute S owner name with
        | some func => .call func args
        | none => .call desc (owner :: args)

/-- The tag `update_method_cache` gives an attribute of the class, if it keeps it. -/
def tagOf (S : Store ο) (desc : ο) : Option Tag :=
  let descType := B.typeOf desc
  let isFunction := descType = B.function || descType = B.nativeFunction
  let isDescriptorDirectCallable := descType = B.methodWrapper || descType = B.slotWrapper
  let isNonDataDescriptorCallable :=
    !B.descriptorIsData desc &&
      (isFunction || isDescriptorDirectCallable || (B.lookup S descType "__get__").isNone)
  if isFunction || isDescriptorDirectCallable then some .function
  else if isNonDataDescriptorCallable then some .callable
  else none

/-- `update_method_cache`. -/
def updateMethodCache (S : Store ο) (M : MethodCache ο) (owner : ο) (attrName : String) : MethodCache ο :=
  let type := B.typeOf owner
  match B.lookup S type attrName with
  | none => M
  | some desc =>
    match B.tagOf S desc with
    | none => M
    | some tag =>
      { slots := M.slots.set (M.nextEvictSlot % M.slots.length) (some
          { expectedType := type, typeVersion := S.version, expectedShape := S.shape owner
            attrName := attrName, resolvedFunc := desc, tag := tag })
        nextEvictSlot := (M.nextEvictSlot + 1) % 256 }

/-- The guards of a hit. -/
def hits (S : Store ο) (owner : ο) (slot : CacheSlot ο) : Bool :=
  slot.expectedType = B.typeOf owner && slot.expectedShape = S.shape owner && slot.typeVersion = S.version

/-- The loop over the slots. -/
def findSlot (S : Store ο) (owner : ο) : List (Option (CacheSlot ο)) → Option (CacheSlot ο)
  | [] => none
  | none :: slots => findSlot S owner slots
  | some slot :: slots => if B.hits S owner slot then some slot else findSlot S owner slots

/-- `rt_call_method_ic_ptrs`. -/
def rtCallMethodIcPtrs (S : Store ο) (M : MethodCache ο) (owner : ο) (name : String) (args : List ο) (kwargs : Bool) :
    Invocation ο × MethodCache ο :=
  let type := B.typeOf owner
  if !kwargs && B.isIntrinsic type name args then (.intrinsic owner name args, M)
  else if !kwargs && B.isSort type name args then (.call B.listSort (owner :: args), M)
  else
    match B.findSlot S owner M.slots with
    | some slot =>
      (.call slot.resolvedFunc (match slot.tag with
        | .function => owner :: args
        | .callable => args), M)
    | none =>
      if B.needsGetattribute type then (B.rtCallMethodRawPtrs S owner name args kwargs, M)
      else (B.rtCallMethodRawPtrs S owner name args kwargs, B.updateMethodCache S M owner name)

/-- A class attribute that both calls may call with the owner in front. -/
def IsDirect (desc : ο) : Prop :=
  B.typeOf desc ∈ [B.function, B.nativeFunction, B.methodWrapper, B.slotWrapper]

/-- The states of one call site: calls through its cache, between them any
changes of the attributes. `staticmethod` has its `__get__` from the start. -/
inductive Reachable (name : String) : Store ο → MethodCache ο → Prop
  | start {S : Store ο} {size : Nat} : S.Sound → (B.lookup S B.staticMethod "__get__").isSome →
      Reachable name S (.empty size)
  | change {S S' : Store ο} {M : MethodCache ο} : Reachable name S M → Change S S' → Reachable name S' M
  | call {S : Store ο} {M : MethodCache ο} {owner : ο} {args : List ο} {kwargs : Bool} : Reachable name S M →
      Reachable name S (B.rtCallMethodIcPtrs S M owner name args kwargs).2

/-- The calls that go wrong: a hit for an owner with an attribute of the
method's name in its slots, and `sort()` of a list where `sort` is not the
built-in method. -/
def Diverges (S : Store ο) (M : MethodCache ο) (owner : ο) (name : String) (args : List ο) (kwargs : Bool) : Prop :=
  ¬ (!kwargs && B.isIntrinsic (B.typeOf owner) name args) ∧
    if !kwargs && B.isSort (B.typeOf owner) name args then
      ¬ (B.lookup S (B.typeOf owner) name = some B.listSort ∧ S.offset? owner name = none)
    else (B.findSlot S owner M.slots).isSome ∧ (S.offset? owner name).isSome

/-! ### The cache holds what a lookup finds -/

/-- What a filled slot says of the classes. -/
structure SlotValid (S : Store ο) (name : String) (slot : CacheSlot ο) : Prop where
  version : slot.typeVersion ≤ S.version
  getattribute : B.needsGetattribute slot.expectedType = false
  tag : slot.tag = .function
  direct : B.IsDirect slot.resolvedFunc
  lookup : slot.typeVersion = S.version → B.lookup S slot.expectedType name = some slot.resolvedFunc

section Invariant

variable {B} {S S' : Store ο} {M : MethodCache ο} {owner desc : ο} {name : String} {args : List ο} {kwargs : Bool}
  {slot : CacheSlot ο}

theorem tagOf_eq (hget : (B.lookup S B.staticMethod "__get__").isSome) {tag : Tag} (h : B.tagOf S desc = some tag) :
    tag = .function ∧ B.IsDirect desc := by
  unfold tagOf at h
  simp only [Bool.or_eq_true, decide_eq_true_eq] at h
  split at h
  · next hdirect =>
    cases h
    refine ⟨rfl, ?_⟩
    simp only [IsDirect, List.mem_cons, List.not_mem_nil, or_false]
    tauto
  · next hdirect =>
    split at h
    · next hcallable =>
      -- only a static method is no data descriptor here, and its type has `__get__`
      simp only [not_or] at hdirect
      have hstatic : B.typeOf desc = B.staticMethod := by
        simp only [Bool.and_eq_true, Bool.not_eq_true', Classes.descriptorIsData, Bool.and_eq_false_iff,
          decide_eq_false_iff_not, not_not] at hcallable
        exact hcallable.1.resolve_right hdirect.2.2
      rw [hstatic] at hcallable hdirect
      rw [Option.isSome_iff_ne_none] at hget
      simp [hdirect, hget] at hcallable
    · cases h

theorem SlotValid.change (h : B.SlotValid S name slot) (hc : Change S S') : B.SlotValid S' name slot := by
  cases hc with
  | instances hversion hdict =>
    refine ⟨by rw [hversion]; exact h.version, h.getattribute, h.tag, h.direct, fun he => ?_⟩
    rw [hversion] at he
    have hlookup := h.lookup he
    unfold Classes.lookup at hlookup ⊢
    rwa [hdict]
  | classes hversion =>
    have hle := h.version
    exact ⟨by omega, h.getattribute, h.tag, h.direct, fun he => by omega⟩

theorem findSlot_some : ∀ (slots : List (Option (CacheSlot ο))), B.findSlot S owner slots = some slot →
    some slot ∈ slots ∧ B.hits S owner slot = true
  | none :: slots, h => by
    obtain ⟨hin, hhit⟩ := findSlot_some slots h
    exact ⟨List.mem_cons_of_mem _ hin, hhit⟩
  | some s :: slots, h => by
    unfold findSlot at h
    split at h
    · next hhit =>
      cases h
      exact ⟨List.mem_cons_self, hhit⟩
    · obtain ⟨hin, hhit⟩ := findSlot_some slots h
      exact ⟨List.mem_cons_of_mem _ hin, hhit⟩

theorem update_valid (hget : (B.lookup S B.staticMethod "__get__").isSome)
    (hM : ∀ slot, some slot ∈ M.slots → B.SlotValid S name slot)
    (howner : B.needsGetattribute (B.typeOf owner) = false) :
    ∀ slot, some slot ∈ (B.updateMethodCache S M owner name).slots → B.SlotValid S name slot := by
  unfold updateMethodCache
  dsimp only
  split
  · exact hM
  · next desc hdesc =>
    split
    · exact hM
    · next tag htag =>
      obtain ⟨rfl, hdirect⟩ := tagOf_eq hget htag
      intro slot hin
      rcases List.mem_or_eq_of_mem_set hin with hin | hslot
      · exact hM slot hin
      · cases hslot
        exact ⟨Nat.le_refl _, howner, rfl, hdirect, fun _ => hdesc⟩

theorem ic_valid (hget : (B.lookup S B.staticMethod "__get__").isSome)
    (hM : ∀ slot, some slot ∈ M.slots → B.SlotValid S name slot) :
    ∀ slot, some slot ∈ (B.rtCallMethodIcPtrs S M owner name args kwargs).2.slots → B.SlotValid S name slot := by
  unfold rtCallMethodIcPtrs
  dsimp only
  split
  · exact hM
  · split
    · exact hM
    · split
      · exact hM
      · split
        · exact hM
        · next howner => exact update_valid hget hM (by simpa using howner)

/-- What holds at a call site at any time. -/
structure SiteValid (S : Store ο) (M : MethodCache ο) (name : String) : Prop where
  sound : S.Sound
  get : (B.lookup S B.staticMethod "__get__").isSome
  slots : ∀ slot, some slot ∈ M.slots → B.SlotValid S name slot

theorem Reachable.valid (h : B.Reachable name S M) : B.SiteValid S M name := by
  induction h with
  | start hsound hget => exact ⟨hsound, hget, fun slot hin => by simp [MethodCache.empty] at hin⟩
  | change _ hc ih =>
    exact ⟨hc.sound ih.sound, hc.lookup_isSome ih.get, fun slot hin => (ih.slots slot hin).change hc⟩
  | call _ ih => exact ⟨ih.sound, ih.get, ic_valid ih.get ih.slots⟩

end Invariant

/-! ### The two calls -/

section Calls

variable {B} {S : Store ο} {M : MethodCache ο} {owner desc : ο} {name : String} {args : List ο} {kwargs : Bool}

omit [DecidableEq ο] in
theorem shapeAttribute_isSome (h : S.Sound) :
    (shapeAttribute S owner name).isSome = (S.offset? owner name).isSome := by
  unfold shapeAttribute
  cases ho : S.offset? owner name with
  | none => rfl
  | some offset =>
    have hlt := h.offset_lt ho
    simp [hlt]

theorem raw_direct (hattr : B.needsGetattribute (B.typeOf owner) = false)
    (hintrinsic : ¬ (!kwargs && B.isIntrinsic (B.typeOf owner) name args))
    (hdesc : B.lookup S (B.typeOf owner) name = some desc) (hdirect : B.IsDirect desc) :
    B.rtCallMethodRawPtrs S owner name args kwargs =
      match shapeAttribute S owner name with
      | some func => .call func args
      | none => .call desc (owner :: args) := by
  have hor : B.typeOf desc = B.function ∨ B.typeOf desc = B.nativeFunction ∨ B.typeOf desc = B.methodWrapper ∨
      B.typeOf desc = B.slotWrapper := by simpa [IsDirect] using hdirect
  unfold rtCallMethodRawPtrs
  simp only [hattr, hdesc, if_pos hor]
  rw [if_neg (by simp), if_neg hintrinsic]

theorem hit_same_iff (hv : B.SiteValid S M name) (hintrinsic : ¬ (!kwargs && B.isIntrinsic (B.typeOf owner) name args))
    {slot : CacheSlot ο} (hfind : B.findSlot S owner M.slots = some slot) :
    .call slot.resolvedFunc (match slot.tag with
        | .function => owner :: args
        | .callable => args) = B.rtCallMethodRawPtrs S owner name args kwargs ↔
      ¬ (S.offset? owner name).isSome := by
  obtain ⟨hin, hhit⟩ := findSlot_some _ hfind
  have hslot := hv.slots slot hin
  simp only [hits, Bool.and_eq_true, decide_eq_true_eq] at hhit
  obtain ⟨⟨htype, -⟩, hversion⟩ := hhit
  have hattr := hslot.getattribute
  have hlookup := hslot.lookup hversion
  rw [htype] at hattr hlookup
  rw [raw_direct hattr hintrinsic hlookup hslot.direct, hslot.tag, ← shapeAttribute_isSome hv.sound]
  cases shapeAttribute S owner name with
  | none => simp
  | some func => simp

theorem isSort_iff : (!kwargs && B.isSort (B.typeOf owner) name args) = true ↔
    kwargs = false ∧ B.typeOf owner = B.list ∧ name = "sort" ∧ args = [] := by
  simp [isSort, and_assoc]

theorem raw_sort_iff (hsound : S.Sound) (howner : B.typeOf owner = B.list) :
    .call B.listSort [owner] = B.rtCallMethodRawPtrs S owner "sort" [] false ↔
      B.lookup S (B.typeOf owner) "sort" = some B.listSort ∧ S.offset? owner "sort" = none := by
  have hnodup := B.callables_nodup
  have hattr : B.needsGetattribute (B.typeOf owner) = false := by
    obtain ⟨hpython, htype⟩ := B.builtin_getattribute B.list (by simp)
    simp [needsGetattribute, howner, hpython, htype]
  have hintrinsic : ¬ (!false && B.isIntrinsic (B.typeOf owner) "sort" []) := by simp [isIntrinsic]
  cases hdesc : B.lookup S (B.typeOf owner) "sort" with
  | none =>
    unfold rtCallMethodRawPtrs
    simp only [hattr, hdesc]
    rw [if_neg (by simp), if_neg hintrinsic]
    simp
  | some desc =>
    by_cases hdirect : B.IsDirect desc
    · rw [raw_direct hattr hintrinsic hdesc hdirect, ← Option.not_isSome_iff_eq_none,
        ← shapeAttribute_isSome hsound]
      cases shapeAttribute S owner "sort" with
      | none => simp [eq_comm]
      | some func => simp
    · -- the built-in method is a direct one
      have hne : desc ≠ B.listSort := by
        intro h
        obtain rfl := h
        exact hdirect (by simp [IsDirect, B.listSort_type])
      have hor : ¬ (B.typeOf desc = B.function ∨ B.typeOf desc = B.nativeFunction ∨ B.typeOf desc = B.methodWrapper ∨
          B.typeOf desc = B.slotWrapper) := by simpa [IsDirect] using hdirect
      unfold rtCallMethodRawPtrs
      simp only [hattr, hdesc, if_neg hor]
      rw [if_neg (by simp), if_neg hintrinsic]
      have hfalse : ¬ (some desc = some B.listSort ∧ S.offset? owner "sort" = none) := by
        intro h
        obtain ⟨he, -⟩ := h
        exact hne (Option.some.inj he)
      rw [iff_false_right hfalse]
      split
      · simp [Ne.symm hne]
      · split
        · simp
        · split
          · simp
          · split
            · simp
            · split
              · simp
              · simp [Ne.symm hne]

/-- **The cached call does what the uncached one would** in every state of the
call site, except for the calls that go wrong. -/
theorem callMethodIc_same_iff (h : B.Reachable name S M) (owner : ο) (args : List ο) (kwargs : Bool) :
    (B.rtCallMethodIcPtrs S M owner name args kwargs).1 = B.rtCallMethodRawPtrs S owner name args kwargs ↔
      ¬ B.Diverges S M owner name args kwargs := by
  have hv := h.valid
  unfold rtCallMethodIcPtrs Diverges
  dsimp only
  by_cases hintrinsic : (!kwargs && B.isIntrinsic (B.typeOf owner) name args) = true
  · have hattr : B.needsGetattribute (B.typeOf owner) = false := by
      have hmem : B.typeOf owner ∈ [B.list, B.set, B.dict] := by
        simp only [isIntrinsic, Bool.and_eq_true, Bool.or_eq_true, decide_eq_true_eq] at hintrinsic
        simp only [List.mem_cons, List.not_mem_nil, or_false]
        tauto
      obtain ⟨hpython, htype⟩ := B.builtin_getattribute _ hmem
      simp [needsGetattribute, hpython, htype]
    unfold rtCallMethodRawPtrs
    simp [hintrinsic, hattr]
  · rw [if_neg hintrinsic]
    by_cases hsort : (!kwargs && B.isSort (B.typeOf owner) name args) = true
    · rw [if_pos hsort, if_pos hsort]
      obtain ⟨rfl, howner, rfl, rfl⟩ := isSort_iff.mp hsort
      rw [raw_sort_iff hv.sound howner]
      tauto
    · rw [if_neg hsort, if_neg hsort]
      cases hfind : B.findSlot S owner M.slots with
      | none =>
        dsimp only
        split
        · simp
        · simp
      | some slot =>
        dsimp only
        rw [hit_same_iff hv hintrinsic hfind, Option.isSome_some]
        tauto

end Calls

end Builtins

/-! ### A call site -/

/-- `class C` with a function `m`, an object of it, and `m` assigned in the
object: objects 0 to 9 are the built-in types, 10 is `C`, 20 the object, 30 the
function of the class, 31 the one assigned and 32 is `list.sort`. -/
def shadowedTypes : Builtins Nat where
  typeOf := fun o => if o < 20 then 1 else if o < 30 then 10 else if o = 32 then 6 else 5
  mro := fun t => [t, 0]
  isType := fun o => o < 20
  isDict := fun _ => false
  allowsInstanceDict := fun _ => true
  hasGet := fun t => t = 5 ∨ t = 6
  hasSet := fun _ => false
  staticMethod := 9
  slotWrapper := 11
  type := 1
  list := 2
  set := 3
  dict := 4
  function := 5
  nativeFunction := 12
  methodWrapper := 6
  classmethodDescriptor := 7
  classmethod := 8
  pythonGetattribute := fun _ => false
  staticFunction := id
  listSort := 32
  isInteger := fun _ => false
  listSort_type := by decide
  builtin_getattribute := by decide
  containers_nodup := by decide
  callables_nodup := by decide

/-- Before the assignment. -/
def unshadowed : Store Nat where
  version := 0
  dict := fun t name => if t = 10 ∧ name = "m" then some 30 else if t = 9 ∧ name = "__get__" then some 33 else none
  shape := fun _ => none
  slots := fun _ => []
  instanceDict := fun _ => none
  items := fun _ _ => none

/-- After `o.m = f`. -/
def shadowed : Store Nat := (unshadowed.setattribute 20 "m" 31 shadowedTypes.toClasses).1

/-- The cache after one call of `o.m()`. -/
def filledOnce : MethodCache Nat := (shadowedTypes.rtCallMethodIcPtrs shadowed (.empty 4) 20 "m" [] false).2

theorem filledOnce_reachable : shadowedTypes.Reachable "m" shadowed filledOnce :=
  .call (.change (.start (fun _ => rfl) (by decide)) .of_setattribute)

/-- The second call of `o.m()` calls the function of the class. -/
theorem secondCall_ignoresAttribute :
    shadowedTypes.Reachable "m" shadowed filledOnce ∧
    shadowedTypes.rtCallMethodRawPtrs shadowed 20 "m" [] false = .call 31 [] ∧
    (shadowedTypes.rtCallMethodIcPtrs shadowed (.empty 4) 20 "m" [] false).1 = .call 31 [] ∧
    (shadowedTypes.rtCallMethodIcPtrs shadowed filledOnce 20 "m" [] false).1 = .call 30 [20] := by
  refine ⟨filledOnce_reachable, ?_, ?_, ?_⟩
  · decide
  · decide
  · decide

theorem callMethodIc_same_unshadowed :
    (shadowedTypes.rtCallMethodIcPtrs unshadowed (.empty 4) 20 "m" [] false).1 =
        shadowedTypes.rtCallMethodRawPtrs unshadowed 20 "m" [] false ↔
      ¬ shadowedTypes.Diverges unshadowed (.empty 4) 20 "m" [] false :=
  Builtins.callMethodIc_same_iff (.start (fun _ => rfl) (by decide)) 20 [] false

end Pylang.Runtime
