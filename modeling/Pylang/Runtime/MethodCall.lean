/-
The uncached call of a method, `rt_call_method_raw_ptrs`, against the call of
what `getattribute` returns. Both come to the same call unless the object has a
slot of the method's name: the call prefers the slot to a function of the
class, and `__getattribute__`, which asks `descriptor_is_data` about the type
of the descriptor, does not.
-/
import Pylang.Runtime.MethodCache
import Pylang.Runtime.AttrCache

namespace Pylang.Runtime

/-- What the call of an attribute comes to. -/
inductive Called (ο : Type)
  | call (callable : ο) (args : List ο)
  /-- The call of what the `__get__` of a descriptor returns. -/
  | getThenCall (descriptor : ο) (instance_ : Option ο) (owner : ο) (args : List ο)
  /-- The call of what the `__getattribute__` in the slot returns. -/
  | slotThenCall (obj : ο) (name : String) (args : List ο)
  | error
  deriving DecidableEq

/-- The objects of a method call, with what the descriptors of the built-in types hold. -/
structure Methods (ο : Type) extends Builtins ο, AttrTypes ο where
  object : ο
  /-- `py_none()`. -/
  pyNone : ο
  /-- `m_underlying_type`, and `m_type` of a `PySlotWrapper`. -/
  underlyingType : ο → ο
  /-- The entry of a built-in method in `list`, `set` or `dict`. -/
  builtinMethod : ο → String → ο
  /-- What the slots of `super`, of modules and of weak references read. -/
  nativeRead : Store ο → ο → String → Read ο
  python_iff : ∀ t, pythonGetattribute t = true ↔ getSlot t = .python
  container_slot : ∀ t ∈ [list, set, dict], getSlot t = .object
  builtinMethod_type : ∀ t ∈ [list, set, dict], ∀ name, typeOf (builtinMethod t name) = methodWrapper
  builtinMethod_underlying : ∀ t ∈ [list, set, dict], ∀ name, underlyingType (builtinMethod t name) = t
  callable_get : ∀ k ∈ [function, nativeFunction, methodWrapper, slotWrapper, classmethodDescriptor, classmethod,
    staticMethod], hasGet k = true
  /-- The type of a type is neither `staticmethod` nor the slot wrapper. -/
  meta_isData : ∀ o, typeOf (typeOf o) ≠ staticMethod ∧ typeOf (typeOf o) ≠ slotWrapper

namespace Methods

variable {ο : Type} [DecidableEq ο] (M : Methods ο)

/-- `PyType::issubclass`. -/
def issubclass (t other : ο) : Bool := t = other || other = M.object || other ∈ M.mro t

def isFunction (d : ο) : Bool := M.typeOf d = M.function || M.typeOf d = M.nativeFunction

def isWrapper (d : ο) : Bool := M.typeOf d = M.methodWrapper || M.typeOf d = M.slotWrapper

/-- The call of what `descriptor->get(instance, owner)` returns: the `__get__` of the built-in callables. -/
def callGet (descriptor : ο) (instance_ : Option ο) (owner : ο) (args : List ο) : Called ο :=
  if M.isFunction descriptor then .call descriptor ((instance_.filter (· ≠ M.pyNone)).toList ++ args)
  else if M.isWrapper descriptor then
    match instance_ with
    | none => .call descriptor args
    | some self =>
      if M.issubclass (M.typeOf self) (M.underlyingType descriptor) then .call descriptor (self :: args) else .error
  else if M.typeOf descriptor = M.classmethodDescriptor then
    if M.issubclass owner (M.underlyingType descriptor) then .call descriptor (M.underlyingType descriptor :: args)
    else .error
  else if M.typeOf descriptor = M.staticMethod then .call (M.staticFunction descriptor) args
  else .getThenCall descriptor instance_ owner args

/-- The call of what is read. -/
def callRead (name : String) (args : List ο) : Read ο → Called ο
  | .value v => .call v args
  | .get descriptor instance_ owner => M.callGet descriptor instance_ owner args
  | .slot obj => .slotThenCall obj name args
  | .error => .error

/-- `getattribute`, with the dictionary that a read of `__dict__` may create. -/
def read (S : Store ο) (created owner : ο) (name : String) : Read ο :=
  match M.getSlot (M.typeOf owner) with
  | .native => M.nativeRead S owner name
  | _ => (M.toAttrTypes.getattribute S created owner name).1

/-- What the branches of `rt_call_method_raw_ptrs` call, with the method itself for an intrinsic. -/
def called (S : Store ο) (created : ο) : Invocation ο → Called ο
  | .intrinsic owner name args => .call (M.builtinMethod (M.typeOf owner) name) (owner :: args)
  | .call callable args => .call callable args
  | .getattribute owner name args => M.callRead name args (M.read S created owner name)
  | .bound descriptor owner args => .getThenCall descriptor (some owner) (M.typeOf owner) args

/-! ### When the two agree -/

/-- The kinds of class attributes with a branch of their own. -/
def IsFast (d : ο) : Prop :=
  M.isFunction d ∨ M.isWrapper d ∨ M.typeOf d = M.classmethodDescriptor ∨ M.typeOf d = M.staticMethod ∨
    M.typeOf d = M.classmethod

/-- What a read finds before an attribute of the class: the own attribute of a
class with a metaclass, and whatever the other built-in slots read. -/
def before (S : Store ο) (owner : ο) (name : String) (desc : ο) : Option (Read ο) :=
  match M.getSlot (M.typeOf owner) with
  | .object => none
  | .type =>
    if M.hasSet (M.typeOf desc) then none
    else (M.toAttrTypes.toClasses.lookup S owner name).map fun a =>
      if M.hasGet (M.typeOf a) then .get a none owner else .value a
  | .native => some (M.nativeRead S owner name)
  | _ => some (.slot owner)

/-- A read that gives a callable, bound to a receiver or to none. -/
def Gives (callable : ο) (receiver : Option ο) : Read ο → Prop
  | .value v => v = callable ∧ receiver = none
  | .get d instance_ owner =>
    if M.isFunction d then d = callable ∧ receiver = instance_.filter (· ≠ M.pyNone)
    else if M.isWrapper d then
      d = callable ∧ receiver = instance_ ∧ ∀ self ∈ instance_, M.issubclass (M.typeOf self) (M.underlyingType d)
    else if M.typeOf d = M.classmethodDescriptor then
      d = callable ∧ receiver = some (M.underlyingType d) ∧ M.issubclass owner (M.underlyingType d)
    else M.typeOf d = M.staticMethod ∧ M.staticFunction d = callable ∧ receiver = none
  | .slot _ => False
  | .error => False

/-- Nothing comes before the attribute of the class: a function binds to every
object but `None`, a wrapper to the objects of its type, a class method
descriptor to its own type, and no slot of the object has the name. -/
def BindsAlike (S : Store ο) (owner : ο) (name : String) (desc : ο) : Prop :=
  if M.isFunction desc then
    match Builtins.shapeAttribute S owner name with
    | none => owner ≠ M.pyNone
    | some func => owner = M.pyNone ∧ func = desc
  else if M.isWrapper desc then
    Builtins.shapeAttribute S owner name = none ∧ M.issubclass (M.typeOf owner) (M.underlyingType desc)
  else M.typeOf desc = M.classmethodDescriptor → M.underlyingType desc = M.typeOf owner

/-- Something comes before it, and gives what the call takes from the slots of
the object or from the class. -/
def YieldsTo (S : Store ο) (owner : ο) (name : String) (desc : ο) (r : Read ο) : Prop :=
  if M.isFunction desc || M.isWrapper desc then
    match Builtins.shapeAttribute S owner name with
    | none => M.Gives desc (some owner) r
    | some func => M.Gives func none r
  else if M.typeOf desc = M.classmethodDescriptor then M.Gives desc (some (M.typeOf owner)) r
  else if M.typeOf desc = M.staticMethod then M.Gives (M.staticFunction desc) none r
  else r = .get desc (some owner) (M.typeOf owner)

/-- The call of a class attribute of one of the kinds. -/
def fastCall (S : Store ο) (owner : ο) (name : String) (args : List ο) (desc : ο) : Called ο :=
  if M.isFunction desc || M.isWrapper desc then
    match Builtins.shapeAttribute S owner name with
    | some func => .call func args
    | none => .call desc (owner :: args)
  else if M.typeOf desc = M.classmethodDescriptor then .call desc (M.typeOf owner :: args)
  else if M.typeOf desc = M.staticMethod then .call (M.staticFunction desc) args
  else .getThenCall desc (some owner) (M.typeOf owner) args

/-- The calls that agree with `getattribute`. -/
def CallsAlike (S : Store ο) (owner : ο) (name : String) (args : List ο) (kwargs : Bool) : Prop :=
  M.toBuiltins.needsGetattribute (M.typeOf owner) = true ∨
    if !kwargs && M.toBuiltins.isIntrinsic (M.typeOf owner) name args then
      M.toBuiltins.toClasses.lookup S (M.typeOf owner) name = some (M.builtinMethod (M.typeOf owner) name)
    else
      ∀ desc, M.toBuiltins.toClasses.lookup S (M.typeOf owner) name = some desc → M.IsFast desc →
        match M.before S owner name desc with
        | none => M.BindsAlike S owner name desc
        | some r => M.YieldsTo S owner name desc r

section

variable {M} {S : Store ο} {owner desc d callable created : ο} {instance_ receiver : Option ο} {name : String}
  {args : List ο} {kwargs : Bool} {r : Read ο}

/-! ### Reads -/

omit [DecidableEq ο] in
theorem receiver_inj (receiver receiver' : Option ο) (args : List ο) :
    receiver.toList ++ args = receiver'.toList ++ args ↔ receiver = receiver' := by
  rw [List.append_left_inj]
  exact ⟨fun h => by simpa using congrArg List.head? h, fun h => h ▸ rfl⟩

omit [DecidableEq ο] in
theorem receiver_none (receiver : Option ο) (args : List ο) : args = receiver.toList ++ args ↔ receiver = none := by
  rw [eq_comm (a := receiver)]
  exact receiver_inj none receiver args

omit [DecidableEq ο] in
theorem receiver_some (self : ο) (receiver : Option ο) (args : List ο) :
    self :: args = receiver.toList ++ args ↔ receiver = some self := by
  rw [eq_comm (a := receiver)]
  exact receiver_inj (some self) receiver args

theorem callRead_eq_call :
    M.callRead name args r = .call callable (receiver.toList ++ args) ↔ M.Gives callable receiver r := by
  cases r with
  | value v => simp only [callRead, Gives, Called.call.injEq, receiver_none]
  | get d instance_ owner =>
    simp only [callRead, callGet, Gives]
    split_ifs with hf hw hc hissub hs
    · rw [Called.call.injEq, receiver_inj, eq_comm (a := receiver)]
    · cases instance_ with
      | none => simp
      | some self =>
        dsimp only
        split
        · next hsub => simp [receiver_some, hsub]
        · next hsub => simp [hsub]
    · simp [receiver_some, hissub]
    · simp [hissub]
    · simp [hs]
    · simp [hs]
  | slot => simp [callRead, Gives]
  | error => simp [callRead, Gives]

theorem callRead_eq_bound (self : ο) :
    M.callRead name args r = .call callable (self :: args) ↔ M.Gives callable (some self) r := by
  rw [← callRead_eq_call]
  rfl

theorem callRead_eq_plain : M.callRead name args r = .call callable args ↔ M.Gives callable none r := by
  rw [← callRead_eq_call]
  rfl

theorem classmethod_kind (hd : M.typeOf d = M.classmethod) :
    M.isFunction d = false ∧ M.isWrapper d = false ∧ M.typeOf d ≠ M.classmethodDescriptor ∧
      M.typeOf d ≠ M.staticMethod := by
  have hnodup := M.callables_nodup
  simp only [List.nodup_cons, List.mem_cons, List.not_mem_nil, or_false, not_or] at hnodup
  simp only [isFunction, isWrapper, hd, Bool.or_eq_false_iff, decide_eq_false_iff_not]
  grind

theorem callRead_eq_getThenCall (hd : M.typeOf d = M.classmethod) :
    M.callRead name args r = .getThenCall d instance_ owner args ↔ r = .get d instance_ owner := by
  constructor
  · intro h
    cases r with
    | get d' instance' owner' =>
      simp only [callRead, callGet] at h
      split_ifs at h
      · cases instance' with
        | none => cases h
        | some self =>
          dsimp only at h
          split at h <;> cases h
      · cases h
        rfl
    | value v => cases h
    | slot => cases h
    | error => cases h
  · intro h
    obtain rfl := h
    obtain ⟨hf, hw, hc, hs⟩ := classmethod_kind hd
    simp [callRead, callGet, hf, hw, hc, hs]

theorem IsFast.hasGet (h : M.IsFast d) : M.hasGet (M.typeOf d) = true := by
  refine M.callable_get _ ?_
  simp only [IsFast, isFunction, isWrapper, Bool.or_eq_true, decide_eq_true_eq] at h
  simp only [List.mem_cons, List.not_mem_nil, or_false]
  tauto

theorem getsFirst_iff : M.toAttrTypes.getsFirst d = M.hasGet (M.typeOf d) := by
  have hmeta := M.meta_isData d
  unfold AttrTypes.getsFirst Classes.descriptorIsData
  simp [hmeta.1, hmeta.2]

theorem read_object (hslot : M.getSlot (M.typeOf owner) = .object) :
    M.read S created owner name = (M.toAttrTypes.defaultGetattribute S created owner name).1 := by
  simp only [read, AttrTypes.getattribute, hslot]

theorem read_type (hslot : M.getSlot (M.typeOf owner) = .type) :
    M.read S created owner name = M.toAttrTypes.typeGetattribute S owner name := by
  simp only [read, AttrTypes.getattribute, hslot]

theorem read_of_fast (hlookup : M.toBuiltins.toClasses.lookup S (M.typeOf owner) name = some desc)
    (hfast : M.IsFast desc) :
    M.read S created owner name = (M.before S owner name desc).getD (.get desc (some owner) (M.typeOf owner)) := by
  have hget := hfast.hasGet
  have hlookup' : M.toAttrTypes.toClasses.lookup S (M.toAttrTypes.typeOf owner) name = some desc := hlookup
  cases hslot : M.getSlot (M.typeOf owner) with
  | object =>
    rw [read_object hslot]
    simp only [AttrTypes.defaultGetattribute, hlookup', Option.filter_some, getsFirst_iff, hget, if_true, before, hslot,
      Option.getD_none]
  | type =>
    rw [read_type hslot]
    simp only [AttrTypes.typeGetattribute, hlookup', Option.filter_some, hget, Bool.true_and, before, hslot]
    cases M.hasSet (M.typeOf desc) with
    | true => rfl
    | false =>
      simp only [Bool.false_eq_true, if_false]
      cases M.toAttrTypes.toClasses.lookup S owner name with
      | some a => rfl
      | none => simp [AttrTypes.classValue, hlookup', hget]
  | missing | python => simp only [read, AttrTypes.getattribute, before, hslot, Option.getD_some]
  | native => simp only [read, before, hslot, Option.getD_some]

omit [DecidableEq ο] in
/-- The attributes of an instance are not bound. -/
theorem instanceValue_ne_get {type : ο} (h : AttrTypes.instanceValue S owner name = some r) :
    r ≠ .get d instance_ type := by
  intro h
  obtain rfl := h
  unfold AttrTypes.instanceValue at h
  split at h
  · obtain ⟨v, -, hv⟩ := Option.map_eq_some_iff.mp h
    cases hv
  · obtain ⟨offset, -, hv⟩ := Option.map_eq_some_iff.mp h
    unfold AttrTypes.slotValue at hv
    split at hv <;> cases hv

/-- The default read binds only what the class has. -/
theorem read_get {type : ο} (hslot : M.getSlot (M.typeOf owner) = .object)
    (h : M.read S created owner name = .get d instance_ type) :
    M.toBuiltins.toClasses.lookup S (M.typeOf owner) name = some d ∧ instance_ = some owner := by
  rw [read_object hslot] at h
  unfold AttrTypes.defaultGetattribute at h
  split at h
  · next descriptor hfilter =>
    cases h
    exact ⟨(Option.filter_eq_some_iff.mp hfilter).1, rfl⟩
  · split at h
    · split at h <;> cases h
    · dsimp only at h
      cases hinst : AttrTypes.instanceValue S owner name with
      | some r =>
        rw [hinst, Option.getD_some] at h
        exact absurd h (instanceValue_ne_get hinst)
      | none =>
        rw [hinst, Option.getD_none] at h
        unfold AttrTypes.classValue at h
        split at h
        · next descriptor hlookup =>
          split at h
          · cases h
            exact ⟨hlookup, rfl⟩
          · cases h
        · cases h

/-! ### The call and the read -/

theorem container_of_intrinsic (h : M.toBuiltins.isIntrinsic (M.typeOf owner) name args = true) :
    M.typeOf owner ∈ [M.list, M.set, M.dict] := by
  simp only [Builtins.isIntrinsic, Bool.or_eq_true, Bool.and_eq_true, decide_eq_true_eq] at h
  simp only [List.mem_cons, List.not_mem_nil, or_false]
  tauto

theorem wrapper_of_type (hd : M.typeOf d = M.methodWrapper) : M.isFunction d = false ∧ M.isWrapper d = true := by
  have hnodup := M.callables_nodup
  simp only [List.nodup_cons, List.mem_cons, List.not_mem_nil, or_false, not_or] at hnodup
  simp only [isFunction, isWrapper, hd, Bool.or_eq_false_iff, decide_eq_false_iff_not]
  grind

/-- A built-in method that runs directly. -/
theorem intrinsic_iff (h : M.toBuiltins.isIntrinsic (M.typeOf owner) name args = true) :
    .call (M.builtinMethod (M.typeOf owner) name) (owner :: args) =
        M.callRead name args (M.read S created owner name) ↔
      M.toBuiltins.toClasses.lookup S (M.typeOf owner) name = some (M.builtinMethod (M.typeOf owner) name) := by
  have hcontainer := container_of_intrinsic h
  have hslot := M.container_slot _ hcontainer
  have htype := M.builtinMethod_type _ hcontainer name
  obtain ⟨hfunction, hwrapper⟩ := wrapper_of_type htype
  rw [eq_comm, callRead_eq_bound]
  constructor
  · intro hgives
    cases hread : M.read S created owner name with
    | get d instance_ type =>
      obtain ⟨hlookup, rfl⟩ := read_get hslot hread
      rw [hread] at hgives
      simp only [Gives] at hgives
      split_ifs at hgives
      · rw [← hgives.1, hlookup]
      · rw [← hgives.1, hlookup]
      · rw [← hgives.1, hlookup]
      · cases hgives.2.2
    | value v =>
      rw [hread] at hgives
      cases hgives.2
    | slot | error =>
      rw [hread] at hgives
      cases hgives
  · intro hlookup
    have hfast : M.IsFast (M.builtinMethod (M.typeOf owner) name) := .inr (.inl hwrapper)
    rw [read_of_fast hlookup hfast, before, hslot]
    have hunder := M.builtinMethod_underlying _ hcontainer name
    simp [Gives, hfunction, hwrapper, hunder, issubclass]

theorem IsFast.classmethod (h : M.IsFast d) (hf : M.isFunction d = false) (hw : M.isWrapper d = false)
    (hc : M.typeOf d ≠ M.classmethodDescriptor) (hs : M.typeOf d ≠ M.staticMethod) : M.typeOf d = M.classmethod := by
  simpa [IsFast, hf, hw, hc, hs] using h

theorem yieldsTo_iff (hfast : M.IsFast desc) :
    M.fastCall S owner name args desc = M.callRead name args r ↔ M.YieldsTo S owner name desc r := by
  rw [eq_comm]
  unfold fastCall YieldsTo
  split_ifs with hdirect hc hs
  · cases Builtins.shapeAttribute S owner name with
    | none => exact callRead_eq_bound owner
    | some func => exact callRead_eq_plain
  · exact callRead_eq_bound _
  · exact callRead_eq_plain
  · simp only [Bool.or_eq_true, not_or, Bool.not_eq_true] at hdirect
    exact callRead_eq_getThenCall (hfast.classmethod hdirect.1 hdirect.2 hc hs)

theorem bindsAlike_iff (hfast : M.IsFast desc) :
    M.fastCall S owner name args desc = M.callRead name args (.get desc (some owner) (M.typeOf owner)) ↔
      M.BindsAlike S owner name desc := by
  rw [yieldsTo_iff hfast]
  unfold YieldsTo BindsAlike
  cases hf : M.isFunction desc with
  | true =>
    by_cases hnone : owner = M.pyNone
    · cases Builtins.shapeAttribute S owner name <;> simp [Gives, hf, hnone, eq_comm, Option.filter_some]
    · cases Builtins.shapeAttribute S owner name <;> simp [Gives, hf, hnone, Option.filter_some]
  | false =>
    cases hw : M.isWrapper desc with
    | true => cases Builtins.shapeAttribute S owner name <;> simp [Gives, hf, hw]
    | false =>
      simp only [Bool.or_self, Bool.false_eq_true, if_false]
      split_ifs with hc hs
      · simp only [Gives, hf, hw, hc, Bool.false_eq_true, if_false, if_true, true_and, Option.some.injEq, true_imp_iff]
        constructor
        · exact fun h => h.1.symm
        · intro h
          rw [h]
          exact ⟨rfl, by simp [issubclass]⟩
      · have hne : M.staticMethod ≠ M.classmethodDescriptor := hs ▸ hc
        exact iff_of_true (by simp [Gives, hf, hw, hs, hne]) fun h => absurd h hc
      · exact iff_of_true trivial fun h => absurd h hc

theorem called_of_fast (hneeds : M.toBuiltins.needsGetattribute (M.typeOf owner) = false)
    (hintrinsic : (!kwargs && M.toBuiltins.isIntrinsic (M.typeOf owner) name args) = false)
    (hlookup : M.toBuiltins.toClasses.lookup S (M.typeOf owner) name = some desc) (hfast : M.IsFast desc) :
    M.called S created (M.toBuiltins.rtCallMethodRawPtrs S owner name args kwargs) =
      M.fastCall S owner name args desc := by
  unfold Builtins.rtCallMethodRawPtrs
  dsimp only
  rw [hneeds, if_neg (by decide), hintrinsic, if_neg (by decide), hlookup]
  have hdirect : (M.typeOf desc = M.function ∨ M.typeOf desc = M.nativeFunction ∨ M.typeOf desc = M.methodWrapper ∨
      M.typeOf desc = M.slotWrapper) ↔ (M.isFunction desc || M.isWrapper desc) = true := by
    simp [isFunction, isWrapper, or_assoc]
  unfold fastCall
  simp only [hdirect]
  split_ifs with hd hc hs hm
  · cases Builtins.shapeAttribute S owner name <;> rfl
  · rfl
  · rfl
  · rfl
  all_goals
    simp only [Bool.or_eq_true, not_or, Bool.not_eq_true] at hd
    exact absurd (hfast.classmethod hd.1 hd.2 hc hs) hm

theorem called_of_slow (hneeds : M.toBuiltins.needsGetattribute (M.typeOf owner) = false)
    (hintrinsic : (!kwargs && M.toBuiltins.isIntrinsic (M.typeOf owner) name args) = false)
    (hslow : ∀ desc, M.toBuiltins.toClasses.lookup S (M.typeOf owner) name = some desc → ¬ M.IsFast desc) :
    M.toBuiltins.rtCallMethodRawPtrs S owner name args kwargs = .getattribute owner name args := by
  unfold Builtins.rtCallMethodRawPtrs
  dsimp only
  rw [hneeds, if_neg (by decide), hintrinsic, if_neg (by decide)]
  cases hlookup : M.toBuiltins.toClasses.lookup S (M.typeOf owner) name with
  | none => rfl
  | some desc =>
    have hkind := hslow desc hlookup
    simp only [IsFast, isFunction, isWrapper, Bool.or_eq_true, decide_eq_true_eq, not_or] at hkind
    obtain ⟨⟨hf, hn⟩, ⟨hw, hsw⟩, hc, hs, hm⟩ := hkind
    simp [hf, hn, hw, hsw, hc, hs, hm, Classes.descriptorIsData]

/-- The two agree exactly there, when an intrinsic is taken for the method of its name. -/
theorem called_eq_callRead (M : Methods ο) (S : Store ο) (created owner : ο) (name : String) (args : List ο)
    (kwargs : Bool) :
    M.called S created (M.toBuiltins.rtCallMethodRawPtrs S owner name args kwargs) =
        M.callRead name args (M.read S created owner name) ↔
      M.CallsAlike S owner name args kwargs := by
  unfold CallsAlike
  cases hneeds : M.toBuiltins.needsGetattribute (M.typeOf owner) with
  | true =>
    have hraw : M.toBuiltins.rtCallMethodRawPtrs S owner name args kwargs = .getattribute owner name args := by
      unfold Builtins.rtCallMethodRawPtrs
      dsimp only
      rw [if_pos hneeds]
    rw [hraw]
    exact iff_of_true rfl (.inl rfl)
  | false =>
    cases hintrinsic : !kwargs && M.toBuiltins.isIntrinsic (M.typeOf owner) name args with
    | true =>
      have hraw : M.toBuiltins.rtCallMethodRawPtrs S owner name args kwargs = .intrinsic owner name args := by
        unfold Builtins.rtCallMethodRawPtrs
        dsimp only
        rw [hneeds, if_neg (by decide), if_pos hintrinsic]
      rw [hraw]
      simp only [Bool.false_eq_true, false_or, if_true]
      exact intrinsic_iff (Bool.and_eq_true_iff.mp hintrinsic).2
    | false =>
      simp only [Bool.false_eq_true, false_or, if_false]
      by_cases hfast : ∃ desc, M.toBuiltins.toClasses.lookup S (M.typeOf owner) name = some desc ∧ M.IsFast desc
      · obtain ⟨desc, hlookup, hfast⟩ := hfast
        rw [called_of_fast hneeds hintrinsic hlookup hfast, read_of_fast hlookup hfast]
        simp only [hlookup, Option.some.injEq, forall_eq', hfast, forall_const]
        cases M.before S owner name desc with
        | none => exact bindsAlike_iff hfast
        | some r => exact yieldsTo_iff hfast
      · have hslow : ∀ desc, M.toBuiltins.toClasses.lookup S (M.typeOf owner) name = some desc → ¬ M.IsFast desc :=
          fun desc hlookup h => hfast ⟨desc, hlookup, h⟩
        rw [called_of_slow hneeds hintrinsic hslow]
        exact iff_of_true rfl fun desc hlookup h => absurd h (hslow desc hlookup)

end

end Methods

end Pylang.Runtime
