/-
The attributes of objects: the dictionaries of the classes under the global
version, and for an instance the slots of its shape or, once it is made, its
`__dict__`. `PyType::lookup` and `PyObject::__setattribute__`.
-/
import Mathlib.Logic.Function.Basic

namespace Pylang.Runtime

variable {ο : Type} [DecidableEq ο]

/-- A `Shape`: its type and the names in the order of their slots. The
transitions are shared, so shapes that are equal are one object. -/
structure Shape (ο : Type) where
  ownerType : ο
  names : List String
  deriving DecidableEq

namespace Shape

def root (ownerType : ο) : Shape ο := ⟨ownerType, []⟩

def slotCount (s : Shape ο) : Nat := s.names.length

def transition (s : Shape ο) (name : String) : Shape ο := { s with names := s.names ++ [name] }

def lookup (s : Shape ο) (name : String) : Option Nat :=
  if name ∈ s.names then some (s.names.idxOf name) else none

end Shape

/-- What never changes about the objects; the types are objects too. -/
structure Classes (ο : Type) where
  typeOf : ο → ο
  mro : ο → List ο
  /-- `as<PyType>`. -/
  isType : ο → Bool
  /-- `as<PyDict>`. -/
  isDict : ο → Bool
  allowsInstanceDict : ο → Bool
  /-- The types whose slots have `__get__`, and those with `__set__`. -/
  hasGet : ο → Bool
  hasSet : ο → Bool
  /-- `types::static_method()` and `types::slot_wrapper()`. -/
  staticMethod : ο
  slotWrapper : ο

/-- The attributes of all objects. -/
structure Store (ο : Type) where
  /-- `PyType::global_version()`. -/
  version : Nat
  /-- The `__dict__` of a type. -/
  dict : ο → String → Option ο
  shape : ο → Option (Shape ο)
  slots : ο → List ο
  /-- `m_instance_dict`. -/
  instanceDict : ο → Option ο
  /-- What a `PyDict` maps the names to. -/
  items : ο → String → Option ο

/-- What becomes of an assignment. -/
inductive SetResult (ο : Type)
  | ok
  /-- The `__set__` of the descriptor is called. -/
  | callSet (descriptor : ο)
  | error
  deriving DecidableEq

namespace Classes

variable (C : Classes ο)

/-- `descriptor_is_data`. -/
def descriptorIsData (o : ο) : Bool := C.typeOf o ≠ C.staticMethod && C.typeOf o ≠ C.slotWrapper

/-- `PyType::lookup`. -/
def lookup (S : Store ο) (type : ο) (name : String) : Option ο := (C.mro type).findSome? (S.dict · name)

end Classes

namespace Store

variable (S : Store ο) (obj : ο) (name : String) (value : ο)

/-- `inc_global_version` and the insertion into the dictionary of a type. -/
def setDict : Store ο :=
  { S with
    version := S.version + 1
    dict := Function.update S.dict obj (Function.update (S.dict obj) name (some value)) }

def setItem : Store ο :=
  { S with items := Function.update S.items obj (Function.update (S.items obj) name (some value)) }

def setShape (shape : Shape ο) : Store ο := { S with shape := Function.update S.shape obj (some shape) }

def setSlots (slots : List ο) : Store ο := { S with slots := Function.update S.slots obj slots }

def setInstanceDict : Store ο := { S with instanceDict := Function.update S.instanceDict obj (some value) }

/-- The offset of an instance attribute in the slots. -/
def offset? : Option Nat := (S.shape obj).bind (·.lookup name)

/-- The last part of `__setattribute__`: the store into the dictionary or the slots of the instance. -/
def storeAttribute (C : Classes ο) : Store ο :=
  match S.instanceDict obj with
  | some d => S.setItem d name value
  | none =>
    match S.shape obj with
    | none => (S.setShape obj ((Shape.root (C.typeOf obj)).transition name)).setSlots obj (S.slots obj ++ [value])
    | some shape =>
      match shape.lookup name with
      | some offset => S.setSlots obj ((S.slots obj).set offset value)
      | none => (S.setShape obj (shape.transition name)).setSlots obj (S.slots obj ++ [value])

/-- `PyObject::__setattribute__`. -/
def setattribute (C : Classes ο) : Store ο × SetResult ο :=
  if C.isType obj then (S.setDict obj name value, .ok)
  else
    match (C.lookup S (C.typeOf obj) name).filter
        (fun descriptor => C.descriptorIsData (C.typeOf descriptor) && C.hasSet (C.typeOf descriptor)) with
    | some descriptor => (S, .callSet descriptor)
    | none =>
      if name = "__dict__" then
        if C.isDict value && C.allowsInstanceDict obj then (S.setInstanceDict obj value, .ok) else (S, .error)
      else (S.storeAttribute obj name value C, .ok)

/-- `materialize_instance_dict`, with the dictionary `PyDict::create` returns. -/
def materialize (C : Classes ο) (created : ο) : Option (Store ο) :=
  if !C.allowsInstanceDict obj then none
  else
    match S.instanceDict obj with
    | some _ => some S
    | none =>
      some ({ S with
        items := Function.update S.items created fun name => (S.offset? obj name).bind ((S.slots obj)[·]?)
        instanceDict := Function.update S.instanceDict obj (some created) })

end Store

/-- An instance has a slot for each name of its shape. -/
def Store.Sound (S : Store ο) : Prop := ∀ o, (S.slots o).length = ((S.shape o).map Shape.slotCount).getD 0

/-- What a step of the program can do to the attributes: change instances and
leave the classes, or change classes under a new version. No code removes an
entry of a class. -/
inductive Change (S S' : Store ο) : Prop
  | instances : S'.version = S.version → S'.dict = S.dict → (S.Sound → S'.Sound) → Change S S'
  | classes : S.version < S'.version → (∀ t name, (S.dict t name).isSome → (S'.dict t name).isSome) →
      (S.Sound → S'.Sound) → Change S S'

section Change

variable {C : Classes ο} {S S' : Store ο} {obj : ο} {name : String} {value : ο}

omit [DecidableEq ο] in
theorem Store.Sound.offset_lt (h : S.Sound) {offset : Nat} (ho : S.offset? obj name = some offset) :
    offset < (S.slots obj).length := by
  unfold Store.offset? at ho
  cases hs : S.shape obj with
  | none =>
    rw [hs] at ho
    cases ho
  | some shape =>
    have hlookup : shape.lookup name = some offset := by simpa [hs] using ho
    have hlen := h obj
    rw [hs] at hlen
    unfold Shape.lookup at hlookup
    split at hlookup
    · next hin =>
      cases hlookup
      simp only [Option.map_some, Option.getD_some, Shape.slotCount] at hlen
      rw [hlen]
      exact List.idxOf_lt_length_of_mem hin
    · cases hlookup

theorem Store.Sound.push (h : S.Sound) {shape : Shape ο}
    (hcount : shape.slotCount = ((S.shape obj).map Shape.slotCount).getD 0) :
    ((S.setShape obj (shape.transition name)).setSlots obj (S.slots obj ++ [value])).Sound := by
  intro o
  by_cases ho : o = obj
  · subst ho
    have hlen := h o
    rw [← hcount] at hlen
    simp only [Store.setShape, Store.setSlots, Function.update_self, List.length_append, List.length_singleton,
      Option.map_some, Option.getD_some, hlen]
    simp [Shape.slotCount, Shape.transition]
  · simpa [Store.setShape, Store.setSlots, ho] using h o

theorem Store.Sound.setSlots (h : S.Sound) {slots : List ο} (hlen : slots.length = (S.slots obj).length) :
    (S.setSlots obj slots).Sound := by
  intro o
  by_cases ho : o = obj
  · subst ho
    simpa [Store.setSlots, hlen] using h o
  · simpa [Store.setSlots, ho] using h o

theorem Change.of_setDict : Change S (S.setDict obj name value) := by
  refine .classes (Nat.lt_succ_self _) (fun t n h => ?_) id
  by_cases ht : t = obj
  · subst ht
    by_cases hn : n = name
    · subst hn
      simp [Store.setDict]
    · simpa [Store.setDict, hn] using h
  · simpa [Store.setDict, ht] using h

theorem Change.of_storeAttribute : Change S (S.storeAttribute obj name value C) := by
  unfold Store.storeAttribute
  split
  · exact .instances rfl rfl id
  · cases hshape : S.shape obj with
    | none => exact .instances rfl rfl fun h => h.push (by simp [hshape, Shape.root, Shape.slotCount])
    | some shape =>
      dsimp only
      split
      · exact .instances rfl rfl fun h => h.setSlots (by simp)
      · exact .instances rfl rfl fun h => h.push (by simp [hshape])

theorem Change.of_setattribute : Change S (S.setattribute obj name value C).1 := by
  unfold Store.setattribute
  split
  · exact .of_setDict
  · split
    · exact .instances rfl rfl id
    · split
      · split <;> exact .instances rfl rfl id
      · exact .of_storeAttribute

theorem Change.of_materialize {created : ο} (h : S.materialize obj C created = some S') : Change S S' := by
  unfold Store.materialize at h
  split at h
  · cases h
  · split at h
    · cases h
      exact .instances rfl rfl id
    · cases h
      exact .instances rfl rfl id

omit [DecidableEq ο] in
theorem Change.sound (h : Change S S') (hS : S.Sound) : S'.Sound := by
  cases h with
  | instances _ _ hsound => exact hsound hS
  | classes _ _ hsound => exact hsound hS

omit [DecidableEq ο] in
theorem Change.lookup_isSome (h : Change S S') {type : ο} (hs : (C.lookup S type name).isSome) :
    (C.lookup S' type name).isSome := by
  cases h with
  | instances _ hdict =>
    unfold Classes.lookup at hs ⊢
    rwa [hdict]
  | classes _ hkeep =>
    unfold Classes.lookup at hs ⊢
    rw [List.findSome?_isSome_iff] at hs ⊢
    obtain ⟨t, ht, hsome⟩ := hs
    exact ⟨t, ht, hkeep t name hsome⟩

end Change

end Pylang.Runtime
