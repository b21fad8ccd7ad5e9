/-
The inline caches of attribute reads and stores: `rt_getattr_ic` and
`rt_setattr_ic` against `getattribute` and `setattribute`. A filled cache says
where the slot is for a type, a shape and a version of the classes, and that
the classes do not come first.
-/
import Pylang.Runtime.ObjectStore
import Mathlib.Data.List.Basic

namespace Pylang.Runtime

/-- What the `__getattribute__` slot of a type holds. -/
inductive GetSlot
  | missing
  /-- `PyObject::__getattribute__`. -/
  | object
  /-- `PyType::__getattribute__`. -/
  | type
  /-- That of another built-in type, such as `module` or `super`. -/
  | native
  /-- A Python function. -/
  | python
  deriving DecidableEq

/-- What the `__setattribute__` slot of a type holds. -/
inductive SetSlot
  | missing
  /-- `PyObject::__setattribute__`. -/
  | object
  | native
  | python
  deriving DecidableEq

structure AttrTypes (ο : Type) extends Classes ο where
  /-- `types::type()`. -/
  type : ο
  getSlot : ο → GetSlot
  setSlot : ο → SetSlot
  mro_head : ∀ t, isType t = true → (mro t).head? = some t

/-- What becomes of a read. -/
inductive Read (ο : Type)
  | value (v : ο)
  /-- `descriptor->get(instance, owner)`. -/
  | get (descriptor : ο) (instance_ : Option ο) (owner : ο)
  /-- The slot of the type is called, or is missing. -/
  | slot (obj : ο)
  | error
  deriving DecidableEq

/-- What an `AttrCache` is filled for. -/
inductive CacheKind
  | empty
  | read
  | write
  deriving DecidableEq

/-- An `AttrCache` of a call site. -/
structure AttrCache (ο : Type) where
  kind : CacheKind
  expectedType : ο
  typeVersion : Nat
  expectedShape : Option (Shape ο)
  nextShape : Option (Shape ο)
  slotOffset : Nat
  deriving DecidableEq

namespace AttrTypes

variable {ο : Type} [DecidableEq ο] (C : AttrTypes ο)

/-- The value in the slots of the shape. -/
def slotValue (S : Store ο) (obj : ο) (offset : Nat) : Read ο :=
  match (S.slots obj)[offset]? with
  | some v => .value v
  | none => .error

/-- The attributes of an instance that `__getattribute__` looks at: the dictionary if there is one, else the slots. -/
def instanceValue (S : Store ο) (obj : ο) (name : String) : Option (Read ο) :=
  match S.instanceDict obj with
  | some d => (S.items d name).map .value
  | none => (S.offset? obj name).map (slotValue S obj)

/-- `descriptor_get.has_value() && descriptor_is_data(descriptor->type())`. -/
def getsFirst (descriptor : ο) : Bool :=
  C.hasGet (C.typeOf descriptor) && C.descriptorIsData (C.typeOf descriptor)

/-- The end of `__getattribute__`: the attribute of the class. -/
def classValue (S : Store ο) (obj : ο) (name : String) : Read ο :=
  match C.lookup S (C.typeOf obj) name with
  | some descriptor =>
    if C.hasGet (C.typeOf descriptor) then .get descriptor (some obj) (C.typeOf obj) else .value descriptor
  | none => .error

/-- `PyObject::__getattribute__`, with the dictionary that `PyDict::create` returns where `__dict__` is made. -/
def defaultGetattribute (S : Store ο) (created obj : ο) (name : String) : Read ο × Store ο :=
  match (C.lookup S (C.typeOf obj) name).filter C.getsFirst with
  | some descriptor => (.get descriptor (some obj) (C.typeOf obj), S)
  | none =>
    if name = "__dict__" then
      match S.materialize obj C.toClasses created with
      | none => (.error, S)
      | some S' => (.value ((S'.instanceDict obj).getD created), S')
    else ((instanceValue S obj name).getD (C.classValue S obj name), S)

/-- `PyType::__getattribute__`. -/
def typeGetattribute (S : Store ο) (obj : ο) (name : String) : Read ο :=
  let metaAttr := C.lookup S (C.typeOf obj) name
  match metaAttr.filter (fun a => C.hasGet (C.typeOf a) && C.hasSet (C.typeOf a)) with
  | some a => .get a (some obj) (C.typeOf obj)
  | none =>
    match C.lookup S obj name with
    | some a => if C.hasGet (C.typeOf a) then .get a none obj else .value a
    | none => C.classValue S obj name

/-- `PyObject::getattribute`. -/
def getattribute (S : Store ο) (created obj : ο) (name : String) : Read ο × Store ο :=
  match C.getSlot (C.typeOf obj) with
  | .object => C.defaultGetattribute S created obj name
  | .type => (C.typeGetattribute S obj name, S)
  | _ => (.slot obj, S)

/-- `PyObject::setattribute`; `none` where the slot of the type is called or missing. -/
def setattribute (S : Store ο) (obj : ο) (name : String) (value : ο) : Option (Store ο × SetResult ο) :=
  match C.setSlot (C.typeOf obj) with
  | .object => some (S.setattribute obj name value C.toClasses)
  | _ => none

def usesDefaultGetattribute (obj : ο) : Bool :=
  C.getSlot (C.typeOf obj) ≠ .missing && C.getSlot (C.typeOf obj) ≠ .python && C.typeOf obj ≠ C.type

def usesDefaultSetattribute (obj : ο) : Bool :=
  C.setSlot (C.typeOf obj) ≠ .missing && C.setSlot (C.typeOf obj) ≠ .python && C.typeOf obj ≠ C.type

/-- `resolve_default_getattr`. The table of class attributes it asks first is
never written: `lookup` and `update` each have a table of their own. -/
def resolveDefaultGetattr (S : Store ο) (cache : AttrCache ο) (created obj : ο) (name : String) :
    Read ο × Store ο × AttrCache ο :=
  match (C.lookup S (C.typeOf obj) name).filter C.getsFirst with
  | some descriptor => (.get descriptor (some obj) (C.typeOf obj), S, cache)
  | none =>
    match S.offset? obj name with
    | some offset =>
      (slotValue S obj offset, S,
        { cache with
          kind := .read, expectedType := C.typeOf obj, typeVersion := S.version
          expectedShape := S.shape obj, slotOffset := offset })
    | none =>
      match C.lookup S (C.typeOf obj) name with
      | some _ => (C.classValue S obj name, S, cache)
      | none =>
        let (r, S') := C.getattribute S created obj name
        (r, S', cache)

/-- The guards of a cached read. -/
def readHits (S : Store ο) (cache : AttrCache ο) (obj : ο) : Bool :=
  cache.kind = .read && cache.expectedType = C.typeOf obj && cache.expectedShape = S.shape obj &&
    cache.typeVersion = S.version && (S.instanceDict obj).isNone

/-- `rt_getattr_ic`. -/
def rtGetattrIc (S : Store ο) (cache : AttrCache ο) (created obj : ο) (name : String) :
    Read ο × Store ο × AttrCache ο :=
  if C.readHits S cache obj then (slotValue S obj cache.slotOffset, S, cache)
  else
    let cache := { cache with kind := .empty }
    if !C.usesDefaultGetattribute obj || (S.instanceDict obj).isSome then
      let (r, S') := C.getattribute S created obj name
      (r, S', cache)
    else C.resolveDefaultGetattr S cache created obj name

/-- The write into the slot of a new shape; no slot before the last is ever
missing, so that nothing reads what `resize` fills in. -/
def putSlot (S : Store ο) (obj : ο) (offset : Nat) (value : ο) : Store ο :=
  if (S.slots obj).length = offset then S.setSlots obj (S.slots obj ++ [value])
  else S.setSlots obj (((S.slots obj).rightpad (offset + 1) value).set offset value)

/-- The guards of a cached store. -/
def writeHits (S : Store ο) (cache : AttrCache ο) (obj : ο) : Bool :=
  cache.expectedType = C.typeOf obj && cache.expectedShape = S.shape obj && cache.typeVersion = S.version

/-- `rt_setattr_ic`. -/
def rtSetattrIc (S : Store ο) (cache : AttrCache ο) (obj : ο) (name : String) (value : ο) :
    Option (Store ο × SetResult ο) × AttrCache ο :=
  if !C.usesDefaultSetattribute obj || (S.instanceDict obj).isSome then (C.setattribute S obj name value, cache)
  else if C.isType obj then (C.setattribute S obj name value, cache)
  else if cache.kind = .write && C.writeHits S cache obj then
    match cache.nextShape with
    | some next =>
      if cache.nextShape ≠ cache.expectedShape then
        (some (putSlot (S.setShape obj next) obj cache.slotOffset value, .ok), cache)
      else (some (S.setSlots obj ((S.slots obj).set cache.slotOffset value), .ok), cache)
    | none => (none, cache)
  else
    let cache := if cache.kind = .write then { cache with kind := .empty } else cache
    match (C.lookup S (C.typeOf obj) name).filter (fun d => C.descriptorIsData (C.typeOf d)) with
    | some _ => (C.setattribute S obj name value, cache)
    | none =>
      match S.offset? obj name with
      | some offset =>
        (some (S.setSlots obj ((S.slots obj).set offset value), .ok),
          { kind := .write, expectedType := C.typeOf obj, typeVersion := S.version
            expectedShape := S.shape obj, nextShape := S.shape obj, slotOffset := offset })
      | none =>
        let next := ((S.shape obj).getD (Shape.root (C.typeOf obj))).transition name
        let offset := (next.lookup name).getD 0
        (some (putSlot (S.setShape obj next) obj offset value, .ok),
          { kind := .write, expectedType := C.typeOf obj, typeVersion := S.version
            expectedShape := S.shape obj, nextShape := some next, slotOffset := offset })

/-! ### What a filled cache says -/

/-- A read cache for a name. -/
structure ReadValid (S : Store ο) (name : String) (cache : AttrCache ο) : Prop where
  version : cache.typeVersion ≤ S.version
  uses : C.getSlot cache.expectedType ≠ .missing ∧ C.getSlot cache.expectedType ≠ .python ∧ cache.expectedType ≠ C.type
  offset : cache.expectedShape.bind (·.lookup name) = some cache.slotOffset
  lookup : cache.typeVersion = S.version → (C.lookup S cache.expectedType name).filter C.getsFirst = none

/-- A store cache for a name: the slot is in the shape, or is the next one. -/
structure WriteValid (name : String) (cache : AttrCache ο) : Prop where
  shapes :
    (∃ shape, cache.expectedShape = some shape ∧ cache.nextShape = some shape ∧
      shape.lookup name = some cache.slotOffset) ∨
    (cache.nextShape = some ((cache.expectedShape.getD (Shape.root cache.expectedType)).transition name) ∧
      cache.expectedShape.bind (·.lookup name) = none ∧
      cache.slotOffset = (cache.expectedShape.map Shape.slotCount).getD 0)

section Valid

variable {C} {S S' : Store ο} {name : String} {cache : AttrCache ο} {created obj value : ο}

theorem ReadValid.change (h : C.ReadValid S name cache) (hc : Change S S') : C.ReadValid S' name cache := by
  cases hc with
  | instances hversion hdict =>
    refine ⟨by rw [hversion]; exact h.version, h.uses, h.offset, fun he => ?_⟩
    rw [hversion] at he
    have hlookup := h.lookup he
    unfold Classes.lookup at hlookup ⊢
    rwa [hdict]
  | classes hversion =>
    have hle := h.version
    exact ⟨by omega, h.uses, h.offset, fun he => by omega⟩

theorem readHits_iff : C.readHits S cache obj = true ↔
    cache.kind = .read ∧ cache.expectedType = C.typeOf obj ∧ cache.expectedShape = S.shape obj ∧
      cache.typeVersion = S.version ∧ S.instanceDict obj = none := by
  simp [readHits, and_assoc]

theorem hit_eq (hv : cache.kind = .read → C.ReadValid S name cache) (hhit : C.readHits S cache obj = true)
    (hname : name ≠ "__dict__") : C.defaultGetattribute S created obj name = (slotValue S obj cache.slotOffset, S) := by
  obtain ⟨hkind, htype, hshape, hversion, hdict⟩ := readHits_iff.mp hhit
  have hvalid := hv hkind
  have hfilter := hvalid.lookup hversion
  have hoffset := hvalid.offset
  rw [htype] at hfilter
  rw [hshape] at hoffset
  have hinstance : instanceValue S obj name = some (slotValue S obj cache.slotOffset) := by
    simp [instanceValue, hdict, Store.offset?, hoffset]
  unfold defaultGetattribute
  simp only [hfilter, if_neg hname, hinstance, Option.getD_some]

theorem resolve_eq (cache : AttrCache ο) (created : ο) (hslot : C.getSlot (C.typeOf obj) = .object)
    (hdict : S.instanceDict obj = none) (hname : name ≠ "__dict__") :
    (C.resolveDefaultGetattr S cache created obj name).1 = (C.defaultGetattribute S created obj name).1 ∧
      (C.resolveDefaultGetattr S cache created obj name).2.1 = S := by
  have hget : C.getattribute S created obj name = C.defaultGetattribute S created obj name := by
    simp [getattribute, hslot]
  unfold resolveDefaultGetattr
  rw [hget]
  unfold defaultGetattribute
  cases hfilter : (C.lookup S (C.typeOf obj) name).filter C.getsFirst with
  | some descriptor => exact ⟨rfl, rfl⟩
  | none =>
    simp only [if_neg hname, instanceValue, hdict]
    cases S.offset? obj name with
    | some offset => exact ⟨rfl, rfl⟩
    | none =>
      cases hlookup : C.lookup S (C.typeOf obj) name with
      | some descriptor => exact ⟨rfl, rfl⟩
      | none => exact ⟨rfl, rfl⟩

theorem default_store (hname : name ≠ "__dict__") : (C.defaultGetattribute S created obj name).2 = S := by
  unfold defaultGetattribute
  split
  · rfl
  · rw [if_neg hname]

/-- **A cached read is the uncached read**, of an object whose type has the
`__getattribute__` of `object` or one the cache leaves alone. -/
theorem getattrIc_eq (hv : cache.kind = .read → C.ReadValid S name cache) (hname : name ≠ "__dict__")
    (hobj : C.getSlot (C.typeOf obj) = .object ∨ C.usesDefaultGetattribute obj = false) :
    (C.rtGetattrIc S cache created obj name).1 = (C.getattribute S created obj name).1 ∧
      (C.rtGetattrIc S cache created obj name).2.1 = (C.getattribute S created obj name).2 := by
  unfold rtGetattrIc
  by_cases hhit : C.readHits S cache obj = true
  · rw [if_pos hhit]
    have htype := (readHits_iff.mp hhit).2.1
    have hvalid := hv (readHits_iff.mp hhit).1
    have hslot : C.getSlot (C.typeOf obj) = .object := by
      refine hobj.resolve_right fun hnot => ?_
      have huses := hvalid.uses
      rw [htype] at huses
      simp [usesDefaultGetattribute, huses] at hnot
    have hget : C.getattribute S created obj name = C.defaultGetattribute S created obj name := by
      simp [getattribute, hslot]
    rw [hget, hit_eq hv hhit hname]
    exact ⟨rfl, rfl⟩
  · rw [if_neg hhit]
    dsimp only
    split
    · exact ⟨rfl, rfl⟩
    · next hdefault =>
      simp only [Bool.or_eq_true, Bool.not_eq_true', not_or, Bool.not_eq_false, Option.not_isSome_iff_eq_none]
        at hdefault
      have hslot : C.getSlot (C.typeOf obj) = .object :=
        hobj.resolve_right fun hnot => absurd hdefault.1 (by simp [hnot])
      have hget : C.getattribute S created obj name = C.defaultGetattribute S created obj name := by
        simp [getattribute, hslot]
      obtain ⟨hread, hstore⟩ := resolve_eq { cache with kind := .empty } created hslot
        hdefault.2 hname
      rw [hread, hstore, hget, default_store hname]
      exact ⟨rfl, rfl⟩

/-- A read leaves a valid cache. -/
theorem getattrIc_valid (hv : cache.kind = .read → C.ReadValid S name cache) :
    (C.rtGetattrIc S cache created obj name).2.2.kind = .read →
      C.ReadValid S name (C.rtGetattrIc S cache created obj name).2.2 := by
  unfold rtGetattrIc
  split
  · exact hv
  · dsimp only
    split
    · intro hkind
      cases hkind
    · next hdefault =>
      unfold resolveDefaultGetattr
      split
      · intro hkind
        cases hkind
      · next hfilter =>
        split
        · next offset hoffset =>
          simp only [Bool.or_eq_true, Bool.not_eq_true', not_or, Bool.not_eq_false] at hdefault
          have huses := hdefault.1
          simp only [usesDefaultGetattribute, Bool.and_eq_true, decide_eq_true_eq] at huses
          exact fun _ => ⟨Nat.le_refl _, ⟨huses.1.1, huses.1.2, huses.2⟩, hoffset, fun _ => hfilter⟩
        · split
          · intro hkind
            cases hkind
          · intro hkind
            cases hkind

/-! ### Stores -/

theorem putSlot_eq {offset : Nat} (h : (S.slots obj).length = offset) :
    putSlot S obj offset value = S.setSlots obj (S.slots obj ++ [value]) := if_pos h

omit [DecidableEq ο] in
theorem transition_lookup {shape : Shape ο} (h : shape.lookup name = none) :
    (shape.transition name).lookup name = some shape.slotCount := by
  unfold Shape.lookup at h
  split at h
  · cases h
  · next hin =>
    have hidx : (shape.names ++ [name]).idxOf name = shape.names.length := by
      rw [List.idxOf_append_of_notMem hin, List.idxOf_cons_self, Nat.add_zero]
    simp [Shape.lookup, Shape.transition, Shape.slotCount, hidx]

omit [DecidableEq ο] in
theorem getD_slotCount {t : ο} : ((S.shape obj).getD (Shape.root t)).slotCount = ((S.shape obj).map Shape.slotCount).getD 0 := by
  cases S.shape obj <;> rfl

omit [DecidableEq ο] in
theorem getD_lookup {t : ο} (h : S.offset? obj name = none) : ((S.shape obj).getD (Shape.root t)).lookup name = none := by
  unfold Store.offset? at h
  cases hs : S.shape obj with
  | none => simp [Shape.lookup, Shape.root]
  | some shape => simpa [hs] using h

/-- What a store into the slots does to an instance. -/
structure Stored (S S' : Store ο) (obj : ο) (name : String) (value : ο) : Prop where
  change : Change S S'
  dict : S'.dict = S.dict
  instanceDict : S'.instanceDict = S.instanceDict
  reads : S.Sound → (S'.offset? obj name).map (slotValue S' obj) = some (.value value)

theorem Stored.of_set {offset : Nat} (h : S.offset? obj name = some offset) :
    Stored S (S.setSlots obj ((S.slots obj).set offset value)) obj name value := by
  refine ⟨.instances rfl rfl fun hS => hS.setSlots (by simp), rfl, rfl, fun hS => ?_⟩
  have hlt := hS.offset_lt h
  have hoffset : (S.setSlots obj ((S.slots obj).set offset value)).offset? obj name = some offset := h
  rw [hoffset]
  simp [slotValue, Store.setSlots, hlt]

theorem Stored.of_push {shape : Shape ο} (hS : S.Sound) (hlookup : shape.lookup name = none)
    (hcount : shape.slotCount = ((S.shape obj).map Shape.slotCount).getD 0) :
    Stored S ((S.setShape obj (shape.transition name)).setSlots obj (S.slots obj ++ [value])) obj name value := by
  refine ⟨.instances rfl rfl fun h => h.push hcount, rfl, rfl, fun _ => ?_⟩
  have hlen : (S.slots obj).length = shape.slotCount := by rw [hcount]; exact hS obj
  have hoffset : ((S.setShape obj (shape.transition name)).setSlots obj (S.slots obj ++ [value])).offset? obj name =
      some shape.slotCount := by
    simp [Store.offset?, Store.setSlots, Store.setShape, transition_lookup hlookup]
  rw [hoffset]
  simp [slotValue, Store.setSlots, ← hlen]

theorem storeAttribute_of_set {offset : Nat} (hdict : S.instanceDict obj = none) (h : S.offset? obj name = some offset) :
    S.storeAttribute obj name value C.toClasses = S.setSlots obj ((S.slots obj).set offset value) := by
  unfold Store.offset? at h
  unfold Store.storeAttribute
  rw [hdict]
  cases hshape : S.shape obj with
  | none =>
    rw [hshape] at h
    cases h
  | some shape =>
    rw [hshape, Option.bind_some] at h
    simp only [h]

theorem storeAttribute_of_push (hdict : S.instanceDict obj = none) (h : S.offset? obj name = none) :
    S.storeAttribute obj name value C.toClasses =
      (S.setShape obj (((S.shape obj).getD (Shape.root (C.typeOf obj))).transition name)).setSlots obj
        (S.slots obj ++ [value]) := by
  unfold Store.offset? at h
  unfold Store.storeAttribute
  rw [hdict]
  cases hshape : S.shape obj with
  | none => rfl
  | some shape =>
    rw [hshape, Option.bind_some] at h
    simp only [h, Option.getD_some]

theorem storeAttribute_stored (hS : S.Sound) (hdict : S.instanceDict obj = none) :
    Stored S (S.storeAttribute obj name value C.toClasses) obj name value := by
  cases hoffset : S.offset? obj name with
  | some offset =>
    rw [storeAttribute_of_set hdict hoffset]
    exact .of_set hoffset
  | none =>
    rw [storeAttribute_of_push hdict hoffset]
    exact .of_push hS (getD_lookup hoffset) getD_slotCount

/-- The stores of the cache that bypass `setattribute` store as it does. -/
theorem setattrIc_store (value : ο) (hS : S.Sound) (hv : cache.kind = .write → WriteValid name cache)
    (hset : C.usesDefaultSetattribute obj = true) (hdict : S.instanceDict obj = none) (htype : C.isType obj = false)
    (hlookup : (cache.kind = .write && C.writeHits S cache obj) = true ∨
      (C.lookup S (C.typeOf obj) name).filter (fun d => C.descriptorIsData (C.typeOf d)) = none) :
    (C.rtSetattrIc S cache obj name value).1 = some (S.storeAttribute obj name value C.toClasses, .ok) := by
  unfold rtSetattrIc
  rw [if_neg (by simp [hset, hdict]), if_neg (by simp [htype])]
  split
  · next hhit =>
    simp only [writeHits, Bool.and_eq_true, decide_eq_true_eq] at hhit
    obtain ⟨hkind, ⟨hct, hshape⟩, -⟩ := hhit
    rcases (hv hkind).shapes with ⟨shape, hexp, hnext, hoffset⟩ | ⟨hnext, hnone, hoffset⟩
    · rw [hnext]
      dsimp only
      rw [if_neg (by rw [hexp]; simp)]
      have hslot : S.offset? obj name = some cache.slotOffset := by
        unfold Store.offset?
        rw [← hshape, hexp]
        exact hoffset
      rw [storeAttribute_of_set hdict hslot]
    · have hne : cache.nextShape ≠ cache.expectedShape := by
        rw [hnext]
        cases hexp : cache.expectedShape with
        | none => simp
        | some shape =>
          intro he
          have hnames := congrArg (fun s => s.names.length) (Option.some.inj he)
          simp [Shape.transition] at hnames
      rw [hshape] at hnone hnext hoffset
      rw [hct] at hnext
      rw [hnext]
      dsimp only
      rw [if_pos (by rw [← hnext]; exact hne)]
      have hlen : ((S.setShape obj (((S.shape obj).getD (Shape.root (C.typeOf obj))).transition name)).slots obj).length =
          cache.slotOffset := by
        rw [hoffset]
        exact hS obj
      rw [putSlot_eq hlen, storeAttribute_of_push hdict hnone]
      rfl
  · next hmiss =>
    dsimp only
    rw [hlookup.resolve_left hmiss]
    dsimp only
    cases hoffset : S.offset? obj name with
    | some offset => rw [storeAttribute_of_set hdict hoffset]
    | none =>
      have hshape := getD_lookup (t := C.typeOf obj) hoffset
      have hlen : ((S.setShape obj (((S.shape obj).getD (Shape.root (C.typeOf obj))).transition name)).slots obj).length =
          ((((S.shape obj).getD (Shape.root (C.typeOf obj))).transition name).lookup name).getD 0 := by
        rw [transition_lookup hshape, Option.getD_some, getD_slotCount]
        exact hS obj
      dsimp only
      rw [putSlot_eq hlen, storeAttribute_of_push hdict hoffset]
      rfl

theorem setattrIc_stored (value : ο) (hS : S.Sound) (hv : cache.kind = .write → WriteValid name cache)
    (hset : C.usesDefaultSetattribute obj = true) (hdict : S.instanceDict obj = none) (htype : C.isType obj = false)
    (hlookup : (cache.kind = .write && C.writeHits S cache obj) = true ∨
      (C.lookup S (C.typeOf obj) name).filter (fun d => C.descriptorIsData (C.typeOf d)) = none) :
    ∃ S', (C.rtSetattrIc S cache obj name value).1 = some (S', .ok) ∧ Stored S S' obj name value :=
  ⟨_, setattrIc_store value hS hv hset hdict htype hlookup, storeAttribute_stored hS hdict⟩

theorem setattribute_change {r : SetResult ο} (h : C.setattribute S obj name value = some (S', r)) : Change S S' := by
  unfold setattribute at h
  split at h
  · have hfst : (S.setattribute obj name value C.toClasses).1 = S' := congrArg Prod.fst (Option.some.inj h)
    rw [← hfst]
    exact .of_setattribute
  · cases h

theorem setattrIc_change (hS : S.Sound) (hv : cache.kind = .write → WriteValid name cache) {r : SetResult ο}
    (h : (C.rtSetattrIc S cache obj name value).1 = some (S', r)) : Change S S' := by
  by_cases hset : (!C.usesDefaultSetattribute obj || (S.instanceDict obj).isSome) = true
  · unfold rtSetattrIc at h
    rw [if_pos hset] at h
    exact setattribute_change h
  · by_cases htype : C.isType obj = true
    · unfold rtSetattrIc at h
      rw [if_neg hset, if_pos htype] at h
      exact setattribute_change h
    · have hcond := hset
      simp only [Bool.or_eq_true, Bool.not_eq_true', not_or, Bool.not_eq_false, Option.not_isSome_iff_eq_none] at hcond
      by_cases hdirect : (cache.kind = .write && C.writeHits S cache obj) = true ∨
          (C.lookup S (C.typeOf obj) name).filter (fun d => C.descriptorIsData (C.typeOf d)) = none
      · obtain ⟨S'', hS'', hstored⟩ := setattrIc_stored value hS hv hcond.1 hcond.2 (by simpa using htype) hdirect
        rw [hS''] at h
        cases h
        exact hstored.change
      · rw [not_or] at hdirect
        obtain ⟨d, hd⟩ := Option.ne_none_iff_exists'.mp hdirect.2
        unfold rtSetattrIc at h
        rw [if_neg hset, if_neg htype, if_neg hdirect.1] at h
        simp only [hd] at h
        exact setattribute_change h

/-- A store leaves a valid cache. -/
theorem setattrIc_valid (hv : cache.kind = .write → WriteValid name cache) :
    (C.rtSetattrIc S cache obj name value).2.kind = .write →
      WriteValid name (C.rtSetattrIc S cache obj name value).2 := by
  unfold rtSetattrIc
  split
  · exact hv
  · split
    · exact hv
    · split
      · split
        · split
          · exact hv
          · exact hv
        · exact hv
      · dsimp only
        split
        · split
          · intro hkind
            cases hkind
          · exact hv
        · split
          · next offset hoffset =>
            refine fun _ => ⟨Or.inl ?_⟩
            cases hs : S.shape obj with
            | none => simp [Store.offset?, hs] at hoffset
            | some shape => exact ⟨shape, rfl, rfl, by simpa [Store.offset?, hs] using hoffset⟩
          · next hoffset =>
            refine fun _ => ⟨Or.inr ⟨rfl, hoffset, ?_⟩⟩
            dsimp only
            rw [transition_lookup (getD_lookup hoffset), Option.getD_some, getD_slotCount]

/-! ### A store, then a read -/

/-- The objects whose attribute of a name is their own to keep: an instance
whose class has no descriptor there, or a class whose metaclass has none with
both `__get__` and `__set__`. -/
inductive Keeps (S : Store ο) (obj : ο) (name : String) (value : ο) : Prop
  | instance_ : C.isType obj = false → C.getSlot (C.typeOf obj) = .object → C.setSlot (C.typeOf obj) = .object →
      C.typeOf obj ≠ C.type →
      (∀ d, C.lookup S (C.typeOf obj) name = some d → C.hasGet (C.typeOf d) = false ∧ C.hasSet (C.typeOf d) = false) →
      Keeps S obj name value
  | «class» : C.isType obj = true → C.typeOf obj = C.type → C.getSlot C.type = .type → C.setSlot C.type = .object →
      (∀ d, C.lookup S C.type name = some d → C.hasGet (C.typeOf d) = false ∨ C.hasSet (C.typeOf d) = false) →
      C.hasGet (C.typeOf value) = false → Keeps S obj name value

theorem storeAttribute_reads (hS : S.Sound) :
    instanceValue (S.storeAttribute obj name value C.toClasses) obj name = some (.value value) := by
  cases hdict : S.instanceDict obj with
  | some d => simp [instanceValue, Store.storeAttribute, Store.setItem, hdict]
  | none =>
    have hstored : Stored S (S.storeAttribute obj name value C.toClasses) obj name value := storeAttribute_stored hS hdict
    unfold instanceValue
    rw [hstored.instanceDict, hdict]
    exact hstored.reads hS

omit [DecidableEq ο] in
theorem filter_eq_none {x : Option ο} {p : ο → Bool} (h : ∀ d, x = some d → p d = false) : x.filter p = none := by
  cases x with
  | none => rfl
  | some d => simp [Option.filter, h d rfl]

theorem default_of_instance (hlookup : ∀ d, C.lookup S (C.typeOf obj) name = some d → C.hasGet (C.typeOf d) = false)
    (hname : name ≠ "__dict__") (h : instanceValue S obj name = some (.value value)) :
    (C.defaultGetattribute S created obj name).1 = .value value := by
  have hfilter : (C.lookup S (C.typeOf obj) name).filter C.getsFirst = none :=
    filter_eq_none fun d hd => by rw [getsFirst, hlookup d hd, Bool.false_and]
  unfold defaultGetattribute
  simp only [hfilter, if_neg hname, h, Option.getD_some]

omit [DecidableEq ο] in
theorem lookup_eq_of_dict {t : ο} (h : S'.dict = S.dict) : C.lookup S' t name = C.lookup S t name := by
  unfold Classes.lookup
  rw [h]

theorem storeAttribute_dict : (S.storeAttribute obj name value C.toClasses).dict = S.dict := by
  unfold Store.storeAttribute
  split
  · rfl
  · split
    · rfl
    · split <;> rfl

theorem lookup_setDict (t : ο) : C.lookup (S.setDict obj name value) t name = C.lookup S t name ∨
    C.lookup (S.setDict obj name value) t name = some value := by
  unfold Classes.lookup
  induction C.mro t with
  | nil => exact .inl rfl
  | cons u mro ih =>
    rw [List.findSome?_cons, List.findSome?_cons]
    by_cases he : u = obj
    · have hvalue : (S.setDict obj name value).dict u name = some value := by simp [Store.setDict, he]
      rw [hvalue]
      exact .inr rfl
    · have hsame : (S.setDict obj name value).dict u name = S.dict u name := by simp [Store.setDict, he]
      rw [hsame]
      cases S.dict u name with
      | none => exact ih
      | some v => exact .inl rfl

/-- A value stored in a class is what is read of it. -/
theorem typeGetattribute_setDict (htype : C.isType obj = true) (hmeta : C.typeOf obj = C.type)
    (hlookup : ∀ d, C.lookup S C.type name = some d → C.hasGet (C.typeOf d) = false ∨ C.hasSet (C.typeOf d) = false)
    (hget : C.hasGet (C.typeOf value) = false) : C.typeGetattribute (S.setDict obj name value) obj name = .value value := by
  have hown : C.lookup (S.setDict obj name value) obj name = some value := by
    obtain ⟨rest, hmro⟩ : ∃ rest, C.mro obj = obj :: rest := by
      have hhead := C.mro_head obj htype
      cases hm : C.mro obj with
      | nil => rw [hm] at hhead; cases hhead
      | cons t rest =>
        rw [hm] at hhead
        cases hhead
        exact ⟨rest, rfl⟩
    simp [Classes.lookup, hmro, Store.setDict]
  have hfilter : (C.lookup (S.setDict obj name value) C.type name).filter
      (fun a => C.hasGet (C.typeOf a) && C.hasSet (C.typeOf a)) = none := by
    refine filter_eq_none fun d hd => Bool.and_eq_false_iff.mpr ?_
    have hstored : C.lookup (S.setDict obj name value) C.type name = C.lookup S C.type name ∨
        C.lookup (S.setDict obj name value) C.type name = some value := lookup_setDict C.type
    rcases hstored with hsame | hvalue
    · exact hlookup d (hsame.symm.trans hd)
    · cases hvalue.symm.trans hd
      exact .inl hget
  unfold typeGetattribute
  rw [hmeta, hown]
  simp only [hfilter, hget]
  rfl

theorem setattrIc_instance (hS : S.Sound) (hv : cache.kind = .write → WriteValid name cache) (htype : C.isType obj = false)
    (hset : C.setSlot (C.typeOf obj) = .object) (hmeta : C.typeOf obj ≠ C.type)
    (hlookup : ∀ d, C.lookup S (C.typeOf obj) name = some d → C.hasGet (C.typeOf d) = false ∧ C.hasSet (C.typeOf d) = false)
    (hname : name ≠ "__dict__") :
    (C.rtSetattrIc S cache obj name value).1 = some (S.storeAttribute obj name value C.toClasses, .ok) := by
  have huses : C.usesDefaultSetattribute obj = true := by simp [usesDefaultSetattribute, hset, hmeta]
  have hplain : C.setattribute S obj name value = some (S.storeAttribute obj name value C.toClasses, .ok) := by
    have hfilter : (C.lookup S (C.typeOf obj) name).filter
        (fun d => C.descriptorIsData (C.typeOf d) && C.hasSet (C.typeOf d)) = none :=
      filter_eq_none fun d hd => by rw [(hlookup d hd).2, Bool.and_false]
    simp [setattribute, hset, Store.setattribute, htype, hfilter, hname]
  by_cases hdict : (S.instanceDict obj).isSome = true
  · unfold rtSetattrIc
    rw [if_pos (by simp [hdict])]
    exact hplain
  · have hnone : S.instanceDict obj = none := Option.not_isSome_iff_eq_none.mp hdict
    by_cases hdirect : (cache.kind = .write && C.writeHits S cache obj) = true ∨
        (C.lookup S (C.typeOf obj) name).filter (fun d => C.descriptorIsData (C.typeOf d)) = none
    · exact setattrIc_store value hS hv huses hnone htype hdirect
    · rw [not_or] at hdirect
      obtain ⟨d, hd⟩ := Option.ne_none_iff_exists'.mp hdirect.2
      unfold rtSetattrIc
      rw [if_neg (by simp [huses, hnone]), if_neg (by simp [htype]), if_neg hdirect.1]
      simp only [hd]
      exact hplain

/-- **A store through the cache is read back** by an uncached read. -/
theorem setattrIc_reads (created : ο) (hS : S.Sound) (hv : cache.kind = .write → WriteValid name cache)
    (hname : name ≠ "__dict__") (hkeeps : C.Keeps S obj name value) :
    ∃ S', (C.rtSetattrIc S cache obj name value).1 = some (S', .ok) ∧
      (C.getattribute S' created obj name).1 = .value value := by
  cases hkeeps with
  | instance_ htype hget hset hmeta hlookup =>
    have hgetattr (S' : Store ο) : C.getattribute S' created obj name = C.defaultGetattribute S' created obj name := by
      simp [getattribute, hget]
    refine ⟨S.storeAttribute obj name value C.toClasses, setattrIc_instance hS hv htype hset hmeta hlookup hname, ?_⟩
    rw [hgetattr]
    refine default_of_instance (fun d hd => ?_) hname (storeAttribute_reads hS)
    rw [lookup_eq_of_dict storeAttribute_dict] at hd
    exact (hlookup d hd).1
  | «class» htype hmeta hget hset hlookup hvalue =>
    refine ⟨S.setDict obj name value, ?_, ?_⟩
    · unfold rtSetattrIc
      rw [if_pos (by simp [usesDefaultSetattribute, hmeta])]
      simp [setattribute, hmeta, hset, Store.setattribute, htype]
    · have hread : C.getattribute (S.setDict obj name value) created obj name =
          (C.typeGetattribute (S.setDict obj name value) obj name, S.setDict obj name value) := by
        simp [getattribute, hmeta, hget]
      rw [hread]
      exact typeGetattribute_setDict htype hmeta hlookup hvalue

end Valid

/-! ### Programs -/

/-- The attributes and the caches of a program, those of the reads and those of
the stores; a site has one name. -/
structure Sites (ο ι : Type) where
  store : Store ο
  reads : ι → AttrCache ο
  writes : ι → AttrCache ο

section Sites

variable {C} {ι : Type} [DecidableEq ι] {siteName : ι → String} {P : Sites ο ι}

def Sites.read (P : Sites ο ι) (C : AttrTypes ο) (siteName : ι → String) (i : ι) (created obj : ο) : Sites ο ι :=
  let out := C.rtGetattrIc P.store (P.reads i) created obj (siteName i)
  { P with store := out.2.1, reads := Function.update P.reads i out.2.2 }

def Sites.write (P : Sites ο ι) (C : AttrTypes ο) (siteName : ι → String) (i : ι) (obj value : ο) : Sites ο ι :=
  let out := C.rtSetattrIc P.store (P.writes i) obj (siteName i) value
  { P with store := (out.1.map (·.1)).getD P.store, writes := Function.update P.writes i out.2 }

/-- The runs of a program: reads and stores through the caches, between them
any changes of the attributes. -/
inductive Reachable (C : AttrTypes ο) (siteName : ι → String) : Sites ο ι → Prop
  | start {P : Sites ο ι} : P.store.Sound → (∀ i, (P.reads i).kind = .empty ∧ (P.writes i).kind = .empty) →
      Reachable C siteName P
  | change {P : Sites ο ι} {S' : Store ο} : Reachable C siteName P → Change P.store S' →
      Reachable C siteName { P with store := S' }
  | read {P : Sites ο ι} (i : ι) (created obj : ο) : Reachable C siteName P →
      Reachable C siteName (P.read C siteName i created obj)
  | write {P : Sites ο ι} (i : ι) (obj value : ο) : Reachable C siteName P →
      Reachable C siteName (P.write C siteName i obj value)

/-- What holds of a program at any time. -/
structure SitesValid (C : AttrTypes ο) (siteName : ι → String) (P : Sites ο ι) : Prop where
  sound : P.store.Sound
  reads : ∀ i, (P.reads i).kind = .read → C.ReadValid P.store (siteName i) (P.reads i)
  writes : ∀ i, (P.writes i).kind = .write → WriteValid (siteName i) (P.writes i)

omit [DecidableEq ι] in
theorem SitesValid.change {S' : Store ο} (h : SitesValid C siteName P) (hc : Change P.store S') :
    SitesValid C siteName { P with store := S' } :=
  ⟨hc.sound h.sound, fun i hkind => (h.reads i hkind).change hc, h.writes⟩

theorem getattrIc_change {S : Store ο} {cache : AttrCache ο} {created obj : ο} {name : String} :
    Change S (C.rtGetattrIc S cache created obj name).2.1 := by
  have hdefault : Change S (C.getattribute S created obj name).2 := by
    unfold getattribute
    split
    · unfold defaultGetattribute
      split
      · exact .instances rfl rfl id
      · split
        · split
          · exact .instances rfl rfl id
          · next h => exact .of_materialize h
        · exact .instances rfl rfl id
    · exact .instances rfl rfl id
    · exact .instances rfl rfl id
  unfold rtGetattrIc
  split
  · exact .instances rfl rfl id
  · dsimp only
    split
    · exact hdefault
    · unfold resolveDefaultGetattr
      split
      · exact .instances rfl rfl id
      · split
        · exact .instances rfl rfl id
        · split
          · exact .instances rfl rfl id
          · exact hdefault

theorem SitesValid.read (h : SitesValid C siteName P) (i : ι) (created obj : ο) :
    SitesValid C siteName (P.read C siteName i created obj) := by
  have hc : Change P.store (P.read C siteName i created obj).store := getattrIc_change
  refine ⟨hc.sound h.sound, fun j => ?_, h.writes⟩
  by_cases hj : j = i
  · subst hj
    have hupdate : (P.read C siteName j created obj).reads j =
        (C.rtGetattrIc P.store (P.reads j) created obj (siteName j)).2.2 := Function.update_self _ _ _
    rw [hupdate]
    exact fun hkind => (getattrIc_valid (h.reads j) hkind).change hc
  · have hupdate : (P.read C siteName i created obj).reads j = P.reads j := Function.update_of_ne hj _ _
    rw [hupdate]
    exact fun hkind => (h.reads j hkind).change hc

theorem SitesValid.write (h : SitesValid C siteName P) (i : ι) (obj value : ο) :
    SitesValid C siteName (P.write C siteName i obj value) := by
  have hc : Change P.store (P.write C siteName i obj value).store := by
    unfold Sites.write
    dsimp only
    cases hout : (C.rtSetattrIc P.store (P.writes i) obj (siteName i) value).1 with
    | none => exact .instances rfl rfl id
    | some out => exact setattrIc_change h.sound (h.writes i) hout
  refine ⟨hc.sound h.sound, fun j hkind => (h.reads j hkind).change hc, fun j => ?_⟩
  by_cases hj : j = i
  · subst hj
    have hupdate : (P.write C siteName j obj value).writes j =
        (C.rtSetattrIc P.store (P.writes j) obj (siteName j) value).2 := Function.update_self _ _ _
    rw [hupdate]
    exact setattrIc_valid (h.writes j)
  · have hupdate : (P.write C siteName i obj value).writes j = P.writes j := Function.update_of_ne hj _ _
    rw [hupdate]
    exact h.writes j

theorem Reachable.valid (h : Reachable C siteName P) : SitesValid C siteName P := by
  induction h with
  | start hsound hempty =>
    refine ⟨hsound, fun i hkind => ?_, fun i hkind => ?_⟩
    · rw [(hempty i).1] at hkind
      cases hkind
    · rw [(hempty i).2] at hkind
      cases hkind
  | change _ hc ih => exact ih.change hc
  | read i created obj _ ih => exact ih.read i created obj
  | write i obj value _ ih => exact ih.write i obj value

/-- **The attribute caches** in every state of a program: a cached read of an
object with the `__getattribute__` of `object` is the uncached read, and what a
store puts into an object that keeps it is read back, uncached or cached. -/
theorem attrCaches_faithful (h : Reachable C siteName P) :
    (∀ i created obj, siteName i ≠ "__dict__" →
      C.getSlot (C.typeOf obj) = .object ∨ C.usesDefaultGetattribute obj = false →
      (C.rtGetattrIc P.store (P.reads i) created obj (siteName i)).1 =
        (C.getattribute P.store created obj (siteName i)).1) ∧
    (∀ i obj value, siteName i ≠ "__dict__" → C.Keeps P.store obj (siteName i) value →
      (∃ S', (C.rtSetattrIc P.store (P.writes i) obj (siteName i) value).1 = some (S', .ok)) ∧
      ∀ created, (C.getattribute (P.write C siteName i obj value).store created obj (siteName i)).1 = .value value ∧
        ∀ j, siteName j = siteName i →
          (C.rtGetattrIc (P.write C siteName i obj value).store ((P.write C siteName i obj value).reads j) created obj
            (siteName j)).1 = .value value) := by
  have hv := h.valid
  refine ⟨fun i created obj hname hobj => (getattrIc_eq (hv.reads i) hname hobj).1, ?_⟩
  intro i obj value hname hkeeps
  have hobj : C.getSlot (C.typeOf obj) = .object ∨ C.usesDefaultGetattribute obj = false := by
    cases hkeeps with
    | instance_ _ hget => exact Or.inl hget
    | «class» _ hmeta => exact Or.inr (by simp [usesDefaultGetattribute, hmeta])
  have hread (created : ο) :
      (C.getattribute (P.write C siteName i obj value).store created obj (siteName i)).1 = .value value := by
    obtain ⟨S', hS', hvalue⟩ := setattrIc_reads created hv.sound (hv.writes i) hname hkeeps
    have hstore : (P.write C siteName i obj value).store = S' := by simp [Sites.write, hS']
    rw [hstore]
    exact hvalue
  obtain ⟨S', hS', -⟩ := setattrIc_reads obj hv.sound (hv.writes i) hname hkeeps
  refine ⟨⟨S', hS'⟩, fun created => ⟨hread created, fun j hj => ?_⟩⟩
  have hvalid := (hv.write i obj value).reads j
  rw [hj] at hvalid ⊢
  rw [(getattrIc_eq hvalid hname hobj).1]
  exact hread created

end Sites

end AttrTypes

/-! ### A property -/

/-- `class C` with a property `p` and a value of `x`: objects 0 to 19 are types, 1 is `type`, 10 is
`C`, 20 an object of it, 30 the property, of type 5, and 31 the value. -/
def propertyTypes : AttrTypes Nat where
  typeOf := fun o => if o < 20 then 1 else if o = 20 then 10 else if o = 30 then 5 else 7
  mro := fun t => [t, 0]
  isType := fun o => o < 20
  isDict := fun _ => false
  allowsInstanceDict := fun _ => true
  hasGet := fun t => t = 5
  hasSet := fun t => t = 5
  staticMethod := 8
  slotWrapper := 9
  type := 1
  getSlot := fun t => if t = 1 then .type else .object
  setSlot := fun _ => .object
  mro_head := fun _ _ => rfl

def propertyStore : Store Nat where
  version := 0
  dict := fun t name => if t = 10 ∧ name = "p" then some 30 else if t = 10 ∧ name = "x" then some 31 else none
  shape := fun _ => none
  slots := fun _ => []
  instanceDict := fun _ => none
  items := fun _ _ => none

def noCache : AttrCache Nat := ⟨.empty, 0, 0, none, none, 0⟩

/-- One site for `p`, one for `x`. -/
def propertySites : AttrTypes.Sites Nat Bool := ⟨propertyStore, fun _ => noCache, fun _ => noCache⟩

def propertyNames (i : Bool) : String := if i then "p" else "x"

theorem propertySites_reachable : AttrTypes.Reachable propertyTypes propertyNames propertySites :=
  .start (fun _ => rfl) fun _ => ⟨rfl, rfl⟩

/-- The attribute `x` of the object keeps 40. -/
theorem attrCaches_faithful_x :
    (propertyTypes.getattribute (propertySites.write propertyTypes propertyNames false 20 40).store 50 20 "x").1 =
      .value 40 :=
  (((AttrTypes.attrCaches_faithful propertySites_reachable).2 false 20 40 (by decide)
    (.instance_ (by decide) (by decide) (by decide) (by decide) (by decide))).2 50).1

/-- A store to `p` calls the setter of the property, and a read its getter. -/
theorem property_notReadBack :
    AttrTypes.Reachable propertyTypes propertyNames propertySites ∧
    (propertyTypes.rtSetattrIc propertyStore noCache 20 "p" 40).1.map (·.2) = some (.callSet 30) ∧
    (propertyTypes.rtGetattrIc (propertySites.write propertyTypes propertyNames true 20 40).store noCache 50 20 "p").1 =
      .get 30 (some 20) 10 ∧
    (propertyTypes.getattribute (propertySites.write propertyTypes propertyNames true 20 40).store 50 20 "p").1 ≠
      .value 40 := by
  refine ⟨propertySites_reachable, ?_, ?_, ?_⟩
  · decide
  · decide
  · decide

end Pylang.Runtime
