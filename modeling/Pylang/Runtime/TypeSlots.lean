/-
The slots of the types: `add_operators`, `inherit_slots` and `update_slot`, which
fill them when a class is created, and the store into the dictionary of a class,
which leaves them as they are.
-/
import Pylang.Lib.ListFacts
import Pylang.Runtime.Mro
import Mathlib.Logic.Function.Basic

namespace Pylang.Runtime

/-- Where a slot is kept. -/
inductive Table
  | type
  | mapping
  | sequence
  deriving DecidableEq

/-- A member of `TypePrototype`, `MappingTypePrototype` or `SequenceTypePrototype`. -/
structure Member where
  table : Table
  field : String
  deriving DecidableEq

/-- A `Slot`: the name of the special method and the member for it. -/
structure Slotdef where
  name : String
  member : Member
  deriving DecidableEq

def Slotdef.ofType (name : String) : Slotdef := ⟨name, .type, name⟩

def Slotdef.ofMapping (name : String) : Slotdef := ⟨name, .mapping, name⟩

def Slotdef.ofSequence (name : String) : Slotdef := ⟨name, .sequence, name⟩

/-- `get_slotdefs`. -/
def slotdefs : List Slotdef :=
  [.ofType "__getattribute__", ⟨"__getattr__", .type, "__getattribute__"⟩,
    ⟨"__setattr__", .type, "__setattribute__"⟩] ++
  ["__repr__", "__hash__", "__call__", "__str__", "__lt__", "__le__", "__eq__", "__ne__", "__gt__", "__ge__",
    "__iter__", "__next__", "__get__", "__set__", "__init__", "__new__", "__add__", "__sub__", "__mul__", "__mod__",
    "__pow__", "__neg__", "__pos__", "__abs__", "__bool__", "__invert__", "__lshift__", "__rshift__", "__and__",
    "__xor__", "__or__", "__floordiv__", "__truediv__"].map .ofType ++
  ["__len__", "__getitem__", "__setitem__", "__delitem__"].map .ofMapping ++
  ["__len__", "__getitem__", "__setitem__", "__delitem__", "__contains__"].map .ofSequence

/-- The members `inherit_slots` copies. -/
def inheritable : List Member :=
  ["__add__", "__sub__", "__mul__", "__mod__", "__neg__", "__pos__", "__abs__", "__bool__", "__invert__",
    "__lshift__", "__and__", "__or__"].map (⟨.type, ·⟩) ++
  ["__len__", "__concat__", "__getitem__", "__setitem__", "__delitem__", "__contains__"].map (⟨.sequence, ·⟩) ++
  ["__len__", "__getitem__", "__setitem__", "__delitem__"].map (⟨.mapping, ·⟩) ++
  ["__getattribute__", "__setattribute__", "__repr__", "__call__", "__str__", "__eq__", "__gt__", "__ge__", "__le__",
    "__lt__", "__ne__", "__hash__", "__iter__", "__next__", "__get__", "__set__", "__init__"].map (⟨.type, ·⟩)

def newMember : Member := ⟨.type, "__new__"⟩

def hashMember : Member := ⟨.type, "__hash__"⟩

/-- What the dictionary of a type maps a name to. -/
inductive Value (τ ο : Type)
  | function (o : ο)
  | staticMethod (o : ο)
  /-- A `PySlotWrapper`, with its `base_type` and its `base`. It calls the slot of that type. -/
  | wrapper (type : τ) (slot : Slotdef)
  /-- The `new_wrapper` of a type. -/
  | newWrapper (type : τ)
  | none
  | other (o : ο)
  deriving DecidableEq

/-- The content of a slot. -/
inductive Fn (τ ο φ : Type)
  | native (f : φ)
  | object (v : Value τ ο)
  /-- The `PyNativeFunction` that calls a slot wrapper. -/
  | forward (type : τ) (slot : Slotdef)
  /-- A pointer to an object that is taken for one to a function. -/
  | invalid
  deriving DecidableEq

/-- The slots and the dictionary of one type. -/
structure Draft (τ ο φ : Type) where
  slot : Member → Option (Fn τ ο φ)
  dict : String → Option (Value τ ο)

variable {τ ο φ : Type}

namespace Draft

variable (d : Draft τ ο φ)

/-- `set_member` and `update_member`. -/
def setSlot (m : Member) (f : Option (Fn τ ο φ)) : Draft τ ο φ := { d with slot := Function.update d.slot m f }

def setDict (name : String) (v : Value τ ο) : Draft τ ο φ :=
  { d with dict := Function.update d.dict name (some v) }

/-- One turn of the loop of `add_operators`. -/
def addOperator (type : τ) (s : Slotdef) : Draft τ ο φ :=
  if s.name = "__new__" then d
  else
    match d.dict s.name with
    | some v => d.setSlot s.member (some (.object v))
    | none => if (d.slot s.member).isSome then d.setDict s.name (.wrapper type s) else d

/-- `PyType::add_operators`. -/
def addOperators (type : τ) : Draft τ ο φ :=
  let d := slotdefs.foldl (·.addOperator type ·) d
  if (d.slot newMember).isSome ∧ d.dict "__new__" = none then d.setDict "__new__" (.newWrapper type) else d

/-- `add_methods`, `add_members` and `add_properties`: no entry is replaced. -/
def addDescriptors (descriptors : String → Option (Value τ ο)) : Draft τ ο φ :=
  { d with dict := fun name => (d.dict name).or (descriptors name) }

/-- What `ready` does about the hash. -/
def addHash : Draft τ ο φ :=
  if (d.slot hashMember).isSome then d
  else
    match d.dict "__hash__" with
    | some v => d.setSlot hashMember (some (.object v))
    | none => d.setDict "__hash__" .none

/-- How many of the slots for a name are set, as `resolve_slotdups` counts them. -/
def duplicates (name : String) : Bool :=
  decide (1 < (slotdefs.filter fun s => s.name = name ∧ (d.slot s.member).isSome).length)

end Draft

/-- The types there are. What `mro_` puts in the MROs is in `Hierarchy`; the
slots have no other use for the metaclass, `type()` of a class is `type`. -/
structure World (τ ο φ : Type) where
  hierarchy : Hierarchy τ
  slot : τ → Member → Option (Fn τ ο φ)
  dict : τ → String → Option (Value τ ο)

namespace World

variable [DecidableEq τ] (W : World τ ο φ)

def types : List τ := W.hierarchy.map (·.1)

/-- `PyType::lookup`. -/
def lookup (type : τ) (name : String) : Option (Value τ ο) := (W.hierarchy.mroOf type).findSome? (W.dict · name)

/-- The slot that is called for a special method: for `__len__` and the items the
one of the mapping, then the one of the sequence. -/
def dispatch (type : τ) (name : String) : Option (Fn τ ο φ) :=
  (slotdefs.filter (·.name = name)).findSome? fun s => W.slot type s.member

/-- `inherit_slots`: what the type has not, the base may have. -/
def inheritSlots (base : τ) (d : Draft τ ο φ) : Draft τ ο φ :=
  { d with slot := fun m => if m ∈ inheritable then (d.slot m).or (W.slot base m) else d.slot m }

/-- `inherit_special`. -/
def inheritSpecial (base : τ) (d : Draft τ ο φ) : Draft τ ο φ :=
  d.setSlot newMember ((d.slot newMember).or (W.slot base newMember))

/-- `PyType::ready`, for a class; `rest` is the MRO after the class. -/
def ready (type base : τ) (rest : List τ) (descriptors : String → Option (Value τ ο)) (d : Draft τ ο φ) :
    Draft τ ο φ :=
  (rest.foldl (fun d b => W.inheritSlots b d)
    (W.inheritSpecial base ((d.addOperators type).addDescriptors descriptors))).addHash

/-- The member of a type, which may be the one that is being created. -/
def memberOf (type : τ) (d : Draft τ ο φ) (t : τ) (m : Member) : Option (Fn τ ο φ) :=
  if t = type then d.slot m else W.slot t m

/-- `update_slot`. A failed assertion and a `TODO()` are `none`. -/
def updateSlot (type : τ) (rest : List τ) (d : Draft τ ο φ) (s : Slotdef) : Option (Draft τ ο φ) :=
  if (d.slot s.member).isNone then some d
  else
    match (d.dict s.name).or (rest.findSome? (W.dict · s.name)) with
    | none => some (d.setSlot s.member none)
    | some (.wrapper base slot) =>
      if d.duplicates s.name then some (d.setSlot s.member (some (.forward base slot)))
      else
        match W.memberOf type d base s.member with
        | some f => some (d.setSlot s.member (some f))
        | none => (W.memberOf type d base slot.member).map fun f => d.setSlot s.member (some f)
    | some (.newWrapper _) =>
      if s.name = "__new__" then
        match d.slot s.member with
        | some (.native _) => some d
        | _ => some (d.setSlot s.member (some .invalid))
      else some d
    | some .none => if s.name = "__hash__" then none else some d
    | some _ => some d

/-- `PyType::fixup_slots`. -/
def fixupSlots (type : τ) (rest : List τ) (d : Draft τ ο φ) : Option (Draft τ ο φ) :=
  slotdefs.foldlM (W.updateSlot type rest) d

/-- What `PyType::initialize` makes of the namespace: a function `__new__` is a static method. -/
def initialized (namespace_ : String → Option (Value τ ο)) : Draft τ ο φ :=
  match namespace_ "__new__" with
  | some v =>
    let v := match v with
      | .function o => .staticMethod o
      | v => v
    { slot := Function.update (fun _ => none) newMember (some (.object v))
      dict := Function.update namespace_ "__new__" (some v) }
  | none => { slot := fun _ => none, dict := namespace_ }

/-- `build_type`: the new type, unless it aborts. -/
def buildType (type : τ) (bases : List τ) (namespace_ descriptors : String → Option (Value τ ο)) :
    Option (World τ ο φ) :=
  match mro_ type (bases.map W.hierarchy.mroOf), bases with
  | .order mro, base :: _ =>
    (W.fixupSlots type mro.tail (W.ready type base mro.tail descriptors (initialized namespace_))).map fun d =>
      { hierarchy := (type, mro) :: W.hierarchy
        slot := Function.update W.slot type d.slot
        dict := Function.update W.dict type d.dict }
  | _, _ => none

/-- `PyObject::__setattribute__` on a type. -/
def setattribute (type : τ) (name : String) (v : Value τ ο) : World τ ο φ :=
  { W with dict := Function.update W.dict type (Function.update (W.dict type) name (some v)) }

/-- The values the program can have: their types are there. -/
def Known : Value τ ο → Prop
  | .wrapper type _ => type ∈ W.types
  | .newWrapper type => type ∈ W.types
  | _ => True

/-- What a program does to its classes. -/
inductive Action (τ ο : Type)
  | create (type : τ) (bases : List τ) (namespace_ descriptors : String → Option (Value τ ο))
  | assign (type : τ) (name : String) (v : Value τ ο)

/-- A class is a new object, with bases that are types, each once. -/
def step : Action τ ο → Option (World τ ο φ)
  | .create type bases namespace_ descriptors =>
    if type ∉ W.types ∧ bases.Nodup ∧ ∀ b ∈ bases, b ∈ W.types then W.buildType type bases namespace_ descriptors
    else none
  | .assign type name v => if type ∈ W.types then some (W.setattribute type name v) else none

/-- The values of an action are there. -/
def Fits : Action τ ο → Prop
  | .create _ _ namespace_ descriptors =>
    (∀ name v, namespace_ name = some v → W.Known v) ∧ ∀ name v, descriptors name = some v → W.Known v
  | .assign _ _ v => W.Known v

/-! ### The dispatch through the slots and the lookup along the MRO -/

/-- The content of a slot calls exactly this value. -/
def Calls (f : Fn τ ο φ) : Value τ ο → Prop
  | .wrapper type s => f = .object (.wrapper type s) ∨ f = .forward type s ∨ W.slot type s.member = some f
  | .newWrapper type => f = .object (.newWrapper type) ∨ (∃ g, f = .native g) ∧ W.slot type newMember = some f
  | v => f = .object v

/-- Dispatch calls what `lookup` finds, and the method is missing where it finds nothing. -/
def Faithful (type : τ) (name : String) : Prop :=
  match W.lookup type name with
  | none => W.dispatch type name = none
  | some v => ∃ f, W.dispatch type name = some f ∧ W.Calls f v

/-- A slot wrapper is what the slots of its own type for the name call. -/
def OwnWrapper (name : String) (v : Value τ ο) : Prop :=
  ∀ type s, v = .wrapper type s → ∀ s' ∈ slotdefs, s'.name = name → ∀ f, W.slot type s'.member = some f → W.Calls f v

/-- What the class finds for a name: its own entry, or that of its MRO. -/
def found (rest : List τ) (namespace_ : String → Option (Value τ ο)) (name : String) : Option (Value τ ο) :=
  (namespace_ name).or (rest.findSome? (W.dict · name))

/-- The first class after the new one that finds something. -/
def firstFinder (rest : List τ) (name : String) : Option τ := rest.find? fun b => (W.lookup b name).isSome

/-- A special method with slots of its own: the class defines it, or its slots are
inherited and the first class that finds a method finds the one that the new
class finds. -/
structure SlotSound (rest : List τ) (namespace_ descriptors : String → Option (Value τ ο)) (name : String) : Prop where
  descriptors : namespace_ name = none → descriptors name = none
  hash : name = "__hash__" → W.found rest namespace_ name ≠ none
  wrapper : ∀ v, W.found rest namespace_ name = some v → W.OwnWrapper name v
  inherited : namespace_ name = none → ∀ v, W.found rest namespace_ name = some v →
    (∀ s ∈ slotdefs, s.name = name → s.member ∈ inheritable) ∧
      ((∃ type s, v = .wrapper type s) ∨ ∀ b, W.firstFinder rest name = some b → W.lookup b name = some v)

/-- `__new__`: the class defines it, or the first base finds what the class finds. -/
structure NewSound (base : τ) (rest : List τ) (namespace_ descriptors : String → Option (Value τ ο)) : Prop where
  descriptors : namespace_ "__new__" = none → descriptors "__new__" = none
  own : ∀ v, namespace_ "__new__" = some v → (∀ type s, v ≠ .wrapper type s) ∧ ∀ type, v ≠ .newWrapper type
  inherited : namespace_ "__new__" = none → W.lookup base "__new__" = W.found rest namespace_ "__new__" ∧
    ∀ v, W.found rest namespace_ "__new__" = some v → (∀ type s, v ≠ .wrapper type s) ∧
      ∀ type, v = .newWrapper type → ∃ g, W.slot base newMember = some (.native g)

/-- `__getattribute__` and `__getattr__` have one slot: the class does not define
the second, and defines the first or finds a slot wrapper of the second that
calls what it finds for the first. -/
structure AttributeSound (rest : List τ) (namespace_ descriptors : String → Option (Value τ ο)) : Prop where
  getattr : namespace_ "__getattr__" = none
  descriptors : descriptors "__getattribute__" = none ∧ descriptors "__getattr__" = none
  own : ∀ v, namespace_ "__getattribute__" = some v → W.OwnWrapper "__getattribute__" v
  inherited : namespace_ "__getattribute__" = none → ∃ type s, W.found rest namespace_ "__getattr__" = some (.wrapper type s) ∧
    s.member = ⟨.type, "__getattribute__"⟩ ∧ ∃ v, W.found rest namespace_ "__getattribute__" = some v ∧
      ∀ f, W.slot type s.member = some f → W.Calls f v

/-- The condition on the creation of a class, for one special method. -/
def CreationSound (base : τ) (rest : List τ) (namespace_ descriptors : String → Option (Value τ ο)) (name : String) :
    Prop :=
  if name = "__getattribute__" ∨ name = "__getattr__" then W.AttributeSound rest namespace_ descriptors
  else if name = "__new__" then W.NewSound base rest namespace_ descriptors
  else W.SlotSound rest namespace_ descriptors name

/-- The condition on a step, for one special method of the classes `K`: a class of
`K` is created from classes of `K` and soundly, and an assignment leaves what
the classes of `K` find as it is. -/
def Sound (K : τ → Prop) (name : String) : Action τ ο → Prop
  | .create type bases namespace_ descriptors => K type → ∀ base mro, bases.head? = some base →
      mro_ type (bases.map W.hierarchy.mroOf) = .order mro →
      (∀ b ∈ mro.tail, K b) ∧ W.CreationSound base mro.tail namespace_ descriptors name
  | .assign type name' v => ∀ t ∈ W.types, K t → (W.setattribute type name' v).lookup t name = W.lookup t name

/-- Each slot for a name is empty where `lookup` finds nothing, and calls what it
finds where it is set; one is, and all are unless a slot wrapper is found. -/
structure Agrees (type : τ) (name : String) : Prop where
  missing : W.lookup type name = none → ∀ s ∈ slotdefs, s.name = name → W.slot type s.member = none
  set : ∀ v, W.lookup type name = some v → ∃ s ∈ slotdefs, s.name = name ∧ (W.slot type s.member).isSome
  calls : ∀ v, W.lookup type name = some v → ∀ s ∈ slotdefs, s.name = name → ∀ f, W.slot type s.member = some f →
    W.Calls f v
  all : ∀ v, W.lookup type name = some v → (∀ t s, v ≠ .wrapper t s) → ∀ s ∈ slotdefs, s.name = name →
    (W.slot type s.member).isSome

/-- The MROs are those of the classes, and the dictionaries hold values that are there. -/
structure WellFormed (object : τ) : Prop where
  built : Built object W.hierarchy
  known : ∀ t name v, W.dict t name = some v → W.Known v

end World

/-! ### The table of the slots -/

/-- The names that have their slots to themselves and are filled by every pass. -/
def Regular (name : String) : Prop := name ≠ "__getattribute__" ∧ name ≠ "__getattr__" ∧ name ≠ "__new__"

instance (name : String) : Decidable (Regular name) := inferInstanceAs (Decidable (_ ∧ _ ∧ _))

theorem slotdefs_member : ∀ s ∈ slotdefs, Regular s.name → ∀ s' ∈ slotdefs, s'.member = s.member → s' = s := by
  decide +kernel

theorem slotdefs_nodup : slotdefs.Nodup := by decide +kernel

theorem slotdefs_new : ∀ s ∈ slotdefs, s.name = "__new__" ↔ s.member = newMember := by decide +kernel

theorem slotdefs_hash : ∀ s ∈ slotdefs, s.name = "__hash__" ↔ s.member = hashMember := by decide +kernel

section Draft

variable {d d' : Draft τ ο φ} {s s' : Slotdef} {m : Member} {name : String} {v : Value τ ο} {type : τ}

namespace Draft

@[simp] theorem setSlot_dict (f : Option (Fn τ ο φ)) : (d.setSlot m f).dict = d.dict := rfl

@[simp] theorem setSlot_slot (f : Option (Fn τ ο φ)) : (d.setSlot m f).slot m = f := by simp [setSlot]

theorem setSlot_slot_ne {m' : Member} (f : Option (Fn τ ο φ)) (h : m' ≠ m) : (d.setSlot m' f).slot m = d.slot m := by
  simp [setSlot, Function.update_of_ne h.symm]

@[simp] theorem setDict_slot : (d.setDict name v).slot = d.slot := rfl

theorem setDict_dict_ne {name' : String} (h : name' ≠ name) : (d.setDict name' v).dict name = d.dict name := by
  simp [setDict, Function.update_of_ne h.symm]

/-! ### `add_operators` -/

theorem addOperator_dict (h : d.dict name = some v) : (d.addOperator type s).dict name = some v := by
  unfold addOperator
  split
  · exact h
  · split
    · exact h
    · next hnone =>
      split
      · rw [setDict_dict_ne, h]
        intro h
        obtain rfl := h
        rw [h] at hnone
        cases hnone
      · exact h

theorem addOperator_slot_ne (h : s.member ≠ m) : (d.addOperator type s).slot m = d.slot m := by
  unfold addOperator
  split
  · rfl
  · split
    · exact setSlot_slot_ne _ h
    · split <;> rfl

theorem addOperators_slot_ne : ∀ (l : List Slotdef) (d : Draft τ ο φ), (∀ s ∈ l, s.member ≠ m) →
    (l.foldl (·.addOperator type ·) d).slot m = d.slot m
  | [], _, _ => rfl
  | s :: l, d, h => by
    rw [List.foldl_cons, addOperators_slot_ne l _ fun s' hs' => h s' (List.mem_cons_of_mem _ hs')]
    exact addOperator_slot_ne (h s List.mem_cons_self)

theorem addOperators_dict_ne : ∀ (l : List Slotdef) (d : Draft τ ο φ), (∀ s ∈ l, s.name ≠ name) →
    (l.foldl (·.addOperator type ·) d).dict name = d.dict name
  | [], _, _ => rfl
  | s :: l, d, h => by
    rw [List.foldl_cons, addOperators_dict_ne l _ fun s' hs' => h s' (List.mem_cons_of_mem _ hs')]
    unfold addOperator
    split
    · rfl
    · split
      · rfl
      · split
        · exact setDict_dict_ne (h s List.mem_cons_self)
        · rfl

theorem addOperators_dict : ∀ (l : List Slotdef) (d : Draft τ ο φ), d.dict name = some v →
    (l.foldl (·.addOperator type ·) d).dict name = some v
  | [], _, h => h
  | _ :: l, _, h => addOperators_dict l _ (addOperator_dict h)

theorem addOperators_slot : ∀ (l : List Slotdef) (d : Draft τ ο φ), d.dict s.name = some v → s.name ≠ "__new__" →
    s ∈ l → (∀ s' ∈ l, s'.member = s.member → s' = s) →
    (l.foldl (·.addOperator type ·) d).slot s.member = some (.object v)
  | s' :: l, _, h, hnew, hs, hunique => by
    rw [List.foldl_cons]
    by_cases hin : s ∈ l
    · exact addOperators_slot l _ (addOperator_dict h) hnew hin fun s'' hs'' => hunique s'' (List.mem_cons_of_mem _ hs'')
    · obtain rfl := (List.mem_cons.mp hs).resolve_right hin
      rw [addOperators_slot_ne]
      · simp [addOperator, hnew, h]
      · intro s'' hs'' hmember
        rw [hunique s'' (List.mem_cons_of_mem _ hs'') hmember] at hs''
        exact hin hs''

/-- Where a name has neither entry nor slots, nothing is added for it. -/
theorem addOperators_none (hunique : ∀ s ∈ slotdefs, s.name = name → ∀ s' ∈ slotdefs, s'.member = s.member → s' = s) :
    ∀ (l : List Slotdef) (d : Draft τ ο φ), (∀ s ∈ l, s ∈ slotdefs) → d.dict name = none →
    (∀ s ∈ slotdefs, s.name = name → d.slot s.member = none) →
    (l.foldl (·.addOperator type ·) d).dict name = none ∧
      ∀ s ∈ slotdefs, s.name = name → (l.foldl (·.addOperator type ·) d).slot s.member = none
  | [], _, _, h, hslot => ⟨h, hslot⟩
  | s' :: l, d, hl, h, hslot => by
    have hs' := hl s' List.mem_cons_self
    rw [List.foldl_cons]
    refine addOperators_none hunique l _ (fun s hs => hl s (List.mem_cons_of_mem _ hs)) ?_ fun s hs hname => ?_
    · unfold addOperator
      split
      · exact h
      · split
        · exact h
        · split
          · next hset =>
            rw [setDict_dict_ne, h]
            intro hname
            rw [hslot s' hs' hname] at hset
            cases hset
          · exact h
    · by_cases hmember : s'.member = s.member
      · obtain rfl := hunique s hs hname s' hs' hmember
        rw [show d.addOperator type s' = d by simp [addOperator, hname, h, hslot s' hs hname]]
        exact hslot s' hs hname
      · rw [addOperator_slot_ne hmember, hslot s hs hname]

theorem addHash_slot_ne (h : m ≠ hashMember) : d.addHash.slot m = d.slot m := by
  unfold addHash
  split
  · rfl
  · split
    · exact setSlot_slot_ne _ h.symm
    · rfl

theorem addHash_dict_ne (h : name ≠ "__hash__") : d.addHash.dict name = d.dict name := by
  unfold addHash
  split
  · rfl
  · split
    · rfl
    · exact setDict_dict_ne h.symm

theorem addHash_of_isSome (h : (d.slot hashMember).isSome) : d.addHash = d := by simp [addHash, h]

end Draft

namespace World

variable {W : World τ ο φ} {rest : List τ} {base : τ}

/-! ### The inheritance -/

theorem inherit_dict : ∀ (rest : List τ) (d : Draft τ ο φ),
    (rest.foldl (fun d b => W.inheritSlots b d) d).dict = d.dict
  | [], _ => rfl
  | b :: rest, d => inherit_dict rest (W.inheritSlots b d)

theorem inherit_slot : ∀ (rest : List τ) (d : Draft τ ο φ),
    (rest.foldl (fun d b => W.inheritSlots b d) d).slot m =
      (d.slot m).or (if m ∈ inheritable then rest.findSome? (W.slot · m) else none)
  | [], d => by simp
  | b :: rest, d => by
    rw [List.foldl_cons, inherit_slot rest]
    unfold inheritSlots
    by_cases hm : m ∈ inheritable
    · simp only [if_pos hm, List.findSome?_cons]
      cases d.slot m <;> cases W.slot b m <;> rfl
    · simp [if_neg hm]

/-! ### `update_slot` -/

variable [DecidableEq τ]

theorem updateSlot_dict (h : W.updateSlot type rest d s = some d') : d'.dict = d.dict := by
  unfold updateSlot at h
  repeat' split at h
  all_goals first
    | cases h; done
    | cases h; rfl
    | obtain ⟨f, -, rfl⟩ := Option.map_eq_some_iff.mp h; rfl

theorem updateSlot_slot_ne (h : W.updateSlot type rest d s = some d') (hm : s.member ≠ m) : d'.slot m = d.slot m := by
  unfold updateSlot at h
  repeat' split at h
  all_goals first
    | cases h; done
    | cases h; rfl
    | cases h; exact Draft.setSlot_slot_ne _ hm
    | obtain ⟨f, -, rfl⟩ := Option.map_eq_some_iff.mp h; exact Draft.setSlot_slot_ne _ hm

theorem fixup_dict : ∀ (l : List Slotdef) (d : Draft τ ο φ), l.foldlM (W.updateSlot type rest) d = some d' →
    d'.dict = d.dict
  | [], d, h => by cases h; rfl
  | s :: l, d, h => by
    rw [List.foldlM_cons] at h
    obtain ⟨d₁, h₁, h⟩ := Option.bind_eq_some_iff.mp h
    rw [fixup_dict l d₁ h, updateSlot_dict h₁]

theorem fixup_slot_ne : ∀ (l : List Slotdef) (d : Draft τ ο φ), l.foldlM (W.updateSlot type rest) d = some d' →
    (∀ s ∈ l, s.member ≠ m) → d'.slot m = d.slot m
  | [], d, h, _ => by cases h; rfl
  | s :: l, d, h, hm => by
    rw [List.foldlM_cons] at h
    obtain ⟨d₁, h₁, h⟩ := Option.bind_eq_some_iff.mp h
    rw [fixup_slot_ne l d₁ h fun s' hs' => hm s' (List.mem_cons_of_mem _ hs'),
      updateSlot_slot_ne h₁ (hm s List.mem_cons_self)]

theorem fixup_slot : ∀ (l : List Slotdef) (d : Draft τ ο φ), l.Nodup → l.foldlM (W.updateSlot type rest) d = some d' →
    s ∈ l → (∀ s' ∈ l, s'.member = s.member → s' = s) →
    ∃ d₁ d₂, d₁.dict = d.dict ∧ d₁.slot s.member = d.slot s.member ∧
      W.updateSlot type rest d₁ s = some d₂ ∧ d'.slot s.member = d₂.slot s.member
  | s' :: l, d, hnodup, h, hs, hunique => by
    rw [List.foldlM_cons] at h
    obtain ⟨d₁, h₁, hrest⟩ := Option.bind_eq_some_iff.mp h
    obtain ⟨hnotin, hnodup⟩ := List.nodup_cons.mp hnodup
    by_cases heq : s = s'
    · obtain rfl := heq
      refine ⟨d, d₁, rfl, rfl, h₁, fixup_slot_ne l d₁ hrest fun s'' hs'' hmember => ?_⟩
      rw [hunique s'' (List.mem_cons_of_mem _ hs'') hmember] at hs''
      exact hnotin hs''
    · have hin := (List.mem_cons.mp hs).resolve_left heq
      obtain ⟨d₂, d₃, hdict, hslot, hupdate, hfinal⟩ := fixup_slot l d₁ hnodup hrest hin
        fun s'' hs'' => hunique s'' (List.mem_cons_of_mem _ hs'')
      refine ⟨d₂, d₃, hdict.trans (updateSlot_dict h₁), hslot.trans (updateSlot_slot_ne h₁ fun hmember => ?_), hupdate,
        hfinal⟩
      exact heq (hunique s' List.mem_cons_self hmember).symm

/-- What an update of a slot does, for a special method other than `__new__`. -/
theorem updateSlot_cases (h : W.updateSlot type rest d s = some d') (hname : s.name ≠ "__new__") :
    (d.slot s.member = none ∧ d' = d) ∨
    ((d.dict s.name).or (rest.findSome? (W.dict · s.name)) = none ∧ d'.slot s.member = none) ∨
    (∃ base slot f, (d.dict s.name).or (rest.findSome? (W.dict · s.name)) = some (.wrapper base slot) ∧
      (d.slot s.member).isSome ∧ d'.slot s.member = some f ∧
      (f = .forward base slot ∧ d.duplicates s.name ∨ W.memberOf type d base s.member = some f ∨
        W.memberOf type d base slot.member = some f)) ∨
    (∃ v, (d.dict s.name).or (rest.findSome? (W.dict · s.name)) = some v ∧ (∀ t slot, v ≠ .wrapper t slot) ∧ d' = d) := by
  unfold updateSlot at h
  split at h
  · next hnone =>
    cases h
    exact Or.inl ⟨Option.isNone_iff_eq_none.mp hnone, rfl⟩
  · next hset =>
    refine Or.inr ?_
    have hset : (d.slot s.member).isSome := by simpa [Option.isSome_iff_ne_none] using hset
    split at h
    · next hfound =>
      cases h
      exact Or.inl ⟨hfound, by simp⟩
    · next base slot hfound =>
      refine Or.inr (Or.inl ⟨base, slot, ?_⟩)
      split at h
      · next hdup =>
        cases h
        exact ⟨_, hfound, hset, by simp, Or.inl ⟨rfl, hdup⟩⟩
      · split at h
        · next f hmember =>
          cases h
          exact ⟨f, hfound, hset, by simp, Or.inr (Or.inl hmember)⟩
        · obtain ⟨f, hmember, rfl⟩ := Option.map_eq_some_iff.mp h
          exact ⟨f, hfound, hset, by simp, Or.inr (Or.inr hmember)⟩
    · next t hfound =>
      cases h
      exact Or.inr (Or.inr ⟨_, hfound, by simp, rfl⟩)
    · next hfound =>
      split at h
      · cases h
      · cases h
        exact Or.inr (Or.inr ⟨_, hfound, by simp, rfl⟩)
    · next v hwrapper _ _ hfound =>
      cases h
      exact Or.inr (Or.inr ⟨v, hfound, fun t slot he => hwrapper t slot he, rfl⟩)

end World

end Draft

/-! ### A new class -/

namespace World

variable [DecidableEq τ] {W : World τ ο φ} {rest : List τ} {base type : τ} {d : Draft τ ο φ} {s : Slotdef} {name : String}
  {v : Value τ ο} {f : Fn τ ο φ} {namespace_ descriptors : String → Option (Value τ ο)}

/-- The world with a new class. -/
def extend (W : World τ ο φ) (type : τ) (rest : List τ) (d : Draft τ ο φ) : World τ ο φ where
  hierarchy := (type, type :: rest) :: W.hierarchy
  slot := Function.update W.slot type d.slot
  dict := Function.update W.dict type d.dict

@[simp] theorem extend_slot : (W.extend type rest d).slot type = d.slot := by simp [extend]

theorem extend_slot_ne {t : τ} (h : t ≠ type) : (W.extend type rest d).slot t = W.slot t := by
  simp [extend, Function.update_of_ne h]

theorem lookup_new (h : type ∉ rest) :
    (W.extend type rest d).lookup type name = (d.dict name).or (rest.findSome? (W.dict · name)) := by
  have hrest : rest.findSome? (Function.update W.dict type d.dict · name) = rest.findSome? (W.dict · name) := by
    refine Lib.findSome?_congr fun b hb => ?_
    rw [Function.update_of_ne]
    intro h
    obtain rfl := h
    exact h hb
  simp only [lookup, extend, Hierarchy.mroOf, List.find?_cons, decide_true, Option.map_some, Option.getD_some,
    List.findSome?_cons, Function.update_self, hrest]
  cases d.dict name <;> rfl

theorem lookup_old {t : τ} (ht : t ≠ type) (hmro : type ∉ W.hierarchy.mroOf t) :
    (W.extend type rest d).lookup t name = W.lookup t name := by
  have hold : (W.extend type rest d).hierarchy.mroOf t = W.hierarchy.mroOf t := by
    simp [extend, Hierarchy.mroOf, ht.symm]
  rw [lookup, hold]
  refine Lib.findSome?_congr fun b hb => ?_
  simp only [extend]
  rw [Function.update_of_ne]
  intro h
  obtain rfl := h
  exact hmro hb

theorem Calls.extend (hnew : type ∉ W.types) (hv : W.Known v) (h : W.Calls f v) : (W.extend type rest d).Calls f v := by
  cases v with
  | wrapper t s =>
    have hne : t ≠ type := fun he => hnew (he ▸ hv)
    simp only [Calls, extend_slot_ne hne]
    exact h
  | newWrapper t =>
    have hne : t ≠ type := fun he => hnew (he ▸ hv)
    simp only [Calls, extend_slot_ne hne]
    exact h
  | function | staticMethod | none | other => exact h

theorem buildType_eq {W' : World τ ο φ} {bases : List τ} (h : W.buildType type bases namespace_ descriptors = some W') :
    ∃ base bases' rest d, bases = base :: bases' ∧ mro_ type (bases.map W.hierarchy.mroOf) = .order (type :: rest) ∧
      W.fixupSlots type rest (W.ready type base rest descriptors (initialized namespace_)) = some d ∧
      W' = W.extend type rest d := by
  unfold buildType at h
  split at h
  · next mro base bases' hmro =>
    obtain ⟨rest, rfl⟩ := mro_head hmro
    obtain ⟨d, hd, rfl⟩ := Option.map_eq_some_iff.mp h
    exact ⟨base, bases', rest, d, rfl, hmro, hd, rfl⟩
  · cases h

theorem memberOf_old {t : τ} {m : Member} (h : t ≠ type) : W.memberOf type d t m = W.slot t m := if_neg h

/-- What the classes behind a new one have to offer. -/
structure Behind (W : World τ ο φ) (type : τ) (rest : List τ) (name : String) : Prop where
  fresh : type ∉ W.types
  types : ∀ b ∈ rest, b ∈ W.types
  head : ∀ b ∈ rest, ∀ v, W.dict b name = some v → ∃ v', W.lookup b name = some v'
  known : ∀ b ∈ rest, ∀ name v, W.dict b name = some v → W.Known v
  agrees : ∀ b ∈ rest, W.Agrees b name

namespace Behind

theorem notMem (h : W.Behind type rest name) : type ∉ rest := fun hin => h.fresh (h.types _ hin)

theorem slot_isSome (h : W.Behind type rest name) (hv : rest.findSome? (W.dict · name) = some v) :
    ∃ s ∈ slotdefs, s.name = name ∧ (rest.findSome? (W.slot · s.member)).isSome := by
  obtain ⟨b, hb, hdict⟩ := List.exists_of_findSome?_eq_some hv
  obtain ⟨v', hv'⟩ := h.head b hb v hdict
  obtain ⟨s, hs, hname, hset⟩ := (h.agrees b hb).set v' hv'
  refine ⟨s, hs, hname, ?_⟩
  rw [List.findSome?_isSome_iff]
  exact ⟨b, hb, hset⟩

theorem found_known {name' : String} (h : W.Behind type rest name) (hns : ∀ v, namespace_ name' = some v → W.Known v)
    (hv : W.found rest namespace_ name' = some v) : W.Known v := by
  unfold found at hv
  cases hown : namespace_ name' with
  | some v' =>
    rw [hown] at hv
    cases hv
    exact hns v hown
  | none =>
    rw [hown] at hv
    obtain ⟨b, hb, hdict⟩ := List.exists_of_findSome?_eq_some hv
    exact h.known b hb name' v hdict

theorem findSome?_slot (h : W.Behind type rest name) {b : τ} (hb : W.firstFinder rest name = some b) (hs : s ∈ slotdefs)
    (hname : s.name = name) (hset : (W.slot b s.member).isSome) :
    b ∈ rest ∧ rest.findSome? (W.slot · s.member) = W.slot b s.member := by
  obtain ⟨hlookup, before, after, rfl, hbefore⟩ := List.find?_eq_some_iff_append.mp hb
  have hnone : before.findSome? (W.slot · s.member) = none := by
    refine List.findSome?_eq_none_iff.mpr fun a ha => ?_
    have hlookup : W.lookup a name = none := by simpa using hbefore a ha
    exact (h.agrees a (by simp [ha])).missing hlookup s hs hname
  refine ⟨by simp, ?_⟩
  rw [List.findSome?_append, hnone, List.findSome?_cons]
  obtain ⟨f, hf⟩ := Option.isSome_iff_exists.mp hset
  simp [hf]

end Behind

omit [DecidableEq τ] in
theorem initialized_dict (h : name ≠ "__new__") : (initialized namespace_ : Draft τ ο φ).dict name = namespace_ name := by
  unfold initialized
  split
  · simp [Function.update_of_ne h]
  · rfl

omit [DecidableEq τ] in
theorem initialized_slot {m : Member} (h : m ≠ newMember) : (initialized namespace_ : Draft τ ο φ).slot m = none := by
  unfold initialized
  split
  · simp [Function.update_of_ne h]
  · rfl

omit [DecidableEq τ] in
/-- What `add_operators` gives a class for a special method with slots of its own. -/
theorem addOperators_regular (hregular : Regular name) (hs : s ∈ slotdefs) (hname : s.name = name) :
    ((initialized namespace_ : Draft τ ο φ).addOperators type).dict name = namespace_ name ∧
      ((initialized namespace_ : Draft τ ο φ).addOperators type).slot s.member = (namespace_ name).map .object := by
  have hunique (s : Slotdef) (hs : s ∈ slotdefs) (hname : s.name = name) :
      ∀ s' ∈ slotdefs, s'.member = s.member → s' = s := slotdefs_member s hs (hname ▸ hregular)
  have hmember (s : Slotdef) (hs : s ∈ slotdefs) (hname : s.name = name) : s.member ≠ newMember := fun he =>
    hregular.2.2 (hname ▸ (slotdefs_new s hs).mpr he)
  have hfold : (slotdefs.foldl (·.addOperator type ·) (initialized namespace_ : Draft τ ο φ)).dict name = namespace_ name ∧
      (slotdefs.foldl (·.addOperator type ·) (initialized namespace_ : Draft τ ο φ)).slot s.member =
        (namespace_ name).map .object := by
    have hdict : (initialized namespace_ : Draft τ ο φ).dict name = namespace_ name := initialized_dict hregular.2.2
    cases hown : namespace_ name with
    | some v =>
      rw [hown] at hdict
      refine ⟨Draft.addOperators_dict _ _ hdict, ?_⟩
      rw [Draft.addOperators_slot _ _ (by rw [hname]; exact hdict) (by rw [hname]; exact hregular.2.2) hs (hunique s hs hname)]
      rfl
    | none =>
      rw [hown] at hdict
      exact And.imp_right (fun h => h s hs hname) (Draft.addOperators_none hunique slotdefs _ (fun _ h => h) hdict
        fun s hs hname => initialized_slot (hmember s hs hname))
  unfold Draft.addOperators
  dsimp only
  split
  · rw [Draft.setDict_dict_ne hregular.2.2.symm]
    exact hfold
  · exact hfold

end World

end Pylang.Runtime
