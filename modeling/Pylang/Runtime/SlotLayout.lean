/-
`__slots__`: where a class's slot descriptors read and write, and the memory its
instances get. Positions count from the start for each class that declares
slots, the memory is made for the slots of the instance's own class, or for none.
-/
import Pylang.Runtime.Mro

namespace Pylang.Runtime

/-- `sizeof(PyObject *)`. -/
def wordSize : Nat := 8

/-- An entry of a class dictionary: a slot's descriptor with its position, or
anything else. -/
inductive DictEntry
  | slot (position : Nat)
  | other
  deriving DecidableEq

structure TypeObject (α : Type) where
  mro : List α
  isHeaptype : Bool
  basicsize : Nat
  /-- `__slots__`. -/
  slots : List String
  dict : List (String × DictEntry)

/-- `add_members`: names the namespace has are left alone. -/
def addMembers : Nat → List String → List (String × DictEntry) → List (String × DictEntry)
  | _, [], dict => dict
  | position, name :: names, dict =>
    addMembers (position + 1) names (if dict.any (·.1 == name) then dict else dict ++ [(name, .slot position)])

/-- `initialize`, as far as the layout goes. -/
def TypeObject.initialize {α : Type} (base : TypeObject α) (mro : List α) (slots ns : List String) : TypeObject α where
  mro := mro
  isHeaptype := true
  basicsize := base.basicsize
  slots := slots
  dict := addMembers 0 slots (ns.map (·, .other))

/-- A builtin type of `size` bytes. -/
def TypeObject.builtin {α : Type} (mro : List α) (size : Nat) (names : List String) : TypeObject α where
  mro := mro
  isHeaptype := false
  basicsize := size
  slots := []
  dict := names.map (·, .other)

/-- The types, the latest first. -/
abbrev Types (α : Type) := List (α × TypeObject α)

/-- What allocates an instance: `heap_object_allocation`, to which `object.__new__` and most others come, or the
`__new__` of a builtin, such as those of `tuple` and `deque`, that allocates its own C++ object and nothing for slots. -/
inductive Allocation
  | heapObject
  | own (size : Nat)
  deriving DecidableEq

section Layout

variable {α : Type} [DecidableEq α]

def Types.get? (T : Types α) (c : α) : Option (TypeObject α) := (T.find? (·.1 = c)).map (·.2)

def Types.hierarchy (T : Types α) : Hierarchy α := T.map fun e => (e.1, e.2.mro)

/-- The types that creation accepts; `best_base` is the first base. -/
inductive Created (object : α) : Types α → Prop
  | object (size : Nat) (names : List String) : Created object [(object, .builtin [object] size names)]
  | builtin {T : Types α} {type : α} {bases mro : List α} {size : Nat} {names : List String} : Created object T →
      type ∉ T.map (·.1) → bases ≠ [] → bases.Nodup → (∀ b ∈ bases, b ∈ T.map (·.1)) →
      mro_ type (bases.map T.hierarchy.mroOf) = .order mro →
      Created object ((type, .builtin mro size names) :: T)
  | create {T : Types α} {type base : α} {bases mro : List α} {baseObject : TypeObject α} {slots ns : List String} :
      Created object T → type ∉ T.map (·.1) → (base :: bases).Nodup → (∀ b ∈ base :: bases, b ∈ T.map (·.1)) →
      T.get? base = some baseObject → mro_ type ((base :: bases).map T.hierarchy.mroOf) = .order mro →
      Created object ((type, baseObject.initialize mro slots ns) :: T)

/-- `PyType::lookup`. -/
def Types.lookup (T : Types α) (mro : List α) (name : String) : Option DictEntry :=
  mro.findSome? fun c => (T.get? c).bind fun t => (t.dict.find? (·.1 == name)).map (·.2)

/-- The first builtin type of the MRO, which allocates the instance. -/
def Types.allocator (T : Types α) (mro : List α) : Option (TypeObject α) :=
  (mro.filterMap T.get?).find? fun t => !t.isHeaptype

variable (T : Types α) (t : TypeObject α)

/-- The position of the slot that is found under a name in an instance of `t`. -/
def Types.slotAt (name : String) : Option Nat :=
  match T.lookup t.mro name with
  | some (.slot position) => some position
  | _ => none

/-- The size of the C++ object of an instance. -/
def Types.objectSize : Allocation → Nat
  | .heapObject => ((T.allocator t.mro).map (·.basicsize)).getD 0
  | .own size => size

/-- The slots that an instance is allocated for. -/
def TypeObject.slotCount : Allocation → Nat
  | .heapObject => t.slots.length
  | .own _ => 0

/-- The bytes of an instance. -/
def Types.allocated (made : Allocation) : Nat := T.objectSize t made + t.slotCount made * wordSize

/-- Where a descriptor of the position reads and writes in an instance of `t`. -/
def TypeObject.slotOffset (position : Nat) : Nat := t.basicsize + position * wordSize

end Layout

/-! ### Memory -/

/-- The bytes of an instance, and what is around them. -/
abbrev Memory := Nat → UInt8

/-- A pointer. -/
abbrev Pointer := Fin wordSize → UInt8

namespace Memory

def store (m : Memory) (offset : Nat) (p : Pointer) : Memory := fun a =>
  if h : offset ≤ a ∧ a < offset + wordSize then p ⟨a - offset, by omega⟩ else m a

def load (m : Memory) (offset : Nat) : Pointer := fun i => m (offset + i)

variable {m : Memory} {a b : Nat} {p : Pointer}

theorem load_store : (m.store a p).load a = p := by
  funext i
  have hi := i.isLt
  have hin : a ≤ a + i ∧ a + i < a + wordSize := by omega
  unfold load store
  rw [dif_pos hin]
  congr 1
  apply Fin.ext
  show a + ↑i - a = ↑i
  omega

theorem load_store_disjoint (h : a + wordSize ≤ b ∨ b + wordSize ≤ a) : (m.store a p).load b = m.load b := by
  funext i
  have hi := i.isLt
  have hout : ¬ (a ≤ b + i ∧ b + i < a + wordSize) := by omega
  unfold load store
  rw [dif_neg hout]

end Memory

section Sound

variable {α : Type} [DecidableEq α] (T : Types α) (t : TypeObject α) (made : Allocation)

/-- The slots of the instances of a class: each is in the instance and past the
fields of its C++ object, and is apart from the others. -/
structure SlotsSound : Prop where
  inside : ∀ {n : String} {i : Nat}, T.slotAt t n = some i → t.slotOffset i + wordSize ≤ T.allocated t made
  past : ∀ {n : String} {i : Nat}, T.slotAt t n = some i → T.objectSize t made ≤ t.slotOffset i
  apart : ∀ {n n' : String} {i j : Nat}, T.slotAt t n = some i → T.slotAt t n' = some j → n ≠ n' →
    t.slotOffset i + wordSize ≤ t.slotOffset j ∨ t.slotOffset j + wordSize ≤ t.slotOffset i
  keeps : ∀ {n n' : String} {i j : Nat}, T.slotAt t n = some i → T.slotAt t n' = some j → n ≠ n' →
    ∀ (m : Memory) (p : Pointer), (m.store (t.slotOffset i) p).load (t.slotOffset j) = m.load (t.slotOffset j)
  reads : ∀ {n : String} {i : Nat}, T.slotAt t n = some i → ∀ (m : Memory) (p : Pointer),
    (m.store (t.slotOffset i) p).load (t.slotOffset i) = p

/-- How far the C++ object of an instance reaches past the `basicsize` that the
first bases hand down. -/
def Types.shift : Int := T.objectSize t made - t.basicsize

/-- Positions count: each slot found has a place among those the instance is
allocated for, shifted by the object, and no two have one position. -/
structure SlotsFit : Prop where
  start : ∀ {n : String} {i : Nat}, T.slotAt t n = some i → T.shift t made ≤ i * wordSize
  stop : ∀ {n : String} {i : Nat}, T.slotAt t n = some i → (i + 1) * wordSize ≤ T.shift t made + t.slotCount made * wordSize
  different : ∀ {n n' : String} {i : Nat}, T.slotAt t n = some i → T.slotAt t n' = some i → n = n'

omit [DecidableEq α] in
theorem slotOffset_apart {i j : Nat} (h : i ≠ j) :
    t.slotOffset i + wordSize ≤ t.slotOffset j ∨ t.slotOffset j + wordSize ≤ t.slotOffset i := by
  unfold TypeObject.slotOffset wordSize
  omega

/-- **The slots of a class are sound exactly when their positions fit.** -/
theorem slotsSound_iff : SlotsSound T t made ↔ SlotsFit T t made := by
  constructor
  · intro hsound
    refine ⟨fun {n i} hn => ?_, fun {n i} hn => ?_, fun {n n' i} hn hn' => ?_⟩
    · have hpast := hsound.past hn
      unfold TypeObject.slotOffset at hpast
      unfold Types.shift
      omega
    · have hinside := hsound.inside hn
      unfold TypeObject.slotOffset Types.allocated wordSize at hinside
      unfold Types.shift wordSize
      omega
    · by_contra hne
      have hapart := hsound.apart hn hn' hne
      unfold wordSize at hapart
      omega
  · intro hfit
    have hapart : ∀ {n n' : String} {i j : Nat}, T.slotAt t n = some i → T.slotAt t n' = some j → n ≠ n' →
        t.slotOffset i + wordSize ≤ t.slotOffset j ∨ t.slotOffset j + wordSize ≤ t.slotOffset i := by
      intro n n' i j hn hn' hne
      refine slotOffset_apart t fun hij => hne ?_
      subst hij
      exact hfit.different hn hn'
    refine
      { inside := fun {n i} hn => ?_
        past := fun {n i} hn => ?_
        apart := hapart
        keeps := fun hn hn' hne m p => Memory.load_store_disjoint (hapart hn hn' hne)
        reads := fun _ m p => Memory.load_store }
    · have hstop := hfit.stop hn
      unfold Types.shift wordSize at hstop
      unfold TypeObject.slotOffset Types.allocated wordSize
      omega
    · have hstart := hfit.start hn
      unfold Types.shift at hstart
      unfold TypeObject.slotOffset
      omega

end Sound

/-- `class A` with `__slots__ = ("a",)`, `class B(A)`, and `object` of 64 bytes. -/
def objectType : TypeObject Nat := .builtin [0] 64 []

def slottedA : TypeObject Nat := objectType.initialize [1, 0] ["a"] []

def inheritingB : TypeObject Nat := slottedA.initialize [2, 1, 0] [] []

def slotted : Types Nat := [(2, inheritingB), (1, slottedA), (0, objectType)]

theorem slotted_created : Created 0 slotted := by
  have hmroA : mro_ 1 ([0].map (Types.hierarchy [(0, objectType)]).mroOf) = .order [1, 0] := by decide
  have hA : Created 0 [(1, slottedA), (0, objectType)] :=
    .create (.object 64 []) (by decide) (by decide) (by decide) rfl hmroA
  have hmroB : mro_ 2 ([1].map (Types.hierarchy [(1, slottedA), (0, objectType)]).mroOf) = .order [2, 1, 0] := by
    decide
  exact .create hA (by decide) (by decide) (by decide) rfl hmroB

/-- The slot of `A` is past the end of the instances of `B`. -/
theorem inheritedSlot_outside : Created 0 slotted ∧ slotted.slotAt inheritingB "a" = some 0 ∧
    slotted.allocated inheritingB .heapObject = inheritingB.slotOffset 0 ∧ ¬ SlotsSound slotted inheritingB .heapObject := by
  have hfound : slotted.slotAt inheritingB "a" = some 0 := by decide
  have hend : slotted.allocated inheritingB .heapObject = inheritingB.slotOffset 0 := by decide
  refine ⟨slotted_created, hfound, hend, fun hsound => ?_⟩
  have hinside := hsound.inside hfound
  rw [hend] at hinside
  unfold wordSize at hinside
  omega

end Pylang.Runtime
