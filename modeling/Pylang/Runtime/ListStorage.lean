/-
`PyList`: a byte a value while every value is `True` or `False`, a vector with
free slots in front after a push to the front, a plain vector otherwise.

`contents` is the list that all three stand for. Every operation does to it what
its name says of a mathematical list (`step_refines`), except that an index that
does not fit in 64 bits stops `pop`, `__getitem__` and `__setitem__`, where
`insert` clamps it.
-/
import Pylang.Tagged.RtValue
import Mathlib.Data.List.Basic

namespace Pylang.Runtime

open Tagged (fitsSlong)

/-- `Value{ nullptr }`, one of the two `bool` objects, or another object. -/
inductive ListValue (Obj : Type) where
  | null
  | bool (b : Bool)
  | obj (o : Obj)
deriving DecidableEq

/-- `exact_bool_value`, with `none` for `-1`. -/
def exactBoolValue {Obj : Type} : ListValue Obj → Option Bool
  | .bool b => some b
  | _ => none

/-- What a call returns: a value, nothing (`None` or `std::monostate`), or the text of an `IndexError`. -/
abbrev ListReply (Obj : Type) := Except String (Option (ListValue Obj))

structure PyList (Obj : Type) where
  elements : List (ListValue Obj) := []
  boolElements : List Bool := []
  frontOffset : Nat := 0
  boolStorage : Bool := false
deriving DecidableEq

namespace PyList

variable {Obj : Type}

def create (elements : List (ListValue Obj)) : PyList Obj := { elements }

def createBoolFilled (count : Nat) (value : Bool) : PyList Obj :=
  { boolElements := List.replicate count value, boolStorage := true }

def logicalSize (l : PyList Obj) : Nat :=
  if l.boolStorage then l.boolElements.length else l.elements.length - l.frontOffset

def empty (l : PyList Obj) : Bool := l.logicalSize = 0

/-- Out of bounds, where the source leaves the behaviour undefined, the value is null. -/
def uncheckedValueAt (l : PyList Obj) (index : Nat) : ListValue Obj :=
  if l.boolStorage then (l.boolElements[index]?.map .bool).getD .null
  else l.elements[l.frontOffset + index]?.getD .null

def promoteBoolStorage (l : PyList Obj) : PyList Obj :=
  if l.boolStorage then
    { elements := l.boolElements.map .bool, boolElements := [], frontOffset := 0, boolStorage := false }
  else l

def normalizeStorage (l : PyList Obj) : PyList Obj :=
  let l := l.promoteBoolStorage
  if l.frontOffset = 0 then l
  else if l.elements.length ≤ l.frontOffset then { l with elements := [], frontOffset := 0 }
  else { l with elements := l.elements.drop l.frontOffset, frontOffset := 0 }

/-- `push_front_raw` from where the storage is a vector. -/
def pushFrontVector (l : PyList Obj) (value : ListValue Obj) : PyList Obj :=
  if 0 < l.frontOffset then
    { l with elements := l.elements.set (l.frontOffset - 1) value, frontOffset := l.frontOffset - 1 }
  else
    let slack := max 16 (l.logicalSize / 2 + 1)
    { l with
      elements := List.replicate slack .null ++ value :: l.elements.drop l.frontOffset
      frontOffset := slack }

def pushFrontRaw (l : PyList Obj) (value : ListValue Obj) : PyList Obj :=
  if l.boolStorage then
    match exactBoolValue value with
    | some b => { l with boolElements := b :: l.boolElements }
    | none => l.promoteBoolStorage.pushFrontVector value
  else l.pushFrontVector value

def appendRaw (l : PyList Obj) (value : ListValue Obj) : PyList Obj :=
  if l.boolStorage then
    match exactBoolValue value with
    | some b => { l with boolElements := l.boolElements ++ [b] }
    | none => { l.promoteBoolStorage with elements := l.promoteBoolStorage.elements ++ [value] }
  else { l with elements := l.elements ++ [value] }

/-- `pop_back_raw`, of a list that is not empty. -/
def popBackRaw (l : PyList Obj) : PyList Obj :=
  if l.boolStorage then { l with boolElements := l.boolElements.dropLast }
  else
    let elements := l.elements.dropLast
    if elements.length ≤ l.frontOffset then { l with elements := [], frontOffset := 0 } else { l with elements }

def insertRawClamped (l : PyList Obj) (index : Int) (value : ListValue Obj) : PyList Obj :=
  let size : Int := l.logicalSize
  let index := if index < 0 then (if index + size < 0 then 0 else index + size) else index
  let index := if size < index then size else index
  if index = 0 then l.pushFrontRaw value
  else if index = size then l.appendRaw value
  else
    let l := l.normalizeStorage
    { l with elements := l.elements.insertIdx index.toNat value }

/-- The list `set_bool_storage_item` leaves, and whether it has set the item. -/
def setBoolStorageItem (l : PyList Obj) (index : Nat) (value : ListValue Obj) : PyList Obj × Bool :=
  if l.boolStorage then
    match exactBoolValue value with
    | some b => ({ l with boolElements := l.boolElements.set index b }, true)
    | none => (l.promoteBoolStorage, false)
  else (l, false)

/-- `insert`. The position it hands on lies within the vector, so its own assertion holds. -/
def insert (l : PyList Obj) (index : Int) (value : ListValue Obj) : PyList Obj :=
  let size : Int := l.logicalSize
  let index := if index < 0 then (if index + size < 0 then 0 else index + size) else index
  let index := if size < index then size else index
  if index = 0 then l.pushFrontRaw value
  else if index = size then l.appendRaw value
  else l.insertRawClamped index value

/-- The position `pop` takes from the value of `as_i64`; the first of its two errors prints the size for the index. -/
def popPosition (size : Nat) (index : Int) : Except String Nat :=
  if index < 0 then
    if size < index.natAbs then
      .error s!"pop index '{size}' out of range for list of size '{size}'"
    else .ok (size - index.natAbs)
  else
    let idx := index.toNat
    if size ≤ idx then .error s!"pop index '{idx}' out of range for list of size '{size}'" else .ok idx

/-- `pop` of a position in the list. -/
def popAt (l : PyList Obj) (idx : Nat) : PyList Obj :=
  if idx + 1 = l.logicalSize then l.popBackRaw
  else
    let l := l.normalizeStorage
    { l with elements := l.elements.eraseIdx idx }

/-- `pop`; `none` where `as_i64` aborts. -/
def pop (l : PyList Obj) (index : Option Int) : Option (PyList Obj × ListReply Obj) :=
  if l.empty then some (l, .error "pop from empty list")
  else
    match index with
    | none => some (l.popBackRaw, .ok (l.uncheckedValueAt (l.logicalSize - 1)))
    | some index =>
      if fitsSlong index then
        match popPosition l.logicalSize index with
        | .error e => some (l, .error e)
        | .ok idx => some (l.popAt idx, .ok (l.uncheckedValueAt idx))
      else none

def getitem (l : PyList Obj) (index : Int) : Option (PyList Obj × ListReply Obj) :=
  if fitsSlong index then
    let size := l.logicalSize
    if index < 0 ∧ size < index.natAbs then some (l, .error "list index out of range")
    else
      let index := if index < 0 then index + size else index
      if size ≤ index.toNat then some (l, .error "list index out of range")
      else some (l, .ok (l.uncheckedValueAt index.toNat))
  else none

def setitem (l : PyList Obj) (index : Int) (value : ListValue Obj) : Option (PyList Obj × ListReply Obj) :=
  if fitsSlong index then
    let size := l.logicalSize
    let index := if index < 0 then index + size else index
    if index < 0 ∨ size ≤ index.toNat then some (l, .error "list index out of range")
    else
      match l.setBoolStorageItem index.toNat value with
      | (l, true) => some (l, .ok none)
      | (l, false) =>
        let l := l.promoteBoolStorage
        some ({ l with elements := l.elements.set (l.frontOffset + index.toNat) value }, .ok none)
  else none

end PyList

inductive ListOp (Obj : Type) where
  | append (value : ListValue Obj)
  | pushFrontRaw (value : ListValue Obj)
  | insert (index : Int) (value : ListValue Obj)
  | insertRawClamped (index : Int) (value : ListValue Obj)
  | pop (index : Option Int)
  | getitem (index : Int)
  | setitem (index : Int) (value : ListValue Obj)
  | promoteBoolStorage
  | normalizeStorage

namespace PyList

variable {Obj : Type}

def step (l : PyList Obj) : ListOp Obj → Option (PyList Obj × ListReply Obj)
  | .append v => some (l.appendRaw v, .ok none)
  | .pushFrontRaw v => some (l.pushFrontRaw v, .ok none)
  | .insert i v => some (l.insert i v, .ok none)
  | .insertRawClamped i v => some (l.insertRawClamped i v, .ok none)
  | .pop i => l.pop i
  | .getitem i => l.getitem i
  | .setitem i v => l.setitem i v
  | .promoteBoolStorage => some (l.promoteBoolStorage, .ok none)
  | .normalizeStorage => some (l.normalizeStorage, .ok none)

/-- The lists and the replies after each operation, if none aborts. -/
def run (l : PyList Obj) : List (ListOp Obj) → Option (List (PyList Obj × ListReply Obj))
  | [] => some []
  | op :: ops => do
    let r ← l.step op
    let rs ← r.1.run ops
    return r :: rs

/-! ## The list it stands for -/

def contents (l : PyList Obj) : List (ListValue Obj) :=
  if l.boolStorage then l.boolElements.map .bool else l.elements.drop l.frontOffset

/-- The front offset lies within the vector, and at most one of the two vectors is in use. -/
structure Inv (l : PyList Obj) : Prop where
  offset : l.frontOffset ≤ l.elements.length
  compact : l.boolStorage = true → l.elements = []
  vector : l.boolStorage = false → l.boolElements = []

end PyList

/-- Where an insertion at an index goes in a list of a length. -/
def clampIndex (index : Int) (size : Nat) : Nat :=
  if index < 0 then (index + size).toNat else min index.toNat size

/-- The position an index means in a list of a length. -/
def listPosition (index : Int) (size : Nat) : Option Nat :=
  if index < 0 then (if 0 ≤ index + size then some (index + size).toNat else none)
  else if index.toNat < size then some index.toNat else none

variable {Obj : Type}

/-- The operations on a mathematical list; `none` for the reply of one that fails. -/
def listStep (xs : List (ListValue Obj)) : ListOp Obj → List (ListValue Obj) × Option (Option (ListValue Obj))
  | .append v => (xs ++ [v], some none)
  | .pushFrontRaw v => (v :: xs, some none)
  | .insert i v | .insertRawClamped i v => (xs.insertIdx (clampIndex i xs.length) v, some none)
  | .pop none => (xs.dropLast, xs.getLast?.map some)
  | .pop (some i) =>
    match listPosition i xs.length with
    | none => (xs, none)
    | some k => (xs.eraseIdx k, some xs[k]?)
  | .getitem i =>
    match listPosition i xs.length with
    | none => (xs, none)
    | some k => (xs, some xs[k]?)
  | .setitem i v =>
    match listPosition i xs.length with
    | none => (xs, none)
    | some k => (xs.set k v, some none)
  | .promoteBoolStorage | .normalizeStorage => (xs, some none)

/-- The lists and the replies after each operation. -/
def listRun (xs : List (ListValue Obj)) :
    List (ListOp Obj) → List (List (ListValue Obj) × Option (Option (ListValue Obj)))
  | [] => []
  | op :: ops => listStep xs op :: listRun (listStep xs op).1 ops

/-- The index of a `pop` from a list with elements, of a `__getitem__` and of a `__setitem__` fits in 64 bits. -/
def Fits (xs : List (ListValue Obj)) : ListOp Obj → Prop
  | .pop (some i) => xs ≠ [] → fitsSlong i = true
  | .getitem i | .setitem i _ => fitsSlong i = true
  | _ => True

def FitsRun (xs : List (ListValue Obj)) : List (ListOp Obj) → Prop
  | [] => True
  | op :: ops => Fits xs op ∧ FitsRun (listStep xs op).1 ops

namespace PyList

/-! ## The two kinds of storage -/

theorem Inv.cases {l : PyList Obj} (h : l.Inv) :
    (∃ bs, l = ⟨[], bs, 0, true⟩) ∨ ∃ pre xs, l = ⟨pre ++ xs, [], pre.length, false⟩ := by
  obtain ⟨es, bs, k, b⟩ := l
  obtain ⟨hoff, hcompact, hvector⟩ := h
  cases b
  case true =>
    obtain rfl : es = [] := hcompact rfl
    obtain rfl : k = 0 := by simpa using hoff
    exact .inl ⟨bs, rfl⟩
  case false =>
    obtain rfl : bs = [] := hvector rfl
    have hlen : (es.take k).length = k := List.length_take_of_le hoff
    refine .inr ⟨es.take k, es.drop k, ?_⟩
    rw [List.take_append_drop, hlen]

@[simp] theorem inv_compact (bs : List Bool) : (⟨[], bs, 0, true⟩ : PyList Obj).Inv := ⟨le_refl 0, fun _ => rfl, nofun⟩

@[simp] theorem inv_vector (es : List (ListValue Obj)) (k : Nat) :
    (⟨es, [], k, false⟩ : PyList Obj).Inv ↔ k ≤ es.length := ⟨fun h => h.offset, fun h => ⟨h, nofun, fun _ => rfl⟩⟩

@[simp] theorem contents_compact (bs : List Bool) (es : List (ListValue Obj)) (k : Nat) :
    (⟨es, bs, k, true⟩ : PyList Obj).contents = bs.map .bool := rfl

@[simp] theorem contents_vector (bs : List Bool) (es : List (ListValue Obj)) (k : Nat) :
    (⟨es, bs, k, false⟩ : PyList Obj).contents = es.drop k := rfl

theorem inv_createBoolFilled (n : Nat) (b : Bool) :
    (createBoolFilled n b : PyList Obj).Inv ∧
      (createBoolFilled n b : PyList Obj).contents = List.replicate n (.bool b) := by
  simp [createBoolFilled]

theorem logicalSize_eq (l : PyList Obj) : l.logicalSize = l.contents.length := by
  unfold logicalSize contents
  split <;> simp

theorem exactBoolValue_eq {v : ListValue Obj} {b : Bool} (h : exactBoolValue v = some b) : v = .bool b := by
  cases v with
  | bool c => simpa [exactBoolValue] using h
  | null => cases h
  | obj o => cases h

theorem uncheckedValueAt_eq (l : PyList Obj) (i : Nat) : l.uncheckedValueAt i = l.contents[i]?.getD .null := by
  unfold uncheckedValueAt contents
  split
  · rw [List.getElem?_map]
  · rw [List.getElem?_drop]

/-! ## What each operation does to the list -/

/-- A list with the invariant that stands for `xs`. -/
def StandsFor (l : PyList Obj) (xs : List (ListValue Obj)) : Prop := l.Inv ∧ l.contents = xs

theorem promoteBoolStorage_eq {l : PyList Obj} (h : l.Inv) :
    ∃ pre, l.promoteBoolStorage = ⟨pre ++ l.contents, [], pre.length, false⟩ := by
  rcases h.cases with ⟨bs, rfl⟩ | ⟨pre, xs, rfl⟩
  · exact ⟨[], by simp [promoteBoolStorage]⟩
  · exact ⟨pre, by simp [promoteBoolStorage]⟩

theorem normalizeStorage_eq {l : PyList Obj} (h : l.Inv) : l.normalizeStorage = create l.contents := by
  obtain ⟨pre, heq⟩ := promoteBoolStorage_eq h
  unfold normalizeStorage create
  rw [heq]
  cases pre with
  | nil => simp
  | cons p pre =>
    by_cases hxs : l.contents = []
    · simp [hxs]
    · have hlen : 0 < l.contents.length := List.length_pos_of_ne_nil hxs
      have hle : ¬ pre.length + l.contents.length ≤ pre.length := by omega
      simp [hle]

theorem pushFrontVector_standsFor (pre xs : List (ListValue Obj)) (v : ListValue Obj) :
    (pushFrontVector ⟨pre ++ xs, [], pre.length, false⟩ v).StandsFor (v :: xs) := by
  unfold pushFrontVector StandsFor
  split
  next h =>
    have hne : pre ≠ [] := List.ne_nil_of_length_pos h
    obtain ⟨p, x, rfl⟩ : ∃ p x, pre = p ++ [x] := ⟨_, _, (List.dropLast_append_getLast hne).symm⟩
    simp
  next h =>
    obtain rfl : pre = [] := by simpa using h
    simp

theorem pushFrontRaw_standsFor {l : PyList Obj} (h : l.Inv) (v : ListValue Obj) :
    (l.pushFrontRaw v).StandsFor (v :: l.contents) := by
  obtain ⟨pre, heq⟩ := promoteBoolStorage_eq h
  rcases h.cases with ⟨bs, rfl⟩ | ⟨pre, xs, rfl⟩
  · unfold pushFrontRaw
    rw [if_pos rfl]
    split
    next b hb =>
      rw [exactBoolValue_eq hb]
      exact ⟨inv_compact _, rfl⟩
    next =>
      rw [heq]
      exact pushFrontVector_standsFor pre _ v
  · have hgoal := pushFrontVector_standsFor pre xs v
    simpa [pushFrontRaw] using hgoal

theorem appendRaw_standsFor {l : PyList Obj} (h : l.Inv) (v : ListValue Obj) :
    (l.appendRaw v).StandsFor (l.contents ++ [v]) := by
  obtain ⟨pre, heq⟩ := promoteBoolStorage_eq h
  rcases h.cases with ⟨bs, rfl⟩ | ⟨pre, xs, rfl⟩
  · unfold appendRaw
    rw [if_pos rfl]
    split
    next b hb =>
      rw [exactBoolValue_eq hb]
      exact ⟨inv_compact _, by simp⟩
    next =>
      rw [heq]
      simp [StandsFor]
  · simp [appendRaw, StandsFor]

theorem popBackRaw_standsFor {l : PyList Obj} (h : l.Inv) (hne : l.contents ≠ []) :
    l.popBackRaw.StandsFor l.contents.dropLast := by
  rcases h.cases with ⟨bs, rfl⟩ | ⟨pre, xs, rfl⟩
  · simp [popBackRaw, StandsFor, List.map_dropLast]
  · have hxs : xs ≠ [] := by simpa using hne
    obtain ⟨ys, y, rfl⟩ : ∃ ys y, xs = ys ++ [y] := ⟨_, _, (List.dropLast_append_getLast hxs).symm⟩
    have hlast : (pre ++ (ys ++ [y])).dropLast = pre ++ ys := by
      rw [← List.append_assoc, List.dropLast_concat]
    unfold popBackRaw
    simp only [Bool.false_eq_true, if_false, hlast]
    split
    next hle =>
      have hlen : (pre ++ ys).length ≤ pre.length := hle
      obtain rfl : ys = [] := by
        rw [List.length_append] at hlen
        exact List.eq_nil_of_length_eq_zero (by omega)
      simp [StandsFor]
    next => simp [StandsFor]

theorem clampIndex_le (i : Int) (n : Nat) : clampIndex i n ≤ n := by
  unfold clampIndex
  split <;> omega

theorem clampIndex_eq (i : Int) (n : Nat) :
    (if (n : Int) < (if i < 0 then (if i + n < 0 then 0 else i + n) else i) then (n : Int)
      else if i < 0 then (if i + n < 0 then 0 else i + n) else i) = clampIndex i n := by
  unfold clampIndex
  split <;> split <;> (try split at *) <;> omega

theorem clampIndex_self {k n : Nat} (h : k ≤ n) : clampIndex k n = k := by
  unfold clampIndex
  rw [if_neg (by omega)]
  omega

theorem insertRawClamped_standsFor {l : PyList Obj} (h : l.Inv) (i : Int) (v : ListValue Obj) :
    (l.insertRawClamped i v).StandsFor (l.contents.insertIdx (clampIndex i l.contents.length) v) := by
  unfold insertRawClamped
  simp only [clampIndex_eq, logicalSize_eq, Int.natCast_eq_zero, Int.natCast_inj, Int.toNat_natCast]
  split
  next h0 =>
    rw [h0, List.insertIdx_zero]
    exact pushFrontRaw_standsFor h v
  next =>
    split
    next hn =>
      rw [hn, List.insertIdx_length_self]
      exact appendRaw_standsFor h v
    next =>
      rw [normalizeStorage_eq h]
      exact ⟨by simp [create], rfl⟩

theorem insert_standsFor {l : PyList Obj} (h : l.Inv) (i : Int) (v : ListValue Obj) :
    (l.insert i v).StandsFor (l.contents.insertIdx (clampIndex i l.contents.length) v) := by
  unfold insert
  simp only [clampIndex_eq, logicalSize_eq, Int.natCast_eq_zero, Int.natCast_inj]
  split
  next h0 =>
    rw [h0, List.insertIdx_zero]
    exact pushFrontRaw_standsFor h v
  next =>
    split
    next hn =>
      rw [hn, List.insertIdx_length_self]
      exact appendRaw_standsFor h v
    next =>
      have hgoal := insertRawClamped_standsFor h (clampIndex i l.contents.length : Nat) v
      rwa [clampIndex_self (clampIndex_le i _)] at hgoal

theorem popAt_standsFor {l : PyList Obj} (h : l.Inv) {k : Nat} :
    (l.popAt k).StandsFor (l.contents.eraseIdx k) := by
  unfold popAt
  rw [logicalSize_eq]
  split
  next hlast =>
    have hne : l.contents ≠ [] := List.ne_nil_of_length_pos (by rw [← hlast]; exact Nat.succ_pos k)
    rw [List.eraseIdx_eq_dropLast hlast]
    exact popBackRaw_standsFor h hne
  next =>
    rw [normalizeStorage_eq h]
    exact ⟨by simp [create], rfl⟩

theorem setitem_standsFor {l : PyList Obj} (h : l.Inv) {k : Nat} (hk : k < l.contents.length) (v : ListValue Obj) :
    (match l.setBoolStorageItem k v with
      | (l, true) => l
      | (l, false) =>
        { l.promoteBoolStorage with
          elements := l.promoteBoolStorage.elements.set (l.promoteBoolStorage.frontOffset + k) v }).StandsFor
      (l.contents.set k v) := by
  rcases h.cases with ⟨bs, rfl⟩ | ⟨pre, xs, rfl⟩
  · unfold setBoolStorageItem
    rw [if_pos rfl]
    cases hb : exactBoolValue v with
    | some b =>
      rw [exactBoolValue_eq hb]
      exact ⟨inv_compact _, by simp [List.map_set]⟩
    | none => simp [promoteBoolStorage, StandsFor]
  · simp [setBoolStorageItem, promoteBoolStorage, StandsFor]

theorem listPosition_lt {i : Int} {n k : Nat} (h : listPosition i n = some k) : k < n := by
  unfold listPosition at h
  split at h
  · split at h
    · obtain rfl := Option.some.inj h
      omega
    · cases h
  · split at h
    next hlt =>
      obtain rfl := Option.some.inj h
      exact hlt
    · cases h

theorem popPosition_eq (n : Nat) (i : Int) : (popPosition n i).toOption = listPosition i n := by
  unfold popPosition listPosition
  split
  next hneg =>
    by_cases hsize : n < i.natAbs
    · rw [if_pos hsize, if_neg (by omega)]
      rfl
    · rw [if_neg hsize, if_pos (by omega)]
      exact congrArg some (by omega)
  next =>
    by_cases hsize : n ≤ i.toNat
    · rw [if_pos hsize, if_neg (by omega)]
      rfl
    · rw [if_neg hsize, if_pos (by omega)]
      rfl

/-- What is left and what is returned, beside the operation on a list. -/
def StepRefines (l : PyList Obj) (op : ListOp Obj) (r : PyList Obj × ListReply Obj) : Prop :=
  r.1.Inv ∧ (r.1.contents, r.2.toOption) = listStep l.contents op

theorem StandsFor.refines {l l' : PyList Obj} {op : ListOp Obj} {xs : List (ListValue Obj)} {reply : ListReply Obj}
    (h : l'.StandsFor xs) (hop : listStep l.contents op = (xs, reply.toOption)) : StepRefines l op (l', reply) := by
  obtain ⟨hinv, hxs⟩ := h
  refine ⟨hinv, ?_⟩
  rw [hop, hxs]

theorem uncheckedValueAt_lt {l : PyList Obj} {k : Nat} (hk : k < l.contents.length) :
    some (l.uncheckedValueAt k) = l.contents[k]? := by
  rw [uncheckedValueAt_eq, List.getElem?_eq_getElem hk]
  rfl

theorem pop_refines {l : PyList Obj} (h : l.Inv) {index : Option Int} (hfits : Fits l.contents (.pop index)) :
    ∃ r, l.pop index = some r ∧ StepRefines l (.pop index) r := by
  unfold pop
  by_cases hnil : l.contents = []
  · have hempty : l.empty = true := by simp [empty, logicalSize_eq, hnil]
    rw [if_pos hempty]
    refine ⟨_, rfl, StandsFor.refines ⟨h, rfl⟩ ?_⟩
    cases index with
    | none => simp [listStep, hnil, Except.toOption]
    | some i =>
      have hpos : listPosition i 0 = none := by
        cases hk : listPosition i 0 with
        | none => rfl
        | some k => exact absurd (listPosition_lt hk) (Nat.not_lt_zero k)
      simp [listStep, hnil, hpos, Except.toOption]
  · have hlen : 0 < l.contents.length := List.length_pos_of_ne_nil hnil
    have hempty : ¬ l.empty = true := by simp [empty, logicalSize_eq, hnil]
    rw [if_neg hempty]
    cases index with
    | none =>
      refine ⟨_, rfl, (popBackRaw_standsFor h hnil).refines ?_⟩
      rw [logicalSize_eq]
      show (_, l.contents.getLast?.map some) = (_, some (some (l.uncheckedValueAt _)))
      rw [uncheckedValueAt_lt (by omega), ← List.getLast?_eq_getElem?, List.getLast?_eq_some_getLast hnil]
      rfl
    | some i =>
      have hi : fitsSlong i = true := hfits hnil
      have hpos := popPosition_eq l.logicalSize i
      simp only [hi, if_true]
      cases hk : popPosition l.logicalSize i with
      | error e =>
        have hnone : listPosition i l.contents.length = none := by rw [← logicalSize_eq, ← hpos, hk]; rfl
        refine ⟨_, rfl, StandsFor.refines ⟨h, rfl⟩ ?_⟩
        simp only [listStep, hnone]
        rfl
      | ok k =>
        have hsome : listPosition i l.contents.length = some k := by rw [← logicalSize_eq, ← hpos, hk]; rfl
        have hlt := listPosition_lt hsome
        refine ⟨_, rfl, (popAt_standsFor h).refines ?_⟩
        simp only [listStep, hsome]
        rw [← uncheckedValueAt_lt hlt]
        rfl

theorem getitem_refines {l : PyList Obj} (h : l.Inv) {i : Int} (hfits : fitsSlong i = true) :
    ∃ r, l.getitem i = some r ∧ StepRefines l (.getitem i) r := by
  unfold getitem
  rw [if_pos hfits]
  simp only [logicalSize_eq]
  cases hpos : listPosition i l.contents.length with
  | none =>
    have hstep : listStep l.contents (.getitem i) = (l.contents, none) := by
      simp only [listStep, hpos]
    refine ⟨(l, .error "list index out of range"), ?_, StandsFor.refines ⟨h, rfl⟩ hstep⟩
    unfold listPosition at hpos
    split
    · rfl
    · split <;> grind
  | some k =>
    have hlt := listPosition_lt hpos
    have hstep : listStep l.contents (.getitem i) = (l.contents, some l.contents[k]?) := by
      simp only [listStep, hpos]
    rw [← uncheckedValueAt_lt hlt] at hstep
    refine ⟨(l, .ok (some (l.uncheckedValueAt k))), ?_, StandsFor.refines ⟨h, rfl⟩ hstep⟩
    unfold listPosition at hpos
    grind

theorem setitem_refines {l : PyList Obj} (h : l.Inv) {i : Int} (hfits : fitsSlong i = true) (v : ListValue Obj) :
    ∃ r, l.setitem i v = some r ∧ StepRefines l (.setitem i v) r := by
  unfold setitem
  rw [if_pos hfits]
  simp only [logicalSize_eq]
  cases hpos : listPosition i l.contents.length with
  | none =>
    have hstep : listStep l.contents (.setitem i v) = (l.contents, none) := by
      simp only [listStep, hpos]
    refine ⟨(l, .error "list index out of range"), ?_, StandsFor.refines ⟨h, rfl⟩ hstep⟩
    unfold listPosition at hpos
    grind
  | some k =>
    have hlt := listPosition_lt hpos
    have hstep : listStep l.contents (.setitem i v) = (l.contents.set k v, some none) := by
      simp only [listStep, hpos]
    have hset := setitem_standsFor h hlt v
    have hk : (if i < 0 then i + (l.contents.length : Int) else i) = k := by
      unfold listPosition at hpos
      grind
    rw [hk, if_neg (by omega), Int.toNat_natCast]
    cases hl : l.setBoolStorageItem k v with
    | mk l' done =>
      rw [hl] at hset
      cases done with
      | true => exact ⟨_, rfl, hset.refines hstep⟩
      | false => exact ⟨_, rfl, hset.refines hstep⟩

/-- **Refinement of a step.** -/
theorem step_refines {l : PyList Obj} (h : l.Inv) {op : ListOp Obj} (hfits : Fits l.contents op) :
    ∃ r, l.step op = some r ∧ StepRefines l op r := by
  cases op with
  | append v => exact ⟨_, rfl, (appendRaw_standsFor h v).refines rfl⟩
  | pushFrontRaw v => exact ⟨_, rfl, (pushFrontRaw_standsFor h v).refines rfl⟩
  | insert i v => exact ⟨_, rfl, (insert_standsFor h i v).refines rfl⟩
  | insertRawClamped i v => exact ⟨_, rfl, (insertRawClamped_standsFor h i v).refines rfl⟩
  | pop index => exact pop_refines h hfits
  | getitem i => exact getitem_refines h hfits
  | setitem i v => exact setitem_refines h hfits v
  | promoteBoolStorage =>
    obtain ⟨pre, heq⟩ := promoteBoolStorage_eq h
    have hsame : l.promoteBoolStorage.StandsFor l.contents := ⟨by simp [heq], by simp [heq]⟩
    exact ⟨_, rfl, hsame.refines rfl⟩
  | normalizeStorage =>
    have heq := normalizeStorage_eq h
    have hsame : l.normalizeStorage.StandsFor l.contents := ⟨by simp [heq, create], by simp [heq, create]⟩
    exact ⟨_, rfl, hsame.refines rfl⟩

theorem step_aborts {l : PyList Obj} {op : ListOp Obj} (hfits : ¬ Fits l.contents op) : l.step op = none := by
  cases op with
  | pop index =>
    cases index with
    | none => exact absurd trivial hfits
    | some i =>
      obtain ⟨hne, hi⟩ : l.contents ≠ [] ∧ ¬ fitsSlong i = true := by simpa [Fits] using hfits
      have hempty : ¬ l.empty = true := by simp [empty, logicalSize_eq, hne]
      show l.pop (some i) = none
      unfold pop
      rw [if_neg hempty]
      simp only [if_neg hi]
  | getitem i => exact if_neg hfits
  | setitem i v => exact if_neg hfits
  | _ => exact absurd trivial hfits

/-- No operation aborts, each leaves the invariant in place, and the lists stood for and the replies are those of the
same operations on a mathematical list. -/
def RunRefines (l : PyList Obj) (ops : List (ListOp Obj)) : Prop :=
  ∃ rs, l.run ops = some rs ∧ (∀ r ∈ rs, r.1.Inv) ∧
    rs.map (fun r => (r.1.contents, r.2.toOption)) = listRun l.contents ops

/-- **Refinement of a run.** From any list with the invariant, it holds exactly when every index that goes through `as_i64` fits in 64 bits. -/
theorem run_refines_iff {l : PyList Obj} (h : l.Inv) (ops : List (ListOp Obj)) :
    RunRefines l ops ↔ FitsRun l.contents ops := by
  induction ops generalizing l with
  | nil => exact ⟨fun _ => trivial, fun _ => ⟨[], rfl, nofun, rfl⟩⟩
  | cons op ops ih =>
    by_cases hfits : Fits l.contents op
    · obtain ⟨r, hr, hinv, heq⟩ := step_refines h hfits
      have hrun : l.run (op :: ops) = (r.1.run ops).bind fun rs => some (r :: rs) := by
        simp [run, hr]
      have hcontents : r.1.contents = (listStep l.contents op).1 := congrArg Prod.fst heq
      have ih := ih hinv
      rw [hcontents] at ih
      unfold RunRefines at ih ⊢
      rw [hrun]
      show _ ↔ _ ∧ _
      rw [← ih]
      refine ⟨?_, ?_⟩
      · intro h
        obtain ⟨rs', hrs', hall, hmap⟩ := h
        obtain ⟨rs, hrs, hcons⟩ := Option.bind_eq_some_iff.1 hrs'
        obtain rfl := Option.some.inj hcons
        refine ⟨hfits, rs, hrs, fun q hq => hall q (List.mem_cons_of_mem _ hq), ?_⟩
        rw [hcontents]
        exact (List.cons.inj hmap).2
      · intro h
        obtain ⟨-, rs, hrs, hall, hmap⟩ := h
        refine ⟨r :: rs, by rw [hrs]; rfl, ?_, ?_⟩
        · intro q hq
          rcases List.mem_cons.1 hq with rfl | hq
          · exact hinv
          · exact hall q hq
        · rw [List.map_cons, hmap, heq, hcontents]
          rfl
    · refine ⟨?_, fun hrun => absurd hrun.1 hfits⟩
      intro h
      obtain ⟨rs, hrs, -⟩ := h
      have hnone : l.run (op :: ops) = none := by simp [run, step_aborts hfits]
      rw [hnone] at hrs
      cases hrs

/-- `[False] * 2`, given a `1` at the end, another object in front and an item outside the list: the storage changes
twice. -/
theorem run_refines_history :
    RunRefines (createBoolFilled 2 false) [.append (.obj 1), .pushFrontRaw (.obj 2), .pop (some (-4)), .getitem 7] :=
  (run_refines_iff (inv_createBoolFilled 2 false).1 _).2
    ⟨trivial, trivial, fun _ => rfl, rfl, trivial⟩

/-- `[True].pop(2 ** 63)` is an `IndexError` of a list; here it aborts. -/
theorem pop_big_index : ¬ RunRefines (create [.bool true] : PyList Nat) [.pop (some (2 ^ 63))] := by
  intro h
  obtain ⟨rs, hrs, -⟩ := h
  have hnone : (create [.bool true] : PyList Nat).run [.pop (some (2 ^ 63))] = none := by decide
  rw [hnone] at hrs
  cases hrs

end PyList

end Pylang.Runtime
