/-
`==` and `!=` on `int`, `bool`, `str`, `None`, `list` and `tuple`.

`PyNumber::__eq__` and `PyString::__eq__` answer an operand of another class
with an error where the others answer `NotImplemented` or `False`, and
`PyObject::eq` returns it; `PyObject::richcompare`, which compares the elements
of two containers, drops it. `PyObject::__ne__` takes `NotImplemented` for
true. Where none of this is met the two operators agree (`equalityOk_iff`).
-/
import Pylang.Tagged.RtValue

namespace Pylang.Tagged

/-! ## Objects -/

inductive Word (α : Type) where
  | tagged (w : TaggedWord)
  | ptr (object : α)

/-- An object and its address. `None`, `True` and `False` are one object each; a `PyInteger` has no address when `box`
has made it for the operation at hand. -/
inductive PyObject where
  | none
  | bool (value : Bool)
  | integer (addr : Option Nat) (value : Int)
  | string (addr : Nat) (value : String)
  | list (addr : Nat) (elements : List (Word PyObject))
  | tuple (addr : Nat) (elements : List (Word PyObject))

inductive PyClass where
  | none | bool | integer | string | list | tuple
deriving DecidableEq

def PyClass.name : PyClass → String
  | .none => "NoneType"
  | .bool => "bool"
  | .integer => "int"
  | .string => "str"
  | .list => "list"
  | .tuple => "tuple"

def PyClass.issubclass (type base : PyClass) : Bool := type = base || (type = .bool && base = .integer)

namespace PyObject

def type : PyObject → PyClass
  | .none => .none
  | .bool _ => .bool
  | .integer _ _ => .integer
  | .string _ _ => .string
  | .list _ _ => .list
  | .tuple _ _ => .tuple

/-- Whether both are one object. -/
def same : PyObject → PyObject → Bool
  | .none, .none => true
  | .bool a, .bool b => a = b
  | .integer (some a) _, .integer (some b) _ => a = b
  | .string a _, .string b _ => a = b
  | .list a _, .list b _ => a = b
  | .tuple a _, .tuple b _ => a = b
  | _, _ => false

def elements : PyObject → List (Word PyObject)
  | .list _ es => es
  | .tuple _ es => es
  | _ => []

/-- `PyNumber::as_number`. -/
def isNumber (obj : PyObject) : Bool := obj.type.issubclass .integer

end PyObject

/-- Whether the thread has a `RuntimeContext`, and where the cache of small integers has its objects. -/
structure Runtime where
  hasCurrent : Bool
  cached : Int → Option Nat

def Runtime.box (R : Runtime) : Word PyObject → PyObject
  | .tagged w => .integer (R.cached w.asInt.toInt) w.asInt.toInt
  | .ptr object => object

/-! ## The slots -/

def notSupported (op : String) (this other : PyObject) : String :=
  let l := this.type.name
  let r := other.type.name
  s!"'{op}' not supported between instances of '{l}' and '{r}'"

/-- The `__eq__` slot of the class of `this`, with what `std::equal` gives on the elements of both; nothing is
`NotImplemented`. -/
def slotEq (equal : Bool) (this other : PyObject) : Except String (Option Bool) :=
  match this with
  | .integer _ n =>
    match other with
    | .integer _ m => .ok (some (n = m))
    | _ => .error (notSupported "==" this other)
  -- `as<PyInteger>(this)` asks for the class `int`
  | .bool _ => .error (notSupported "==" this other)
  | .string _ s =>
    if this.same other then .ok (some true)
    else
      match other with
      | .string _ t => .ok (some (s = t))
      | _ => .error (notSupported "==" this other)
  | .list _ es =>
    match other with
    | .list _ fs => .ok (some (es.length = fs.length && equal))
    | _ => .ok (some false)
  | .tuple _ es =>
    match other with
    | .tuple _ fs => .ok (some (es.length = fs.length && equal))
    | _ => .ok (some false)
  -- `PyObject::__eq__`
  | .none => .ok (if this.same other then some true else none)

/-- `PyObject::__ne__`, which no class but the numbers and `str` redefines. -/
def objectNe (equal : Bool) (this other : PyObject) : Except String (Option Bool) := do
  match ← slotEq equal this other with
  | some result => return some (!result)
  -- `is_true(NotImplemented)`
  | none => return some false

/-- The `__ne__` slot. -/
def slotNe (equal : Bool) (this other : PyObject) : Except String (Option Bool) :=
  match this with
  | .integer _ _ | .bool _ =>
    if other.isNumber then do
      match ← slotEq equal this other with
      | some result => return some (!result)
      | none => return some true
    else .error (notSupported "!=" this other)
  | .string _ s =>
    if this.same other then .ok (some false)
    else
      match other with
      | .string _ t => .ok (some (s ≠ t))
      | _ => .error (notSupported "!=" this other)
  | _ => objectNe equal this other

/-- `PyObject::eq` and `PyObject::ne`: the slot of a class derived from that of `this` comes first, and an error is
returned. `equal` and `equal'` are what `std::equal` gives on the elements of both, in the one order and the other. -/
def operate (slot : Bool → PyObject → PyObject → Except String (Option Bool)) (whenSame : Bool) (equal equal' : Bool)
    (this other : PyObject) : Except String Bool := do
  if this.same other then return whenSame
  let checkedReverseOp := this.type ≠ other.type && other.type.issubclass this.type
  if checkedReverseOp then
    if let some result ← slot equal' other this then return result
  if let some result ← slot equal this other then return result
  if !checkedReverseOp then
    if let some result ← slot equal' other this then return result
  return !whenSame

def eq : Bool → Bool → PyObject → PyObject → Except String Bool := operate slotEq true

def ne : Bool → Bool → PyObject → PyObject → Except String Bool := operate slotNe false

/-- `PyObject::richcompare` for `Py_EQ`. -/
def richcompareEq (equal equal' : Bool) (this other : PyObject) : Bool :=
  match eq equal equal' this other with
  | .ok result => result
  | .error _ =>
    match eq equal' equal other this with
    | .ok result => result
    | .error _ => this.same other

namespace Runtime

variable (R : Runtime)

theorem sizeOf_elements_box (x : Word PyObject) (xs : List (Word PyObject)) :
    sizeOf (R.box x).elements < sizeOf (x :: xs) := by
  cases x with
  | tagged w => simp [box, PyObject.elements]; omega
  | ptr object => cases object <;> simp [box, PyObject.elements] <;> omega

/-- `std::equal` on the elements of two lists or tuples of one size: two elements are compared by
`RuntimeContext::equals`, if there is a context. -/
def equalElements : List (Word PyObject) → List (Word PyObject) → Bool
  | [], [] => true
  | x :: xs, y :: ys =>
    R.hasCurrent &&
      richcompareEq (equalElements (R.box x).elements (R.box y).elements)
        (equalElements (R.box y).elements (R.box x).elements) (R.box x) (R.box y) && equalElements xs ys
  | _, _ => false
termination_by es fs => sizeOf es + sizeOf fs
decreasing_by
  · have hx := R.sizeOf_elements_box x xs
    have hy := R.sizeOf_elements_box y ys
    omega
  · have hx := R.sizeOf_elements_box x xs
    have hy := R.sizeOf_elements_box y ys
    omega
  · simp
    omega

/-- Whether two words have the same bits. -/
def sameBits : Word PyObject → Word PyObject → Bool
  | .tagged v, .tagged w => v = w
  | .ptr a, .ptr b => a.same b
  | _, _ => false

/-- A comparison of two words: the same bits give one answer, since none of the classes is `float` or `complex`, and two
other tagged words the other; the rest is boxed, and `unwrap` throws the error. -/
def compare (op : Bool → Bool → PyObject → PyObject → Except String Bool) (whenSame : Bool) (lhs rhs : Word PyObject) :
    Except String Bool :=
  if sameBits lhs rhs then .ok whenSame
  else
    match lhs, rhs with
    | .tagged _, .tagged _ => .ok (!whenSame)
    | _, _ =>
      let l := R.box lhs
      let r := R.box rhs
      op (R.equalElements l.elements r.elements) (R.equalElements r.elements l.elements) l r

def compareEq : Word PyObject → Word PyObject → Except String Bool := R.compare eq true

def compareNe : Word PyObject → Word PyObject → Except String Bool := R.compare ne false

end Runtime

/-! ## What two objects give -/

/-- Equality by value, with what the elements give. -/
def natural (equal : Bool) : PyObject → PyObject → Bool
  | .none, .none => true
  | .bool a, .bool b => a = b
  | .integer _ n, .integer _ m => n = m
  | .string _ s, .string _ t => s = t
  | .list _ es, .list _ fs => es.length = fs.length && equal
  | .tuple _ es, .tuple _ fs => es.length = fs.length && equal
  | _, _ => false

section
variable {e e' : Bool} {x y : PyObject}

theorem same_comm (x y : PyObject) : x.same y = y.same x := by
  cases x with
  | none | bool | string | list | tuple => cases y <;> simp [PyObject.same, eq_comm]
  | integer addr n =>
    cases y with
    | none | bool | string | list | tuple => cases addr <;> rfl
    | integer addr' m => cases addr <;> cases addr' <;> simp [PyObject.same, eq_comm]

theorem same_type (h : x.same y = true) : x.type = y.type := by
  unfold PyObject.same at h
  split at h
  case h_7 => cases h
  all_goals rfl

theorem natural_comm (e : Bool) (x y : PyObject) : natural e x y = natural e y x := by
  cases x <;> cases y <;> simp [natural, eq_comm]

theorem natural_type (h : natural e x y = true) : x.type = y.type := by
  unfold natural at h
  split at h
  case h_7 => cases h
  all_goals rfl

theorem operate_same {slot : Bool → PyObject → PyObject → Except String (Option Bool)} {b : Bool}
    (h : x.same y = true) : operate slot b e e' x y = .ok b := by
  unfold operate
  rw [if_pos h]
  rfl

/-- The classes of which `==` and `!=` answer each other. -/
inductive Alike : PyClass → PyClass → Prop
  | integer : Alike .integer .integer
  | string : Alike .string .string
  | list : Alike .list .list
  | tuple : Alike .tuple .tuple
  | listTuple : Alike .list .tuple
  | tupleList : Alike .tuple .list

theorem Alike.symm {s t : PyClass} (h : Alike s t) : Alike t s := by
  cases h <;> constructor

theorem Alike.not_derived {s t : PyClass} (h : Alike s t) : (s ≠ t && t.issubclass s) = false := by
  cases h <;> rfl

theorem operate_answer {slot : Bool → PyObject → PyObject → Except String (Option Bool)} {b r : Bool}
    (hsame : x.same y = false) (hderived : (x.type ≠ y.type && y.type.issubclass x.type) = false)
    (h : slot e x y = .ok (some r)) : operate slot b e e' x y = .ok r := by
  unfold operate
  rw [if_neg (by simp [hsame]), hderived, h]
  rfl

theorem slotEq_alike (h : Alike x.type y.type) (hsame : x.same y = false) :
    slotEq e x y = .ok (some (natural e x y)) := by
  cases x <;> cases y <;> cases h <;> simp [slotEq, natural, hsame]

theorem slotNe_alike (h : Alike x.type y.type) (hsame : x.same y = false) :
    slotNe e x y = .ok (some (!natural e x y)) := by
  have heq := slotEq_alike (e := e) h hsame
  cases x <;> cases y <;> cases h
  case string.string => simp [slotNe, natural, hsame]
  all_goals
    simp only [slotNe, objectNe, heq]
    rfl

theorem eq_alike (h : Alike x.type y.type) (hsame : x.same y = false) : eq e e' x y = .ok (natural e x y) :=
  operate_answer hsame h.not_derived (slotEq_alike h hsame)

theorem ne_alike (h : Alike x.type y.type) (hsame : x.same y = false) : ne e e' x y = .ok (!natural e x y) :=
  operate_answer hsame h.not_derived (slotNe_alike h hsame)

theorem operate_error {slot : Bool → PyObject → PyObject → Except String (Option Bool)} {b : Bool} {m : String}
    (hsame : x.same y = false) (hderived : (x.type ≠ y.type && y.type.issubclass x.type) = false)
    (h : slot e x y = .error m) : operate slot b e e' x y = .error m := by
  unfold operate
  rw [if_neg (by simp [hsame]), hderived, h]
  rfl

theorem eq_bool (hx : x.type = .bool) (hsame : x.same y = false) : ∃ m, eq e e' x y = .error m := by
  cases x with
  | bool a => exact ⟨_, operate_error hsame (by cases y <;> rfl) rfl⟩
  | none | integer | string | list | tuple => cases hx

theorem eq_integer (hx : x.type = .integer) (hy : y.type ≠ .integer) : ∃ m, eq e e' x y = .error m := by
  cases x with
  | integer addr n =>
    cases y with
    | integer => exact absurd rfl hy
    | none | string | list | tuple => exact ⟨_, operate_error (by cases addr <;> rfl) rfl rfl⟩
    -- the class derived from `int` comes first
    | bool b =>
      refine ⟨notSupported "==" (.bool b) (.integer addr n), ?_⟩
      cases addr <;> rfl
  | none | bool | string | list | tuple => cases hx

theorem eq_string (hx : x.type = .string) (hy : y.type ≠ .string) : ∃ m, eq e e' x y = .error m := by
  cases x with
  | string addr s =>
    cases y with
    | string => exact absurd rfl hy
    | none | bool | integer | list | tuple => exact ⟨_, operate_error rfl rfl rfl⟩
  | none | bool | integer | list | tuple => cases hx

def PyClass.isContainer (type : PyClass) : Bool := type = .list || type = .tuple

theorem eq_container (hx : x.type.isContainer = true) (hy : y.type.isContainer = false) :
    eq e e' x y = .ok false := by
  have hsame : x.same y = false := by
    cases hs : x.same y with
    | false => rfl
    | true => rw [same_type hs, hy] at hx; cases hx
  cases x with
  | list | tuple =>
    cases y with
    | none | bool | integer | string => exact operate_answer hsame rfl rfl
    | list | tuple => cases hy
  | none | bool | integer | string => cases hx

theorem eq_none (hx : x.type = .none) (hy : y.type.isContainer = true) :
    eq e e' x y = .ok false ∧ ne e e' x y = .ok false := by
  cases x with
  | none =>
    cases y with
    | list | tuple => exact ⟨rfl, rfl⟩
    | none | bool | integer | string => cases hy
  | bool | integer | string | list | tuple => cases hx

theorem eq_none_error (hx : x.type = .none) (hy : y.type.isContainer = false) (hsame : x.same y = false) :
    ∃ m, eq e e' x y = .error m := by
  cases x with
  | none =>
    cases y with
    | none => cases hsame
    | bool | integer | string => exact ⟨_, rfl⟩
    | list | tuple => cases hy
  | bool | integer | string | list | tuple => cases hx

theorem natural_of_ne (h : x.type ≠ y.type) : natural e x y = false := by
  cases hn : natural e x y with
  | false => rfl
  | true => exact absurd (natural_type hn) h

theorem alike_containers {s t : PyClass} (hs : s.isContainer = true) (ht : t.isContainer = true) : Alike s t := by
  cases s <;> cases hs <;> cases t <;> cases ht <;> constructor

/-- Two objects of equal value are of one class, and not `None`, `True` or `False` if they are two. -/
theorem alike_of_natural (hsame : x.same y = false) (hn : natural e x y = true) : Alike x.type y.type := by
  have htype := natural_type hn
  cases x with
  | none =>
    cases y with
    | none => cases hsame
    | bool | integer | string | list | tuple => cases htype
  | bool a =>
    cases y with
    | bool b => exact absurd hn (by rw [show natural e (.bool a) (.bool b) = _ from hsame]; exact nofun)
    | none | integer | string | list | tuple => cases htype
  | integer => rw [← htype]; exact .integer
  | string => rw [← htype]; exact .string
  | list => rw [← htype]; exact .list
  | tuple => rw [← htype]; exact .tuple

/-- What `==` answers is equality by value. -/
theorem eq_ok {r : Bool} (hsame : x.same y = false) (h : eq e e' x y = .ok r) : r = natural e x y := by
  have halike : Alike x.type y.type → r = natural e x y := fun ha =>
    Except.ok.inj (h.symm.trans (eq_alike ha hsame))
  have herror : ¬ ∃ m, eq e e' x y = .error m := fun ⟨m, hm⟩ => by
    rw [h] at hm
    cases hm
  cases hx : x.type with
  | bool => exact absurd (eq_bool hx hsame) herror
  | integer =>
    by_cases hy : y.type = .integer
    · exact halike (by rw [hx, hy]; exact .integer)
    · exact absurd (eq_integer hx hy) herror
  | string =>
    by_cases hy : y.type = .string
    · exact halike (by rw [hx, hy]; exact .string)
    · exact absurd (eq_string hx hy) herror
  | list | tuple =>
    cases hy : y.type.isContainer with
    | true => exact halike (alike_containers (by rw [hx]; rfl) hy)
    | false =>
      rw [natural_of_ne (fun heq => by rw [← heq, hx] at hy; cases hy)]
      exact Except.ok.inj (h.symm.trans (eq_container (by rw [hx]; rfl) hy))
  | none =>
    cases hy : y.type.isContainer with
    | true =>
      rw [natural_of_ne (fun heq => by rw [← heq, hx] at hy; cases hy)]
      exact Except.ok.inj (h.symm.trans (eq_none hx hy).1)
    | false => exact absurd (eq_none_error hx hy hsame) herror

/-- The comparison of elements is equality by value, and of different classes sameness. -/
theorem richcompareEq_eq : richcompareEq e e x y = (x.same y || natural e x y) := by
  cases hsame : x.same y with
  | true =>
    unfold richcompareEq
    rw [show eq e e x y = .ok true from operate_same hsame]
    rfl
  | false =>
    rw [Bool.false_or]
    unfold richcompareEq
    cases hxy : eq e e x y with
    | ok r => exact eq_ok hsame hxy
    | error m =>
      cases hyx : eq e e y x with
      | ok r => exact (eq_ok (same_comm x y ▸ hsame) hyx).trans (natural_comm e y x)
      | error m' =>
        show x.same y = _
        rw [hsame]
        cases hn : natural e x y with
        | false => rfl
        | true =>
          rw [eq_alike (alike_of_natural hsame hn) hsame] at hxy
          cases hxy

/-- Where both orders are answered, and each by both operators, the classes are alike. -/
theorem alike_of_ok {r : Bool} (hsame : x.same y = false) (hxy : eq e e' x y = .ok r) (hyx : eq e' e y x = .ok r)
    (hne : ne e e' x y = .ok (!r)) (hne' : ne e' e y x = .ok (!r)) : Alike x.type y.type := by
  have herror : ¬ ∃ m, eq e e' x y = .error m := fun ⟨m, hm⟩ => by
    rw [hxy] at hm
    cases hm
  have herror' : ¬ ∃ m, eq e' e y x = .error m := fun ⟨m, hm⟩ => by
    rw [hyx] at hm
    cases hm
  -- the answers of `None` contradict each other
  have hnone : ∀ {z w : PyObject} {d d' : Bool}, eq d d' z w = .ok r → ne d d' z w = .ok (!r) → z.type = .none →
      w.type.isContainer = true → False := fun heq hneq hz hw => by
    obtain ⟨h1, h2⟩ := eq_none hz hw
    rw [Except.ok.inj (heq.symm.trans h1)] at hneq
    cases hneq.symm.trans h2
  cases hx : x.type with
  | bool => exact absurd (eq_bool hx hsame) herror
  | integer =>
    by_cases hy : y.type = .integer
    · rw [hy]; exact .integer
    · exact absurd (eq_integer hx hy) herror
  | string =>
    by_cases hy : y.type = .string
    · rw [hy]; exact .string
    · exact absurd (eq_string hx hy) herror
  | none =>
    cases hy : y.type.isContainer with
    | true => exact (hnone hxy hne hx hy).elim
    | false => exact absurd (eq_none_error hx hy hsame) herror
  | list | tuple =>
    have hcontainer : x.type.isContainer = true := by rw [hx]; rfl
    cases hy : y.type with
    | list | tuple => constructor
    | none => exact (hnone hyx hne' hy hcontainer).elim
    | bool => exact absurd (eq_bool hy (same_comm x y ▸ hsame)) herror'
    | integer => exact absurd (eq_integer hy (by rw [hx]; decide)) herror'
    | string => exact absurd (eq_string hy (by rw [hx]; decide)) herror'

namespace Runtime

variable {R : Runtime}

/-- `std::equal` gives the same on the elements in either order. -/
theorem equalElements_comm (es fs : List (Word PyObject)) : R.equalElements es fs = R.equalElements fs es := by
  fun_induction R.equalElements es fs with
  | case1 => rw [equalElements]
  | case2 x xs y ys _ ih ihs =>
    rw [equalElements, ih, ihs, richcompareEq_eq, richcompareEq_eq, same_comm, natural_comm]
  | case3 es fs hnil hcons =>
    cases es with
    | nil =>
      cases fs with
      | nil => exact absurd rfl (hnil rfl)
      | cons => rw [equalElements] <;> simp
    | cons =>
      cases fs with
      | nil => rw [equalElements] <;> simp
      | cons => exact absurd rfl (hcons _ _ _ _ rfl)

theorem sameBits_comm (a b : Word PyObject) : sameBits a b = sameBits b a := by
  cases a <;> cases b <;> simp [sameBits, same_comm, eq_comm]

theorem compare_box {op : Bool → Bool → PyObject → PyObject → Except String Bool} {whenSame : Bool}
    {a b : Word PyObject} (hbits : sameBits a b = false) (h : ∀ v w, a = .tagged v → b ≠ .tagged w) :
    R.compare op whenSame a b =
      op (R.equalElements (R.box a).elements (R.box b).elements) (R.equalElements (R.box b).elements (R.box a).elements)
        (R.box a) (R.box b) := by
  unfold compare
  rw [if_neg (by simp [hbits])]
  split
  next v w => exact absurd rfl (h v w rfl)
  next => rfl

variable (R) in
/-- Neither of the two is raised an error on, `==` is symmetric on them, and `!=` is its negation. -/
def EqualityOk (a b : Word PyObject) : Prop :=
  ∃ r, R.compareEq a b = .ok r ∧ R.compareEq b a = .ok r ∧ R.compareNe a b = .ok (!r) ∧ R.compareNe b a = .ok (!r)

theorem compare_of_bits {op : Bool → Bool → PyObject → PyObject → Except String Bool} {whenSame : Bool}
    {a b : Word PyObject} (h : sameBits a b = true) : R.compare op whenSame a b = .ok whenSame := if_pos h

theorem equalityOk_bits {a b : Word PyObject} (h : sameBits a b = true) : R.EqualityOk a b :=
  have h' : sameBits b a = true := sameBits_comm a b ▸ h
  ⟨true, compare_of_bits h, compare_of_bits h', compare_of_bits h, compare_of_bits h'⟩

theorem equalityOk_alike {a b : Word PyObject} (h : Alike (R.box a).type (R.box b).type) : R.EqualityOk a b := by
  cases hbits : sameBits a b with
  | true => exact equalityOk_bits hbits
  | false =>
    have hbits' : sameBits b a = false := sameBits_comm a b ▸ hbits
    by_cases htagged : ∀ v w, a = .tagged v → b ≠ .tagged w
    · have htagged' : ∀ v w, b = .tagged v → a ≠ .tagged w := fun v w hb ha => htagged w v ha hb
      unfold EqualityOk compareEq compareNe
      rw [compare_box hbits htagged, compare_box hbits' htagged', compare_box hbits htagged, compare_box hbits' htagged']
      rw [equalElements_comm (R.box b).elements]
      cases hsame : (R.box a).same (R.box b) with
      | true =>
        have hsame' : (R.box b).same (R.box a) = true := same_comm (R.box a) _ ▸ hsame
        exact ⟨true, operate_same hsame, operate_same hsame', operate_same hsame, operate_same hsame'⟩
      | false =>
        have hsame' : (R.box b).same (R.box a) = false := same_comm (R.box a) _ ▸ hsame
        refine ⟨_, eq_alike h hsame, ?_, ne_alike h hsame, ?_⟩
        · rw [natural_comm]
          exact eq_alike h.symm hsame'
        · rw [natural_comm]
          exact ne_alike h.symm hsame'
    · obtain ⟨v, w, rfl, rfl⟩ : ∃ v w, a = .tagged v ∧ b = .tagged w := by simpa using htagged
      exact ⟨false, if_neg (by simp [hbits]), if_neg (by simp [hbits']), if_neg (by simp [hbits]), if_neg (by simp [hbits'])⟩

theorem same_box {a b : Word PyObject} (h : (R.box a).same (R.box b) = true) :
    sameBits a b = true ∨ Alike (R.box a).type (R.box b).type := by
  have htype := same_type h
  cases a with
  | tagged v => exact .inr (by rw [← htype]; exact .integer)
  | ptr x =>
    cases b with
    | tagged w => exact .inr (by rw [htype]; exact .integer)
    | ptr y => exact .inl h

/-- **Equality.** On two values neither operator raises an error, `==` is symmetric and `!=` its negation, exactly when
they are one word or one object, two integers, two strings, or each a list or tuple. -/
theorem equalityOk_iff (a b : Word PyObject) :
    R.EqualityOk a b ↔ sameBits a b = true ∨ Alike (R.box a).type (R.box b).type := by
  refine ⟨fun ⟨r, heq, heq', hne, hne'⟩ => ?_, fun h => h.elim equalityOk_bits equalityOk_alike⟩
  cases hbits : sameBits a b with
  | true => exact .inl rfl
  | false =>
    have hbits' : sameBits b a = false := sameBits_comm a b ▸ hbits
    cases hsame : (R.box a).same (R.box b) with
    | true => exact (same_box hsame).imp_left fun h => absurd (h.symm.trans hbits) (by decide)
    | false =>
      by_cases htagged : ∀ v w, a = .tagged v → b ≠ .tagged w
      · have htagged' : ∀ v w, b = .tagged v → a ≠ .tagged w := fun v w hb ha => htagged w v ha hb
        unfold compareEq at heq heq'
        unfold compareNe at hne hne'
        rw [compare_box hbits htagged] at heq hne
        rw [compare_box hbits' htagged'] at heq' hne'
        exact .inr (alike_of_ok hsame heq heq' hne hne')
      · obtain ⟨v, w, rfl, rfl⟩ : ∃ v w, a = .tagged v ∧ b = .tagged w := by simpa using htagged
        exact .inr .integer

end Runtime

end

namespace Runtime

/-- The tagged word of 1 and `True`. -/
theorem one_eq_true : ¬ ∀ (R : Runtime) (a b : Word PyObject), R.EqualityOk a b := by
  intro hall
  obtain ⟨r, heq, -⟩ := hall ⟨true, fun _ => some 0⟩ (.tagged (fromInt 1)) (.ptr (.bool true))
  have herror : ∃ m, compareEq ⟨true, fun _ => some 0⟩ (.tagged (fromInt 1)) (.ptr (.bool true)) = .error m := by
    unfold compareEq
    rw [compare_box rfl fun v w _ hb => by cases hb]
    exact eq_integer rfl nofun
  obtain ⟨m, hm⟩ := herror
  cases heq.symm.trans hm

end Runtime

end Pylang.Tagged
