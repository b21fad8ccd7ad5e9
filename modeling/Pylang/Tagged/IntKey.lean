/-
`RtValueHash` and `RtValueEq` on the integers of a `dict` or `set`: a tagged
word, or the address of a `PyInteger`.

A `PyInteger` is an `int`, a `bool`, or of a class derived from `int`. The hash
is that of the integer for all of them. Equality goes through
`as<PyInteger>`, which only an object whose class is `int` itself passes, so
that two words for one integer are related just if they are one word or both
are `int` (`keysAgree_iff`).
-/
import Pylang.Tagged.RtValue

namespace Pylang.Tagged

/-! ## The hash of an integer -/

/-- `kPyHashModulus`. -/
def kPyHashModulus : Nat := 2 ^ 61 - 1

def normalizePythonHash (h : Int) : Int := if h = -1 then -2 else h

/-- `hash_big_int`; `mpz_tdiv_ui` returns the remainder of the magnitude. -/
def hashBigInt (val : Int) : Int :=
  let sign := val.sign
  if sign = 0 then 0
  else
    let absRem := val.natAbs % kPyHashModulus
    let h : Int := absRem
    normalizePythonHash (if sign < 0 then -h else h)

/-- `PyInteger::__hash__`. -/
def pyIntegerHash (val : Int) : Int :=
  if val.sign = 0 then 0
  else if fitsSlong val && (-(kPyHashModulus : Int) < val && val < kPyHashModulus) then normalizePythonHash val
  else hashBigInt val

/-- The hash of an integer: its sign times the magnitude modulo `2 ^ 61 - 1`, and `-2` for `-1`. -/
def intHash (n : Int) : Int := normalizePythonHash (n.sign * (n.natAbs % kPyHashModulus : Nat))

theorem hashBigInt_eq (n : Int) : hashBigInt n = intHash n := by
  unfold hashBigInt intHash
  rcases Int.lt_trichotomy n 0 with hneg | rfl | hpos
  · rw [Int.sign_eq_neg_one_of_neg hneg]
    simp
  · rfl
  · rw [Int.sign_eq_one_of_pos hpos]
    simp

/-- Below the modulus the remainder is the number itself. -/
theorem pyIntegerHash_eq (n : Int) : pyIntegerHash n = intHash n := by
  unfold pyIntegerHash
  split
  next h0 =>
    obtain rfl := Int.sign_eq_zero_iff_zero.1 h0
    rfl
  next =>
    split
    next h =>
      simp only [Bool.and_eq_true, decide_eq_true_eq] at h
      have hmod : n.natAbs % kPyHashModulus = n.natAbs := Nat.mod_eq_of_lt (by omega)
      unfold intHash
      rw [hmod, Int.sign_mul_natAbs]
    next => exact hashBigInt_eq n

/-! ## Objects -/

/-- The class of a `PyInteger`: `int`, `bool`, or one derived from `int` that has its `__eq__` and `__hash__`. -/
inductive IntClass where
  | integer
  | bool
  | derived (id : Nat) (name : String)
deriving DecidableEq

def IntClass.name : IntClass → String
  | .integer => "int"
  | .bool => "bool"
  | .derived _ name => name

structure PyInteger where
  type : IntClass
  value : Int
deriving DecidableEq

/-- The objects by address, how classes derive from each other, and where `box` puts the integer of a tagged word:
an address that the cache of small integers holds, or a new one. -/
structure IntHeap where
  object : Nat → PyInteger
  issubclass : IntClass → IntClass → Bool
  boxed : Int → Nat
  object_boxed : ∀ n, object (boxed n) = ⟨.integer, n⟩

inductive IntWord where
  | null
  | tagged (w : TaggedWord)
  | ptr (addr : Nat)
deriving DecidableEq

namespace IntHeap

variable (H : IntHeap)

/-- `PyNumber::__eq__`: both are numbers, but `as<PyInteger>` asks for the class `int`. -/
def numberEq (lhs rhs : Nat) : Except String Bool :=
  if (H.object lhs).type = .integer ∧ (H.object rhs).type = .integer then
    .ok (decide ((H.object lhs).value = (H.object rhs).value))
  else
    let l := (H.object lhs).type.name
    let r := (H.object rhs).type.name
    .error s!"'==' not supported between instances of '{l}' and '{r}'"

/-- `PyObject::eq`. Every class has a slot for `__eq__`, and none of them is `NotImplemented`. -/
def eq (this other : Nat) : Except String Bool :=
  if this = other then .ok true
  else if (H.object this).type ≠ (H.object other).type ∧
      H.issubclass (H.object other).type (H.object this).type = true then
    H.numberEq other this
  else H.numberEq this other

/-- `PyObject::richcompare` for `Py_EQ`: an error on both sides leaves the comparison of addresses. -/
def richcompareEq (this other : Nat) : Bool :=
  match H.eq this other with
  | .ok result => result
  | .error _ =>
    match H.eq other this with
    | .ok result => result
    | .error _ => decide (this = other)

/-- `PyObject::hash`. -/
def hash (addr : Nat) : Int := pyIntegerHash (H.object addr).value

def box : IntWord → Option Nat
  | .null => none
  | .tagged w => some (H.boxed w.asInt.toInt)
  | .ptr addr => some addr

/-- `RtValueHash`. -/
def rtValueHash : IntWord → BitVec 64
  | .null => 0
  | .tagged w => BitVec.ofInt 64 (hashBigInt w.asInt.toInt)
  | .ptr addr => BitVec.ofInt 64 (H.hash addr)

/-- `RtValueEq`. -/
def rtValueEq (lhs rhs : IntWord) : Bool :=
  if lhs = rhs then true
  else
    match lhs, rhs with
    | .null, _ => false
    | _, .null => false
    | .tagged l, .tagged r => l.asInt = r.asInt
    | .tagged l, .ptr r => H.richcompareEq (H.boxed l.asInt.toInt) r
    | .ptr l, .tagged r => H.richcompareEq l (H.boxed r.asInt.toInt)
    | .ptr l, .ptr r => H.richcompareEq l r

/-! ## What a word stands for -/

/-- The object that a word is or is boxed to. -/
def view : IntWord → Option PyInteger
  | .null => none
  | .tagged w => some ⟨.integer, w.asInt.toInt⟩
  | .ptr addr => some (H.object addr)

theorem rtValueHash_eq {x : IntWord} {o : PyInteger} (hx : H.view x = some o) :
    H.rtValueHash x = BitVec.ofInt 64 (intHash o.value) := by
  cases x with
  | null => cases hx
  | tagged w =>
    obtain rfl := Option.some.inj hx
    exact congrArg (BitVec.ofInt 64) (hashBigInt_eq _)
  | ptr addr =>
    obtain rfl := Option.some.inj hx
    exact congrArg (BitVec.ofInt 64) (pyIntegerHash_eq _)

theorem eq_error {a b : Nat} (hab : a ≠ b) (h : ¬ ((H.object a).type = .integer ∧ (H.object b).type = .integer)) :
    ∃ e, H.eq a b = .error e := by
  have h' : ¬ ((H.object b).type = .integer ∧ (H.object a).type = .integer) := fun hc => h ⟨hc.2, hc.1⟩
  unfold eq numberEq
  rw [if_neg hab, if_neg h, if_neg h']
  split
  · exact ⟨_, rfl⟩
  · exact ⟨_, rfl⟩

theorem eq_int {a b : Nat} (hab : a ≠ b) (h : (H.object a).type = .integer ∧ (H.object b).type = .integer) :
    H.eq a b = .ok (decide ((H.object a).value = (H.object b).value)) := by
  have hsame : ¬ ((H.object a).type ≠ (H.object b).type ∧
      H.issubclass (H.object b).type (H.object a).type = true) := fun hc => hc.1 (h.1.trans h.2.symm)
  unfold eq numberEq
  rw [if_neg hab, if_neg hsame, if_pos h]

/-- Two objects compare equal as one object, or as two of the class `int` with one value. -/
theorem richcompareEq_iff (a b : Nat) :
    H.richcompareEq a b = true ↔
      a = b ∨ ((H.object a).type = .integer ∧ (H.object b).type = .integer) ∧
        (H.object a).value = (H.object b).value := by
  unfold richcompareEq
  by_cases hab : a = b
  · have hok : H.eq a b = .ok true := if_pos hab
    rw [hok]
    simp [hab]
  · by_cases hint : (H.object a).type = .integer ∧ (H.object b).type = .integer
    · rw [H.eq_int hab hint]
      simp [hab, hint]
    · obtain ⟨e, he⟩ := H.eq_error hab hint
      obtain ⟨e', he'⟩ := H.eq_error (fun h => hab h.symm) (fun hc => hint ⟨hc.2, hc.1⟩)
      rw [he, he']
      simp [hab, hint]

/-- Two words are related as one word, or as two for one integer with the class `int`. -/
theorem rtValueEq_iff {x y : IntWord} {o p : PyInteger} (hx : H.view x = some o) (hy : H.view y = some p) :
    H.rtValueEq x y = true ↔ x = y ∨ (o.type = .integer ∧ p.type = .integer) ∧ o.value = p.value := by
  unfold rtValueEq
  by_cases hxy : x = y
  · simp [hxy]
  · rw [if_neg hxy]
    cases x with
    | null => cases hx
    | tagged l =>
      obtain rfl := Option.some.inj hx
      cases y with
      | null => cases hy
      | tagged r =>
        obtain rfl := Option.some.inj hy
        simp [hxy, BitVec.toInt_inj]
      | ptr b =>
        obtain rfl := Option.some.inj hy
        have hbox := H.object_boxed l.asInt.toInt
        show H.richcompareEq (H.boxed l.asInt.toInt) b = true ↔ _
        rw [H.richcompareEq_iff, hbox]
        refine ⟨fun h => .inr (h.elim (fun heq => ?_) id), fun h => .inr (h.resolve_left hxy)⟩
        rw [← heq, hbox]
        exact ⟨⟨rfl, rfl⟩, rfl⟩
    | ptr a =>
      obtain rfl := Option.some.inj hx
      cases y with
      | null => cases hy
      | tagged r =>
        obtain rfl := Option.some.inj hy
        have hbox := H.object_boxed r.asInt.toInt
        show H.richcompareEq a (H.boxed r.asInt.toInt) = true ↔ _
        rw [H.richcompareEq_iff, hbox]
        refine ⟨fun h => .inr (h.elim (fun heq => ?_) id), fun h => .inr (h.resolve_left hxy)⟩
        rw [heq, hbox]
        exact ⟨⟨rfl, rfl⟩, rfl⟩
      | ptr b =>
        obtain rfl := Option.some.inj hy
        have hptr : a = b ↔ IntWord.ptr a = .ptr b := ⟨congrArg _, IntWord.ptr.inj⟩
        show H.richcompareEq a b = true ↔ _
        rw [H.richcompareEq_iff, hptr]

/-- The hashes of two words are those of their integers, the words are related just if these are one integer, and
words that are related have one hash. -/
def KeysAgree (x y : IntWord) (o p : PyInteger) : Prop :=
  (H.rtValueHash x = BitVec.ofInt 64 (intHash o.value) ∧ H.rtValueHash y = BitVec.ofInt 64 (intHash p.value)) ∧
    (H.rtValueEq x y = true ↔ o.value = p.value) ∧
    (H.rtValueEq x y = true → H.rtValueHash x = H.rtValueHash y)

/-- **Integers as keys.** The one thing that can go wrong is that two words for one integer, one of which is a `bool` or
of a derived class, are not related. -/
theorem keysAgree_iff {x y : IntWord} {o p : PyInteger} (hx : H.view x = some o) (hy : H.view y = some p) :
    H.KeysAgree x y o p ↔ (o.value = p.value → x = y ∨ o.type = .integer ∧ p.type = .integer) := by
  have hiff := H.rtValueEq_iff hx hy
  have hvalue : x = y → o.value = p.value := by
    intro h
    obtain rfl := h
    rw [hx] at hy
    rw [Option.some.inj hy]
  refine ⟨fun h heq => (hiff.1 (h.2.1.2 heq)).imp_right And.left, fun h => ?_⟩
  have hrel : H.rtValueEq x y = true ↔ o.value = p.value := by
    rw [hiff]
    refine ⟨fun hor => hor.elim hvalue And.right, fun heq => (h heq).imp_right fun ht => ⟨ht, heq⟩⟩
  refine ⟨⟨H.rtValueHash_eq hx, H.rtValueHash_eq hy⟩, hrel, fun hr => ?_⟩
  rw [H.rtValueHash_eq hx, H.rtValueHash_eq hy, hrel.1 hr]

end IntHeap

/-- The objects of `True` at 0, `1` at 1 and of an instance of `class I(int)` for 1 at 2; small boxes follow. -/
def sampleHeap : IntHeap where
  object
    | 0 => ⟨.bool, 1⟩
    | 1 => ⟨.integer, 1⟩
    | 2 => ⟨.derived 0 "I", 1⟩
    | n + 3 => ⟨.integer, if n % 2 = 0 then (n / 2 : Nat) else -((n / 2 : Nat) : Int)⟩
  issubclass c d := decide (c = d ∨ d = .integer)
  boxed n := (if 0 ≤ n then 2 * n.toNat else 2 * n.natAbs + 1) + 3
  object_boxed n := by
    by_cases hn : 0 ≤ n
    · simp only [if_pos hn]
      rw [if_pos (by omega)]
      exact congrArg _ (by omega)
    · simp only [if_neg hn]
      rw [if_neg (by omega)]
      exact congrArg _ (by omega)

/-- A tagged `1` and the object `1` are one key. -/
theorem keysAgree_tagged_int :
    sampleHeap.KeysAgree (.tagged (fromInt 1)) (.ptr 1) ⟨.integer, 1⟩ ⟨.integer, 1⟩ :=
  (sampleHeap.keysAgree_iff (x := .tagged (fromInt 1)) (y := .ptr 1) (by decide) rfl).2 fun _ => .inr ⟨rfl, rfl⟩

/-- `1` and `True` stand for one integer and are not related, and so for the instance of `I`. -/
theorem keys_bool_derived :
    ¬ sampleHeap.KeysAgree (.tagged (fromInt 1)) (.ptr 0) ⟨.integer, 1⟩ ⟨.bool, 1⟩ ∧
      ¬ sampleHeap.KeysAgree (.ptr 1) (.ptr 2) ⟨.integer, 1⟩ ⟨.derived 0 "I", 1⟩ := by
  refine ⟨fun h => ?_, fun h => ?_⟩
  · have hfalse : sampleHeap.rtValueEq (.tagged (fromInt 1)) (.ptr 0) = false := by decide
    rw [h.2.1.2 rfl] at hfalse
    cases hfalse
  · have hfalse : sampleHeap.rtValueEq (.ptr 1) (.ptr 2) = false := by decide
    rw [h.2.1.2 rfl] at hfalse
    cases hfalse

end Pylang.Tagged
