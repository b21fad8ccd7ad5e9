/-
`RtValue`: an integer as a word with a tag bit, or as a `PyInteger` on the
heap; and the arithmetic that `RtValue` does on two tagged words before it
boxes them.

A pointer is replaced by the big integer it leads to: only its low bit, which
alignment keeps clear, is looked at besides.
-/
import Pylang.Lib.IntBits

namespace Pylang.Tagged

abbrev I64 := BitVec 64

def kTaggedIntMax : Int := 2 ^ 62 - 1
def kTaggedIntMin : Int := -2 ^ 62

def fitsTaggedInt (v : Int) : Bool := kTaggedIntMin ≤ v && v ≤ kTaggedIntMax

/-- A word with the tag bit set. -/
structure TaggedWord where
  bits : I64
  tag : bits &&& 1#64 = 1#64
deriving DecidableEq

def TaggedWord.asInt (w : TaggedWord) : I64 := w.bits.sshiftRight 1

theorem or_one_and_one (x : I64) : (x ||| 1#64) &&& 1#64 = 1#64 := by
  ext i hi
  simp only [BitVec.getElem_and, BitVec.getElem_or]
  cases (1#64)[i] <;> simp

def fromInt (value : I64) : TaggedWord := ⟨value <<< 1 ||| 1#64, or_one_and_one _⟩

inductive RtValue where
  | tagged (w : TaggedWord)
  | heap (n : Int)
deriving DecidableEq

/-- The value of the `PyInteger` that `box` returns: the integer this stands for. -/
def RtValue.box : RtValue → Int
  | .tagged w => w.asInt.toInt
  | .heap n => n

/-- `fits_slong_p`. -/
def fitsSlong (n : Int) : Bool := -2 ^ 63 ≤ n && n < 2 ^ 63

def RtValue.flatten : RtValue → RtValue
  | .tagged w => .tagged w
  | .heap n => if fitsSlong n && fitsTaggedInt n then .tagged (fromInt (BitVec.ofInt 64 n)) else .heap n

/-! ## The word format -/

theorem fitsTaggedInt_iff {n : Int} : fitsTaggedInt n = true ↔ -2 ^ 62 ≤ n ∧ n < 2 ^ 62 := by
  unfold fitsTaggedInt kTaggedIntMin kTaggedIntMax
  rw [Bool.and_eq_true, decide_eq_true_iff, decide_eq_true_iff]
  omega

theorem fitsSlong_iff {n : Int} : fitsSlong n = true ↔ -2 ^ 63 ≤ n ∧ n < 2 ^ 63 := by
  unfold fitsSlong
  rw [Bool.and_eq_true, decide_eq_true_iff, decide_eq_true_iff]

theorem fits_sshiftRight (x : I64) : fitsTaggedInt (x.sshiftRight 1).toInt = true := by
  have hlo := x.le_toInt
  have hhi := x.toInt_lt
  rw [fitsTaggedInt_iff, BitVec.toInt_sshiftRight, Int.shiftRight_eq_div_pow]
  omega

theorem TaggedWord.fits (w : TaggedWord) : fitsTaggedInt w.asInt.toInt = true := fits_sshiftRight w.bits

theorem toInt_encode {v : I64} (h : fitsTaggedInt v.toInt = true) : (v <<< 1 ||| 1#64).toInt = 2 * v.toInt + 1 := by
  rw [fitsTaggedInt_iff] at h
  have hv := v.isLt
  have hnat : (v <<< 1 ||| 1#64).toNat = 2 * (v.toNat % 2 ^ 63) + 1 := by
    have hor := Nat.two_pow_add_eq_or_of_lt (i := 1) (b := 1) (by decide) (v.toNat % 2 ^ 63)
    rw [BitVec.toNat_or, BitVec.toNat_shiftLeft, Nat.shiftLeft_eq,
      show v.toNat * 2 ^ 1 % 2 ^ 64 = 2 ^ 1 * (v.toNat % 2 ^ 63) by omega]
    exact hor.symm
  have hint := BitVec.toInt_eq_toNat_cond v
  rw [BitVec.toInt_eq_toNat_cond, hnat]
  split at hint <;> split <;> omega

/-- `as_int(from_int(n)) = n` on the whole range. -/
theorem asInt_fromInt {v : I64} (h : fitsTaggedInt v.toInt = true) : (fromInt v).asInt = v := by
  apply BitVec.eq_of_toInt_eq
  show ((v <<< 1 ||| 1#64).sshiftRight 1).toInt = _
  rw [BitVec.toInt_sshiftRight, toInt_encode h, Int.shiftRight_eq_div_pow]
  omega

theorem box_flatten (x : RtValue) : x.flatten.box = x.box := by
  cases x with
  | tagged w => rfl
  | heap n =>
    show RtValue.box (if fitsSlong n && fitsTaggedInt n then _ else _) = n
    split
    next h =>
      rw [Bool.and_eq_true] at h
      have hrange := fitsTaggedInt_iff.mp h.2
      have hofInt : (BitVec.ofInt 64 n).toInt = n := by
        rw [BitVec.toInt_ofInt, Int.bmod_eq_of_le (by omega) (by omega)]
      show (fromInt _).asInt.toInt = n
      rw [asInt_fromInt (by rw [hofInt]; exact h.2), hofInt]
    next => rfl

/-! ## The operations on `PyInteger` -/

/-- The operations with a fast path, as the emitter lists them. -/
inductive TaggedBinaryOp where
  | add | sub | mul | floorDiv | mod | lShift | rShift | bitAnd | bitOr | bitXor
deriving DecidableEq

inductive TaggedUnaryOp where
  | neg | invert
deriving DecidableEq

/-- The low 64 bits of the magnitude. -/
def getUi (n : Int) : Nat := n.natAbs % 2 ^ 64

/-- The words of an integer. -/
def limbs (n : Int) : Nat := if n = 0 then 0 else n.natAbs.log2 / 64 + 1

/-- The words that `mpz_mul_2exp` asks for are no more than an `int` counts. -/
def shiftFits (a : Int) (amount : Nat) : Bool := a = 0 || limbs a + amount / 64 + 1 < 2 ^ 31

/-- `PyNumber` and `PyInteger`, both operands boxed. A division by zero and a
shift to more words than an integer may have end the process. -/
def pyBinary : TaggedBinaryOp → Int → Int → Option Int
  | .add, a, b => some (a + b)
  | .sub, a, b => some (a - b)
  | .mul, a, b => some (a * b)
  | .floorDiv, a, b => if b = 0 then none else some (a.tdiv b)
  | .mod, a, b => if b = 0 then none else some (a.tmod b)
  | .lShift, a, b => if shiftFits a (getUi b) then some (a * 2 ^ getUi b) else none
  | .rShift, a, b => some (a >>> getUi b)
  | .bitAnd, a, b => some (Int.land a b)
  | .bitOr, a, b => some (Int.lor a b)
  | .bitXor, a, b => some (Int.xor a b)

def pyUnary : TaggedUnaryOp → Int → Int
  | .neg, a => -a
  | .invert, a => Int.lnot a

/-- `PyNumber::__divmod__`. -/
def pyDivmod (a b : Int) : Option (Int × Int) := if b = 0 then none else some (a.fdiv b, a.fmod b)

/-! ## The fast paths of `RtValue` -/

/-- `__builtin_*_overflow` and `fits_tagged_int`. -/
def checked (overflow : I64 → I64 → Bool) (result : I64 → I64 → I64) (l r : I64) : Option I64 :=
  if !overflow l r && fitsTaggedInt (result l r).toInt then some (result l r) else none

/-- `(rem != 0) && ((rem ^ r) < 0)`. -/
def adjusts (rem r : I64) : Bool := rem != 0 && (rem ^^^ r).slt 0#64

namespace RtValue

/-- The number that each fast path tags, if it is taken. -/
def fast : TaggedBinaryOp → I64 → I64 → Option I64
  | .add, l, r => checked BitVec.saddOverflow (· + ·) l r
  | .sub, l, r => checked BitVec.ssubOverflow (· - ·) l r
  | .mul, l, r => checked BitVec.smulOverflow (· * ·) l r
  | .floorDiv, l, r =>
    if r != 0 then
      let q := l.sdiv r
      let rem := l.srem r
      let q := if adjusts rem r then q - 1 else q
      if fitsTaggedInt q.toInt then some q else none
    else none
  | .mod, l, r =>
    if r != 0 then
      let rem := l.srem r
      some (if adjusts rem r then rem + r else rem)
    else none
  | .bitAnd, l, r => some (l &&& r)
  | .bitOr, l, r => some (l ||| r)
  | .bitXor, l, r => some (l ^^^ r)
  | .lShift, l, r =>
    if 0 ≤ r.toInt && r.toInt < 63 then checked BitVec.smulOverflow (· * ·) l (1#64 <<< r.toNat) else none
  | .rShift, l, r =>
    if 0 ≤ r.toInt then
      some (if 64 ≤ r.toInt then (if l.toInt < 0 then -1 else 0) else l.sshiftRight r.toNat)
    else none

/-- What `RtValue::add` and the others share: two tagged words and a fast path that is taken, or the boxed operation. -/
def binaryWith (fast : I64 → I64 → Option I64) (slow : RtValue → RtValue → Option RtValue) (lhs rhs : RtValue) :
    Option RtValue :=
  match lhs, rhs with
  | .tagged l, .tagged r => ((fast l.asInt r.asInt).map fun n => .tagged (fromInt n)).or (slow lhs rhs)
  | _, _ => slow lhs rhs

def slow (op : TaggedBinaryOp) (lhs rhs : RtValue) : Option RtValue := (pyBinary op lhs.box rhs.box).map .heap

/-- `RtValue::add` and the others. -/
def binary (op : TaggedBinaryOp) : RtValue → RtValue → Option RtValue := binaryWith (fast op) (slow op)

end RtValue

/-! ## What a fast path has to do -/

/-- Whatever number a fast path tags is in range and is the result. -/
def Exact (fast : I64 → I64 → Option I64) (result : Int → Int → Option Int) : Prop :=
  ∀ (l r : TaggedWord) (n : I64), fast l.asInt r.asInt = some n →
    fitsTaggedInt n.toInt = true ∧ result l.asInt.toInt r.asInt.toInt = some n.toInt

section
variable {f : I64 → I64 → Option I64} {slow : RtValue → RtValue → Option RtValue} {result : Int → Int → Option Int}

/-- An exact fast path in front of a slow one changes nothing. -/
theorem Exact.binaryWith {x y : RtValue} (hf : Exact f result)
    (hslow : (slow x y).map RtValue.box = result x.box y.box) :
    (RtValue.binaryWith f slow x y).map RtValue.box = result x.box y.box := by
  unfold RtValue.binaryWith
  split
  next l r =>
    cases h : f l.asInt r.asInt with
    | none => exact hslow
    | some n =>
      obtain ⟨hfits, hn⟩ := hf l r n h
      show some (fromInt n).asInt.toInt = _
      rw [asInt_fromInt hfits]
      exact hn.symm
  next => exact hslow

end

theorem RtValue.box_slow (op : TaggedBinaryOp) (x y : RtValue) :
    (RtValue.slow op x y).map RtValue.box = pyBinary op x.box y.box := by
  unfold RtValue.slow
  rw [Option.map_map, show RtValue.box ∘ RtValue.heap = id from rfl, Option.map_id, id]

end Pylang.Tagged
