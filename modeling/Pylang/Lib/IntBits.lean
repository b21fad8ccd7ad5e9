/-
The bits of an integer and of a bit vector read as a signed number.
-/
import Mathlib.Data.Int.Bitwise

namespace Pylang

theorem testBit_of_le {m n : Nat} (h : m ≤ n) : m.testBit n = false :=
  Nat.testBit_lt_two_pow (Nat.lt_of_le_of_lt h Nat.lt_two_pow_self)

/-- An integer is its bits. -/
theorem eq_of_testBit {m n : Int} (h : ∀ k, m.testBit k = n.testBit k) : m = n := by
  cases m with
  | ofNat m =>
    cases n with
    | ofNat n => exact congrArg _ (Nat.eq_of_testBit_eq h)
    | negSucc n =>
      -- beyond both, a negative number has ones and a natural one zeros
      have hk := h (m + n)
      have hm := testBit_of_le (Nat.le_add_right m n)
      have hn := testBit_of_le (Nat.le_add_left n m)
      simp [Int.testBit, hm, hn] at hk
  | negSucc m =>
    cases n with
    | ofNat n =>
      have hk := h (m + n)
      have hm := testBit_of_le (Nat.le_add_right m n)
      have hn := testBit_of_le (Nat.le_add_left n m)
      simp [Int.testBit, hm, hn] at hk
    | negSucc n =>
      refine congrArg _ (Nat.eq_of_testBit_eq fun k => ?_)
      simpa [Int.testBit] using h k

section
variable {w : Nat}

theorem toInt_negSucc {x : BitVec w} (h : x.msb = true) : x.toInt = Int.negSucc (~~~x).toNat := by
  have hlt := x.isLt
  have hnot : (~~~x).toNat + x.toNat + 1 = 2 ^ w := by
    rw [BitVec.toNat_not]
    omega
  rw [BitVec.toInt_eq_msb_cond, h, if_pos rfl, Int.negSucc_eq, ← hnot]
  push_cast
  omega

/-- Beyond the width, the bits of the signed reading are the sign. -/
theorem testBit_toInt (x : BitVec w) (k : Nat) : x.toInt.testBit k = if k < w then x.getLsbD k else x.msb := by
  cases hmsb : x.msb with
  | false =>
    rw [BitVec.toInt_eq_toNat_of_msb hmsb]
    show x.toNat.testBit k = _
    split
    next => rfl
    next h => exact Nat.testBit_lt_two_pow (Nat.lt_of_lt_of_le x.isLt (Nat.pow_le_pow_right (by omega) (by omega)))
  | true =>
    rw [toInt_negSucc hmsb]
    show (!(~~~x).toNat.testBit k) = _
    rw [BitVec.testBit_toNat, BitVec.getLsbD_not]
    split
    next h => simp [h]
    next h => simp [h]

theorem toInt_and (x y : BitVec w) : (x &&& y).toInt = Int.land x.toInt y.toInt := by
  refine eq_of_testBit fun k => ?_
  rw [Int.testBit_land, testBit_toInt, testBit_toInt, testBit_toInt, BitVec.getLsbD_and, BitVec.msb_and]
  split <;> rfl

theorem toInt_or (x y : BitVec w) : (x ||| y).toInt = Int.lor x.toInt y.toInt := by
  refine eq_of_testBit fun k => ?_
  rw [Int.testBit_lor, testBit_toInt, testBit_toInt, testBit_toInt, BitVec.getLsbD_or, BitVec.msb_or]
  split <;> rfl

theorem toInt_xor (x y : BitVec w) : (x ^^^ y).toInt = Int.xor x.toInt y.toInt := by
  refine eq_of_testBit fun k => ?_
  rw [Int.testBit_lxor, testBit_toInt, testBit_toInt, testBit_toInt, BitVec.getLsbD_xor, BitVec.msb_xor]
  split <;> rfl

theorem toInt_not (hw : 0 < w) (x : BitVec w) : (~~~x).toInt = Int.lnot x.toInt := by
  refine eq_of_testBit fun k => ?_
  rw [Int.testBit_lnot, testBit_toInt, testBit_toInt, BitVec.getLsbD_not]
  split
  next h => simp [h]
  next h => simp [BitVec.msb_not, hw]

end

theorem lnot_eq : ∀ a : Int, Int.lnot a = -a - 1
  | .ofNat m => by
    show Int.negSucc m = _
    rw [Int.negSucc_eq]
    show _ = -(m : Int) - 1
    omega
  | .negSucc m => by
    show (m : Int) = _
    rw [Int.negSucc_eq]
    omega

end Pylang
