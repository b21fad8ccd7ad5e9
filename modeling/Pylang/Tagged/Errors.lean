/-
The operations on integers that some operands have no result for: a shift by a
negative amount, a division by zero, a power with a negative exponent; and the
results that are too long.

The boxed operations take the low 64 bits of the magnitude of an amount and of an
exponent, and they check a divisor in `divmod` only.
-/
import Mathlib.Data.Int.GCD
import Mathlib.Data.Int.ModEq
import Pylang.Tagged.Agree

namespace Pylang.Tagged

/-- How an operation ends: with a value, an exception, or the end of the process. -/
inductive Ending (α : Type) where
  | value (a : α)
  | raised (message : String)
  | abort
  deriving DecidableEq

/-- What a copy of an operation comes to, the result boxed. -/
def ending (result : Option RtValue) : Ending Int :=
  match result with
  | some v => .value v.box
  | none => .abort

/-- `PyNumber::__divmod__`, which checks the divisor. -/
def divmodEnding (a b : Int) : Ending (Int × Int) :=
  match pyDivmod a b with
  | some pair => .value pair
  | none => .raised "ZeroDivisionError"

/-- `mpz_powm`: a negative exponent takes the inverse of the base, and where it has none, as for the modulus 0, the
library divides by zero. -/
def mpzPowm (base exponent modulus : Int) : Ending Int :=
  if modulus = 0 then .abort
  else if 0 ≤ exponent then .value (base ^ exponent.toNat % modulus)
  else if Int.gcd base modulus = 1 then .value (Int.gcdA base modulus ^ exponent.natAbs % modulus)
  else .abort

/-- `PyNumber::__pow__` of integers. `powFits` is whether `mpz_pow_ui` has room for a power, which else ends the process. -/
def pyPow (powFits : Int → Nat → Bool) (a b : Int) (modulo : Option Int) : Ending Int :=
  match modulo with
  | none => if powFits a (getUi b) then .value (a ^ getUi b) else .abort
  | some modulus => mpzPowm a b modulus

/-- The operations that some operands have no result for. -/
inductive PartialOp where
  | lShift | rShift | floorDiv | mod | divmod
  | pow (modulo : Option Int)
  deriving DecidableEq

/-! ## What is asked of them -/

/-- The copies of an operation. -/
def copies (op : TaggedBinaryOp) : List (RtValue → RtValue → Option RtValue) :=
  [RtValue.binary op, RtOp.binary op, IREmitter.binary op]

/-- A negative amount raises, and one from 64 bits on raises or gives the exact number. -/
def ShiftsRight (op : TaggedBinaryOp) (shift : Int → Nat → Int) (x y : RtValue) : Prop :=
  ∀ copy ∈ copies op, (y.box < 0 → ∃ message, ending (copy x y) = .raised message) ∧
    (64 ≤ y.box → (∃ message, ending (copy x y) = .raised message) ∨
      ending (copy x y) = .value (shift x.box y.box.toNat))

/-- A division by zero raises. -/
def DividesRight (op : TaggedBinaryOp) (x y : RtValue) : Prop :=
  y.box = 0 → ∀ copy ∈ copies op, ∃ message, ending (copy x y) = .raised message

/-- A negative exponent does not give the power of its absolute value; with a modulus it gives that power's inverse. -/
def PowRight (powFits : Int → Nat → Bool) (modulo : Option Int) (a b : Int) : Prop :=
  b < 0 →
    match modulo with
    | none => pyPow powFits a b none ≠ .value (a ^ b.natAbs)
    | some modulus => ∀ r, pyPow powFits a b (some modulus) = .value r → r * a ^ b.natAbs ≡ 1 [ZMOD modulus]

def PartialOp.Right (powFits : Int → Nat → Bool) (op : PartialOp) (x y : RtValue) : Prop :=
  match op with
  | .lShift => ShiftsRight .lShift (fun a k => a * 2 ^ k) x y
  | .rShift => ShiftsRight .rShift (fun a k => a >>> k) x y
  | .floorDiv => DividesRight .floorDiv x y
  | .mod => DividesRight .mod x y
  | .divmod => y.box = 0 → ∃ message, divmodEnding x.box y.box = .raised message
  | .pow modulo => PowRight powFits modulo x.box y.box

/-- The operands for which an operation does what is asked of it. -/
def PartialOp.Covers (powFits : Int → Nat → Bool) (op : PartialOp) (a b : Int) : Prop :=
  match op with
  | .lShift => 0 ≤ b ∧ (b < 64 ∨ shiftFits a b.toNat)
  | .rShift => 0 ≤ b ∧ (b < 2 ^ 64 ∨ -2 ^ getUi b ≤ a ∧ a < 2 ^ getUi b)
  | .floorDiv | .mod => b ≠ 0
  | .divmod => True
  | .pow none => 0 ≤ b ∨ powFits a (getUi b) = false ∨ 2 ^ 64 ≤ b.natAbs ∧ (2 ≤ a.natAbs ∨ a = 0 ∧ 2 ^ 64 ∣ b.natAbs)
  | .pow (some _) => True

/-! ## The copies -/

theorem ending_eq {result : Option RtValue} {n : Int} (h : result.map RtValue.box = some n) : ending result = .value n := by
  obtain ⟨v, rfl, rfl⟩ := Option.map_eq_some_iff.mp h
  rfl

/-- A shift that fits has a value, with the low 64 bits of the magnitude of the amount. -/
theorem shiftsRight_iff {op : TaggedBinaryOp} (shift : Int → Nat → Int) {x y : RtValue} {fits : Bool} (h₁ : op ≠ .floorDiv)
    (h₂ : op ≠ .mod) (h : pyBinary op x.box y.box = if fits then some (shift x.box (getUi y.box)) else none) :
    ShiftsRight op shift x y ↔
      0 ≤ y.box ∧ (64 ≤ y.box → fits ∧ shift x.box (getUi y.box) = shift x.box y.box.toNat) := by
  have hpaths := paths_agree (x := x) (y := y) (congrFun (congrFun (floored_eq h₁ h₂) x.box) y.box).symm
  rw [h] at hpaths
  have hending (copy : RtValue → RtValue → Option RtValue) (hcopy : copy ∈ copies op) :
      ending (copy x y) = if fits then .value (shift x.box (getUi y.box)) else .abort := by
    have hcopy := hpaths copy hcopy
    cases fits with
    | true => exact ending_eq hcopy
    | false =>
      rw [Option.map_eq_none_iff.mp hcopy]
      rfl
  constructor
  · intro hright
    obtain ⟨hneg, hlarge⟩ := hright (RtValue.binary op) (List.mem_cons_self)
    rw [hending _ List.mem_cons_self] at hneg hlarge
    constructor
    · by_contra hlt
      obtain ⟨message, hraised⟩ := hneg (by omega)
      split at hraised <;> cases hraised
    · intro hle
      cases fits with
      | true =>
        rcases hlarge hle with ⟨message, hraised⟩ | hvalue
        · cases hraised
        · exact ⟨rfl, Ending.value.inj hvalue⟩
      | false => rcases hlarge hle with ⟨message, hraised⟩ | hvalue <;> contradiction
  · intro h copy hcopy
    obtain ⟨h0, heq⟩ := h
    rw [hending copy hcopy]
    refine ⟨fun hlt => absurd h0 (by omega), fun hle => .inr ?_⟩
    obtain ⟨hfits, hvalue⟩ := heq hle
    rw [if_pos hfits, hvalue]

theorem dividesRight_iff {op : TaggedBinaryOp} {x y : RtValue} (h : ∀ a, pyBinary op a 0 = none ∧ floored op a 0 = none) :
    DividesRight op x y ↔ y.box ≠ 0 := by
  constructor
  · intro hright hzero
    have hpaths := @paths_agree op x y (by rw [hzero, (h x.box).1, (h x.box).2])
    rw [hzero, (h x.box).1] at hpaths
    have hnone := Option.map_eq_none_iff.mp (hpaths _ List.mem_cons_self)
    obtain ⟨message, hraised⟩ := hright hzero _ List.mem_cons_self
    rw [hnone] at hraised
    cases hraised
  · exact fun hne hzero => absurd hzero hne

/-! ## Amounts from 64 bits on -/

theorem getUi_of_lt {b : Int} (h0 : 0 ≤ b) (h : b < 2 ^ 64) : getUi b = b.toNat := by
  unfold getUi
  omega

theorem lShift_eq_iff {a b : Int} (h0 : 0 ≤ b) : a * 2 ^ getUi b = a * 2 ^ b.toNat ↔ b < 2 ^ 64 ∨ a = 0 := by
  constructor
  · intro h
    by_cases ha : a = 0
    · exact .inr ha
    · have hpow := Int.eq_of_mul_eq_mul_left ha h
      have hexp := Int.pow_right_injective (by decide : 1 < (2 : Int).natAbs) hpow
      unfold getUi at hexp
      omega
  · intro h
    rcases h with hlt | rfl
    · rw [getUi_of_lt h0 hlt]
    · simp

/-- An amount that fits has no more than 64 bits. -/
theorem lShift_covers_iff {a b : Int} (h0 : 0 ≤ b) :
    (64 ≤ b → shiftFits a (getUi b) = true ∧ a * 2 ^ getUi b = a * 2 ^ b.toNat) ↔ b < 64 ∨ shiftFits a b.toNat = true := by
  have hfits {k : Nat} : shiftFits a k = true ↔ a = 0 ∨ limbs a + k / 64 + 1 < 2 ^ 31 := by simp [shiftFits]
  rw [lShift_eq_iff h0, hfits, hfits]
  constructor
  · intro h
    by_cases hlt : b < 64
    · exact .inl hlt
    · obtain ⟨hfit, hlt | hzero⟩ := h (by omega)
      · rw [getUi_of_lt h0 hlt] at hfit
        exact .inr hfit
      · exact .inr (.inl hzero)
  · intro h hle
    rcases h with hlt | hzero | hfit
    · omega
    · exact ⟨.inl hzero, .inr hzero⟩
    · have hlt : b < 2 ^ 64 := by omega
      rw [getUi_of_lt h0 hlt]
      exact ⟨.inr hfit, .inl hlt⟩

/-- What no further shift changes. -/
theorem shiftRight_eq_self_iff {q : Int} {j : Nat} (hj : 0 < j) : q >>> j = q ↔ -1 ≤ q ∧ q ≤ 0 := by
  have htwo : (2 : Int) ≤ 2 ^ j := by
    have := pow_le_pow_right₀ (a := (2 : Int)) (by decide) hj
    omega
  rw [Int.shiftRight_eq_div_pow]
  push_cast
  rw [Int.ediv_eq_iff_of_pos (by omega)]
  constructor
  · intro h
    obtain ⟨hlo, hhi⟩ := h
    constructor <;> nlinarith
  · intro h
    obtain ⟨hlo, hhi⟩ := h
    obtain rfl | rfl : q = -1 ∨ q = 0 := by omega
    · omega
    · omega

theorem shiftRight_bounds (a : Int) (k : Nat) : (-1 ≤ a >>> k ∧ a >>> k ≤ 0) ↔ -2 ^ k ≤ a ∧ a < 2 ^ k := by
  have hpos : (0 : Int) < 2 ^ k := Int.pow_pos (by decide)
  rw [Int.shiftRight_eq_div_pow]
  push_cast
  rw [Int.le_ediv_iff_mul_le hpos, ← Int.lt_add_one_iff (b := 0), Int.ediv_lt_iff_lt_mul hpos]
  omega

theorem rShift_eq_iff {a b : Int} (h0 : 0 ≤ b) :
    a >>> getUi b = a >>> b.toNat ↔ b < 2 ^ 64 ∨ -2 ^ getUi b ≤ a ∧ a < 2 ^ getUi b := by
  by_cases hlt : b < 2 ^ 64
  · rw [getUi_of_lt h0 hlt]
    exact ⟨fun _ => .inl hlt, fun _ => rfl⟩
  · have hsplit : b.toNat = getUi b + (b.toNat - getUi b) := by
      unfold getUi
      omega
    have hrest : 0 < b.toNat - getUi b := by
      unfold getUi
      omega
    rw [hsplit, Int.shiftRight_add, eq_comm, shiftRight_eq_self_iff hrest, shiftRight_bounds]
    exact ⟨.inr, fun h => h.resolve_left hlt⟩

/-! ## Powers -/

/-- An inverse is one of every power. -/
theorem mpzPowm_inverse {a b modulus r : Int} (hneg : b < 0) (h : mpzPowm a b modulus = .value r) :
    r * a ^ b.natAbs ≡ 1 [ZMOD modulus] := by
  unfold mpzPowm at h
  split at h
  next => cases h
  next =>
    rw [if_neg (by omega)] at h
    split at h
    next hgcd =>
      cases h
      have hbezout := Int.gcd_eq_gcd_ab a modulus
      rw [hgcd] at hbezout
      have hinverse : Int.gcdA a modulus * a ≡ 1 [ZMOD modulus] := by
        refine (Int.modEq_iff_dvd.mpr ⟨Int.gcdB a modulus, ?_⟩)
        push_cast at hbezout
        linarith
      calc Int.gcdA a modulus ^ b.natAbs % modulus * a ^ b.natAbs
          ≡ Int.gcdA a modulus ^ b.natAbs * a ^ b.natAbs [ZMOD modulus] := (Int.mod_modEq _ _).mul_right _
        _ = (Int.gcdA a modulus * a) ^ b.natAbs := (mul_pow ..).symm
        _ ≡ 1 ^ b.natAbs [ZMOD modulus] := hinverse.pow _
        _ = 1 := one_pow _
    next => cases h

theorem pow_getUi_eq_iff {a b : Int} : a ^ getUi b = a ^ b.natAbs ↔
    ¬ (2 ^ 64 ≤ b.natAbs ∧ (2 ≤ a.natAbs ∨ a = 0 ∧ 2 ^ 64 ∣ b.natAbs)) := by
  have hui : getUi b = b.natAbs % 2 ^ 64 := rfl
  by_cases hlarge : 2 ^ 64 ≤ b.natAbs
  · by_cases htwo : 2 ≤ a.natAbs
    · refine ⟨fun h => ?_, fun h => absurd ⟨hlarge, .inl htwo⟩ h⟩
      have hexp := Int.pow_right_injective htwo h
      omega
    · obtain rfl | rfl | rfl : a = 0 ∨ a = 1 ∨ a = -1 := by omega
      · rw [zero_pow (show b.natAbs ≠ 0 by omega)]
        by_cases hzero : getUi b = 0
        · rw [hzero, pow_zero]
          exact ⟨fun h => absurd h (by decide), fun h => absurd ⟨hlarge, .inr ⟨rfl, Nat.dvd_of_mod_eq_zero hzero⟩⟩ h⟩
        · rw [zero_pow hzero]
          refine ⟨fun _ h => hzero ?_, fun _ => rfl⟩
          rcases h.2 with h | ⟨-, hdvd⟩
          · omega
          · exact Nat.mod_eq_zero_of_dvd hdvd
      · rw [one_pow, one_pow]
        exact ⟨fun _ h => by omega, fun _ => rfl⟩
      · have hparity : getUi b % 2 = b.natAbs % 2 := by
          rw [hui]
          omega
        rw [neg_one_pow_eq_pow_mod_two, hparity, ← neg_one_pow_eq_pow_mod_two]
        exact ⟨fun _ h => by omega, fun _ => rfl⟩
  · rw [hui, Nat.mod_eq_of_lt (by omega)]
    exact ⟨fun _ h => hlarge h.1, fun _ => rfl⟩

/-- **The operations raise where they should** but for negative amounts, shifts to too many words, divisors of 0 and nearly
all negative exponents. -/
theorem PartialOp.right_iff (powFits : Int → Nat → Bool) (op : PartialOp) (x y : RtValue) :
    op.Right powFits x y ↔ op.Covers powFits x.box y.box := by
  cases op with
  | lShift =>
    exact (shiftsRight_iff (fun a k => a * 2 ^ k) (by decide) (by decide) rfl).trans
      (and_congr_right fun h0 => lShift_covers_iff h0)
  | rShift =>
    refine (@shiftsRight_iff _ (fun a k => a >>> k) x y true (by decide) (by decide) rfl).trans
      (and_congr_right fun h0 => ?_)
    rw [← rShift_eq_iff h0]
    refine ⟨fun h => ?_, fun h _ => ⟨rfl, h⟩⟩
    by_cases hle : 64 ≤ y.box
    · exact (h hle).2
    · rw [getUi_of_lt h0 (by omega)]
  | floorDiv => exact dividesRight_iff fun _ => ⟨rfl, rfl⟩
  | mod => exact dividesRight_iff fun _ => ⟨rfl, rfl⟩
  | divmod =>
    refine ⟨fun _ => trivial, fun _ hzero => ⟨"ZeroDivisionError", ?_⟩⟩
    rw [hzero]
    rfl
  | pow modulo =>
    cases modulo with
    | some modulus => exact ⟨fun _ => trivial, fun _ hneg r hr => mpzPowm_inverse hneg hr⟩
    | none =>
      show (y.box < 0 → (if powFits x.box (getUi y.box) then Ending.value (x.box ^ getUi y.box) else .abort) ≠
        Ending.value (x.box ^ y.box.natAbs)) ↔ 0 ≤ y.box ∨ _
      by_cases hneg : y.box < 0
      · have hiff := pow_getUi_eq_iff (a := x.box) (b := y.box)
        cases hfits : powFits x.box (getUi y.box) with
        | false => exact ⟨fun _ => .inr (.inl rfl), fun _ _ h => by cases h⟩
        | true =>
          rw [if_pos rfl]
          constructor
          · intro h
            by_contra hnot
            exact h hneg (congrArg Ending.value (hiff.mpr fun hc => hnot (.inr (.inr hc))))
          · intro h _ heq
            rcases h with h0 | hfalse | hc
            · omega
            · cases hfalse
            · exact hiff.mp (Ending.value.inj heq) hc
      · exact ⟨fun _ => .inl (by omega), fun _ h => absurd h hneg⟩

/-- `1 << -1` is 2, `1 // 0` and `1 << 2 ** 40` end the process, `2 ** -1` is 2. -/
theorem partialOps_wrong :
    ending (RtValue.binary .lShift (.tagged (fromInt 1)) (.tagged (fromInt (-1)))) = .value 2 ∧
      ending (RtValue.binary .floorDiv (.tagged (fromInt 1)) (.tagged (fromInt 0))) = .abort ∧
      ending (RtValue.binary .lShift (.tagged (fromInt 1)) (.tagged (fromInt (2 ^ 40)))) = .abort ∧
      pyPow (fun a e => limbs (a ^ e) < 2 ^ 31) 2 (-1) none = .value 2 ∧
      ¬ PartialOp.Right (fun a e => limbs (a ^ e) < 2 ^ 31) .lShift (.tagged (fromInt 1)) (.tagged (fromInt (-1))) := by
  have hshift : ending (RtValue.binary .lShift (.tagged (fromInt 1)) (.tagged (fromInt (-1)))) = .value 2 := by decide
  refine ⟨hshift, by decide, by decide, by decide, fun h => ?_⟩
  obtain ⟨message, hraised⟩ := (h _ List.mem_cons_self).1 (by decide)
  cases hshift.symm.trans hraised

end Pylang.Tagged
