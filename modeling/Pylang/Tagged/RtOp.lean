/-
The two other copies of the tagged arithmetic: the `fast_*_i64` helpers behind
the runtime's exported operations, which flatten boxed operands before they
give up, and the code `emit_tagged_binary_op` emits, which falls back on those.
-/
import Pylang.Tagged.RtValue

namespace Pylang.Tagged

abbrev I128 := BitVec 128

namespace RtOp

/-- The `fast_*_i64` functions: the number for `tagged_result`, or null. -/
def fast : TaggedBinaryOp → I64 → I64 → Option I64
  | .add, lhs, rhs => checked BitVec.saddOverflow (· + ·) lhs rhs
  | .sub, lhs, rhs => checked BitVec.ssubOverflow (· - ·) lhs rhs
  | .mul, lhs, rhs => checked BitVec.smulOverflow (· * ·) lhs rhs
  | .floorDiv, lhs, rhs =>
    if rhs == 0 then none
    else
      let q := lhs.sdiv rhs
      let rem := lhs.srem rhs
      let q := if adjusts rem rhs then q - 1 else q
      if !fitsTaggedInt q.toInt then none else some q
  | .mod, lhs, rhs =>
    if rhs == 0 then none
    else
      let rem := lhs.srem rhs
      some (if adjusts rem rhs then rem + rhs else rem)
  | .lShift, lhs, rhs =>
    if rhs.toInt < 0 || 63 ≤ rhs.toInt then none
    else
      let result : I128 := lhs.signExtend 128 * 1#128 <<< rhs.toNat
      if result.toInt < kTaggedIntMin || kTaggedIntMax < result.toInt then none else some (result.setWidth 64)
  | .rShift, lhs, rhs =>
    if rhs.toInt < 0 then none
    else if 64 ≤ rhs.toInt then some (if lhs.toInt < 0 then -1 else 0)
    else some (lhs.sshiftRight rhs.toNat)
  | .bitAnd, lhs, rhs => some (lhs &&& rhs)
  | .bitOr, lhs, rhs => some (lhs ||| rhs)
  | .bitXor, lhs, rhs => some (lhs ^^^ rhs)

/-- `fast_neg_i64` and `fast_invert_i64`. -/
def fastUnary : TaggedUnaryOp → I64 → Option I64
  | .neg, value => if value.toInt = kTaggedIntMin then none else some (-value)
  | .invert, value => some (~~~value)

/-- `binary_int_or_slow`: on the operands as they are, then flattened, then boxed. -/
def binary (op : TaggedBinaryOp) (lhs rhs : RtValue) : Option RtValue :=
  RtValue.binaryWith (fast op) (fun lhs rhs => RtValue.binaryWith (fast op) (RtValue.slow op) lhs.flatten rhs.flatten)
    lhs rhs

/-- `unary_int_or_slow`. -/
def unary (op : TaggedUnaryOp) (obj : RtValue) : RtValue :=
  match obj.flatten with
  | .tagged w =>
    match fastUnary op w.asInt with
    | some n => .tagged (fromInt n)
    | none => .heap (pyUnary op obj.box)
  | value => .heap (pyUnary op value.box)

end RtOp

namespace IREmitter

/-- `emit_fits_tagged_int`. -/
def fits {w : Nat} (value : BitVec w) : Bool :=
  (BitVec.ofInt w kTaggedIntMin).sle value && value.sle (BitVec.ofInt w kTaggedIntMax)

/-- The blocks from `tag.fast` to an edge into `tag.merge`, or, with `none`, to `tag.slow`. -/
def fast : TaggedBinaryOp → I64 → I64 → Option I64
  | .add, l, r =>
    let valid := !l.saddOverflow r && fits (l + r)
    if valid then some (l + r) else none
  | .sub, l, r =>
    let valid := !l.ssubOverflow r && fits (l - r)
    if valid then some (l - r) else none
  | .mul, l, r =>
    let valid := !l.smulOverflow r && fits (l * r)
    if valid then some (l * r) else none
  | .floorDiv, l, r =>
    let nonzero := r != 0#64
    if nonzero then
      let q := l.sdiv r
      let rem := l.srem r
      let remNonzero := rem != 0#64
      let signDiff := (rem ^^^ r).slt 0#64
      let adjust := remNonzero && signDiff
      let adjusted := q - (BitVec.ofBool adjust).setWidth 64
      if fits adjusted then some adjusted else none
    else none
  | .mod, l, r =>
    let nonzero := r != 0#64
    if nonzero then
      let rem := l.srem r
      let remNonzero := rem != 0#64
      let signDiff := (rem ^^^ r).slt 0#64
      let adjust := remNonzero && signDiff
      some (if adjust then rem + r else rem)
    else none
  | .lShift, l, r =>
    let nonnegative := (0#64).sle r
    let small := r.slt 63#64
    if nonnegative && small then
      let l128 : I128 := l.signExtend 128
      let r128 : I128 := r.setWidth 128
      let result128 := l128 <<< r128
      if fits result128 then some (result128.setWidth 64) else none
    else none
  | .rShift, l, r =>
    let nonnegative := (0#64).sle r
    if nonnegative then
      let large := (64#64).sle r
      if large then
        let negativeL := l.slt 0#64
        some (if negativeL then -1#64 else 0#64)
      else some (l.sshiftRight' r)
    else none
  | .bitAnd, l, r => some (l &&& r)
  | .bitOr, l, r => some (l ||| r)
  | .bitXor, l, r => some (l ^^^ r)

/-- The emitted sequence; `tag.slow` calls the runtime's operation. -/
def binary (op : TaggedBinaryOp) : RtValue → RtValue → Option RtValue := RtValue.binaryWith (fast op) (RtOp.binary op)

end IREmitter

/-! ## The words -/

theorem Exact.checked {overflow : I64 → I64 → Bool} {result : I64 → I64 → I64} {value : Int → Int → Int}
    (h : ∀ l r, ¬overflow l r = true → (result l r).toInt = value l.toInt r.toInt) :
    Exact (checked overflow result) fun a b => some (value a b) := by
  intro l r n hn
  unfold Tagged.checked at hn
  split at hn
  next hok =>
    cases hn
    rw [Bool.and_eq_true, Bool.not_eq_true'] at hok
    exact ⟨hok.2, by rw [h _ _ (by simp [hok.1])]⟩
  next => cases hn

theorem fits_and (l r : TaggedWord) : fitsTaggedInt (l.asInt &&& r.asInt).toInt = true := by
  have h := fits_sshiftRight (l.bits &&& r.bits)
  rw [BitVec.sshiftRight_and_distrib] at h
  exact h

theorem fits_or (l r : TaggedWord) : fitsTaggedInt (l.asInt ||| r.asInt).toInt = true := by
  have h := fits_sshiftRight (l.bits ||| r.bits)
  rw [BitVec.sshiftRight_or_distrib] at h
  exact h

theorem fits_xor (l r : TaggedWord) : fitsTaggedInt (l.asInt ^^^ r.asInt).toInt = true := by
  have h := fits_sshiftRight (l.bits ^^^ r.bits)
  rw [BitVec.sshiftRight_xor_distrib] at h
  exact h

theorem exact_and : Exact (fun l r => some (l &&& r)) fun a b => some (Int.land a b) := by
  intro l r n h
  cases h
  exact ⟨fits_and l r, congrArg some (toInt_and ..).symm⟩

theorem exact_or : Exact (fun l r => some (l ||| r)) fun a b => some (Int.lor a b) := by
  intro l r n h
  cases h
  exact ⟨fits_or l r, congrArg some (toInt_or ..).symm⟩

theorem exact_xor : Exact (fun l r => some (l ^^^ r)) fun a b => some (Int.xor a b) := by
  intro l r n h
  cases h
  exact ⟨fits_xor l r, congrArg some (toInt_xor ..).symm⟩

theorem bounds (w : TaggedWord) : -2 ^ 62 ≤ w.asInt.toInt ∧ w.asInt.toInt < 2 ^ 62 := fitsTaggedInt_iff.mp w.fits

theorem toInt_ne_zero {r : I64} (h : r ≠ 0) : r.toInt ≠ 0 := fun h0 => h (BitVec.eq_of_toInt_eq h0)

theorem adjusts_iff (rem r : I64) :
    adjusts rem r = true ↔ rem.toInt ≠ 0 ∧ (rem.toInt < 0 ∧ 0 ≤ r.toInt ∨ 0 ≤ rem.toInt ∧ r.toInt < 0) := by
  unfold adjusts
  rw [Bool.and_eq_true, bne_iff_ne, BitVec.slt_zero_eq_msb, BitVec.msb_xor, BitVec.msb_eq_toInt, BitVec.msb_eq_toInt]
  have h0 : rem ≠ 0 ↔ rem.toInt ≠ 0 := ⟨toInt_ne_zero, fun h e => h (by rw [e]; rfl)⟩
  rw [h0]
  by_cases h₁ : rem.toInt < 0 <;> by_cases h₂ : r.toInt < 0 <;> simp [h₁, h₂] <;> omega

/-! ## Division -/

/-- Truncating and flooring division differ. -/
def Mixed (a b : Int) : Prop := ¬b ∣ a ∧ (a < 0 ∧ 0 < b ∨ 0 ≤ a ∧ b < 0)

theorem fdiv_of_mixed {a b : Int} (h : Mixed a b) : a.fdiv b = a.tdiv b - 1 := by
  obtain ⟨hdvd, ⟨ha, hb⟩ | ⟨ha, hb⟩⟩ := h
  · rw [Int.fdiv_eq_tdiv, if_neg hdvd, if_neg (by omega), if_pos (by omega), Int.sign_eq_one_of_pos hb]
  · rw [Int.fdiv_eq_tdiv, if_neg hdvd, if_pos ha, if_neg (by omega)]

theorem fdiv_of_not_mixed {a b : Int} (h : ¬Mixed a b) : a.fdiv b = a.tdiv b := by
  rw [Int.fdiv_eq_tdiv]
  split
  next => exact Int.sub_zero _
  next hdvd =>
    have hsign : ¬(a < 0 ∧ 0 < b ∨ 0 ≤ a ∧ b < 0) := fun hs => h ⟨hdvd, hs⟩
    clear h hdvd
    split
    next => rw [if_pos (by omega), Int.sub_zero]
    next =>
      split
      next => rw [show b = 0 by omega, Int.sign_zero, Int.sub_zero]
      next =>
        rw [Int.sign_eq_neg_one_of_neg (by omega)]
        exact Int.sub_zero _

theorem fmod_of_mixed {a b : Int} (h : Mixed a b) : a.fmod b = a.tmod b + b := by
  rw [Int.fmod_def, fdiv_of_mixed h, Int.tmod_def, Int.mul_sub, Int.mul_one]
  omega

theorem fmod_of_not_mixed {a b : Int} (h : ¬Mixed a b) : a.fmod b = a.tmod b := by
  rw [Int.fmod_def, fdiv_of_not_mixed h, Int.tmod_def]

theorem adjusts_srem {l r : I64} (hr : r ≠ 0) : adjusts (l.srem r) r = true ↔ Mixed l.toInt r.toInt := by
  rw [adjusts_iff, BitVec.toInt_srem, Mixed, Ne, ← Int.dvd_iff_tmod_eq_zero]
  refine and_congr_right fun hdvd => ?_
  rw [Int.dvd_iff_tmod_eq_zero] at hdvd
  have hpos := Int.tmod_nonneg (a := l.toInt) r.toInt
  have hneg := Int.tmod_nonneg (a := -l.toInt) r.toInt
  have hr' := toInt_ne_zero hr
  rw [Int.neg_tmod] at hneg
  omega

section
variable (l : TaggedWord) (r : I64)

theorem toInt_sdiv : (l.asInt.sdiv r).toInt = l.asInt.toInt.tdiv r.toInt := by
  refine BitVec.toInt_sdiv_of_ne_or_ne _ _ (.inl fun h => ?_)
  have hb := bounds l
  rw [h, BitVec.toInt_intMin] at hb
  omega

theorem sdiv_bounds : -2 ^ 62 ≤ (l.asInt.sdiv r).toInt ∧ (l.asInt.sdiv r).toInt ≤ 2 ^ 62 := by
  have hb := bounds l
  have habs := Int.natAbs_tdiv_le_natAbs l.asInt.toInt r.toInt
  rw [toInt_sdiv]
  omega

theorem toInt_floorDiv (hr : r ≠ 0) : (if adjusts (l.asInt.srem r) r then l.asInt.sdiv r - 1 else l.asInt.sdiv r).toInt =
    l.asInt.toInt.fdiv r.toInt := by
  have hq := sdiv_bounds l r
  split
  next h =>
    rw [fdiv_of_mixed ((adjusts_srem hr).mp h), ← toInt_sdiv, BitVec.toInt_sub]
    exact Int.bmod_eq_of_le (by show _ ≤ _ - 1; omega) (by show _ - 1 < _; omega)
  next h => rw [fdiv_of_not_mixed (mt (adjusts_srem hr).mpr h), toInt_sdiv]

theorem fmod_bounds {a b : Int} (hb : b ≠ 0) : (a.fmod b).natAbs < b.natAbs ∧
    (a.fmod b = 0 ∨ 0 < a.fmod b ∧ 0 < b ∨ a.fmod b < 0 ∧ b < 0) := by
  rcases Int.lt_or_gt_of_ne hb with hb | hb
  · have h₁ := Int.fmod_nonneg_of_pos (-a) (b := -b) (by omega)
    have h₂ := Int.fmod_lt_of_pos (-a) (b := -b) (by omega)
    rw [Int.neg_fmod_neg] at h₁ h₂
    omega
  · have h₁ := Int.fmod_nonneg_of_pos a hb
    have h₂ := Int.fmod_lt_of_pos a hb
    omega

theorem toInt_floorMod (hr : r ≠ 0) :
    (if adjusts (l.asInt.srem r) r then l.asInt.srem r + r else l.asInt.srem r).toInt = l.asInt.toInt.fmod r.toInt := by
  have hb := fmod_bounds (a := l.asInt.toInt) (toInt_ne_zero hr)
  have hlo := r.le_toInt
  have hhi := r.toInt_lt
  split
  next h =>
    have hmod := fmod_of_mixed ((adjusts_srem hr).mp h)
    rw [hmod] at hb ⊢
    rw [BitVec.toInt_add, BitVec.toInt_srem]
    exact Int.bmod_eq_of_le (by omega) (by omega)
  next h => rw [fmod_of_not_mixed (mt (adjusts_srem hr).mpr h), BitVec.toInt_srem]

end

end Pylang.Tagged
