/-
The three copies of the tagged arithmetic against the operations on
`PyInteger`: each fast path is exact, so where it is taken makes no difference.
For division the fast paths round down and the boxed operations towards zero.
-/
import Mathlib
import Pylang.Tagged.RtOp

namespace Pylang.Tagged

/-- What the fast paths compute: division rounds down. -/
def floored : TaggedBinaryOp → Int → Int → Option Int
  | .floorDiv, a, b => if b = 0 then none else some (a.fdiv b)
  | .mod, a, b => if b = 0 then none else some (a.fmod b)
  | op, a, b => pyBinary op a b

/-! ## Shifts -/

/-- The range test written the other way round. -/
theorem ite_outside {α : Type} (x : Int) (a : Option α) :
    (if x < kTaggedIntMin || kTaggedIntMax < x then none else a) = if fitsTaggedInt x then a else none := by
  have hiff := fitsTaggedInt_iff (n := x)
  unfold kTaggedIntMin kTaggedIntMax
  cases h : fitsTaggedInt x with
  | true =>
    rw [h] at hiff
    have hb := hiff.mp rfl
    rw [if_neg (by rw [Bool.or_eq_true, decide_eq_true_iff, decide_eq_true_iff]; omega), if_pos rfl]
  | false =>
    rw [h] at hiff
    have hb := mt hiff.mpr Bool.false_ne_true
    rw [if_pos (by rw [Bool.or_eq_true, decide_eq_true_iff, decide_eq_true_iff]; omega)]
    rfl

section
variable {l : TaggedWord} {r : I64}

theorem getUi_toInt (h : 0 ≤ r.toInt) : getUi r.toInt = r.toNat := by
  have hr := r.isLt
  have hcond := BitVec.toInt_eq_toNat_cond r
  unfold getUi
  split at hcond <;> omega

/-- Tagged numbers shift to few words. -/
theorem shiftFits_tagged {k : Nat} (hk : k < 63) : shiftFits l.asInt.toInt k = true := by
  have hb := bounds l
  have hlog : l.asInt.toInt.natAbs.log2 < 64 := by
    by_cases hzero : l.asInt.toInt.natAbs = 0
    · rw [hzero]
      decide
    · rw [Nat.log2_lt hzero]
      omega
  unfold shiftFits limbs
  rw [Bool.or_eq_true, decide_eq_true_eq, decide_eq_true_eq]
  by_cases hzero : l.asInt.toInt = 0
  · exact .inl hzero
  · rw [if_neg hzero]
    omega

theorem pyBinary_lShift (h : 0 ≤ r.toInt) (hr : r.toNat < 63) :
    pyBinary .lShift l.asInt.toInt r.toInt = some (l.asInt.toInt * 2 ^ r.toNat) := by
  unfold pyBinary
  dsimp only
  rw [getUi_toInt h, if_pos (shiftFits_tagged hr)]

theorem pyBinary_rShift (a : Int) (h : 0 ≤ r.toInt) : pyBinary .rShift a r.toInt = some (a >>> r.toNat) := by
  show some (a >>> getUi r.toInt) = _
  rw [getUi_toInt h]

theorem toNat_lt {n : Nat} (h : 0 ≤ r.toInt) (hn : r.toInt < n) : r.toNat < n := by
  have hcond := BitVec.toInt_eq_toNat_cond r
  split at hcond <;> omega

theorem toInt_one_shiftLeft {w k : Nat} (h : k + 1 < w) : (1#w <<< k).toInt = 2 ^ k := by
  rw [← BitVec.twoPow_eq, BitVec.toInt_twoPow, if_neg (by omega), if_neg (by omega)]

theorem toInt_shift128 {k : Nat} (hk : k < 63) :
    ((l.asInt.signExtend 128 : I128) * 1#128 <<< k).toInt = l.asInt.toInt * 2 ^ k := by
  have hb := bounds l
  have hpow : (2 : Int) ^ k ≤ 2 ^ 62 := pow_le_pow_right₀ (by decide) (by omega)
  have hpos : (0 : Int) < 2 ^ k := Int.pow_pos (by decide)
  rw [BitVec.toInt_mul, BitVec.toInt_signExtend_of_le (by decide), toInt_one_shiftLeft (by omega)]
  have hlo : -2 ^ 62 * 2 ^ 62 ≤ l.asInt.toInt * 2 ^ k := by nlinarith
  have hhi : l.asInt.toInt * 2 ^ k ≤ 2 ^ 62 * 2 ^ 62 := by nlinarith
  exact Int.bmod_eq_of_le (by omega) (by omega)

theorem toInt_trunc {x : I128} (h : fitsTaggedInt x.toInt = true) : (x.setWidth 64).toInt = x.toInt := by
  have hb := fitsTaggedInt_iff.mp h
  rw [BitVec.toInt_setWidth, ← Int.bmod_bmod_of_dvd (m := 2 ^ 128) (by decide), ← BitVec.toInt_eq_toNat_bmod]
  exact Int.bmod_eq_of_le (by omega) (by omega)

theorem shiftRight_large {a : Int} {k : Nat} (hlo : -2 ^ 62 ≤ a) (hhi : a < 2 ^ 62) (hk : 64 ≤ k) :
    a >>> k = if a < 0 then -1 else 0 := by
  have hpow : (2 : Int) ^ 64 ≤ 2 ^ k := pow_le_pow_right₀ (by decide) hk
  rw [Int.shiftRight_eq_div_pow]
  push_cast
  split
  next => exact (Int.ediv_eq_iff_of_pos (by omega)).mpr (by omega)
  next => exact Int.ediv_eq_zero_of_lt (by omega) (by omega)

theorem fits_shiftRight (l : TaggedWord) (k : Nat) : fitsTaggedInt (l.asInt.sshiftRight k).toInt = true := by
  have h := fits_sshiftRight (l.bits.sshiftRight k)
  rw [← BitVec.sshiftRight_add, Nat.add_comm, BitVec.sshiftRight_add] at h
  exact h

end

/-! ## The fast paths are exact -/

theorem exact_add : Exact (checked BitVec.saddOverflow (· + ·)) (pyBinary .add) :=
  Exact.checked fun _ _ h => BitVec.toInt_add_of_not_saddOverflow h

theorem exact_sub : Exact (checked BitVec.ssubOverflow (· - ·)) (pyBinary .sub) :=
  Exact.checked fun _ _ h => BitVec.toInt_sub_of_not_ssubOverflow h

theorem exact_mul : Exact (checked BitVec.smulOverflow (· * ·)) (pyBinary .mul) :=
  Exact.checked fun _ _ h => BitVec.toInt_mul_of_not_smulOverflow h

theorem exact_floorDiv : Exact (RtValue.fast .floorDiv) (floored .floorDiv) := by
  intro l r n h
  simp only [RtValue.fast] at h
  split at h
  next hr =>
    have hr' : r.asInt ≠ 0 := by simpa using hr
    have hq := toInt_floorDiv l r.asInt hr'
    generalize (if adjusts (l.asInt.srem r.asInt) r.asInt then l.asInt.sdiv r.asInt - 1 else l.asInt.sdiv r.asInt) = q
      at h hq
    split at h
    next hfits =>
      cases h
      refine ⟨hfits, ?_⟩
      rw [hq]
      exact if_neg (toInt_ne_zero hr')
    next => cases h
  next => cases h

theorem exact_mod : Exact (RtValue.fast .mod) (floored .mod) := by
  intro l r n h
  simp only [RtValue.fast] at h
  split at h
  next hr =>
    have hr' : r.asInt ≠ 0 := by simpa using hr
    cases h
    have hrem := fmod_bounds (a := l.asInt.toInt) (toInt_ne_zero hr')
    have hb := bounds r
    rw [toInt_floorMod l r.asInt hr']
    exact ⟨fitsTaggedInt_iff.mpr (by omega), if_neg (toInt_ne_zero hr')⟩
  next => cases h

theorem exact_rShift : Exact (RtValue.fast .rShift) (pyBinary .rShift) := by
  intro l r n h
  simp only [RtValue.fast] at h
  split at h
  next hr =>
    have hr' : 0 ≤ r.asInt.toInt := by simpa using hr
    have hb := bounds l
    rw [pyBinary_rShift _ hr']
    cases h
    split
    next hlarge =>
      have hk : 64 ≤ r.asInt.toNat := by
        have hcond := BitVec.toInt_eq_toNat_cond r.asInt
        split at hcond <;> omega
      rw [shiftRight_large hb.1 hb.2 hk]
      split <;> exact ⟨by decide, rfl⟩
    next => exact ⟨fits_shiftRight l _, by rw [BitVec.toInt_sshiftRight]⟩
  next => cases h

theorem exact_lShift : Exact (RtValue.fast .lShift) (pyBinary .lShift) := by
  intro l r n h
  simp only [RtValue.fast] at h
  split at h
  next hr =>
    simp only [Bool.and_eq_true, decide_eq_true_eq] at hr
    have hk := toNat_lt (n := 63) hr.1 hr.2
    unfold checked at h
    split at h
    next hok =>
      cases h
      rw [Bool.and_eq_true, Bool.not_eq_true'] at hok
      refine ⟨hok.2, ?_⟩
      rw [pyBinary_lShift hr.1 hk, BitVec.toInt_mul_of_not_smulOverflow (by simp [hok.1]),
        toInt_one_shiftLeft (by omega)]
    next => cases h
  next => cases h

theorem RtValue.exact_fast : ∀ op, Exact (RtValue.fast op) (floored op)
  | .add => exact_add
  | .sub => exact_sub
  | .mul => exact_mul
  | .floorDiv => exact_floorDiv
  | .mod => exact_mod
  | .lShift => exact_lShift
  | .rShift => exact_rShift
  | .bitAnd => exact_and
  | .bitOr => exact_or
  | .bitXor => exact_xor

/-- But for the left shift the runtime's helpers compute the same numbers. -/
theorem RtOp.fast_eq {op : TaggedBinaryOp} (hop : op ≠ .lShift) (l r : I64) : RtOp.fast op l r = RtValue.fast op l r := by
  cases op with
  | floorDiv =>
    simp only [RtOp.fast, RtValue.fast]
    generalize (if adjusts (l.srem r) r then l.sdiv r - 1 else l.sdiv r) = q
    cases hq : fitsTaggedInt q.toInt <;> simp
  | mod => simp [RtOp.fast, RtValue.fast]
  | lShift => exact absurd rfl hop
  | rShift =>
    by_cases h : 0 ≤ r.toInt
    · by_cases hl : 64 ≤ r.toInt
      · simp [RtOp.fast, RtValue.fast, h, hl]
      · simp [RtOp.fast, RtValue.fast, h, hl]
    · simp [RtOp.fast, RtValue.fast, h, Int.lt_of_not_ge h]
  | _ => rfl

theorem RtOp.exact_lShift : Exact (RtOp.fast .lShift) (pyBinary .lShift) := by
  intro l r n h
  simp only [RtOp.fast] at h
  split at h
  next => cases h
  next hr =>
    simp only [Bool.or_eq_true, decide_eq_true_eq, not_or, Int.not_lt, Int.not_le] at hr
    have hk := toNat_lt (n := 63) hr.1 hr.2
    have hresult := toInt_shift128 (l := l) hk
    rw [ite_outside] at h
    split at h
    next hfits =>
      cases h
      rw [toInt_trunc hfits, pyBinary_lShift hr.1 hk]
      exact ⟨hfits, by rw [hresult]⟩
    next => cases h

theorem RtOp.exact_fast (op : TaggedBinaryOp) : Exact (RtOp.fast op) (floored op) := by
  by_cases hop : op = .lShift
  · rw [hop]
    exact RtOp.exact_lShift
  · intro l r n h
    rw [RtOp.fast_eq hop] at h
    exact RtValue.exact_fast op l r n h

/-! ## The emitted code -/

theorem IREmitter.fits_i64 (x : I64) : IREmitter.fits x = fitsTaggedInt x.toInt := by
  have hmin : (BitVec.ofInt 64 kTaggedIntMin).toInt = kTaggedIntMin := by decide
  have hmax : (BitVec.ofInt 64 kTaggedIntMax).toInt = kTaggedIntMax := by decide
  show (decide (_ ≤ _) && decide (_ ≤ _)) = _
  rw [hmin, hmax]
  rfl

theorem IREmitter.fits_i128 (x : I128) : IREmitter.fits x = fitsTaggedInt x.toInt := by
  have hmin : (BitVec.ofInt 128 kTaggedIntMin).toInt = kTaggedIntMin := by decide
  have hmax : (BitVec.ofInt 128 kTaggedIntMax).toInt = kTaggedIntMax := by decide
  show (decide (_ ≤ _) && decide (_ ≤ _)) = _
  rw [hmin, hmax]
  rfl

theorem sub_ofBool (q : I64) (b : Bool) : q - (BitVec.ofBool b).setWidth 64 = if b then q - 1 else q := by
  cases b with
  | false => exact BitVec.sub_zero q
  | true => rfl

/-- The emitted code computes the numbers that the runtime's helpers do. -/
theorem IREmitter.fast_eq (op : TaggedBinaryOp) (l r : I64) : IREmitter.fast op l r = RtOp.fast op l r := by
  cases op with
  | add => simp only [IREmitter.fast, RtOp.fast, checked, IREmitter.fits_i64]
  | sub => simp only [IREmitter.fast, RtOp.fast, checked, IREmitter.fits_i64]
  | mul => simp only [IREmitter.fast, RtOp.fast, checked, IREmitter.fits_i64]
  | floorDiv =>
    simp only [IREmitter.fast, RtOp.fast, IREmitter.fits_i64, sub_ofBool]
    rw [show (l.srem r != 0#64 && (l.srem r ^^^ r).slt 0#64) = adjusts (l.srem r) r from rfl]
    generalize (if adjusts (l.srem r) r then l.sdiv r - 1 else l.sdiv r) = q
    cases hq : fitsTaggedInt q.toInt <;> simp
  | mod => simp [IREmitter.fast, RtOp.fast, adjusts]
  | lShift =>
    have hshift : (l.signExtend 128 : I128) <<< r.setWidth 128 = l.signExtend 128 * 1#128 <<< r.toNat := by
      rw [← BitVec.twoPow_eq, ← BitVec.shiftLeft_eq_mul_twoPow, BitVec.shiftLeft_eq', BitVec.toNat_setWidth,
        Nat.mod_eq_of_lt (Nat.lt_of_lt_of_le r.isLt (by decide))]
    simp only [IREmitter.fast, RtOp.fast, IREmitter.fits_i128, hshift, ite_outside]
    generalize (l.signExtend 128 * 1#128 <<< r.toNat : I128) = x
    rw [show (0#64).sle r = decide (0 ≤ r.toInt) from rfl, show r.slt 63#64 = decide (r.toInt < 63) from rfl]
    by_cases h₁ : 0 ≤ r.toInt
    · by_cases h₂ : r.toInt < 63
      · simp [h₁, h₂, Int.not_lt.mpr h₁, Int.not_le.mpr h₂]
      · simp [h₂, Int.not_lt.mp h₂]
    · simp [h₁, Int.not_le.mp h₁]
  | rShift =>
    simp only [IREmitter.fast, RtOp.fast]
    rw [show (0#64).sle r = decide (0 ≤ r.toInt) from rfl, show (64#64).sle r = decide (64 ≤ r.toInt) from rfl,
      show l.slt 0#64 = decide (l.toInt < 0) from rfl]
    by_cases h : 0 ≤ r.toInt
    · simp [h, Int.not_lt.mpr h]
    · simp [h, Int.not_le.mp h]
  | _ => rfl

theorem IREmitter.exact_fast (op : TaggedBinaryOp) : Exact (IREmitter.fast op) (floored op) := by
  intro l r n h
  rw [IREmitter.fast_eq] at h
  exact RtOp.exact_fast op l r n h

/-! ## Unary operations -/

theorem RtOp.exact_fastUnary {op : TaggedUnaryOp} {w : TaggedWord} {n : I64} (h : RtOp.fastUnary op w.asInt = some n) :
    fitsTaggedInt n.toInt = true ∧ pyUnary op w.asInt.toInt = n.toInt := by
  have hb := bounds w
  cases op with
  | neg =>
    simp only [RtOp.fastUnary] at h
    split at h
    next => cases h
    next hne =>
      cases h
      have hneg : (-w.asInt).toInt = -w.asInt.toInt := by
        rw [BitVec.toInt_neg]
        exact Int.bmod_eq_of_le (by omega) (by omega)
      unfold kTaggedIntMin at hne
      rw [hneg]
      exact ⟨fitsTaggedInt_iff.mpr (by omega), rfl⟩
  | invert =>
    cases h
    have hlnot := lnot_eq w.asInt.toInt
    rw [toInt_not (by decide)]
    exact ⟨fitsTaggedInt_iff.mpr (by omega), rfl⟩

/-! ## Agreement -/

section
variable {op : TaggedBinaryOp} {x y : RtValue}

/-- Where rounding makes no difference, every copy gives the integer of the boxed operation. -/
theorem paths_agree (h : pyBinary op x.box y.box = floored op x.box y.box) :
    ∀ path ∈ [RtValue.binary op, RtOp.binary op, IREmitter.binary op],
      (path x y).map RtValue.box = pyBinary op x.box y.box := by
  have hslow : ∀ x' y' : RtValue, x'.box = x.box → y'.box = y.box →
      (RtValue.slow op x' y').map RtValue.box = floored op x'.box y'.box := by
    intro x' y' hx hy
    rw [RtValue.box_slow, hx, hy, h]
  have hrt : (RtOp.binary op x y).map RtValue.box = floored op x.box y.box := by
    refine (RtOp.exact_fast op).binaryWith ?_
    rw [(RtOp.exact_fast op).binaryWith (hslow _ _ (box_flatten x) (box_flatten y)), box_flatten, box_flatten]
  intro path hpath
  rw [h]
  simp only [List.mem_cons, List.not_mem_nil, or_false] at hpath
  rcases hpath with rfl | rfl | rfl
  · exact (RtValue.exact_fast op).binaryWith (hslow x y rfl rfl)
  · exact hrt
  · exact (IREmitter.exact_fast op).binaryWith hrt

theorem fits_of_fast : ∀ fast ∈ [RtValue.fast op, RtOp.fast op, IREmitter.fast op], ∀ (l r : TaggedWord) (n : I64),
    fast l.asInt r.asInt = some n → fitsTaggedInt n.toInt = true := by
  intro fast hfast l r n h
  simp only [List.mem_cons, List.not_mem_nil, or_false] at hfast
  rcases hfast with rfl | rfl | rfl
  · exact (RtValue.exact_fast op l r n h).1
  · exact (RtOp.exact_fast op l r n h).1
  · exact (IREmitter.exact_fast op l r n h).1

end

theorem floored_eq {op : TaggedBinaryOp} (h₁ : op ≠ .floorDiv) (h₂ : op ≠ .mod) : floored op = pyBinary op := by
  cases op with
  | floorDiv => exact absurd rfl h₁
  | mod => exact absurd rfl h₂
  | _ => rfl

theorem RtOp.box_unary (op : TaggedUnaryOp) (x : RtValue) : (RtOp.unary op x).box = pyUnary op x.box := by
  have hbox := box_flatten x
  unfold RtOp.unary
  split
  next w hw =>
    rw [hw] at hbox
    split
    next n hn =>
      obtain ⟨hfits, hresult⟩ := RtOp.exact_fastUnary hn
      show (fromInt n).asInt.toInt = _
      rw [asInt_fromInt hfits, ← hbox]
      exact hresult.symm
    next => rfl
  next => exact congrArg (pyUnary op) hbox

/-- **However the operands are held and whichever copy runs, the integer is the one that the boxed operation gives; and
what a fast path tags is in the range, where untagging gives it back.** -/
theorem tagged_paths_agree :
    (∀ op : TaggedBinaryOp, op ≠ .floorDiv → op ≠ .mod → ∀ x y : RtValue,
      (∀ path ∈ [RtValue.binary op, RtOp.binary op, IREmitter.binary op],
        (path x y).map RtValue.box = pyBinary op x.box y.box) ∧
      ∀ fast ∈ [RtValue.fast op, RtOp.fast op, IREmitter.fast op], ∀ (l r : TaggedWord) (n : I64),
        fast l.asInt r.asInt = some n → fitsTaggedInt n.toInt = true ∧ (fromInt n).asInt = n) ∧
    ∀ (op : TaggedUnaryOp) (x : RtValue), (RtOp.unary op x).box = pyUnary op x.box ∧
      ∀ (w : TaggedWord) (n : I64), RtOp.fastUnary op w.asInt = some n →
        fitsTaggedInt n.toInt = true ∧ (fromInt n).asInt = n := by
  constructor
  · intro op h₁ h₂ x y
    refine ⟨paths_agree (by rw [floored_eq h₁ h₂]), fun fast hfast l r n h => ?_⟩
    have hfits := fits_of_fast fast hfast l r n h
    exact ⟨hfits, asInt_fromInt hfits⟩
  · intro op x
    refine ⟨RtOp.box_unary op x, fun w n h => ?_⟩
    have hfits := (RtOp.exact_fastUnary h).1
    exact ⟨hfits, asInt_fromInt hfits⟩

/-- The largest tagged integer times itself. -/
theorem tagged_paths_agree_max :
    (RtValue.binary .mul (.tagged (fromInt (2 ^ 62 - 1))) (.tagged (fromInt (2 ^ 62 - 1)))).map RtValue.box =
      some ((2 ^ 62 - 1) ^ 2) := by
  have h := (tagged_paths_agree.1 .mul (by decide) (by decide) (.tagged (fromInt (2 ^ 62 - 1)))
    (.tagged (fromInt (2 ^ 62 - 1)))).1 (RtValue.binary .mul) (by simp)
  rw [h]
  decide +kernel

/-! ## Division -/

/-- The pair Python prescribes. -/
def IsDivmod (a b q r : Int) : Prop := a = q * b + r ∧ r.natAbs < b.natAbs ∧ (r = 0 ∨ r.sign = b.sign)

/-- `//`, `%` and `divmod` give the same pair, the right one, however the operands are held. -/
def DivisionAgrees (a b : Int) : Prop :=
  ∃ q r, IsDivmod a b q r ∧ pyDivmod a b = some (q, r) ∧ pyBinary .floorDiv a b = some q ∧ pyBinary .mod a b = some r ∧
    ∀ x y : RtValue, x.box = a → y.box = b → ∀ path ∈ [RtValue.binary, RtOp.binary, IREmitter.binary],
      (path .floorDiv x y).map RtValue.box = some q ∧ (path .mod x y).map RtValue.box = some r

theorem isDivmod_fdiv {a b : Int} (hb : b ≠ 0) : IsDivmod a b (a.fdiv b) (a.fmod b) := by
  obtain ⟨habs, hsign⟩ := fmod_bounds (a := a) hb
  refine ⟨(Int.fdiv_mul_add_fmod a b).symm, habs, ?_⟩
  rcases hsign with h | ⟨h₁, h₂⟩ | ⟨h₁, h₂⟩
  · exact .inl h
  · exact .inr (by rw [Int.sign_eq_one_of_pos h₁, Int.sign_eq_one_of_pos h₂])
  · exact .inr (by rw [Int.sign_eq_neg_one_of_neg h₁, Int.sign_eq_neg_one_of_neg h₂])

theorem not_mixed_iff {a b : Int} (hb : b ≠ 0) : ¬Mixed a b ↔ b ∣ a ∨ 0 ≤ a ∧ 0 < b ∨ a < 0 ∧ b < 0 := by
  unfold Mixed
  by_cases hdvd : b ∣ a
  · simp [hdvd]
  · have hrest : ¬(a < 0 ∧ 0 < b ∨ 0 ≤ a ∧ b < 0) ↔ 0 ≤ a ∧ 0 < b ∨ a < 0 ∧ b < 0 := by
      clear hdvd
      omega
    simp [hdvd, hrest]

/-- **`//`, `%` and `divmod` agree and are right exactly where the division is exact or the signs are the same.** -/
theorem division_agrees_iff (a b : Int) (hb : b ≠ 0) :
    DivisionAgrees a b ↔ b ∣ a ∨ 0 ≤ a ∧ 0 < b ∨ a < 0 ∧ b < 0 := by
  rw [← not_mixed_iff hb]
  constructor
  · intro h hmixed
    obtain ⟨q, r, -, hdivmod, hquot, -⟩ := h
    have hq : a.fdiv b = q := congrArg Prod.fst (Option.some.inj ((if_neg hb).symm.trans hdivmod))
    have hq' : a.tdiv b = q := Option.some.inj ((if_neg hb).symm.trans hquot)
    have := fdiv_of_mixed hmixed
    omega
  · intro h
    have hquot : pyBinary .floorDiv a b = some (a.fdiv b) := by
      rw [fdiv_of_not_mixed h]
      exact if_neg hb
    have hrem : pyBinary .mod a b = some (a.fmod b) := by
      rw [fmod_of_not_mixed h]
      exact if_neg hb
    refine ⟨_, _, isDivmod_fdiv hb, if_neg hb, hquot, hrem, ?_⟩
    intro x y h hcase path hpath
    obtain rfl := h
    obtain rfl := hcase
    have hq : floored .floorDiv x.box y.box = some (x.box.fdiv y.box) := if_neg hb
    have hr : floored .mod x.box y.box = some (x.box.fmod y.box) := if_neg hb
    have hpaths : ∀ op, path op ∈ [RtValue.binary op, RtOp.binary op, IREmitter.binary op] := by
      intro op
      simp only [List.mem_cons, List.not_mem_nil, or_false] at hpath ⊢
      rcases hpath with rfl | rfl | rfl <;> simp
    rw [← hquot, ← hrem]
    exact ⟨paths_agree (by rw [hquot, hq]) _ (hpaths _), paths_agree (by rw [hrem, hr]) _ (hpaths _)⟩

theorem division_agrees_seven : DivisionAgrees (-7) (-2) := (division_agrees_iff (-7) (-2) (by decide)).mpr (by decide)

/-- The boxed operators round towards zero where `divmod` and the fast paths round down. -/
theorem boxed_division_truncates :
    pyBinary .floorDiv (-7) 2 = some (-3) ∧ pyBinary .mod (-7) 2 = some (-1) ∧ pyDivmod (-7) 2 = some (-4, 1) ∧
    (RtValue.binary .floorDiv (.tagged (fromInt (-7))) (.tagged (fromInt 2))).map RtValue.box = some (-4) ∧
    ¬DivisionAgrees (-7) 2 := by
  refine ⟨by decide, by decide, by decide, by decide, fun h => ?_⟩
  obtain ⟨q, r, -, hdivmod, hquot, -⟩ := h
  cases hdivmod
  exact absurd hquot (by decide)

end Pylang.Tagged
