/-
`PyInteger::__new__` of a string. The characters are those of the string's
bytes. With a base the string goes to GMP, whose reading of a string without
white space is `mpzInitSetStr`; without one it goes to `std::stod`, which is
given where the string is more than a sign and decimal digits.
-/
import Mathlib.Data.List.TakeWhile
import Mathlib.Data.Nat.Digits.Lemmas
import Mathlib.Data.Rat.Lemmas

namespace Pylang.Runtime.PyInteger

/-- What `__new__` ends with in place of an integer. -/
inductive Stop
  | typeError (message : String)
  | valueError (message : String)
  /-- The exceptions of `std::stod`, which nothing catches. -/
  | invalidArgument
  | outOfRange
  /-- The conversion of a double that is no `int64_t`. -/
  | undefined
  deriving DecidableEq

structure Base where
  value : Nat
  two_le : 2 ≤ value
  le : value ≤ 36

/-! ## Numerals -/

/-- `std::isspace` in the `C` locale. -/
def isspace (c : Char) : Bool := c.toNat = 32 ∨ 9 ≤ c.toNat ∧ c.toNat ≤ 13

/-- GMP's table, for a base that ignores case. -/
def digitValue (c : Char) : Option Nat :=
  if 48 ≤ c.toNat ∧ c.toNat ≤ 57 then some (c.toNat - 48)
  else if 97 ≤ c.toNat ∧ c.toNat ≤ 122 then some (c.toNat - 97 + 10)
  else if 65 ≤ c.toNat ∧ c.toNat ≤ 90 then some (c.toNat - 65 + 10)
  else none

def digit (base : Nat) (c : Char) : Option Nat := (digitValue c).filter (· < base)

/-- The value of a string of digits. -/
def numeral (base : Nat) (s : List Char) : Option Nat :=
  if !s.isEmpty && s.all fun c => (digit base c).isSome then some (Nat.ofDigits base (s.filterMap (digit base)).reverse)
  else none

/-- The value of digits that may have a minus before them. -/
def signed (base : Nat) : List Char → Option ℤ
  | '-' :: digits => (numeral base digits).map fun v : Nat => -(v : ℤ)
  | digits => (numeral base digits).map fun v : Nat => (v : ℤ)

/-- `get_str` of a `BigIntType`. -/
def getStr (n : ℤ) : List Char :=
  let magnitude := if n = 0 then ['0'] else (Nat.digits 10 n.natAbs).reverse.map Nat.digitChar
  if n < 0 then '-' :: magnitude else magnitude

/-! ## The constructor -/

/-- `mpz_init_set_str` of a C string, if it returns 0. -/
def mpzInitSetStr (str : List Char) (base : Nat) : Option ℤ := signed base (str.takeWhile (· ≠ '\x00'))

/-- The double next to a natural number, ties to even. -/
def nearestDouble (m : Nat) : Nat :=
  let k := m.log2 - 52
  let q := m / 2 ^ k
  let r := m % 2 ^ k
  (if 2 ^ k < 2 * r ∨ 2 ^ k = 2 * r ∧ q % 2 = 1 then q + 1 else q) * 2 ^ k

/-- A double that is a number, or none, and the characters it was read from. -/
abbrev Read := Except Stop (Option ℚ × Nat)

/-- `std::stod`, with `other` for what is not an integer's numeral. -/
def stod (other : List Char → Read) (str : List Char) : Read :=
  let decimal := match str with
    | '+' :: digits => (numeral 10 digits).map fun v : Nat => (v : ℤ)
    | str => signed 10 str
  match decimal with
  | some n =>
    if nearestDouble n.natAbs < 2 ^ 1024 then .ok (some (n.sign * nearestDouble n.natAbs : ℤ), str.length)
    else .error .outOfRange
  | none => other str

/-- `static_cast<int64_t>`. -/
def toInt64 : Option ℚ → Except Stop ℤ
  | some q =>
    let n := q.num.tdiv q.den
    if -2 ^ 63 ≤ n ∧ n < 2 ^ 63 then .ok n else .error .undefined
  | none => .error .undefined

def invalidLiteral (str : List Char) : Stop := .typeError s!"invalid literal for int(): '{String.ofList str}'"

/-- `__new__` of a string. -/
def new (other : List Char → Read) (value : List Char) (base : Option Base) : Except Stop ℤ :=
  let str := value.filter (!isspace ·)
  match base with
  | some b =>
    match mpzInitSetStr str b.value with
    | some result => .ok result
    | none => .error (invalidLiteral str)
  | none => (stod other str).bind fun (result, pos) =>
    if pos ≠ str.length then .error (invalidLiteral str) else toInt64 result

/-! ## What is asked of it -/

/-- A numeral of a base: white space, a sign, digits, white space. -/
structure Numeral (base : Nat) (s : List Char) (n : ℤ) (before sign digits after : List Char) (v : Nat) :
    Prop where
  parts : s = before ++ sign ++ digits ++ after
  space : ∀ c ∈ before ++ after, isspace c = true
  digits : numeral base digits = some v
  sign : sign = [] ∧ n = v ∨ sign = ['+'] ∧ n = v ∨ sign = ['-'] ∧ n = -v

def IsNumeral (base : Nat) (s : List Char) (n : ℤ) : Prop :=
  ∃ before sign digits after v, Numeral base s n before sign digits after v

/-- The numerals of the base are read, and there is a `ValueError` for the rest. -/
structure ParsesRight (other : List Char → Read) (b : Base) (s : List Char) : Prop where
  value : ∀ n, IsNumeral b.value s n → new other s (some b) = .ok n
  invalid : (∀ n, ¬ IsNumeral b.value s n) → ∃ message, new other s (some b) = .error (.valueError message)

variable {base v d : Nat} {s : List Char} {c : Char} {n : ℤ} {other : List Char → Read}

/-! ## Digits -/

/-- A character that no part of a numeral but its digits has. -/
structure Plain (c : Char) : Prop where
  minus : c ≠ '-'
  plus : c ≠ '+'
  nul : c ≠ '\x00'
  space : isspace c = false

theorem plain_of_digit (h : (digit base c).isSome) : Plain c := by
  have hrange : 48 ≤ c.toNat ∧ c.toNat ≤ 57 ∨ 97 ≤ c.toNat ∧ c.toNat ≤ 122 ∨ 65 ≤ c.toNat ∧ c.toNat ≤ 90 := by
    by_contra hout
    have hnone : digitValue c = none := by
      unfold digitValue
      rw [if_neg (by omega), if_neg (by omega), if_neg (by omega)]
    rw [digit, hnone] at h
    cases h
  constructor
  · intro h
    obtain rfl := h
    revert hrange
    decide
  · intro h
    obtain rfl := h
    revert hrange
    decide
  · intro h
    obtain rfl := h
    revert hrange
    decide
  · unfold isspace
    exact decide_eq_false (by omega)

theorem plain_of_numeral (h : numeral base s = some v) : ∀ c ∈ s, Plain c := by
  unfold numeral at h
  split at h
  next hdigits => exact fun c hc => plain_of_digit (List.all_eq_true.mp (Bool.and_eq_true_iff.mp hdigits).2 c hc)
  next => cases h

theorem signed_of_numeral (h : numeral base s = some v) : signed base s = some (v : ℤ) := by
  unfold signed
  split
  next digits => exact absurd rfl (plain_of_numeral h '-' List.mem_cons_self).minus
  next => rw [h]; rfl

theorem signed_minus (h : numeral base s = some v) : signed base ('-' :: s) = some (-v : ℤ) := by
  simp only [signed, h, Option.map_some]

theorem signed_plus : signed base ('+' :: s) = none := by
  unfold signed
  split
  next heq => simp at heq
  next =>
    rw [Option.map_eq_none_iff, Option.eq_none_iff_forall_ne_some]
    exact fun v h => absurd rfl (plain_of_numeral h '+' List.mem_cons_self).plus

/-! ## With a base -/

theorem Numeral.filter {before sign digits after : List Char} (h : Numeral base s n before sign digits after v) :
    s.filter (!isspace ·) = sign ++ digits := by
  have hspaces : ∀ l : List Char, (∀ c ∈ l, isspace c = true) → l.filter (!isspace ·) = [] := by
    intro l hl
    exact List.filter_eq_nil_iff.mpr fun c hc => by simp [hl c hc]
  have hsign : sign.filter (!isspace ·) = sign := by
    rcases h.sign with ⟨rfl, -⟩ | ⟨rfl, -⟩ | ⟨rfl, -⟩ <;> rfl
  have hdigits : digits.filter (!isspace ·) = digits :=
    List.filter_eq_self.mpr fun c hc => by simp [(plain_of_numeral h.digits c hc).space]
  rw [h.parts, List.filter_append, List.filter_append, List.filter_append, hsign, hdigits,
    hspaces before fun c hc => h.space c (List.mem_append_left _ hc),
    hspaces after fun c hc => h.space c (List.mem_append_right _ hc)]
  simp

theorem Numeral.mpzInitSetStr {before sign digits after : List Char} (h : Numeral base s n before sign digits after v) :
    mpzInitSetStr (s.filter (!isspace ·)) base = if sign = ['+'] then none else some n := by
  have hnul : (sign ++ digits).takeWhile (· ≠ '\x00') = sign ++ digits := by
    refine List.takeWhile_eq_self_iff.mpr fun c hc => ?_
    rcases List.mem_append.mp hc with hc | hc
    · rcases h.sign with ⟨rfl, -⟩ | ⟨rfl, -⟩ | ⟨rfl, -⟩
      · cases hc
      · rw [List.mem_singleton.mp hc]; decide
      · rw [List.mem_singleton.mp hc]; decide
    · exact decide_eq_true (plain_of_numeral h.digits c hc).nul
  unfold PyInteger.mpzInitSetStr
  rw [h.filter, hnul]
  rcases h.sign with ⟨rfl, rfl⟩ | ⟨rfl, rfl⟩ | ⟨rfl, rfl⟩
  · rw [if_neg (by simp)]
    exact signed_of_numeral h.digits
  · rw [if_pos rfl]
    exact signed_plus
  · rw [if_neg (by decide)]
    exact signed_minus h.digits

theorem Numeral.plus_mem {before sign digits after : List Char} (h : Numeral base s n before sign digits after v) :
    '+' ∈ s ↔ sign = ['+'] := by
  have hspace : ¬ '+' ∈ before ++ after := fun hc => absurd (h.space '+' hc) (by decide)
  have hdigits : ¬ '+' ∈ digits := fun hc => absurd rfl (plain_of_numeral h.digits '+' hc).plus
  rw [List.mem_append] at hspace
  rw [h.parts]
  rcases h.sign with ⟨rfl, -⟩ | ⟨rfl, -⟩ | ⟨rfl, -⟩ <;> simp [hdigits, not_or.mp hspace]

theorem new_ne_valueError (b : Base) (message : String) : new other s (some b) ≠ .error (.valueError message) := by
  unfold new invalidLiteral
  dsimp only
  split <;> simp

theorem parsesRight_iff (b : Base) (s : List Char) :
    ParsesRight other b s ↔ (∃ n, IsNumeral b.value s n) ∧ '+' ∉ s := by
  constructor
  · intro h
    obtain ⟨n, hn⟩ : ∃ n, IsNumeral b.value s n := by
      by_contra hnone
      obtain ⟨message, hvalue⟩ := h.invalid (not_exists.mp hnone)
      exact new_ne_valueError b message hvalue
    refine ⟨⟨n, hn⟩, fun hplus => ?_⟩
    have hnew := h.value n hn
    obtain ⟨before, sign, digits, after, v, hparts⟩ := hn
    unfold new at hnew
    dsimp only at hnew
    rw [hparts.mpzInitSetStr, if_pos (hparts.plus_mem.mp hplus)] at hnew
    cases hnew
  · intro h
    obtain ⟨⟨n, hn⟩, hplus⟩ := h
    refine ⟨fun n' hn' => ?_, fun hnone => absurd hn (hnone n)⟩
    obtain ⟨before, sign, digits, after, v, hparts⟩ := hn'
    unfold new
    dsimp only
    rw [hparts.mpzInitSetStr, if_neg (hparts.plus_mem.not.mp hplus)]

/-! ## Without a base -/

theorem digit_digitChar (hd : d < 10) : digit 10 (Nat.digitChar d) = some d := by
  interval_cases d <;> rfl

theorem numeral_digits (m : Nat) :
    numeral 10 (if m = 0 then ['0'] else (Nat.digits 10 m).reverse.map Nat.digitChar) = some m := by
  by_cases hm : m = 0
  · rw [if_pos hm, hm]
    rfl
  · have hdigits : ∀ d ∈ (Nat.digits 10 m).reverse, digit 10 (Nat.digitChar d) = some d :=
      fun d hd => digit_digitChar (Nat.digits_lt_base (by decide) (List.mem_reverse.mp hd))
    have hvalues : ((Nat.digits 10 m).reverse.map Nat.digitChar).filterMap (digit 10) = (Nat.digits 10 m).reverse := by
      rw [List.filterMap_map]
      exact (List.filterMap_congr hdigits).trans List.filterMap_some
    rw [if_neg hm, numeral, if_pos, hvalues, List.reverse_reverse, Nat.ofDigits_digits]
    refine Bool.and_eq_true_iff.mpr ⟨by simp [Nat.digits_eq_nil_iff_eq_zero, hm], List.all_eq_true.mpr fun c hc => ?_⟩
    obtain ⟨d, hd, rfl⟩ := List.mem_map.mp hc
    rw [hdigits d hd]
    rfl

theorem getStr_eq (n : ℤ) : ∃ digits, numeral 10 digits = some n.natAbs ∧
    (n < 0 ∧ getStr n = '-' :: digits ∨ 0 ≤ n ∧ getStr n = digits) := by
  refine ⟨_, numeral_digits n.natAbs, ?_⟩
  unfold getStr
  simp only [Int.natAbs_eq_zero]
  by_cases hneg : n < 0
  · exact .inl ⟨hneg, if_pos hneg⟩
  · exact .inr ⟨by omega, if_neg hneg⟩

theorem stod_getStr (n : ℤ) : stod other (getStr n) =
    if nearestDouble n.natAbs < 2 ^ 1024 then .ok (some (n.sign * nearestDouble n.natAbs : ℤ), (getStr n).length)
    else .error .outOfRange := by
  have hdecimal : (match getStr n with
      | '+' :: digits => (numeral 10 digits).map fun v : Nat => (v : ℤ)
      | str => signed 10 str) = some n := by
    obtain ⟨digits, hdigits, ⟨hneg, hstr⟩ | ⟨hpos, hstr⟩⟩ := getStr_eq n
    · rw [hstr]
      exact (signed_minus hdigits).trans (congrArg some (by omega))
    · rw [hstr]
      split
      next digits => exact absurd rfl (plain_of_numeral hdigits '+' List.mem_cons_self).plus
      next => exact (signed_of_numeral hdigits).trans (congrArg some (by omega))
  unfold stod
  rw [hdecimal]

theorem filter_getStr (n : ℤ) : (getStr n).filter (!isspace ·) = getStr n := by
  refine List.filter_eq_self.mpr fun c hc => ?_
  obtain ⟨digits, hdigits, ⟨-, hstr⟩ | ⟨-, hstr⟩⟩ := getStr_eq n <;> rw [hstr] at hc
  · rcases List.mem_cons.mp hc with rfl | hc
    · rfl
    · simp [(plain_of_numeral hdigits c hc).space]
  · simp [(plain_of_numeral hdigits c hc).space]

theorem toInt64_intCast (k : ℤ) :
    toInt64 (some (k : ℚ)) = if -2 ^ 63 ≤ k ∧ k < 2 ^ 63 then .ok k else .error .undefined := by
  simp [toInt64]

theorem new_getStr (n : ℤ) : new other (getStr n) none =
    if nearestDouble n.natAbs < 2 ^ 1024 then toInt64 (some (n.sign * nearestDouble n.natAbs : ℤ))
    else .error .outOfRange := by
  unfold new
  dsimp only
  rw [filter_getStr, stod_getStr]
  split
  next => exact if_neg (not_not.mpr rfl)
  next => rfl

theorem nearestDouble_eq_iff (m : Nat) : nearestDouble m = m ↔ 2 ^ (m.log2 - 52) ∣ m := by
  unfold nearestDouble
  constructor
  · intro h
    exact Dvd.intro_left _ h
  · intro h
    have hrest := Nat.mod_eq_zero_of_dvd h
    have hpos : 0 < 2 ^ (m.log2 - 52) := Nat.two_pow_pos _
    dsimp only
    rw [if_neg (by omega)]
    exact Nat.div_mul_cancel h

theorem new_getStr_iff (n : ℤ) : new other (getStr n) none = .ok n ↔
    (-2 ^ 63 ≤ n ∧ n < 2 ^ 63) ∧ 2 ^ (n.natAbs.log2 - 52) ∣ n.natAbs := by
  rw [new_getStr, ← nearestDouble_eq_iff]
  constructor
  · intro h
    split at h
    next =>
      rw [toInt64_intCast] at h
      split at h
      next hrange =>
        have heq : n.sign * nearestDouble n.natAbs = n := Except.ok.inj h
        rw [heq] at hrange
        refine ⟨hrange, ?_⟩
        by_cases hzero : n = 0
        · subst hzero
          rfl
        · have habs := congrArg Int.natAbs heq
          rwa [Int.natAbs_mul, Int.natAbs_sign_of_ne_zero hzero, one_mul, Int.natAbs_natCast] at habs
      next => cases h
    next => cases h
  · intro h
    obtain ⟨hrange, hdouble⟩ := h
    have hword : n.natAbs ≤ 2 ^ 63 := by omega
    have hsmall : n.natAbs < 2 ^ 1024 := by
      refine hword.trans_lt ?_
      apply Nat.pow_lt_pow_right <;> decide
    rw [hdouble, if_pos hsmall, Int.sign_mul_natAbs, toInt64_intCast, if_pos hrange]

/-- **`int` reads back** just the integers that are doubles and fit a word, and
with a base just the numerals without a plus, with white space around them. -/
theorem new_iff (other : List Char → Read) :
    (∀ n : ℤ, new other (getStr n) none = .ok n ↔ (-2 ^ 63 ≤ n ∧ n < 2 ^ 63) ∧ 2 ^ (n.natAbs.log2 - 52) ∣ n.natAbs) ∧
    ∀ (b : Base) (s : List Char), ParsesRight other b s ↔ (∃ n, IsNumeral b.value s n) ∧ '+' ∉ s :=
  ⟨new_getStr_iff, parsesRight_iff⟩

/-- `int(str(2**53 + 1))`, `int('+7', 10)`, `int('x', 10)` and `int('1 2', 10)`. -/
theorem new_wrong :
    new (fun _ => .error .invalidArgument) (getStr (2 ^ 53 + 1)) none = .ok (2 ^ 53) ∧
    ¬ ParsesRight (fun _ => .error .invalidArgument) ⟨10, by decide, by decide⟩ ['+', '7'] ∧
    ¬ ParsesRight (fun _ => .error .invalidArgument) ⟨10, by decide, by decide⟩ ['x'] ∧
    new (fun _ => .error .invalidArgument) ['1', ' ', '2'] (some ⟨10, by decide, by decide⟩) = .ok 12 := by
  refine ⟨?_, fun h => ?_, fun h => ?_, rfl⟩
  · rw [new_getStr]
    decide +kernel
  · have hvalue := h.value 7 ⟨[], ['+'], ['7'], [], 7, rfl, by simp, rfl, .inr (.inl ⟨rfl, rfl⟩)⟩
    cases hvalue
  · obtain ⟨message, hvalue⟩ := h.invalid fun n hn => by cases h.value n hn
    cases hvalue

end Pylang.Runtime.PyInteger
