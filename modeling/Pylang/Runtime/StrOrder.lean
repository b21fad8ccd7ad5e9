/-
`PyString::__lt__`. It compares the bytes, whose order is that of the code points,
but for an object and itself, where it says that it is less.
-/
import Pylang.Lib.Ensures
import Pylang.Runtime.Slice
import Pylang.Runtime.Utf8

namespace Pylang.Runtime.StrOrder

/-- An object at an address: a string with its value, or another one. -/
inductive Object where
  | str (typeName : String) (value : Bytes)
  | other (typeName : String)
  deriving DecidableEq

def Object.typeName : Object → String
  | str typeName _ | other typeName => typeName

section
variable (heap : Nat → Object)

/-- `as<PyString>` of two objects, the first of which is one. -/
def values (this obj : Nat) (op : String) : Except SliceStop (Bytes × Bytes) :=
  match heap this, heap obj with
  | .str _ value, .str _ value' => .ok (value, value')
  | .str typeName _, .other otherName =>
    .error (.typeError s!"'{op}' not supported between instances of '{typeName}' and '{otherName}'")
  | .other _, _ => .error .undefined

/-- `PyString::__eq__`. -/
def eq (this obj : Nat) : Except SliceStop Bool :=
  if this = obj then .ok true
  else do
    let (value, value') ← values heap this obj "=="
    return decide (value = value')

/-- `PyString::__lt__`; the operator of its error is that of `__eq__`. -/
def lt (this obj : Nat) : Except SliceStop Bool :=
  if this = obj then .ok true
  else do
    let (value, value') ← values heap this obj "=="
    return decide (value < value')

end

/-! ## What they are for -/

/-- Strings at addresses. -/
def strings (names : Nat → String) (s : Nat → List Char) (a : Nat) : Object := .str (names a) (utf8 (s a))

/-- What is asked of two strings: `<` is the order of the code points, and one of `<`, `==` and `>` holds. -/
structure PairRight (names : Nat → String) (s : Nat → List Char) (a b : Nat) : Prop where
  lt : lt (strings names s) a b = .ok (decide (points (s a) < points (s b)))
  trichotomous : ∃ less equal greater, StrOrder.lt (strings names s) a b = .ok less ∧
    eq (strings names s) a b = .ok equal ∧ StrOrder.lt (strings names s) b a = .ok greater ∧
      (less, equal, greater) ∈ [(true, false, false), (false, true, false), (false, false, true)]

/-! ## Bytes and code points -/

theorem utf8EncodeChar_range (c : Char) :
    c.toNat ≤ 0x7F ∧ String.utf8EncodeChar c = [UInt8.ofNat c.toNat] ∨
    (0x7F < c.toNat ∧ c.toNat ≤ 0x7FF) ∧
      String.utf8EncodeChar c = [UInt8.ofNat (c.toNat / 64 + 192), UInt8.ofNat (c.toNat % 64 + 128)] ∨
    (0x7FF < c.toNat ∧ c.toNat ≤ 0xFFFF) ∧ String.utf8EncodeChar c =
      [UInt8.ofNat (c.toNat / 4096 + 224), UInt8.ofNat (c.toNat / 64 % 64 + 128), UInt8.ofNat (c.toNat % 64 + 128)] ∨
    (0xFFFF < c.toNat ∧ c.toNat < 0x110000) ∧ String.utf8EncodeChar c =
      [UInt8.ofNat (c.toNat / 262144 + 240), UInt8.ofNat (c.toNat / 4096 % 64 + 128),
        UInt8.ofNat (c.toNat / 64 % 64 + 128), UInt8.ofNat (c.toNat % 64 + 128)] := by
  have hvalid := toNat_valid c
  rw [utf8EncodeChar_eq]
  by_cases h1 : c.toNat ≤ 0x7F
  · exact .inl ⟨h1, if_pos h1⟩
  rw [if_neg h1]
  by_cases h2 : c.toNat ≤ 0x7FF
  · exact .inr (.inl ⟨⟨by omega, h2⟩, if_pos h2⟩)
  rw [if_neg h2]
  by_cases h3 : c.toNat ≤ 0xFFFF
  · exact .inr (.inr (.inl ⟨⟨by omega, h3⟩, if_pos h3⟩))
  · exact .inr (.inr (.inr ⟨⟨by omega, by omega⟩, if_neg h3⟩))

theorem utf8EncodeChar_lt {c d : Char} (h : c.toNat < d.toNat) (x y : Bytes) :
    String.utf8EncodeChar c ++ x < String.utf8EncodeChar d ++ y := by
  rcases utf8EncodeChar_range c with ⟨hc, heq⟩ | ⟨hc, heq⟩ | ⟨hc, heq⟩ | ⟨hc, heq⟩ <;>
    rcases utf8EncodeChar_range d with ⟨hd, heq'⟩ | ⟨hd, heq'⟩ | ⟨hd, heq'⟩ | ⟨hd, heq'⟩ <;>
      rw [heq, heq'] <;>
        simp (disch := omega) only [List.cons_append, List.nil_append, List.cons_lt_cons_iff, UInt8.lt_iff_toNat_lt,
          ← UInt8.toNat_inj, UInt8.toNat_ofNat', Nat.reducePow, Nat.mod_eq_of_lt] <;>
          omega

theorem append_lt_append_left (p x y : Bytes) : p ++ x < p ++ y ↔ x < y := by
  induction p with
  | nil => exact Iff.rfl
  | cons b p ih => rw [List.cons_append, List.cons_append, List.cons_lt_cons_self, ih]

/-- The order of the bytes is that of the code points. -/
theorem utf8_lt_iff : ∀ {s t : List Char}, utf8 s < utf8 t ↔ points s < points t := by
  intro s
  induction s with
  | nil =>
    intro t
    cases t with
    | nil => exact iff_of_false (List.lt_irrefl _) (List.lt_irrefl _)
    | cons d t =>
      obtain ⟨b, rest, hd, -⟩ := utf8EncodeChar_first d
      rw [utf8_cons, hd]
      exact iff_of_true (List.nil_lt_cons _ _) (List.nil_lt_cons _ _)
  | cons c s ih =>
    intro t
    cases t with
    | nil =>
      obtain ⟨b, rest, hc, -⟩ := utf8EncodeChar_first c
      rw [utf8_cons, hc]
      exact iff_of_false (List.not_lt_nil _) (List.not_lt_nil _)
    | cons d t =>
      rw [utf8_cons, utf8_cons, points_cons, points_cons, List.cons_lt_cons_iff]
      rcases Nat.lt_trichotomy c.toNat d.toNat with hlt | heq | hgt
      · exact iff_of_true (utf8EncodeChar_lt hlt _ _) (.inl hlt)
      · obtain rfl := toNat_injective heq
        rw [append_lt_append_left, ih]
        exact ⟨fun h => .inr ⟨rfl, h⟩, fun h => (h.resolve_left (Nat.lt_irrefl _)).2⟩
      · refine iff_of_false (List.lt_asymm (utf8EncodeChar_lt hgt _ _)) fun h => ?_
        omega

/-! ## Strings -/

section
variable {names : Nat → String} {s : Nat → List Char}

theorem lt_of_ne {a b : Nat} (h : a ≠ b) :
    lt (strings names s) a b = .ok (decide (points (s a) < points (s b))) := by
  rw [lt, if_neg h]
  exact congrArg Except.ok (decide_eq_decide.mpr utf8_lt_iff)

theorem eq_of_ne {a b : Nat} (h : a ≠ b) : eq (strings names s) a b = .ok (decide (s a = s b)) := by
  rw [eq, if_neg h]
  exact congrArg Except.ok (decide_eq_decide.mpr utf8_injective.eq_iff)

theorem lt_self (a : Nat) : lt (strings names s) a a = .ok true := if_pos rfl

/-- **`<` of strings is the order of the code points** between two objects, and of no object with itself; it is transitive
throughout. -/
theorem pairRight_iff (names : Nat → String) (s : Nat → List Char) : (∀ a b, PairRight names s a b ↔ a ≠ b) ∧
    ∀ a b c, lt (strings names s) a b = .ok true → lt (strings names s) b c = .ok true →
      lt (strings names s) a c = .ok true := by
  refine ⟨fun a b => ⟨fun h heq => ?_, fun hne => ?_⟩, fun a b c hab hbc => ?_⟩
  · subst heq
    have hself : lt (strings names s) a a = .ok true := lt_self a
    have htrue := hself.symm.trans h.lt
    exact List.lt_irrefl _ (of_decide_eq_true (Except.ok.inj htrue).symm)
  · refine { lt := lt_of_ne hne, trichotomous := ⟨_, _, _, lt_of_ne hne, eq_of_ne hne, lt_of_ne hne.symm, ?_⟩ }
    by_cases hless : points (s a) < points (s b)
    · have hneq : s a ≠ s b := fun heq => List.lt_irrefl _ (heq ▸ hless)
      rw [decide_eq_true hless, decide_eq_false hneq, decide_eq_false (List.lt_asymm hless)]
      exact .head _
    by_cases hgreater : points (s b) < points (s a)
    · have hneq : s a ≠ s b := fun heq => List.lt_irrefl _ (heq ▸ hgreater)
      rw [decide_eq_false hless, decide_eq_false hneq, decide_eq_true hgreater]
      exact .tail _ (.tail _ (.head _))
    · have heq : s a = s b := points_injective (List.le_antisymm (List.not_lt.mp hgreater) (List.not_lt.mp hless))
      rw [decide_eq_false hless, decide_eq_true heq, decide_eq_false hgreater]
      exact .tail _ (.head _)
  · by_cases hac : a = c
    · rw [hac]
      exact lt_self c
    by_cases hba : a = b
    · rwa [hba]
    by_cases hbc' : b = c
    · rwa [← hbc']
    rw [lt_of_ne hba] at hab
    rw [lt_of_ne hbc'] at hbc
    have hless := List.lt_trans (of_decide_eq_true (Except.ok.inj hab)) (of_decide_eq_true (Except.ok.inj hbc))
    rw [lt_of_ne hac, decide_eq_true hless]

/-- `s = "a"; s < s`. -/
theorem less_than_itself : lt (strings (fun _ => "str") fun _ => ['a']) 0 0 = .ok true ∧ ¬ (points ['a'] < points ['a']) ∧
    ¬ PairRight (fun _ => "str") (fun _ => ['a']) 0 0 := by
  refine ⟨rfl, by decide, fun h => ?_⟩
  exact absurd ((lt_self 0).symm.trans h.lt) (by decide)

end

end Pylang.Runtime.StrOrder
