/-
`PyString::replace`. The new string is appended by its bytes, each as a code
point: that drops those that are negative as a `char`, so all but the ASCII
characters are lost.
-/
import Pylang.Lib.Cuts
import Pylang.Runtime.StrItem

namespace Pylang.Runtime.Replace

open Tagged (fitsSlong fitsSlong_iff)
open PyString (codepointsOf codepointsOf_utf8)

/-- `icu::UnicodeString::append(UChar32)`, which appends nothing for a number that is no code point. -/
def append (result : List Nat) (c : Int) : List Nat := if 0 ≤ c ∧ c ≤ 0x10FFFF then result ++ [c.toNat] else result

/-- `UChar32{ el }`, of a `char`. -/
def uchar32 (el : UInt8) : Int := if el.toNat < 128 then el.toNat else el.toNat - 256

/-- `for (const auto &el : new_->value()) { result.append(UChar32{ el }); }` -/
def appendValue (result : List Nat) (value : Bytes) : List Nat :=
  value.foldl (fun result el => append result (uchar32 el)) result

/-- The rest of the code points, one by one. -/
def appendRest (result cps : List Nat) : List Nat := cps.foldl (fun result (cp : Nat) => append result cp) result

/-- The loop for an empty `old`, with the code after it. -/
def insertLoop (new : Bytes) (count : Nat) : List Nat → Nat → List Nat → List Nat
  | [], counter, result => if counter < count then appendValue result new else result
  | cp :: cps, counter, result =>
    insertLoop new count cps (counter + 1) (append (if counter < count then appendValue result new else result) cp)

/-- The loop for an `old` that is not empty. -/
def replaceLoop (old : List Nat) (new : Bytes) (count : Nat) : List Nat → Nat → List Nat → List Nat
  | [], _, result => result
  | cp :: cps, counter, result =>
    if (cp :: cps).length < old.length then appendRest result (cp :: cps)
    else if counter < count ∧ (cp :: cps).take old.length = old then
      replaceLoop old new count (cps.drop (old.length - 1)) (counter + 1) (appendValue result new)
    else replaceLoop old new count cps counter (append result cp)
termination_by cps => cps.length
decreasing_by all_goals simp only [List.length_drop, List.length_cons]; omega

/-- `count_`; `none` stands for no argument. -/
def countOf (count : Option Int) : Except SliceStop Nat :=
  match count with
  | none => .ok (2 ^ 64 - 1)
  | some n => if n < 0 then .ok (2 ^ 64 - 1) else if n < 2 ^ 64 then .ok n.toNat else .error .abort

/-- `PyString::replace`. -/
def replace (value old new : Bytes) (count : Option Int) : Except SliceStop Bytes :=
  if old = [] ∧ new = [] then .ok value
  else if count = some 0 then .ok value
  else do
    let count ← countOf count
    let cps ← codepointsOf value
    if old = [] then .ok (toUTF8String (insertLoop new count cps 0 []))
    else do
      let oldCps ← codepointsOf old
      .ok (toUTF8String (replaceLoop oldCps new count cps 0 []))

/-! ## What it is for -/

/-- `new` before each of the first characters, and at the end if any insertions are left. -/
def insertAll (new : List Char) : Nat → List Char → List Char
  | 0, s => s
  | _ + 1, [] => new
  | limit + 1, c :: s => new ++ c :: insertAll new limit s

/-- How many occurrences in a string a count stands for; a negative one, and none, for all. -/
def limitOf (count : Option Int) (s : List Char) : Nat :=
  match count with
  | none => s.length + 1
  | some n => if n < 0 then s.length + 1 else n.toNat

def replaced (s old new : List Char) (count : Option Int) : List Char :=
  if old = [] then insertAll new (limitOf count s) s else new.intercalate (Lib.cuts old (limitOf count s) s)

/-- What is asked of `replace`. -/
structure ReplacesRight (s old new : List Char) (count : Option Int) : Prop where
  replaces : replace (utf8 s) (utf8 old) (utf8 new) count = .ok (utf8 (replaced s old new count))
  /-- If the count covers all occurrences, the pieces between them are joined. -/
  joins : old ≠ [] → (Lib.cuts old s.length s).length ≤ limitOf count s + 1 →
    replace (utf8 s) (utf8 old) (utf8 new) count = .ok (utf8 (new.intercalate (Lib.cuts old s.length s)))

/-- The new string has only ASCII characters, or nothing is replaced; and the count fits a `size_t`. -/
structure Replaceable (s old new : List Char) (count : Option Int) : Prop where
  fits : (∀ n, count = some n → n < 2 ^ 64) ∨ old = [] ∧ new = []
  ascii : (∀ c ∈ new, isAscii c = true) ∨ count = some 0 ∨ old ≠ [] ∧ ¬ old <:+: s

/-! ## The loops -/

/-- What is left of the new string. -/
def kept (new : List Char) : List Char := new.filter isAscii

theorem append_points (r : List Char) (c : Char) : append (points r) c.toNat = points (r ++ [c]) := by
  have hvalid := toNat_valid c
  rw [append, if_pos (by omega), points_append]
  rfl

theorem appendRest_points (s : List Char) : ∀ r : List Char, appendRest (points r) (points s) = points (r ++ s) := by
  induction s with
  | nil => exact fun r => by rw [List.append_nil]; rfl
  | cons c s ih =>
    intro r
    rw [appendRest, points_cons, List.foldl_cons, append_points]
    exact (ih (r ++ [c])).trans (by rw [List.append_assoc]; rfl)

theorem appendValue_append (r : List Nat) (x y : Bytes) : appendValue r (x ++ y) = appendValue (appendValue r x) y :=
  List.foldl_append

theorem appendValue_dropped : ∀ {value : Bytes} (r : List Nat), (∀ b ∈ value, 128 ≤ b.toNat) → appendValue r value = r := by
  intro value
  induction value with
  | nil => exact fun r _ => rfl
  | cons b value ih =>
    intro r h
    obtain ⟨hb, hvalue⟩ := List.forall_mem_cons.mp h
    have hlt := b.toNat_lt
    rw [appendValue, List.foldl_cons, append, uchar32, if_neg (show ¬ b.toNat < 128 by omega), if_neg (by omega)]
    exact ih r hvalue

theorem appendValue_points (new : List Char) : ∀ r : List Char,
    appendValue (points r) (utf8 new) = points (r ++ kept new) := by
  induction new with
  | nil => exact fun r => by rw [kept, List.filter_nil, List.append_nil]; rfl
  | cons c new ih =>
    intro r
    rw [utf8_cons, appendValue_append, kept]
    by_cases hc : isAscii c = true
    · have hlt := of_decide_eq_true hc
      have hone : appendValue (points r) (String.utf8EncodeChar c) = append (points r) c.toNat := by
        rw [utf8EncodeChar_ascii hc, appendValue, List.foldl_cons, List.foldl_nil, uchar32, toNat_ofNat (by omega),
          if_pos hlt]
      rw [hone, append_points, ih, List.filter_cons_of_pos hc, List.append_assoc]
      rfl
    · rw [appendValue_dropped _ (utf8EncodeChar_not_ascii (Bool.eq_false_iff.mpr hc)), ih, List.filter_cons_of_neg hc]
      rfl

theorem insertLoop_points (new : List Char) (count : Nat) (s : List Char) : ∀ (counter : Nat) (r : List Char),
    insertLoop (utf8 new) count (points s) counter (points r) = points (r ++ insertAll (kept new) (count - counter) s) := by
  induction s with
  | nil =>
    intro counter r
    rw [points, List.map_nil, insertLoop]
    by_cases h : counter < count
    · obtain ⟨k, hk⟩ := Nat.exists_eq_add_of_lt h
      rw [if_pos h, appendValue_points, show count - counter = k + 1 by omega, insertAll]
    · rw [if_neg h, show count - counter = 0 by omega, insertAll, List.append_nil]
  | cons c s ih =>
    intro counter r
    rw [points_cons, insertLoop]
    by_cases h : counter < count
    · obtain ⟨k, hk⟩ := Nat.exists_eq_add_of_lt h
      rw [if_pos h, appendValue_points, append_points]
      refine (ih (counter + 1) _).trans ?_
      rw [show count - counter = k + 1 by omega, show count - (counter + 1) = k by omega, insertAll, List.append_assoc,
        List.append_assoc]
      rfl
    · rw [if_neg h, append_points]
      refine (ih (counter + 1) _).trans ?_
      rw [show count - counter = 0 by omega, show count - (counter + 1) = 0 by omega, insertAll, insertAll,
        List.append_assoc]
      rfl

theorem take_points {p s : List Char} : (points s).take (points p).length = points p ↔ p <+: s := by
  rw [← List.prefix_map_iff_of_injective toNat_injective, List.prefix_iff_eq_take]
  exact eq_comm

theorem replaceLoop_points {p : List Char} (hp : p ≠ []) (new : List Char) (count : Nat) : ∀ (n : Nat) (s : List Char),
    s.length ≤ n → ∀ (counter : Nat) (r : List Char),
      replaceLoop (points p) (utf8 new) count (points s) counter (points r) =
        points (r ++ (kept new).intercalate (Lib.cuts p (count - counter) s)) := by
  have hlength (s : List Char) : (points s).length = s.length := List.length_map _
  have hpos := List.length_pos_iff.mpr hp
  intro n
  induction n with
  | zero =>
    intro s hs counter r
    obtain rfl := List.length_eq_zero_iff.mp (Nat.le_zero.mp hs)
    rw [Lib.cuts_of_no_match (by rwa [List.infix_nil]), List.intercalate_singleton, List.append_nil]
    exact replaceLoop.eq_1 ..
  | succ n ih =>
    intro s hs counter r
    cases s with
    | nil =>
      rw [Lib.cuts_of_no_match (by rwa [List.infix_nil]), List.intercalate_singleton, List.append_nil]
      exact replaceLoop.eq_1 ..
    | cons c s =>
      rw [points_cons, replaceLoop, ← points_cons, hlength, hlength]
      by_cases hshort : (c :: s).length < p.length
      · rw [if_pos hshort, appendRest_points,
          Lib.cuts_of_no_match (fun h => absurd h.length_le (by omega)), List.intercalate_singleton]
      rw [if_neg hshort, ← hlength p]
      by_cases hmatch : counter < count ∧ p <+: c :: s
      · obtain ⟨hcounter, t, ht⟩ := hmatch
        obtain ⟨k, hk⟩ := Nat.exists_eq_add_of_lt hcounter
        have hdrop : (points s).drop ((points p).length - 1) = points t := by
          obtain ⟨d, p', rfl⟩ := List.exists_cons_of_ne_nil hp
          cases ht
          rw [points_cons, List.length_cons, Nat.add_sub_cancel, List.append_eq, points_append, List.drop_left]
        have hless := congrArg List.length ht
        rw [List.length_append] at hless
        rw [if_pos ⟨hcounter, take_points.mpr ⟨t, ht⟩⟩, hdrop, appendValue_points, ih t (by omega), ← ht,
          show count - counter = k + 1 by omega, show count - (counter + 1) = k by omega, Lib.cuts_append,
          List.intercalate_cons_of_ne_nil (Lib.cuts_ne_nil p k t), List.nil_append, List.append_assoc]
      · have hcuts : ¬ (0 < count - counter ∧ p <+: c :: s) := fun h => hmatch ⟨by omega, h.2⟩
        rw [if_neg fun h => hmatch ⟨h.1, take_points.mp h.2⟩, append_points,
          ih s (by rw [List.length_cons] at hs; omega), Lib.cuts_cons_of hcuts,
          Lib.intercalate_modifyHead _ _ (Lib.cuts_ne_nil p _ s), List.append_assoc]
        rfl

/-! ## The new string -/

theorem kept_eq_self_iff {new : List Char} : kept new = new ↔ ∀ c ∈ new, isAscii c = true := List.filter_eq_self

theorem kept_of_length {new : List Char} (h : (kept new).length = new.length) : kept new = new :=
  kept_eq_self_iff.mpr (List.length_filter_eq_length_iff.mp h)

theorem length_insertAll (new : List Char) : ∀ (limit : Nat) (s : List Char),
    (insertAll new limit s).length = s.length + min limit (s.length + 1) * new.length := by
  intro limit
  induction limit with
  | zero => simp [insertAll]
  | succ limit ih =>
    intro s
    cases s with
    | nil => simp [insertAll]
    | cons c s =>
      rw [insertAll, List.length_append, List.length_cons, ih, List.length_cons, Nat.add_min_add_right, Nat.add_mul]
      omega

theorem insertAll_kept_iff {new : List Char} (limit : Nat) (s : List Char) :
    insertAll (kept new) limit s = insertAll new limit s ↔ kept new = new ∨ limit = 0 := by
  constructor
  · intro h
    by_contra hnot
    obtain ⟨hne, hlimit⟩ := not_or.mp hnot
    have hlength := congrArg List.length h
    rw [length_insertAll, length_insertAll, Nat.add_left_cancel_iff] at hlength
    exact hne (kept_of_length (Nat.eq_of_mul_eq_mul_left (by omega) hlength))
  · intro h
    rcases h with h | rfl
    · rw [h]
    · rfl

theorem intercalate_kept_iff {new : List Char} {pieces : List (List Char)} :
    (kept new).intercalate pieces = new.intercalate pieces ↔ kept new = new ∨ pieces.length ≤ 1 := by
  constructor
  · intro h
    by_contra hnot
    obtain ⟨hne, hlong⟩ := not_or.mp hnot
    have hlength := congrArg List.length h
    rw [Lib.length_intercalate, Lib.length_intercalate, Nat.add_left_cancel_iff] at hlength
    exact hne (kept_of_length (Nat.eq_of_mul_eq_mul_left (by omega) hlength))
  · intro h
    rcases h with h | h
    · rw [h]
    · match pieces with
      | [] => rfl
      | [_] => rw [List.intercalate_singleton, List.intercalate_singleton]
      | _ :: _ :: _ => simp at h

theorem insertAll_nil (limit : Nat) : ∀ s : List Char, insertAll [] limit s = s := by
  induction limit with
  | zero => exact fun _ => rfl
  | succ limit ih =>
    intro s
    cases s with
    | nil => rfl
    | cons c s => exact congrArg (c :: ·) (ih s)

theorem insertAll_of_length_lt (new : List Char) : ∀ {limit limit' : Nat} {s : List Char}, s.length < limit →
    s.length < limit' → insertAll new limit s = insertAll new limit' s := by
  intro limit
  induction limit with
  | zero => exact fun h => absurd h (Nat.not_lt_zero _)
  | succ limit ih =>
    intro limit' s h h'
    cases limit' with
    | zero => exact absurd h' (Nat.not_lt_zero _)
    | succ limit' =>
      cases s with
      | nil => rfl
      | cons c s =>
        rw [List.length_cons] at h h'
        rw [insertAll, insertAll, ih (by omega) (show s.length < limit' by omega)]

/-! ## A replacement -/

theorem countOf_eq (count : Option Int) (s : List Char) (hsize : fitsSlong s.length = true)
    (hcount : ∀ n, count = some n → n < 2 ^ 64) : ∃ k, countOf count = .ok k ∧
      (k = limitOf count s ∨ s.length < k ∧ s.length < limitOf count s) := by
  rw [fitsSlong_iff] at hsize
  unfold countOf limitOf
  cases count with
  | none => exact ⟨_, rfl, .inr ⟨by omega, by dsimp only; omega⟩⟩
  | some n =>
    have hn := hcount n rfl
    dsimp only
    by_cases hneg : n < 0
    · rw [if_pos hneg, if_pos hneg]
      exact ⟨_, rfl, .inr ⟨by omega, by omega⟩⟩
    · rw [if_neg hneg, if_neg hneg, if_pos hn]
      exact ⟨_, rfl, .inl rfl⟩

theorem limitOf_eq_zero {count : Option Int} {s : List Char} : limitOf count s = 0 ↔ count = some 0 := by
  unfold limitOf
  cases count with
  | none => simp
  | some n =>
    rw [Option.some.injEq]
    dsimp only
    split <;> omega

/-- What the code makes of the replacement: that by what it keeps of the new string. -/
theorem replace_eq {s old new : List Char} {count : Option Int} (hsize : fitsSlong s.length = true)
    (hcount : ∀ n, count = some n → n < 2 ^ 64) (hnonzero : count ≠ some 0) (hboth : ¬ (old = [] ∧ new = [])) :
    replace (utf8 s) (utf8 old) (utf8 new) count = .ok (utf8 (replaced s old (kept new) count)) := by
  have hempty (t : List Char) : utf8 t = [] ↔ t = [] := utf8_injective.eq_iff' utf8_nil
  obtain ⟨k, hk, hlimit⟩ := countOf_eq count s hsize hcount
  unfold replace replaced
  rw [if_neg (by rwa [hempty, hempty]), if_neg hnonzero, hk, codepointsOf_utf8]
  show (if utf8 old = [] then _ else _) = _
  by_cases hold : old = []
  · rw [if_pos ((hempty old).mpr hold), if_pos hold]
    have hloop := insertLoop_points new k s 0 []
    have hlimit : insertAll (kept new) k s = insertAll (kept new) (limitOf count s) s := by
      rcases hlimit with rfl | ⟨hlt, hlt'⟩
      · rfl
      · exact insertAll_of_length_lt _ hlt hlt'
    rw [List.nil_append, Nat.sub_zero] at hloop
    rw [← hlimit]
    exact congrArg Except.ok ((congrArg toUTF8String hloop).trans (toUTF8String_points _))
  · rw [if_neg ((hempty old).not.mpr hold), if_neg hold, codepointsOf_utf8]
    have hloop := replaceLoop_points hold new k s.length s (Nat.le_refl _) 0 []
    have hlimit : Lib.cuts old k s = Lib.cuts old (limitOf count s) s := by
      rcases hlimit with rfl | ⟨hlt, hlt'⟩
      · rfl
      · exact Lib.cuts_of_length_le hold (by omega) (by omega)
    rw [List.nil_append, Nat.sub_zero] at hloop
    rw [← hlimit]
    exact congrArg Except.ok ((congrArg toUTF8String hloop).trans (toUTF8String_points _))

theorem replaced_kept_iff {s old new : List Char} {count : Option Int} (hnonzero : count ≠ some 0) :
    replaced s old (kept new) count = replaced s old new count ↔ kept new = new ∨ old ≠ [] ∧ ¬ old <:+: s := by
  have hlimit : limitOf count s ≠ 0 := limitOf_eq_zero.not.mpr hnonzero
  unfold replaced
  by_cases hold : old = []
  · rw [if_pos hold, if_pos hold, insertAll_kept_iff]
    exact or_congr_right ⟨fun h => absurd h hlimit, fun h => absurd hold h.1⟩
  · rw [if_neg hold, if_neg hold, intercalate_kept_iff, ← Nat.not_lt, Lib.one_lt_length_cuts hlimit]
    exact or_congr_right ⟨fun h => ⟨hold, h⟩, And.right⟩

theorem replaced_zero (s old new : List Char) : replaced s old new (some 0) = s := by
  unfold replaced
  by_cases hold : old = []
  · rw [if_pos hold]
    rfl
  · rw [if_neg hold]
    exact List.intercalate_singleton

/-- **`replace` is right** where the new string has only ASCII characters or nothing is replaced, and the count fits. -/
theorem replacesRight_iff (s old new : List Char) (count : Option Int) (hsize : fitsSlong s.length = true) :
    ReplacesRight s old new count ↔ Replaceable s old new count := by
  have hempty (t : List Char) : utf8 t = [] ↔ t = [] := utf8_injective.eq_iff' utf8_nil
  have hiff : ReplacesRight s old new count ↔
      replace (utf8 s) (utf8 old) (utf8 new) count = .ok (utf8 (replaced s old new count)) := by
    refine ⟨ReplacesRight.replaces, fun h => ⟨h, fun hold hcovers => ?_⟩⟩
    rw [h, replaced, if_neg hold, Lib.cuts_of_length_cuts_le hold (Nat.le_refl _) hcovers]
  rw [hiff]
  by_cases hboth : old = [] ∧ new = []
  · obtain ⟨rfl, rfl⟩ := hboth
    refine ⟨fun _ => ⟨.inr ⟨rfl, rfl⟩, .inl nofun⟩, fun _ => ?_⟩
    rw [replace, if_pos ⟨rfl, rfl⟩, replaced, if_pos rfl, insertAll_nil]
  by_cases hzero : count = some 0
  · subst hzero
    refine ⟨fun _ => ⟨.inl fun n hn => by cases hn; decide, .inr (.inl rfl)⟩, fun _ => ?_⟩
    rw [replace, if_neg (by rwa [hempty, hempty]), if_pos rfl, replaced_zero]
  by_cases hcount : ∀ n, count = some n → n < 2 ^ 64
  · rw [replace_eq hsize hcount hzero hboth, Except.ok.injEq, utf8_injective.eq_iff, replaced_kept_iff hzero,
      kept_eq_self_iff]
    exact ⟨fun h => ⟨.inl hcount, h.imp_right .inr⟩, fun h => h.ascii.imp_right fun h => h.resolve_left hzero⟩
  · refine ⟨fun h => ?_, fun h => (h.fits.elim hcount hboth).elim⟩
    obtain ⟨n, hcount⟩ := not_forall.mp hcount
    obtain ⟨rfl, hn⟩ := Classical.not_imp.mp hcount
    have habort : countOf (some n) = .error .abort := by
      rw [countOf, if_neg (by omega), if_neg hn]
    rw [replace, if_neg (by rwa [hempty, hempty]), if_neg hzero, habort] at h
    cases h

/-- `"aXbX".replace("X", "yy", 1)`. -/
theorem replacesRight_once : ReplacesRight ['a', 'X', 'b', 'X'] ['X'] ['y', 'y'] (some 1) :=
  (replacesRight_iff _ _ ['y', 'y'] (some 1) (by decide)).mpr ⟨.inl fun n hn => by cases hn; decide,
    .inl (List.all_eq_true.mp rfl)⟩

/-- `"a".replace("a", "é")` is empty. -/
theorem accent_lost : replace (utf8 ['a']) (utf8 ['a']) (utf8 ['é']) none = .ok (utf8 []) ∧
    replaced ['a'] ['a'] ['é'] none = ['é'] ∧ ¬ ReplacesRight ['a'] ['a'] ['é'] none := by
  have hright : replaced ['a'] ['a'] ['é'] none = ['é'] := by decide
  have hlost : replace (utf8 ['a']) (utf8 ['a']) (utf8 ['é']) none = .ok (utf8 []) :=
    replace_eq (s := ['a']) (by decide) nofun nofun (by decide)
  refine ⟨hlost, hright, fun h => ?_⟩
  have heq := Except.ok.inj (hlost.symm.trans h.replaces)
  rw [hright] at heq
  exact absurd (utf8_injective heq) (by decide)

end Pylang.Runtime.Replace
