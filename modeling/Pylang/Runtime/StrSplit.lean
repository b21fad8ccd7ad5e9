/-
`PyString::split`. With a separator it finds the matches by code points, reads
past the end where what is left begins the separator, and takes the pieces by the
bytes of the same numbers. With none it splits at the bytes of ASCII whitespace.
-/
import Pylang.Runtime.Replace

namespace Pylang.Runtime.StrSplit

open PyString (codepointsOf codepointsOf_utf8)
open Replace (limitOf)

/-- The separator argument; `none` where there is none or it is `None`. -/
inductive SepArg where
  | none
  | str (value : Bytes)
  | other
  deriving DecidableEq

inductive MaxsplitArg where
  | none
  | int (n : Int)
  | other
  deriving DecidableEq

/-- `sep_`. -/
def sepOf : SepArg → Except SliceStop (List Nat)
  | .none => .ok []
  | .str value => if value = [] then .error (.valueError "empty separator") else codepointsOf value
  | .other => .error (.typeError "")

/-- `maxsplit_`, of a string with a number of bytes. -/
def maxsplitOf (size : Nat) : MaxsplitArg → Except SliceStop Int
  | .none => .ok size
  | .int n => if n = -1 then .ok size else .ok n
  | .other => .error (.typeError "")

/-- `m_value.substr(start, count)`; a start past the end throws, and nothing catches it. -/
def substr (value : Bytes) (start count : Nat) : Except SliceStop Bytes :=
  if start ≤ value.length then .ok ((value.drop start).take count) else .error .abort

/-- The comparison of `cps[i + j]` with `sep[j]`, by the code points from `i` on. -/
def isMatch : List Nat → List Nat → Except SliceStop Bool
  | _, [] => .ok true
  | [], _ :: _ => .error .undefined
  | cp :: cps, x :: sep => if cp ≠ x then .ok false else isMatch cps sep

/-- The remainder. -/
def finish (value : Bytes) (start : Nat) (result : List Bytes) : Except SliceStop (List Bytes) := do
  let el ← substr value start (value.length - start)
  return result ++ [el]

/-- The loop with a separator, by the code points from `i` on. -/
def splitLoop (value : Bytes) (sep : List Nat) (maxsplit : Int) :
    List Nat → Nat → Nat → List Bytes → Except SliceStop (List Bytes)
  | [], _, start, result => finish value start result
  | cp :: cps, i, start, result =>
    if maxsplit ≤ result.length then finish value start result
    else do
      if ← isMatch (cp :: cps) sep then do
        let el ← substr value start (i - start)
        splitLoop value sep maxsplit (cps.drop (sep.length - 1)) (i + sep.length) (i + sep.length) (result ++ [el])
      else splitLoop value sep maxsplit cps (i + 1) start result
termination_by cps => cps.length
decreasing_by all_goals simp only [List.length_drop, List.length_cons]; omega

/-- `std::isspace` in the C locale. -/
def isspace (el : UInt8) : Bool := decide (9 ≤ el.toNat ∧ el.toNat ≤ 13 ∨ el.toNat = 32)

/-- The loop without a separator, by the bytes that are left. -/
def wordsLoop (value : Bytes) (maxsplit : Int) : Bytes → Nat → Nat → List Bytes → List Bytes
  | [], start, _, result => if value.drop start = [] then result else result ++ [value.drop start]
  | el :: rest, start, stop, result =>
    if maxsplit ≤ result.length then (if value.drop start = [] then result else result ++ [value.drop start])
    else if isspace el then
      if stop ≠ start then
        wordsLoop value maxsplit rest (stop + 1) (stop + 1)
          (if isspace (value.getD start 0) then result else result ++ [(value.drop start).take (stop - start)])
      else wordsLoop value maxsplit rest (start + 1) (stop + 1) result
    else wordsLoop value maxsplit rest start (stop + 1) result

/-- `PyString::split`: the values of the strings of the list. -/
def split (value : Bytes) (sepArg : SepArg) (maxsplitArg : MaxsplitArg) : Except SliceStop (List Bytes) := do
  let sep ← sepOf sepArg
  if value = [] ∧ sep ≠ [] then .ok [[]]
  else do
    let maxsplit ← maxsplitOf value.length maxsplitArg
    if sep ≠ [] then do
      let cps ← codepointsOf value
      splitLoop value sep maxsplit cps 0 0 []
    else .ok (wordsLoop value maxsplit value 0 0 [])

/-! ## What it is for -/

/-- The whitespace of `str.isspace`. -/
def isWhitespace (c : Char) : Bool :=
  let n := c.toNat
  decide (9 ≤ n ∧ n ≤ 13 ∨ 0x1C ≤ n ∧ n ≤ 0x20 ∨ n = 0x85 ∨ n = 0xA0 ∨ n = 0x1680 ∨ 0x2000 ≤ n ∧ n ≤ 0x200A ∨
    n = 0x2028 ∨ n = 0x2029 ∨ n = 0x202F ∨ n = 0x205F ∨ n = 0x3000)

/-- The whitespace of `std::isspace`. -/
def isAsciiSpace (c : Char) : Bool := decide (9 ≤ c.toNat ∧ c.toNat ≤ 13 ∨ c.toNat = 32)

/-- A call that gives a list: with a separator that is not empty, or with no argument. -/
inductive SplitCall where
  | sep (p : List Char) (maxsplit : Option Int)
  | words

def maxsplitArg (maxsplit : Option Int) : MaxsplitArg :=
  match maxsplit with
  | none => .none
  | some n => .int n

/-- What is asked of a split with a separator: the pieces from the left, which join to the string, no more than the limit
allows, and with the separator only in a last one at the limit. -/
structure CutsRight (s p : List Char) (maxsplit : Option Int) (pieces : List (List Char)) : Prop where
  splits : split (utf8 s) (.str (utf8 p)) (maxsplitArg maxsplit) = .ok (pieces.map utf8)
  cuts : pieces = Lib.cuts p (limitOf maxsplit s) s
  joins : p.intercalate pieces = s
  limited : pieces.length ≤ limitOf maxsplit s + 1
  free : ∀ piece ∈ pieces, p <:+: piece → pieces.length = limitOf maxsplit s + 1 ∧ pieces.getLast? = some piece

/-- What is asked of `split`. -/
def SplitsRight (s : List Char) : SplitCall → Prop
  | .sep p maxsplit => ∃ pieces, CutsRight s p maxsplit pieces
  | .words => split (utf8 s) .none .none = .ok ((Lib.runs isWhitespace s).map utf8)

/-- What is left after the cuts begins the separator at some place, and the loop gets there. -/
def Overruns (p : List Char) (limit : Nat) (s : List Char) : Prop :=
  (Lib.cuts p limit s).length ≤ limit ∧
    ∃ u, u ≠ [] ∧ u <:+ (Lib.cuts p limit s).getLast (Lib.cuts_ne_nil p limit s) ∧ u <+: p

/-- What is cut off is ASCII. -/
def AsciiCuts (p : List Char) (pieces : List (List Char)) : Prop :=
  (∀ piece ∈ pieces.dropLast, ∀ c ∈ piece, isAscii c = true) ∧ (1 < pieces.length → ∀ c ∈ p, isAscii c = true)

/-- The calls that are right. -/
def Splittable (s : List Char) : SplitCall → Prop
  | .sep p maxsplit =>
    if ∃ n, maxsplit = some n ∧ n < -1 then ¬ p <:+: s
    else ¬ Overruns p (limitOf maxsplit s) s ∧ AsciiCuts p (Lib.cuts p (limitOf maxsplit s) s)
  | .words => ∀ c ∈ s, isWhitespace c = true → isAsciiSpace c = true

/-! ## Matches -/

theorem isMatch_points : ∀ {p t : List Char}, isMatch (points t) (points p) =
    if p <+: t then .ok true else if t <+: p then .error .undefined else .ok false := by
  intro p
  induction p with
  | nil => exact fun {t} => by rw [if_pos List.nil_prefix]; cases t <;> rfl
  | cons d p ih =>
    intro t
    cases t with
    | nil =>
      rw [if_neg (by simp), if_pos List.nil_prefix]
      rfl
    | cons c t =>
      rw [points_cons, points_cons, isMatch]
      simp only [List.cons_prefix_cons]
      by_cases h : c = d
      · subst h
        rw [if_neg (not_not.mpr rfl), ih]
        simp only [true_and]
      · rw [if_pos fun heq => h (toNat_injective heq), if_neg fun hp => h hp.1.symm, if_neg fun hp => h hp.1]

/-! ## The end of the string -/

/-- `Overruns` with the cuts made, to follow the loop. -/
def OverrunsIn (p : List Char) (limit : Nat) (pieces : List (List Char)) : Prop :=
  pieces.length ≤ limit ∧ ∃ u last, pieces.getLast? = some last ∧ u ≠ [] ∧ u <:+ last ∧ u <+: p

theorem overrunsIn_iff {p s : List Char} {limit : Nat} : OverrunsIn p limit (Lib.cuts p limit s) ↔ Overruns p limit s := by
  unfold OverrunsIn Overruns
  refine and_congr_right fun _ => ⟨fun h => ?_, fun h => ?_⟩
  · obtain ⟨u, last, hlast, hu⟩ := h
    rw [List.getLast?_eq_some_getLast (Lib.cuts_ne_nil p limit s), Option.some.injEq] at hlast
    exact ⟨u, hu.1, hlast ▸ hu.2.1, hu.2.2⟩
  · obtain ⟨u, hu⟩ := h
    exact ⟨u, _, List.getLast?_eq_some_getLast (Lib.cuts_ne_nil p limit s), hu⟩

variable {p t : List Char} {limit : Nat}

theorem not_overrunsIn_nil (hp : p ≠ []) : ¬ OverrunsIn p limit (Lib.cuts p limit []) := by
  intro h
  obtain ⟨-, u, last, hlast, hne, hsuffix, -⟩ := h
  rw [Lib.cuts_of_no_match (by rwa [List.infix_nil])] at hlast
  cases hlast
  exact hne (List.suffix_nil.mp hsuffix)

theorem overrunsIn_match (p t : List Char) : OverrunsIn p (limit + 1) (Lib.cuts p (limit + 1) (p ++ t)) ↔
    OverrunsIn p limit (Lib.cuts p limit t) := by
  obtain ⟨l, L, hL⟩ := List.exists_cons_of_ne_nil (Lib.cuts_ne_nil p limit t)
  unfold OverrunsIn
  rw [Lib.cuts_append, hL, List.getLast?_cons_cons, List.length_cons, Nat.add_le_add_iff_right]

theorem overrunsIn_of_isPrefix {c : Char} (hnot : ¬ p <+: c :: t) (h : c :: t <+: p) :
    OverrunsIn p (limit + 1) (Lib.cuts p (limit + 1) (c :: t)) := by
  have hmatch : ¬ p <:+: c :: t := by
    intro hmatch
    obtain rfl := hmatch.sublist.antisymm h.sublist
    exact hnot (List.prefix_refl _)
  rw [Lib.cuts_of_no_match hmatch]
  exact ⟨Nat.le_add_left 1 limit, c :: t, c :: t, rfl, List.cons_ne_nil _ _, List.suffix_refl _, h⟩

theorem overrunsIn_cons {c : Char} (hnot : ¬ p <+: c :: t) (h : ¬ c :: t <+: p) :
    OverrunsIn p limit (Lib.cuts p limit (c :: t)) ↔ OverrunsIn p limit (Lib.cuts p limit t) := by
  obtain ⟨l, L, hL⟩ := List.exists_cons_of_ne_nil (Lib.cuts_ne_nil p limit t)
  unfold OverrunsIn
  rw [Lib.cuts_cons hnot, hL, List.modifyHead_cons, List.length_cons, List.length_cons]
  refine and_congr_right fun _ => ?_
  cases L with
  | cons l' L => rw [List.getLast?_cons_cons, List.getLast?_cons_cons]
  | nil =>
    have hjoin := Lib.join_cuts p limit t
    rw [hL, List.intercalate_singleton] at hjoin
    subst hjoin
    constructor
    · intro h'
      obtain ⟨u, last, hlast, hne, hsuffix, hfront⟩ := h'
      cases hlast
      rcases List.suffix_cons_iff.mp hsuffix with rfl | hsuffix
      · exact absurd hfront h
      · exact ⟨u, l, rfl, hne, hsuffix, hfront⟩
    · intro h'
      obtain ⟨u, last, hlast, hne, hsuffix, hfront⟩ := h'
      cases hlast
      exact ⟨u, c :: l, rfl, hne, hsuffix.trans (List.suffix_cons c l), hfront⟩

/-! ## The pieces, by the bytes -/

/-- The bytes that the loop takes for the pieces: their number are those of the code points. -/
def taken (value : Bytes) (length : Nat) : Nat → List (List Char) → List Bytes
  | _, [] => []
  | start, [_] => [value.drop start]
  | start, piece :: piece' :: pieces =>
    (value.drop start).take piece.length :: taken value length (start + piece.length + length) (piece' :: pieces)

theorem taken_cons (value : Bytes) (length start : Nat) (piece : List Char) {pieces : List (List Char)} (h : pieces ≠ []) :
    taken value length start (piece :: pieces) =
      (value.drop start).take piece.length :: taken value length (start + piece.length + length) pieces := by
  obtain ⟨piece', pieces, rfl⟩ := List.exists_cons_of_ne_nil h
  rw [taken]

theorem finish_eq {value : Bytes} {start : Nat} (h : start ≤ value.length) (result : List Bytes) :
    finish value start result = .ok (result ++ [value.drop start]) := by
  rw [finish, substr, if_pos h, List.take_of_length_le (by rw [List.length_drop])]
  rfl

theorem drop_points {u t : List Char} {c : Char} (hp : p ≠ []) (hu : p ++ u = c :: t) :
    (points t).drop ((points p).length - 1) = points u := by
  obtain ⟨d, p', rfl⟩ := List.exists_cons_of_ne_nil hp
  cases hu
  rw [points_cons, List.length_cons, Nat.add_sub_cancel, List.append_eq, points_append, List.drop_left]

/-- The loop from a position on: `pend` is what stands between the last match and the position. -/
theorem splitLoop_points (hp : p ≠ []) (value : Bytes) : ∀ (n : Nat) (t : List Char), t.length ≤ n →
    ∀ (limit start : Nat) (pend : List Char) (result : List Bytes) (maxsplit : Int), maxsplit = limit + result.length →
      start + pend.length + t.length ≤ value.length →
      (¬ OverrunsIn p limit (Lib.cuts p limit t) →
        splitLoop value (points p) maxsplit (points t) (start + pend.length) start result =
          .ok (result ++ taken value p.length start ((Lib.cuts p limit t).modifyHead (pend ++ ·)))) ∧
      (OverrunsIn p limit (Lib.cuts p limit t) →
        splitLoop value (points p) maxsplit (points t) (start + pend.length) start result = .error .undefined) := by
  have hlength : (points p).length = p.length := List.length_map _
  have hpos := List.length_pos_iff.mpr hp
  have hnil {value : Bytes} {limit start i : Nat} {pend : List Char} {result : List Bytes} {maxsplit : Int}
      (h : start ≤ value.length) : splitLoop value (points p) maxsplit (points []) i start result =
        .ok (result ++ taken value p.length start ((Lib.cuts p limit []).modifyHead (pend ++ ·))) := by
    rw [Lib.cuts_of_no_match (by rwa [List.infix_nil])]
    exact (splitLoop.eq_1 ..).trans (finish_eq h result)
  intro n
  induction n with
  | zero =>
    intro t ht limit start pend result maxsplit hmax hbound
    obtain rfl := List.length_eq_zero_iff.mp (Nat.le_zero.mp ht)
    exact ⟨fun _ => hnil (by omega), fun h => absurd h (not_overrunsIn_nil hp)⟩
  | succ n ih =>
    intro t ht limit start pend result maxsplit hmax hbound
    cases t with
    | nil => exact ⟨fun _ => hnil (by omega), fun h => absurd h (not_overrunsIn_nil hp)⟩
    | cons c t =>
      rw [List.length_cons] at ht hbound
      rw [points_cons, splitLoop, ← points_cons]
      cases limit with
      | zero =>
        rw [if_pos (by omega), finish_eq (by omega)]
        exact ⟨fun _ => rfl, fun h => absurd h.1 (Nat.not_succ_le_zero 0)⟩
      | succ limit =>
        rw [if_neg (by omega), isMatch_points]
        by_cases hmatch : p <+: c :: t
        · obtain ⟨u, hu⟩ := hmatch
          have hsum := congrArg List.length hu
          rw [List.length_append, List.length_cons] at hsum
          have hpiece : substr value start (start + pend.length - start) = .ok ((value.drop start).take pend.length) := by
            rw [substr, if_pos (by omega), Nat.add_sub_cancel_left]
          have hrest := ih u (by omega) limit (start + pend.length + p.length) []
            (result ++ [(value.drop start).take pend.length]) maxsplit
            (by rw [List.length_append, List.length_singleton]; omega) (by rw [List.length_nil]; omega)
          rw [if_pos ⟨u, hu⟩, hpiece, drop_points hp hu, hlength]
          rw [← hu, overrunsIn_match, Lib.cuts_append, List.modifyHead_cons, List.append_nil,
            taken_cons _ _ _ _ (Lib.cuts_ne_nil p limit u)]
          rw [Lib.modifyHead_nil_append, List.append_assoc] at hrest
          exact hrest
        · rw [if_neg hmatch]
          by_cases hend : c :: t <+: p
          · rw [if_pos hend]
            exact ⟨fun h => absurd (overrunsIn_of_isPrefix hmatch hend) h, fun _ => rfl⟩
          · have hrest := ih t (by omega) (limit + 1) start (pend ++ [c]) result maxsplit hmax
              (by rw [List.length_append, List.length_singleton]; omega)
            rw [if_neg hend, overrunsIn_cons hmatch hend, Lib.cuts_cons_append hmatch]
            rw [List.length_append, List.length_singleton, ← Nat.add_assoc] at hrest
            exact hrest

/-- The bytes that are taken are those of the pieces only behind ASCII. -/
theorem ascii_of_taken : ∀ {pieces : List (List Char)} {x value : Bytes} {start : Nat}, pieces ≠ [] → start ≤ x.length →
    value = x ++ utf8 (p.intercalate pieces) → taken value p.length start pieces = pieces.map utf8 →
    start = x.length ∧ AsciiCuts p pieces := by
  intro pieces
  induction pieces with
  | nil => exact fun h => absurd rfl h
  | cons piece pieces ih =>
    intro x value start _ hstart hvalue htaken
    by_cases hlast : pieces = []
    · subst hlast
      rw [List.intercalate_singleton] at hvalue
      have hlength := congrArg List.length (List.cons.inj htaken).1
      rw [hvalue, List.length_drop, List.length_append] at hlength
      have hone : ¬ 1 < [piece].length := Nat.lt_irrefl 1
      refine ⟨by omega, fun l hl => ?_, fun h => absurd h hone⟩
      cases hl
    · rw [taken_cons _ _ _ _ hlast, List.map_cons] at htaken
      obtain ⟨hfirst, htaken⟩ := List.cons.inj htaken
      have hshort := congrArg List.length hfirst
      rw [List.length_take] at hshort
      have hle := length_le_utf8 piece
      have hle' := length_le_utf8 p
      have hx : value = x ++ (utf8 piece ++ utf8 p) ++ utf8 (p.intercalate pieces) := by
        rw [hvalue, List.intercalate_cons_of_ne_nil hlast, utf8_append, utf8_append]
        simp only [List.append_assoc]
      have hbound : start + piece.length + p.length ≤ (x ++ (utf8 piece ++ utf8 p)).length := by
        rw [List.length_append, List.length_append]
        omega
      obtain ⟨heq, hrest⟩ := ih hlast hbound hx htaken
      rw [List.length_append, List.length_append] at heq
      refine ⟨by omega, fun l hl => ?_, fun _ => length_utf8_eq_iff.mp (by omega)⟩
      rw [List.dropLast_cons_of_ne_nil hlast] at hl
      rcases List.mem_cons.mp hl with rfl | hl
      · exact length_utf8_eq_iff.mp (by omega)
      · exact hrest.1 l hl

theorem taken_of_ascii : ∀ {pieces : List (List Char)} {x value : Bytes}, pieces ≠ [] → AsciiCuts p pieces →
    value = x ++ utf8 (p.intercalate pieces) → taken value p.length x.length pieces = pieces.map utf8 := by
  intro pieces
  induction pieces with
  | nil => exact fun h => absurd rfl h
  | cons piece pieces ih =>
    intro x value _ hascii hvalue
    by_cases hlast : pieces = []
    · subst hlast
      rw [List.intercalate_singleton] at hvalue
      rw [taken, hvalue, List.drop_left]
      rfl
    · obtain ⟨hpieces, hsep⟩ := hascii
      rw [List.dropLast_cons_of_ne_nil hlast] at hpieces
      obtain ⟨hpiece, hpieces⟩ := List.forall_mem_cons.mp hpieces
      have hpos := List.length_pos_iff.mpr hlast
      have hlength := length_utf8_eq_iff.mpr hpiece
      have hlength' := length_utf8_eq_iff.mpr (hsep (by rw [List.length_cons]; omega))
      have hx : value = x ++ utf8 piece ++ utf8 p ++ utf8 (p.intercalate pieces) := by
        rw [hvalue, List.intercalate_cons_of_ne_nil hlast, utf8_append, utf8_append]
        simp only [List.append_assoc]
      have hrest := ih hlast ⟨hpieces, fun h => hsep (by rw [List.length_cons]; omega)⟩ hx
      rw [List.length_append, List.length_append, hlength, hlength'] at hrest
      rw [taken_cons _ _ _ _ hlast, hrest, hx, List.append_assoc, List.append_assoc, List.drop_left, ← hlength,
        List.take_left]
      rfl

/-! ## With a separator -/

theorem last_of_max (hp : p ≠ []) {s : List Char} (h : (Lib.cuts p limit s).length = s.length + 1) :
    ∀ piece ∈ Lib.cuts p limit s, piece = [] := by
  have hlength := congrArg List.length (Lib.join_cuts p limit s)
  have hpos := List.length_pos_iff.mpr hp
  have hmul := Nat.le_mul_of_pos_right s.length hpos
  rw [Lib.length_intercalate, h, Nat.add_sub_cancel] at hlength
  have hzero : ((Lib.cuts p limit s).map List.length).sum = 0 := by omega
  intro piece hpiece
  exact List.length_eq_zero_iff.mp (List.sum_eq_zero_iff_forall_eq_nat.mp hzero _ (List.mem_map_of_mem hpiece))

theorem overrunsIn_of_le (hp : p ≠ []) {s : List Char} {limit' : Nat} (h : s.length ≤ limit) (h' : s.length ≤ limit') :
    OverrunsIn p limit (Lib.cuts p limit s) → OverrunsIn p limit' (Lib.cuts p limit' s) := by
  intro hoverruns
  obtain ⟨-, u, last, hlast, hne, hsuffix, hfront⟩ := hoverruns
  rw [Lib.cuts_of_length_le hp h h'] at hlast
  have hle := Lib.length_cuts_le_length hp limit' s
  refine ⟨?_, u, last, hlast, hne, hsuffix, hfront⟩
  by_contra hlong
  have hempty := last_of_max hp (show (Lib.cuts p limit' s).length = s.length + 1 by omega) last
    (List.mem_of_getLast? hlast)
  rw [hempty] at hsuffix
  exact hne (List.suffix_nil.mp hsuffix)

theorem maxsplitOf_eq (s : List Char) {maxsplit : Option Int} (h : ¬ ∃ n, maxsplit = some n ∧ n < -1) :
    ∃ k : Nat, maxsplitOf (utf8 s).length (maxsplitArg maxsplit) = .ok k ∧
      (k = limitOf maxsplit s ∨ s.length ≤ k ∧ limitOf maxsplit s = s.length + 1) := by
  have hle := length_le_utf8 s
  cases maxsplit with
  | none => exact ⟨_, rfl, .inr ⟨hle, rfl⟩⟩
  | some n =>
    have hn : ¬ n < -1 := fun hn => h ⟨n, rfl, hn⟩
    unfold maxsplitOf maxsplitArg limitOf
    dsimp only
    by_cases hneg : n = -1
    · rw [if_pos hneg, if_pos (by omega)]
      exact ⟨_, rfl, .inr ⟨hle, rfl⟩⟩
    · rw [if_neg hneg, if_neg (by omega)]
      exact ⟨n.toNat, congrArg Except.ok (by omega), .inl rfl⟩

theorem split_sep {s : List Char} (hp : p ≠ []) (hs : s ≠ []) (arg : MaxsplitArg) :
    split (utf8 s) (.str (utf8 p)) arg = (do
      let maxsplit ← maxsplitOf (utf8 s).length arg
      splitLoop (utf8 s) (points p) maxsplit (points s) 0 0 []) := by
  have hp' : utf8 p ≠ [] := (utf8_injective.eq_iff' utf8_nil).not.mpr hp
  have hs' : utf8 s ≠ [] := (utf8_injective.eq_iff' utf8_nil).not.mpr hs
  have hpoints : points p ≠ [] := List.map_eq_nil_iff.not.mpr hp
  unfold split
  rw [sepOf, if_neg hp', codepointsOf_utf8]
  show (if utf8 s = [] ∧ points p ≠ [] then _ else _) = _
  rw [if_neg fun h => hs' h.1, codepointsOf_utf8]
  simp only [if_pos hpoints]
  rfl

/-- What a split gives. -/
theorem split_eq (hp : p ≠ []) (s : List Char) (maxsplit : Option Int) (h : ¬ ∃ n, maxsplit = some n ∧ n < -1) :
    (¬ Overruns p (limitOf maxsplit s) s → split (utf8 s) (.str (utf8 p)) (maxsplitArg maxsplit) =
      .ok (taken (utf8 s) p.length 0 (Lib.cuts p (limitOf maxsplit s) s))) ∧
    (Overruns p (limitOf maxsplit s) s →
      split (utf8 s) (.str (utf8 p)) (maxsplitArg maxsplit) = .error .undefined) := by
  rw [← overrunsIn_iff]
  by_cases hs : s = []
  · subst hs
    refine ⟨fun _ => ?_, fun h => absurd h (not_overrunsIn_nil hp)⟩
    have hp' : utf8 p ≠ [] := (utf8_injective.eq_iff' utf8_nil).not.mpr hp
    have hpoints : points p ≠ [] := List.map_eq_nil_iff.not.mpr hp
    rw [Lib.cuts_of_no_match (by rwa [List.infix_nil]), split, sepOf, if_neg hp', codepointsOf_utf8]
    exact if_pos ⟨rfl, hpoints⟩
  · obtain ⟨k, hk, hlimit⟩ := maxsplitOf_eq s h
    have hloop := splitLoop_points hp (utf8 s) s.length s (Nat.le_refl _) k 0 [] [] k (by simp)
      (by have hle := length_le_utf8 s; simpa using hle)
    have hcuts : Lib.cuts p k s = Lib.cuts p (limitOf maxsplit s) s := by
      rcases hlimit with rfl | ⟨hle, heq⟩
      · rfl
      · exact Lib.cuts_of_length_le hp hle (by omega)
    have hiff : OverrunsIn p k (Lib.cuts p k s) ↔
        OverrunsIn p (limitOf maxsplit s) (Lib.cuts p (limitOf maxsplit s) s) := by
      rcases hlimit with rfl | ⟨hle, heq⟩
      · exact Iff.rfl
      · exact ⟨overrunsIn_of_le hp hle (by omega), overrunsIn_of_le hp (by omega) hle⟩
    rw [Lib.modifyHead_nil_append, hiff, hcuts] at hloop
    rw [split_sep hp hs, hk]
    exact hloop

theorem split_negative (hp : p ≠ []) (s : List Char) {n : Int} (hn : n < -1) :
    split (utf8 s) (.str (utf8 p)) (.int n) = .ok [utf8 s] := by
  by_cases hs : s = []
  · subst hs
    have hp' : utf8 p ≠ [] := (utf8_injective.eq_iff' utf8_nil).not.mpr hp
    have hpoints : points p ≠ [] := List.map_eq_nil_iff.not.mpr hp
    rw [split, sepOf, if_neg hp', codepointsOf_utf8]
    exact if_pos ⟨rfl, hpoints⟩
  · obtain ⟨c, t, rfl⟩ := List.exists_cons_of_ne_nil hs
    rw [split_sep hp hs, maxsplitOf, if_neg (by omega)]
    show splitLoop (utf8 (c :: t)) (points p) n (points (c :: t)) 0 0 [] = _
    rw [points_cons, splitLoop, if_pos (by rw [List.length_nil]; omega), finish_eq (Nat.zero_le _)]
    rfl

theorem cutsRight_iff {s : List Char} (hp : p ≠ []) {maxsplit : Option Int} : (∃ pieces, CutsRight s p maxsplit pieces) ↔
    split (utf8 s) (.str (utf8 p)) (maxsplitArg maxsplit) = .ok ((Lib.cuts p (limitOf maxsplit s) s).map utf8) := by
  constructor
  · intro h
    obtain ⟨pieces, h⟩ := h
    rw [h.splits, h.cuts]
  · intro h
    exact ⟨_, { splits := h, cuts := rfl, joins := Lib.join_cuts p _ s, limited := Lib.length_cuts_le p _ s,
                free := fun _ hpiece hmatch => Lib.not_infix_cuts hp hpiece hmatch }⟩

theorem sepRight_iff (hp : p ≠ []) (s : List Char) (maxsplit : Option Int) :
    SplitsRight s (.sep p maxsplit) ↔ Splittable s (.sep p maxsplit) := by
  unfold SplitsRight Splittable
  dsimp only
  rw [cutsRight_iff hp]
  by_cases hneg : ∃ n, maxsplit = some n ∧ n < -1
  · rw [if_pos hneg]
    obtain ⟨n, rfl, hn⟩ := hneg
    have hlimit : limitOf (some n) s ≠ 0 := by
      rw [limitOf, if_pos (by omega)]
      omega
    rw [maxsplitArg, split_negative hp s hn, Except.ok.injEq, ← Lib.one_lt_length_cuts hlimit]
    constructor
    · intro h
      have hlength := congrArg List.length h
      rw [List.length_map, List.length_singleton] at hlength
      omega
    · intro h
      rw [Lib.one_lt_length_cuts hlimit] at h
      rw [Lib.cuts_of_no_match h]
      rfl
  · rw [if_neg hneg]
    have hgives := split_eq hp s maxsplit hneg
    have hne := Lib.cuts_ne_nil p (limitOf maxsplit s) s
    have hvalue : utf8 s = [] ++ utf8 (p.intercalate (Lib.cuts p (limitOf maxsplit s) s)) := by
      rw [Lib.join_cuts, List.nil_append]
    by_cases hoverruns : Overruns p (limitOf maxsplit s) s
    · rw [hgives.2 hoverruns]
      exact iff_of_false (fun h => by cases h) fun h => h.1 hoverruns
    · rw [hgives.1 hoverruns, Except.ok.injEq]
      exact ⟨fun h => ⟨hoverruns, (ascii_of_taken hne (Nat.le_refl 0) hvalue h).2⟩,
        fun h => taken_of_ascii hne h.2 hvalue⟩

/-! ## Without one -/

/-- The loop from a position on: `pend` is the run that it is in. No split is refused, since each takes two bytes. -/
theorem wordsLoop_eq {value : Bytes} : ∀ {rest before pend : Bytes} {result : List Bytes}, value = before ++ (pend ++ rest) →
    (∀ b ∈ pend, isspace b = false) → 2 * result.length ≤ before.length →
      wordsLoop value value.length rest before.length (before.length + pend.length) result =
        result ++ Lib.runs isspace (pend ++ rest) := by
  intro rest
  induction rest with
  | nil =>
    intro before pend result hvalue hpend _
    rw [wordsLoop, hvalue, List.drop_left, List.append_nil]
    by_cases hne : pend = []
    · rw [if_pos hne, hne, Lib.runs_nil, List.append_nil]
    · rw [if_neg hne, Lib.runs_of_forall hne hpend]
  | cons el rest ih =>
    intro before pend result hvalue hpend hresult
    have hlength := congrArg List.length hvalue
    rw [List.length_append, List.length_append, List.length_cons] at hlength
    rw [wordsLoop, if_neg (by omega)]
    by_cases hspace : isspace el = true
    · rw [if_pos hspace]
      by_cases hne : pend = []
      · subst hne
        have hrest := @ih (before ++ [el]) [] result (by rw [hvalue]; simp) nofun
          (by rw [List.length_append]; omega)
        rw [List.length_append, List.length_singleton, List.length_nil, Nat.add_zero] at hrest
        rw [if_neg (by simp), List.length_nil, Nat.add_zero, hrest, List.nil_append, List.nil_append, Lib.runs_cons hspace]
      · have hpos := List.length_pos_iff.mpr hne
        have hhead : isspace (value.getD before.length 0) = false := by
          obtain ⟨b, pend, rfl⟩ := List.exists_cons_of_ne_nil hne
          rw [hvalue, List.getD_append_right _ _ _ _ (Nat.le_refl _), Nat.sub_self]
          exact hpend b List.mem_cons_self
        have hpiece : (value.drop before.length).take pend.length = pend := by
          rw [hvalue, List.drop_left, List.take_left]
        have hrest := @ih (before ++ pend ++ [el]) [] (result ++ [pend]) (by rw [hvalue]; simp)
          nofun (by simp only [List.length_append, List.length_singleton]; omega)
        rw [List.length_append, List.length_append, List.length_singleton, List.length_nil, Nat.add_zero] at hrest
        rw [if_pos (by omega), if_neg (by rw [hhead]; exact Bool.false_ne_true), Nat.add_sub_cancel_left, hpiece, hrest,
          Lib.runs_append_cons pend rest hspace, Lib.runs_of_forall hne hpend, List.append_assoc, List.nil_append]
    · have hrest := @ih before (pend ++ [el]) result (by rw [hvalue]; simp)
        (fun b hb => by
          rcases List.mem_append.mp hb with hb | hb
          · exact hpend b hb
          · cases List.mem_singleton.mp hb
            exact Bool.eq_false_iff.mpr hspace) hresult
      rw [List.length_append, List.length_singleton, ← Nat.add_assoc, List.append_assoc] at hrest
      rw [if_neg hspace]
      exact hrest

theorem isspace_ascii {c : Char} (h : isAsciiSpace c = true) : ∃ b, String.utf8EncodeChar c = [b] ∧ isspace b = true := by
  rw [isAsciiSpace, decide_eq_true_eq] at h
  have hascii : isAscii c = true := decide_eq_true (by omega)
  refine ⟨_, utf8EncodeChar_ascii hascii, ?_⟩
  rw [isspace, toNat_ofNat (by omega)]
  exact decide_eq_true h

theorem not_isspace {c : Char} (h : isAsciiSpace c = false) :
    String.utf8EncodeChar c ≠ [] ∧ ∀ b ∈ String.utf8EncodeChar c, isspace b = false := by
  rw [isAsciiSpace, decide_eq_false_iff_not] at h
  cases hc : isAscii c with
  | true =>
    have hlt := of_decide_eq_true hc
    rw [utf8EncodeChar_ascii hc]
    refine ⟨List.cons_ne_nil _ _, List.forall_mem_singleton.mpr ?_⟩
    rw [isspace, toNat_ofNat (by omega)]
    exact decide_eq_false h
  | false =>
    have hone := (length_utf8EncodeChar c).1
    refine ⟨List.length_pos_iff.mp hone, fun b hb => ?_⟩
    have hge := utf8EncodeChar_not_ascii hc b hb
    exact decide_eq_false (by omega)

theorem split_words (s : List Char) : split (utf8 s) .none .none = .ok ((Lib.runs isAsciiSpace s).map utf8) := by
  have hloop := @wordsLoop_eq (utf8 s) (utf8 s) [] [] [] rfl nofun (Nat.le_refl 0)
  rw [List.nil_append, List.nil_append, utf8, Lib.runs_flatMap (fun _ => isspace_ascii) (fun _ => not_isspace)] at hloop
  rw [split, sepOf]
  show (if utf8 s = [] ∧ ([] : List Nat) ≠ [] then _ else _) = _
  rw [if_neg fun h => h.2 rfl]
  exact congrArg Except.ok hloop

theorem wordsRight_iff (s : List Char) : SplitsRight s .words ↔ Splittable s .words := by
  unfold SplitsRight Splittable
  dsimp only
  rw [split_words, Except.ok.injEq, (utf8_injective.list_map).eq_iff]
  have himp (c : Char) (h : isAsciiSpace c = true) : isWhitespace c = true := by
    rw [isAsciiSpace, decide_eq_true_eq] at h
    exact decide_eq_true (by omega)
  constructor
  · intro h c hc hwhite
    by_contra hnot
    obtain ⟨w, hw, hcw⟩ := Lib.exists_mem_runs (Bool.eq_false_iff.mpr hnot) hc
    rw [h] at hw
    cases hwhite.symm.trans (Lib.not_sep_of_mem_runs hw c hcw)
  · intro h
    refine Lib.runs_congr fun c hc => ?_
    rw [Bool.eq_iff_iff]
    exact ⟨himp c, h c hc⟩

/-- The separator is not empty. -/
def SplitCall.Proper (call : SplitCall) : Prop := ∀ p maxsplit, call = .sep p maxsplit → p ≠ []

/-- **`split` is right** with a separator where what is cut off is ASCII and what is left does not end in a beginning of
the separator, and with none where all whitespace is that of ASCII. -/
theorem splitsRight_iff (s : List Char) (call : SplitCall) (hcall : call.Proper) :
    SplitsRight s call ↔ Splittable s call := by
  cases call with
  | sep p maxsplit => exact sepRight_iff (hcall p maxsplit rfl) s maxsplit
  | words => exact wordsRight_iff s

/-- `"a b".split()` and `"a,b".split(",")`. -/
theorem splitsRight_words : SplitsRight ['a', ' ', 'b'] .words ∧ SplitsRight ['a', ',', 'b'] (.sep [','] none) := by
  constructor
  · refine (splitsRight_iff ['a', ' ', 'b'] .words (fun _ _ h => by cases h)).mpr fun c hc hspace => ?_
    rcases List.mem_cons.mp hc with rfl | hc
    · cases hspace
    rcases List.mem_cons.mp hc with rfl | hc
    · rfl
    · cases List.mem_singleton.mp hc
      cases hspace
  · have hproper : SplitCall.Proper (.sep [','] none) := by
      intro p maxsplit h
      cases h
      decide
    have hcuts : Lib.cuts [','] (limitOf none ['a', ',', 'b']) ['a', ',', 'b'] = [['a'], ['b']] := by decide
    refine (splitsRight_iff ['a', ',', 'b'] (.sep [','] none) hproper).mpr ?_
    unfold Splittable
    dsimp only
    rw [if_neg (by simp)]
    refine ⟨fun hover => ?_, ?_⟩
    · rw [← overrunsIn_iff, hcuts] at hover
      obtain ⟨-, u, last, hlast, hne, hends, hstarts⟩ := hover
      cases hlast
      obtain ⟨c, u, rfl⟩ := List.exists_cons_of_ne_nil hne
      have hcomma := List.mem_singleton.mp (hstarts.mem List.mem_cons_self)
      have hletter := List.mem_singleton.mp (hends.mem List.mem_cons_self)
      exact absurd (hcomma.symm.trans hletter) (by decide)
    · unfold AsciiCuts
      rw [hcuts]
      simp [isAscii]

/-- `"é,".split(",")` cuts the character. -/
theorem accent_cut : split (utf8 ['é', ',']) (.str (utf8 [','])) .none = .ok [[0xC3], [0x2C]] ∧
    Lib.cuts [','] 3 ['é', ','] = [['é'], []] ∧ ¬ SplitsRight ['é', ','] (.sep [','] none) := by
  have hnot : ¬ Overruns [','] 3 ['é', ','] := by
    rw [← overrunsIn_iff]
    intro h
    obtain ⟨-, u, last, hlast, hne, hsuffix, -⟩ := h
    have hcuts : Lib.cuts [','] 3 ['é', ','] = [['é'], []] := by decide
    rw [hcuts] at hlast
    cases hlast
    exact hne (List.suffix_nil.mp hsuffix)
  have hgives : split (utf8 ['é', ',']) (.str (utf8 [','])) .none = .ok [[0xC3], [0x2C]] :=
    (split_eq (p := [',']) (List.cons_ne_nil _ _) ['é', ','] none nofun).1 hnot
  refine ⟨hgives, by decide, fun h => ?_⟩
  have hright := (sepRight_iff (List.cons_ne_nil _ _) ['é', ','] none).mp h
  have hascii := hright.2.1 ['é'] (by decide) 'é' (List.mem_singleton_self _)
  exact absurd hascii (by decide)

end Pylang.Runtime.StrSplit
