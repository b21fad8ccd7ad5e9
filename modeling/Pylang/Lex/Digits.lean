/-
The readers of numbers return where no digits that they read end in an
underscore (`Dangling`): the last character of the digits is looked at, and an
underscore there is left to do.
-/
import Pylang.Lex.Lookahead

namespace Pylang.Lex

/-- No two underscores in a row; `previous` tells whether one comes before. -/
def singleUnderscores : Bool → List Char → Bool
  | _, [] => true
  | previous, c :: s => !(c = '_' && previous) && singleUnderscores (c = '_') s

def inRun (f : Char → Bool) (c : Char) : Bool := f c || c = '_'

/-- The digits at the start of a text, with single underscores between them, end in an underscore. -/
def Dangling (f : Char → Bool) (s : List Char) : Prop :=
  (s.takeWhile (inRun f)).getLast? = some '_' ∧ singleUnderscores false (s.takeWhile (inRun f)) = true

/-- The end of the digits that start at an offset. -/
def runEnd (t : List Char) (n : Nat) : Nat := n + ((t.drop n).takeWhile (inRun Char.isDigit)).length

namespace Lexer

/-- The offsets at which the reader of numbers reads digits, of a kind. -/
inductive DigitsAt (program : List Char) (L : Lexer) : Nat → (Char → Bool) → Prop
  | whole {d : Char} : (L.rest program)[0]? = some d → d.isDigit = true → DigitsAt program L 1 Char.isDigit
  | point {d : Char} : (L.rest program)[0]? = some d → d.isDigit = true → (L.rest program)[1]? = some '.' →
      DigitsAt program L 2 Char.isDigit
  | fraction {n : Nat} {c d : Char} : (L.rest program)[0]? = some c →
      (n = 0 ∨ c.isDigit = true ∧ n = runEnd (L.rest program) 1) → (L.rest program)[n]? = some '.' →
      (L.rest program)[n + 1]? = some d → d.isDigit = true → DigitsAt program L (n + 2) Char.isDigit
  | exponent {k n : Nat} {b c d : Char} : (L.rest program)[0]? = some b → b.isDigit = true →
      (k = 1 ∨ k = 2 ∧ (L.rest program)[1]? = some '.') →
      (L.rest program)[runEnd (L.rest program) k]? = some c → (c = 'e' ∨ c = 'E') →
      (n = runEnd (L.rest program) k + 1 ∨ n = runEnd (L.rest program) k + 2 ∧
        ∃ sign, (L.rest program)[runEnd (L.rest program) k + 1]? = some sign ∧ (sign = '-' ∨ sign = '+')) →
      (L.rest program)[n]? = some d → d.isDigit = true → DigitsAt program L (n + 1) Char.isDigit
  | radix {letter d : Char} {f : Char → Bool} : (L.rest program)[0]? = some '0' →
      (L.rest program)[1]? = some letter →
      ((letter = 'x' ∨ letter = 'X') ∧ f = isHexValue ∨ (letter = 'b' ∨ letter = 'B') ∧ f = isBinValue ∨
        (letter = 'o' ∨ letter = 'O') ∧ f = isOctValue) →
      (L.rest program)[2]? = some d → f d = true → DigitsAt program L 3 f
  | zeros : (L.rest program)[0]? = some '0' → L.floatNumber program 0 = .ok none → DigitsAt program L 0 (· = '0')

section
variable {program : List Char} {L : Lexer}

/-- A reader has looked ahead only, and has come to an offset before the line feed. -/
def Stays (program : List Char) (L : Lexer) (r : Option Nat) : Prop :=
  ∀ m, r = some m → 0 < m ∧ m < (L.rest program).length

theorem stays_none : Stays program L none := nofun

theorem get_of_lt {s : List Char} {n : Nat} (h : n < s.length) : ∃ c, s[n]? = some c :=
  ⟨s[n], List.getElem?_eq_getElem h⟩

theorem isDigit_of_not {c : Char} (h : ¬ (!c.isDigit) = true) : c.isDigit = true := by simpa using h

theorem ne_underscore_of_isDigit {c : Char} (h : c.isDigit = true) : c ≠ '_' := by
  intro heq
  obtain rfl := heq
  exact absurd h (by decide)

theorem never_digitsLoop {f : Char → Bool} {s : List Char} (hline : EndsLine s) (hf : f '\n' = false)
    (previous : Bool) (n : Nat) : Ensures Never (digitsLoop f s previous n) fun r =>
      r = if singleUnderscores previous (s.takeWhile (inRun f)) = true then some (n + (s.takeWhile (inRun f)).length)
        else none := by
  induction s generalizing previous n with
  | nil => cases hline
  | cons c s ih =>
    unfold digitsLoop
    split
    next hrun =>
      have hne : c ≠ '\n' := by
        intro h
        obtain rfl := h
        simp [hf] at hrun
      have hin : inRun f c = true := hrun
      rw [List.takeWhile_cons_of_pos hin]
      split
      next htwo => exact (if_neg (by simp [singleUnderscores, htwo])).symm
      next hone =>
        refine (ih (hline.next hne) _ (n + 1)).mono fun r hr => ?_
        rw [hr]
        have hiff : singleUnderscores previous (c :: s.takeWhile (inRun f)) =
            singleUnderscores (decide (c = '_')) (s.takeWhile (inRun f)) := by
          rw [singleUnderscores, Bool.eq_false_iff.2 hone]
          rfl
        rw [hiff, List.length_cons, Nat.add_assoc, Nat.add_comm 1]
    next hrun =>
      have hin : ¬ inRun f c = true := hrun
      rw [List.takeWhile_cons_of_neg hin]
      exact (if_pos rfl).symm

/-- Digits are read to their end, or not at all. -/
theorem never_parseDigits (hline : EndsLine (L.rest program)) {f : Char → Bool} (hf : f '\n' = false) {n : Nat}
    (hn : n < (L.rest program).length) (hprevious : 0 < n → ∃ c, (L.rest program)[n - 1]? = some c ∧ c ≠ '_')
    (hfine : ¬ Dangling f ((L.rest program).drop n)) : Ensures Never (L.parseDigits program n f) fun r =>
      ∀ m, r = some m → m = n + (((L.rest program).drop n).takeWhile (inRun f)).length ∧ m < (L.rest program).length := by
  have hdrop : EndsLine ((L.rest program).drop n) := hline.drop hn
  have hshort := hdrop.takeWhile_lt (p := inRun f) (by simp [inRun, hf])
  rw [List.length_drop] at hshort
  unfold parseDigits
  rw [ensures_bind, ← List.drop_drop]
  refine (never_digitsLoop hdrop hf false n).mono fun r hr => ?_
  rw [hr]
  cases hsingle : singleUnderscores false (((L.rest program).drop n).takeWhile (inRun f)) with
  | false => exact nofun
  | true =>
    rw [if_pos rfl]
    have hresult : ∀ m, some (n + (((L.rest program).drop n).takeWhile (inRun f)).length) = some m →
        m = n + (((L.rest program).drop n).takeWhile (inRun f)).length ∧ m < (L.rest program).length := by
      intro m heq
      obtain rfl := Option.some.inj heq
      exact ⟨rfl, by omega⟩
    -- the character before the end of the digits
    have hlast : 0 < n + (((L.rest program).drop n).takeWhile (inRun f)).length →
        ∃ c, (L.rest program)[n + (((L.rest program).drop n).takeWhile (inRun f)).length - 1]? = some c ∧ c ≠ '_' := by
      intro hpos
      by_cases hrun : ((L.rest program).drop n).takeWhile (inRun f) = []
      · rw [hrun] at hpos ⊢
        exact hprevious hpos
      · have hlength := List.length_pos_iff.2 hrun
        refine ⟨(((L.rest program).drop n).takeWhile (inRun f)).getLast hrun, ?_, fun hunder => hfine ⟨?_, hsingle⟩⟩
        · rw [Nat.add_sub_assoc hlength, ← List.getElem?_drop, List.getLast_eq_getElem,
            (List.takeWhile_prefix (inRun f)).getElem]
          exact List.getElem?_eq_getElem _
        · rw [List.getLast?_eq_some_getLast hrun, hunder]
    simp only [ensures_bind, ensures_ite, ensures_pure, ensures_throw]
    refine ⟨fun hpos => ?_, fun _ => hresult⟩
    obtain ⟨c, hc, hne⟩ := hlast hpos
    rw [ensures_peekAt hc]
    exact ⟨hne, fun _ => hresult⟩

/-- Decimal digits behind a character that is none of theirs but no underscore. -/
theorem never_decimal (hline : EndsLine (L.rest program)) {n : Nat} {c : Char} (hc : (L.rest program)[n]? = some c)
    (hunder : c ≠ '_') (hfeed : c ≠ '\n') (hfine : ¬ Dangling Char.isDigit ((L.rest program).drop (n + 1))) :
    Ensures Never (L.parseDigits program (n + 1) Char.isDigit) fun r =>
      ∀ m, r = some m → m = runEnd (L.rest program) (n + 1) ∧ n < m ∧ m < (L.rest program).length := by
  refine (never_parseDigits hline (by decide) (hline.lt_next hc hfeed) (fun _ => ⟨c, hc, hunder⟩) hfine).mono ?_
  intro r hr m hm
  obtain ⟨heq, hlt⟩ := hr m hm
  exact ⟨heq, by omega, hlt⟩

theorem never_digits (hline : EndsLine (L.rest program)) {n : Nat} {d : Char} (hd : (L.rest program)[n]? = some d)
    (hdigit : d.isDigit = true) (hfine : ¬ Dangling Char.isDigit ((L.rest program).drop (n + 1))) :
    Ensures Never (L.parseDigits program (n + 1) Char.isDigit) fun r =>
      ∀ m, r = some m → m = runEnd (L.rest program) (n + 1) ∧ n < m ∧ m < (L.rest program).length :=
  never_decimal hline hd (ne_underscore_of_isDigit hdigit) (ne_newline_of_isDigit (by simp [hdigit])) hfine

section
variable (hline : EndsLine (L.rest program)) (hfine : ∀ n f, DigitsAt program L n f → ¬ Dangling f ((L.rest program).drop n))
include hline hfine

/-- The digits of a number with a prefix, whichever letter precedes them. -/
theorem never_firstDigit {lower upper letter : Char} {f : Char → Bool} (hl : lower ≠ '\n') (hu : upper ≠ '\n')
    (hf : f '\n' = false) (hf' : f '_' = false)
    (hkind : (letter = 'x' ∨ letter = 'X') ∧ f = isHexValue ∨ (letter = 'b' ∨ letter = 'B') ∧ f = isBinValue ∨
      (letter = 'o' ∨ letter = 'O') ∧ f = isOctValue)
    (hget : (L.rest program)[0]? = some '0') (hletter : (L.rest program)[1]? = some letter)
    (hor : letter = lower ∨ letter = upper) :
    Ensures Never (L.peek program (0 + 1 + 1)) fun a =>
      ((!f a) = true → Stays program L none) ∧
        (¬ (!f a) = true →
          Ensures Never (L.parseDigits program (0 + 1 + 1 + 1) f) fun a =>
            Ensures Never
              (match a with
              | some m => if m < 3 then pure none else pure (some m)
              | none => pure none)
              (Stays program L)) := by
  have hne : letter ≠ '\n' := by rcases hor with rfl | rfl <;> assumption
  obtain ⟨d, hd⟩ := hline.get_next hletter hne
  have hd2 : (L.rest program)[0 + 1 + 1]? = some d := hd
  rw [ensures_peekAt hd2]
  refine ⟨fun _ => stays_none, fun hvalue => ?_⟩
  have hvalue : f d = true := by simpa using hvalue
  have hdf : d ≠ '\n' := by
    intro h
    rw [h, hf] at hvalue
    cases hvalue
  have hdu : d ≠ '_' := by
    intro h
    rw [h, hf'] at hvalue
    cases hvalue
  refine (never_parseDigits hline hf (hline.lt_next hd hdf) (fun _ => ⟨d, hd, hdu⟩)
    (hfine 3 f (.radix hget hletter (hkind) hd hvalue))).mono fun r hr => ?_
  cases r with
  | none => exact stays_none
  | some m =>
    obtain ⟨-, hlt⟩ := hr m rfl
    simp only [ensures_ite, ensures_pure]
    refine ⟨fun _ => stays_none, fun hge m' heq => ?_⟩
    obtain rfl := Option.some.inj heq
    exact ⟨by omega, hlt⟩

theorem never_prefixedNumber {lower upper : Char} {f : Char → Bool} (hl : lower ≠ '\n') (hu : upper ≠ '\n')
    (hf : f '\n' = false) (hf' : f '_' = false)
    (hkind : ∀ {letter : Char}, letter = lower ∨ letter = upper →
      (letter = 'x' ∨ letter = 'X') ∧ f = isHexValue ∨ (letter = 'b' ∨ letter = 'B') ∧ f = isBinValue ∨
        (letter = 'o' ∨ letter = 'O') ∧ f = isOctValue) :
    Ensures Never (L.prefixedNumber program lower upper f 0) (Stays program L) := by
  obtain ⟨c, s, hrest⟩ := hline.exists_cons
  have hget : (L.rest program)[0]? = some c := by
    rw [hrest]
    rfl
  unfold prefixedNumber
  simp only [ensures_bind, ensures_ite, ensures_pure]
  rw [ensures_peekAt hget]
  refine ⟨fun _ => stays_none, fun hzero => ?_⟩
  obtain rfl : c = '0' := not_not.1 hzero
  obtain ⟨letter, hletter⟩ := hline.get_next hget (by decide)
  have hdigits (hor : letter = lower ∨ letter = upper) :=
    never_firstDigit hline hfine hl hu hf hf' (hkind hor) hget hletter hor
  have hletter' : (L.rest program)[0 + 1]? = some letter := hletter
  rw [ensures_peekAt hletter']
  refine ⟨fun _ => ?_, fun hlow => hdigits (.inl (not_not.1 hlow))⟩
  rw [ensures_peekAt hletter']
  exact ⟨fun _ => stays_none, fun hup => hdigits (.inr (not_not.1 hup))⟩

theorem never_pointFraction {n : Nat} {c : Char} (hc : (L.rest program)[0]? = some c)
    (hn : n = 0 ∨ c.isDigit = true ∧ n = runEnd (L.rest program) 1) (hlt : n < (L.rest program).length) :
    Ensures Never (L.pointFraction program n) (Stays program L) := by
  obtain ⟨point, hpoint⟩ := get_of_lt hlt
  unfold pointFraction
  simp only [ensures_bind, ensures_ite, ensures_pure]
  rw [ensures_peekAt hpoint]
  refine ⟨fun _ => stays_none, fun heq => ?_⟩
  obtain rfl : point = '.' := not_not.1 heq
  obtain ⟨d, hd⟩ := hline.get_next hpoint (by decide)
  rw [ensures_peekAt hd]
  refine ⟨fun _ m heq => ?_, fun hdigit => ?_⟩
  · obtain rfl := Option.some.inj heq
    exact ⟨Nat.succ_pos n, hline.lt_next hpoint (by decide)⟩
  · have hdigit := isDigit_of_not hdigit
    refine (never_digits hline hd hdigit (hfine _ _ (.fraction hc hn hpoint hd hdigit))).mono fun r hr m hm => ?_
    obtain ⟨-, hpos, hless⟩ := hr m hm
    exact ⟨by omega, hless⟩

theorem never_pointFloatNumber : Ensures Never (L.pointFloatNumber program 0) (Stays program L) := by
  obtain ⟨c, s, hrest⟩ := hline.exists_cons
  have hget : (L.rest program)[0]? = some c := by
    rw [hrest]
    rfl
  have hlen : 0 < (L.rest program).length := by
    rw [hrest]
    exact Nat.succ_pos _
  unfold pointFloatNumber
  simp only [ensures_bind, ensures_ite]
  rw [ensures_peekAt hget]
  refine ⟨fun hdigit => ?_, fun _ => never_pointFraction hline hfine hget (.inl rfl) hlen⟩
  refine (never_digits hline hget hdigit (hfine _ _ (.whole hget hdigit))).mono fun r hr => ?_
  cases r with
  | none => exact stays_none
  | some m =>
    obtain ⟨heq, -, hlt⟩ := hr m rfl
    exact never_pointFraction hline hfine hget (.inr ⟨hdigit, heq⟩) hlt

theorem never_expNumber {k : Nat} {b : Char} (hb : (L.rest program)[0]? = some b) (hdigit : b.isDigit = true)
    (hk : k = 1 ∨ k = 2 ∧ (L.rest program)[1]? = some '.') (hlt : runEnd (L.rest program) k < (L.rest program).length) :
    Ensures Never (L.expNumber program (runEnd (L.rest program) k)) (Stays program L) := by
  generalize hn : runEnd (L.rest program) k = n at hlt
  obtain ⟨letter, hletter⟩ := get_of_lt hlt
  unfold expNumber
  simp only [ensures_bind, ensures_ite, ensures_pure]
  -- the sign and the digits, whichever letter precedes them
  have hdigits : letter = 'e' ∨ letter = 'E' →
      Ensures Never (L.peek program (n + 1)) fun c =>
        Ensures Never (L.peek program (if (c = '-' || c = '+') = true then n + 1 + 1 else n + 1)) fun a =>
          ((!a.isDigit) = true → Stays program L none) ∧
            (¬ (!a.isDigit) = true →
              Ensures Never (L.parseDigits program ((if (c = '-' || c = '+') = true then n + 1 + 1 else n + 1) + 1)
                Char.isDigit) (Stays program L)) := by
    intro hor
    obtain ⟨c, hc⟩ := hline.get_next hletter (by rcases hor with rfl | rfl <;> decide)
    rw [ensures_peekAt hc]
    -- the offset of the first digit
    obtain ⟨i, hi, hoffset⟩ : ∃ i, (if (c = '-' || c = '+') = true then n + 1 + 1 else n + 1) = i ∧
        (i = n + 1 ∨ i = n + 2 ∧ ∃ sign, (L.rest program)[n + 1]? = some sign ∧ (sign = '-' ∨ sign = '+')) := by
      refine ⟨_, rfl, ?_⟩
      split
      next hsign => exact .inr ⟨rfl, c, hc, by simpa using hsign⟩
      next => exact .inl rfl
    rw [hi]
    have hilt : i < (L.rest program).length := by
      rcases hoffset with rfl | ⟨rfl, sign, hsign, hor'⟩
      · exact (List.getElem?_eq_some_iff.1 hc).1
      · exact hline.lt_next hsign (by rcases hor' with rfl | rfl <;> decide)
    obtain ⟨d, hd⟩ := get_of_lt hilt
    rw [ensures_peekAt hd]
    refine ⟨fun _ => stays_none, fun hdig => ?_⟩
    have hdig := isDigit_of_not hdig
    subst hn
    refine (never_digits hline hd hdig (hfine _ _ (.exponent hb hdigit hk hletter hor hoffset hd hdig))).mono ?_
    intro r hr m hm
    obtain ⟨-, hpos, hless⟩ := hr m hm
    exact ⟨by omega, hless⟩
  rw [ensures_peekAt hletter]
  refine ⟨fun _ => ?_, fun hlow => hdigits (.inl (not_not.1 hlow))⟩
  rw [ensures_peekAt hletter]
  exact ⟨fun _ => stays_none, fun hup => hdigits (.inr (not_not.1 hup))⟩

/-- The digits behind the first one or behind a point, and the exponent. -/
theorem never_exponentAfter {c : Char} (hget : (L.rest program)[0]? = some c) (hdigit : c.isDigit = true) {k : Nat}
    (hk : k = 1 ∨ k = 2 ∧ (L.rest program)[1]? = some '.') :
    Ensures Never (L.parseDigits program k Char.isDigit) fun r =>
      Ensures Never
        (match r with
        | some n => L.expNumber program n
        | _ => pure none)
        (Stays program L) := by
  have hread : Ensures Never (L.parseDigits program k Char.isDigit) fun r =>
      ∀ m, r = some m → m = runEnd (L.rest program) k ∧ m < (L.rest program).length := by
    rcases hk with rfl | ⟨rfl, hpoint⟩
    · exact (never_digits hline hget hdigit (hfine _ _ (.whole hget hdigit))).mono fun r hr m hm =>
        ⟨(hr m hm).1, (hr m hm).2.2⟩
    · exact (never_decimal hline hpoint (by decide) (by decide) (hfine _ _ (.point hget hdigit hpoint))).mono
        fun r hr m hm => ⟨(hr m hm).1, (hr m hm).2.2⟩
  refine hread.mono fun r hr => ?_
  cases r with
  | none => exact stays_none
  | some m =>
    obtain ⟨rfl, hlt⟩ := hr m rfl
    exact never_expNumber hline hfine hget hdigit hk hlt

theorem never_expFloatNumber : Ensures Never (L.expFloatNumber program 0) (Stays program L) := by
  obtain ⟨c, s, hrest⟩ := hline.exists_cons
  have hget : (L.rest program)[0]? = some c := by
    rw [hrest]
    rfl
  unfold expFloatNumber
  simp only [ensures_bind, ensures_ite, ensures_pure]
  rw [ensures_peekAt hget]
  refine ⟨fun _ => stays_none, fun hdigit => ?_⟩
  have hdigit := isDigit_of_not hdigit
  obtain ⟨d, hd⟩ := hline.get_next hget (ne_newline_of_isDigit (by simp [hdigit]))
  have hd' : (L.rest program)[0 + 1]? = some d := hd
  rw [ensures_peekAt hd']
  split
  next hpoint =>
    obtain rfl : d = '.' := hpoint
    exact never_exponentAfter hline hfine hget hdigit (.inr ⟨rfl, hd⟩)
  next => exact never_exponentAfter hline hfine hget hdigit (.inl rfl)

theorem never_floatNumber : Ensures Never (L.floatNumber program 0) (Stays program L) := by
  unfold floatNumber
  rw [ensures_bind]
  refine (never_expFloatNumber hline hfine).mono fun r hr => ?_
  cases r with
  | some m => exact hr
  | none => exact never_pointFloatNumber hline hfine

theorem never_imagInteger : Ensures Never (L.imagInteger program 0) (Stays program L) := by
  obtain ⟨c, s, hrest⟩ := hline.exists_cons
  have hget : (L.rest program)[0]? = some c := by
    rw [hrest]
    rfl
  unfold imagInteger
  simp only [ensures_bind, ensures_ite, ensures_pure]
  rw [ensures_peekAt hget]
  refine ⟨fun _ => stays_none, fun hdigit => ?_⟩
  have hdigit := isDigit_of_not hdigit
  refine (never_digits hline hget hdigit (hfine _ _ (.whole hget hdigit))).mono fun r hr => ?_
  cases r with
  | none => exact stays_none
  | some m =>
    obtain ⟨-, -, hlt⟩ := hr m rfl
    obtain ⟨d, hd⟩ := get_of_lt hlt
    simp only [ensures_bind, ensures_ite, ensures_pure]
    rw [ensures_peekAt hd]
    refine ⟨fun _ => stays_none, fun hboth => ?_⟩
    -- no character is both of them
    obtain ⟨hj, hJ⟩ : d = 'j' ∧ d = 'J' := by simpa using hboth
    exact absurd (hj.symm.trans hJ) (by decide)

theorem never_imagNumber : Ensures Never (L.imagNumber program 0) fun r =>
    ∀ m, r = some m → 0 < m ∧ m ≤ (L.rest program).length := by
  unfold imagNumber
  rw [ensures_bind]
  refine (never_imagInteger hline hfine).mono fun r hr => ?_
  cases r with
  | some m => exact fun m' heq => ⟨(hr m' heq).1, Nat.le_of_lt (hr m' heq).2⟩
  | none =>
    simp only [ensures_bind]
    refine (never_floatNumber hline hfine).mono fun r hr => ?_
    cases r with
    | none => exact nofun
    | some stop =>
      obtain ⟨hpos, hlt⟩ := hr stop rfl
      obtain ⟨d, hd⟩ := get_of_lt hlt
      simp only [ensures_bind, ensures_ite, ensures_pure]
      rw [ensures_peekAt hd]
      refine ⟨fun _ m heq => ?_, fun _ => nofun⟩
      obtain rfl := Option.some.inj heq
      exact ⟨Nat.succ_pos _, hlt⟩

theorem never_decNumber (hunder : (L.rest program)[0]? ≠ some '_') (hfloat : L.floatNumber program 0 = .ok none) :
    Ensures Never (L.decNumber program 0) (Stays program L) := by
  obtain ⟨c, s, hrest⟩ := hline.exists_cons
  have hget : (L.rest program)[0]? = some c := by
    rw [hrest]
    rfl
  have hlen : 0 < (L.rest program).length := by
    rw [hrest]
    exact Nat.succ_pos _
  have hne : c ≠ '_' := fun h => hunder (hget.trans (congrArg some h))
  have hzeros : ¬ Dangling (· = '0') ((L.rest program).drop 0) := by
    by_cases hc : c = '0'
    · exact hfine 0 _ (.zeros (hc ▸ hget) hfloat)
    · intro hdangling
      rw [List.drop_zero, hrest] at hdangling
      have hrun : ¬ inRun (· = '0') c = true := by simp [inRun, hc, hne]
      have hlast := hdangling.1
      rw [List.takeWhile_cons_of_neg hrun] at hlast
      cases hlast
  unfold decNumber
  simp only [ensures_bind, ensures_ite, ensures_throw]
  rw [ensures_peekAt hget]
  refine ⟨hne, fun _ => ?_⟩
  refine (never_parseDigits hline (by decide) hlen (fun h => absurd h (Nat.lt_irrefl 0)) hzeros).mono fun r hr => ?_
  cases r with
  | none => exact stays_none
  | some m =>
    obtain ⟨-, hlt⟩ := hr m rfl
    simp only [ensures_bind, ensures_ite, ensures_pure]
    refine ⟨fun hpos m' heq => ?_, fun hzero => ?_⟩
    · obtain rfl := Option.some.inj heq
      exact ⟨hpos, hlt⟩
    obtain rfl : m = 0 := by omega
    rw [ensures_peekAt hget]
    refine ⟨fun _ => stays_none, fun hdigit => ?_⟩
    have hdigit := isDigit_of_not hdigit
    refine (never_digits hline hget hdigit (hfine _ _ (.whole hget hdigit))).mono fun r hr => ?_
    cases r with
    | none => exact stays_none
    | some m =>
      obtain ⟨-, hpos, hlt⟩ := hr m rfl
      simp only [ensures_ite, ensures_pure]
      refine ⟨fun _ m' heq => ?_, fun _ => stays_none⟩
      obtain rfl := Option.some.inj heq
      exact ⟨by omega, hlt⟩

theorem never_intNumber (hunder : (L.rest program)[0]? ≠ some '_') (hfloat : L.floatNumber program 0 = .ok none) :
    Ensures Never (L.intNumber program 0) (Stays program L) := by
  have hhex : Ensures Never (L.hexNumber program 0) (Stays program L) :=
    never_prefixedNumber hline hfine (by decide) (by decide) (by decide) (by decide) fun h => .inl ⟨h, rfl⟩
  have hbin : Ensures Never (L.binNumber program 0) (Stays program L) :=
    never_prefixedNumber hline hfine (by decide) (by decide) (by decide) (by decide) fun h => .inr (.inl ⟨h, rfl⟩)
  have hoct : Ensures Never (L.octNumber program 0) (Stays program L) :=
    never_prefixedNumber hline hfine (by decide) (by decide) (by decide) (by decide) fun h => .inr (.inr ⟨h, rfl⟩)
  unfold intNumber
  rw [ensures_bind]
  refine hhex.mono fun r hr => ?_
  cases r with
  | some m => exact hr
  | none =>
    simp only [ensures_bind]
    refine hbin.mono fun r hr => ?_
    cases r with
    | some m => exact hr
    | none =>
      simp only [ensures_bind]
      refine hoct.mono fun r hr => ?_
      cases r with
      | some m => exact hr
      | none => exact never_decNumber hline hfine hunder hfloat

end

theorem never_pushNumber (hlt : L.cursor < program.length) (r : Option Nat)
    (hr : ∀ m, r = some m → 0 < m ∧ m ≤ (L.rest program).length) : Ensures Never
      (match r with
      | some stop =>
        pure (true, (L.incrementColumnPosition stop).pushToken .number L.position (L.incrementColumnPosition stop).position)
      | none => pure (false, L)) (Reading program L) := by
  have hlength := rest_length program L
  cases r with
  | none => exact reading_false
  | some stop =>
    obtain ⟨hpos, hle⟩ := hr stop rfl
    refine reading_true ?_ ?_ rfl
    · show L.cursor < L.cursor + stop
      omega
    · show L.cursor + stop ≤ program.length
      omega

theorem never_tryReadNumber (hend : EndsLine program)
    (hfine : ∀ n f, DigitsAt program L n f → ¬ Dangling f ((L.rest program).drop n))
    (hunder : (L.rest program)[0]? ≠ some '_') : Ensures Never (L.tryReadNumber program) (Reading program L) := by
  unfold tryReadNumber
  simp only [ensures_ite, ensures_pure]
  refine ⟨fun _ => reading_false, fun hlt => ?_⟩
  have hline := endsLine_rest hend (Nat.not_le.1 hlt)
  have hlength := rest_length program L
  have hpush := never_pushNumber (Nat.not_le.1 hlt)
  have hstays : ∀ {r}, Stays program L r → ∀ m, r = some m → 0 < m ∧ m ≤ (L.rest program).length :=
    fun h m heq => ⟨(h m heq).1, Nat.le_of_lt (h m heq).2⟩
  rw [ensures_bind]
  refine (never_imagNumber hline hfine).mono fun r hr => ?_
  cases r with
  | some m => exact hpush _ hr
  | none =>
    dsimp only
    rw [ensures_bind]
    refine (never_floatNumber hline hfine).with_eq.mono fun r hr => ?_
    obtain ⟨hfloat, hr⟩ := hr
    cases r with
    | some m => exact hpush _ (hstays hr)
    | none =>
      dsimp only
      rw [ensures_bind]
      exact (never_intNumber hline hfine hunder hfloat).mono fun r hr => hpush r (hstays hr)

end

end Lexer

end Pylang.Lex
