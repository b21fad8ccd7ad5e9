/-
The reader of numbers over the text at the cursor: where the readers return a
distance, these return what is left behind it (`number_lifts`).
-/
import Pylang.Lex.Literal

namespace Pylang.Lex

namespace Text

/-- `parse_digits`, behind a character that is no underscore. -/
def digits (f : Char → Bool) (s : List Char) : Except Stop (Option (List Char)) :=
  if singleUnderscores false (s.takeWhile (inRun f)) then
    if after f s = [] then .error .assertion
    else if (s.takeWhile (inRun f)).getLast? = some '_' then .error .todo
    else .ok (some (after f s))
  else .ok none

theorem digits_some {f : Char → Bool} {s u : List Char} (h : digits f s = .ok (some u)) : u = after f s := by
  unfold digits at h
  split at h
  · split at h
    · cases h
    · split at h
      · cases h
      · exact (Option.some.inj (Except.ok.inj h)).symm
  · cases h

theorem digits_next {f : Char → Bool} {s u : List Char} (h : digits f s = .ok (some u)) : after f s ≠ [] := by
  unfold digits at h
  split at h
  · split at h
    · cases h
    next hnext => exact hnext
  · cases h

def peek : List Char → Except Stop (Char × List Char)
  | [] => .error .assertion
  | c :: s => .ok (c, s)

def prefixedNumber (lower upper : Char) (f : Char → Bool) (t : List Char) : Except Stop (Option (List Char)) := do
  let (c, s) ← peek t
  if c ≠ '0' then return none
  let (letter, s) ← peek s
  if letter ≠ lower ∧ letter ≠ upper then return none
  let (v, s) ← peek s
  if !f v then return none
  digits f s

def decNumber (t : List Char) : Except Stop (Option (List Char)) := do
  let (c, s) ← peek t
  if c = '_' then throw .todo
  let some u ← digits (· = '0') t | return none
  if c = '0' then return some u
  if !c.isDigit then return none
  digits Char.isDigit s

def intNumber (t : List Char) : Except Stop (Option (List Char)) := do
  if let some u ← prefixedNumber 'x' 'X' Lexer.isHexValue t then return some u
  if let some u ← prefixedNumber 'b' 'B' Lexer.isBinValue t then return some u
  if let some u ← prefixedNumber 'o' 'O' Lexer.isOctValue t then return some u
  decNumber t

def expNumber (t : List Char) : Except Stop (Option (List Char)) := do
  let (c, s) ← peek t
  if c ≠ 'e' ∧ c ≠ 'E' then return none
  let (sign, s') ← peek s
  let (d, s) ← peek (if sign = '-' ∨ sign = '+' then s' else s)
  if !d.isDigit then return none
  digits Char.isDigit s

def pointFraction (t : List Char) : Except Stop (Option (List Char)) := do
  let (c, s) ← peek t
  if c ≠ '.' then return none
  let (d, s') ← peek s
  if !d.isDigit then return some s
  digits Char.isDigit s'

def pointFloatNumber (t : List Char) : Except Stop (Option (List Char)) := do
  let (c, s) ← peek t
  if c.isDigit then
    let some u ← digits Char.isDigit s | return none
    pointFraction u
  else pointFraction t

def expFloatNumber (t : List Char) : Except Stop (Option (List Char)) := do
  let (c, s) ← peek t
  if !c.isDigit then return none
  let (point, s') ← peek s
  let some u ← digits Char.isDigit (if point = '.' then s' else s) | return none
  expNumber u

def floatNumber (t : List Char) : Except Stop (Option (List Char)) := do
  if let some u ← expFloatNumber t then return some u
  pointFloatNumber t

/-- The first reader of `imag_number`: no character is `j` and `J`. -/
def imagInteger (t : List Char) : Except Stop Unit := do
  let (c, s) ← peek t
  if !c.isDigit then return ()
  let _ ← digits Char.isDigit s

def imagNumber (t : List Char) : Except Stop (Option (List Char)) := do
  imagInteger t
  let some u ← floatNumber t | return none
  let (c, s) ← peek u
  if c = 'j' ∨ c = 'J' then return some s else return none

def number (t : List Char) : Except Stop (Option (List Char)) := do
  if let some u ← imagNumber t then return some u
  if let some u ← floatNumber t then return some u
  intNumber t

end Text

namespace Lexer

/-- A distance is the one of what is left behind it. -/
def Lifts (program : List Char) (L : Lexer) : Except Stop (Option Nat) → Except Stop (Option (List Char)) → Prop
  | .ok (some n), .ok (some u) => (L.rest program).drop n = u ∧ n ≤ (L.rest program).length
  | .ok none, .ok none => True
  | .error e, .error e' => e = e'
  | _, _ => False

section
variable {program : List Char} {L : Lexer} {n : Nat} {s : List Char} {c : Char}

theorem ok_bind {α β : Type} {a : α} {g : α → Except Stop β} : (Except.ok a >>= g) = g a := rfl

theorem peek_cons (h : (L.rest program).drop n = c :: s) : L.peek program n = .ok c := by
  refine peek_of_rest ?_
  rw [← Nat.add_zero n, ← List.getElem?_drop, h]
  rfl

theorem peek_nil (h : (L.rest program).drop n = []) : L.peek program n = .error .assertion := by
  have hget : program[L.cursor + n]? = none := by
    rw [← List.getElem?_drop, ← Nat.add_zero n, ← List.getElem?_drop]
    show ((L.rest program).drop n)[0]? = none
    rw [h]
    rfl
  unfold peek
  rw [hget]

theorem drop_next (h : (L.rest program).drop n = c :: s) : (L.rest program).drop (n + 1) = s := by
  rw [← List.drop_drop, h]
  rfl

theorem le_length (h : (L.rest program).drop n = c :: s) : n < (L.rest program).length := by
  by_contra hnot
  rw [List.drop_eq_nil_of_le (Nat.not_lt.1 hnot)] at h
  cases h

theorem digitsLoop_eq (f : Char → Bool) (s : List Char) (previous : Bool) (n : Nat) :
    digitsLoop f s previous n = if singleUnderscores previous (s.takeWhile (inRun f)) = true then
      if after f s = [] then .error .assertion else .ok (some (n + (s.takeWhile (inRun f)).length)) else .ok none := by
  induction s generalizing previous n with
  | nil => rfl
  | cons c s ih =>
    unfold digitsLoop
    by_cases hrun : inRun f c = true
    · have hin : (f c || decide (c = '_')) = true := hrun
      rw [if_pos hin, List.takeWhile_cons_of_pos hrun, after_cons_of_pos hrun]
      by_cases htwo : (c = '_' && previous) = true
      · rw [if_pos htwo, if_neg (by simp [singleUnderscores, htwo])]
      · rw [if_neg htwo, ih]
        have hiff : singleUnderscores previous (c :: s.takeWhile (inRun f)) =
            singleUnderscores (decide (c = '_')) (s.takeWhile (inRun f)) := by
          rw [singleUnderscores, Bool.eq_false_iff.2 htwo]
          rfl
        rw [hiff, List.length_cons, Nat.add_assoc, Nat.add_comm 1]
    · have hin : ¬ (f c || decide (c = '_')) = true := hrun
      rw [if_neg hin, List.takeWhile_cons_of_neg hrun, after_cons_of_neg (by simpa using hrun),
        if_pos (show singleUnderscores previous [] = true from rfl), if_neg (List.cons_ne_nil c s)]
      rfl

theorem digits_lifts {f : Char → Bool} (h : (L.rest program).drop n = s)
    (hprevious : 0 < n → ∃ c, (L.rest program)[n - 1]? = some c ∧ c ≠ '_') (hn : n ≤ (L.rest program).length) :
    Lifts program L (L.parseDigits program n f) (Text.digits f s) := by
  have hsplit : s.takeWhile (inRun f) ++ after f s = s := List.takeWhile_append_dropWhile
  unfold parseDigits Text.digits
  rw [← List.drop_drop, show (program.drop L.cursor).drop n = s from h, digitsLoop_eq]
  split
  next hsingle =>
    split
    next => exact rfl
    next hnext =>
      have hlength := congrArg List.length hsplit
      rw [List.length_append] at hlength
      have hrest := congrArg List.length h
      rw [List.length_drop] at hrest
      have hdrop : (L.rest program).drop (n + (s.takeWhile (inRun f)).length) = after f s := by
        rw [← List.drop_drop, h]
        nth_rewrite 2 [← hsplit]
        exact List.drop_left
      have hle : n + (s.takeWhile (inRun f)).length ≤ (L.rest program).length := by omega
      rw [ok_bind]
      dsimp only
      -- the character before the end of the digits
      by_cases hrun : s.takeWhile (inRun f) = []
      · rw [hrun] at hdrop hle ⊢
        rw [if_neg (show ¬ ([] : List Char).getLast? = some '_' from nofun)]
        split
        next hpos =>
          obtain ⟨c, hc, hne⟩ := hprevious hpos
          have hpeek : L.peek program (n + ([] : List Char).length - 1) = .ok c := peek_of_rest hc
          rw [hpeek, ok_bind]
          show Lifts program L (if c = '_' then _ else _) _
          rw [if_neg hne]
          exact ⟨hdrop, hle⟩
        next => exact ⟨hdrop, hle⟩
      · have hpos := List.length_pos_iff.2 hrun
        have hpeek : L.peek program (n + (s.takeWhile (inRun f)).length - 1) =
            .ok ((s.takeWhile (inRun f)).getLast hrun) := by
          refine peek_of_rest ?_
          rw [Nat.add_sub_assoc hpos, ← List.getElem?_drop, h, List.getLast_eq_getElem,
            (List.takeWhile_prefix (inRun f)).getElem]
          exact List.getElem?_eq_getElem _
        rw [if_pos (show 0 < n + _ by omega), hpeek, ok_bind, List.getLast?_eq_some_getLast hrun]
        split
        next hunder =>
          rw [if_pos (by rw [hunder])]
          exact rfl
        next hunder =>
          rw [if_neg (fun heq => hunder (Option.some.inj heq))]
          exact ⟨hdrop, hle⟩
  next => exact trivial

theorem Lifts.cases {x : Except Stop (Option Nat)} {y : Except Stop (Option (List Char))} (h : Lifts program L x y) :
    (∃ e, x = .error e ∧ y = .error e) ∨ (x = .ok none ∧ y = .ok none) ∨
      ∃ m u, x = .ok (some m) ∧ y = .ok (some u) ∧ (L.rest program).drop m = u ∧ m ≤ (L.rest program).length := by
  cases x with
  | error e =>
    cases y with
    | error e' => exact .inl ⟨e, rfl, congrArg _ (Eq.symm h)⟩
    | ok y => cases h
  | ok x =>
    cases y with
    | error e' => cases x <;> cases h
    | ok y =>
      cases x with
      | none =>
        cases y with
        | none => exact .inr (.inl ⟨rfl, rfl⟩)
        | some u => cases h
      | some m =>
        cases y with
        | none => cases h
        | some u => exact .inr (.inr ⟨m, u, rfl, rfl, h.1, h.2⟩)

/-- Digits behind a character that is no underscore. -/
theorem digits_lifts_next {f : Char → Bool} (h : (L.rest program).drop n = c :: s) (hc : c ≠ '_') :
    Lifts program L (L.parseDigits program (n + 1) f) (Text.digits f s) := by
  refine digits_lifts (drop_next h) (fun _ => ⟨c, ?_, hc⟩) (le_length h)
  rw [Nat.add_sub_cancel, ← Nat.add_zero n, ← List.getElem?_drop, h]
  rfl

theorem ne_underscore_of_digit (h : ¬ (!c.isDigit) = true) : c ≠ '_' := by
  intro heq
  obtain rfl := heq
  exact h (by decide)

theorem expNumber_lifts (h : (L.rest program).drop n = s) :
    Lifts program L (L.expNumber program n) (Text.expNumber s) := by
  unfold expNumber Text.expNumber
  cases s with
  | nil =>
    rw [peek_nil h]
    exact rfl
  | cons c s =>
    rw [peek_cons h, ok_bind, Text.peek, ok_bind]
    dsimp only
    by_cases he : c ≠ 'e' ∧ c ≠ 'E'
    · rw [if_pos he, if_pos he.1, ok_bind, if_pos he.2]
      exact trivial
    -- the sign and the digits, whichever letter precedes them
    have hrest : Lifts program L
        (do
          let c ← L.peek program (n + 1)
          let d ← L.peek program (if (c = '-' || c = '+') = true then n + 1 + 1 else n + 1)
          if (!d.isDigit) = true then pure none
          else L.parseDigits program ((if (c = '-' || c = '+') = true then n + 1 + 1 else n + 1) + 1) Char.isDigit)
        (do
          let (sign, s') ← Text.peek s
          let (d, s) ← Text.peek (if sign = '-' ∨ sign = '+' then s' else s)
          if (!d.isDigit) = true then pure none else Text.digits Char.isDigit s) := by
      have hs := drop_next h
      cases s with
      | nil =>
        rw [peek_nil hs]
        exact rfl
      | cons sign s' =>
        rw [peek_cons hs, ok_bind, Text.peek, ok_bind]
        dsimp only
        have hdigits : ∀ {m : Nat} {t : List Char}, (L.rest program).drop m = t → Lifts program L
            (do
              let d ← L.peek program m
              if (!d.isDigit) = true then pure none else L.parseDigits program (m + 1) Char.isDigit)
            (do
              let (d, s) ← Text.peek t
              if (!d.isDigit) = true then pure none else Text.digits Char.isDigit s) := by
          intro m t ht
          cases t with
          | nil =>
            rw [peek_nil ht]
            exact rfl
          | cons d t =>
            rw [peek_cons ht, ok_bind, Text.peek, ok_bind]
            dsimp only
            split
            · exact trivial
            next hd => exact digits_lifts_next ht (ne_underscore_of_digit hd)
        by_cases hsign : sign = '-' ∨ sign = '+'
        · rw [if_pos hsign, if_pos (by simpa using hsign)]
          exact hdigits (drop_next hs)
        · rw [if_neg hsign, if_neg (by simpa using hsign)]
          exact hdigits hs
    rw [if_neg he]
    by_cases hlow : c ≠ 'e'
    · rw [if_pos hlow, ok_bind, if_neg fun hup => he ⟨hlow, hup⟩]
      exact hrest
    · rw [if_neg hlow]
      exact hrest

theorem pointFraction_lifts (h : (L.rest program).drop n = s) :
    Lifts program L (L.pointFraction program n) (Text.pointFraction s) := by
  unfold pointFraction Text.pointFraction
  cases s with
  | nil =>
    rw [peek_nil h]
    exact rfl
  | cons c s =>
    rw [peek_cons h, ok_bind, Text.peek, ok_bind]
    dsimp only
    split
    · exact trivial
    have hs := drop_next h
    cases s with
    | nil =>
      rw [peek_nil hs]
      exact rfl
    | cons d s' =>
      rw [peek_cons hs, ok_bind, Text.peek, ok_bind]
      dsimp only
      split
      · exact ⟨hs, Nat.le_of_lt (le_length hs)⟩
      next hd => exact digits_lifts_next hs (ne_underscore_of_digit hd)

theorem pointFloatNumber_lifts (h : (L.rest program).drop n = s) :
    Lifts program L (L.pointFloatNumber program n) (Text.pointFloatNumber s) := by
  unfold pointFloatNumber Text.pointFloatNumber
  cases s with
  | nil =>
    rw [peek_nil h]
    exact rfl
  | cons c s =>
    rw [peek_cons h, ok_bind, Text.peek, ok_bind]
    dsimp only
    split
    next hd =>
      rcases (digits_lifts_next (f := Char.isDigit) h (ne_underscore_of_digit (by simp [hd]))).cases with
        ⟨e, hx, hy⟩ | ⟨hx, hy⟩ | ⟨m, u, hx, hy, hu, -⟩
      · rw [hx, hy]
        exact rfl
      · rw [hx, hy]
        exact trivial
      · rw [hx, hy]
        exact pointFraction_lifts hu
    next => exact pointFraction_lifts h

theorem Lifts.thenExponent {x : Except Stop (Option Nat)} {y : Except Stop (Option (List Char))}
    (h : Lifts program L x y) : Lifts program L
      (do
        let some n ← x | pure none
        L.expNumber program n)
      (do
        let some u ← y | pure none
        Text.expNumber u) := by
  rcases h.cases with ⟨e, rfl, rfl⟩ | ⟨rfl, rfl⟩ | ⟨m, u, rfl, rfl, hu, -⟩
  · exact rfl
  · exact trivial
  · exact expNumber_lifts hu

theorem expFloatNumber_lifts (h : (L.rest program).drop n = s) :
    Lifts program L (L.expFloatNumber program n) (Text.expFloatNumber s) := by
  unfold expFloatNumber Text.expFloatNumber
  cases s with
  | nil =>
    rw [peek_nil h]
    exact rfl
  | cons c s =>
    rw [peek_cons h, ok_bind, Text.peek, ok_bind]
    dsimp only
    split
    · exact trivial
    next hd =>
    have hs := drop_next h
    cases s with
    | nil =>
      rw [peek_nil hs]
      exact rfl
    | cons point s' =>
      rw [peek_cons hs, ok_bind, Text.peek, ok_bind]
      dsimp only
      by_cases hpoint : point = '.'
      · rw [if_pos hpoint, if_pos hpoint]
        exact (digits_lifts_next hs (by rw [hpoint]; decide)).thenExponent
      · rw [if_neg hpoint, if_neg hpoint]
        exact (digits_lifts_next h (ne_underscore_of_digit hd)).thenExponent

/-- A reader, and the next one if it finds nothing. -/
theorem Lifts.orElse {x x' : Except Stop (Option Nat)} {y y' : Except Stop (Option (List Char))}
    (h : Lifts program L x y) (h' : y = .ok none → Lifts program L x' y') : Lifts program L
      (do
        if let some stop ← x then pure (some stop) else x')
      (do
        if let some u ← y then pure (some u) else y') := by
  rcases h.cases with ⟨e, rfl, rfl⟩ | ⟨rfl, rfl⟩ | ⟨m, u, rfl, rfl, hu, hle⟩
  · exact rfl
  · exact h' rfl
  · exact ⟨hu, hle⟩

theorem floatNumber_lifts (h : (L.rest program).drop n = s) :
    Lifts program L (L.floatNumber program n) (Text.floatNumber s) := by
  unfold floatNumber Text.floatNumber
  exact (expFloatNumber_lifts h).orElse fun _ => pointFloatNumber_lifts h

/-- From the first digit of a prefixed number on. -/
theorem firstDigit_lifts {f : Char → Bool} (hf : f '_' = false) (hs' : (L.rest program).drop (0 + 1 + 1) = s) :
    Lifts program L
      (do
        let v ← L.peek program (0 + 1 + 1)
        if (!f v) = true then pure none
        else do
          let result ← L.parseDigits program (0 + 1 + 1 + 1) f
          match result with
          | some m => if m < 3 then pure none else pure (some m)
          | none => pure none)
      (do
        let (v, s) ← Text.peek s
        if (!f v) = true then pure none else Text.digits f s) := by
  cases s with
  | nil =>
    rw [peek_nil hs']
    exact rfl
  | cons v s =>
    rw [peek_cons hs', ok_bind, Text.peek, ok_bind]
    dsimp only
    split
    · exact trivial
    next hv =>
    have hunder : v ≠ '_' := by
      intro heq
      rw [heq, hf] at hv
      exact hv rfl
    have hlength := congrArg List.length (drop_next hs')
    rw [List.length_drop] at hlength
    rcases (digits_lifts_next (f := f) hs' hunder).cases with ⟨e, hx, hy⟩ | ⟨hx, hy⟩ | ⟨m, u, hx, hy, hu, hle⟩
    · rw [hx, hy]
      exact rfl
    · rw [hx, hy]
      exact trivial
    · rw [hx, hy, ok_bind]
      dsimp only
      have hthree : ¬ m < 3 := by
        -- what is left is no longer than what is left behind the first digit
        have hle' : u.length ≤ s.length := by
          rw [Text.digits_some hy]
          exact after_length_le
        have hu' := congrArg List.length hu
        rw [List.length_drop] at hu'
        have hlt := le_length hs'
        omega
      rw [if_neg hthree]
      exact ⟨hu, hle⟩

theorem prefixedNumber_lifts {lower upper : Char} {f : Char → Bool} (hf : f '_' = false)
    (h : (L.rest program).drop 0 = s) :
    Lifts program L (L.prefixedNumber program lower upper f 0) (Text.prefixedNumber lower upper f s) := by
  unfold prefixedNumber Text.prefixedNumber
  cases s with
  | nil =>
    rw [peek_nil h]
    exact rfl
  | cons c s =>
    rw [peek_cons h, ok_bind, Text.peek, ok_bind]
    dsimp only
    split
    · exact trivial
    have hs := drop_next h
    cases s with
    | nil =>
      rw [peek_nil hs]
      exact rfl
    | cons letter s =>
      rw [peek_cons hs, ok_bind, Text.peek, ok_bind, ok_bind]
      dsimp only
      have hrest := firstDigit_lifts hf (drop_next hs)
      by_cases hlow : letter = lower
      · rw [if_neg (not_not.2 hlow), if_neg fun hand => hand.1 hlow]
        exact hrest
      · rw [if_pos hlow]
        by_cases hup : letter = upper
        · rw [if_neg (not_not.2 hup), if_neg fun hand => hand.2 hup]
          exact hrest
        · rw [if_pos hup, if_pos ⟨hlow, hup⟩]
          exact trivial

theorem decNumber_lifts (h : (L.rest program).drop 0 = s) :
    Lifts program L (L.decNumber program 0) (Text.decNumber s) := by
  unfold decNumber Text.decNumber
  cases s with
  | nil =>
    rw [peek_nil h]
    exact rfl
  | cons c s =>
    rw [peek_cons h, ok_bind, Text.peek, ok_bind]
    dsimp only
    by_cases hc : c = '_'
    · rw [if_pos hc, if_pos hc]
      exact rfl
    rw [if_neg hc, if_neg hc]
    rcases (digits_lifts (f := (· = '0')) h (fun hpos => absurd hpos (Nat.lt_irrefl 0)) (Nat.zero_le _)).cases with
      ⟨e, hx, hy⟩ | ⟨hx, hy⟩ | ⟨m, u, hx, hy, hu, hle⟩
    · rw [hx, hy]
      exact rfl
    · rw [hx, hy]
      exact trivial
    · rw [hx, hy, ok_bind, ok_bind]
      dsimp only
      -- zeros have been read exactly if the first character is one
      have hu' : u = after (· = '0') (c :: s) := Text.digits_some hy
      have hlength := congrArg List.length hu
      have hwhole := congrArg List.length h
      rw [List.length_drop] at hlength hwhole
      by_cases hzero : c = '0'
      · have hpos : 0 < m := by
          rw [hu', after_cons_of_pos (by simp [inRun, hzero])] at hlength
          have hle' := after_length_le (f := (· = '0')) (s := s)
          rw [List.length_cons] at hwhole
          omega
        rw [if_pos hzero, if_pos hpos]
        exact ⟨hu, hle⟩
      · have hnone : m = 0 := by
          rw [hu', after_cons_of_neg (by simp [inRun, hzero, hc])] at hlength
          omega
        rw [if_neg hzero, hnone, if_neg (Nat.lt_irrefl 0), peek_cons h, ok_bind]
        split
        · exact trivial
        next hd =>
        rcases (digits_lifts_next (f := Char.isDigit) h hc).cases with ⟨e, hx, hy⟩ | ⟨hx, hy⟩ | ⟨m, u, hx, hy, hu, hle⟩
        · rw [hx, hy]
          exact rfl
        · rw [hx, hy]
          exact trivial
        · have hlong : 0 < m := by
            have hlength := congrArg List.length hu
            rw [List.length_drop, Text.digits_some hy] at hlength
            have hle' := after_length_le (f := Char.isDigit) (s := s)
            rw [List.length_cons] at hwhole
            omega
          rw [hx, hy, ok_bind]
          dsimp only
          rw [if_pos hlong]
          exact ⟨hu, hle⟩

theorem intNumber_lifts (h : (L.rest program).drop 0 = s) :
    Lifts program L (L.intNumber program 0) (Text.intNumber s) := by
  unfold intNumber Text.intNumber
  refine (prefixedNumber_lifts (by decide) h).orElse fun _ => ?_
  refine (prefixedNumber_lifts (by decide) h).orElse fun _ => ?_
  exact (prefixedNumber_lifts (by decide) h).orElse fun _ => decNumber_lifts h

theorem imagNumber_lifts (h : (L.rest program).drop 0 = s) :
    Lifts program L (L.imagNumber program 0) (Text.imagNumber s) := by
  -- what comes after the first reader, which never finds a number
  have hfloat : Lifts program L
      (do
        let some stop ← L.floatNumber program 0 | pure none
        let c ← L.peek program stop
        if (c = 'j' || c = 'J') = true then pure (some (stop + 1)) else pure none)
      (do
        let some u ← Text.floatNumber s | pure none
        let (c, s) ← Text.peek u
        if c = 'j' ∨ c = 'J' then pure (some s) else pure none) := by
    rcases (floatNumber_lifts h).cases with ⟨e, hx, hy⟩ | ⟨hx, hy⟩ | ⟨m, u, hx, hy, hu, -⟩
    · rw [hx, hy]
      exact rfl
    · rw [hx, hy]
      exact trivial
    · rw [hx, hy, ok_bind, ok_bind]
      dsimp only
      cases u with
      | nil =>
        rw [peek_nil hu]
        exact rfl
      | cons c u =>
        rw [peek_cons hu, ok_bind, Text.peek, ok_bind]
        dsimp only
        by_cases hj : c = 'j' ∨ c = 'J'
        · rw [if_pos hj, if_pos (by simpa using hj)]
          exact ⟨drop_next hu, le_length hu⟩
        · rw [if_neg hj, if_neg (by simpa using hj)]
          exact trivial
  unfold imagNumber Text.imagNumber imagInteger Text.imagInteger
  cases s with
  | nil =>
    rw [peek_nil h]
    exact rfl
  | cons c s =>
    rw [peek_cons h, ok_bind, Text.peek, ok_bind]
    dsimp only
    by_cases hd : (!c.isDigit) = true
    · rw [if_pos hd, if_pos hd]
      exact hfloat
    rw [if_neg hd, if_neg hd]
    rcases (digits_lifts_next (f := Char.isDigit) h (ne_underscore_of_digit hd)).cases with
      ⟨e, hx, hy⟩ | ⟨hx, hy⟩ | ⟨m, u, hx, hy, hu, -⟩
    · rw [hx, hy]
      exact rfl
    · rw [hx, hy]
      exact hfloat
    · have hne : u ≠ [] := by
        rw [Text.digits_some hy]
        exact Text.digits_next hy
      obtain ⟨l, u', rfl⟩ := List.exists_cons_of_ne_nil hne
      rw [hx, hy, ok_bind]
      dsimp only
      rw [peek_cons hu, ok_bind, if_pos]
      · exact hfloat
      -- the character is not both of them
      cases hj : decide (l = 'j') with
      | false => rfl
      | true =>
        rw [of_decide_eq_true hj]
        rfl

/-- **The reader of numbers**, as one of the text at the cursor. -/
theorem tryReadNumber_cases (hlt : L.cursor < program.length) :
    (∃ e, L.tryReadNumber program = .error e ∧ Text.number (L.rest program) = .error e) ∨
      (L.tryReadNumber program = .ok (false, L) ∧ Text.number (L.rest program) = .ok none) ∨
      ∃ n ≤ (L.rest program).length, L.tryReadNumber program = .ok (true, (L.incrementColumnPosition n).pushToken .number
        L.position (L.incrementColumnPosition n).position) ∧
          Text.number (L.rest program) = .ok (some ((L.rest program).drop n)) := by
  have h : (L.rest program).drop 0 = L.rest program := List.drop_zero
  unfold tryReadNumber Text.number
  rw [if_neg (by omega)]
  rcases (imagNumber_lifts h).cases with ⟨e, hx, hy⟩ | ⟨hx, hy⟩ | ⟨m, u, hx, hy, rfl, hm⟩
  · rw [hx, hy]
    exact .inl ⟨e, rfl, rfl⟩
  · rw [hx, hy, ok_bind, ok_bind]
    dsimp only
    rcases (floatNumber_lifts h).cases with ⟨e, hx, hy⟩ | ⟨hx, hy⟩ | ⟨m, u, hx, hy, rfl, hm⟩
    · rw [hx, hy]
      exact .inl ⟨e, rfl, rfl⟩
    · rw [hx, hy, ok_bind, ok_bind]
      dsimp only
      rcases (intNumber_lifts h).cases with ⟨e, hx, hy⟩ | ⟨hx, hy⟩ | ⟨m, u, hx, hy, rfl, hm⟩
      · rw [hx, hy]
        exact .inl ⟨e, rfl, rfl⟩
      · rw [hx, hy]
        exact .inr (.inl ⟨rfl, rfl⟩)
      · rw [hx, hy]
        exact .inr (.inr ⟨m, hm, rfl, rfl⟩)
    · rw [hx, hy]
      exact .inr (.inr ⟨m, hm, rfl, rfl⟩)
  · rw [hx, hy]
    exact .inr (.inr ⟨m, hm, rfl, rfl⟩)

end

end Lexer

end Pylang.Lex
