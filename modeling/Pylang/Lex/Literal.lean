/-
Python's numeric literals, and how far one can reach that starts a text. A
literal is a relation between the text it starts and what is left behind it.
-/
import Pylang.Lex.Digits

namespace Pylang.Lex

/-! ## The grammar -/

/-- `digit (["_"] digit)*`, for the digits of a base. -/
inductive DigitPart (f : Char → Bool) : List Char → List Char → Prop
  | one {d : Char} {s : List Char} : f d = true → DigitPart f (d :: s) s
  | digit {d : Char} {s u : List Char} : f d = true → DigitPart f s u → DigitPart f (d :: s) u
  | underscore {d : Char} {s u : List Char} : f d = true → DigitPart f s u → DigitPart f (d :: '_' :: s) u

/-- `("e" | "E") ["+" | "-"] digitpart` -/
inductive Exponent : List Char → List Char → Prop
  | plain {c : Char} {s u : List Char} : (c = 'e' ∨ c = 'E') → DigitPart Char.isDigit s u → Exponent (c :: s) u
  | signed {c sign : Char} {s u : List Char} : (c = 'e' ∨ c = 'E') → (sign = '-' ∨ sign = '+') →
      DigitPart Char.isDigit s u → Exponent (c :: sign :: s) u

/-- `[digitpart] "." digitpart | digitpart "."` -/
inductive PointFloat : List Char → List Char → Prop
  | fraction {s u : List Char} : DigitPart Char.isDigit s u → PointFloat ('.' :: s) u
  | both {t s u : List Char} : DigitPart Char.isDigit t ('.' :: s) → DigitPart Char.isDigit s u → PointFloat t u
  | whole {t u : List Char} : DigitPart Char.isDigit t ('.' :: u) → PointFloat t u

/-- `digitpart | pointfloat` -/
def Mantissa (t u : List Char) : Prop := DigitPart Char.isDigit t u ∨ PointFloat t u

/-- `pointfloat | (digitpart | pointfloat) exponent` -/
def FloatNumber (t u : List Char) : Prop := PointFloat t u ∨ ∃ s, Mantissa t s ∧ Exponent s u

/-- The letters of a base, and its digits. -/
def Base (letter : Char) (f : Char → Bool) : Prop :=
  (letter = 'x' ∨ letter = 'X') ∧ f = Lexer.isHexValue ∨ (letter = 'b' ∨ letter = 'B') ∧ f = Lexer.isBinValue ∨
    (letter = 'o' ∨ letter = 'O') ∧ f = Lexer.isOctValue

/-- `integer | floatnumber | imagnumber` -/
inductive Literal : List Char → List Char → Prop
  | decimal {d : Char} {s u : List Char} : d ≠ '0' → DigitPart Char.isDigit (d :: s) u → Literal (d :: s) u
  | zeros {t u : List Char} : DigitPart (· = '0') t u → Literal t u
  | radix {letter : Char} {f : Char → Bool} {s u : List Char} : Base letter f → DigitPart f s u →
      Literal ('0' :: letter :: s) u
  | radixUnderscore {letter : Char} {f : Char → Bool} {s u : List Char} : Base letter f → DigitPart f s u →
      Literal ('0' :: letter :: '_' :: s) u
  | float {t u : List Char} : FloatNumber t u → Literal t u
  | imaginary {t u : List Char} {j : Char} : (j = 'j' ∨ j = 'J') → DigitPart Char.isDigit t (j :: u) ∨
      FloatNumber t (j :: u) → Literal t u

/-! ## Digits -/

/-- What is left behind the digits and underscores. -/
def after (f : Char → Bool) (s : List Char) : List Char := s.dropWhile (inRun f)

section
variable {f : Char → Bool} {t s u : List Char} {c d : Char}

theorem after_cons_of_pos (h : inRun f c = true) : after f (c :: s) = after f s := List.dropWhile_cons_of_pos h

theorem after_cons_of_neg (h : inRun f c = false) : after f (c :: s) = c :: s :=
  List.dropWhile_cons_of_neg (by rw [h]; exact Bool.false_ne_true)

theorem inRun_of_digit (h : f d = true) : inRun f d = true := by simp [inRun, h]

theorem inRun_underscore : inRun f '_' = true := by simp [inRun]

theorem after_length_le : (after f s).length ≤ s.length := (List.dropWhile_sublist _).length_le

/-- A run of digits ends where the text's does. -/
theorem DigitPart.after_eq (h : DigitPart f t u) : after f u = after f t := by
  induction h with
  | one hd => exact (after_cons_of_pos (inRun_of_digit hd)).symm
  | digit hd _ ih => exact ih.trans (after_cons_of_pos (inRun_of_digit hd)).symm
  | underscore hd _ ih =>
    rw [after_cons_of_pos (inRun_of_digit hd), after_cons_of_pos inRun_underscore]
    exact ih

theorem DigitPart.length_le (h : DigitPart f t u) : (after f t).length ≤ u.length := by
  rw [← h.after_eq]
  exact after_length_le

theorem DigitPart.eq_after (h : DigitPart f t (c :: u)) (hc : inRun f c = false) : c :: u = after f t := by
  rw [← h.after_eq, after_cons_of_neg hc]

theorem DigitPart.head (h : DigitPart f t u) : ∃ d s, t = d :: s ∧ f d = true := by
  cases h with
  | one hd | digit hd _ | underscore hd _ => exact ⟨_, _, rfl, hd⟩

theorem DigitPart.mono {g : Char → Bool} (h : DigitPart f t u) (hfg : ∀ d, f d = true → g d = true) : DigitPart g t u := by
  induction h with
  | one hd => exact .one (hfg _ hd)
  | digit hd _ ih => exact .digit (hfg _ hd) ih
  | underscore hd _ ih => exact .underscore (hfg _ hd) ih

/-- Digits with single underscores between them, and a character behind them. -/
structure Reads (f : Char → Bool) (s : List Char) : Prop where
  single : singleUnderscores false (s.takeWhile (inRun f)) = true
  last : (s.takeWhile (inRun f)).getLast? ≠ some '_'
  next : after f s ≠ []

/-- Two underscores in a row. -/
def Doubled (f : Char → Bool) (s : List Char) : Prop := singleUnderscores false (s.takeWhile (inRun f)) = false

theorem Reads.not_doubled (h : Reads f s) : ¬ Doubled f s := by
  intro h'
  have htrue := h.single
  rw [h'] at htrue
  cases htrue

theorem reads_of_not_inRun (hc : inRun f c = false) : Reads f (c :: s) := by
  have hrun : (c :: s).takeWhile (inRun f) = [] := List.takeWhile_cons_of_neg (by simp [hc])
  refine ⟨by rw [hrun]; rfl, by rw [hrun]; simp, ?_⟩
  rw [after_cons_of_neg hc]
  exact List.cons_ne_nil c s

theorem Reads.exists_cons (h : Reads f s) : ∃ c r, after f s = c :: r := by
  cases ha : after f s with
  | nil => exact absurd ha h.next
  | cons c r => exact ⟨c, r, rfl⟩

/-- Digits, behind a digit. -/
theorem reads_cons (hf : f '_' = false) (hd : f d = true) : Reads f (d :: s) ↔ Reads f s := by
  have hne : d ≠ '_' := by
    intro h
    rw [h, hf] at hd
    cases hd
  have hrun : (d :: s).takeWhile (inRun f) = d :: s.takeWhile (inRun f) := List.takeWhile_cons_of_pos (inRun_of_digit hd)
  have hafter : after f (d :: s) = after f s := after_cons_of_pos (inRun_of_digit hd)
  have hsingle : singleUnderscores false (d :: s.takeWhile (inRun f)) = singleUnderscores false (s.takeWhile (inRun f)) := by
    simp [singleUnderscores, hne]
  have hlast : (d :: s.takeWhile (inRun f)).getLast? = some '_' ↔ (s.takeWhile (inRun f)).getLast? = some '_' := by
    cases s.takeWhile (inRun f) with
    | nil => simp [hne]
    | cons c w => rw [List.getLast?_cons_cons]
  constructor
  · intro h
    exact ⟨by rw [← hsingle, ← hrun]; exact h.single, fun hbad => h.last (by rw [hrun]; exact hlast.2 hbad),
      by rw [← hafter]; exact h.next⟩
  · intro h
    exact ⟨by rw [hrun, hsingle]; exact h.single, fun hbad => h.last (hlast.1 (by rw [← hrun]; exact hbad)),
      by rw [hafter]; exact h.next⟩

theorem doubled_cons (hf : f '_' = false) (hd : f d = true) : Doubled f (d :: s) ↔ Doubled f s := by
  have hne : d ≠ '_' := by
    intro h
    rw [h, hf] at hd
    cases hd
  unfold Doubled
  rw [List.takeWhile_cons_of_pos (inRun_of_digit hd)]
  simp [singleUnderscores, hne]

theorem Doubled.head (h : Doubled f s) : ∃ c s', s = c :: s' ∧ inRun f c = true := by
  cases s with
  | nil => cases h
  | cons c s =>
    refine ⟨c, s, rfl, ?_⟩
    by_contra hrun
    unfold Doubled at h
    rw [List.takeWhile_cons_of_neg hrun] at h
    cases h

/-- What is read is digits. -/
theorem Reads.digitPart (hd : f d = true) (h : Reads f s) : DigitPart f (d :: s) (after f s) := by
  obtain ⟨hsingle, hlast, -⟩ := h
  induction hn : s.length using Nat.strongRecOn generalizing s d with
  | ind n ih =>
    cases s with
    | nil => exact .one hd
    | cons c s =>
      by_cases hrun : inRun f c = true
      · rw [List.takeWhile_cons_of_pos hrun] at hsingle hlast
        rw [after_cons_of_pos hrun]
        by_cases hc : c = '_'
        · subst hc
          cases s with
          | nil => exact absurd rfl hlast
          | cons e s =>
            by_cases hrun' : inRun f e = true
            · rw [List.takeWhile_cons_of_pos hrun'] at hsingle hlast
              have he : e ≠ '_' := by
                intro heq
                simp [singleUnderscores, heq] at hsingle
              have hfe : f e = true := by simpa [inRun, he] using hrun'
              rw [after_cons_of_pos hrun']
              refine .underscore hd (ih s.length (by rw [← hn]; exact Nat.lt_succ_of_lt (Nat.lt_succ_self _)) hfe ?_ ?_ rfl)
              · simpa [singleUnderscores, he] using hsingle
              · intro hbad
                refine hlast ?_
                cases hw : s.takeWhile (inRun f) with
                | nil =>
                  rw [hw] at hbad
                  cases hbad
                | cons x w =>
                  rw [hw] at hbad
                  rw [List.getLast?_cons_cons, List.getLast?_cons_cons]
                  exact hbad
            · rw [List.takeWhile_cons_of_neg hrun'] at hlast
              exact absurd rfl hlast
        · have hfc : f c = true := by simpa [inRun, hc] using hrun
          refine .digit hd (ih s.length (by rw [← hn]; exact Nat.lt_succ_self _) hfc ?_ ?_ rfl)
          · simpa [singleUnderscores, hc] using hsingle
          · intro hbad
            refine hlast ?_
            cases hw : s.takeWhile (inRun f) with
            | nil =>
              rw [hw] at hbad
              cases hbad
            | cons x w =>
              rw [hw] at hbad
              rw [List.getLast?_cons_cons]
              exact hbad
      · rw [after_cons_of_neg (by simpa using hrun)]
        exact .one hd

/-- Digits that are followed by something else have no two underscores in a row. -/
theorem DigitPart.not_doubled (hf : f '_' = false) (h : DigitPart f t (c :: u)) (hc : inRun f c = false) : ¬ Doubled f t := by
  have hne : ∀ {d : Char}, f d = true → d ≠ '_' := by
    intro d hd heq
    rw [heq, hf] at hd
    cases hd
  unfold Doubled
  rw [Bool.not_eq_false]
  generalize hv : c :: u = v at h
  induction h with
  | @one d s hd =>
    subst hv
    rw [List.takeWhile_cons_of_pos (inRun_of_digit hd), List.takeWhile_cons_of_neg (by simp [hc])]
    simp [singleUnderscores]
  | @digit d s u' hd _ ih =>
    rw [List.takeWhile_cons_of_pos (inRun_of_digit hd)]
    simpa [singleUnderscores, hne hd] using ih hv
  | @underscore d s u' hd hs ih =>
    obtain ⟨e, s', rfl, he⟩ := hs.head
    have ih := ih hv
    rw [List.takeWhile_cons_of_pos (inRun_of_digit he)] at ih
    rw [List.takeWhile_cons_of_pos (inRun_of_digit hd), List.takeWhile_cons_of_pos inRun_underscore,
      List.takeWhile_cons_of_pos (inRun_of_digit he)]
    simpa [singleUnderscores, hne hd, hne he] using ih

/-! ## Where a literal may end -/

/-- The end of a fraction, from behind the point. -/
def fractionEnd : List Char → List Char
  | d :: s => if d.isDigit then after Char.isDigit s else d :: s
  | [] => []

/-- The end of a mantissa, from behind its first digits. -/
def mantissaEnd : List Char → List Char
  | '.' :: s => fractionEnd s
  | s => s

/-- The text starts with an exponent, whose first digit is followed by another text. -/
inductive StartsExponent : List Char → List Char → Prop
  | plain {c d : Char} {s : List Char} : (c = 'e' ∨ c = 'E') → d.isDigit = true → StartsExponent (c :: d :: s) s
  | signed {c sign d : Char} {s : List Char} : (c = 'e' ∨ c = 'E') → (sign = '-' ∨ sign = '+') → d.isDigit = true →
      StartsExponent (c :: sign :: d :: s) s

theorem fractionEnd_length_le : (fractionEnd s).length ≤ s.length := by
  unfold fractionEnd
  split
  · split
    · exact Nat.le_trans after_length_le (Nat.le_succ _)
    · exact Nat.le_refl _
  · exact Nat.le_refl _

theorem mantissaEnd_length_le : (mantissaEnd s).length ≤ s.length := by
  unfold mantissaEnd
  split
  · exact Nat.le_trans fractionEnd_length_le (Nat.le_succ _)
  · exact Nat.le_refl _

theorem fractionEnd_of_digitPart (h : DigitPart Char.isDigit s u) : fractionEnd s = after Char.isDigit s := by
  obtain ⟨d, s, rfl, hd⟩ := h.head
  rw [after_cons_of_pos (inRun_of_digit hd)]
  exact if_pos hd

/-- The letters behind a mantissa are none of its characters. -/
def Mark (c : Char) : Prop := c = 'e' ∨ c = 'E' ∨ c = 'j' ∨ c = 'J'

theorem Mark.not_inRun (h : Mark c) : inRun Char.isDigit c = false := by
  rcases h with rfl | rfl | rfl | rfl <;> decide

theorem Mark.mantissaEnd_eq (h : Mark c) : mantissaEnd (c :: s) = c :: s := by
  unfold mantissaEnd
  split
  next heq =>
    obtain rfl := (List.cons.inj heq).1
    exact absurd h (by simp [Mark])
  next => rfl

theorem PointFloat.length_le (h : PointFloat t u) : (mantissaEnd (after Char.isDigit t)).length ≤ u.length := by
  have hpoint : inRun Char.isDigit '.' = false := by decide
  cases h with
  | fraction h =>
    rw [after_cons_of_neg hpoint]
    show (fractionEnd _).length ≤ _
    rw [fractionEnd_of_digitPart h]
    exact h.length_le
  | both ht h =>
    rw [← ht.eq_after hpoint]
    show (fractionEnd _).length ≤ _
    rw [fractionEnd_of_digitPart h]
    exact h.length_le
  | whole ht =>
    rw [← ht.eq_after hpoint]
    exact fractionEnd_length_le

/-- A mantissa that is followed by an exponent or a `j` goes as far as it can. -/
theorem PointFloat.eq_end (h : PointFloat t (c :: u)) (hc : Mark c) : c :: u = mantissaEnd (after Char.isDigit t) := by
  have hpoint : inRun Char.isDigit '.' = false := by decide
  cases h with
  | fraction h =>
    rw [after_cons_of_neg hpoint]
    show _ = fractionEnd _
    rw [fractionEnd_of_digitPart h]
    exact h.eq_after hc.not_inRun
  | both ht h =>
    rw [← ht.eq_after hpoint]
    show _ = fractionEnd _
    rw [fractionEnd_of_digitPart h]
    exact h.eq_after hc.not_inRun
  | whole ht =>
    rw [← ht.eq_after hpoint]
    show _ = (if c.isDigit = true then _ else _)
    rw [if_neg (by rcases hc with rfl | rfl | rfl | rfl <;> decide)]

theorem Mantissa.eq_end (h : Mantissa t (c :: u)) (hc : Mark c) : c :: u = mantissaEnd (after Char.isDigit t) := by
  rcases h with h | h
  · rw [← h.eq_after hc.not_inRun, hc.mantissaEnd_eq]
  · exact h.eq_end hc

theorem Exponent.mark {b : List Char} (h : Exponent b u) : ∃ c s, b = c :: s ∧ Mark c := by
  cases h with
  | plain hc _ | signed hc _ _ => exact ⟨_, _, rfl, hc.imp_right Or.inl⟩

theorem Exponent.starts {b : List Char} (h : Exponent b u) :
    ∃ x, StartsExponent b x ∧ after Char.isDigit u = after Char.isDigit x := by
  cases h with
  | plain hc h =>
    obtain ⟨d, x, rfl, hd⟩ := h.head
    exact ⟨x, .plain hc hd, by rw [h.after_eq, after_cons_of_pos (inRun_of_digit hd)]⟩
  | signed hc hsign h =>
    obtain ⟨d, x, rfl, hd⟩ := h.head
    exact ⟨x, .signed hc hsign hd, by rw [h.after_eq, after_cons_of_pos (inRun_of_digit hd)]⟩

theorem StartsExponent.exponent {b x : List Char} (h : StartsExponent b x) (hx : Reads Char.isDigit x) :
    Exponent b (after Char.isDigit x) := by
  cases h with
  | plain hc hd => exact .plain hc (hx.digitPart hd)
  | signed hc hsign hd => exact .signed hc hsign (hx.digitPart hd)

theorem StartsExponent.first {b x : List Char} (h : StartsExponent b x) : Exponent b x := by
  cases h with
  | plain hc hd => exact .plain hc (.one hd)
  | signed hc hsign hd => exact .signed hc hsign (.one hd)

theorem StartsExponent.unique {b x y : List Char} (h : StartsExponent b x) (h' : StartsExponent b y) : x = y := by
  cases h with
  | plain hc hd =>
    cases h' with
    | plain _ _ => rfl
    | signed _ hsign _ => rcases hsign with rfl | rfl <;> exact absurd hd (by decide)
  | signed hc hsign hd =>
    cases h' with
    | plain _ hd' => rcases hsign with rfl | rfl <;> exact absurd hd' (by decide)
    | signed _ _ _ => rfl

theorem StartsExponent.length_lt {b x : List Char} (h : StartsExponent b x) : x.length < b.length := by
  cases h with
  | plain _ _ | signed _ _ _ =>
    simp only [List.length_cons]
    omega

/-- How a literal that has a mantissa ends: with it, or behind an exponent, or behind a `j`. -/
theorem float_ends (h : FloatNumber t u ∨ DigitPart Char.isDigit t u) :
    (mantissaEnd (after Char.isDigit t)).length ≤ u.length ∨
      ∃ x, StartsExponent (mantissaEnd (after Char.isDigit t)) x ∧ after Char.isDigit u = after Char.isDigit x := by
  rcases h with (h | ⟨s, hs, he⟩) | h
  · exact .inl h.length_le
  · obtain ⟨c, s', rfl, hc⟩ := he.mark
    rw [← hs.eq_end hc]
    exact .inr he.starts
  · exact .inl (Nat.le_trans mantissaEnd_length_le h.length_le)

/-- What is left behind the longest text with a mantissa: the `j` is taken where there is one. -/
def skipImaginary : List Char → List Char
  | c :: s => if c = 'j' || c = 'J' then s else c :: s
  | [] => []

theorem skipImaginary_length_le : (skipImaginary s).length ≤ s.length := by
  unfold skipImaginary
  split
  · split
    · exact Nat.le_succ _
    · exact Nat.le_refl _
  · exact Nat.le_refl _

/-- **The bound.** No literal with a mantissa goes beyond the exponent, if there is one, and a `j` behind it. -/
theorem float_bound {e : List Char} (h : FloatNumber t u ∨ DigitPart Char.isDigit t u ∨
      ∃ j, (j = 'j' ∨ j = 'J') ∧ (DigitPart Char.isDigit t (j :: u) ∨ FloatNumber t (j :: u)))
    (he : (∃ x, StartsExponent (mantissaEnd (after Char.isDigit t)) x ∧ e = after Char.isDigit x) ∨
      (∀ x, ¬ StartsExponent (mantissaEnd (after Char.isDigit t)) x) ∧ e = mantissaEnd (after Char.isDigit t)) :
    (skipImaginary e).length ≤ u.length := by
  have hle : e.length ≤ (mantissaEnd (after Char.isDigit t)).length := by
    rcases he with ⟨x, hx, rfl⟩ | ⟨-, rfl⟩
    · exact Nat.le_of_lt (Nat.lt_of_le_of_lt after_length_le hx.length_lt)
    · exact Nat.le_refl _
  have hends : ∀ {v}, FloatNumber t v ∨ DigitPart Char.isDigit t v → e.length ≤ v.length := by
    intro v hv
    rcases float_ends hv with hlen | ⟨x, hx, hafter⟩
    · omega
    · rcases he with ⟨y, hy, rfl⟩ | ⟨hno, -⟩
      · rw [hy.unique hx, ← hafter]
        exact after_length_le
      · exact absurd hx (hno x)
  have hskip : (skipImaginary e).length ≤ e.length := skipImaginary_length_le
  rcases h with h | h | ⟨j, hj, h⟩
  · exact Nat.le_trans hskip (hends (.inl h))
  · exact Nat.le_trans hskip (hends (.inr h))
  · have hmark : Mark j := .inr (.inr hj)
    have hskipj : skipImaginary (j :: u) = u := if_pos (by simpa using hj)
    -- the text in front of the j ends where the mantissa or the exponent does
    have heq : j :: u = e := by
      have hmantissa : Mantissa t (j :: u) → j :: u = e := by
        intro hm
        have hend := hm.eq_end hmark
        rcases he with ⟨x, hx, -⟩ | ⟨-, rfl⟩
        · rw [← hend] at hx
          have hbad : ¬ (j = 'e' ∨ j = 'E') := by rcases hj with rfl | rfl <;> decide
          cases hx with
          | plain hc _ => exact absurd hc hbad
          | signed hc _ _ => exact absurd hc hbad
        · exact hend
      rcases h with h | h | ⟨s, hs, hexp⟩
      · exact hmantissa (.inl h)
      · exact hmantissa (.inr h)
      · obtain ⟨c, s', rfl, hc⟩ := hexp.mark
        obtain ⟨x, hx, hafter⟩ := hexp.starts
        rw [hs.eq_end hc] at hx
        rw [after_cons_of_neg hmark.not_inRun] at hafter
        rcases he with ⟨y, hy, rfl⟩ | ⟨hno, -⟩
        · rw [hy.unique hx]
          exact hafter
        · exact absurd hx (hno x)
    exact Nat.le_of_eq (congrArg List.length (by rw [← heq]; exact hskipj))

end

end Pylang.Lex
