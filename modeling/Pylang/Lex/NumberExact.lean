/-
The reader of numbers takes the longest literal on no text but those
(`fine_of_right`), and so for the lexer in every state (`takesLongest_iff`).
-/
import Pylang.Lex.NumberFine

namespace Pylang.Lex

section
variable {f : Char → Bool} {s t u r e : List Char} {c d : Char}

open Text

/-! ## On no other text -/

theorem Right.not_shorter {v : List Char} (h : Right t (.ok (some u))) (hv : Literal t v) (hlt : v.length < u.length) :
    False := by
  have hle := h.2 v hv
  omega

theorem skipImaginary_mark {b x : List Char} (h : StartsExponent b x) : skipImaginary b = b := by
  have hne : ∀ {c : Char} {b' : List Char}, (c = 'e' ∨ c = 'E') → skipImaginary (c :: b') = c :: b' := by
    intro c b' hc
    refine if_neg ?_
    rcases hc with rfl | rfl <;> decide
  cases h with
  | plain hc _ | signed hc _ _ => exact hne hc

/-- A mantissa is not the longest literal where an exponent starts behind it. -/
theorem not_right_mantissa {b x : List Char} (himag : imagInteger t = .ok ()) (hfloat : floatNumber t = .ok (some b))
    (hm : Mantissa t b) (hx : StartsExponent b x) : ¬ Right t (number t) := by
  intro h
  obtain ⟨c, b', rfl, -⟩ := hx.mark
  rw [number_of_float himag hfloat, skipImaginary_mark hx] at h
  exact h.not_shorter (.float (.inr ⟨_, hm, hx.first⟩)) hx.length_lt

theorem not_right_error {e : Stop} {x : Except Stop (Option (List Char))} (hx : x = .error e) : ¬ Right t x := by
  rw [hx]
  exact id

theorem not_right_none (hl : Literal t u) {x : Except Stop (Option (List Char))} (hx : x = .ok none) : ¬ Right t x := by
  rw [hx]
  exact fun h => h u hl

/-- No integer goes beyond the first digits. -/
theorem not_right_int {v : List Char} (hd : d.isDigit = true) (hnot : ∀ letter f, Base letter f → s.head? ≠ some letter)
    (hv : Literal (d :: s) v) (hlt : v.length < (after Char.isDigit s).length) :
    ¬ Right (d :: s) (intNumber (d :: s)) := by
  intro h
  have hsome : ∀ {u}, intNumber (d :: s) = .ok (some u) → (after Char.isDigit s).length ≤ u.length := by
    intro u hu
    by_cases hzero : d = '0'
    · subst hzero
      cases s with
      | nil => cases hu
      | cons letter s =>
        rw [int_no_base fun f hb => hnot letter f hb rfl, dec_zero] at hu
        rw [digits_some hu, ← after_digit hd]
        exact after_mono isDigit_of_zero _
    · rw [int_not_zero hzero, dec_digit hd hzero] at hu
      exact Nat.le_of_eq (congrArg List.length (digits_some hu).symm)
  cases hint : intNumber (d :: s) with
  | error e => exact not_right_error hint h
  | ok r =>
    cases r with
    | none => exact not_right_none hv hint h
    | some u =>
      have hle := hsome hint
      rw [hint] at h
      exact h.not_shorter hv (by omega)

theorem not_base_of_after (ha : after Char.isDigit s = c :: r) (hc : c = '.' ∨ Mark c) :
    ∀ letter f, Base letter f → s.head? ≠ some letter := by
  intro letter f hb hhead
  cases s with
  | nil => cases hhead
  | cons l s =>
    obtain rfl := Option.some.inj hhead
    rw [after_cons_of_neg hb.letter.1] at ha
    obtain rfl := (List.cons.inj ha).1
    exact hc.elim hb.letter.2.1 hb.letter.2.2.1

theorem fine_point (hd : d.isDigit = true) (h : Right (d :: '.' :: r) (number (d :: '.' :: r))) : PointFine r := by
  have hpoint : inRun Char.isDigit '.' = false := by decide
  have hreads : Reads Char.isDigit ('.' :: r) := reads_of_not_inRun hpoint
  have himag := imagInteger_digit hd (digits_of_reads hreads)
  have hpf : pointFloatNumber (d :: '.' :: r) = pointFraction ('.' :: r) := by
    rw [pointFloat_reads hd hreads, after_cons_of_neg hpoint]
  have hwhole : DigitPart Char.isDigit (d :: '.' :: r) ('.' :: r) := .one hd
  have herror : ∀ {e}, expFloatNumber (d :: '.' :: r) = .error e → PointFine r := fun he =>
    absurd h (not_right_error (number_of_error himag (float_of_error he)))
  have hexp : ∀ {u}, digits Char.isDigit r = .ok (some u) → expFloatNumber (d :: '.' :: r) = expNumber u := fun hu =>
    expFloat_some hd (by rw [if_pos rfl]; exact hu)
  rcases digits_cases Char.isDigit r with ⟨hr, hdigits⟩ | ⟨hdb, hdigits⟩ | ⟨e, he⟩
  · cases r with
    | nil => exact absurd rfl hr.next
    | cons e r =>
      by_cases he : e.isDigit = true
      · have hr' := (reads_cons (by decide) he).1 hr
        have hfrac : DigitPart Char.isDigit (e :: r) (after Char.isDigit r) := hr'.digitPart he
        rw [after_digit he] at hdigits
        rcases expNumber_cases (after Char.isDigit r) with hno | ⟨x, hx⟩ | ⟨err, herr⟩
        · exact .digits he hr' (.inl hno)
        · rcases digits_cases Char.isDigit x with ⟨hrx, -⟩ | ⟨-, hdx⟩ | ⟨err, herr⟩
          · exact .digits he hr' (.inr ⟨x, hx, hrx⟩)
          · refine absurd h (not_right_mantissa himag ?_ (.inr (.both hwhole hfrac)) hx)
            rw [float_of_none ((hexp hdigits).trans ((expNumber_of_starts hx).trans hdx)), hpf, pointFraction_digit he,
              digits_of_reads hr']
          · exact herror ((hexp hdigits).trans ((expNumber_of_starts hx).trans herr))
        · exact herror ((hexp hdigits).trans herr)
      · have hed : e.isDigit = false := by simpa using he
        by_cases hunder : e = '_'
        · subst hunder
          rw [after_cons_of_pos inRun_underscore] at hdigits
          rcases expNumber_cases (after Char.isDigit r) with hno | ⟨x, hx⟩ | ⟨err, herr⟩
          · exact .underscore hr (.inl hno)
          · rcases digits_cases Char.isDigit x with ⟨hrx, hdx⟩ | ⟨hdb, -⟩ | ⟨err, herr⟩
            · -- the code takes the underscore and goes beyond every literal
              obtain ⟨c, x', hx'⟩ := hrx.exists_cons
              rw [hx'] at hdx
              rw [number_of_float himag (float_of_exp ((hexp hdigits).trans ((expNumber_of_starts hx).trans hdx)))] at h
              have hend : mantissaEnd (after Char.isDigit (d :: '.' :: '_' :: r)) = '_' :: r := by
                rw [after_digit hd, after_cons_of_neg hpoint, mantissaEnd_none (by decide)]
              have hbound : Right (d :: '.' :: '_' :: r) (.ok (some (skipImaginary ('_' :: r)))) :=
                right_float (.inl (.whole hwhole)) (.inr ⟨by rw [hend]; exact not_starts_of_not_e (by decide), hend.symm⟩)
              have hle : ('_' :: r).length ≤ (skipImaginary (c :: x')).length := hbound.2 _ h.1
              have h1 := skipImaginary_length_le (s := c :: x')
              have h2 : (c :: x').length ≤ x.length := hx' ▸ after_length_le
              have h3 := hx.length_lt
              have h4 := after_length_le (f := Char.isDigit) (s := r)
              rw [List.length_cons] at hle
              omega
            · exact .underscore hr (.inr ⟨x, hx, hdb⟩)
            · exact herror ((hexp hdigits).trans ((expNumber_of_starts hx).trans herr))
          · exact herror ((hexp hdigits).trans herr)
        · have hrun : inRun Char.isDigit e = false := by simp [inRun, hed, hunder]
          rw [after_cons_of_neg hrun] at hdigits
          rcases expNumber_cases (e :: r) with hno | ⟨x, hx⟩ | ⟨err, herr⟩
          · exact .none hrun (.inl hno)
          · rcases digits_cases Char.isDigit x with ⟨hrx, -⟩ | ⟨-, hdx⟩ | ⟨err, herr⟩
            · exact .none hrun (.inr ⟨x, hx, hrx⟩)
            · refine absurd h (not_right_mantissa himag ?_ (.inr (.whole hwhole)) hx)
              rw [float_of_none ((hexp hdigits).trans ((expNumber_of_starts hx).trans hdx)), hpf, pointFraction_none hed]
            · exact herror ((hexp hdigits).trans ((expNumber_of_starts hx).trans herr))
          · exact herror ((hexp hdigits).trans herr)
  · obtain ⟨e, r, rfl, hrun⟩ := hdb.head
    by_cases hunder : e = '_'
    · subst hunder
      exact .doubled hdb
    · have he : e.isDigit = true := by simpa [inRun, hunder] using hrun
      have hfloat : floatNumber (d :: '.' :: e :: r) = .ok none := by
        rw [float_of_none (expFloat_none hd (by rw [if_pos rfl]; exact hdigits)), hpf, pointFraction_digit he,
          digits_of_doubled ((doubled_cons (by decide) he).1 hdb)]
      rw [number_of_none himag hfloat] at h
      have hafter : after Char.isDigit ('.' :: e :: r) = '.' :: e :: r := after_cons_of_neg hpoint
      refine absurd h (not_right_int (v := e :: r) hd (not_base_of_after hafter (.inl rfl)) (.float (.inl (.whole hwhole))) ?_)
      rw [hafter]
      exact Nat.lt_succ_self _
  · exact herror (expFloat_error hd (by rw [if_pos rfl]; exact he))

theorem fine_longPoint (hd : d.isDigit = true) (hr : Reads Char.isDigit s) (hhead : s.head? ≠ some '.')
    (ha : after Char.isDigit s = '.' :: r) (h : Right (d :: s) (number (d :: s))) : LongPointFine r := by
  have himag := imagInteger_digit hd (digits_of_reads hr)
  have hfloat : floatNumber (d :: s) = pointFraction ('.' :: r) := by
    rw [float_of_none ((expFloat_reads hd hr hhead).trans (ha ▸ expNumber_of_none (.other (by decide)))),
      pointFloat_reads hd hr, ha]
  have hwhole : DigitPart Char.isDigit (d :: s) ('.' :: r) := ha ▸ hr.digitPart hd
  cases r with
  | nil => exact absurd h (not_right_error (number_of_error himag hfloat))
  | cons e r =>
    by_cases he : e.isDigit = true
    · rw [pointFraction_digit he] at hfloat
      rcases digits_cases Char.isDigit r with ⟨hre, hdigits⟩ | ⟨-, hdigits⟩ | ⟨err, herr⟩
      · exact .digits he hre fun x hx =>
          not_right_mantissa himag (hfloat.trans hdigits) (.inr (.both hwhole (hre.digitPart he))) hx h
      · rw [number_of_none himag (hfloat.trans hdigits)] at h
        refine absurd h (not_right_int (v := e :: r) hd (not_base_of_after ha (.inl rfl)) (.float (.inl (.whole hwhole))) ?_)
        rw [ha]
        exact Nat.lt_succ_self _
      · exact absurd h (not_right_error (number_of_error himag (hfloat.trans herr)))
    · have hed : e.isDigit = false := by simpa using he
      rw [pointFraction_none hed] at hfloat
      exact .none hed fun x hx => not_right_mantissa himag hfloat (.inr (.whole hwhole)) hx h

theorem fine_int (hd : d.isDigit = true) (hr : Reads Char.isDigit s) (h : Right (d :: s) (intNumber (d :: s))) :
    IntegerFine d s := by
  by_cases hzero : d = '0'
  · subst hzero
    by_cases hbase : ∃ letter f s', Base letter f ∧ s = letter :: s'
    · obtain ⟨letter, f, s, hb, rfl⟩ := hbase
      cases s with
      | nil =>
        obtain ⟨e, he⟩ := int_radix_short hb
        exact absurd h (not_right_error he)
      | cons v s =>
        have hrun : inRun (· = '0') letter = false := by
          rcases hb with ⟨rfl | rfl, -⟩ | ⟨rfl | rfl, -⟩ | ⟨rfl | rfl, -⟩ <;> decide
        have hreads : Reads (· = '0') ('0' :: letter :: v :: s) := (reads_cons (by decide) rfl).2 (reads_of_not_inRun hrun)
        have hdec : decNumber ('0' :: letter :: v :: s) = .ok (some (letter :: v :: s)) := by
          rw [dec_zero, digits_of_reads hreads, after_cons_of_pos (inRun_of_digit rfl), after_cons_of_neg hrun]
        by_cases hv : f v = true
        · rcases digits_cases f s with ⟨hrs, -⟩ | ⟨-, hdigits⟩ | ⟨e, he⟩
          · exact .radix hb hv hrs
          · rw [int_radix_none hb (.inr hdigits), hdec] at h
            exact (h.not_shorter (.radix hb (.one hv)) (by simp only [List.length_cons]; omega)).elim
          · exact absurd h (not_right_error (int_radix_value hb hv he nofun))
        · have hv : f v = false := by simpa using hv
          refine .noRadix hb hv fun hunder e s' heq => ?_
          subst hunder heq
          by_contra he
          rw [int_radix_none hb (.inl hv), hdec] at h
          exact h.not_shorter (.radixUnderscore hb (.one (by simpa using he))) (by simp only [List.length_cons]; omega)
    · have hnot : ∀ letter f, Base letter f → s.head? ≠ some letter := by
        intro letter f hb hhead
        cases s with
        | nil => cases hhead
        | cons l s =>
          obtain rfl := Option.some.inj hhead
          exact hbase ⟨_, f, s, hb, rfl⟩
      have hint : intNumber ('0' :: s) = digits (· = '0') ('0' :: s) := by
        cases s with
        | nil => exact absurd rfl hr.next
        | cons letter s => rw [int_no_base fun f hb => hnot letter f hb rfl, dec_zero]
      rcases digits_cases (· = '0') ('0' :: s) with ⟨hrz, -⟩ | ⟨-, hdigits⟩ | ⟨e, he⟩
      · exact .zeros hnot hrz
      · exact absurd h (not_right_none (.zeros (.one rfl)) (hint.trans hdigits))
      · exact absurd h (not_right_error (hint.trans he))
  · exact .decimal hzero

theorem fine_plain (hd : d.isDigit = true) (hr : Reads Char.isDigit s) (ha : after Char.isDigit s = c :: r) (hc : c ≠ '.')
    (h : Right (d :: s) (number (d :: s))) : NumberFine (d :: s) := by
  have himag := imagInteger_digit hd (digits_of_reads hr)
  have hexp := expFloat_reads hd hr (head_ne_point ha hc)
  have hpart := hr.digitPart hd
  rcases expNumber_cases (after Char.isDigit s) with hno | ⟨x, hx⟩ | ⟨e, he⟩
  · rw [number_of_integer hd hr ha (expNumber_of_none hno) hc] at h
    by_cases hj : c = 'j' ∨ c = 'J'
    · refine absurd h (not_right_int (v := r) hd (not_base_of_after ha (.inr (.inr (.inr hj))))
        (.imaginary hj (.inl (ha ▸ hpart))) ?_)
      rw [ha]
      exact Nat.lt_succ_self _
    · refine .integer hd hr hno (fun c' r' heq => ?_) (fine_int hd hr h)
      obtain rfl := (List.cons.inj (ha.symm.trans heq)).1
      exact ⟨hc, not_or.1 hj⟩
  · rcases digits_cases Char.isDigit x with ⟨hrx, -⟩ | ⟨-, hdx⟩ | ⟨e, he⟩
    · exact .exponent hd hr hx hrx
    · rw [number_of_integer hd hr ha ((expNumber_of_starts hx).trans hdx) hc] at h
      obtain ⟨c', b, hb, hmark⟩ := hx.mark
      exact absurd h (not_right_int hd (not_base_of_after hb (.inr hmark)) (.float (.inr ⟨_, .inl hpart, hx.first⟩))
        hx.length_lt)
    · exact absurd h (not_right_error (number_of_error himag (float_of_error
        (hexp.trans ((expNumber_of_starts hx).trans he)))))
  · exact absurd h (not_right_error (number_of_error himag (float_of_error (hexp.trans he))))

theorem fine_doubled (hd : d.isDigit = true) (hdb : Doubled Char.isDigit s) (h : Right (d :: s) (number (d :: s))) :
    NumberFine (d :: s) := by
  rw [number_of_doubled hd hdb] at h
  by_cases hzero : d = '0'
  · subst hzero
    obtain ⟨c, s', rfl, hc⟩ := hdb.head
    have hint : intNumber ('0' :: c :: s') = digits (· = '0') ('0' :: c :: s') := by
      refine (int_no_base fun f hb => ?_).trans dec_zero
      rw [hb.letter.1] at hc
      cases hc
    rcases digits_cases (· = '0') ('0' :: c :: s') with ⟨hrz, -⟩ | ⟨-, hdigits⟩ | ⟨e, he⟩
    · exact .doubled hdb hrz
    · exact absurd h (not_right_none (.zeros (.one rfl)) (hint.trans hdigits))
    · exact absurd h (not_right_error (hint.trans he))
  · rw [int_not_zero hzero, dec_digit hd hzero] at h
    exact absurd h (not_right_none (.decimal hzero (.one hd)) (digits_of_doubled hdb))

/-- No literal is a point without a digit. -/
theorem Literal.point_head (h : Literal ('.' :: s) u) : ∃ e s', s = e :: s' ∧ e.isDigit = true := by
  have hdigits : ∀ {v}, ¬ DigitPart Char.isDigit ('.' :: s) v := by
    intro v hv
    obtain ⟨d, s', heq, hd⟩ := hv.head
    rw [← (List.cons.inj heq).1] at hd
    exact absurd hd (by decide)
  have hpoint : ∀ {v}, PointFloat ('.' :: s) v → ∃ e s', s = e :: s' ∧ e.isDigit = true := by
    intro v hv
    cases hv with
    | fraction hs => exact hs.head
    | both ht _ | whole ht => exact absurd ht hdigits
  have hfloat : ∀ {v}, FloatNumber ('.' :: s) v → ∃ e s', s = e :: s' ∧ e.isDigit = true := by
    intro v hv
    rcases hv with hv | ⟨m, hv | hv, -⟩
    · exact hpoint hv
    · exact absurd hv hdigits
    · exact hpoint hv
  cases h with
  | decimal _ h => exact absurd h hdigits
  | zeros h => exact absurd (h.mono isDigit_of_zero) hdigits
  | float h => exact hfloat h
  | imaginary _ h => exact h.elim (fun h => absurd h hdigits) hfloat

theorem fine_fraction (h : Right ('.' :: s) (number ('.' :: s))) : NumberFine ('.' :: s) := by
  have himag : imagInteger ('.' :: s) = .ok () := imagInteger_of_not (by decide)
  have hfloat : floatNumber ('.' :: s) = pointFraction ('.' :: s) := by
    rw [float_of_none (expFloat_not_digit (by decide)), pointFloat_not_digit (by decide)]
  cases s with
  | nil => exact absurd h (not_right_error (number_of_error himag hfloat))
  | cons d s =>
    by_cases hd : d.isDigit = true
    · rw [pointFraction_digit hd] at hfloat
      rcases digits_cases Char.isDigit s with ⟨hr, hdigits⟩ | ⟨-, hdigits⟩ | ⟨e, he⟩
      · exact .fraction hd hr fun x hx =>
          not_right_mantissa himag (hfloat.trans hdigits) (.inr (.fraction (hr.digitPart hd))) hx h
      · rw [number_of_none himag (hfloat.trans hdigits), int_not_zero (by decide)] at h
        exact absurd h (not_right_none (.float (.inl (.fraction (.one hd)))) (dec_other (by decide) (by decide)))
      · exact absurd h (not_right_error (number_of_error himag (hfloat.trans he)))
    · rw [number_of_float himag (hfloat.trans (pointFraction_none (by simpa using hd)))] at h
      obtain ⟨e, s', heq, he⟩ := h.1.point_head
      rw [← (List.cons.inj heq).1] at he
      exact absurd he hd

/-- **Needed.** On no other text the longest literal is taken. -/
theorem fine_of_right (h : Right (c :: s) (number (c :: s))) : NumberFine (c :: s) := by
  by_cases hd : c.isDigit = true
  · rcases digits_cases Char.isDigit s with ⟨hr, -⟩ | ⟨hdb, -⟩ | ⟨e, he⟩
    · obtain ⟨l, r, ha⟩ := hr.exists_cons
      by_cases hl : l = '.'
      · subst hl
        by_cases hhead : s.head? = some '.'
        · cases s with
          | nil => cases hhead
          | cons c' s =>
            obtain rfl := Option.some.inj hhead
            exact .point hd (fine_point hd h)
        · exact .longPoint hd hr hhead ha (fine_longPoint hd hr hhead ha h)
      · exact fine_plain hd hr ha hl h
    · exact fine_doubled hd hdb h
    · exact absurd h (not_right_error (number_of_first (imagInteger_error hd he)))
  · have hd : c.isDigit = false := by simpa using hd
    by_cases hp : c = '.'
    · subst hp
      exact fine_fraction h
    · have hfloat : floatNumber (c :: s) = .ok none := by
        rw [float_of_none (expFloat_not_digit hd), pointFloat_not_digit hd, pointFraction_other hp]
      by_cases hu : c = '_'
      · subst hu
        rw [number_of_none (imagInteger_of_not hd) hfloat, int_not_zero (by decide)] at h
        exact absurd h (not_right_error dec_underscore)
      · exact .other hd hp hu

/-! ## The reader of the lexer -/

theorem DigitPart.suffix (h : DigitPart f t u) : u <:+ t := by
  induction h with
  | one _ => exact List.suffix_cons _ _
  | digit _ _ ih => exact ih.trans (List.suffix_cons _ _)
  | underscore _ _ ih => exact ih.trans ((List.suffix_cons _ _).trans (List.suffix_cons _ _))

/-- What is left behind a literal is an end of the text. -/
theorem Literal.suffix (h : Literal t u) : u <:+ t := by
  have hpoint : ∀ {v}, PointFloat t v → v <:+ t := by
    intro v hv
    cases hv with
    | fraction hs => exact hs.suffix.trans (List.suffix_cons _ _)
    | both ht hs => exact (hs.suffix.trans (List.suffix_cons _ _)).trans ht.suffix
    | whole ht => exact (List.suffix_cons _ _).trans ht.suffix
  have hfloat : ∀ {v}, FloatNumber t v → v <:+ t := by
    intro v hv
    rcases hv with hv | ⟨m, hm, hexp⟩
    · exact hpoint hv
    · have hmt : m <:+ t := hm.elim (fun h => h.suffix) hpoint
      cases hexp with
      | plain _ hs => exact (hs.suffix.trans (List.suffix_cons _ _)).trans hmt
      | signed _ _ hs => exact (hs.suffix.trans ((List.suffix_cons _ _).trans (List.suffix_cons _ _))).trans hmt
  cases h with
  | decimal _ h => exact h.suffix
  | zeros h => exact h.suffix
  | radix _ h => exact h.suffix.trans ((List.suffix_cons _ _).trans (List.suffix_cons _ _))
  | radixUnderscore _ h =>
    exact h.suffix.trans ((List.suffix_cons _ _).trans ((List.suffix_cons _ _).trans (List.suffix_cons _ _)))
  | float h => exact hfloat h
  | imaginary _ h => exact (List.suffix_cons _ _).trans (h.elim (fun h => h.suffix) hfloat)

theorem drop_of_suffix (h : u <:+ t) : t.drop (t.length - u.length) = u := by
  obtain ⟨w, rfl⟩ := h
  rw [List.length_append, Nat.add_sub_cancel]
  exact List.drop_left

end

namespace Lexer

/-- The token of a number of some length. -/
def numberToken (L : Lexer) (n : Nat) : Lexer :=
  (L.incrementColumnPosition n).pushToken .number L.position (L.incrementColumnPosition n).position

/-- The first characters at the cursor are a literal. -/
def LiteralAt (program : List Char) (L : Lexer) (n : Nat) : Prop :=
  n ≤ (L.rest program).length ∧ Literal (L.rest program) ((L.rest program).drop n)

/-- What is asked of the reader: one token for the longest literal at the cursor, and nothing where there is none. -/
def TakesLongest (program : List Char) (L : Lexer) : Prop :=
  (∃ n, LiteralAt program L n ∧ (∀ m, LiteralAt program L m → m ≤ n) ∧
      L.tryReadNumber program = .ok (true, L.numberToken n)) ∨
    (∀ m, ¬ LiteralAt program L m) ∧ L.tryReadNumber program = .ok (false, L)

section
variable {program : List Char} {L : Lexer}

theorem literalAt_of_literal {v : List Char} (h : Literal (L.rest program) v) :
    LiteralAt program L ((L.rest program).length - v.length) :=
  ⟨Nat.sub_le _ _, by rw [drop_of_suffix h.suffix]; exact h⟩

/-- The longest literal is taken exactly if the reader is right on the text. -/
theorem takesLongest_iff_right (hlt : L.cursor < program.length) :
    TakesLongest program L ↔ Right (L.rest program) (Text.number (L.rest program)) := by
  rcases tryReadNumber_cases hlt with ⟨e, hread, hnumber⟩ | ⟨hread, hnumber⟩ | ⟨n, hn, hread, hnumber⟩
  · refine iff_of_false (fun h => ?_) (not_right_error hnumber)
    rcases h with ⟨m, -, -, h⟩ | ⟨-, h⟩
    · cases hread.symm.trans h
    · cases hread.symm.trans h
  · rw [hnumber]
    constructor
    · intro h
      rcases h with ⟨m, -, -, h⟩ | ⟨hnone, -⟩
      · cases (Prod.mk.inj (Except.ok.inj (hread.symm.trans h))).1
      · exact fun v hv => hnone _ (literalAt_of_literal hv)
    · exact fun h => .inr ⟨fun m hm => h _ hm.2, hread⟩
  · rw [hnumber]
    constructor
    · intro h
      rcases h with ⟨m, hm, hmax, h⟩ | ⟨-, h⟩
      · have hcursor := congrArg cursor (Prod.mk.inj (Except.ok.inj (hread.symm.trans h))).2
        obtain rfl : n = m := Nat.add_left_cancel hcursor
        refine ⟨hm.2, fun v hv => ?_⟩
        have hle := hmax _ (literalAt_of_literal hv)
        have hlength := hv.suffix.length_le
        rw [List.length_drop]
        omega
      · cases (Prod.mk.inj (Except.ok.inj (hread.symm.trans h))).1
    · intro h
      refine .inl ⟨n, ⟨hn, h.1⟩, fun m hm => ?_, hread⟩
      have hle := h.2 _ hm.2
      rw [List.length_drop, List.length_drop] at hle
      have hmle := hm.1
      omega

/-- **Numbers.** In every state of the lexer, the reader takes the longest literal of Python, or nothing where there is
none, exactly if the text at the cursor is one of those. -/
theorem takesLongest_iff : TakesLongest program L ↔ NumberFine (L.rest program) := by
  rcases Nat.lt_or_ge L.cursor program.length with hlt | hge
  · rw [takesLongest_iff_right hlt]
    have hlength := rest_length program L
    cases ht : L.rest program with
    | nil =>
      rw [ht] at hlength
      simp only [List.length_nil] at hlength
      omega
    | cons c s => exact ⟨fine_of_right, right_of_fine (List.cons_ne_nil c s)⟩
  · have hnil : L.rest program = [] := List.drop_eq_nil_of_le hge
    rw [hnil]
    refine iff_of_true (.inr ⟨fun m hm => ?_, if_pos hge⟩) .nil
    obtain ⟨c, s, heq, -⟩ := hm.2.head
    rw [hnil] at heq
    cases heq

end

/-- An integer with the suffix of an imaginary number. -/
def imaginaryProgram : List Char := ['1', 'j', '\n']

theorem imaginary_short : ¬ TakesLongest imaginaryProgram {} := by
  have hread : tryReadNumber imaginaryProgram {} = .ok (true, numberToken {} 1) := by decide
  intro h
  rcases h with ⟨n, -, hmax, h⟩ | ⟨hnone, -⟩
  · have hcursor := congrArg cursor (Prod.mk.inj (Except.ok.inj (hread.symm.trans h))).2
    obtain rfl : 1 = n := Nat.add_left_cancel hcursor
    have hle := hmax 2 ⟨by decide, .imaginary (.inl rfl) (.inl (.one (by decide)))⟩
    omega
  · exact hnone 1 ⟨by decide, .decimal (by decide) (.one (by decide))⟩

end Lexer

end Pylang.Lex
