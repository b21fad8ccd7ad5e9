/-
The texts on which the reader of numbers takes the longest literal
(`NumberFine`, `right_of_fine`). Its slips: no integer takes a `j`; no exponent
is taken behind a point that follows two digits or more, or starts the number;
an underscore behind a point is taken with an exponent; a base takes no
underscore first; wrong underscores make it read less, or abort.
-/
import Pylang.Lex.NumberText

namespace Pylang.Lex

/-! ## The texts on which the reader is right -/

/-- No exponent starts the text, which the look-ahead finds before its end. -/
inductive NoExponent : List Char → Prop
  | other {c : Char} {s : List Char} : ¬ (c = 'e' ∨ c = 'E') → NoExponent (c :: s)
  | letter {c d : Char} {s : List Char} : (c = 'e' ∨ c = 'E') → ¬ (d = '-' ∨ d = '+') → d.isDigit = false →
      NoExponent (c :: d :: s)
  | signed {c sign d : Char} {s : List Char} : (c = 'e' ∨ c = 'E') → (sign = '-' ∨ sign = '+') → d.isDigit = false →
      NoExponent (c :: sign :: d :: s)

/-- No exponent, or one that can be read. -/
def ExponentFine (b : List Char) : Prop := NoExponent b ∨ ∃ x, StartsExponent b x ∧ Reads Char.isDigit x

/-- What follows one digit and a point. -/
inductive PointFine : List Char → Prop
  | digits {e : Char} {s : List Char} : e.isDigit = true → Reads Char.isDigit s → ExponentFine (after Char.isDigit s) →
      PointFine (e :: s)
  | none {c : Char} {s : List Char} : inRun Char.isDigit c = false → ExponentFine (c :: s) → PointFine (c :: s)
  | doubled {s : List Char} : Doubled Char.isDigit ('_' :: s) → PointFine ('_' :: s)
  | underscore {s : List Char} : Reads Char.isDigit ('_' :: s) →
      (NoExponent (after Char.isDigit s) ∨ ∃ x, StartsExponent (after Char.isDigit s) x ∧ Doubled Char.isDigit x) →
      PointFine ('_' :: s)

/-- What follows two digits or more and a point. -/
inductive LongPointFine : List Char → Prop
  | digits {e : Char} {s : List Char} : e.isDigit = true → Reads Char.isDigit s →
      (∀ x, ¬ StartsExponent (after Char.isDigit s) x) → LongPointFine (e :: s)
  | none {c : Char} {s : List Char} : c.isDigit = false → (∀ x, ¬ StartsExponent (c :: s) x) → LongPointFine (c :: s)

/-- An integer that starts with a digit, where neither a point nor an exponent nor a `j` follows. -/
inductive IntegerFine : Char → List Char → Prop
  | decimal {d : Char} {s : List Char} : d ≠ '0' → IntegerFine d s
  | radix {letter v : Char} {f : Char → Bool} {s : List Char} : Base letter f → f v = true → Reads f s →
      IntegerFine '0' (letter :: v :: s)
  | noRadix {letter v : Char} {f : Char → Bool} {s : List Char} : Base letter f → f v = false →
      (v = '_' → ∀ e s', s = e :: s' → f e = false) → IntegerFine '0' (letter :: v :: s)
  | zeros {s : List Char} : (∀ letter f, Base letter f → s.head? ≠ some letter) → Reads (· = '0') ('0' :: s) →
      IntegerFine '0' s

/-- The texts on which the reader of numbers takes the longest literal. -/
inductive NumberFine : List Char → Prop
  | nil : NumberFine []
  | other {c : Char} {s : List Char} : c.isDigit = false → c ≠ '.' → c ≠ '_' → NumberFine (c :: s)
  | fraction {d : Char} {s : List Char} : d.isDigit = true → Reads Char.isDigit s →
      (∀ x, ¬ StartsExponent (after Char.isDigit s) x) → NumberFine ('.' :: d :: s)
  | doubled {s : List Char} : Doubled Char.isDigit s → Reads (· = '0') ('0' :: s) → NumberFine ('0' :: s)
  | point {d : Char} {s : List Char} : d.isDigit = true → PointFine s → NumberFine (d :: '.' :: s)
  | longPoint {d : Char} {s r : List Char} : d.isDigit = true → Reads Char.isDigit s → s.head? ≠ some '.' →
      after Char.isDigit s = '.' :: r → LongPointFine r → NumberFine (d :: s)
  | exponent {d : Char} {s x : List Char} : d.isDigit = true → Reads Char.isDigit s →
      StartsExponent (after Char.isDigit s) x → Reads Char.isDigit x → NumberFine (d :: s)
  | integer {d : Char} {s : List Char} : d.isDigit = true → Reads Char.isDigit s → NoExponent (after Char.isDigit s) →
      (∀ c r, after Char.isDigit s = c :: r → c ≠ '.' ∧ c ≠ 'j' ∧ c ≠ 'J') → IntegerFine d s → NumberFine (d :: s)

/-- What is asked of a reader: it takes the longest literal, and nothing where there is none. -/
def Right (t : List Char) : Except Stop (Option (List Char)) → Prop
  | .ok (some u) => Literal t u ∧ ∀ v, Literal t v → u.length ≤ v.length
  | .ok none => ∀ v, ¬ Literal t v
  | .error _ => False

/-! ## The readers, on the texts they meet -/

namespace Text

section
variable {f : Char → Bool} {s t u b : List Char} {c d : Char}

theorem digits_cases (f : Char → Bool) (s : List Char) :
    Reads f s ∧ digits f s = .ok (some (after f s)) ∨ Doubled f s ∧ digits f s = .ok none ∨ ∃ e, digits f s = .error e := by
  unfold digits
  split
  next hsingle =>
    split
    · exact .inr (.inr ⟨_, rfl⟩)
    next hnext =>
      split
      · exact .inr (.inr ⟨_, rfl⟩)
      next hlast => exact .inl ⟨⟨hsingle, hlast, hnext⟩, rfl⟩
  next hdouble => exact .inr (.inl ⟨Bool.eq_false_iff.2 hdouble, rfl⟩)

theorem digits_of_reads (h : Reads f s) : digits f s = .ok (some (after f s)) := by
  unfold digits
  rw [if_pos h.single, if_neg h.next, if_neg h.last]

theorem digits_of_not_inRun (hc : inRun f c = false) : digits f (c :: s) = .ok (some (c :: s)) := by
  rw [digits_of_reads (reads_of_not_inRun hc), after_cons_of_neg hc]

theorem digits_of_doubled (h : Doubled f s) : digits f s = .ok none := by
  unfold digits
  rw [if_neg (by rw [h]; exact Bool.false_ne_true)]

theorem expNumber_of_starts {x : List Char} (h : StartsExponent b x) : expNumber b = digits Char.isDigit x := by
  cases h with
  | @plain c d s hc hd =>
    have hsign : ¬ (d = '-' ∨ d = '+') := by
      intro hor
      rcases hor with rfl | rfl <;> exact absurd hd (by decide)
    have hne : ¬ (c ≠ 'e' ∧ c ≠ 'E') := by
      intro hand
      exact hc.elim hand.1 hand.2
    simp only [expNumber, peek, Lexer.ok_bind, if_neg hne, if_neg hsign, hd]
    rfl
  | @signed c sign d s hc hsign hd =>
    have hne : ¬ (c ≠ 'e' ∧ c ≠ 'E') := by
      intro hand
      exact hc.elim hand.1 hand.2
    simp only [expNumber, peek, Lexer.ok_bind, if_neg hne, if_pos hsign, hd]
    rfl

theorem expNumber_of_none (h : NoExponent b) : expNumber b = .ok none := by
  cases h with
  | @other c s hc =>
    have hne : c ≠ 'e' ∧ c ≠ 'E' := not_or.1 hc
    simp only [expNumber, peek, Lexer.ok_bind, if_pos hne]
    rfl
  | @letter c d s hc hsign hd =>
    have hne : ¬ (c ≠ 'e' ∧ c ≠ 'E') := by
      intro hand
      exact hc.elim hand.1 hand.2
    simp only [expNumber, peek, Lexer.ok_bind, if_neg hne, if_neg hsign, hd]
    rfl
  | @signed c sign d s hc hsign hd =>
    have hne : ¬ (c ≠ 'e' ∧ c ≠ 'E') := by
      intro hand
      exact hc.elim hand.1 hand.2
    simp only [expNumber, peek, Lexer.ok_bind, if_neg hne, if_pos hsign, hd]
    rfl

theorem expNumber_cases (b : List Char) :
    NoExponent b ∨ (∃ x, StartsExponent b x) ∨ ∃ e, expNumber b = .error e := by
  cases b with
  | nil => exact .inr (.inr ⟨_, rfl⟩)
  | cons c s =>
    by_cases hc : c = 'e' ∨ c = 'E'
    · have hne : ¬ (c ≠ 'e' ∧ c ≠ 'E') := by
        intro hand
        exact hc.elim hand.1 hand.2
      cases s with
      | nil =>
        refine .inr (.inr ⟨.assertion, ?_⟩)
        simp only [expNumber, peek, Lexer.ok_bind, if_neg hne]
        rfl
      | cons d s =>
        by_cases hsign : d = '-' ∨ d = '+'
        · cases s with
          | nil =>
            refine .inr (.inr ⟨.assertion, ?_⟩)
            simp only [expNumber, peek, Lexer.ok_bind, if_neg hne, if_pos hsign]
            rfl
          | cons e s =>
            cases he : e.isDigit with
            | true => exact .inr (.inl ⟨s, .signed hc hsign he⟩)
            | false => exact .inl (.signed hc hsign he)
        · cases hd : d.isDigit with
          | true => exact .inr (.inl ⟨s, .plain hc hd⟩)
          | false => exact .inl (.letter hc hsign hd)
    · exact .inl (.other hc)

theorem not_starts_of_none (h : NoExponent b) (x : List Char) : ¬ StartsExponent b x := by
  intro hx
  cases h with
  | other hc =>
    cases hx with
    | plain hc' _ | signed hc' _ _ => exact hc hc'
  | letter hc hsign hd =>
    cases hx with
    | plain _ hd' =>
      rw [hd] at hd'
      cases hd'
    | signed _ hsign' _ => exact hsign hsign'
  | signed hc hsign hd =>
    cases hx with
    | plain _ hd' => rcases hsign with rfl | rfl <;> exact absurd hd' (by decide)
    | signed _ _ hd' =>
      rw [hd] at hd'
      cases hd'

/-! ### The float -/

theorem expFloat_some (hd : d.isDigit = true) (h : digits Char.isDigit (if c = '.' then s else c :: s) = .ok (some u)) :
    expFloatNumber (d :: c :: s) = expNumber u := by
  simp only [expFloatNumber, peek, Lexer.ok_bind, hd, h]
  rfl

theorem expFloat_none (hd : d.isDigit = true) (h : digits Char.isDigit (if c = '.' then s else c :: s) = .ok none) :
    expFloatNumber (d :: c :: s) = .ok none := by
  simp only [expFloatNumber, peek, Lexer.ok_bind, hd, h]
  rfl

theorem expFloat_error {e : Stop} (hd : d.isDigit = true)
    (h : digits Char.isDigit (if c = '.' then s else c :: s) = .error e) : expFloatNumber (d :: c :: s) = .error e := by
  simp only [expFloatNumber, peek, Lexer.ok_bind, hd, h]
  rfl

theorem pointFloat_some (hd : d.isDigit = true) (h : digits Char.isDigit s = .ok (some u)) :
    pointFloatNumber (d :: s) = pointFraction u := by
  simp only [pointFloatNumber, peek, Lexer.ok_bind, if_pos hd, h]

theorem pointFloat_none (hd : d.isDigit = true) (h : digits Char.isDigit s = .ok none) :
    pointFloatNumber (d :: s) = .ok none := by
  simp only [pointFloatNumber, peek, Lexer.ok_bind, if_pos hd, h]
  rfl

theorem pointFraction_digit (hd : d.isDigit = true) : pointFraction ('.' :: d :: s) = digits Char.isDigit s := by
  simp only [pointFraction, peek, Lexer.ok_bind, hd]
  rfl

theorem pointFraction_none (hd : d.isDigit = false) : pointFraction ('.' :: d :: s) = .ok (some (d :: s)) := by
  simp only [pointFraction, peek, Lexer.ok_bind, hd]
  rfl

theorem pointFraction_other (hc : c ≠ '.') : pointFraction (c :: s) = .ok none := by
  simp only [pointFraction, peek, Lexer.ok_bind, if_pos hc]
  rfl

theorem float_of_exp (h : expFloatNumber t = .ok (some u)) : floatNumber t = .ok (some u) := by
  unfold floatNumber
  rw [h]
  rfl

theorem float_of_none (h : expFloatNumber t = .ok none) : floatNumber t = pointFloatNumber t := by
  unfold floatNumber
  rw [h]
  rfl

theorem float_of_error {e : Stop} (h : expFloatNumber t = .error e) : floatNumber t = .error e := by
  unfold floatNumber
  rw [h]
  rfl

/-! ### The number -/

theorem number_of_float (h : imagInteger t = .ok ()) (hfloat : floatNumber t = .ok (some (c :: s))) :
    number t = .ok (some (skipImaginary (c :: s))) := by
  unfold number imagNumber skipImaginary
  rw [h, hfloat, Lexer.ok_bind, Lexer.ok_bind]
  dsimp only [peek]
  rw [Lexer.ok_bind]
  by_cases hj : c = 'j' ∨ c = 'J'
  · have hj' : (c = 'j' || c = 'J') = true := by simpa using hj
    rw [if_pos hj, if_pos hj']
    rfl
  · have hj' : ¬ (c = 'j' || c = 'J') = true := by simpa using hj
    rw [if_neg hj, if_neg hj']
    rfl

theorem number_of_none (h : imagInteger t = .ok ()) (hfloat : floatNumber t = .ok none) : number t = intNumber t := by
  unfold number imagNumber
  rw [h, hfloat]
  rfl

theorem number_of_error {e : Stop} (h : imagInteger t = .ok ()) (hfloat : floatNumber t = .error e) :
    number t = .error e := by
  unfold number imagNumber
  rw [h, hfloat]
  rfl

theorem number_of_first {e : Stop} (h : imagInteger t = .error e) : number t = .error e := by
  unfold number imagNumber
  rw [h]
  rfl

theorem imagInteger_of_not (hc : c.isDigit = false) : imagInteger (c :: s) = .ok () := by
  simp only [imagInteger, peek, Lexer.ok_bind, hc]
  rfl

theorem imagInteger_digit (hd : d.isDigit = true) {r : Option (List Char)} (h : digits Char.isDigit s = .ok r) :
    imagInteger (d :: s) = .ok () := by
  simp only [imagInteger, peek, Lexer.ok_bind, hd, h]
  rfl

theorem imagInteger_error (hd : d.isDigit = true) {e : Stop} (h : digits Char.isDigit s = .error e) :
    imagInteger (d :: s) = .error e := by
  simp only [imagInteger, peek, Lexer.ok_bind, hd, h]
  rfl

/-! ### The integer -/

theorem prefixed_not_zero {lower upper : Char} (hc : c ≠ '0') : prefixedNumber lower upper f (c :: s) = .ok none := by
  simp only [prefixedNumber, peek, Lexer.ok_bind, if_pos hc]
  rfl

theorem prefixed_other {lower upper letter : Char} (h : letter ≠ lower ∧ letter ≠ upper) :
    prefixedNumber lower upper f ('0' :: letter :: s) = .ok none := by
  simp only [prefixedNumber, peek, Lexer.ok_bind, if_pos h]
  rfl

theorem prefixed_value {lower upper letter v : Char} (h : letter = lower ∨ letter = upper) (hv : f v = true) :
    prefixedNumber lower upper f ('0' :: letter :: v :: s) = digits f s := by
  have hne : ¬ (letter ≠ lower ∧ letter ≠ upper) := fun hand => h.elim hand.1 hand.2
  simp only [prefixedNumber, peek, Lexer.ok_bind, if_neg hne, hv]
  rfl

theorem prefixed_none {lower upper letter v : Char} (h : letter = lower ∨ letter = upper) (hv : f v = false) :
    prefixedNumber lower upper f ('0' :: letter :: v :: s) = .ok none := by
  have hne : ¬ (letter ≠ lower ∧ letter ≠ upper) := fun hand => h.elim hand.1 hand.2
  simp only [prefixedNumber, peek, Lexer.ok_bind, if_neg hne, hv]
  rfl

theorem prefixed_short {lower upper letter : Char} (h : letter = lower ∨ letter = upper) :
    prefixedNumber lower upper f ['0', letter] = .error .assertion := by
  have hne : ¬ (letter ≠ lower ∧ letter ≠ upper) := fun hand => h.elim hand.1 hand.2
  simp only [prefixedNumber, peek, Lexer.ok_bind, if_neg hne]
  rfl

theorem int_dec (hx : prefixedNumber 'x' 'X' Lexer.isHexValue t = .ok none)
    (hb : prefixedNumber 'b' 'B' Lexer.isBinValue t = .ok none)
    (ho : prefixedNumber 'o' 'O' Lexer.isOctValue t = .ok none) : intNumber t = decNumber t := by
  unfold intNumber
  rw [hx, hb, ho]
  rfl

theorem int_not_zero (hc : c ≠ '0') : intNumber (c :: s) = decNumber (c :: s) :=
  int_dec (prefixed_not_zero hc) (prefixed_not_zero hc) (prefixed_not_zero hc)

theorem int_no_base {letter : Char} (h : ∀ f, ¬ Base letter f) : intNumber ('0' :: letter :: s) = decNumber ('0' :: letter :: s) :=
  int_dec (prefixed_other (not_or.1 fun hor => h _ (.inl ⟨hor, rfl⟩)))
    (prefixed_other (not_or.1 fun hor => h _ (.inr (.inl ⟨hor, rfl⟩))))
    (prefixed_other (not_or.1 fun hor => h _ (.inr (.inr ⟨hor, rfl⟩))))

theorem dec_digit (hd : d.isDigit = true) (hzero : d ≠ '0') : decNumber (d :: s) = digits Char.isDigit s := by
  have hunder : d ≠ '_' := Lexer.ne_underscore_of_isDigit hd
  have hrun : inRun (· = '0') d = false := by simp [inRun, hzero, hunder]
  have hdigits : digits (· = '0') (d :: s) = .ok (some (d :: s)) := digits_of_not_inRun hrun
  simp only [decNumber, peek, Lexer.ok_bind, if_neg hunder, hdigits, if_neg hzero, hd]
  rfl

theorem dec_other (hd : d.isDigit = false) (hunder : d ≠ '_') : decNumber (d :: s) = .ok none := by
  have hzero : d ≠ '0' := by
    intro h
    rw [h] at hd
    exact absurd hd (by decide)
  have hrun : inRun (· = '0') d = false := by simp [inRun, hzero, hunder]
  have hdigits : digits (· = '0') (d :: s) = .ok (some (d :: s)) := digits_of_not_inRun hrun
  simp only [decNumber, peek, Lexer.ok_bind, if_neg hunder, hdigits, if_neg hzero, hd]
  rfl

theorem dec_zero : decNumber ('0' :: s) = digits (· = '0') ('0' :: s) := by
  have hunder : ('0' : Char) ≠ '_' := by decide
  unfold decNumber peek
  rw [Lexer.ok_bind]
  dsimp only
  rw [if_neg hunder]
  cases digits (· = '0') ('0' :: s) with
  | error e => rfl
  | ok r => cases r <;> rfl

theorem dec_underscore : decNumber ('_' :: s) = .error .todo := rfl

/-- The reader of a base is asked before the zeros. -/
theorem int_radix_value {letter v : Char} (hb : Base letter f) (hv : f v = true) {r : Except Stop (Option (List Char))}
    (h : digits f s = r) (hr : r ≠ .ok none) : intNumber ('0' :: letter :: v :: s) = r := by
  subst h
  rcases hb with ⟨hl, rfl⟩ | ⟨hl, rfl⟩ | ⟨hl, rfl⟩
  · unfold intNumber
    rw [prefixed_value hl hv]
    cases hd : digits Lexer.isHexValue s with
    | error e => rfl
    | ok r =>
      cases r with
      | none => exact absurd hd hr
      | some u => rfl
  · unfold intNumber
    rw [prefixed_other (by rcases hl with rfl | rfl <;> decide), prefixed_value hl hv, Lexer.ok_bind]
    cases hd : digits Lexer.isBinValue s with
    | error e => rfl
    | ok r =>
      cases r with
      | none => exact absurd hd hr
      | some u => rfl
  · unfold intNumber
    rw [prefixed_other (by rcases hl with rfl | rfl <;> decide),
      prefixed_other (by rcases hl with rfl | rfl <;> decide), prefixed_value hl hv, Lexer.ok_bind, Lexer.ok_bind]
    cases hd : digits Lexer.isOctValue s with
    | error e => rfl
    | ok r =>
      cases r with
      | none => exact absurd hd hr
      | some u => rfl

theorem int_radix_none {letter v : Char} (hb : Base letter f) (h : f v = false ∨ digits f s = .ok none) :
    intNumber ('0' :: letter :: v :: s) = decNumber ('0' :: letter :: v :: s) := by
  have hown : ∀ {lower upper : Char}, letter = lower ∨ letter = upper →
      prefixedNumber lower upper f ('0' :: letter :: v :: s) = .ok none := by
    intro lower upper hl
    cases hv : f v with
    | false => exact prefixed_none hl hv
    | true =>
      rw [prefixed_value hl hv]
      exact h.resolve_left (by simp [hv])
  rcases hb with ⟨hl, rfl⟩ | ⟨hl, rfl⟩ | ⟨hl, rfl⟩
  · exact int_dec (hown hl) (prefixed_other (by rcases hl with rfl | rfl <;> decide))
      (prefixed_other (by rcases hl with rfl | rfl <;> decide))
  · exact int_dec (prefixed_other (by rcases hl with rfl | rfl <;> decide)) (hown hl)
      (prefixed_other (by rcases hl with rfl | rfl <;> decide))
  · exact int_dec (prefixed_other (by rcases hl with rfl | rfl <;> decide))
      (prefixed_other (by rcases hl with rfl | rfl <;> decide)) (hown hl)

theorem int_radix_short {letter : Char} (hb : Base letter f) : ∃ e, intNumber ['0', letter] = .error e := by
  refine ⟨.assertion, ?_⟩
  rcases hb with ⟨hl, rfl⟩ | ⟨hl, rfl⟩ | ⟨hl, rfl⟩
  · unfold intNumber
    rw [prefixed_short hl]
    rfl
  · unfold intNumber
    rw [prefixed_other (by rcases hl with rfl | rfl <;> decide), prefixed_short hl]
    rfl
  · unfold intNumber
    rw [prefixed_other (by rcases hl with rfl | rfl <;> decide),
      prefixed_other (by rcases hl with rfl | rfl <;> decide), prefixed_short hl]
    rfl

end

end Text

/-! ## What is right -/

section
variable {f : Char → Bool} {s t u r e : List Char} {c d : Char}

theorem mantissaEnd_other (hc : c ≠ '.') : mantissaEnd (c :: r) = c :: r := by
  unfold mantissaEnd
  split
  next heq => exact absurd (List.cons.inj heq).1 hc
  next => rfl

/-- Where neither a point nor an exponent follows the first digits, there is no float. -/
theorem no_float (ha : after Char.isDigit t = c :: r) (hc : c ≠ '.') (hno : ∀ x, ¬ StartsExponent (c :: r) x) :
    ¬ FloatNumber t u := by
  have hpoint : inRun Char.isDigit '.' = false := by decide
  intro h
  rcases h with h | ⟨m, hm, hexp⟩
  · cases h with
    | fraction _ =>
      rw [after_cons_of_neg hpoint] at ha
      exact hc (List.cons.inj ha).1.symm
    | both ht _ | whole ht => exact hc (List.cons.inj ((ht.eq_after hpoint).trans ha)).1.symm
  · obtain ⟨x, hx, -⟩ := hexp.starts
    obtain ⟨l, m', rfl, hl⟩ := hexp.mark
    rw [hm.eq_end hl, ha, mantissaEnd_other hc] at hx
    exact hno x hx

theorem no_imaginary {j : Char} (ha : after Char.isDigit t = c :: r) (hc : c ≠ '.')
    (hno : ∀ x, ¬ StartsExponent (c :: r) x) (hj : j = 'j' ∨ j = 'J') (hne : ¬ (c = 'j' ∨ c = 'J')) :
    ¬ (DigitPart Char.isDigit t (j :: u) ∨ FloatNumber t (j :: u)) := by
  intro h
  rcases h with h | h
  · have hmark : Mark j := .inr (.inr hj)
    obtain rfl := (List.cons.inj ((h.eq_after hmark.not_inRun).trans ha)).1
    exact hne hj
  · exact no_float ha hc hno h

theorem not_starts_of_not_e (hc : ¬ (c = 'e' ∨ c = 'E')) (x : List Char) : ¬ StartsExponent (c :: r) x := by
  intro h
  cases h with
  | plain hc' _ | signed hc' _ _ => exact hc hc'

theorem Base.letter {letter : Char} (h : Base letter f) : inRun Char.isDigit letter = false ∧ letter ≠ '.' ∧ ¬ Mark letter ∧
    f '_' = false ∧ letter.isDigit = false := by
  rcases h with ⟨rfl | rfl, rfl⟩ | ⟨rfl | rfl, rfl⟩ | ⟨rfl | rfl, rfl⟩ <;> simp [Mark] <;> decide

theorem Base.unique {letter : Char} {g : Char → Bool} (h : Base letter f) (h' : Base letter g) : f = g := by
  rcases h with ⟨hl, rfl⟩ | ⟨hl, rfl⟩ | ⟨hl, rfl⟩ <;> rcases h' with ⟨hl', rfl⟩ | ⟨hl', rfl⟩ | ⟨hl', rfl⟩ <;>
    first
      | rfl
      | (rcases hl with rfl | rfl <;> exact absurd hl' (by decide))

theorem Base.after_eq {letter : Char} (h : Base letter f) :
    after Char.isDigit ('0' :: letter :: s) = letter :: s := by
  rw [after_cons_of_pos (inRun_of_digit (by decide)), after_cons_of_neg h.letter.1]

theorem Base.no_float {letter : Char} (h : Base letter f) : ¬ FloatNumber ('0' :: letter :: s) u :=
  Lex.no_float h.after_eq h.letter.2.1 (not_starts_of_not_e fun hor => h.letter.2.2.1 (hor.elim .inl fun h => .inr (.inl h)))

/-- A float that goes as far as its mantissa and its exponent can is the longest literal, with a `j` behind it. -/
theorem right_float (hf : FloatNumber t e)
    (he : (∃ x, StartsExponent (mantissaEnd (after Char.isDigit t)) x ∧ e = after Char.isDigit x) ∨
      (∀ x, ¬ StartsExponent (mantissaEnd (after Char.isDigit t)) x) ∧ e = mantissaEnd (after Char.isDigit t)) :
    Right t (.ok (some (skipImaginary e))) := by
  refine ⟨?_, fun v hv => ?_⟩
  · unfold skipImaginary
    split
    next c s =>
      split
      next hj => exact .imaginary (by simpa using hj) (.inr hf)
      next => exact .float hf
    next => exact .float hf
  · cases hv with
    | decimal _ h => exact float_bound (.inr (.inl h)) he
    | zeros h =>
      refine float_bound (.inr (.inl (h.mono fun d hd => ?_))) he
      rw [of_decide_eq_true hd]
      decide
    | radix hb _ => exact absurd hf hb.no_float
    | radixUnderscore hb _ => exact absurd hf hb.no_float
    | float h => exact float_bound (.inl h) he
    | imaginary hj h => exact float_bound (.inr (.inr ⟨_, hj, h⟩)) he

theorem isDigit_of_zero : ∀ d, decide (d = '0') = true → d.isDigit = true := by
  intro d hd
  rw [of_decide_eq_true hd]
  decide

/-- An integer where no float starts: the other literals are integers. -/
theorem right_integer (hl : Literal t u) (hfloat : ∀ v, ¬ FloatNumber t v)
    (him : ∀ j v, j = 'j' ∨ j = 'J' → ¬ (DigitPart Char.isDigit t (j :: v) ∨ FloatNumber t (j :: v)))
    (hdec : ∀ d s v, t = d :: s → d ≠ '0' → DigitPart Char.isDigit t v → u.length ≤ v.length)
    (hzero : ∀ v, DigitPart (· = '0') t v → u.length ≤ v.length)
    (hradix : ∀ letter f s v, Base letter f → t = '0' :: letter :: s →
      (DigitPart f s v ∨ ∃ s', s = '_' :: s' ∧ DigitPart f s' v) → u.length ≤ v.length) :
    Right t (.ok (some u)) := by
  refine ⟨hl, fun v hv => ?_⟩
  cases hv with
  | decimal hd h => exact hdec _ _ v rfl hd h
  | zeros h => exact hzero v h
  | radix hb h => exact hradix _ _ _ v hb rfl (.inl h)
  | radixUnderscore hb h => exact hradix _ _ _ v hb rfl (.inr ⟨_, rfl, h⟩)
  | float h => exact absurd h (hfloat v)
  | imaginary hj h => exact absurd h (him _ v hj)

theorem after_mono {g : Char → Bool} (hfg : ∀ d, f d = true → g d = true) (t : List Char) :
    (after g t).length ≤ (after f t).length := by
  induction t with
  | nil => exact Nat.le_refl _
  | cons d t ih =>
    by_cases hd : inRun f d = true
    · have hg : inRun g d = true := by
        rcases Bool.or_eq_true_iff.1 hd with h | h
        · simp [inRun, hfg d h]
        · simp [inRun, of_decide_eq_true h]
      rw [after_cons_of_pos hd, after_cons_of_pos hg]
      exact ih
    · rw [after_cons_of_neg (f := f) (by simpa using hd)]
      exact after_length_le

theorem Literal.head (h : Literal t u) : ∃ c s, t = c :: s ∧ (c.isDigit = true ∨ c = '.') := by
  have hpoint : ∀ {v}, PointFloat t v → ∃ c s, t = c :: s ∧ (c.isDigit = true ∨ c = '.') := by
    intro v h
    cases h with
    | fraction _ => exact ⟨_, _, rfl, .inr rfl⟩
    | both ht _ | whole ht =>
      obtain ⟨d, s, rfl, hd⟩ := ht.head
      exact ⟨d, s, rfl, .inl hd⟩
  have hdigits : ∀ {v}, DigitPart Char.isDigit t v → ∃ c s, t = c :: s ∧ (c.isDigit = true ∨ c = '.') := by
    intro v h
    obtain ⟨d, s, rfl, hd⟩ := h.head
    exact ⟨d, s, rfl, .inl hd⟩
  have hfloat : ∀ {v}, FloatNumber t v → ∃ c s, t = c :: s ∧ (c.isDigit = true ∨ c = '.') := by
    intro v h
    rcases h with h | ⟨m, h | h, -⟩
    · exact hpoint h
    · exact hdigits h
    · exact hpoint h
  cases h with
  | decimal _ h => exact hdigits h
  | zeros h =>
    obtain ⟨d, s, rfl, hd⟩ := h.head
    exact ⟨d, s, rfl, .inl (isDigit_of_zero d hd)⟩
  | radix _ _ | radixUnderscore _ _ => exact ⟨_, _, rfl, .inl (by decide)⟩
  | float h => exact hfloat h
  | imaginary _ h => exact h.elim hdigits hfloat

/-- Behind two underscores no float goes on. -/
theorem no_float_doubled (h : Doubled Char.isDigit t) : ¬ FloatNumber t u := by
  have hpoint : ∀ {v}, ¬ PointFloat t v := by
    intro v hp
    cases hp with
    | fraction _ =>
      obtain ⟨c, s', heq, hc⟩ := h.head
      rw [← (List.cons.inj heq).1] at hc
      exact absurd hc (by decide)
    | both ht _ | whole ht => exact ht.not_doubled (by decide) (by decide) h
  intro hf
  rcases hf with hp | ⟨m, hd | hp, hexp⟩
  · exact hpoint hp
  · obtain ⟨c, m', rfl, hc⟩ := hexp.mark
    exact hd.not_doubled (by decide) hc.not_inRun h
  · exact hpoint hp

namespace Text

theorem expFloat_reads (hd : d.isDigit = true) (hr : Reads Char.isDigit s) (hhead : s.head? ≠ some '.') :
    expFloatNumber (d :: s) = expNumber (after Char.isDigit s) := by
  cases s with
  | nil => exact absurd rfl hr.next
  | cons c s =>
    have hc : c ≠ '.' := fun heq => hhead (congrArg some heq)
    exact expFloat_some hd (by rw [if_neg hc, digits_of_reads hr])

theorem pointFloat_reads (hd : d.isDigit = true) (hr : Reads Char.isDigit s) :
    pointFloatNumber (d :: s) = pointFraction (after Char.isDigit s) := by
  exact pointFloat_some hd (digits_of_reads hr)

theorem expFloat_not_digit (hc : c.isDigit = false) : expFloatNumber (c :: s) = .ok none := by
  simp only [expFloatNumber, peek, Lexer.ok_bind, hc]
  rfl

theorem pointFloat_not_digit (hc : c.isDigit = false) : pointFloatNumber (c :: s) = pointFraction (c :: s) := by
  simp only [pointFloatNumber, peek, Lexer.ok_bind, hc]
  rfl

/-- Two underscores among the first digits: only an integer is left. -/
theorem number_of_doubled (hd : d.isDigit = true) (h : Doubled Char.isDigit s) : number (d :: s) = intNumber (d :: s) := by
  have hdigits := digits_of_doubled h
  obtain ⟨c, s', rfl, hc⟩ := h.head
  have hne : c ≠ '.' := by
    intro heq
    rw [heq] at hc
    exact absurd hc (by decide)
  refine number_of_none (imagInteger_digit hd hdigits) ?_
  rw [float_of_none (expFloat_none hd (by rw [if_neg hne]; exact hdigits)), pointFloat_none hd hdigits]

end Text

open Text

theorem right_of_float_end (himag : imagInteger t = .ok ()) (hfloat : floatNumber t = .ok (some e)) (hne : e ≠ [])
    (hf : FloatNumber t e)
    (he : (∃ x, StartsExponent (mantissaEnd (after Char.isDigit t)) x ∧ e = after Char.isDigit x) ∨
      (∀ x, ¬ StartsExponent (mantissaEnd (after Char.isDigit t)) x) ∧ e = mantissaEnd (after Char.isDigit t)) :
    Right t (number t) := by
  cases e with
  | nil => exact absurd rfl hne
  | cons c e =>
    rw [number_of_float himag hfloat]
    exact right_float hf he

theorem after_digit (hd : d.isDigit = true) : after Char.isDigit (d :: s) = after Char.isDigit s :=
  after_cons_of_pos (inRun_of_digit hd)

theorem mantissaEnd_digits (hd : d.isDigit = true) : mantissaEnd ('.' :: d :: s) = after Char.isDigit s := if_pos hd

theorem mantissaEnd_none (hc : c.isDigit = false) : mantissaEnd ('.' :: c :: s) = c :: s :=
  if_neg (by rw [hc]; exact Bool.false_ne_true)

theorem isDigit_of_not_inRun (h : inRun Char.isDigit c = false) : c.isDigit = false := (Bool.or_eq_false_iff.1 h).1

/-- One digit and a point. -/
theorem right_point (hd : d.isDigit = true) (h : PointFine s) : Right (d :: '.' :: s) (number (d :: '.' :: s)) := by
  have hpoint : inRun Char.isDigit '.' = false := by decide
  have hreads : Reads Char.isDigit ('.' :: s) := reads_of_not_inRun hpoint
  have himag := imagInteger_digit hd (digits_of_reads hreads)
  have hafter : after Char.isDigit (d :: '.' :: s) = '.' :: s := (after_digit hd).trans (after_cons_of_neg hpoint)
  have hpf : pointFloatNumber (d :: '.' :: s) = pointFraction ('.' :: s) := by
    rw [pointFloat_reads hd hreads, after_cons_of_neg hpoint]
  have hwhole : DigitPart Char.isDigit (d :: '.' :: s) ('.' :: s) := .one hd
  cases h with
  | @digits e s he hr hx =>
    have hdigits := digits_of_reads ((reads_cons (by decide) he).2 hr)
    have hexp : expFloatNumber (d :: '.' :: e :: s) = expNumber (after Char.isDigit s) := by
      rw [expFloat_some hd (by rw [if_pos rfl]; exact hdigits), after_digit he]
    have hend : mantissaEnd (after Char.isDigit (d :: '.' :: e :: s)) = after Char.isDigit s := by
      rw [hafter, mantissaEnd_digits he]
    have hfrac : DigitPart Char.isDigit (e :: s) (after Char.isDigit s) := hr.digitPart he
    rcases hx with hno | ⟨x, hx, hrx⟩
    · refine right_of_float_end himag (e := after Char.isDigit s) ?_ hr.next (.inl (.both hwhole hfrac))
        (.inr ⟨by rw [hend]; exact not_starts_of_none hno, hend.symm⟩)
      rw [float_of_none (hexp.trans (expNumber_of_none hno)), hpf, pointFraction_digit he, digits_of_reads hr]
    · refine right_of_float_end himag (e := after Char.isDigit x) ?_ hrx.next
        (.inr ⟨_, .inr (.both hwhole hfrac), hx.exponent hrx⟩) (.inl ⟨x, by rw [hend]; exact hx, rfl⟩)
      rw [float_of_exp (hexp.trans ((expNumber_of_starts hx).trans (digits_of_reads hrx)))]
  | @none c s hc hx =>
    have hcd := isDigit_of_not_inRun hc
    have hexp : expFloatNumber (d :: '.' :: c :: s) = expNumber (c :: s) := by
      exact expFloat_some hd (by rw [if_pos rfl, digits_of_not_inRun hc])
    have hend : mantissaEnd (after Char.isDigit (d :: '.' :: c :: s)) = c :: s := by
      rw [hafter, mantissaEnd_none hcd]
    rcases hx with hno | ⟨x, hx, hrx⟩
    · refine right_of_float_end himag (e := c :: s) ?_ (List.cons_ne_nil c s) (.inl (.whole hwhole))
        (.inr ⟨by rw [hend]; exact not_starts_of_none hno, hend.symm⟩)
      rw [float_of_none (hexp.trans (expNumber_of_none hno)), hpf, pointFraction_none hcd]
    · refine right_of_float_end himag (e := after Char.isDigit x) ?_ hrx.next
        (.inr ⟨_, .inr (.whole hwhole), hx.exponent hrx⟩) (.inl ⟨x, by rw [hend]; exact hx, rfl⟩)
      rw [float_of_exp (hexp.trans ((expNumber_of_starts hx).trans (digits_of_reads hrx)))]
  | @doubled s hdb =>
    have hend : mantissaEnd (after Char.isDigit (d :: '.' :: '_' :: s)) = '_' :: s := by
      rw [hafter, mantissaEnd_none (by decide)]
    refine right_of_float_end himag (e := '_' :: s) ?_ (List.cons_ne_nil _ s) (.inl (.whole hwhole))
      (.inr ⟨by rw [hend]; exact not_starts_of_not_e (by decide), hend.symm⟩)
    rw [float_of_none (expFloat_none hd (by rw [if_pos rfl, digits_of_doubled hdb])), hpf, pointFraction_none (by decide)]
  | @underscore s hr hor =>
    have hend : mantissaEnd (after Char.isDigit (d :: '.' :: '_' :: s)) = '_' :: s := by
      rw [hafter, mantissaEnd_none (by decide)]
    have hexp : expFloatNumber (d :: '.' :: '_' :: s) = expNumber (after Char.isDigit s) := by
      rw [expFloat_some hd (by rw [if_pos rfl]; exact digits_of_reads hr), after_cons_of_pos inRun_underscore]
    have hnone : expNumber (after Char.isDigit s) = .ok none := by
      rcases hor with hno | ⟨x, hx, hdb⟩
      · exact expNumber_of_none hno
      · rw [expNumber_of_starts hx, digits_of_doubled hdb]
    refine right_of_float_end himag (e := '_' :: s) ?_ (List.cons_ne_nil _ s) (.inl (.whole hwhole))
      (.inr ⟨by rw [hend]; exact not_starts_of_not_e (by decide), hend.symm⟩)
    rw [float_of_none (hexp.trans hnone), hpf, pointFraction_none (by decide)]

/-- Two digits or more and a point. -/
theorem right_longPoint (hd : d.isDigit = true) (hr : Reads Char.isDigit s) (hhead : s.head? ≠ some '.')
    (ha : after Char.isDigit s = '.' :: r) (h : LongPointFine r) : Right (d :: s) (number (d :: s)) := by
  have himag := imagInteger_digit hd (digits_of_reads hr)
  have hafter : after Char.isDigit (d :: s) = '.' :: r := (after_digit hd).trans ha
  have hexp : expFloatNumber (d :: s) = .ok none := by
    rw [expFloat_reads hd hr hhead, ha]
    exact expNumber_of_none (.other (by decide))
  have hpf : pointFloatNumber (d :: s) = pointFraction ('.' :: r) := by rw [pointFloat_reads hd hr, ha]
  have hwhole : DigitPart Char.isDigit (d :: s) ('.' :: r) := ha ▸ hr.digitPart hd
  cases h with
  | @digits e r he hre hno =>
    have hend : mantissaEnd (after Char.isDigit (d :: s)) = after Char.isDigit r := by
      rw [hafter, mantissaEnd_digits he]
    refine right_of_float_end himag (e := after Char.isDigit r) ?_ hre.next (.inl (.both hwhole (hre.digitPart he)))
      (.inr ⟨by rw [hend]; exact hno, hend.symm⟩)
    rw [float_of_none hexp, hpf, pointFraction_digit he, digits_of_reads hre]
  | @none c r hc hno =>
    have hend : mantissaEnd (after Char.isDigit (d :: s)) = c :: r := by
      rw [hafter, mantissaEnd_none hc]
    refine right_of_float_end himag (e := c :: r) ?_ (List.cons_ne_nil c r) (.inl (.whole hwhole))
      (.inr ⟨by rw [hend]; exact hno, hend.symm⟩)
    rw [float_of_none hexp, hpf, pointFraction_none hc]

theorem StartsExponent.mark {b x : List Char} (h : StartsExponent b x) : ∃ c b', b = c :: b' ∧ Mark c :=
  h.first.mark

/-- The whole digits end where something other than a point follows. -/
theorem head_ne_point (ha : after Char.isDigit s = c :: r) (hc : c ≠ '.') : s.head? ≠ some '.' := by
  intro hhead
  cases s with
  | nil => cases hhead
  | cons c' s =>
    obtain rfl := Option.some.inj hhead
    rw [after_cons_of_neg (by decide)] at ha
    exact hc (List.cons.inj ha).1.symm

theorem right_exponent {x : List Char} (hd : d.isDigit = true) (hr : Reads Char.isDigit s)
    (hx : StartsExponent (after Char.isDigit s) x) (hrx : Reads Char.isDigit x) : Right (d :: s) (number (d :: s)) := by
  obtain ⟨c, b, ha, hc⟩ := hx.mark
  have hne : c ≠ '.' := by rcases hc with rfl | rfl | rfl | rfl <;> decide
  have hend : mantissaEnd (after Char.isDigit (d :: s)) = after Char.isDigit s := by
    rw [after_digit hd, ha, hc.mantissaEnd_eq]
  refine right_of_float_end (imagInteger_digit hd (digits_of_reads hr)) (e := after Char.isDigit x) ?_ hrx.next
    (.inr ⟨_, .inl (hr.digitPart hd), hx.exponent hrx⟩) (.inl ⟨x, by rw [hend]; exact hx, rfl⟩)
  refine float_of_exp ?_
  rw [expFloat_reads hd hr (head_ne_point ha hne), expNumber_of_starts hx, digits_of_reads hrx]

/-- Where neither a point nor an exponent follows, the integer is read. -/
theorem number_of_integer (hd : d.isDigit = true) (hr : Reads Char.isDigit s) (ha : after Char.isDigit s = c :: r)
    (hno : expNumber (after Char.isDigit s) = .ok none) (hc : c ≠ '.') : number (d :: s) = intNumber (d :: s) := by
  refine number_of_none (imagInteger_digit hd (digits_of_reads hr)) ?_
  rw [float_of_none ((expFloat_reads hd hr (head_ne_point ha hc)).trans hno), pointFloat_reads hd hr, ha,
    pointFraction_other hc]

/-- A base takes no other literal than one of its own, and the zero. -/
theorem base_ends {letter : Char} (hb : Base letter f) {v : List Char} (h : DigitPart (· = '0') ('0' :: letter :: s) v) :
    v = letter :: s := by
  have hrun : inRun (· = '0') letter = false := by
    rcases hb with ⟨rfl | rfl, -⟩ | ⟨rfl | rfl, -⟩ | ⟨rfl | rfl, -⟩ <;> decide
  cases h with
  | one _ => rfl
  | digit _ h =>
    obtain ⟨e, s', heq, he⟩ := h.head
    rw [(List.cons.inj heq).1, inRun_of_digit he] at hrun
    cases hrun
  | underscore _ _ => cases hrun

theorem right_int (hd : d.isDigit = true) (hr : Reads Char.isDigit s) (ha : after Char.isDigit s = c :: r)
    (hno : ∀ x, ¬ StartsExponent (c :: r) x) (hc : c ≠ '.' ∧ ¬ (c = 'j' ∨ c = 'J')) (h : IntegerFine d s) :
    Right (d :: s) (intNumber (d :: s)) := by
  have hafter : after Char.isDigit (d :: s) = c :: r := (after_digit hd).trans ha
  have hfloat : ∀ v, ¬ FloatNumber (d :: s) v := fun v => no_float hafter hc.1 hno
  have him : ∀ j v, j = 'j' ∨ j = 'J' → ¬ (DigitPart Char.isDigit (d :: s) (j :: v) ∨ FloatNumber (d :: s) (j :: v)) :=
    fun j v hj => no_imaginary hafter hc.1 hno hj hc.2
  cases h with
  | decimal hzero =>
    have hbound : ∀ v, DigitPart Char.isDigit (d :: s) v → (after Char.isDigit s).length ≤ v.length := by
      intro v hv
      rw [← after_digit hd]
      exact hv.length_le
    rw [int_not_zero hzero, dec_digit hd hzero, digits_of_reads hr]
    exact right_integer (.decimal hzero (hr.digitPart hd)) hfloat him (fun _ _ v _ _ hv => hbound v hv)
      (fun v hv => hbound v (hv.mono isDigit_of_zero)) fun _ _ _ _ _ heq _ => absurd (List.cons.inj heq).1 hzero
  | @radix letter v f s hb hv hrs =>
    rw [int_radix_value hb hv (digits_of_reads hrs) nofun]
    refine right_integer (.radix hb (hrs.digitPart hv)) hfloat him
      (fun _ _ _ heq hne _ => absurd (List.cons.inj heq).1.symm hne) (fun w hw => ?_) (fun l g s' w hb' heq hor => ?_)
    · rw [base_ends hb hw]
      have hle := after_length_le (f := f) (s := s)
      simp only [List.length_cons]
      omega
    · obtain ⟨rfl, rfl⟩ := List.cons.inj (List.cons.inj heq).2
      obtain rfl := hb.unique hb'
      rcases hor with h | ⟨s', heq, -⟩
      · rw [← after_cons_of_pos (inRun_of_digit hv)]
        exact h.length_le
      · rw [(List.cons.inj heq).1, hb.letter.2.2.2.1] at hv
        cases hv
  | @noRadix letter v f s hb hv hunder =>
    rw [int_radix_none hb (.inl hv), dec_zero]
    have hrun : inRun (· = '0') letter = false := by
      rcases hb with ⟨rfl | rfl, -⟩ | ⟨rfl | rfl, -⟩ | ⟨rfl | rfl, -⟩ <;> decide
    have hreads : Reads (· = '0') ('0' :: letter :: v :: s) := (reads_cons (by decide) rfl).2 (reads_of_not_inRun hrun)
    rw [digits_of_reads hreads, after_cons_of_pos (inRun_of_digit rfl), after_cons_of_neg hrun]
    refine right_integer (.zeros (.one rfl)) hfloat him (fun _ _ _ heq hne _ => absurd (List.cons.inj heq).1.symm hne)
      (fun w hw => ?_) (fun l g s' w hb' heq hor => ?_)
    · exact Nat.le_of_eq (congrArg List.length (base_ends hb hw).symm)
    · obtain ⟨rfl, rfl⟩ := List.cons.inj (List.cons.inj heq).2
      obtain rfl := hb.unique hb'
      rcases hor with h | ⟨s', heq, h⟩
      · obtain ⟨e, s', heq, he⟩ := h.head
        rw [← (List.cons.inj heq).1, hv] at he
        cases he
      · obtain ⟨rfl, rfl⟩ := List.cons.inj heq
        obtain ⟨e, s', rfl, he⟩ := h.head
        rw [hunder rfl e s' rfl] at he
        cases he
  | @zeros s hnot hrz =>
    have hint : intNumber ('0' :: s) = decNumber ('0' :: s) := by
      cases s with
      | nil => exact absurd rfl hr.next
      | cons letter s => exact int_no_base fun g hb => hnot letter g hb rfl
    have hpart : DigitPart (· = '0') ('0' :: s) (after (· = '0') ('0' :: s)) := by
      rw [after_cons_of_pos (inRun_of_digit rfl)]
      exact ((reads_cons (by decide) rfl).1 hrz).digitPart rfl
    rw [hint, dec_zero, digits_of_reads hrz]
    refine right_integer (.zeros hpart) hfloat him (fun _ _ _ heq hne _ => absurd (List.cons.inj heq).1.symm hne)
      (fun w hw => hw.length_le) (fun l g s' w hb' heq _ => ?_)
    rw [(List.cons.inj heq).2] at hnot
    exact absurd rfl (hnot l g hb')

/-- **Enough.** On these texts the longest literal is taken. -/
theorem right_of_fine (ht : t ≠ []) (h : NumberFine t) : Right t (number t) := by
  cases h with
  | nil => exact absurd rfl ht
  | @other c s hd hp hu =>
    have hzero : c ≠ '0' := by
      intro heq
      rw [heq] at hd
      exact absurd hd (by decide)
    rw [number_of_none (imagInteger_of_not hd) (by rw [float_of_none (expFloat_not_digit hd), pointFloat_not_digit hd,
      pointFraction_other hp]), int_not_zero hzero, dec_other hd hu]
    intro v hv
    obtain ⟨c', s', heq, hor⟩ := hv.head
    rw [← (List.cons.inj heq).1, hd] at hor
    exact hor.elim Bool.false_ne_true hp
  | @fraction d s hd hr hno =>
    have hend : mantissaEnd (after Char.isDigit ('.' :: d :: s)) = after Char.isDigit s := by
      rw [after_cons_of_neg (by decide), mantissaEnd_digits hd]
    refine right_of_float_end (imagInteger_of_not (by decide)) (e := after Char.isDigit s) ?_ hr.next
      (.inl (.fraction (hr.digitPart hd))) (.inr ⟨by rw [hend]; exact hno, hend.symm⟩)
    rw [float_of_none (expFloat_not_digit (by decide)), pointFloat_not_digit (by decide), pointFraction_digit hd,
      digits_of_reads hr]
  | @doubled s hdb hrz =>
    have hdb' : Doubled Char.isDigit ('0' :: s) := (doubled_cons (by decide) (by decide)).2 hdb
    obtain ⟨c, s', rfl, hc⟩ := hdb.head
    have hnot : ∀ f, ¬ Base c f := by
      intro f hb
      rw [hb.letter.1] at hc
      cases hc
    have hpart : DigitPart (· = '0') ('0' :: c :: s') (after (· = '0') ('0' :: c :: s')) := by
      rw [after_cons_of_pos (inRun_of_digit rfl)]
      exact ((reads_cons (by decide) rfl).1 hrz).digitPart rfl
    rw [number_of_doubled (by decide) hdb, int_no_base hnot, dec_zero, digits_of_reads hrz]
    refine right_integer (.zeros hpart) (fun v => no_float_doubled hdb') (fun j v hj hor => ?_)
      (fun _ _ _ heq hne _ => absurd (List.cons.inj heq).1.symm hne) (fun w hw => hw.length_le) fun l g s w hb heq _ => ?_
    · have hmark : Mark j := .inr (.inr hj)
      rcases hor with h | h
      · exact h.not_doubled (by decide) hmark.not_inRun hdb'
      · exact no_float_doubled hdb' h
    · rw [(List.cons.inj (List.cons.inj heq).2).1] at hnot
      exact absurd hb (hnot g)
  | point hd hp => exact right_point hd hp
  | longPoint hd hr hhead ha hl => exact right_longPoint hd hr hhead ha hl
  | exponent hd hr hx hrx => exact right_exponent hd hr hx hrx
  | @integer d s hd hr hno hplain hi =>
    obtain ⟨c, r, ha⟩ := hr.exists_cons
    obtain ⟨hpoint, hj, hJ⟩ := hplain c r ha
    rw [number_of_integer hd hr ha (expNumber_of_none hno) hpoint]
    exact right_int hd hr ha (ha ▸ not_starts_of_none hno) ⟨hpoint, not_or.2 ⟨hj, hJ⟩⟩ hi

end

end Pylang.Lex
