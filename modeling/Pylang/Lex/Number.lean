/-
The readers of numbers. Each looks ahead from a distance `n` and returns the
distance to the end of the number, if there is one.
-/
import Pylang.Lex.State

namespace Pylang.Lex

namespace Lexer

/-- The loop of `parse_digits`: the distance to the first character that is no digit and no underscore, or nothing after
two underscores. -/
def digitsLoop (f : Char → Bool) : List Char → Bool → Nat → Except Stop (Option Nat)
  | [], _, _ => .error .assertion
  | c :: s, previousIsUnderscore, n =>
    if f c || c = '_' then
      if c = '_' && previousIsUnderscore then .ok none else digitsLoop f s (c = '_') (n + 1)
    else .ok (some n)

section
variable (program : List Char) (L : Lexer)

def parseDigits (n : Nat) (f : Char → Bool) : Except Stop (Option Nat) := do
  let some n ← digitsLoop f (program.drop (L.cursor + n)) false n | return none
  if 0 < n then
    if (← L.peek program (n - 1)) = '_' then throw .todo
  return some n

/-- `hex_number` and the others: `0`, a letter in either case, a digit and the rest. -/
def prefixedNumber (lower upper : Char) (isValue : Char → Bool) (n : Nat) : Except Stop (Option Nat) := do
  if (← L.peek program n) ≠ '0' then return none
  let n := n + 1
  if (← L.peek program n) ≠ lower then
    if (← L.peek program n) ≠ upper then return none
  let n := n + 1
  if !isValue (← L.peek program n) then return none
  let n := n + 1
  let result ← L.parseDigits program n isValue
  match result with
  | some m => if m < 3 then return none else return some m
  | none => return none

def isHexValue (c : Char) : Bool := c.isDigit || ('a' ≤ c && c ≤ 'f') || ('A' ≤ c && c ≤ 'F')
def isBinValue (c : Char) : Bool := c = '0' || c = '1'
def isOctValue (c : Char) : Bool := '0' ≤ c && c ≤ '7'

def hexNumber : Nat → Except Stop (Option Nat) := L.prefixedNumber program 'x' 'X' isHexValue
def binNumber : Nat → Except Stop (Option Nat) := L.prefixedNumber program 'b' 'B' isBinValue
def octNumber : Nat → Except Stop (Option Nat) := L.prefixedNumber program 'o' 'O' isOctValue

def decNumber (n : Nat) : Except Stop (Option Nat) := do
  if (← L.peek program n) = '_' then throw .todo
  let some n ← L.parseDigits program n (· = '0') | return none
  -- just zeros
  if 0 < n then return some n
  if !(← L.peek program n).isDigit then return none
  let some n ← L.parseDigits program (n + 1) Char.isDigit | return none
  if 0 < n then return some n else return none

def intNumber (n : Nat) : Except Stop (Option Nat) := do
  if let some stop ← L.hexNumber program n then return some stop
  if let some stop ← L.binNumber program n then return some stop
  if let some stop ← L.octNumber program n then return some stop
  L.decNumber program n

def expNumber (n : Nat) : Except Stop (Option Nat) := do
  if (← L.peek program n) ≠ 'e' then
    if (← L.peek program n) ≠ 'E' then return none
  let n := n + 1
  let c ← L.peek program n
  let n := if c = '-' || c = '+' then n + 1 else n
  if !(← L.peek program n).isDigit then return none
  L.parseDigits program (n + 1) Char.isDigit

/-- The rest of `point_float_number`, from its point on. -/
def pointFraction (n : Nat) : Except Stop (Option Nat) := do
  if (← L.peek program n) ≠ '.' then return none
  let n := n + 1
  if !(← L.peek program n).isDigit then return some n
  L.parseDigits program (n + 1) Char.isDigit

def pointFloatNumber (n : Nat) : Except Stop (Option Nat) := do
  if (← L.peek program n).isDigit then
    let some n ← L.parseDigits program (n + 1) Char.isDigit | return none
    L.pointFraction program n
  else L.pointFraction program n

def expFloatNumber (n : Nat) : Except Stop (Option Nat) := do
  if !(← L.peek program n).isDigit then return none
  let n := n + 1
  let n := if (← L.peek program n) = '.' then n + 1 else n
  let some n ← L.parseDigits program n Char.isDigit | return none
  L.expNumber program n

def floatNumber (n : Nat) : Except Stop (Option Nat) := do
  if let some stop ← L.expFloatNumber program n then return some stop
  L.pointFloatNumber program n

/-- The first reader of `imag_number`. Its last test asks one character to be `j` and `J`. -/
def imagInteger (n : Nat) : Except Stop (Option Nat) := do
  if !(← L.peek program n).isDigit then return none
  let some n ← L.parseDigits program (n + 1) Char.isDigit | return none
  let c ← L.peek program n
  if !(c = 'j' && c = 'J') then return none
  return some (n + 1)

def imagNumber (n : Nat) : Except Stop (Option Nat) := do
  if let some stop ← L.imagInteger program n then return some stop
  let some stop ← L.floatNumber program n | return none
  let c ← L.peek program stop
  if c = 'j' || c = 'J' then return some (stop + 1) else return none

def tryReadNumber : Except Stop (Bool × Lexer) := do
  if program.length ≤ L.cursor then return (false, L)
  let stop ← do
    if let some stop ← L.imagNumber program 0 then pure (some stop)
    else if let some stop ← L.floatNumber program 0 then pure (some stop)
    else L.intNumber program 0
  match stop with
  | some stop =>
    let moved := L.incrementColumnPosition stop
    return (true, moved.pushToken .number L.position moved.position)
  | none => return (false, L)

end

/-! ## What a number consists of -/

/-- A reader from a distance on has read a stretch without a line feed, if it has found a number. -/
def Reads (program : List Char) (L : Lexer) (n : Nat) (r : Option Nat) : Prop :=
  ∀ m, r = some m → n ≤ m ∧ Clear program (L.cursor + n) (L.cursor + m)

section
variable {program : List Char} {E : Stop → Prop} {L : Lexer} {n k : Nat}

theorem reads_none : Reads program L n none := nofun

theorem reads_self : Reads program L n (some n) := by
  intro m heq
  obtain rfl := Option.some.inj heq
  exact ⟨Nat.le_refl n, Clear.nil _ _⟩

theorem Reads.after {r : Option Nat} (h : Reads program L k r) (hle : n ≤ k)
    (hclear : Clear program (L.cursor + n) (L.cursor + k)) : Reads program L n r := fun m hm => by
  obtain ⟨hkm, hrest⟩ := h m hm
  exact ⟨Nat.le_trans hle hkm, hclear.append hrest⟩

/-- One character further. -/
theorem Reads.next {r : Option Nat} {c : Char} (h : Reads program L (n + 1) r) (hc : program[L.cursor + n]? = some c)
    (hne : c ≠ '\n') : Reads program L n r :=
  h.after (Nat.le_succ n) (Clear.one hc hne)

theorem ensures_digitsLoop (hE : Aborts E) {f : Char → Bool} (hf : f '\n' = false) (prev : Bool) :
    Ensures E (digitsLoop f (program.drop (L.cursor + n)) prev n) (Reads program L n) := by
  generalize hs : program.drop (L.cursor + n) = s
  induction s generalizing prev n with
  | nil => exact hE.assertion
  | cons c s ih =>
    have hc : program[L.cursor + n]? = some c := by
      rw [← Nat.add_zero (L.cursor + n), ← List.getElem?_drop, hs]
      rfl
    have hdrop : program.drop (L.cursor + (n + 1)) = s := by
      rw [← Nat.add_assoc, ← List.drop_drop, hs]
      rfl
    unfold digitsLoop
    split
    next hdigit =>
      have hne : c ≠ '\n' := by
        intro h
        obtain rfl := h
        simp [hf] at hdigit
      split
      · exact reads_none
      · exact (ih _ hdrop).mono fun r hr => hr.next hc hne
    next => exact reads_self

theorem ensures_parseDigits (hE : Aborts E) {f : Char → Bool} (hf : f '\n' = false) :
    Ensures E (L.parseDigits program n f) (Reads program L n) := by
  unfold parseDigits
  rw [ensures_bind]
  refine (ensures_digitsLoop hE hf false).mono fun r hr => ?_
  cases r with
  | none => exact reads_none
  | some m =>
    simp only [ensures_bind, ensures_ite, ensures_pure, ensures_throw]
    refine ⟨fun hpos => ?_, fun _ => hr⟩
    exact ensures_peek hE fun c hc => ⟨fun _ => hE.todo, fun _ => hr⟩

theorem ensures_prefixedNumber (hE : Aborts E) {lower upper : Char} {isValue : Char → Bool} (hl : lower ≠ '\n')
    (hu : upper ≠ '\n') (hv : isValue '\n' = false) :
    Ensures E (L.prefixedNumber program lower upper isValue n) (Reads program L n) := by
  have hvalue : ∀ {c : Char}, ¬ (!isValue c) = true → c ≠ '\n' := by
    intro c hc h
    obtain rfl := h
    simp [hv] at hc
  unfold prefixedNumber
  simp only [ensures_bind, ensures_ite, ensures_pure]
  refine ensures_peek hE fun c hc => ⟨fun _ => reads_none, fun hzero => ?_⟩
  have h0 : c ≠ '\n' := by
    intro h
    obtain rfl := h
    exact hzero (by decide)
  -- the digits, whichever letter precedes them
  have hdigits : ∀ {d : Char}, program[L.cursor + (n + 1)]? = some d → d ≠ '\n' →
      Ensures E (L.peek program (n + 1 + 1)) fun a =>
        ((!isValue a) = true → Reads program L n none) ∧
          (¬ (!isValue a) = true →
            Ensures E (L.parseDigits program (n + 1 + 1 + 1) isValue) fun a =>
              Ensures E
                (match a with
                | some m => if m < 3 then pure none else pure (some m)
                | none => pure none)
                (Reads program L n)) := by
    intro d hd hdne
    refine ensures_peek hE fun a ha => ⟨fun _ => reads_none, fun hav => ?_⟩
    refine (ensures_parseDigits hE hv).mono fun r hr => ?_
    have hread : Reads program L n r := ((hr.next ha (hvalue hav)).next hd hdne).next hc h0
    cases r with
    | none => exact reads_none
    | some m =>
      dsimp only
      split
      · exact reads_none
      · exact hread
  refine ensures_peek hE fun d hd => ⟨fun _ => ensures_peek hE fun d' hd' => ⟨fun _ => reads_none, fun hup => ?_⟩,
    fun hlow => hdigits hd ?_⟩
  · exact hdigits hd' (by rw [not_not.1 hup]; exact hu)
  · rw [not_not.1 hlow]
    exact hl

theorem ne_newline_of_isDigit {c : Char} (h : ¬ (!c.isDigit) = true) : c ≠ '\n' := by
  intro h
  obtain rfl := h
  exact h (by decide)

theorem ensures_decNumber (hE : Aborts E) : Ensures E (L.decNumber program n) (Reads program L n) := by
  unfold decNumber
  simp only [ensures_bind, ensures_ite, ensures_throw]
  refine ensures_peek hE fun c hc => ⟨fun _ => hE.todo, fun _ => ?_⟩
  refine (ensures_parseDigits hE (by decide)).mono fun r hr => ?_
  cases r with
  | none => exact reads_none
  | some m =>
    simp only [ensures_bind, ensures_ite, ensures_pure]
    refine ⟨fun _ => hr, fun _ => ensures_peek hE fun d hd => ⟨fun _ => reads_none, fun hdigit => ?_⟩⟩
    obtain ⟨hle, hclear⟩ := hr m rfl
    refine (ensures_parseDigits hE (by decide)).mono fun r' hr' => ?_
    have hread : Reads program L n r' := (hr'.next hd (ne_newline_of_isDigit hdigit)).after hle hclear
    cases r' with
    | none => exact reads_none
    | some m' =>
      simp only [ensures_ite, ensures_pure]
      exact ⟨fun _ => hread, fun _ => reads_none⟩

theorem ensures_intNumber (hE : Aborts E) : Ensures E (L.intNumber program n) (Reads program L n) := by
  have hhex : Ensures E (L.hexNumber program n) (Reads program L n) :=
    ensures_prefixedNumber hE (by decide) (by decide) (by decide)
  have hbin : Ensures E (L.binNumber program n) (Reads program L n) :=
    ensures_prefixedNumber hE (by decide) (by decide) (by decide)
  have hoct : Ensures E (L.octNumber program n) (Reads program L n) :=
    ensures_prefixedNumber hE (by decide) (by decide) (by decide)
  unfold intNumber
  rw [ensures_bind]
  refine hhex.mono fun r hr => ?_
  cases r with
  | some m => exact hr
  | none =>
    simp only [ensures_bind]
    refine hbin.mono fun r hr => ?_
    cases r with
    | some m => exact hr
    | none =>
      simp only [ensures_bind]
      refine hoct.mono fun r hr => ?_
      cases r with
      | some m => exact hr
      | none => exact ensures_decNumber hE

theorem ensures_expNumber (hE : Aborts E) : Ensures E (L.expNumber program n) (Reads program L n) := by
  unfold expNumber
  simp only [ensures_bind, ensures_ite, ensures_pure]
  -- the sign and the digits, whichever letter precedes them
  have hdigits : ∀ {d : Char}, program[L.cursor + n]? = some d → d ≠ '\n' →
      Ensures E (L.peek program (n + 1)) fun c =>
        Ensures E (L.peek program (if (c = '-' || c = '+') = true then n + 1 + 1 else n + 1)) fun a =>
          ((!a.isDigit) = true → Reads program L n none) ∧
            (¬ (!a.isDigit) = true →
              Ensures E (L.parseDigits program ((if (c = '-' || c = '+') = true then n + 1 + 1 else n + 1) + 1)
                Char.isDigit) (Reads program L n)) := by
    intro d hd hdne
    refine ensures_peek hE fun c hc => ensures_peek hE fun a ha => ⟨fun _ => reads_none, fun hdigit => ?_⟩
    refine (ensures_parseDigits hE (by decide)).mono fun r hr => ?_
    have hread := hr.next ha (ne_newline_of_isDigit hdigit)
    split at hread
    next hsign =>
      have hne : c ≠ '\n' := by
        intro h
        obtain rfl := h
        exact absurd hsign (by decide)
      exact (hread.next hc hne).next hd hdne
    next => exact hread.next hd hdne
  refine ensures_peek hE fun d hd => ⟨fun _ => ensures_peek hE fun d' hd' => ⟨fun _ => reads_none, fun hup => ?_⟩,
    fun hlow => hdigits hd ?_⟩
  · exact hdigits hd' (by rw [not_not.1 hup]; decide)
  · rw [not_not.1 hlow]
    decide

theorem ensures_pointFraction (hE : Aborts E) : Ensures E (L.pointFraction program n) (Reads program L n) := by
  unfold pointFraction
  simp only [ensures_bind, ensures_ite, ensures_pure]
  refine ensures_peek hE fun c hc => ⟨fun _ => reads_none, fun hpoint => ?_⟩
  have hne : c ≠ '\n' := by
    intro h
    obtain rfl := h
    exact hpoint (by decide)
  refine ensures_peek hE fun d hd => ⟨fun _ => reads_self.next hc hne, fun hdigit => ?_⟩
  refine (ensures_parseDigits hE (by decide)).mono fun r hr => ?_
  exact (hr.next hd (ne_newline_of_isDigit hdigit)).next hc hne

theorem ensures_pointFloatNumber (hE : Aborts E) :
    Ensures E (L.pointFloatNumber program n) (Reads program L n) := by
  unfold pointFloatNumber
  simp only [ensures_bind, ensures_ite]
  refine ensures_peek hE fun c hc => ⟨fun hdigit => ?_, fun _ => ensures_pointFraction hE⟩
  have hne : c ≠ '\n' := ne_newline_of_isDigit (by simp [hdigit])
  refine (ensures_parseDigits hE (by decide)).mono fun r hr => ?_
  cases r with
  | none => exact reads_none
  | some m =>
    obtain ⟨hle, hclear⟩ := (hr.next hc hne) m rfl
    exact (ensures_pointFraction hE).mono fun r' hr' => hr'.after hle hclear

theorem ensures_expFloatNumber (hE : Aborts E) : Ensures E (L.expFloatNumber program n) (Reads program L n) := by
  unfold expFloatNumber
  simp only [ensures_bind, ensures_ite, ensures_pure]
  refine ensures_peek hE fun c hc => ⟨fun _ => reads_none, fun hdigit => ?_⟩
  refine ensures_peek hE fun d hd => ?_
  refine (ensures_parseDigits hE (by decide)).mono fun r hr => ?_
  cases r with
  | none => exact reads_none
  | some m =>
    have hread : Reads program L (n + 1) (some m) := by
      split at hr
      next hpoint => exact hr.next hd (by rw [hpoint]; decide)
      next => exact hr
    obtain ⟨hle, hclear⟩ := (hread.next hc (ne_newline_of_isDigit hdigit)) m rfl
    exact (ensures_expNumber hE).mono fun r' hr' => hr'.after hle hclear

theorem ensures_floatNumber (hE : Aborts E) : Ensures E (L.floatNumber program n) (Reads program L n) := by
  unfold floatNumber
  rw [ensures_bind]
  refine (ensures_expFloatNumber hE).mono fun r hr => ?_
  cases r with
  | some m => exact hr
  | none => exact ensures_pointFloatNumber hE

theorem ensures_imagInteger (hE : Aborts E) : Ensures E (L.imagInteger program n) (Reads program L n) := by
  unfold imagInteger
  simp only [ensures_bind, ensures_ite, ensures_pure]
  refine ensures_peek hE fun c hc => ⟨fun _ => reads_none, fun hdigit => ?_⟩
  refine (ensures_parseDigits hE (by decide)).mono fun r hr => ?_
  cases r with
  | none => exact reads_none
  | some m =>
    simp only [ensures_bind, ensures_ite, ensures_pure]
    refine ensures_peek hE fun d hd => ⟨fun _ => reads_none, fun hboth => ?_⟩
    exact absurd (show (!(d = 'j' && d = 'J' : Bool)) = true by
      by_cases hj : d = 'j'
      · rw [hj]
        decide
      · simp [hj]) hboth

theorem ensures_imagNumber (hE : Aborts E) : Ensures E (L.imagNumber program n) (Reads program L n) := by
  unfold imagNumber
  rw [ensures_bind]
  refine (ensures_imagInteger hE).mono fun r hr => ?_
  cases r with
  | some m => exact hr
  | none =>
    simp only [ensures_bind]
    refine (ensures_floatNumber hE).mono fun r hr => ?_
    cases r with
    | none => exact reads_none
    | some m =>
      simp only [ensures_bind, ensures_ite, ensures_pure]
      refine ensures_peek hE fun c hc => ⟨fun hj => ?_, fun _ => reads_none⟩
      have hne : c ≠ '\n' := by
        intro h
        obtain rfl := h
        exact absurd hj (by decide)
      obtain ⟨hle, hclear⟩ := hr m rfl
      exact (reads_self.next hc hne).after hle hclear

/-- A number moves the cursor over characters none of which is a line feed, and is one token. -/
theorem ensures_tryReadNumber (hE : Aborts E) :
    Ensures E (L.tryReadNumber program) fun r =>
      r = (false, L) ∨ ∃ n, Clear program L.cursor (L.cursor + n) ∧
        r = (true, (L.incrementColumnPosition n).pushToken .number L.position
          (L.incrementColumnPosition n).position) := by
  unfold tryReadNumber
  simp only [ensures_bind, ensures_ite, ensures_pure]
  refine ⟨fun _ => .inl trivial, fun _ => ?_⟩
  have hstop : ∀ {r : Option Nat}, Reads program L 0 r →
      Ensures E (match r with
        | some stop =>
          (pure (true, (L.incrementColumnPosition stop).pushToken .number L.position
            (L.incrementColumnPosition stop).position) : Except Stop (Bool × Lexer))
        | none => pure (false, L)) fun r =>
        r = (false, L) ∨ ∃ n, Clear program L.cursor (L.cursor + n) ∧
          r = (true, (L.incrementColumnPosition n).pushToken .number L.position
            (L.incrementColumnPosition n).position) := by
    intro r hr
    cases r with
    | none => exact .inl rfl
    | some m => exact .inr ⟨m, (hr m rfl).2, rfl⟩
  refine (ensures_imagNumber hE).mono fun r hr => ?_
  cases r with
  | some m => exact hstop hr
  | none =>
    simp only [ensures_bind]
    refine (ensures_floatNumber hE).mono fun r hr => ?_
    cases r with
    | some m => exact hstop hr
    | none =>
      simp only [ensures_bind]
      exact (ensures_intNumber hE).mono fun r hr => hstop hr

end

end Lexer

end Pylang.Lex
