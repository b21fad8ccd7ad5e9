/-
The run of a program to its end. If in every state the next step can be made
(`StepFine`), no look-ahead goes beyond the program, no assertion fails and
every step that reads something comes closer to the end; so `peek_token`
returns, whichever token it is asked for.
-/
import Pylang.Lex.Digits
import Pylang.Lex.Nesting
import Pylang.Lex.Pieces

namespace Pylang.Lex

namespace Lexer

/-- What starts at the cursor can be read. -/
structure TokenFine (program : List Char) (L : Lexer) : Prop where
  string : ∀ p ∈ stringPossiblePrefixes, ∀ q s, q = '\'' ∨ q = '"' → L.rest program = p ++ q :: s →
    StringCloses q (p.contains 'f' || p.contains 'F') s
  closing : ∀ c s, L.rest program = c :: s → c = ')' ∨ c = ']' ∨ c = '}' ∧ L.mode.length ≤ 1 → 0 < L.parenthesisLevel
  number : ∀ n f, DigitsAt program L n f → ¬ Dangling f ((L.rest program).drop n)

/-- The next step can be made. -/
def StepFine (program : List Char) (L : Lexer) : Prop :=
  if L.cursor < program.length then
    match L.mode with
    | .fstring :: _ => ∀ q ∈ L.quote.head?, PieceEnds q (L.rest program)
    | _ => Meets program L ∧
        (program[skipBlanks program L.cursor]? = some '\\' → program[skipBlanks program L.cursor + 1]? = some '\n') ∧
        TokenFine program { L with cursor := tokenStart program L.cursor }
  else L.cursor = program.length → L.mode = [.normal]

/-! ## The step -/

section
variable {program : List Char} {L : Lexer}

/-- The replacement fields stand in f-strings, each of which has its quotes and its depth. -/
inductive Stacked : List Mode → List Quote → List Nat → Prop
  | bottom : Stacked [.normal] [] []
  | fstring {ms : List Mode} {qs : List Quote} {ns : List Nat} (q : Quote) (n : Nat) :
      Stacked ms qs ns → Stacked (.fstring :: ms) (q :: qs) (n :: ns)
  | field {ms : List Mode} {qs : List Quote} {ns : List Nat} :
      Stacked (.fstring :: ms) qs ns → Stacked (.normal :: .fstring :: ms) qs ns

theorem Stacked.fstring_inv {ms : List Mode} {qs : List Quote} {ns : List Nat} (h : Stacked (.fstring :: ms) qs ns) :
    ∃ q qs' n ns', qs = q :: qs' ∧ ns = n :: ns' ∧ Stacked ms qs' ns' := by
  cases h with
  | fstring q n h => exact ⟨q, _, n, _, rfl, rfl, h⟩

theorem Stacked.field_inv {ms : List Mode} {qs : List Quote} {ns : List Nat}
    (h : Stacked (.normal :: .fstring :: ms) qs ns) : Stacked (.fstring :: ms) qs ns := by
  cases h with
  | field h => exact h

theorem Stacked.turn {M : Lexer} (h : Stacked L.mode L.quote L.fstringParenLevel) (hturn : StackTurn L M) :
    Stacked M.mode M.quote M.fstringParenLevel := by
  cases hturn with
  | keep hlevel =>
    rw [hlevel.mode, hlevel.quote, hlevel.fstringParenLevel]
    exact h
  | begin mode quote level _ =>
    rw [mode, quote, level]
    exact .fstring _ _ h
  | finish mode quote level _ =>
    rw [mode] at h
    obtain ⟨q, qs, n, ns, hqs, hns, hstacked⟩ := h.fstring_inv
    rw [quote, level, hqs, hns]
    exact hstacked
  | enter before mode quote level _ =>
    rw [mode, quote, level]
    rw [before] at h ⊢
    exact .field h
  | leave before mode quote level _ =>
    rw [before] at h
    rw [mode, quote, level]
    exact h.field_inv

/-- In code above the bottom, the f-string of the replacement field is next. -/
theorem Stacked.nest (h : Stacked L.mode L.quote L.fstringParenLevel) {below : List Mode}
    (hmode : L.mode = .normal :: below) (hlong : 1 < L.mode.length) :
    ∃ below, L.mode = .normal :: .fstring :: below ∧ L.fstringParenLevel ≠ [] := by
  generalize hms : L.mode = ms at *
  generalize L.quote = qs at h
  generalize L.fstringParenLevel = ns at h
  cases h with
  | bottom => exact absurd hlong (by decide)
  | fstring q n h => cases hmode
  | field h =>
    obtain ⟨-, -, n, ns', -, rfl, -⟩ := h.fstring_inv
    exact ⟨_, rfl, by simp⟩

/-- A step that has read something is closer to the end, and not beyond it. -/
def Closer (program : List Char) (L : Lexer) (r : Bool × Lexer) : Prop :=
  r.1 = true → measure program r.2 < measure program L ∧ (L.cursor < program.length → r.2.cursor ≤ program.length)

theorem Reading.closer {M : Lexer} {r : Bool × Lexer} (h : Reading program M r)
    (hle : measure program M ≤ measure program L) : Closer program L r := fun hr =>
  ⟨Nat.lt_of_lt_of_le (h.measure_lt hr) hle, fun _ => (h.read hr).2.1⟩

theorem measure_le {M : Lexer} (hcursor : L.cursor ≤ M.cursor) (hindent : M.indentValues = L.indentValues) :
    measure program M ≤ measure program L := by
  unfold measure
  rw [hindent]
  omega

theorem never_orElse {reader next : Lexer → Except Stop (Bool × Lexer)} {P : Lexer → Prop} {Q : Bool × Lexer → Prop}
    (hreader : Ensures Never (reader L) fun r => (r.1 = true → Q r) ∧ (r.1 = false → P r.2))
    (hnext : ∀ M, reader L = .ok (false, M) → P M → Ensures Never (next M) Q) :
    Ensures Never (L.orElse reader next) Q := by
  unfold orElse
  rw [ensures_bind]
  refine hreader.with_eq.mono fun ⟨read, M⟩ ⟨heq, htrue, hfalse⟩ => ?_
  cases read with
  | true => exact htrue rfl
  | false => exact hnext M heq (hfalse rfl)

/-- The offsets of the digits depend on the cursor only. -/
theorem DigitsAt.of_cursor {M : Lexer} {n : Nat} {f : Char → Bool} (h : DigitsAt program M n f) :
    DigitsAt program { L with cursor := M.cursor } n f := by
  cases h with
  | whole hd hdigit => exact .whole hd hdigit
  | point hd hdigit hpoint => exact .point hd hdigit hpoint
  | fraction hc hn hpoint hd hdigit => exact .fraction hc hn hpoint hd hdigit
  | exponent hb hdigit hk hc hor hn hd hdig => exact .exponent hb hdigit hk hc hor hn hd hdig
  | radix hzero hletter hkind hd hf => exact .radix hzero hletter hkind hd hf
  | zeros hzero hfloat => exact .zeros hzero hfloat

/-- The readers behind the indentation, in a state `S` that has passed over blanks at most. -/
theorem never_readTokens {S : Lexer} {below : List Mode} (hend : EndsLine program) (hS : Same L S)
    (hle : measure program S ≤ measure program L) (hlt : S.cursor < program.length)
    (hskip : SkipsTo program L S) (hmode : L.mode = .normal :: below)
    (hstacked : Stacked L.mode L.quote L.fstringParenLevel)
    (hslash : program[skipBlanks program L.cursor]? = some '\\' → program[skipBlanks program L.cursor + 1]? = some '\n')
    (hfine : TokenFine program { L with cursor := tokenStart program L.cursor }) :
    Ensures Never (S.readTokens program) (Closer program L) := by
  unfold readTokens
  refine never_orElse (P := (· = S)) ((never_tryReadNewline hlt).mono fun r hr => ⟨fun _ => hr.closer hle, hr.unread⟩)
    fun M _ heq => ?_
  obtain rfl := heq
  simp only [ensures_bind]
  have hslash' : program[skipBlanks program M.cursor]? = some '\\' →
      program[skipBlanks program M.cursor + 1]? = some '\n' := by
    rw [show skipBlanks program M.cursor = skipBlanks program L.cursor from hskip]
    exact hslash
  refine (never_tryReadBackslash (Nat.le_of_lt hlt) hslash').mono fun N hN => ?_
  unfold tryReadSpace
  rw [advanceWhile_blank N hN.inside, ensures_ok]
  -- the state in which the token is read
  generalize hT : N.incrementColumnPosition ((N.rest program).takeWhile isBlank).length = T
  have hsame : Same L T := by
    rw [← hT]
    exact (hS.trans hN.same).trans (same_incrementColumnPosition N _)
  have hcursor : T.cursor = tokenStart program L.cursor := by
    rw [← hT, ← hskip.tokenStart_eq]
    exact hN.start
  have hforward : M.cursor ≤ T.cursor := by
    rw [← hT]
    exact Nat.le_trans hN.forward (Nat.le_add_right _ _)
  have hleT : measure program T ≤ measure program L :=
    Nat.le_trans (measure_le hforward (hsame.indentValues.trans hS.indentValues.symm)) hle
  rw [← hcursor] at hfine
  have hnest : 1 < T.mode.length → ∃ below, T.mode = .normal :: .fstring :: below ∧ T.fstringParenLevel ≠ [] := by
    rw [hsame.mode, hsame.fstringParenLevel]
    exact hstacked.nest hmode
  have hclosing : ∀ c s, T.rest program = c :: s → c = ')' ∨ c = ']' ∨ c = '}' ∧ T.mode.length ≤ 1 →
      0 < T.parenthesisLevel := by
    rw [hsame.mode, hsame.parenthesisLevel]
    exact hfine.closing
  have hstring : ∀ p ∈ stringPossiblePrefixes, ∀ q s, q = '\'' ∨ q = '"' → T.rest program = p ++ q :: s →
      StringCloses q (p.contains 'f' || p.contains 'F') s := hfine.string
  refine never_orElse (P := (· = T)) ((never_tryReadString hend hstring).mono fun r hr =>
    ⟨fun _ => hr.1.closer hleT, hr.1.unread⟩) fun U _ heq => ?_
  obtain rfl := heq
  refine never_orElse (P := fun V => V = U ∧ (V.rest program)[0]? ≠ some '_') ((never_tryReadName hend).mono fun r hr =>
    ⟨fun _ => hr.1.closer hleT, fun hfalse => ⟨hr.1.unread hfalse, by rw [hr.1.unread hfalse]; exact hr.2 hfalse⟩⟩)
    fun V _ hV => ?_
  obtain ⟨rfl, hunder⟩ := hV
  refine never_orElse (P := (· = V)) ((never_tryReadOperation hend hclosing hnest).mono fun r hr =>
    ⟨fun _ => hr.closer hleT, hr.unread⟩) fun W _ heq => ?_
  obtain rfl := heq
  have hnumber : ∀ n f, DigitsAt program W n f → ¬ Dangling f ((W.rest program).drop n) := fun n f hat =>
    hfine.number n f hat.of_cursor
  exact (never_tryReadNumber hend hnumber hunder).mono fun r hr => hr.closer hleT

/-- **The step.** It returns, and has come closer to the end if it has read something. -/
theorem never_step (hend : EndsLine program) (hinv : IndentInv program L)
    (hstacked : Stacked L.mode L.quote L.fstringParenLevel) (hfine : StepFine program L) :
    Ensures Never (L.readMoreTokensLoop program) (Closer program L) := by
  unfold StepFine at hfine
  unfold readMoreTokensLoop
  simp only [ensures_ite, ensures_ok]
  refine ⟨fun _ => nofun, fun _ => ⟨fun heq _ => ⟨?_, fun hlt => absurd heq (Nat.ne_of_lt hlt)⟩, fun hne => ?_⟩⟩
  · have hnext : StackOk { L.incrementRowPosition with cursor := L.cursor + 1 } :=
      ⟨hinv.stack.1, hinv.stack.2, hinv.stack.3⟩
    obtain ⟨-, hzero, hcursor⟩ := dedentAll_stackOk hnext
    have hvalues : L.readEnd.indentValues = [0] := hzero
    have hmoved : L.readEnd.cursor = L.cursor + 1 := hcursor
    have hstack : L.indentValues ≠ [] := by
      intro hnil
      have hbottom := hinv.stack.bottom
      rw [hnil] at hbottom
      cases hbottom
    have hpos := List.length_pos_iff.2 hstack
    show measure program L.readEnd < measure program L
    unfold measure
    rw [hvalues, hmoved, List.length_singleton]
    omega
  have hlt : L.cursor < program.length := by omega
  have hstack : L.indentValues ≠ [] := by
    intro hnil
    have hbottom := hinv.stack.bottom
    rw [hnil] at hbottom
    cases hbottom
  rw [if_pos hlt] at hfine
  cases hmode : L.mode with
  | nil =>
    rw [hmode] at hstacked
    cases hstacked
  | cons mode below =>
    rw [hmode] at hfine
    cases mode with
    | fstring =>
      rw [hmode] at hstacked
      obtain ⟨q, qs, -, -, hquote, -, -⟩ := hstacked.fstring_inv
      have hpiece : PieceEnds q (L.rest program) := hfine q (by rw [hquote]; rfl)
      exact (never_tryFstring hend hlt hquote hpiece).mono fun r hr => hr.closer (Nat.le_refl _)
    | normal =>
      obtain ⟨hmeets, hslash, htoken⟩ := hfine
      rw [← hmode] at htoken
      have hself : Same L L := ⟨rfl, rfl, rfl, rfl, rfl, rfl⟩
      refine never_orElse (P := (· = L)) ((never_tryEmptyLine (endsLine_rest hend hlt)).mono fun r hr =>
        ⟨fun _ => hr.closer (Nat.le_refl _), hr.unread⟩) fun M hempty heq => ?_
      obtain rfl := heq
      refine never_orElse (P := (· = M)) ((never_tryReadComment hend hlt).mono fun r hr =>
        ⟨fun _ => hr.closer (Nat.le_refl _), hr.unread⟩) fun N hcomment heq => ?_
      obtain rfl := heq
      have hmeets' : ∀ v n, computeIndentLevel (N.rest program) 0 0 = .ok (v, n) → N.position.column = 0 →
          N.parenthesisLevel = 0 → v ∈ N.indentValues ∨ ∀ w ∈ N.indentValues, w < v := by
        intro v n hcompute hcolumn hlevel
        exact hmeets v (lineIndent_eq hlt hmode hempty hcomment hcompute hcolumn hlevel)
      have hindent := never_tryReadIndent hend hlt hstack hmeets'
      refine never_orElse (P := fun S => S = N ∨ S = N.incrementColumnPosition ((N.rest program).takeWhile isBlank).length)
        (hindent.mono fun r hr => ⟨fun _ htrue => ⟨hr.read htrue, fun _ => hr.inside⟩, hr.unread⟩) fun S _ hS => ?_
      have hstacked' : Stacked N.mode N.quote N.fstringParenLevel := hstacked
      rcases hS with rfl | rfl
      · exact never_readTokens hend hself (Nat.le_refl _) hlt rfl hmode hstacked' hslash htoken
      · exact never_readTokens hend (same_incrementColumnPosition N _) (measure_le (Nat.le_add_right _ _) rfl)
          (blanks_lt (endsLine_rest hend hlt)) (skipsTo_blanks N) hmode hstacked' hslash htoken

end

/-! ## The run -/

section
variable (program : List Char)

/-- The states of the run of a program: each step has read something. -/
inductive Visits : Lexer → Prop
  | create : Visits {}
  | step {L M : Lexer} : Visits L → L.readMoreTokensLoop program = .ok (true, M) → Visits M

variable (ignoreComments ignoreNl : Bool)

/-- `read_more_tokens`, from the number of tokens to emit that there were; nothing when the fuel is spent. -/
def readMoreTokens (tokenSize : Nat) : Nat → Lexer → Except Stop (Option (Bool × Lexer))
  | 0, _ => .ok none
  | fuel + 1, L => do
    let (readTokens, L) ← L.readMoreTokensLoop program
    if readTokens then
      if (L.emitted ignoreComments ignoreNl).length ≤ tokenSize then readMoreTokens tokenSize fuel L
      else return some (true, L)
    else return some (false, L)

/-- `peek_token`; nothing when the fuel is spent. -/
def peekToken (positions : Nat) : Nat → Lexer → Except Stop (Option (Option Token × Lexer))
  | 0, _ => .ok none
  | fuel + 1, L =>
    if (L.emitted ignoreComments ignoreNl).length ≤ positions then
      if program.length < L.cursor then .ok (some (none, L))
      else do
        match ← readMoreTokens program ignoreComments ignoreNl (L.emitted ignoreComments ignoreNl).length (fuel + 1) L with
        | none => return none
        | some (false, L) => return some (none, L)
        | some (true, L) => peekToken positions fuel L
    else .ok (some ((L.emitted ignoreComments ignoreNl)[positions]?, L))

end

section
variable {program : List Char} {L : Lexer}

theorem Visits.reaches (h : Visits program L) : Reaches program L := by
  induction h with
  | create => exact .create
  | step _ hstep ih => exact .step ih hstep

theorem Visits.stacked (h : Visits program L) : Stacked L.mode L.quote L.fstringParenLevel := by
  induction h with
  | create => exact .bottom
  | step _ hstep ih => exact ih.turn ((ensures_turn aborts_true trivial _).of_ok hstep)

/-- Every step of the run can be made. -/
def RunFine (program : List Char) : Prop := ∀ L, Visits program L → StepFine program L

section
variable (hend : EndsLine program) (hfine : RunFine program)
include hend hfine

theorem Visits.returns (h : Visits program L) :
    ∃ r, L.readMoreTokensLoop program = .ok r ∧ Closer program L r :=
  never_iff.1 (never_step hend h.reaches.inv h.stacked (hfine L h))

/-- The f-strings have all ended when the program has. -/
theorem Visits.closed (h : Visits program L) (hpast : program.length < L.cursor) : L.mode = [.normal] := by
  induction h with
  | create => rfl
  | @step L M h hstep _ =>
    obtain ⟨r, hr, hcloser⟩ := h.returns hend hfine
    obtain rfl : r = (true, M) := Except.ok.inj (hr.symm.trans hstep)
    obtain ⟨-, hinside⟩ := hcloser rfl
    rcases Nat.lt_trichotomy L.cursor program.length with hlt | heq | hgt
    · exact absurd (hinside hlt) (Nat.not_le.2 hpast)
    · have hclosed := hfine L h
      unfold StepFine at hclosed
      rw [if_neg (by omega)] at hclosed
      unfold readMoreTokensLoop at hstep
      rw [if_neg (by omega), if_pos heq] at hstep
      obtain ⟨-, rfl⟩ := Prod.mk.inj (Except.ok.inj hstep)
      exact (level_readEnd L).mode.trans (hclosed heq)
    · unfold readMoreTokensLoop at hstep
      rw [if_pos hgt] at hstep
      cases (Prod.mk.inj (Except.ok.inj hstep)).1

theorem readMoreTokens_returns (h : Visits program L) (ignoreComments ignoreNl : Bool) (tokenSize : Nat) {fuel : Nat}
    (hfuel : measure program L < fuel) :
    ∃ r, readMoreTokens program ignoreComments ignoreNl tokenSize fuel L = .ok (some r) ∧
      (r.1 = true → Visits program r.2 ∧ measure program r.2 < measure program L) := by
  induction fuel generalizing L with
  | zero => cases hfuel
  | succ fuel ih =>
    obtain ⟨⟨read, M⟩, hr, hcloser⟩ := h.returns hend hfine
    unfold readMoreTokens
    rw [hr]
    cases read with
    | false => exact ⟨(false, M), rfl, nofun⟩
    | true =>
      have hless : measure program M < measure program L := (hcloser rfl).1
      have hM : Visits program M := .step h hr
      by_cases hfew : (M.emitted ignoreComments ignoreNl).length ≤ tokenSize
      · obtain ⟨r, hread, hvisits⟩ := ih hM (by omega)
        refine ⟨r, ?_, fun htrue => ⟨(hvisits htrue).1, Nat.lt_trans (hvisits htrue).2 hless⟩⟩
        rw [← hread]
        exact if_pos hfew
      · exact ⟨(true, M), if_neg hfew, fun _ => ⟨hM, hless⟩⟩

theorem peekToken_returns (h : Visits program L) (ignoreComments ignoreNl : Bool) (positions : Nat) {fuel : Nat}
    (hfuel : measure program L < fuel) :
    ∃ r, peekToken program ignoreComments ignoreNl positions fuel L = .ok (some r) := by
  induction fuel generalizing L with
  | zero => cases hfuel
  | succ fuel ih =>
    unfold peekToken
    split
    · split
      · exact ⟨_, rfl⟩
      · obtain ⟨⟨read, M⟩, hread, hvisits⟩ := readMoreTokens_returns hend hfine h ignoreComments ignoreNl
          (L.emitted ignoreComments ignoreNl).length hfuel
        rw [hread]
        cases read with
        | false => exact ⟨_, rfl⟩
        | true =>
          obtain ⟨hM, hless⟩ := hvisits rfl
          have hM : Visits program M := hM
          have hless : measure program M < measure program L := hless
          exact ih hM (by omega)
    · exact ⟨_, rfl⟩

end

/-- What is asked of a state: whichever token is asked for, it is found or there is none, and no look-ahead fails; a
string of one quote that is read there has its line feeds escaped, and the text of an f-string of one quote starts with
none (a later one would have failed the step); and no f-string is open behind the end of the program. -/
structure ReadsOn (program : List Char) (L : Lexer) : Prop where
  step : ∃ r, L.readMoreTokensLoop program = .ok r
  peek : ∀ ignoreComments ignoreNl positions fuel, measure program L < fuel →
    ∃ r, peekToken program ignoreComments ignoreNl positions fuel L = .ok (some r)
  lines : L.mode.head? = some .normal → ∀ S M, S.cursor = tokenStart program L.cursor →
    S.tryReadString program = .ok (true, M) → OneLine program S M
  text : L.mode.head? = some .fstring → ∀ q ∈ L.quote.head?, q.isTriple = false → (L.rest program).head? ≠ some '\n'
  closed : program.length < L.cursor → L.mode = [.normal]

theorem tokenStart_ge (program : List Char) (o : Nat) : o ≤ tokenStart program o := by
  unfold tokenStart
  dsimp only
  split
  · show o ≤ skipBlanks program o + 2 + _
    show o ≤ o + _ + 2 + _
    omega
  · exact Nat.le_add_right _ _

/-- **The lexer reads to the end.** A program that ends in a line feed is read, without a failing look-ahead and in
finitely many steps, if every step of its run can be made. -/
theorem readsOn (hend : EndsLine program) (hfine : RunFine program) (h : Visits program L) : ReadsOn program L := by
  refine ⟨?_, ?_, ?_, ?_, h.closed hend hfine⟩
  · obtain ⟨r, hr, -⟩ := h.returns hend hfine
    exact ⟨r, hr⟩
  · intro ignoreComments ignoreNl positions fuel hfuel
    exact peekToken_returns hend hfine h ignoreComments ignoreNl positions hfuel
  · intro hmode S M hS hread
    have hstep := hfine L h
    by_cases hlt : L.cursor < program.length
    · unfold StepFine at hstep
      rw [if_pos hlt] at hstep
      have htoken : TokenFine program { L with cursor := tokenStart program L.cursor } := by
        cases hms : L.mode with
        | nil =>
          rw [hms] at hmode
          cases hmode
        | cons mode below =>
          rw [hms] at hmode
          obtain rfl : mode = .normal := Option.some.inj hmode
          rw [hms] at hstep
          exact hstep.2.2
      rw [← hS] at htoken
      exact ((never_tryReadString (L := S) hend htoken.string).of_ok hread).2 rfl
    · have hge := tokenStart_ge program L.cursor
      unfold tryReadString at hread
      rw [if_pos (by omega)] at hread
      cases (Prod.mk.inj (Except.ok.inj hread)).1
  · intro hmode q hq hsingle hfeed
    have hlt : L.cursor < program.length := by
      rw [List.head?_eq_getElem?] at hfeed
      exact lt_of_get hfeed
    have hstep := hfine L h
    unfold StepFine at hstep
    rw [if_pos hlt] at hstep
    cases hms : L.mode with
    | nil =>
      rw [hms] at hmode
      cases hmode
    | cons mode below =>
      rw [hms] at hmode
      obtain rfl : mode = .fstring := Option.some.inj hmode
      rw [hms] at hstep
      exact (hstep q hq).head_ne hsingle hfeed

end

/-- Nothing is asked of a token that is no string, no number and no bracket. -/
theorem tokenFine_plain {program : List Char} {L : Lexer} {c : Char} {s : List Char} (hrest : L.rest program = c :: s)
    (hfront : ∀ p ∈ stringPossiblePrefixes, c ∉ p) (hquote : ¬ (c = '\'' ∨ c = '"'))
    (hclosing : ¬ (c = ')' ∨ c = ']' ∨ c = '}')) (hnumber : ¬ (c.isDigit = true ∨ c = '.')) : TokenFine program L := by
  have hget : ∀ {d : Char}, (L.rest program)[0]? = some d → d = c := by
    intro d hd
    rw [hrest] at hd
    exact (Option.some.inj hd).symm
  refine ⟨fun p hp q t hq ht => ?_, fun d t ht hor => ?_, fun n f hat => ?_⟩
  · rw [hrest] at ht
    cases p with
    | nil => exact absurd ((List.cons.inj ht).1 ▸ hq) hquote
    | cons d p => exact absurd ((List.cons.inj ht).1 ▸ List.mem_cons_self) (hfront _ hp)
  · obtain rfl := (List.cons.inj (hrest.symm.trans ht)).1
    exact absurd (hor.imp_right fun h => h.imp_right And.left) hclosing
  · refine absurd ?_ hnumber
    cases hat with
    | whole hd hdigit | point hd hdigit _ | exponent hd hdigit _ _ _ _ _ _ => exact .inl (hget hd ▸ hdigit)
    | fraction hc hn hpoint _ _ =>
      rcases hn with rfl | ⟨hdigit, -⟩
      · exact .inr (hget hpoint).symm
      · exact .inl (hget hc ▸ hdigit)
    | radix hzero _ _ _ _ | zeros hzero _ => exact .inl (hget hzero ▸ by decide)

/-- A line of two names. -/
def twoNames : List Char := ['a', ' ', 'c', '\n']

theorem twoNames_steps : ∀ n < 4, (stateAfter twoNames n).readMoreTokensLoop twoNames =
    .ok (true, stateAfter twoNames (n + 1)) := by
  decide +kernel

theorem twoNames_visits {L : Lexer} (h : Visits twoNames L) : ∃ n ≤ 4, L = stateAfter twoNames n := by
  induction h with
  | create => exact ⟨0, by decide, rfl⟩
  | step _ hstep ih =>
    obtain ⟨n, hn, rfl⟩ := ih
    rcases Nat.lt_or_eq_of_le hn with hlt | rfl
    · exact ⟨n + 1, hlt, (Prod.mk.inj (Except.ok.inj (hstep.symm.trans (twoNames_steps n hlt)))).2⟩
    · have hdone : (stateAfter twoNames 4).readMoreTokensLoop twoNames = .ok (false, stateAfter twoNames 4) := by
        decide +kernel
      cases (Prod.mk.inj (Except.ok.inj (hstep.symm.trans hdone))).1

theorem twoNames_fine : RunFine twoNames := by
  intro L h
  obtain ⟨n, hn, rfl⟩ := twoNames_visits h
  have hmode : ∀ n ≤ 4, (stateAfter twoNames n).mode = [.normal] := by decide +kernel
  have hline : ∀ n ≤ 4, ∀ v, lineIndent twoNames (stateAfter twoNames n) = some v →
      v ∈ (stateAfter twoNames n).indentValues := by
    intro n hn v hv
    have hlines : ∀ n ≤ 4, lineIndent twoNames (stateAfter twoNames n) = none ∨
        lineIndent twoNames (stateAfter twoNames n) = some 0 ∧ 0 ∈ (stateAfter twoNames n).indentValues := by
      decide +kernel
    rcases hlines n hn with hnone | ⟨hzero, hmem⟩
    · rw [hnone] at hv
      cases hv
    · obtain rfl := Option.some.inj (hzero.symm.trans hv)
      exact hmem
  have htoken : ∀ n < 3, TokenFine twoNames
      { stateAfter twoNames n with cursor := tokenStart twoNames (stateAfter twoNames n).cursor } := by
    intro n hn
    rcases n with _ | _ | _ | n
    · exact tokenFine_plain (c := 'a') (s := [' ', 'c', '\n']) (by decide +kernel) (by decide) (by decide) (by decide) (by decide)
    · exact tokenFine_plain (c := 'c') (s := ['\n']) (by decide +kernel) (by decide) (by decide) (by decide) (by decide)
    · exact tokenFine_plain (c := '\n') (s := []) (by decide +kernel) (by decide) (by decide) (by decide) (by decide)
    · omega
  unfold StepFine
  rw [hmode n hn]
  split
  next hlt =>
    have hless : ∀ n ≤ 4, (stateAfter twoNames n).cursor < twoNames.length → n < 3 := by decide +kernel
    have hslash : ∀ n ≤ 4, twoNames[skipBlanks twoNames (stateAfter twoNames n).cursor]? ≠ some '\\' := by decide +kernel
    exact ⟨fun v hv => .inl (hline n hn v hv), fun h => absurd h (hslash n hn), by
      have h := htoken n (hless n hn hlt)
      simpa only [hmode n hn] using h⟩
  next => exact fun _ => rfl

theorem readsOn_twoNames : ReadsOn twoNames (stateAfter twoNames 4) :=
  readsOn rfl twoNames_fine (.step (.step (.step (.step .create (twoNames_steps 0 (by decide)))
    (twoNames_steps 1 (by decide))) (twoNames_steps 2 (by decide))) (twoNames_steps 3 (by decide)))

/-- A string that the program ends in. -/
def openString : List Char := ['\'', 'a', '\n']

/-- The end of the program is not reported but looked beyond. -/
theorem openString_aborts : ¬ ∀ program, EndsLine program → ∀ L, Visits program L → ReadsOn program L := by
  intro h
  obtain ⟨r, hr⟩ := (h openString rfl {} .create).step
  have herror : readMoreTokensLoop openString {} = .error .assertion := by decide
  rw [herror] at hr
  cases hr

/-- A line feed between single quotes is read as part of the string. -/
example : ∃ M, tryReadString ['\'', 'a', '\n', '\'', '\n'] {} = .ok (true, M) ∧ M.cursor = 4 := by
  refine ⟨_, by rfl, by decide⟩

end Lexer

end Pylang.Lex
