/-
The stacks of the f-strings. From the step that pushes `FSTRING_START` to the
one that pushes the `FSTRING_END` that belongs to it, each of the stacks is
what it was with a front of its own (`Within`), and the front is gone with the
last f-string of it, whatever was read in the replacement fields.

A brace that closes a display in a replacement field leaves the field, and the
text that follows is read as that of the f-string until the next brace; this
leaves the stacks in order all the same. `m_parenthesis_level` is no stack: a
bracket that a field leaves open is still counted behind the f-string.
-/
import Pylang.Lex.Indent

namespace Pylang.Lex

namespace Lexer

/-- The f-strings that have started, without those that have ended. -/
def fstringDepth (L : Lexer) : Int := (countType .fstringStart L.tokens : Int) - countType .fstringEnd L.tokens

/-- The stacks of the f-strings are as they were, and none has started or ended. -/
structure Level (L L' : Lexer) : Prop where
  mode : L'.mode = L.mode
  quote : L'.quote = L.quote
  fstringParenLevel : L'.fstringParenLevel = L.fstringParenLevel
  depth : L'.fstringDepth = L.fstringDepth

theorem Level.trans {L L' L'' : Lexer} (h : Level L L') (h' : Level L' L'') : Level L L'' :=
  ⟨h'.mode.trans h.mode, h'.quote.trans h.quote, h'.fstringParenLevel.trans h.fstringParenLevel, h'.depth.trans h.depth⟩

/-- One step: the stacks stay, or one f-string starts or ends, or one replacement field. -/
inductive StackTurn (L L' : Lexer) : Prop
  | keep (h : Level L L')
  | begin {q : Quote} {n : Nat} (mode : L'.mode = .fstring :: L.mode) (quote : L'.quote = q :: L.quote)
      (level : L'.fstringParenLevel = n :: L.fstringParenLevel) (depth : L'.fstringDepth = L.fstringDepth + 1)
  | finish (mode : L.mode = .fstring :: L'.mode) (quote : L'.quote = L.quote.tail)
      (level : L'.fstringParenLevel = L.fstringParenLevel.tail) (depth : L'.fstringDepth = L.fstringDepth - 1)
  | enter {below : List Mode} (before : L.mode = .fstring :: below) (mode : L'.mode = .normal :: L.mode)
      (quote : L'.quote = L.quote) (level : L'.fstringParenLevel = L.fstringParenLevel)
      (depth : L'.fstringDepth = L.fstringDepth)
  | leave {below : List Mode} (before : L.mode = .normal :: .fstring :: below) (mode : L'.mode = .fstring :: below)
      (quote : L'.quote = L.quote) (level : L'.fstringParenLevel = L.fstringParenLevel)
      (depth : L'.fstringDepth = L.fstringDepth)

theorem StackTurn.before {L L' L'' : Lexer} (h : Level L L') (h' : StackTurn L' L'') : StackTurn L L'' := by
  obtain ⟨hmode, hquote, hlevel, hdepth⟩ := h
  cases h' with
  | keep h' => exact .keep (Level.trans ⟨hmode, hquote, hlevel, hdepth⟩ h')
  | begin mode quote level depth => exact .begin (hmode ▸ mode) (hquote ▸ quote) (hlevel ▸ level) (hdepth ▸ depth)
  | finish mode quote level depth => exact .finish (hmode ▸ mode) (hquote ▸ quote) (hlevel ▸ level) (hdepth ▸ depth)
  | enter before mode quote level depth =>
    exact .enter (hmode ▸ before) (hmode ▸ mode) (hquote ▸ quote) (hlevel ▸ level) (hdepth ▸ depth)
  | leave before mode quote level depth =>
    exact .leave (hmode ▸ before) mode (hquote ▸ quote) (hlevel ▸ level) (hdepth ▸ depth)

theorem StackTurn.after {L L' L'' : Lexer} (h : StackTurn L L') (h' : Level L' L'') : StackTurn L L'' := by
  obtain ⟨hmode, hquote, hlevel, hdepth⟩ := h'
  cases h with
  | keep h => exact .keep (h.trans ⟨hmode, hquote, hlevel, hdepth⟩)
  | begin mode quote level depth =>
    exact .begin (hmode.trans mode) (hquote.trans quote) (hlevel.trans level) (hdepth.trans depth)
  | finish mode quote level depth =>
    exact .finish (hmode ▸ mode) (hquote.trans quote) (hlevel.trans level) (hdepth.trans depth)
  | enter before mode quote level depth =>
    exact .enter before (hmode.trans mode) (hquote.trans quote) (hlevel.trans level) (hdepth.trans depth)
  | leave before mode quote level depth =>
    exact .leave before (hmode.trans mode) (hquote.trans quote) (hlevel.trans level) (hdepth.trans depth)

/-! ## A step turns the stacks -/

def NoFstring (type : TokenType) : Prop := type ≠ .fstringStart ∧ type ≠ .fstringEnd

theorem fstringDepth_append {L L' : Lexer} {t : Token} (h : L'.tokens = L.tokens ++ [t]) :
    L'.fstringDepth = L.fstringDepth + (countType .fstringStart [t] - countType .fstringEnd [t] : Int) := by
  unfold fstringDepth
  rw [h, countType_append, countType_append]
  omega

theorem level_pushToken (L : Lexer) {type : TokenType} (h : NoFstring type) (start stop : Position) :
    Level L (L.pushToken type start stop) := by
  refine ⟨rfl, rfl, rfl, (fstringDepth_append rfl).trans ?_⟩
  simp [countType, h.1, h.2]

theorem Level.of_tokens {L L' : Lexer} (ht : L'.tokens = L.tokens) (hmode : L'.mode = L.mode)
    (hquote : L'.quote = L.quote) (hlevel : L'.fstringParenLevel = L.fstringParenLevel) : Level L L' :=
  ⟨hmode, hquote, hlevel, by rw [fstringDepth, ht, ← fstringDepth]⟩

theorem level_frame : StepFrame Level StackTurn NoFstring where
  trans := Level.trans
  adjust := fun ht _ hmode hquote hlevel => Level.of_tokens ht hmode hquote hlevel
  pushToken := fun L _ h start stop => level_pushToken L h start stop
  ordinary := fun h => ⟨h.2.2.2.1, h.2.2.2.2⟩
  keep := .keep
  before := StackTurn.before
  after := StackTurn.after
  leave := fun hmode => .leave hmode rfl rfl rfl rfl
  enter := fun hmode => .enter hmode rfl rfl rfl rfl
  begin := by
    intro L read h quote skip
    refine .begin (congrArg (List.cons Mode.fstring) h.mode) (congrArg (List.cons quote) h.quote)
      (congrArg (List.cons read.parenthesisLevel) h.fstringParenLevel) ?_
    refine (fstringDepth_append (t := ⟨.fstringStart, L.position, _⟩) (congrArg (· ++ [_]) h.tokens)).trans ?_
    simp [countType]
  finish := by
    intro L below hmode start stop
    refine .finish ?_ rfl rfl ((fstringDepth_append rfl).trans ?_)
    · show L.mode = .fstring :: L.mode.tail
      rw [hmode]
      rfl
    · simp [countType]
      rfl

section
variable {program : List Char} {E : Stop → Prop}

theorem level_pushDedent (L : Lexer) (start stop : Position) (stack : List Nat) :
    Level L { L.pushToken .dedent start stop with indentValues := stack } :=
  (level_pushToken L (by simp [NoFstring]) start stop).trans (Level.of_tokens rfl rfl rfl rfl)

theorem ensures_dedent_level {v : Nat} {start stop : Position} (hE : E .noIndent) (stack : List Nat) (L : Lexer) :
    Ensures E (dedent v start stop stack L) (Level L) := by
  induction stack generalizing L with
  | nil => exact hE
  | cons top below ih =>
    unfold dedent
    simp only [ensures_ite, ensures_ok]
    exact ⟨fun _ => (ih _).mono fun _ h => (level_pushDedent L start stop below).trans h, fun _ => level_frame.refl L⟩

theorem level_dedentAll (stack : List Nat) (L : Lexer) : Level L (dedentAll stack L) := by
  induction stack generalizing L with
  | nil => exact level_frame.refl L
  | cons top below ih =>
    cases below with
    | nil => exact level_frame.refl L
    | cons next rest => exact (level_pushDedent L L.position L.position _).trans (ih _)

theorem ensures_tryReadIndent_level (hE : Aborts E) (hindent : E .noIndent) (L : Lexer) :
    Ensures E (L.tryReadIndent program) fun r => Level L r.2 := by
  have hmeasure : ∀ s v n, Ensures E (computeIndentLevel s v n) fun _ => True := by
    intro s v n
    fun_induction computeIndentLevel s v n with
    | case1 => exact hE.assertion
    | case2 => assumption
    | case3 => trivial
  unfold tryReadIndent
  simp only [ensures_bind, ensures_ite, ensures_pure]
  refine ⟨fun _ => (hmeasure _ _ _).mono fun ⟨v, n⟩ _ => ?_, fun _ => level_frame.refl L⟩
  have hmoved : Level L (L.incrementColumnPosition n) := level_frame.advance L n
  dsimp only
  split
  · exact hindent
  simp only [ensures_bind, ensures_ite, ensures_pure]
  refine ⟨fun _ => ?_, fun _ => ⟨fun _ => ?_, fun _ => hmoved⟩⟩
  · exact hmoved.trans ((level_pushToken _ (by simp [NoFstring]) _ _).trans (Level.of_tokens rfl rfl rfl rfl))
  · exact (ensures_dedent_level hindent _ _).mono fun _ h => hmoved.trans h

theorem level_readEnd (L : Lexer) : Level L L.readEnd := by
  have hnext : Level L { L.incrementRowPosition with cursor := L.cursor + 1 } := Level.of_tokens rfl rfl rfl rfl
  exact hnext.trans ((level_dedentAll _ _).trans (level_pushToken _ (by simp [NoFstring]) _ _))

theorem ensures_turn (hE : Aborts E) (hindent : E .noIndent) (L : Lexer) :
    Ensures E (L.readMoreTokensLoop program) fun r => StackTurn L r.2 := by
  have hnl : NoFstring .nl := by simp [NoFstring]
  unfold readMoreTokensLoop
  simp only [ensures_ite, ensures_ok]
  refine ⟨fun _ => .keep (level_frame.refl L), fun _ => ⟨fun _ => .keep (level_readEnd L), fun _ => ?_⟩⟩
  split
  · exact hE.undefined
  · refine ensures_orElse (level_frame.tryEmptyLine hnl hE L) (fun _ h => .keep h) fun M hM => ?_
    refine ensures_orElse (P := Level L) ?_ (fun _ h => .keep h) fun N hN => ?_
    · exact (level_frame.tryReadComment (by simp [NoFstring]) hnl (by simp [NoFstring]) hE M).mono fun _ h => hM.trans h
    refine ensures_orElse (P := Level L) ?_ (fun _ h => .keep h) fun S hS => ?_
    · exact (ensures_tryReadIndent_level hE hindent N).mono fun _ h => hN.trans h
    · exact (level_frame.readTokens hE S).mono fun _ h => .before hS h
  next below hmode => exact level_frame.tryFstring hE hmode

end

/-! ## Within an f-string -/

/-- In `M` some `k` of the f-strings have not ended that the stretch from `L` on has started; the first of them is the
last mode of the front. -/
structure Within (L : Lexer) (k : Nat) (M : Lexer) : Prop where
  mode : ∃ ms, M.mode = ms ++ L.mode ∧ ms.count .fstring = k ∧ ms.getLast? = some .fstring
  quote : ∃ qs, M.quote = qs ++ L.quote ∧ qs.length = k
  level : ∃ ns, M.fstringParenLevel = ns ++ L.fstringParenLevel ∧ ns.length = k
  depth : M.fstringDepth = L.fstringDepth + k

theorem tail_front {α : Type} {xs ys zs : List α} {k : Nat} (h : xs = ys ++ zs) (hk : ys.length = k + 1) :
    ∃ ys', xs.tail = ys' ++ zs ∧ ys'.length = k := by
  cases ys with
  | nil => cases hk
  | cons y ys => exact ⟨ys, by rw [h]; rfl, Nat.succ.inj hk⟩

/-- The end of an f-string takes one from the front; the last one takes all there is. -/
theorem Within.finish {L M M' : Lexer} {k : Nat} (h : Within L (k + 1) M) (hmode : M.mode = .fstring :: M'.mode)
    (hquote : M'.quote = M.quote.tail) (hlevel : M'.fstringParenLevel = M.fstringParenLevel.tail)
    (hdepth : M'.fstringDepth = M.fstringDepth - 1) :
    Within L k M' ∨ Level L M' := by
  obtain ⟨⟨ms, hms, hcount, hlast⟩, ⟨qs, hqs, hqlen⟩, ⟨ns, hns, hnlen⟩, hd⟩ := h
  obtain ⟨qs', hqs', hqlen'⟩ := tail_front hqs hqlen
  obtain ⟨ns', hns', hnlen'⟩ := tail_front hns hnlen
  cases ms with
  | nil => cases hlast
  | cons m ms =>
    obtain ⟨rfl, htail⟩ := List.cons.inj (hmode.symm.trans hms)
    have hcount' : ms.count .fstring = k := by simpa using hcount
    cases k with
    | zero =>
      have hnil : ms = [] := by
        cases ms with
        | nil => rfl
        | cons m ms =>
          -- the last mode of a longer front would be an f-string that has not ended
          rw [List.getLast?_cons_cons] at hlast
          exact absurd (List.mem_of_getLast? hlast) (List.count_eq_zero.1 hcount')
      refine .inr ⟨htail.trans (by rw [hnil]; rfl), ?_, ?_, by rw [hdepth, hd]; omega⟩
      · rw [hquote, hqs', List.length_eq_zero_iff.1 hqlen', List.nil_append]
      · rw [hlevel, hns', List.length_eq_zero_iff.1 hnlen', List.nil_append]
    | succ k =>
      refine .inl ⟨⟨ms, htail, hcount', ?_⟩, ⟨qs', hquote.trans hqs', hqlen'⟩, ⟨ns', hlevel.trans hns', hnlen'⟩, ?_⟩
      · cases ms with
        | nil => cases hcount'
        | cons m ms => rwa [List.getLast?_cons_cons] at hlast
      · rw [hdepth, hd]
        omega

theorem Within.leave {L M M' : Lexer} {k : Nat} {below : List Mode} (h : Within L k M)
    (hbefore : M.mode = .normal :: .fstring :: below) (hmode : M'.mode = .fstring :: below) :
    ∃ ms, M'.mode = ms ++ L.mode ∧ ms.count .fstring = k ∧ ms.getLast? = some .fstring := by
  obtain ⟨ms, hms, hcount, hlast⟩ := h.mode
  cases ms with
  | nil => cases hlast
  | cons m ms =>
    obtain ⟨rfl, htail⟩ := List.cons.inj (hbefore.symm.trans hms)
    refine ⟨ms, hmode.trans htail, by simpa using hcount, ?_⟩
    cases ms with
    | nil => cases hlast
    | cons m ms => rwa [List.getLast?_cons_cons] at hlast

/-- One step within an f-string stays within it, or ends it and leaves the stacks it started with. -/
theorem Within.step {L M M' : Lexer} {k : Nat} (h : Within L (k + 1) M) (hturn : StackTurn M M') :
    (∃ k', Within L k' M') ∨ Level L M' := by
  cases hturn with
  | keep hlevel =>
    refine .inl ⟨k + 1, ?_, ?_, ?_, hlevel.depth.trans h.depth⟩
    · rw [hlevel.mode]
      exact h.mode
    · rw [hlevel.quote]
      exact h.quote
    · rw [hlevel.fstringParenLevel]
      exact h.level
  | begin mode quote level depth =>
    obtain ⟨⟨ms, hms, hcount, hlast⟩, ⟨qs, hqs, hqlen⟩, ⟨ns, hns, hnlen⟩, hd⟩ := h
    refine .inl ⟨k + 2, ⟨.fstring :: ms, mode.trans (congrArg _ hms), by simpa using hcount, ?_⟩,
      ⟨_ :: qs, quote.trans (congrArg _ hqs), congrArg (· + 1) hqlen⟩,
      ⟨_ :: ns, level.trans (congrArg _ hns), congrArg (· + 1) hnlen⟩, ?_⟩
    · cases ms with
      | nil => rfl
      | cons m ms => rwa [List.getLast?_cons_cons]
    · rw [depth, hd]
      omega
  | finish mode quote level depth =>
    exact (h.finish mode quote level depth).imp_left fun hwithin => ⟨k, hwithin⟩
  | enter _ mode quote level depth =>
    obtain ⟨ms, hms, hcount, hlast⟩ := h.mode
    refine .inl ⟨k + 1, ⟨.normal :: ms, mode.trans (congrArg _ hms), by simpa using hcount, ?_⟩, ?_, ?_,
      depth.trans h.depth⟩
    · cases ms with
      | nil => cases hlast
      | cons m ms => rwa [List.getLast?_cons_cons]
    · rw [quote]
      exact h.quote
    · rw [level]
      exact h.level
  | leave before mode quote level depth =>
    refine .inl ⟨k + 1, h.leave before mode, ?_, ?_, depth.trans h.depth⟩
    · rw [quote]
      exact h.quote
    · rw [level]
      exact h.level

section
variable (program : List Char)

/-- The states from the step that pushes an `FSTRING_START` on, as far as the step that pushes its `FSTRING_END`: the
f-strings that start in between end before it. -/
inductive FstringRun (L : Lexer) : Lexer → Prop
  | start {M : Lexer} {read : Bool} : L.readMoreTokensLoop program = .ok (read, M) →
      M.fstringDepth = L.fstringDepth + 1 → FstringRun L M
  | step {M M' : Lexer} {read : Bool} : FstringRun L M → L.fstringDepth < M.fstringDepth →
      M.readMoreTokensLoop program = .ok (read, M') → FstringRun L M'

end

section
variable {program : List Char} {L M : Lexer}

/-- A run is within its f-string, or has ended it and left the stacks it started with. -/
theorem FstringRun.within (h : FstringRun program L M) : (∃ k, Within L k M) ∨ Level L M := by
  have hE : Aborts fun _ : Stop => True := ⟨trivial, trivial, trivial⟩
  induction h with
  | start hstep hdepth =>
    cases (ensures_turn hE trivial L).of_ok hstep with
    | begin mode quote level depth =>
      exact .inl ⟨1, ⟨[.fstring], mode, rfl, rfl⟩, ⟨[_], quote, rfl⟩, ⟨[_], level, rfl⟩, depth⟩
    | keep h =>
      have hdepth' : L.fstringDepth = L.fstringDepth + 1 := h.depth.symm.trans hdepth
      omega
    | finish mode quote level depth =>
      have hdepth' : L.fstringDepth - 1 = L.fstringDepth + 1 := depth.symm.trans hdepth
      omega
    | enter before mode quote level depth =>
      have hdepth' : L.fstringDepth = L.fstringDepth + 1 := depth.symm.trans hdepth
      omega
    | leave before mode quote level depth =>
      have hdepth' : L.fstringDepth = L.fstringDepth + 1 := depth.symm.trans hdepth
      omega
  | step _ hinside hstep ih =>
    rcases ih with ⟨k, hk⟩ | hended
    · cases k with
      | zero =>
        have hdepth := hk.depth
        omega
      | succ k => exact hk.step ((ensures_turn hE trivial _).of_ok hstep)
    · have hdepth := hended.depth
      omega

/-- **F-strings.** When the `FSTRING_END` of an f-string has been pushed, the stacks of the mode, of the quotes and of
the depths at which the f-strings started are those before its `FSTRING_START`. -/
theorem stacks_restored (h : FstringRun program L M) (hend : M.fstringDepth = L.fstringDepth) :
    M.mode = L.mode ∧ M.quote = L.quote ∧ M.fstringParenLevel = L.fstringParenLevel := by
  rcases h.within with ⟨k, hk⟩ | hended
  · obtain ⟨ms, -, hcount, hlast⟩ := hk.mode
    have hdepth := hk.depth
    obtain rfl : k = 0 := by omega
    exact absurd (List.mem_of_getLast? hlast) (List.count_eq_zero.1 hcount)
  · exact ⟨hended.mode, hended.quote, hended.fstringParenLevel⟩

end

/-- A set in a replacement field. -/
def displayProgram : List Char := ['f', '"', '{', ' ', '{', 'x', '}', ' ', '}', '"', Char.ofNat 10]

/-- The state after some steps, where none aborts. -/
def stateAfter (program : List Char) (n : Nat) : Lexer :=
  match readTimes program n {} with
  | .ok L => L
  | .error _ => {}

theorem display_steps : ∀ n < 7, (stateAfter displayProgram n).readMoreTokensLoop displayProgram =
    .ok (true, stateAfter displayProgram (n + 1)) := by
  decide +kernel

theorem display_inside : ∀ n < 6, fstringDepth {} < (stateAfter displayProgram (n + 1)).fstringDepth := by
  decide +kernel

theorem display_run : FstringRun displayProgram {} (stateAfter displayProgram 7) := by
  have hstart : FstringRun displayProgram {} (stateAfter displayProgram 1) :=
    .start (display_steps 0 (by decide)) (by decide +kernel)
  have hstep : ∀ n < 6, FstringRun displayProgram {} (stateAfter displayProgram (n + 1)) →
      FstringRun displayProgram {} (stateAfter displayProgram (n + 2)) :=
    fun n hn h => .step h (display_inside n hn) (display_steps (n + 1) (by omega))
  exact hstep 5 (by decide) (hstep 4 (by decide) (hstep 3 (by decide) (hstep 2 (by decide)
    (hstep 1 (by decide) (hstep 0 (by decide) hstart)))))

theorem display_ends : (stateAfter displayProgram 7).fstringDepth = fstringDepth {} := by decide +kernel

theorem stacks_restored_display :
    (stateAfter displayProgram 7).mode = [.normal] ∧ (stateAfter displayProgram 7).quote = [] ∧
      (stateAfter displayProgram 7).fstringParenLevel = [] :=
  stacks_restored display_run display_ends

/-- `m_parenthesis_level` is no stack and is not restored: the bracket that the set has opened is still counted behind the
f-string. -/
theorem parenthesisLevel_raised : ¬ ∀ {program : List Char} {L M : Lexer}, FstringRun program L M →
    M.fstringDepth = L.fstringDepth → M.parenthesisLevel = L.parenthesisLevel := by
  intro h
  have hlevel : (stateAfter displayProgram 7).parenthesisLevel = 1 := by decide +kernel
  exact absurd (hlevel.symm.trans (h display_run display_ends)) (by decide)

end Lexer

end Pylang.Lex
