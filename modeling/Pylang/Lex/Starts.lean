/-
Where tokens start. Of two tokens that start at one offset the first has no
text, or is a block that ends: all blocks that one line ends share its blanks.
Nothing is asked of the program; this holds in every state the lexer reaches.
-/
import Pylang.Lex.Positions

namespace Pylang.Lex

/-- Tokens that may have no text, or share it. -/
def textless : List TokenType := [.endmarker, .comment, .newline, .nl, .indent, .dedent, .fstringMiddle, .fstringEnd]

/-- The tokens start one behind the other, but for those without text, and all before an offset. -/
structure Ranged (ts : List Token) (o : Nat) : Prop where
  separate : ts.Pairwise fun t u => u.start.pointer = t.start.pointer → t.tokenType ∈ textless
  before : ∀ t ∈ ts, t.start.pointer < o ∨ t.start.pointer = o ∧ t.tokenType ∈ textless

section
variable {ts : List Token} {o o' : Nat} {type : TokenType} {start stop : Position}

theorem Ranged.mono (h : Ranged ts o) (hle : o ≤ o') : Ranged ts o' := by
  refine ⟨h.separate, fun t ht => ?_⟩
  rcases h.before t ht with hlt | ⟨heq, hless⟩
  · exact .inl (Nat.lt_of_lt_of_le hlt hle)
  · rcases Nat.lt_or_eq_of_le hle with hlt | rfl
    · exact .inl (heq ▸ hlt)
    · exact .inr ⟨heq, hless⟩

/-- A token that starts at the offset. -/
theorem Ranged.push (h : Ranged ts o) (hstart : start.pointer = o)
    (hnext : o < o' ∨ o ≤ o' ∧ type ∈ textless) : Ranged (ts ++ [⟨type, start, stop⟩]) o' := by
  refine ⟨List.pairwise_append.mpr ⟨h.separate, List.pairwise_singleton _ _, fun t ht u hu heq => ?_⟩, fun t ht => ?_⟩
  · obtain rfl := List.mem_singleton.mp hu
    have heq : o = t.start.pointer := hstart.symm.trans heq
    rcases h.before t ht with hlt | ⟨-, hless⟩
    · omega
    · exact hless
  · rcases List.mem_append.mp ht with ht | ht
    · exact (h.mono (by omega)).before t ht
    · obtain rfl := List.mem_singleton.mp ht
      rcases hnext with hlt | ⟨hle, hless⟩
      · exact .inl (hstart ▸ hlt)
      · rcases Nat.lt_or_eq_of_le hle with hlt | heq
        · exact .inl (hstart ▸ hlt)
        · exact .inr ⟨hstart.trans heq, hless⟩

end

namespace Lexer

/-- The state between two readers. -/
structure Spaced (L : Lexer) : Prop where
  tokens : Ranged L.tokens L.cursor
  pointer : L.position.pointer = L.cursor

section
variable {program : List Char} {L M : Lexer} {type : TokenType} {stop : Position}

theorem Spaced.of_same (h : Spaced L) (htokens : M.tokens = L.tokens) (hcursor : L.cursor ≤ M.cursor)
    (hpointer : M.position.pointer = M.cursor) : Spaced M :=
  ⟨htokens ▸ h.tokens.mono hcursor, hpointer⟩

theorem Spaced.advance (h : Spaced L) (n : Nat) : Spaced (L.advance n) := h.of_same rfl (Nat.le_add_right _ _) rfl

theorem Spaced.incrementRowPosition (h : Spaced L) : Spaced L.incrementRowPosition := h.of_same rfl (Nat.le_refl _) rfl

/-- A token from a state to a later one. -/
theorem Spaced.token (h : Spaced L) (htokens : M.tokens = L.tokens) (hpointer : M.position.pointer = M.cursor)
    (hnext : L.cursor < M.cursor ∨ L.cursor ≤ M.cursor ∧ type ∈ textless) :
    Spaced (M.pushToken type L.position stop) := by
  refine ⟨?_, hpointer⟩
  show Ranged (M.tokens ++ _) M.cursor
  rw [htokens]
  exact h.tokens.push h.pointer hnext

theorem Spaced.pushOperation (h : Spaced L) (htokens : M.tokens = L.tokens) (hcursor : M.cursor = L.cursor) {n : Nat}
    (hn : 0 < n) : Spaced (L.pushOperation M type n).2 := by
  refine h.token (M := M.advance n) htokens rfl (.inl ?_)
  show L.cursor < M.cursor + n
  omega

theorem Spaced.pushEmptyLine (h : Spaced L) : Spaced L.pushEmptyLine :=
  (h.token (M := L.incrementColumnPosition 1) rfl rfl (.inl (Nat.lt_succ_self _))).incrementRowPosition

theorem Spaced.pushNewLine (h : Spaced L) : Spaced L.pushNewLine :=
  (h.token (M := L.incrementColumnPosition 1) rfl rfl (.inl (Nat.lt_succ_self _))).incrementRowPosition

/-- What a reader leaves. -/
abbrev Leaves (x : Except Stop (Bool × Lexer)) : Prop := Ensures (fun _ => True) x fun r => Spaced r.2

theorem Spaced.advanceWhile (h : Spaced L) (condition : Char → Bool) :
    Ensures (fun _ => True) (L.advanceWhile program condition) Spaced := by
  refine (ensures_advanceWhile aborts_true L condition).mono fun M hM => ?_
  obtain ⟨n, rfl, -, -⟩ := hM
  exact h.advance n

theorem Spaced.advanceIf (h : Spaced L) {condition : Char → Bool} (hzero : condition (Char.ofNat 0) = false) :
    Leaves (L.advanceIf program condition) := by
  refine (ensures_advanceIf aborts_true L hzero).mono fun r hr => ?_
  rcases hr with ⟨rfl, -⟩ | ⟨c, -, -, rfl⟩
  · exact h
  · exact h.advance 1

/-! ## Lines and indentation -/

theorem Spaced.tryReadComment (h : Spaced L) : Leaves (L.tryReadComment program) := by
  unfold Lexer.tryReadComment
  simp only [ensures_bind]
  refine (ensures_commentStart aborts_true L).mono fun start _ => ?_
  cases start with
  | none => exact h
  | some start =>
    simp only [ensures_bind, ensures_ite, ensures_pure]
    refine (ensures_advanceWhile aborts_true _ _).mono fun read hread => ?_
    obtain ⟨n, rfl, -, -⟩ := hread
    have hhash := h.advance start
    have hpushed : Spaced ((((L.advance start).advance 1).incrementColumnPosition n).pushToken .comment
        (L.advance start).position (((L.advance start).advance 1).incrementColumnPosition n).position) := by
      refine hhash.token rfl rfl (.inl ?_)
      show L.cursor + start < L.cursor + start + 1 + n
      omega
    exact ⟨fun _ => hpushed.pushEmptyLine, fun _ => hpushed.pushNewLine⟩

theorem Spaced.tryEmptyLine (h : Spaced L) : Leaves (L.tryEmptyLine program) := by
  unfold Lexer.tryEmptyLine
  simp only [ensures_bind, ensures_ite, ensures_pure]
  refine ensures_peek aborts_true fun c _ => ⟨fun _ => ⟨fun _ => h.pushEmptyLine, fun _ => h⟩, fun _ => ?_⟩
  refine (ensures_advanceWhile aborts_true _ _).mono fun skipped hskipped => ?_
  obtain ⟨n, rfl, -, -⟩ := hskipped
  have hmoved := h.advance n
  refine ⟨fun _ => hmoved, fun _ => ensures_peek aborts_true fun d _ => ⟨fun _ => hmoved.pushEmptyLine, fun _ => ?_⟩⟩
  exact h.of_same rfl (Nat.le_refl _) h.pointer

/-- The blocks that a line ends all start where it does. -/
theorem dedent_ranged {o : Nat} {value : Nat} {start stop : Position} (hstart : start.pointer = o) (values : List Nat)
    (h : Ranged L.tokens o) : Ensures (fun _ => True) (dedent value start stop values L) fun M =>
      Ranged M.tokens o ∧ M.cursor = L.cursor ∧ M.position = L.position := by
  induction values generalizing L with
  | nil => trivial
  | cons top below ih =>
    unfold dedent
    split
    · exact ih (L := { L.pushToken .dedent start stop with indentValues := below })
        (h.push hstart (.inr ⟨Nat.le_refl o, by decide⟩))
    · exact ⟨h, rfl, rfl⟩

theorem Spaced.tryReadIndent (h : Spaced L) : Leaves (L.tryReadIndent program) := by
  unfold Lexer.tryReadIndent
  simp only [ensures_bind, ensures_ite, ensures_pure]
  refine ⟨fun _ => ?_, fun _ => h⟩
  cases computeIndentLevel (L.rest program) 0 0 with
  | error e => trivial
  | ok r =>
    obtain ⟨value, increment⟩ := r
    rw [ensures_ok]
    dsimp only
    have hmoved := h.advance increment
    cases L.indentValues with
    | nil => trivial
    | cons top below =>
      simp only [ensures_ite, ensures_bind, ensures_pure]
      refine ⟨fun _ => ?_, fun _ => ⟨fun _ => ?_, fun _ => hmoved⟩⟩
      · have hpushed : Spaced ((L.incrementColumnPosition increment).pushToken .indent L.position
            (L.incrementColumnPosition increment).position) :=
          h.token rfl rfl (.inr ⟨Nat.le_add_right _ _, by decide⟩)
        exact hpushed.of_same rfl (Nat.le_refl _) rfl
      · refine (dedent_ranged h.pointer _ (L := L.incrementColumnPosition increment) h.tokens).mono fun M hM => ?_
        obtain ⟨htokens, hcursor, hposition⟩ := hM
        rw [← h.pointer, h.pointer] at htokens
        refine ⟨htokens.mono ?_, ?_⟩
        · rw [hcursor]
          exact Nat.le_add_right _ _
        · rw [hcursor, hposition]
          rfl

theorem Spaced.tryReadNewline (h : Spaced L) : Leaves (L.tryReadNewline program) := by
  unfold Lexer.tryReadNewline peekNewline
  simp only [ensures_bind, ensures_ite, ensures_pure]
  exact (ensures_current aborts_true L).mono fun c _ => ⟨fun _ => h.pushNewLine, fun _ => h⟩

theorem Spaced.tryReadBackslash (h : Spaced L) : Ensures (fun _ => True) (L.tryReadBackslash program) Spaced := by
  unfold Lexer.tryReadBackslash tryReadSpace
  simp only [ensures_bind]
  refine (h.advanceWhile _).mono fun M hM => (hM.advanceIf (by decide)).mono fun r hN => ?_
  obtain ⟨backslash, N⟩ := r
  simp only [ensures_bind, ensures_ite, ensures_pure]
  refine ⟨fun _ => (Spaced.advanceIf hN (by decide)).mono fun r hN' => ?_, fun _ => hN⟩
  obtain ⟨newline, N'⟩ := r
  exact ⟨fun _ => Spaced.incrementRowPosition hN', fun _ => trivial⟩

/-! ## Names and operators -/

theorem Spaced.tryReadName (h : Spaced L) : Leaves (L.tryReadName program) := by
  unfold Lexer.tryReadName
  simp only [ensures_bind, ensures_ite, ensures_pure]
  refine ⟨fun _ => h, fun _ => ensures_peek aborts_true fun c _ => ⟨fun _ => h, fun _ => ?_⟩⟩
  refine (ensures_advanceIf aborts_true L (by decide)).mono fun r hr => ?_
  rcases hr with ⟨rfl, -⟩ | ⟨d, -, -, rfl⟩
  · exact ⟨fun _ => h, fun hread => absurd rfl hread⟩
  · refine ⟨fun hread => absurd hread (by simp), fun _ => ?_⟩
    refine (ensures_advanceWhile aborts_true _ _).mono fun read hread => ?_
    obtain ⟨n, rfl, -, -⟩ := hread
    refine h.token rfl rfl (.inl ?_)
    show L.cursor < L.cursor + 1 + n
    omega

/-- The tokens and the place are as they were. -/
structure Unmoved (L M : Lexer) : Prop where
  tokens : M.tokens = L.tokens
  cursor : M.cursor = L.cursor
  position : M.position = L.position

theorem oneCharacter_unmoved (L : Lexer) :
    Ensures (fun _ => True) (L.tryReadOperationWithOneCharacter program) fun r => Unmoved L r.2 := by
  have hself : Unmoved L L := ⟨rfl, rfl, rfl⟩
  have hclose (type : TokenType) : Ensures (fun _ => True) (L.closeParenthesis type) fun r => Unmoved L r.2 := by
    unfold closeParenthesis
    split
    · exact ⟨rfl, rfl, rfl⟩
    · trivial
  have hpop (type : TokenType) : Ensures (fun _ => True) (L.popNormal type) fun r => Unmoved L r.2 := by
    unfold popNormal
    split
    · exact ⟨rfl, rfl, rfl⟩
    · trivial
  have hopen (type : TokenType) : Ensures (fun _ => True) (L.openParenthesis type) fun r => Unmoved L r.2 := ⟨rfl, rfl, rfl⟩
  unfold tryReadOperationWithOneCharacter
  simp only [ensures_bind, ensures_ite, ensures_pure]
  refine ensures_peek aborts_true fun c _ => ⟨fun _ => hself, fun _ => ⟨fun _ => hopen _, fun _ => ⟨fun _ => hclose _, fun _ =>
    ⟨fun _ => hopen _, fun _ => ⟨fun _ => hclose _, fun _ => ⟨fun _ => hopen _, fun _ =>
    ⟨fun _ => ⟨fun _ => hpop _, fun _ => hclose _⟩, fun _ => ⟨fun _ => ⟨fun _ => ?_, fun _ => hself⟩, fun _ => hself⟩⟩⟩⟩⟩⟩⟩⟩
  split
  · trivial
  · simp only [ensures_ite, ensures_pure]
    exact ⟨fun _ => hpop _, fun _ => hself⟩

theorem Spaced.tryReadOperation (h : Spaced L) : Leaves (L.tryReadOperation program) := by
  unfold Lexer.tryReadOperation
  simp only [ensures_ite, ensures_pure]
  refine ⟨fun _ => h, fun _ => ?_⟩
  cases L.tryReadOperationWithThreeCharacters program with
  | some type => exact h.pushOperation rfl rfl (by decide)
  | none =>
    cases L.tryReadOperationWithTwoCharacters program with
    | some type => exact h.pushOperation rfl rfl (by decide)
    | none =>
      simp only [ensures_bind]
      refine (oneCharacter_unmoved L).mono fun r hr => ?_
      obtain ⟨type, read⟩ := r
      have hcursor : read.cursor = L.cursor := hr.cursor
      have hposition : read.position = L.position := hr.position
      cases type with
      | some type => exact h.pushOperation hr.tokens hcursor (by decide)
      | none =>
        refine h.of_same hr.tokens (Nat.le_of_eq hcursor.symm) ?_
        show read.position.pointer = read.cursor
        rw [hcursor, hposition]
        exact h.pointer

/-! ## Numbers -/

theorem expNumber_pos (L : Lexer) (n : Nat) :
    Ensures (fun _ => True) (L.expNumber program n) fun r => ∀ m, r = some m → 0 < m := by
  have hdigits (k : Nat) : Ensures (fun _ => True) (L.parseDigits program (k + 1) Char.isDigit) fun r =>
      ∀ m, r = some m → 0 < m :=
    (ensures_parseDigits aborts_true (by decide)).mono fun r hr m hm => Nat.lt_of_lt_of_le (Nat.succ_pos k) (hr m hm).1
  unfold expNumber
  simp only [ensures_bind, ensures_ite, ensures_pure]
  refine ensures_peek aborts_true fun c _ => ⟨fun _ => ensures_peek aborts_true fun d _ => ⟨fun _ _ hm => (by cases hm), fun _ => ?_⟩,
    fun _ => ?_⟩
  all_goals exact ensures_peek aborts_true fun _ _ => ensures_peek aborts_true fun _ _ => ⟨fun _ _ hm => (by cases hm), fun _ => hdigits _⟩

theorem pointFraction_pos (L : Lexer) (n : Nat) :
    Ensures (fun _ => True) (L.pointFraction program n) fun r => ∀ m, r = some m → 0 < m := by
  unfold pointFraction
  simp only [ensures_bind, ensures_ite, ensures_pure]
  refine ensures_peek aborts_true fun c _ => ⟨fun _ _ hm => (by cases hm), fun _ => ensures_peek aborts_true fun d _ =>
    ⟨fun _ m hm => Option.some.inj hm ▸ Nat.succ_pos n, fun _ => ?_⟩⟩
  exact (ensures_parseDigits aborts_true (by decide)).mono fun r hr m hm =>
    Nat.lt_of_lt_of_le (Nat.succ_pos _) (hr m hm).1

theorem floatNumber_pos (L : Lexer) (n : Nat) :
    Ensures (fun _ => True) (L.floatNumber program n) fun r => ∀ m, r = some m → 0 < m := by
  have hexp : Ensures (fun _ => True) (L.expFloatNumber program n) fun r => ∀ m, r = some m → 0 < m := by
    unfold expFloatNumber
    simp only [ensures_bind, ensures_ite, ensures_pure]
    refine ensures_peek aborts_true fun c _ => ⟨fun _ _ hm => (by cases hm), fun _ => ensures_peek aborts_true fun d _ => ?_⟩
    refine (ensures_parseDigits aborts_true (by decide)).mono fun r _ => ?_
    cases r with
    | none => exact fun _ hm => by cases hm
    | some m => exact expNumber_pos L m
  have hpoint : Ensures (fun _ => True) (L.pointFloatNumber program n) fun r => ∀ m, r = some m → 0 < m := by
    unfold pointFloatNumber
    simp only [ensures_bind, ensures_ite]
    refine ensures_peek aborts_true fun c _ => ⟨fun _ => ?_, fun _ => pointFraction_pos L n⟩
    refine (ensures_parseDigits aborts_true (by decide)).mono fun r _ => ?_
    cases r with
    | none => exact fun _ hm => by cases hm
    | some m => exact pointFraction_pos L m
  unfold floatNumber
  rw [ensures_bind]
  refine hexp.mono fun r hr => ?_
  cases r with
  | some m => exact hr
  | none => exact hpoint

theorem intNumber_pos (L : Lexer) (n : Nat) :
    Ensures (fun _ => True) (L.intNumber program n) fun r => ∀ m, r = some m → 0 < m := by
  have hprefixed {lower upper : Char} {isValue : Char → Bool} (hv : isValue '\n' = false) :
      Ensures (fun _ => True) (L.prefixedNumber program lower upper isValue n) fun r => ∀ m, r = some m → 0 < m := by
    unfold prefixedNumber
    simp only [ensures_bind, ensures_ite, ensures_pure]
    refine ensures_peek aborts_true fun c _ => ⟨fun _ _ hm => (by cases hm), fun _ => ensures_peek aborts_true fun d _ =>
      ⟨fun _ => ensures_peek aborts_true fun d' _ => ⟨fun _ _ hm => (by cases hm), fun _ => ?_⟩, fun _ => ?_⟩⟩
    all_goals
      refine ensures_peek aborts_true fun _ _ => ⟨fun _ _ hm => (by cases hm), fun _ => ?_⟩
      refine (ensures_parseDigits aborts_true hv).mono fun r _ => ?_
      cases r with
      | none => exact fun _ hm => by cases hm
      | some m =>
        simp only [ensures_ite, ensures_pure]
        exact ⟨fun _ _ hm => (by cases hm), fun hlarge m' hm => Option.some.inj hm ▸ by omega⟩
  have hdec : Ensures (fun _ => True) (L.decNumber program n) fun r => ∀ m, r = some m → 0 < m := by
    unfold decNumber
    simp only [ensures_bind, ensures_ite, ensures_throw]
    refine ensures_peek aborts_true fun c _ => ⟨fun _ => trivial, fun _ => ?_⟩
    refine (ensures_parseDigits aborts_true (by decide)).mono fun r _ => ?_
    cases r with
    | none => exact fun _ hm => by cases hm
    | some m =>
      simp only [ensures_bind, ensures_ite, ensures_pure]
      refine ⟨fun hpos m' hm => Option.some.inj hm ▸ hpos, fun _ => ensures_peek aborts_true fun d _ =>
        ⟨fun _ _ hm => (by cases hm), fun _ => ?_⟩⟩
      refine (ensures_parseDigits aborts_true (by decide)).mono fun r _ => ?_
      cases r with
      | none => exact fun _ hm => by cases hm
      | some k =>
        simp only [ensures_ite, ensures_pure]
        exact ⟨fun hpos m' hm => Option.some.inj hm ▸ hpos, fun _ _ hm => (by cases hm)⟩
  unfold intNumber
  rw [ensures_bind]
  refine Ensures.mono (hprefixed (by decide)) fun r hr => ?_
  cases r with
  | some m => exact hr
  | none =>
    simp only [ensures_bind]
    refine Ensures.mono (hprefixed (by decide)) fun r hr => ?_
    cases r with
    | some m => exact hr
    | none =>
      simp only [ensures_bind]
      refine Ensures.mono (hprefixed (by decide)) fun r hr => ?_
      cases r with
      | some m => exact hr
      | none => exact hdec

theorem imagNumber_pos (L : Lexer) (n : Nat) :
    Ensures (fun _ => True) (L.imagNumber program n) fun r => ∀ m, r = some m → 0 < m := by
  have hinteger : Ensures (fun _ => True) (L.imagInteger program n) fun r => ∀ m, r = some m → 0 < m := by
    unfold imagInteger
    simp only [ensures_bind, ensures_ite, ensures_pure]
    refine ensures_peek aborts_true fun c _ => ⟨fun _ _ hm => (by cases hm), fun _ => ?_⟩
    refine (ensures_parseDigits aborts_true (by decide)).mono fun r _ => ?_
    cases r with
    | none => exact fun _ hm => by cases hm
    | some m =>
      simp only [ensures_bind, ensures_ite, ensures_pure]
      exact ensures_peek aborts_true fun d _ => ⟨fun _ _ hm => (by cases hm), fun _ m' hm => Option.some.inj hm ▸ Nat.succ_pos m⟩
  unfold imagNumber
  rw [ensures_bind]
  refine hinteger.mono fun r hr => ?_
  cases r with
  | some m => exact hr
  | none =>
    simp only [ensures_bind]
    refine (floatNumber_pos L n).mono fun r hr => ?_
    cases r with
    | none => exact fun _ hm => by cases hm
    | some m =>
      simp only [ensures_bind, ensures_ite, ensures_pure]
      exact ensures_peek aborts_true fun c _ => ⟨fun _ m' hm => Option.some.inj hm ▸ Nat.succ_pos m, fun _ _ hm => (by cases hm)⟩

theorem Spaced.tryReadNumber (h : Spaced L) : Leaves (L.tryReadNumber program) := by
  have hpush (stop : Nat) (hpos : 0 < stop) : Spaced ((L.incrementColumnPosition stop).pushToken .number L.position
      (L.incrementColumnPosition stop).position) :=
    h.token rfl rfl (.inl (Nat.lt_add_of_pos_right hpos))
  unfold Lexer.tryReadNumber
  simp only [ensures_bind, ensures_ite, ensures_pure]
  refine ⟨fun _ => h, fun _ => (imagNumber_pos L 0).mono fun r hr => ?_⟩
  cases r with
  | some stop => exact hpush stop (hr stop rfl)
  | none =>
    simp only [ensures_bind]
    refine (floatNumber_pos L 0).mono fun r hr => ?_
    cases r with
    | some stop => exact hpush stop (hr stop rfl)
    | none =>
      simp only [ensures_bind]
      refine (intNumber_pos L 0).mono fun r hr => ?_
      cases r with
      | some stop => exact hpush stop (hr stop rfl)
      | none => exact h

/-! ## Strings and f-strings -/

/-- The end of a string is behind the quotes it starts with. -/
structure Behind (n : Nat) (L M : Lexer) : Prop where
  tokens : M.tokens = L.tokens
  cursor : L.cursor + n < M.cursor
  pointer : M.position.pointer = M.cursor

theorem Behind.of_le {n n' : Nat} {L L' M : Lexer} (h : Behind n L M) (htokens : L.tokens = L'.tokens)
    (hle : L'.cursor + n' ≤ L.cursor + n) : Behind n' L' M :=
  ⟨h.tokens.trans htokens, Nat.lt_of_le_of_lt hle h.cursor, h.pointer⟩

theorem behind_advance {n k : Nat} (L : Lexer) (hlt : n < k) : Behind n L (L.advance k) :=
  ⟨rfl, Nat.add_lt_add_left hlt _, rfl⟩

theorem quotedString_behind (q : Char) (s : List Char) (n : Nat) (L : Lexer) :
    Ensures (fun _ => True) (quotedString q s n L) (Behind n L) := by
  fun_induction quotedString q s n L with
  | case1 | case2 => trivial
  | case3 n L _ ih => exact ih.mono fun M hM => hM.of_le rfl (Nat.le_add_right (L.cursor + n) 2)
  | case4 n L _ _ _ ih => exact ih.mono fun M hM => hM.of_le rfl (Nat.le_add_right (L.cursor + n) 2)
  | case5 => exact behind_advance _ (Nat.lt_succ_self _)
  | case6 _ _ n L _ _ ih => exact ih.mono fun M hM => hM.of_le rfl (Nat.le_succ (L.cursor + n))

theorem tripleQuotedString_behind (q : Char) (s : List Char) (n : Nat) (L : Lexer) :
    Ensures (fun _ => True) (tripleQuotedString q s n L) (Behind n L) := by
  fun_induction tripleQuotedString q s n L with
  | case1 | case2 | case5 | case6 => trivial
  | case3 n L _ ih => exact ih.mono fun M hM => hM.of_le rfl (Nat.le_add_right (L.cursor + n) 2)
  | case4 n L _ _ _ ih => exact ih.mono fun M hM => hM.of_le rfl (Nat.le_add_right (L.cursor + n) 2)
  | case7 => exact behind_advance _ (by omega)
  | case8 | case9 | case10 | case11 =>
    rename Ensures _ _ _ => ih
    exact ih.mono fun M hM => hM.of_le rfl (Nat.le_succ _)

theorem Spaced.pushStringToken (h : Spaced L) {n : Nat} (hM : Behind n L M) (isFstring : Bool) (quote : Quote) {skip : Nat}
    (hskip : 0 < skip) : Spaced (L.pushStringToken isFstring quote skip M) := by
  unfold Lexer.pushStringToken
  split
  · have hpushed : Spaced (({ M with cursor := L.cursor, position := L.position, quote := quote :: M.quote }.advance skip
        ).pushToken .fstringStart L.position
          ({ M with cursor := L.cursor, position := L.position, quote := quote :: M.quote }.advance skip).position) :=
      h.token hM.tokens rfl (.inl (Nat.lt_add_of_pos_right hskip))
    exact hpushed.of_same rfl (Nat.le_refl _) rfl
  · exact h.token hM.tokens hM.pointer (.inl (Nat.lt_of_le_of_lt (Nat.le_add_right _ n) hM.cursor))

theorem Spaced.tryReadString (h : Spaced L) : Leaves (L.tryReadString program) := by
  unfold Lexer.tryReadString
  simp only [ensures_bind, ensures_ite, ensures_pure]
  refine ⟨fun _ => h, fun _ => (ensures_findPrefix aborts_true L _).mono fun found _ => ?_⟩
  cases found with
  | none => exact h
  | some found =>
    have htriple (q : Char) (kind : Quote) (s : List Char) (n : Nat) : Ensures (fun _ => True) (tripleQuotedString q s n L)
        fun read => Spaced (L.pushStringToken (found.contains 'f' || found.contains 'F') kind (found.length + 3) read) :=
      (tripleQuotedString_behind q s n L).mono fun read hread => h.pushStringToken hread _ kind (Nat.succ_pos _)
    have hsingle (q : Char) (kind : Quote) (s : List Char) (n : Nat) : Ensures (fun _ => True) (quotedString q s n L)
        fun read => Spaced (L.pushStringToken (found.contains 'f' || found.contains 'F') kind (found.length + 1) read) :=
      (quotedString_behind q s n L).mono fun read hread => h.pushStringToken hread _ kind (Nat.succ_pos _)
    simp only [ensures_bind, ensures_ite, ensures_pure]
    refine (ensures_isTripleQuote aborts_true L _ _).mono fun _ _ => ⟨fun _ => htriple _ _ _ _, fun _ => ?_⟩
    refine (ensures_isTripleQuote aborts_true L _ _).mono fun _ _ => ⟨fun _ => htriple _ _ _ _, fun _ => ?_⟩
    exact ensures_peek aborts_true fun _ _ => ⟨fun _ => hsingle _ _ _ _, fun _ => hsingle _ _ _ _⟩

/-- The state in a piece of an f-string, which starts at a position. -/
structure InPiece (start : Position) (L : Lexer) : Prop where
  tokens : Ranged L.tokens start.pointer
  pointer : L.position.pointer = L.cursor
  forward : start.pointer ≤ L.cursor

theorem InPiece.advance {start : Position} (h : InPiece start L) (n : Nat) : InPiece start (L.advance n) :=
  ⟨h.tokens, rfl, Nat.le_trans h.forward (Nat.le_add_right _ _)⟩

/-- The piece ends, and a token follows. -/
theorem InPiece.pushPiece {start : Position} (h : InPiece start L) {n : Nat} (hnext : 0 < n ∨ type ∈ textless) :
    Spaced (L.pushPiece start type n) := by
  have hmiddle : Ranged (L.pushToken .fstringMiddle start L.position).tokens L.cursor :=
    h.tokens.push rfl (.inr ⟨h.forward, by decide⟩)
  refine ⟨hmiddle.push h.pointer ?_, rfl⟩
  show L.cursor < L.cursor + n ∨ L.cursor ≤ L.cursor + n ∧ type ∈ textless
  rcases hnext with hpos | hless
  · exact .inl (Nat.lt_add_of_pos_right hpos)
  · exact .inr ⟨Nat.le_add_right _ _, hless⟩

theorem InPiece.reachedEnd {start : Position} (h : InPiece start L) : Ensures (fun _ => True) (L.reachedEnd program start)
    fun r => (r.1 = true → Spaced r.2) ∧ (r.1 = false → InPiece start r.2) := by
  have hread {M : Lexer} (hM : Spaced M) : (true = true → Spaced M) ∧ (true = false → InPiece start M) :=
    ⟨fun _ => hM, fun hfalse => by cases hfalse⟩
  have hmoved {M : Lexer} (hM : InPiece start M) : (false = true → Spaced M) ∧ (false = false → InPiece start M) :=
    ⟨fun htrue => (by cases htrue), fun _ => hM⟩
  unfold Lexer.reachedEnd
  simp only [ensures_bind, ensures_ite]
  refine ⟨fun _ => ensures_peek aborts_true fun _ _ => ⟨fun _ => hread (h.pushPiece (.inl Nat.one_pos)), fun _ =>
    hmoved (h.advance 2)⟩, fun _ => (ensures_endQuotes aborts_true L).mono fun found _ => ?_⟩
  cases found with
  | some n =>
    have hpushed : Spaced (L.pushPiece start .fstringEnd n) := h.pushPiece (.inr (by decide))
    exact hread (hpushed.of_same rfl (Nat.le_refl _) rfl)
  | none =>
    simp only [ensures_bind, ensures_ite]
    refine ensures_peek aborts_true fun _ _ => ⟨fun _ => ensures_peek aborts_true fun _ _ => ⟨fun _ => ?_, fun _ =>
      hmoved (h.advance 2)⟩, fun _ => ensures_peek aborts_true fun _ _ => ⟨fun _ => hmoved ((h.advance 1).advance 1), fun _ =>
      hmoved (h.advance 1)⟩⟩
    have hpushed : Spaced (L.pushPiece start .lbrace 1) := h.pushPiece (.inl Nat.one_pos)
    exact hread (hpushed.of_same rfl (Nat.le_refl _) rfl)

theorem Spaced.tryFstring (h : Spaced L) : Leaves (L.tryFstring program) := by
  have hloop (start : Position) (fuel : Nat) (M : Lexer) (hM : InPiece start M) :
      Ensures (fun _ => True) (fstringLoop program start fuel M) Spaced := by
    induction fuel generalizing M with
    | zero => trivial
    | succ fuel ih =>
      unfold fstringLoop peekNewline
      simp only [ensures_bind]
      refine hM.reachedEnd.mono fun r hr => ?_
      obtain ⟨reached, N⟩ := r
      cases reached with
      | true => exact hr.1 rfl
      | false =>
        simp only [Bool.false_eq_true, if_false, ensures_bind, ensures_ite, ensures_pure, ensures_throw]
        exact (ensures_current aborts_true N).mono fun _ _ => ⟨fun _ => trivial, fun _ => ih N (hr.2 rfl)⟩
  have hstart : InPiece L.position L := ⟨h.pointer.symm ▸ h.tokens, h.pointer, Nat.le_of_eq h.pointer⟩
  unfold Lexer.tryFstring
  simp only [ensures_bind, ensures_pure]
  exact hloop _ _ _ hstart

/-! ## The run -/

theorem Spaced.readTokens (h : Spaced L) : Leaves (L.readTokens program) := by
  refine ensures_orElse h.tryReadNewline (fun _ hM => hM) fun M hM => ?_
  simp only [ensures_bind]
  refine hM.tryReadBackslash.mono fun N hN => (hN.advanceWhile isBlank).mono fun T hT => ?_
  refine ensures_orElse hT.tryReadString (fun _ hU => hU) fun U hU => ?_
  refine ensures_orElse hU.tryReadName (fun _ hV => hV) fun V hV => ?_
  exact ensures_orElse hV.tryReadOperation (fun _ hW => hW) fun W hW => hW.tryReadNumber

theorem dedentAll_ranged {o : Nat} (values : List Nat) (hpointer : L.position.pointer = o) (h : Ranged L.tokens o) :
    Ranged (dedentAll values L).tokens o ∧ (dedentAll values L).cursor = L.cursor := by
  fun_induction dedentAll values L with
  | case1 top below rest L ih => exact ih hpointer (h.push hpointer (.inr ⟨Nat.le_refl o, by decide⟩))
  | case2 => exact ⟨h, rfl⟩

theorem Spaced.readEnd (h : Spaced L) : Ranged L.readEnd.tokens L.cursor ∧ L.readEnd.cursor = L.cursor + 1 := by
  obtain ⟨hleft, hcursor⟩ := dedentAll_ranged (L := { L.incrementRowPosition with cursor := L.cursor + 1 }) L.indentValues rfl
    h.tokens
  exact ⟨hleft.push h.pointer (.inr ⟨Nat.le_refl _, by decide⟩), hcursor⟩

/-- A step keeps the tokens apart, and the state is one between two readers again unless the program has ended. -/
theorem Spaced.step (h : Spaced L) : Ensures (fun _ => True) (L.readMoreTokensLoop program) fun r =>
    (∃ o, Ranged r.2.tokens o) ∧ (r.2.cursor ≤ program.length → Spaced r.2) := by
  have hkeep {M : Lexer} (hM : Spaced M) : (∃ o, Ranged M.tokens o) ∧ (M.cursor ≤ program.length → Spaced M) :=
    ⟨⟨_, hM.tokens⟩, fun _ => hM⟩
  have hread {x : Except Stop (Bool × Lexer)} (hx : Leaves x) : Ensures (fun _ => True) x fun r =>
      (∃ o, Ranged r.2.tokens o) ∧ (r.2.cursor ≤ program.length → Spaced r.2) := hx.mono fun _ hr => hkeep hr
  unfold readMoreTokensLoop
  simp only [ensures_ite, ensures_ok]
  refine ⟨fun _ => hkeep h, fun hle => ⟨fun heq => ⟨⟨_, h.readEnd.1⟩, fun hinside => ?_⟩, fun _ => ?_⟩⟩
  · have hcursor := h.readEnd.2
    omega
  · cases L.mode with
    | nil => trivial
    | cons mode below =>
      cases mode with
      | fstring => exact hread h.tryFstring
      | normal =>
        refine hread (ensures_orElse h.tryEmptyLine (fun _ hM => hM) fun M hM => ?_)
        refine ensures_orElse hM.tryReadComment (fun _ hN => hN) fun N hN => ?_
        exact ensures_orElse hN.tryReadIndent (fun _ hS => hS) fun S hS => hS.readTokens

/-- **Where tokens start**, in every state the lexer reaches. -/
theorem Reaches.ranged (h : Reaches program L) : ∃ o, Ranged L.tokens o := by
  have hboth : (∃ o, Ranged L.tokens o) ∧ (L.cursor ≤ program.length → Spaced L) := by
    induction h with
    | create => exact ⟨⟨0, .nil, fun t ht => by cases ht⟩, fun _ => ⟨⟨.nil, fun t ht => by cases ht⟩, rfl⟩⟩
    | @step L L' read _ hstep ih =>
      by_cases hinside : L.cursor ≤ program.length
      · exact ((ih.2 hinside).step).of_ok hstep
      · unfold readMoreTokensLoop at hstep
        rw [if_pos (by omega)] at hstep
        obtain ⟨-, rfl⟩ := Prod.mk.inj (Except.ok.inj hstep)
        exact ih
  exact hboth.1

end

end Lexer

end Pylang.Lex
