/-
The position the lexer keeps, against the offset into the program.

Each reader moves the position with the cursor, and starts a row behind a line
feed. The token of a line feed ends on the row it ends, and the end of the
program starts one more row (`endPosition`). The steps left out are those that
are not `Fine`: a carriage return, a form feed or a vertical tab taken for a
line feed, line feeds within strings and f-strings, which are not counted or
counted at the wrong offset, and several `DEDENT` tokens for one stretch of
blanks.
-/
import Pylang.Lex.Nesting

namespace Pylang.Lex

/-! ## Positions in a text -/

def rowOf (program : List Char) (o : Nat) : Nat := (program.take o).count '\n'

/-- The distance from the last line feed before an offset, or from the start. -/
def columnOf (program : List Char) (o : Nat) : Nat := ((program.take o).reverse.takeWhile (· ≠ '\n')).length

def posAt (program : List Char) (o : Nat) : Position := ⟨rowOf program o, columnOf program o, o⟩

section
variable {program : List Char} {a b n : Nat}

theorem take_next {c : Char} (h : program[a]? = some c) : program.take (a + 1) = program.take a ++ [c] := by
  rw [List.take_add_one, h]
  rfl

theorem posAt_clear (h : Lexer.Clear program a (a + n)) :
    posAt program (a + n) = ⟨rowOf program a, columnOf program a + n, a + n⟩ := by
  induction n with
  | zero => rfl
  | succ n ih =>
    obtain ⟨c, hc, hne⟩ := h (a + n) (by omega) (by omega)
    have hrow := congrArg Position.row (ih fun i hi hlt => h i hi (by omega))
    have hcolumn := congrArg Position.column (ih fun i hi hlt => h i hi (by omega))
    simp only [posAt, rowOf, columnOf] at hrow hcolumn ⊢
    rw [← Nat.add_assoc, take_next hc, List.count_append, hrow, List.reverse_append, List.reverse_singleton,
      List.singleton_append, List.takeWhile_cons_of_pos (by simpa using hne), List.length_cons, hcolumn]
    simp [hne]
    omega

theorem posAt_newline (h : program[a]? = some '\n') : posAt program (a + 1) = ⟨rowOf program a + 1, 0, a + 1⟩ := by
  simp only [posAt, rowOf, columnOf]
  rw [take_next h, List.count_append, List.reverse_append, List.reverse_singleton, List.singleton_append,
    List.takeWhile_cons_of_neg (by simp)]
  simp

/-- White space, line continuations and comments. -/
inductive Filler (program : List Char) : Nat → Nat → Prop
  | nil (a : Nat) : Filler program a a
  | space {a b : Nat} {c : Char} : program[a]? = some c → isSpace c = true → Filler program (a + 1) b →
      Filler program a b
  | continuation {a b : Nat} : program[a]? = some '\\' → program[a + 1]? = some '\n' → Filler program (a + 2) b →
      Filler program a b
  | comment {a m b : Nat} : program[a]? = some '#' → a < m → Lexer.Clear program a m → Filler program m b →
      Filler program a b

theorem Filler.trans {c : Nat} (h : Filler program a b) (h' : Filler program b c) : Filler program a c := by
  induction h with
  | nil => exact h'
  | space hc hs _ ih => exact .space hc hs (ih h')
  | continuation hc hd _ ih => exact .continuation hc hd (ih h')
  | comment hc hlt hm _ ih => exact .comment hc hlt hm (ih h')

theorem isSpace_of_isBlank {c : Char} (h : isBlank c = true) : isSpace c = true := by
  simp only [isBlank, Bool.or_eq_true, decide_eq_true_eq] at h
  rcases h with rfl | rfl
  · rfl
  · rfl

theorem ne_newline_of_isBlank {c : Char} (h : isBlank c = true) : c ≠ '\n' := by
  intro h
  obtain rfl := h
  exact absurd h (by decide)

theorem filler_blanks (h : ∀ i, a ≤ i → i < a + n → ∃ c, program[i]? = some c ∧ isBlank c = true) :
    Filler program a (a + n) := by
  induction n generalizing a with
  | zero => exact .nil a
  | succ n ih =>
    obtain ⟨c, hc, hblank⟩ := h a (Nat.le_refl a) (by omega)
    have hrest := ih (a := a + 1) fun i hi hlt => h i (by omega) (by omega)
    rw [show a + (n + 1) = a + 1 + n by omega]
    exact .space hc (isSpace_of_isBlank hblank) hrest

theorem clear_blanks (h : ∀ i, a ≤ i → i < a + n → ∃ c, program[i]? = some c ∧ isBlank c = true) :
    Lexer.Clear program a (a + n) := fun i hi hlt => by
  obtain ⟨c, hc, hblank⟩ := h i hi hlt
  exact ⟨c, hc, ne_newline_of_isBlank hblank⟩

end

/-! ## Tokens in order -/

/-- Where the end of the program puts the lexer. -/
def endPosition (program : List Char) : Position := ⟨rowOf program program.length + 1, 0, program.length⟩

/-- Both positions are those of their offsets, but for the end of a line feed, which is on its own row, and the blocks
and the marker at the end of the program; a comment or an empty line is nothing else. -/
structure TokenOk (program : List Char) (t : Token) : Prop where
  start : t.start = posAt program t.start.pointer ∨ t.tokenType = .dedent ∧ t.start = endPosition program
  stop : t.stop = posAt program t.stop.pointer ∨
    (t.tokenType = .newline ∨ t.tokenType = .nl) ∧ program[t.start.pointer]? = some '\n' ∧
      t.stop = ⟨t.start.row, t.start.column + 1, t.start.pointer + 1⟩ ∨
    (t.tokenType = .dedent ∨ t.tokenType = .endmarker) ∧ t.stop = endPosition program
  ordered : t.start.pointer ≤ t.stop.pointer
  filler : t.tokenType = .comment ∨ t.tokenType = .nl → Filler program t.start.pointer t.stop.pointer

/-- From one offset to another, behind a token, the text is the tokens, in their order, and filler between them; the
blocks that one line leaves share its blanks, so a `DEDENT` may come again. -/
def Covers (program : List Char) : Option Token → Nat → List Token → Nat → Prop
  | _, a, [], b => Filler program a b
  | last, a, t :: ts, b =>
    (Filler program a t.start.pointer ∨ last = some t ∧ t.tokenType = .dedent) ∧ TokenOk program t ∧
      Covers program (some t) t.stop.pointer ts b

section
variable {program : List Char} {last last' : Option Token} {a b c : Nat} {t : Token} {ts : List Token}

theorem Covers.extend (h : Covers program last a ts b) (h' : Filler program b c) : Covers program last a ts c := by
  induction ts generalizing last a with
  | nil => exact Filler.trans h h'
  | cons t ts ih => exact ⟨h.1, h.2.1, ih h.2.2⟩

theorem Covers.push (h : Covers program last a ts b) (hgap : Filler program b t.start.pointer) (ht : TokenOk program t) :
    Covers program last a (ts ++ [t]) t.stop.pointer := by
  induction ts generalizing last a with
  | nil => exact ⟨.inl (Filler.trans h hgap), ht, .nil _⟩
  | cons u ts ih => exact ⟨h.1, h.2.1, ih h.2.2⟩

theorem Covers.again (h : Covers program last a ts b) (hlast : ts.getLast? = some t) (ht : t.tokenType = .dedent) :
    Covers program last a (ts ++ [t]) b := by
  induction ts generalizing last a with
  | nil => cases hlast
  | cons u ts ih =>
    refine ⟨h.1, h.2.1, ?_⟩
    cases ts with
    | nil =>
      obtain rfl := Option.some.inj hlast
      exact ⟨.inr ⟨rfl, ht⟩, h.2.1, h.2.2⟩
    | cons v ts => exact ih h.2.2 hlast

/-- A comment or an empty line in front. -/
theorem Covers.prepend (h : Covers program last b ts c) (hlast : ∀ t, last = some t → t.tokenType ≠ .dedent)
    (h' : Filler program a b) : Covers program last' a ts c := by
  cases ts with
  | nil => exact h'.trans h
  | cons t ts =>
    obtain ⟨hgap, hrest⟩ := h
    rcases hgap with hgap | ⟨hagain, hdedent⟩
    · exact ⟨.inl (h'.trans hgap), hrest⟩
    · exact absurd hdedent (hlast t hagain)

/-- Comments and empty lines may be left out. -/
theorem Covers.filter (h : Covers program last a ts b) {keep : Token → Bool}
    (hkeep : ∀ t, keep t = false → t.tokenType = .comment ∨ t.tokenType = .nl) :
    Covers program last a (ts.filter keep) b := by
  induction ts generalizing last a with
  | nil => exact h
  | cons t ts ih =>
    obtain ⟨hgap, ht, hrest⟩ := h
    cases hk : keep t with
    | true =>
      rw [List.filter_cons_of_pos hk]
      exact ⟨hgap, ht, ih hrest⟩
    | false =>
      have htype : t.tokenType ≠ .dedent := by
        intro hdedent
        rcases hkeep t hk with hcomment | hnl
        · cases hdedent.symm.trans hcomment
        · cases hdedent.symm.trans hnl
      rw [List.filter_cons_of_neg (by simp [hk])]
      rcases hgap with hgap | ⟨-, hdedent⟩
      · exact (ih hrest).prepend (fun u hu => Option.some.inj hu ▸ htype) (hgap.trans (ht.filler (hkeep t hk)))
      · exact absurd hdedent htype

end

namespace Lexer

/-- The position is that of the cursor, which is in the program. -/
structure Here (program : List Char) (L : Lexer) : Prop where
  position : L.position = posAt program L.cursor
  inside : L.cursor ≤ program.length

structure Good (program : List Char) (L : Lexer) : Prop extends Here program L where
  covers : Covers program none 0 L.tokens L.cursor

section
variable {program : List Char} {L : Lexer} {n : Nat}

theorem Clear.le (h : Clear program L.cursor (L.cursor + n)) (hL : L.cursor ≤ program.length) :
    L.cursor + n ≤ program.length := by
  cases n with
  | zero => exact hL
  | succ n =>
    obtain ⟨c, hc, -⟩ := h (L.cursor + n) (by omega) (by omega)
    have hlt := (List.getElem?_eq_some_iff.1 hc).1
    omega

theorem Here.move (h : Here program L) (hclear : Clear program L.cursor (L.cursor + n)) :
    Here program (L.incrementColumnPosition n) := by
  refine ⟨?_, Clear.le hclear h.inside⟩
  show (⟨L.position.row, L.position.column + n, L.cursor + n⟩ : Position) = posAt program (L.cursor + n)
  rw [posAt_clear hclear, h.position]
  rfl

/-- A row starts behind a line feed. -/
theorem Here.newline (h : Here program L) (hc : program[L.cursor]? = some '\n') :
    Here program (L.incrementColumnPosition 1).incrementRowPosition := by
  have hlt := (List.getElem?_eq_some_iff.1 hc).1
  refine ⟨?_, hlt⟩
  show (⟨L.position.row + 1, 0, L.cursor + 1⟩ : Position) = posAt program (L.cursor + 1)
  rw [posAt_newline hc, h.position]
  rfl

theorem Here.pointer (h : Here program L) : L.position.pointer = L.cursor := by
  rw [h.position]
  rfl

/-- Filler moves the cursor and pushes nothing. -/
theorem Good.move (h : Good program L) {M : Lexer} (hM : Here program M) (htokens : M.tokens = L.tokens)
    (hfill : Filler program L.cursor M.cursor) : Good program M :=
  ⟨hM, by rw [htokens]; exact h.covers.extend hfill⟩

/-- A token that starts at the cursor, and a state that is where it ends. -/
theorem Good.push (h : Good program L) {M : Lexer} {t : Token} (hM : Here program M) (hstart : t.start = L.position)
    (hstop : t.stop.pointer = M.cursor) (ht : TokenOk program t) (htokens : M.tokens = L.tokens ++ [t]) :
    Good program M := by
  refine ⟨hM, ?_⟩
  have hpush := h.covers.push (t := t) (by rw [hstart, h.toHere.pointer]; exact .nil _) ht
  rwa [htokens, ← hstop]

/-- A token from the cursor to where it moves. -/
theorem Good.token (h : Good program L) {M : Lexer} (hM : Here program M) (htokens : M.tokens = L.tokens)
    (hle : L.cursor ≤ M.cursor) (type : TokenType)
    (hfill : type = .comment ∨ type = .nl → Filler program L.cursor M.cursor) :
    Good program (M.pushToken type L.position M.position) := by
  have hpointer := h.toHere.pointer
  have hok : TokenOk program ⟨type, L.position, M.position⟩ :=
    ⟨.inl (by rw [hpointer]; exact h.position), .inl (by rw [hM.pointer]; exact hM.position),
      by rw [hpointer, hM.pointer]; exact hle, by rw [hpointer, hM.pointer]; exact hfill⟩
  refine h.push ⟨hM.position, hM.inside⟩ rfl hM.pointer hok ?_
  rw [← htokens]
  rfl

/-- The token of a line feed, and the row behind it. -/
theorem Good.lineFeed (h : Good program L) (hc : program[L.cursor]? = some '\n') {type : TokenType}
    (htype : type = .newline ∨ type = .nl) :
    Good program ((L.incrementColumnPosition 1).pushToken type L.position
      (L.incrementColumnPosition 1).position).incrementRowPosition := by
  have hpointer := h.toHere.pointer
  have hok : TokenOk program ⟨type, L.position, (L.incrementColumnPosition 1).position⟩ := by
    refine ⟨.inl (by rw [hpointer]; exact h.position), .inr (.inl ⟨htype, by rw [hpointer]; exact hc, ?_⟩), ?_, ?_⟩
    · show (⟨L.position.row, L.position.column + 1, L.cursor + 1⟩ : Position) = ⟨_, _, L.position.pointer + 1⟩
      rw [hpointer]
    · show L.position.pointer ≤ L.cursor + 1
      omega
    · intro _
      show Filler program L.position.pointer (L.cursor + 1)
      rw [hpointer]
      exact .space hc (by decide) (.nil _)
  have hhere := h.toHere.newline hc
  exact h.push ⟨hhere.position, hhere.inside⟩ rfl rfl hok rfl

theorem Good.pushEmptyLine (h : Good program L) (hc : program[L.cursor]? = some '\n') :
    Good program L.pushEmptyLine := h.lineFeed hc (.inr rfl)

theorem Good.pushNewLine (h : Good program L) (hc : program[L.cursor]? = some '\n') : Good program L.pushNewLine := by
  refine h.lineFeed hc ?_
  split
  · exact .inr rfl
  · exact .inl rfl

/-- A token of characters that are no line feeds. -/
theorem Good.word (h : Good program L) (hclear : Clear program L.cursor (L.cursor + n)) (type : TokenType)
    (hc : type ≠ .comment) (hn : type ≠ .nl) :
    Good program ((L.incrementColumnPosition n).pushToken type L.position (L.incrementColumnPosition n).position) :=
  h.token (h.toHere.move hclear) rfl (Nat.le_add_right _ _) type fun hor => hor.elim (fun he => absurd he hc)
    fun he => absurd he hn

end

/-! ## Blanks, lines and comments -/

theorem aborts_true : Aborts fun _ : Stop => True := ⟨trivial, trivial, trivial⟩

/-- The offset behind the blanks. -/
def skipBlanks (program : List Char) (o : Nat) : Nat := o + ((program.drop o).takeWhile isBlank).length

section
variable {program : List Char} {L : Lexer}

theorem skipBlanks_skipBlanks (program : List Char) (o : Nat) :
    skipBlanks program (skipBlanks program o) = skipBlanks program o := by
  have hsplit := List.takeWhile_append_dropWhile (p := isBlank) (l := program.drop o)
  have hdrop : program.drop (skipBlanks program o) = (program.drop o).dropWhile isBlank := by
    rw [skipBlanks, ← List.drop_drop]
    exact ((congrArg (List.drop _) hsplit).symm.trans List.drop_left)
  have hnil : ((program.drop o).dropWhile isBlank).takeWhile isBlank = [] := by
    cases hd : (program.drop o).dropWhile isBlank with
    | nil => rfl
    | cons c s =>
      have hhead := List.head?_dropWhile_not isBlank (program.drop o)
      rw [hd] at hhead
      exact List.takeWhile_cons_of_neg (by simpa using hhead)
  conv_lhs => rw [skipBlanks, hdrop, hnil]
  rfl

/-- The blanks at the cursor. -/
theorem blanks_at (hL : L.cursor ≤ program.length) :
    ∀ i, L.cursor ≤ i → i < L.cursor + ((L.rest program).takeWhile isBlank).length →
      ∃ c, program[i]? = some c ∧ isBlank c = true := by
  obtain ⟨n, heq, -, hall⟩ := (ensures_advanceWhile aborts_true L isBlank).of_ok (advanceWhile_blank L hL)
  have hn : L.cursor + ((L.rest program).takeWhile isBlank).length = L.cursor + n := congrArg Lexer.cursor heq
  rwa [hn]

theorem Good.blanks (h : Good program L) :
    Good program (L.incrementColumnPosition ((L.rest program).takeWhile isBlank).length) :=
  h.move (h.toHere.move (clear_blanks (blanks_at h.inside))) rfl (filler_blanks (blanks_at h.inside))

/-- A state behind whose blanks the text goes on as behind those of another. -/
def SkipsTo (program : List Char) (L M : Lexer) : Prop := skipBlanks program M.cursor = skipBlanks program L.cursor

theorem skipsTo_blanks (L : Lexer) :
    SkipsTo program L (L.incrementColumnPosition ((L.rest program).takeWhile isBlank).length) :=
  skipBlanks_skipBlanks program L.cursor

/-- A line that has only blanks in front of a white space ends there, in a line feed; or nothing is read there. -/
def LinesFine (program : List Char) (L : Lexer) : Prop :=
  ∀ c s, (L.rest program).dropWhile isBlank = c :: s → isSpace c = true → c ≠ '\n' →
    (L.rest program).takeWhile isBlank = [] ∧ L.position.column ≠ 0

theorem takeWhile_nil_of_get {c : Char} (hc : program[L.cursor]? = some c) (hblank : ¬ isBlank c = true) :
    (L.rest program).takeWhile isBlank = [] := by
  cases hcons : L.rest program with
  | nil => rfl
  | cons d s =>
    have hd : (L.rest program)[0]? = some d := by rw [hcons]; rfl
    rw [rest, List.getElem?_drop] at hd
    obtain rfl : c = d := Option.some.inj (hc.symm.trans hd)
    exact List.takeWhile_cons_of_neg hblank

theorem good_tryEmptyLine (h : Good program L) (hfine : LinesFine program L) :
    Ensures (fun _ => True) (L.tryEmptyLine program) fun r =>
      Good program r.2 ∧ (r.1 = false → SkipsTo program L r.2) := by
  unfold tryEmptyLine
  simp only [ensures_bind, ensures_ite, ensures_pure]
  refine ensures_peek aborts_true fun c hc => ⟨fun hspace => ⟨fun hcolumn => ?_, fun _ => ⟨h, fun _ => rfl⟩⟩, fun hnot => ?_⟩
  · obtain ⟨hsp, hblank⟩ : isSpace c = true ∧ ¬ isBlank c = true := by simpa using hspace
    have hnil := takeWhile_nil_of_get hc hblank
    obtain ⟨s, hs⟩ := dropWhile_of_get (L := L) (c := c) (by rw [hnil]; exact hc)
    have hfeed : c = '\n' := by
      by_contra hne
      exact (hfine c s hs hsp hne).2 hcolumn
    rw [hfeed] at hc
    exact ⟨h.pushEmptyLine hc, nofun⟩
  · rw [advanceWhile_blank L h.inside, ensures_ok]
    refine ⟨fun _ => ⟨h.blanks, fun _ => skipsTo_blanks L⟩, fun _ => ensures_peek aborts_true fun d hd =>
      ⟨fun hspace => ?_, fun _ => ⟨⟨⟨h.position, h.inside⟩, h.covers⟩, fun _ => rfl⟩⟩⟩
    obtain ⟨s, hs⟩ := dropWhile_of_get hd
    have hfeed : d = '\n' := by
      by_contra hne
      obtain ⟨hnil, -⟩ := hfine d s hs hspace hne
      rw [hnil] at hd
      obtain rfl : c = d := Option.some.inj (hc.symm.trans hd)
      have hblank : ¬ isBlank c = true := fun hb => by
        have hsplit := List.takeWhile_append_dropWhile (p := isBlank) (l := L.rest program)
        rw [hnil, hs, List.nil_append] at hsplit
        rw [← hsplit, List.takeWhile_cons_of_pos hb] at hnil
        cases hnil
      exact hnot (by simp [hspace, hblank])
    rw [hfeed] at hd
    exact ⟨h.blanks.pushEmptyLine hd, nofun⟩

theorem commentScan_some {s : List Char} {n m : Nat} (h : commentScan s n = .ok (some m)) :
    ∃ k, m = n + k ∧ (∀ i, i < k → ∃ c, s[i]? = some c ∧ isBlank c = true) ∧ s[k]? = some '#' := by
  fun_induction commentScan s n with
  | case1 | case2 => cases h
  | case3 c n hblank s' =>
    obtain rfl := Option.some.inj (Except.ok.inj h)
    refine ⟨1, rfl, fun i hi => ⟨c, ?_, hblank⟩, rfl⟩
    obtain rfl : i = 0 := by omega
    rfl
  | case4 c n hblank d s' hd ih =>
    obtain ⟨k, rfl, hall, hhash⟩ := ih h
    refine ⟨k + 1, by omega, fun i hi => ?_, hhash⟩
    cases i with
    | zero => exact ⟨c, rfl, hblank⟩
    | succ i => exact hall i (by omega)
  | case5 => cases h

/-- A comment starts behind blanks. -/
theorem ensures_commentStart_some (L : Lexer) :
    Ensures (fun _ : Stop => True) (L.commentStart program) fun start => ∀ n, start = some n →
      (∀ i, L.cursor ≤ i → i < L.cursor + n → ∃ c, program[i]? = some c ∧ isBlank c = true) ∧
        program[L.cursor + n]? = some '#' := by
  unfold commentStart
  simp only [ensures_bind, ensures_ite, ensures_pure]
  refine ⟨fun _ => nofun, fun _ => ensures_peek aborts_true fun c hc => ⟨fun hhash n hn => ?_, fun _ => ?_⟩⟩
  · obtain rfl := Option.some.inj hn
    exact ⟨fun i hi hlt => by omega, hhash ▸ hc⟩
  · cases hscan : commentScan (L.rest program) 0 with
    | error e => trivial
    | ok start =>
      intro n hn
      obtain ⟨k, rfl, hall, hhash⟩ := commentScan_some (hn ▸ hscan)
      rw [rest, List.getElem?_drop] at hhash
      rw [Nat.zero_add]
      refine ⟨fun i hi hlt => ?_, hhash⟩
      obtain ⟨c, hc, hblank⟩ := hall (i - L.cursor) (by omega)
      rw [rest, List.getElem?_drop, Nat.add_sub_cancel' hi] at hc
      exact ⟨c, hc, hblank⟩

theorem good_tryReadComment (h : Good program L) :
    Ensures (fun _ => True) (L.tryReadComment program) fun r => Good program r.2 ∧ (r.1 = false → r.2 = L) := by
  unfold tryReadComment
  rw [ensures_bind]
  refine (ensures_commentStart_some L).mono fun start hstart => ?_
  cases start with
  | none => exact ⟨h, fun _ => rfl⟩
  | some n =>
    obtain ⟨hblanks, hhash⟩ := hstart n rfl
    have hgood : Good program (L.advance n) :=
      h.move (h.toHere.move (clear_blanks hblanks)) rfl (filler_blanks hblanks)
    have hcond : ∀ c : Char, (c.isAlphanum || decide (c ≠ '\n')) = true → c ≠ '\n' := by
      intro c hc h
      obtain rfl := h
      exact absurd hc (by decide)
    simp only [ensures_bind, ensures_ite, ensures_pure]
    refine (Ensures.and (ensures_advanceWhile aborts_true _ _)
      (ensures_advanceWhile_stops aborts_true _ (by decide))).mono ?_
    intro read h
    obtain ⟨⟨m, rfl, -, hall⟩, c, hc, hstop⟩ := h
    have hfirst : Clear program (L.advance n).cursor ((L.advance n).cursor + 1) := Clear.one hhash (by decide)
    have hclear : Clear program ((L.advance n).cursor + 1) ((L.advance n).cursor + 1 + m) := fun i hi hlt => by
      obtain ⟨d, hd, hcd⟩ := hall i hi hlt
      exact ⟨d, hd, hcond d hcd⟩
    have hhere : Here program (((L.advance n).advance 1).incrementColumnPosition m) :=
      (hgood.toHere.move hfirst).move hclear
    have hpushed := hgood.token hhere rfl (by show _ ≤ _ + 1 + m; omega) .comment fun _ =>
      .comment hhash (by show _ < _ + 1 + m; omega) (hfirst.append hclear) (.nil _)
    have hfeed : c = '\n' := by
      by_contra hne
      simp [hne] at hstop
    rw [hfeed] at hc
    exact ⟨fun _ => ⟨hpushed.pushEmptyLine hc, nofun⟩, fun _ => ⟨hpushed.pushNewLine hc, nofun⟩⟩

theorem good_tryReadNewline (h : Good program L) :
    Ensures (fun _ => True) (L.tryReadNewline program) fun r => Good program r.2 ∧ (r.1 = false → r.2 = L) := by
  unfold tryReadNewline peekNewline
  simp only [ensures_bind, ensures_ite, ensures_pure]
  refine (ensures_current aborts_true L).mono fun c hc => ⟨fun hfeed => ?_, fun _ => ⟨h, fun _ => trivial⟩⟩
  obtain rfl : c = '\n' := by simpa using hfeed
  rcases hc with hc | ⟨-, hzero⟩
  · exact ⟨h.pushNewLine hc, nofun⟩
  · exact absurd hzero (by decide)

/-! ## Indentation and continuations -/

theorem computeIndentLevel_ok {v n : Nat} (h : computeIndentLevel (L.rest program) 0 0 = .ok (v, n)) :
    n = ((L.rest program).takeWhile isBlank).length := by
  rcases rest_cases program L with ⟨c, s, -, hblank, hrest⟩ | ⟨-, hall⟩
  · rw [hrest, computeIndentLevel_append mem_takeWhile_blank hblank] at h
    have hn := (Prod.mk.inj (Except.ok.inj h)).2
    omega
  · rw [computeIndentLevel_blank hall] at h
    cases h

/-- The next blocks that a line leaves have the token of the first one. -/
theorem good_dedent {v : Nat} {stack : List Nat} {start stop : Position} (h : Good program L)
    (hlast : L.tokens.getLast? = some ⟨.dedent, start, stop⟩) :
    Ensures (fun _ => True) (dedent v start stop stack L) (Good program) := by
  induction stack generalizing L with
  | nil => trivial
  | cons top below ih =>
    unfold dedent
    simp only [ensures_ite, ensures_ok]
    refine ⟨fun _ => ih ?_ List.getLast?_concat, fun _ => h⟩
    exact ⟨⟨h.position, h.inside⟩, h.covers.again hlast rfl⟩

theorem good_tryReadIndent (h : Good program L) :
    Ensures (fun _ => True) (L.tryReadIndent program) fun r =>
      Good program r.2 ∧ (r.1 = false → SkipsTo program L r.2) := by
  unfold tryReadIndent
  simp only [ensures_ite, ensures_pure]
  refine ⟨fun _ => ?_, fun _ => ⟨h, fun _ => rfl⟩⟩
  rw [ensures_bind]
  cases hcompute : computeIndentLevel (L.rest program) 0 0 with
  | error e => trivial
  | ok r =>
    obtain ⟨v, n⟩ := r
    obtain rfl := computeIndentLevel_ok hcompute
    have hmoved := h.blanks
    have hclear := clear_blanks (blanks_at h.inside)
    rw [ensures_ok]
    dsimp only
    cases hstack : L.indentValues with
    | nil => trivial
    | cons top below =>
      simp only [ensures_ite, ensures_bind, ensures_pure]
      refine ⟨fun _ => ?_, fun _ => ⟨fun hlt => ?_, fun _ => ⟨hmoved, fun _ => skipsTo_blanks L⟩⟩⟩
      · have hpushed := h.word hclear .indent (by simp) (by simp)
        exact ⟨⟨⟨hpushed.position, hpushed.inside⟩, hpushed.covers⟩, nofun⟩
      · have hpushed := h.word hclear .dedent (by simp) (by simp)
        show Ensures _ (dedent v L.position _ L.indentValues _) _
        rw [hstack]
        unfold dedent
        rw [if_pos (by omega)]
        refine (good_dedent ?_ List.getLast?_concat).mono fun _ hr => ⟨hr, nofun⟩
        exact ⟨⟨hpushed.position, hpushed.inside⟩, hpushed.covers⟩

/-- Where a token starts: behind blanks, and a line continuation and more blanks if there is one. -/
def tokenStart (program : List Char) (o : Nat) : Nat :=
  let a := skipBlanks program o
  if program[a]? = some '\\' ∧ program[a + 1]? = some '\n' then skipBlanks program (a + 2) else a

theorem good_tryReadSpace (h : Good program L) :
    Ensures (fun _ => True) (L.tryReadSpace program) fun M =>
      Good program M ∧ M.cursor = skipBlanks program L.cursor := by
  unfold tryReadSpace
  rw [advanceWhile_blank L h.inside]
  exact ⟨h.blanks, rfl⟩

theorem good_tryReadBackslash (h : Good program L) :
    Ensures (fun _ => True) (L.tryReadBackslash program) fun M =>
      Good program M ∧ skipBlanks program M.cursor = tokenStart program L.cursor := by
  unfold tryReadBackslash
  simp only [ensures_bind]
  refine (good_tryReadSpace h).mono fun M ⟨hM, hcursor⟩ => ?_
  refine (ensures_advanceIf aborts_true M (by decide)).mono fun ⟨backslash, N⟩ hN => ?_
  rcases hN with ⟨heq, hno⟩ | ⟨c, hc, hcond, heq⟩
  · obtain ⟨rfl, rfl⟩ := Prod.mk.inj heq
    refine ⟨hM, ?_⟩
    have hstart : tokenStart program L.cursor = skipBlanks program L.cursor :=
      if_neg fun hand => absurd (hno _ (hcursor ▸ hand.1)) (by decide)
    rw [hstart, hcursor, skipBlanks_skipBlanks]
  · obtain ⟨rfl, rfl⟩ := Prod.mk.inj heq
    obtain rfl : c = '\\' := by simpa using hcond
    simp only [ensures_bind, if_true]
    refine (ensures_advanceIf aborts_true _ (by decide)).mono fun ⟨newline, N'⟩ hN' => ?_
    rcases hN' with ⟨heq, -⟩ | ⟨d, hd, hcond', heq⟩
    · obtain ⟨rfl, rfl⟩ := Prod.mk.inj heq
      trivial
    · obtain ⟨rfl, rfl⟩ := Prod.mk.inj heq
      obtain rfl : d = '\n' := by simpa using hcond'
      have hhere := (hM.toHere.move (Clear.one hc (by decide))).newline hd
      refine ⟨hM.move hhere rfl (.continuation hc hd (.nil _)), ?_⟩
      have hstart : tokenStart program L.cursor = skipBlanks program (skipBlanks program L.cursor + 2) :=
        if_pos ⟨hcursor ▸ hc, hcursor ▸ hd⟩
      rw [hstart, ← hcursor]
      rfl

end

/-! ## Strings -/

/-- A string of one line has a line feed that no backslash precedes. -/
def quotedBreaks (quote : Char) : List Char → Bool
  | [] => false
  | c :: s =>
    if c = '\\' then
      match s with
      | [] => false
      | _ :: s => quotedBreaks quote s
    else if c = quote then false
    else c = '\n' || quotedBreaks quote s

/-- A string in three quotes has one behind its last line continuation. -/
def tripleBreaks (quote : Char) : List Char → Bool → Bool
  | [], _ => false
  | c :: s, pending =>
    if c = '\\' then
      match s with
      | [] => false
      | d :: s => if d = '\n' then tripleBreaks quote s false else tripleBreaks quote s pending
    else if c = quote then
      match s with
      | d :: e :: _ => if d = quote ∧ e = quote then pending else tripleBreaks quote s pending
      | _ => tripleBreaks quote s pending
    else if c = '\n' then tripleBreaks quote s true
    else tripleBreaks quote s pending

section
variable {program : List Char}

/-- The first character of what is left, and what is left behind it. -/
theorem drop_cons {o : Nat} {c : Char} {s : List Char} (h : program.drop o = c :: s) :
    program[o]? = some c ∧ program.drop (o + 1) = s := by
  refine ⟨?_, ?_⟩
  · rw [← Nat.add_zero o, ← List.getElem?_drop, h]
    rfl
  · rw [← List.drop_drop, h]
    rfl

theorem rowOf_next {o : Nat} {c : Char} (h : program[o]? = some c) :
    rowOf program (o + 1) = rowOf program o + if c = '\n' then 1 else 0 := by
  rw [rowOf, take_next h, List.count_append]
  split
  next hc => simp [rowOf, hc]
  next hc => simp [rowOf, hc]

theorem here_quotedString {q : Char} {s : List Char} {n : Nat} {L : Lexer} (hq : q ≠ '\n')
    (hs : program.drop (L.cursor + n) = s) (h : Here program L) (hclear : Clear program L.cursor (L.cursor + n))
    (hfine : quotedBreaks q s = false) :
    Ensures (fun _ => True) (quotedString q s n L) fun L' => Here program L' ∧ L.cursor ≤ L'.cursor := by
  fun_induction quotedString q s n L with
  | case1 | case2 => trivial
  | case3 n L s ih =>
    obtain ⟨hc, hs1⟩ := drop_cons hs
    obtain ⟨hd, hs2⟩ := drop_cons hs1
    have hmoved : Here program (L.incrementColumnPosition (n + 1)) :=
      h.move (hclear.append (Clear.one hc (by decide)))
    have hnext : Here program (L.advance (n + 2)).incrementRowPosition := hmoved.newline hd
    refine (ih hs2 hnext (Clear.nil _ _) ?_).mono fun M hM => ⟨hM.1, Nat.le_trans ?_ hM.2⟩
    · simpa [quotedBreaks] using hfine
    · show L.cursor ≤ L.cursor + (n + 2)
      omega
  | case4 n L d s hd ih =>
    obtain ⟨hc, hs1⟩ := drop_cons hs
    obtain ⟨hd', hs2⟩ := drop_cons hs1
    refine ih hs2 h ((hclear.append (Clear.one hc (by decide))).append (Clear.one hd' hd)) ?_
    simpa [quotedBreaks] using hfine
  | case5 s n L hne =>
    obtain ⟨hc, -⟩ := drop_cons hs
    exact ⟨h.move (hclear.append (Clear.one hc hq)), Nat.le_add_right _ _⟩
  | case6 c s n L hne hne' ih =>
    obtain ⟨hc, hs1⟩ := drop_cons hs
    obtain ⟨hfeed, hrest⟩ : c ≠ '\n' ∧ quotedBreaks q s = false := by
      unfold quotedBreaks at hfine
      rw [if_neg hne, if_neg hne'] at hfine
      simpa using hfine
    exact ih hs1 h (hclear.append (Clear.one hc hfeed)) hrest

/-- A stretch from the cursor on: while a line feed is pending only the row is known. -/
structure Segment (program : List Char) (L : Lexer) (n : Nat) (pending : Bool) : Prop where
  row : L.position.row = rowOf program (L.cursor + n)
  clear : pending = false → Here program L ∧ Clear program L.cursor (L.cursor + n)

theorem Segment.next {L : Lexer} {n : Nat} {pending : Bool} {c : Char} (h : Segment program L n pending)
    (hc : program[L.cursor + n]? = some c) (hne : c ≠ '\n') : Segment program L (n + 1) pending := by
  refine ⟨?_, fun hp => ⟨(h.clear hp).1, (h.clear hp).2.append (Clear.one hc hne)⟩⟩
  rw [h.row, ← Nat.add_assoc, rowOf_next hc, if_neg hne]
  rfl

theorem here_tripleQuotedString {q : Char} {s : List Char} {n : Nat} {L : Lexer} {pending : Bool} (hq : q ≠ '\n')
    (hs : program.drop (L.cursor + n) = s) (h : Segment program L n pending)
    (hfine : tripleBreaks q s pending = false) :
    Ensures (fun _ => True) (tripleQuotedString q s n L) fun L' => Here program L' ∧ L.cursor ≤ L'.cursor := by
  fun_induction tripleQuotedString q s n L generalizing pending with
  | case1 | case2 | case5 | case6 => trivial
  | case3 n L s ih =>
    obtain ⟨hc, hs1⟩ := drop_cons hs
    obtain ⟨hd, hs2⟩ := drop_cons hs1
    have hlt := (List.getElem?_eq_some_iff.1 hd).1
    have hrow : rowOf program (L.cursor + (n + 1)) = L.position.row := (h.next hc (by decide)).row.symm
    have hnext : Here program (L.advance (n + 2)).incrementRowPosition := by
      refine ⟨?_, hlt⟩
      show (⟨L.position.row + 1, 0, L.cursor + (n + 1) + 1⟩ : Position) = posAt program (L.cursor + (n + 1) + 1)
      rw [posAt_newline (show program[L.cursor + (n + 1)]? = some '\n' from hd), hrow]
    have hsegment : Segment program (L.advance (n + 2)).incrementRowPosition 0 false :=
      ⟨congrArg Position.row hnext.position, fun _ => ⟨hnext, Clear.nil _ _⟩⟩
    refine (ih hs2 hsegment ?_).mono fun M hM => ⟨hM.1, Nat.le_trans ?_ hM.2⟩
    · simpa [tripleBreaks] using hfine
    · show L.cursor ≤ L.cursor + (n + 2)
      omega
  | case4 n L d s hd ih =>
    obtain ⟨hc, hs1⟩ := drop_cons hs
    obtain ⟨hd', hs2⟩ := drop_cons hs1
    refine ih hs2 ((h.next hc (by decide)).next hd' hd) ?_
    simpa [tripleBreaks, hd] using hfine
  | case7 n L s hne =>
    obtain ⟨hc, hs1⟩ := drop_cons hs
    obtain ⟨hd, hs2⟩ := drop_cons hs1
    obtain ⟨he, -⟩ := drop_cons hs2
    have hpending : pending = false := by simpa [tripleBreaks, hne] using hfine
    obtain ⟨hhere, hclear⟩ := (((h.next hc hq).next hd hq).next he hq).clear hpending
    exact ⟨hhere.move hclear, Nat.le_add_right _ _⟩
  | case8 n L e s he hne ih =>
    obtain ⟨hc, hs1⟩ := drop_cons hs
    refine ih hs1 (h.next hc hq) ?_
    simpa [tripleBreaks, hne, he] using hfine
  | case9 n L d s hd hne ih =>
    obtain ⟨hc, hs1⟩ := drop_cons hs
    refine ih hs1 (h.next hc hq) ?_
    unfold tripleBreaks at hfine
    rw [if_neg hne, if_pos rfl] at hfine
    cases s with
    | nil => exact hfine
    | cons e s =>
      dsimp only at hfine
      rwa [if_neg fun hand => hd hand.1] at hfine
  | case10 s n L hne hne' ih =>
    obtain ⟨hc, hs1⟩ := drop_cons hs
    have hpending : Segment program L.incrementRowPosition (n + 1) true := by
      refine ⟨?_, fun h => by cases h⟩
      show L.position.row + 1 = rowOf program (L.cursor + n + 1)
      rw [rowOf_next hc, h.row]
      rfl
    refine ih hs1 hpending ?_
    unfold tripleBreaks at hfine
    rwa [if_neg hne, if_neg hne', if_pos rfl] at hfine
  | case11 c s n L hne hne' hfeed ih =>
    obtain ⟨hc, hs1⟩ := drop_cons hs
    refine ih hs1 (h.next hc hfeed) ?_
    unfold tripleBreaks at hfine
    rwa [if_neg hne, if_neg hne', if_neg hfeed] at hfine

theorem prefix_clear : ∀ p ∈ stringPossiblePrefixes, '\n' ∉ p := by decide

theorem peek_of_get {L : Lexer} {i : Nat} {c : Char} (h : program[L.cursor + i]? = some c) :
    L.peek program i = .ok c := by
  unfold peek
  rw [h]

/-- The text of a prefix, and the quote behind it. -/
structure PrefixAt (program : List Char) (L : Lexer) (i : Nat) (p : List Char) : Prop where
  clear : Clear program (L.cursor + i) (L.cursor + i + p.length)
  quote : ∃ c, L.peek program (i + p.length) = .ok c ∧ (c = '\'' ∨ c = '"')

theorem ensures_peekPrefix_at (L : Lexer) {p : List Char} (hp : '\n' ∉ p) (i : Nat) :
    Ensures (fun _ => True) (L.peekPrefix program p i) fun found => found = true → PrefixAt program L i p := by
  induction p generalizing i with
  | nil =>
    unfold peekPrefix
    simp only [ensures_bind, ensures_ite, ensures_pure]
    refine ensures_peek aborts_true fun c hc => ⟨fun hq _ => ⟨Clear.nil _ _, c, peek_of_get hc, .inl hq⟩,
      fun _ hq => ⟨Clear.nil _ _, c, peek_of_get hc, .inr (by simpa using hq)⟩⟩
  | cons c p ih =>
    obtain ⟨hne, hp'⟩ : '\n' ≠ c ∧ '\n' ∉ p := by simpa using hp
    unfold peekPrefix
    simp only [ensures_bind, ensures_ite, ensures_pure]
    refine ensures_peek aborts_true fun d hd => ⟨fun _ h => (by cases h), fun heq => ?_⟩
    obtain rfl : d = c := not_not.1 heq
    refine (ih hp' (i + 1)).mono fun found hfound htrue => ?_
    obtain ⟨hrest, e, he, hquote⟩ := hfound htrue
    rw [show L.cursor + (i + 1) + p.length = L.cursor + i + (d :: p).length by rw [List.length_cons]; omega] at hrest
    rw [show i + 1 + p.length = i + (d :: p).length by rw [List.length_cons]; omega] at he
    exact ⟨(Clear.one hd hne.symm).append hrest, e, he, hquote⟩

theorem ensures_findPrefix_at (L : Lexer) {ps : List (List Char)} (hps : ∀ p ∈ ps, '\n' ∉ p) :
    Ensures (fun _ => True) (L.findPrefix program ps) fun found => ∀ p, found = some p → PrefixAt program L 0 p := by
  induction ps with
  | nil => exact nofun
  | cons p ps ih =>
    unfold findPrefix
    simp only [ensures_bind, ensures_ite, ensures_pure]
    refine (ensures_peekPrefix_at L (hps p List.mem_cons_self) 0).mono fun found hfound => ⟨fun htrue p' heq => ?_,
      fun _ => ih fun p' hp' => hps p' (List.mem_cons_of_mem p hp')⟩
    obtain rfl := Option.some.inj heq
    exact hfound htrue

theorem peek_of_isTripleQuote {L : Lexer} {i : Nat} {q : Char} (h : L.isTripleQuote program i q = .ok true) :
    L.peek program i = .ok q := by
  unfold isTripleQuote at h
  cases hpeek : L.peek program i with
  | error e =>
    rw [hpeek] at h
    cases h
  | ok c =>
    rw [hpeek] at h
    by_cases hc : c = q
    · rw [hc]
    · have hfalse : (.ok false : Except Stop Bool) = .ok true := by
        rw [← h]
        exact (if_pos hc).symm
      cases hfalse

theorem ensures_isTripleQuote_clear (L : Lexer) {q : Char} (hq : q ≠ '\n') (i : Nat) :
    Ensures (fun _ => True) (L.isTripleQuote program i q) fun found =>
      found = true → Clear program (L.cursor + i) (L.cursor + (i + 3)) := by
  unfold isTripleQuote
  simp only [ensures_bind, ensures_ite, ensures_pure]
  refine ensures_peek aborts_true fun c hc => ⟨fun _ => nofun, fun heq => ?_⟩
  refine ensures_peek aborts_true fun d hd => ⟨fun _ => nofun, fun heq' => ?_⟩
  refine ensures_peek aborts_true fun e he htrue => ?_
  obtain rfl : c = q := not_not.1 heq
  obtain rfl : d = c := not_not.1 heq'
  obtain rfl : e = d := by simpa using htrue
  exact ((Clear.one hc hq).append (Clear.one hd hq)).append (Clear.one he hq)

/-- The string that starts at the cursor, unless it is an f-string, has no line feed that is miscounted. -/
def StringFine (program : List Char) (M : Lexer) : Prop :=
  ∀ p, M.findPrefix program stringPossiblePrefixes = .ok (some p) → (p.contains 'f' || p.contains 'F') = false →
    ∀ q, M.peek program p.length = .ok q →
      (M.isTripleQuote program p.length q = .ok true →
        tripleBreaks q (program.drop (M.cursor + (p.length + 3))) false = false) ∧
      (M.isTripleQuote program p.length q = .ok false →
        quotedBreaks q (program.drop (M.cursor + (p.length + 1))) = false)

/-- A string becomes one token, or the first one of an f-string. -/
theorem good_pushStringToken {L read : Lexer} (h : Good program L) {isFstring : Bool} (quote : Quote) {skip : Nat}
    (hskip : Clear program L.cursor (L.cursor + skip)) (hsame : Same L read)
    (hread : isFstring = false → Here program read ∧ L.cursor ≤ read.cursor) :
    Good program (L.pushStringToken isFstring quote skip read) := by
  unfold pushStringToken
  split
  next hf =>
    have hstart : Good program { read with cursor := L.cursor, position := L.position, quote := quote :: read.quote } :=
      ⟨⟨h.position, h.inside⟩, by rw [hsame.tokens]; exact h.covers⟩
    have hpushed := hstart.word hskip .fstringStart (by simp) (by simp)
    exact ⟨⟨hpushed.position, hpushed.inside⟩, hpushed.covers⟩
  next hf =>
    obtain ⟨hhere, hle⟩ := hread (by simpa using hf)
    exact h.token hhere hsame.tokens hle .string (by simp)

theorem Here.segment {L : Lexer} {n : Nat} (h : Here program L) (hclear : Clear program L.cursor (L.cursor + n)) :
    Segment program L n false := by
  refine ⟨?_, fun _ => ⟨h, hclear⟩⟩
  have hrow := congrArg Position.row (posAt_clear hclear)
  rw [h.position]
  exact hrow.symm

theorem good_tryReadString {L : Lexer} (h : Good program L) (hfine : StringFine program L) :
    Ensures (fun _ => True) (L.tryReadString program) fun r => Good program r.2 ∧ (r.1 = false → r.2 = L) := by
  unfold tryReadString
  simp only [ensures_bind, ensures_ite, ensures_pure]
  refine ⟨fun _ => ⟨h, fun _ => trivial⟩, fun _ => ?_⟩
  refine (ensures_findPrefix_at L prefix_clear).with_eq.mono fun found ⟨hfound, hat⟩ => ?_
  cases found with
  | none => exact ⟨h, fun _ => rfl⟩
  | some p =>
    obtain ⟨hlead, d, hd, hquote⟩ := hat p rfl
    rw [Nat.zero_add] at hd
    simp only [ensures_bind, ensures_ite, ensures_pure]
    -- a string in three quotes, and one in single quotes
    have htriple : ∀ {q : Char} (quote : Quote), q ≠ '\n' → L.isTripleQuote program p.length q = .ok true →
        Ensures (fun _ => True) (tripleQuotedString q (program.drop (L.cursor + (p.length + 3))) (p.length + 3) L)
          fun read => Good program (L.pushStringToken (p.contains 'f' || p.contains 'F') quote (p.length + 3) read) ∧
            ((true : Bool) = false → L.pushStringToken (p.contains 'f' || p.contains 'F') quote (p.length + 3) read = L) := by
      intro q quote hq hthree
      have hskip := hlead.append ((ensures_isTripleQuote_clear L hq p.length).of_ok hthree rfl)
      cases hf : (p.contains 'f' || p.contains 'F') with
      | true =>
        exact (ensures_tripleQuotedString aborts_true _ _ _ L).mono fun read hsame =>
          ⟨good_pushStringToken h quote hskip hsame nofun, nofun⟩
      | false =>
        have hbreaks := (hfine p hfound hf q (peek_of_isTripleQuote hthree)).1 hthree
        exact (Ensures.and (ensures_tripleQuotedString aborts_true _ _ _ L)
          (here_tripleQuotedString hq rfl (h.toHere.segment hskip) hbreaks)).mono fun read hread =>
            ⟨good_pushStringToken h quote hskip hread.1 fun _ => hread.2, nofun⟩
    have hsingle : ∀ {q : Char} (quote : Quote), q ≠ '\n' → L.isTripleQuote program p.length q = .ok false →
        L.peek program p.length = .ok q →
        Ensures (fun _ => True) (quotedString q (program.drop (L.cursor + (p.length + 1))) (p.length + 1) L)
          fun read => Good program (L.pushStringToken (p.contains 'f' || p.contains 'F') quote (p.length + 1) read) ∧
            ((true : Bool) = false → L.pushStringToken (p.contains 'f' || p.contains 'F') quote (p.length + 1) read = L) := by
      intro q quote hq hthree hpeek
      have hget : program[L.cursor + p.length]? = some q := by
        unfold peek at hpeek
        split at hpeek
        next c hc => rw [hc, Except.ok.inj hpeek]
        next => cases hpeek
      have hskip := hlead.append (Clear.one hget hq)
      cases hf : (p.contains 'f' || p.contains 'F') with
      | true =>
        exact (ensures_quotedString aborts_true _ _ _ L).mono fun read hsame =>
          ⟨good_pushStringToken h quote hskip hsame nofun, nofun⟩
      | false =>
        have hbreaks := (hfine p hfound hf q hpeek).2 hthree
        exact (Ensures.and (ensures_quotedString aborts_true _ _ _ L)
          (here_quotedString hq rfl h.toHere hskip hbreaks)).mono fun read hread =>
            ⟨good_pushStringToken h quote hskip hread.1 fun _ => hread.2, nofun⟩
    refine (ensures_isTripleQuote_clear L (by decide) _).with_eq.mono fun b ⟨hb, _⟩ => ⟨fun htrue => ?_, fun hfalse => ?_⟩
    · exact htriple _ (by decide) (htrue ▸ hb)
    refine (ensures_isTripleQuote_clear L (by decide) _).with_eq.mono fun b' ⟨hb', _⟩ => ⟨fun htrue => ?_, fun hfalse' => ?_⟩
    · exact htriple _ (by decide) (htrue ▸ hb')
    rw [Bool.not_eq_true] at hfalse hfalse'
    subst hfalse hfalse'
    rw [hd, ensures_ok]
    refine ⟨fun hq => hsingle _ (by decide) hb (hq ▸ hd), fun hq => ?_⟩
    exact hsingle _ (by decide) hb' (hquote.resolve_left hq ▸ hd)

/-! ## Names, operators and numbers -/

theorem good_tryReadName {L : Lexer} (h : Good program L) :
    Ensures (fun _ => True) (L.tryReadName program) fun r => Good program r.2 ∧ (r.1 = false → r.2 = L) := by
  have hvalid : ∀ {c : Char}, validName c = true → c ≠ '\n' := by
    intro c hc h
    obtain rfl := h
    exact absurd hc (by decide)
  unfold tryReadName
  simp only [ensures_bind, ensures_ite, ensures_pure]
  refine ⟨fun _ => ⟨h, fun _ => trivial⟩, fun _ => ensures_peek aborts_true fun c hc =>
    ⟨fun _ => ⟨h, fun _ => trivial⟩, fun hstart => ?_⟩⟩
  refine (ensures_advanceIf aborts_true L (by decide)).mono fun ⟨first, M⟩ hM => ?_
  rcases hM with ⟨heq, hno⟩ | ⟨d, hd, hvd, heq⟩
  · have hfalse := hno c hc
    simp [hfalse] at hstart
  · obtain ⟨rfl, rfl⟩ := Prod.mk.inj heq
    have hne : d ≠ '\n' := by
      intro h
      obtain rfl := h
      exact absurd hvd (by decide)
    refine ⟨nofun, fun _ => (ensures_advanceWhile aborts_true _ _).mono ?_⟩
    intro read h
    obtain ⟨m, rfl, -, hall⟩ := h
    have hrest : Clear program (L.cursor + 1) (L.cursor + 1 + m) := fun i hi hlt => by
      obtain ⟨e, he, hve⟩ := hall i hi hlt
      exact ⟨e, he, hvalid hve⟩
    have hhere := (h.toHere.move (Clear.one hd hne)).move hrest
    exact ⟨h.token hhere rfl (by show _ ≤ _ + 1 + m; omega) .name (by simp), nofun⟩

theorem good_tryReadNumber {L : Lexer} (h : Good program L) :
    Ensures (fun _ => True) (L.tryReadNumber program) fun r => Good program r.2 := by
  refine (ensures_tryReadNumber aborts_true).mono ?_
  rintro r (rfl | ⟨n, hclear, rfl⟩)
  · exact h
  · exact h.word hclear .number (by simp) (by simp)

/-- What only concerns parentheses, modes and blocks does not matter here. -/
theorem Good.of_eq {L M : Lexer} (h : Good program L) (hp : M.position = L.position) (hc : M.cursor = L.cursor)
    (ht : M.tokens = L.tokens) : Good program M :=
  ⟨⟨by rw [hp, hc]; exact h.position, by rw [hc]; exact h.inside⟩, by rw [ht, hc]; exact h.covers⟩

theorem clear_lookup {L : Lexer} {table : List (List Char × TokenType)} {size : Nat} {type : TokenType}
    (htable : ∀ entry ∈ table, '\n' ∉ entry.1) (h : L.lookupOperation program table size = some type) :
    Clear program L.cursor (L.cursor + size) := by
  unfold lookupOperation at h
  split at h
  · cases h
  next hlen =>
    dsimp only at h
    split at h
    · cases h
    · obtain ⟨entry, hfind, -⟩ := Option.map_eq_some_iff.1 h
      have hentry : entry.1 = (L.rest program).take size := by simpa using List.find?_some hfind
      have hno := htable entry (List.mem_of_find?_eq_some hfind)
      rw [hentry] at hno
      intro i hi hlt
      have hin : i < program.length := by omega
      refine ⟨program[i], List.getElem?_eq_getElem hin, fun heq => hno ?_⟩
      have hget : ((L.rest program).take size)[i - L.cursor]? = some '\n' := by
        rw [List.getElem?_take_of_lt (by omega), rest, List.getElem?_drop, Nat.add_sub_cancel' hi,
          List.getElem?_eq_getElem hin, heq]
      exact List.mem_of_getElem? hget

/-- The token types whose text is no filler. -/
def IsWord (type : TokenType) : Prop := type ≠ .comment ∧ type ≠ .nl

/-- An operator of one character leaves the position alone. -/
structure OneCharacter (program : List Char) (L : Lexer) (r : Option TokenType × Lexer) : Prop where
  position : r.2.position = L.position
  cursor : r.2.cursor = L.cursor
  tokens : r.2.tokens = L.tokens
  word : ∀ type, r.1 = some type → Clear program L.cursor (L.cursor + 1) ∧ IsWord type

theorem ensures_oneCharacter_at (L : Lexer) :
    Ensures (fun _ => True) (L.tryReadOperationWithOneCharacter program) (OneCharacter program L) := by
  have hword : ∀ {M : Lexer} {c : Char} {type : TokenType}, M.position = L.position → M.cursor = L.cursor →
      M.tokens = L.tokens → program[L.cursor + 0]? = some c → c ≠ '\n' → IsWord type →
      OneCharacter program L (some type, M) := fun hp hc ht hget hne htype =>
    ⟨hp, hc, ht, fun type' heq => ⟨Clear.one hget hne, Option.some.inj heq ▸ htype⟩⟩
  have hclose : ∀ {c : Char} {type : TokenType}, program[L.cursor + 0]? = some c → c ≠ '\n' → IsWord type →
      Ensures (fun _ => True) (L.closeParenthesis type) (OneCharacter program L) := fun hget hne htype => by
    unfold closeParenthesis
    split
    · exact hword rfl rfl rfl hget hne htype
    · trivial
  have hpop : ∀ {c : Char} {type : TokenType}, program[L.cursor + 0]? = some c → c ≠ '\n' → IsWord type →
      Ensures (fun _ => True) (L.popNormal type) (OneCharacter program L) := fun hget hne htype => by
    unfold popNormal
    split
    · exact hword rfl rfl rfl hget hne htype
    · trivial
  have hsimple : ∀ entry ∈ simpleOperations, entry.1 ≠ '\n' ∧ IsWord entry.2 := by
    unfold IsWord
    decide
  unfold tryReadOperationWithOneCharacter
  simp only [ensures_bind, ensures_ite, ensures_pure]
  refine ensures_peek aborts_true fun c hc => ⟨fun _ => ⟨rfl, rfl, rfl, nofun⟩, fun _ => ⟨fun heq => ?_, fun _ =>
    ⟨fun heq => ?_, fun _ => ⟨fun heq => ?_, fun _ => ⟨fun heq => ?_, fun _ => ⟨fun heq => ?_, fun _ =>
    ⟨fun heq => ⟨fun _ => ?_, fun _ => ?_⟩, fun _ => ⟨fun heq => ⟨fun _ => ?_, fun _ => ?_⟩, fun _ => ?_⟩⟩⟩⟩⟩⟩⟩⟩
  · exact hword rfl rfl rfl hc (by rw [heq]; decide) (by simp [IsWord])
  · exact hclose hc (by rw [heq]; decide) (by simp [IsWord])
  · exact hword rfl rfl rfl hc (by rw [heq]; decide) (by simp [IsWord])
  · exact hclose hc (by rw [heq]; decide) (by simp [IsWord])
  · exact hword rfl rfl rfl hc (by rw [heq]; decide) (by simp [IsWord])
  · exact hpop hc (by rw [heq]; decide) (by simp [IsWord])
  · exact hclose hc (by rw [heq]; decide) (by simp [IsWord])
  · split
    · trivial
    · simp only [ensures_ite, ensures_pure]
      exact ⟨fun _ => hpop hc (by rw [heq]; decide) (by simp [IsWord]),
        fun _ => hword rfl rfl rfl hc (by rw [heq]; decide) (by simp [IsWord])⟩
  · exact hword rfl rfl rfl hc (by rw [heq]; decide) (by simp [IsWord])
  · refine ⟨rfl, rfl, rfl, fun type htype => ?_⟩
    obtain ⟨entry, hfind, rfl⟩ := Option.map_eq_some_iff.1 htype
    obtain ⟨hne, hentry⟩ := hsimple entry (List.mem_of_find?_eq_some hfind)
    have hchar : entry.1 = c := by simpa using List.find?_some hfind
    exact ⟨Clear.one hc (hchar ▸ hne), hentry⟩

theorem isWord_lookup {L : Lexer} {table : List (List Char × TokenType)} {size : Nat} {type : TokenType}
    (htable : ∀ entry ∈ table, IsWord entry.2) (h : L.lookupOperation program table size = some type) :
    IsWord type := by
  unfold lookupOperation at h
  split at h
  · cases h
  · dsimp only at h
    split at h
    · cases h
    · obtain ⟨entry, hfind, rfl⟩ := Option.map_eq_some_iff.1 h
      exact htable entry (List.mem_of_find?_eq_some hfind)

theorem good_tryReadOperation {L : Lexer} (h : Good program L) :
    Ensures (fun _ => True) (L.tryReadOperation program) fun r => Good program r.2 := by
  unfold tryReadOperation
  simp only [ensures_ite, ensures_pure]
  refine ⟨fun _ => h, fun _ => ?_⟩
  cases hthree : L.tryReadOperationWithThreeCharacters program with
  | some type =>
    have hword : IsWord type := isWord_lookup (by simp [IsWord]) hthree
    exact h.word (clear_lookup (by decide) hthree) type hword.1 hword.2
  | none =>
    cases htwo : L.tryReadOperationWithTwoCharacters program with
    | some type =>
      have hword : IsWord type := isWord_lookup (by simp [IsWord]) htwo
      exact h.word (clear_lookup (by decide) htwo) type hword.1 hword.2
    | none =>
      simp only [ensures_bind]
      refine (ensures_oneCharacter_at L).mono fun ⟨type, read⟩ hone => ?_
      have hread : Good program read := h.of_eq hone.position hone.cursor hone.tokens
      cases type with
      | none => exact hread
      | some type =>
        obtain ⟨hclear, hword⟩ := hone.word type rfl
        rw [← show read.cursor = L.cursor from hone.cursor] at hclear
        have hpushed := hread.word hclear type hword.1 hword.2
        rw [show read.position = L.position from hone.position] at hpushed
        exact hpushed

/-! ## F-strings -/

/-- The turns of `try_fstring` that do not end the piece. -/
inductive Turns (program : List Char) (start : Position) (L : Lexer) : Lexer → Prop
  | refl : Turns program start L L
  | step {M N : Lexer} : Turns program start L M → M.reachedEnd program start = .ok (false, N) → Turns program start L N

/-- No turn of the piece moves over a line feed. -/
def FstringFine (program : List Char) (L : Lexer) : Prop :=
  ∀ M, Turns program L.position L M → program[M.cursor]? ≠ some '\n' ∧
    ¬ (program[M.cursor]? = some '\\' ∧ program[M.cursor + 1]? = some '\n')

theorem endsWith_true {L : Lexer} {found : Bool} {kind : Quote} (h : L.endsWith found kind = .ok true) :
    found = true := by
  cases found with
  | true => rfl
  | false => cases h

theorem ensures_endQuotes_clear (M : Lexer) :
    Ensures (fun _ => True) (M.endQuotes program) fun found =>
      ∀ n, found = some n → Clear program M.cursor (M.cursor + n) := by
  have hends : ∀ {found : Bool} {kind : Quote}, Ensures (fun _ => True) (M.endsWith found kind) fun b =>
      b = true → found = true := fun {found kind} => by
    cases hb : M.endsWith found kind with
    | error e => trivial
    | ok b => exact fun htrue => endsWith_true (htrue ▸ hb)
  have hquote : ∀ {q : Char}, q ≠ '\n' → Ensures (fun _ => True) (M.isQuoteAt program q) fun b =>
      b = true → Clear program M.cursor (M.cursor + 3) := fun {q} hq => by
    unfold isQuoteAt
    simp only [ensures_bind, ensures_ite, ensures_pure]
    refine ensures_peek aborts_true fun c hc => ⟨fun _ => nofun, fun heq => ?_⟩
    refine ensures_peek aborts_true fun d hd => ⟨fun _ => nofun, fun heq' => ?_⟩
    refine ensures_peek aborts_true fun e he htrue => ?_
    obtain rfl : c = q := not_not.1 heq
    obtain rfl : d = c := not_not.1 heq'
    obtain rfl : e = d := by simpa using htrue
    exact ((Clear.one hc hq).append (Clear.one hd hq)).append (Clear.one he hq)
  have hone : ∀ {c q : Char}, program[M.cursor + 0]? = some c → decide (c = q) = true → q ≠ '\n' → ∀ n, some 1 = some n →
      Clear program M.cursor (M.cursor + n) := fun hc heq hq n hn => by
    obtain rfl := Option.some.inj hn
    exact Clear.one hc (by rw [of_decide_eq_true heq]; exact hq)
  unfold endQuotes
  simp only [ensures_bind, ensures_ite, ensures_pure]
  refine ensures_peek aborts_true fun c hc => hends.mono fun b hb => ⟨fun htrue => hone hc (hb htrue) (by decide), fun _ => ?_⟩
  refine hends.mono fun b hb => ⟨fun htrue => hone hc (hb htrue) (by decide), fun _ => ?_⟩
  refine (hquote (by decide)).mono fun t ht => hends.mono fun b hb => ⟨fun htrue n hn => ?_, fun _ => ?_⟩
  · obtain rfl := Option.some.inj hn
    exact ht (hb htrue)
  refine (hquote (by decide)).mono fun t ht => hends.mono fun b hb => ⟨fun htrue n hn => ?_, fun _ => nofun⟩
  obtain rfl := Option.some.inj hn
  exact ht (hb htrue)

/-- A turn ends the piece, or moves over characters that are no line feeds. -/
theorem good_reachedEnd {L M : Lexer} (h : Good program L) (hM : Here program M) (htokens : M.tokens = L.tokens)
    (hle : L.cursor ≤ M.cursor) (hfine : program[M.cursor]? ≠ some '\n' ∧
      ¬ (program[M.cursor]? = some '\\' ∧ program[M.cursor + 1]? = some '\n')) :
    Ensures (fun _ => True) (M.reachedEnd program L.position) fun r =>
      (r.1 = true → Good program r.2) ∧
        (r.1 = false → ∃ n, r.2 = M.advance n ∧
          (M.cursor + n ≤ program.length → Clear program M.cursor (M.cursor + n))) := by
  have hmiddle : Good program (M.pushToken .fstringMiddle L.position M.position) :=
    h.token hM htokens hle .fstringMiddle (by simp)
  have hpiece : ∀ (type : TokenType) {n : Nat}, IsWord type → Clear program M.cursor (M.cursor + n) →
      Good program (M.pushPiece L.position type n) := fun type _ htype hclear => hmiddle.word hclear type htype.1 htype.2
  have hadvance : ∀ {n : Nat}, Clear program M.cursor (M.cursor + n) →
      ((false : Bool) = true → Good program (M.advance n)) ∧ (True → ∃ n', M.advance n = M.advance n' ∧
        (M.cursor + n' ≤ program.length → Clear program M.cursor (M.cursor + n'))) :=
    fun hclear => ⟨nofun, fun _ => ⟨_, rfl, fun _ => hclear⟩⟩
  unfold reachedEnd
  simp only [ensures_bind, ensures_ite, ensures_pure]
  refine ⟨fun hbrace => ?_, fun _ => (ensures_endQuotes_clear M).mono fun found hfound => ?_⟩
  · obtain ⟨-, hc⟩ : M.cursor + 1 < program.length ∧ program[M.cursor]? = some '}' := by simpa using hbrace
    have hclear : Clear program M.cursor (M.cursor + 1) := Clear.one hc (by decide)
    refine ensures_peek aborts_true fun d hd => ⟨fun _ => ⟨fun _ => hpiece _ (by simp [IsWord]) hclear, nofun⟩, fun heq => ?_⟩
    have hboth : Clear program M.cursor (M.cursor + 2) := hclear.append (Clear.one hd (by rw [not_not.1 heq]; decide))
    exact hadvance hboth
  · cases found with
    | some n =>
      have hpushed := hpiece .fstringEnd (by simp [IsWord]) (hfound n rfl)
      exact ⟨fun _ => hpushed.of_eq rfl rfl rfl, nofun⟩
    | none =>
      simp only [ensures_bind, ensures_ite, ensures_pure]
      refine ensures_peek aborts_true fun c hc => ⟨fun hopen => ?_, fun _ => ensures_peek aborts_true fun c' hc' =>
        ⟨fun hescape => ⟨nofun, fun _ => ⟨2, rfl, fun hlen => ?_⟩⟩, fun _ => ?_⟩⟩
      · have hclear : Clear program M.cursor (M.cursor + 1) := Clear.one hc (by rw [hopen]; decide)
        refine ensures_peek aborts_true fun d hd => ⟨fun _ => ?_, fun heq => ?_⟩
        · have hpushed := hpiece .lbrace (by simp [IsWord]) hclear
          exact ⟨fun _ => hpushed.of_eq rfl rfl rfl, nofun⟩
        · have hboth : Clear program M.cursor (M.cursor + 2) :=
            hclear.append (Clear.one hd (by rw [not_not.1 heq]; decide))
          exact hadvance hboth
      · rw [hescape] at hc'
        have hnext : program[M.cursor + 1]? = some program[M.cursor + 1] := List.getElem?_eq_getElem _
        refine (Clear.one hc' (by decide)).append (Clear.one hnext fun heq => hfine.2 ⟨hc', ?_⟩)
        rw [hnext, heq]
      · have hone : Clear program M.cursor (M.cursor + 1) := Clear.one hc' fun heq => hfine.1 (by rw [← heq]; exact hc')
        exact ⟨nofun, fun _ => ⟨1, rfl, fun _ => hone⟩⟩

theorem good_tryFstring {L : Lexer} (h : Good program L) (hfine : FstringFine program L) :
    Ensures (fun _ => True) (L.tryFstring program) fun r => Good program r.2 := by
  have hloop : ∀ (fuel : Nat) (M : Lexer), Turns program L.position L M → Here program M → M.tokens = L.tokens →
      L.cursor ≤ M.cursor → Ensures (fun _ => True) (fstringLoop program L.position fuel M) (Good program) := by
    intro fuel
    induction fuel with
    | zero => exact fun M _ _ _ _ => trivial
    | succ fuel ih =>
      intro M hturns hM htokens hle
      unfold fstringLoop peekNewline
      simp only [ensures_bind]
      refine (good_reachedEnd h hM htokens hle (hfine M hturns)).with_eq.mono fun r hr => ?_
      obtain ⟨reached, N⟩ := r
      obtain ⟨hstep, hend, hturn⟩ := hr
      cases reached with
      | true => exact hend rfl
      | false =>
        obtain ⟨n, rfl, hclear⟩ := hturn rfl
        show Ensures _ (_ >>= _) _
        simp only [ensures_bind, ensures_ite, ensures_throw]
        refine (ensures_current aborts_true _).mono fun c hc => ⟨fun _ => trivial, fun _ => ?_⟩
        have hinside : M.cursor + n ≤ program.length := by
          rcases hc with hc | ⟨heq, -⟩
          · exact Nat.le_of_lt (List.getElem?_eq_some_iff.1 hc).1
          · exact Nat.le_of_eq heq
        exact ih _ (.step hturns hstep) (hM.move (hclear hinside)) htokens (Nat.le_trans hle (Nat.le_add_right _ _))
  unfold tryFstring
  simp only [ensures_bind, ensures_pure]
  exact hloop _ L .refl h.toHere rfl (Nat.le_refl _)

/-! ## The step -/

/-- None of the slips is met in the next step. -/
def Fine (program : List Char) (L : Lexer) : Prop :=
  if L.mode.head? = some .fstring then FstringFine program L
  else LinesFine program L ∧ ∀ M, M.cursor = tokenStart program L.cursor → StringFine program M

theorem SkipsTo.trans {L M N : Lexer} (h : SkipsTo program L M) (h' : SkipsTo program M N) : SkipsTo program L N :=
  Eq.trans h' h

theorem SkipsTo.tokenStart_eq {L M : Lexer} (h : SkipsTo program L M) :
    tokenStart program M.cursor = tokenStart program L.cursor := by
  unfold tokenStart
  rw [show skipBlanks program M.cursor = skipBlanks program L.cursor from h]

/-- A reader that leaves the lexer good, and what is read after it. -/
theorem good_orElse {reader next : Lexer → Except Stop (Bool × Lexer)} {L : Lexer} (P : Lexer → Prop)
    (hreader : Ensures (fun _ => True) (reader L) fun r => Good program r.2 ∧ (r.1 = false → P r.2))
    (hnext : ∀ M, reader L = .ok (false, M) → Good program M → P M →
      Ensures (fun _ => True) (next M) fun r => Good program r.2) :
    Ensures (fun _ => True) (L.orElse reader next) fun r => Good program r.2 := by
  unfold orElse
  rw [ensures_bind]
  refine hreader.with_eq.mono fun ⟨read, M⟩ ⟨heq, hgood, hfalse⟩ => ?_
  cases read with
  | true => exact hgood
  | false => exact hnext M heq hgood (hfalse rfl)

theorem good_readTokens {L : Lexer} (h : Good program L)
    (hfine : ∀ M, M.cursor = tokenStart program L.cursor → StringFine program M) :
    Ensures (fun _ => True) (L.readTokens program) fun r => Good program r.2 := by
  unfold readTokens
  refine good_orElse (· = L) (good_tryReadNewline h) fun M _ hM heq => ?_
  obtain rfl := heq
  simp only [ensures_bind]
  refine (good_tryReadBackslash hM).mono fun N ⟨hN, hskip⟩ => ?_
  refine (good_tryReadSpace hN).mono fun S ⟨hS, hcursor⟩ => ?_
  refine good_orElse (· = S) (good_tryReadString hS (hfine S (hcursor.trans hskip))) fun T _ hT _ => ?_
  refine good_orElse (· = T) (good_tryReadName hT) fun U _ hU _ => ?_
  refine good_orElse (fun _ => True) ((good_tryReadOperation hU).mono fun _ hr => ⟨hr, fun _ => True.intro⟩) fun V _ hV _ => ?_
  exact good_tryReadNumber hV

theorem good_step {L : Lexer} (h : Good program L) (hlt : L.cursor < program.length) (hfine : Fine program L) :
    Ensures (fun _ => True) (L.readMoreTokensLoop program) fun r => Good program r.2 := by
  unfold readMoreTokensLoop
  rw [if_neg (by omega), if_neg (by omega)]
  unfold Fine at hfine
  split
  next => trivial
  next below hmode =>
    rw [if_neg (by simp [hmode])] at hfine
    obtain ⟨hlines, hstring⟩ := hfine
    refine good_orElse (SkipsTo program L) (good_tryEmptyLine h hlines) fun M _ hM hskipM => ?_
    refine good_orElse (· = M) (good_tryReadComment hM) fun N _ hN heq => ?_
    obtain rfl := heq
    refine good_orElse (SkipsTo program N) (good_tryReadIndent hN) fun S _ hS hskipS => ?_
    exact good_readTokens hS fun T hT => hstring T (by rw [hT, (hskipM.trans hskipS).tokenStart_eq])
  next hmode =>
    rw [if_pos (by simp [hmode])] at hfine
    exact good_tryFstring h hfine

/-! ## The end of the program -/

/-- The end marker has been pushed. -/
structure Ended (program : List Char) (L : Lexer) : Prop where
  cursor : L.cursor = program.length + 1
  position : L.position = endPosition program
  covers : Covers program none 0 L.tokens program.length

theorem covers_dedentAll (stack : List Nat) {L : Lexer} (hp : L.position = endPosition program)
    (h : Covers program none 0 L.tokens program.length) :
    (dedentAll stack L).position = endPosition program ∧ (dedentAll stack L).cursor = L.cursor ∧
      Covers program none 0 (dedentAll stack L).tokens program.length := by
  fun_induction dedentAll stack L with
  | case1 top below rest L ih =>
    have htoken : TokenOk program ⟨.dedent, L.position, L.position⟩ :=
      ⟨.inr ⟨rfl, hp⟩, .inr (.inr ⟨.inl rfl, hp⟩), Nat.le_refl _, by simp⟩
    have hpointer : L.position.pointer = program.length := congrArg Position.pointer hp
    have hpushed := h.push (by rw [hpointer]; exact .nil _) htoken
    rw [show (⟨.dedent, L.position, L.position⟩ : Token).stop.pointer = program.length from hpointer] at hpushed
    exact ih hp hpushed
  | case2 => exact ⟨hp, rfl, h⟩

theorem Good.readEnd {L : Lexer} (h : Good program L) (hend : L.cursor = program.length) :
    Ended program L.readEnd := by
  have hposition : L.position = posAt program program.length := hend ▸ h.position
  have hnext : L.incrementRowPosition.position = endPosition program := by
    show (⟨L.position.row + 1, 0, L.cursor⟩ : Position) = _
    rw [hposition, hend]
    rfl
  have hcovers : Covers program none 0 L.tokens program.length := hend ▸ h.covers
  obtain ⟨hp, hc, htokens⟩ := covers_dedentAll L.indentValues
    (show ({ L.incrementRowPosition with cursor := L.cursor + 1 } : Lexer).position = _ from hnext) hcovers
  have hok : TokenOk program ⟨.endmarker, L.position, endPosition program⟩ := by
    refine ⟨.inl ?_, .inr (.inr ⟨.inr rfl, rfl⟩), ?_, by simp⟩
    · rw [hposition]
      rfl
    · rw [hposition]
      exact Nat.le_refl _
  refine ⟨?_, hp, ?_⟩
  · refine hc.trans ?_
    rw [hend]
  · have hpushed : Covers program none 0 (_ ++ [⟨.endmarker, L.position, endPosition program⟩]) program.length :=
      htokens.push (by rw [hposition]; exact .nil _) hok
    rw [← hp] at hpushed
    exact hpushed

/-- The states that steps lead to that meet none of the slips. -/
inductive ReachesFine (program : List Char) : Lexer → Prop
  | create : ReachesFine program {}
  | step {L L' : Lexer} {read : Bool} : ReachesFine program L → Fine program L →
      L.readMoreTokensLoop program = .ok (read, L') → ReachesFine program L'

theorem ReachesFine.good {L : Lexer} (h : ReachesFine program L) : Good program L ∨ Ended program L := by
  induction h with
  | create => exact .inl ⟨⟨rfl, Nat.zero_le _⟩, .nil 0⟩
  | @step L L' read _ hfine hstep ih =>
    rcases ih with hgood | hended
    · rcases Nat.lt_or_eq_of_le hgood.inside with hlt | heq
      · exact .inl ((good_step hgood hlt hfine).of_ok hstep)
      · unfold readMoreTokensLoop at hstep
        rw [if_neg (by omega), if_pos heq] at hstep
        obtain ⟨-, rfl⟩ := Prod.mk.inj (Except.ok.inj hstep)
        exact .inr (hgood.readEnd heq)
    · have hcursor := hended.cursor
      unfold readMoreTokensLoop at hstep
      rw [if_pos (by omega)] at hstep
      obtain ⟨-, rfl⟩ := Prod.mk.inj (Except.ok.inj hstep)
      exact .inr hended

end

/-- The position is that of the cursor, and the text read is the tokens, one behind the other, with filler between them,
whichever of them are emitted. -/
structure PositionsOk (program : List Char) (L : Lexer) : Prop where
  position : L.position = if L.cursor ≤ program.length then posAt program L.cursor else endPosition program
  covers : ∀ ignoreComments ignoreNl, Covers program none 0 (L.emitted ignoreComments ignoreNl) (min L.cursor program.length)

/-- **Positions.** In every state of a run that meets none of the slips the position is that of the cursor and the
tokens are in order. -/
theorem positionsOk {program : List Char} {L : Lexer} (h : ReachesFine program L) : PositionsOk program L := by
  have hfilter : ∀ {b : Nat}, Covers program none 0 L.tokens b → ∀ ignoreComments ignoreNl,
      Covers program none 0 (L.emitted ignoreComments ignoreNl) b := by
    intro b hcovers ignoreComments ignoreNl
    refine hcovers.filter fun t ht => ?_
    simp only [Bool.and_eq_false_iff, Bool.not_eq_false', Bool.and_eq_true, decide_eq_true_eq] at ht
    exact ht.imp (fun hand => hand.2) fun hand => hand.2
  rcases h.good with hgood | hended
  · refine ⟨?_, ?_⟩
    · rw [if_pos hgood.inside]
      exact hgood.position
    · rw [Nat.min_eq_left hgood.inside]
      exact hfilter hgood.covers
  · have hcursor := hended.cursor
    refine ⟨?_, ?_⟩
    · rw [if_neg (by omega)]
      exact hended.position
    · rw [Nat.min_eq_right (by omega)]
      exact hfilter hended.covers

/-- Lines at four depths, the last of which leaves two blocks at once. -/
def indented : List Char := ['a', '\n', ' ', 'c', '\n', ' ', ' ', 'd', '\n', ' ', ' ', ' ', 'e', '\n', ' ', 'g', '\n']

theorem findPrefix_congr {program : List Char} {L M : Lexer} (h : M.cursor = L.cursor) (ps : List (List Char)) :
    M.findPrefix program ps = L.findPrefix program ps := by
  have hpeek (i : Nat) : M.peek program i = L.peek program i := by
    unfold peek
    rw [h]
  have hprefix (p : List Char) : ∀ i, M.peekPrefix program p i = L.peekPrefix program p i := by
    induction p with
    | nil =>
      intro i
      simp only [peekPrefix, hpeek]
    | cons c p ih =>
      intro i
      simp only [peekPrefix, hpeek, ih]
  induction ps with
  | nil => rfl
  | cons p ps ih => simp only [findPrefix, hprefix, ih]

theorem indented_steps : ∀ n < 15, (stateAfter indented n).readMoreTokensLoop indented =
    .ok (true, stateAfter indented (n + 1)) := by
  decide +kernel

theorem indented_fine : ∀ n < 15, Fine indented (stateAfter indented n) := by
  intro n hn
  have hmode : ∀ n < 15, (stateAfter indented n).mode.head? ≠ some .fstring := by decide +kernel
  have hlines : ∀ n < 15, ((((stateAfter indented n).rest indented).dropWhile isBlank).head?.all
      fun c => !isSpace c || c == '\n') = true := by decide +kernel
  have hstring : ∀ n < 15, (({ cursor := tokenStart indented (stateAfter indented n).cursor } : Lexer).findPrefix indented
      stringPossiblePrefixes).toOption.join = none := by decide +kernel
  refine (if_neg (hmode n hn)).mpr ⟨fun c s hs hspace hne => ?_, fun M hM p hp => ?_⟩
  · have hline := hlines n hn
    rw [hs, List.head?_cons, Option.all_some, hspace] at hline
    exact absurd (by simpa using hline) hne
  · have hnone := hstring n hn
    rw [← findPrefix_congr hM, hp] at hnone
    cases hnone

theorem indented_reaches : ∀ n ≤ 15, ReachesFine indented (stateAfter indented n) := by
  intro n
  induction n with
  | zero => exact fun _ => .create
  | succ n ih => exact fun hn => .step (ih (by omega)) (indented_fine n (by omega)) (indented_steps n (by omega))

theorem positionsOk_indented :
    ∃ L, readTimes indented 15 {} = .ok L ∧ (L.tokens.map (·.tokenType)).count .dedent = 3 ∧ PositionsOk indented L :=
  ⟨stateAfter indented 15, by decide +kernel, by decide +kernel, positionsOk (indented_reaches 15 (Nat.le_refl _))⟩

/-- A line of one name. -/
def namedLine : List Char := ['a', '\n']

theorem line_feed_ends_row : ¬ ∀ L, Reaches namedLine L → L.position = posAt namedLine L.cursor ∧
    ∀ t ∈ L.tokens, t.start = posAt namedLine t.start.pointer ∧ t.stop = posAt namedLine t.stop.pointer := by
  intro hall
  have hrun : ((readTimes namedLine 2 {}).toOption.any fun L =>
      L.tokens.any fun t => t.stop ≠ posAt namedLine t.stop.pointer) = true := by decide +kernel
  cases hL : readTimes namedLine 2 {} with
  | error e =>
    rw [hL] at hrun
    cases hrun
  | ok L =>
    rw [hL] at hrun
    obtain ⟨t, ht, hne⟩ : ∃ t ∈ L.tokens, t.stop ≠ posAt namedLine t.stop.pointer := by
      simpa using List.any_eq_true.1 hrun
    exact hne ((hall L (Reaches.create.times hL)).2 t ht).2

end Lexer

end Pylang.Lex
