/-
Where a reader looks ahead and finds a character each time, and what it has
moved over then (`Reading`). A string is closed before the program ends, and
before its line if it has one quote; a bracket that closes was opened; a
backslash ends its line; a dedent meets a block.
-/
import Pylang.Lex.Positions

namespace Pylang.Lex

/-! ## Texts -/

/-- The text ends in a line feed. -/
def EndsLine (s : List Char) : Prop := s.getLast? = some '\n'

theorem EndsLine.next {c : Char} {s : List Char} (h : EndsLine (c :: s)) (hc : c ≠ '\n') : EndsLine s := by
  unfold EndsLine at h ⊢
  cases s with
  | nil => exact absurd (Option.some.inj h) hc
  | cons d s => rwa [List.getLast?_cons_cons] at h

theorem EndsLine.drop {s : List Char} (h : EndsLine s) {n : Nat} (hn : n < s.length) : EndsLine (s.drop n) := by
  unfold EndsLine
  rw [List.getLast?_drop, if_neg (by omega)]
  exact h

theorem EndsLine.exists_cons {s : List Char} (h : EndsLine s) : ∃ c t, s = c :: t := by
  cases s with
  | nil => cases h
  | cons c t => exact ⟨c, t, rfl⟩

theorem EndsLine.mem {s : List Char} (h : EndsLine s) : '\n' ∈ s := List.mem_of_getLast? h

theorem EndsLine.takeWhile_lt {s : List Char} (h : EndsLine s) {p : Char → Bool} (hp : p '\n' = false) :
    (s.takeWhile p).length < s.length := by
  have hle : (s.takeWhile p).length ≤ s.length := (List.takeWhile_sublist p).length_le
  by_contra hge
  have hall : s.takeWhile p = s := (List.takeWhile_sublist p).eq_of_length (by omega)
  have hmem := h.mem
  rw [← hall] at hmem
  have htrue := List.all_eq_true.1 List.all_takeWhile _ hmem
  rw [hp] at htrue
  cases htrue

/-- Behind a character that is no line feed there is another one. -/
theorem EndsLine.get_next {s : List Char} (h : EndsLine s) {i : Nat} {c : Char} (hc : s[i]? = some c) (hne : c ≠ '\n') :
    ∃ d, s[i + 1]? = some d := by
  obtain ⟨hlt, hget⟩ := List.getElem?_eq_some_iff.1 hc
  have hdrop := h.drop hlt
  rw [List.drop_eq_getElem_cons hlt, hget] at hdrop
  obtain ⟨d, t, hd⟩ := (hdrop.next hne).exists_cons
  refine ⟨d, ?_⟩
  rw [← Nat.add_zero (i + 1), ← List.getElem?_drop, hd]
  rfl

theorem EndsLine.lt_next {s : List Char} (h : EndsLine s) {i : Nat} {c : Char} (hc : s[i]? = some c) (hne : c ≠ '\n') :
    i + 1 < s.length := by
  obtain ⟨d, hd⟩ := h.get_next hc hne
  exact (List.getElem?_eq_some_iff.1 hd).1

/-- What follows the opening quote of a string that is closed; a line feed in it is escaped, unless lines are admitted. -/
inductive Closes (quote : Char) (lines : Bool) : List Char → Prop
  | close (s : List Char) : Closes quote lines (quote :: s)
  | char {c : Char} {s : List Char} : c ≠ '\\' → (c = '\n' → lines = true) → Closes quote lines s →
      Closes quote lines (c :: s)
  | escape {c : Char} {s : List Char} : Closes quote lines s → Closes quote lines ('\\' :: c :: s)

/-- What follows the three quotes of a string that is closed. -/
inductive TripleCloses (quote : Char) : List Char → Prop
  | close (s : List Char) : TripleCloses quote (quote :: quote :: quote :: s)
  | char {c : Char} {s : List Char} : c ≠ '\\' → TripleCloses quote s → TripleCloses quote (c :: s)
  | escape {c : Char} {s : List Char} : TripleCloses quote s → TripleCloses quote ('\\' :: c :: s)

theorem TripleCloses.exists_cons {q : Char} {s : List Char} (h : TripleCloses q s) : ∃ c t, s = c :: t := by
  cases h with
  | close s => exact ⟨_, _, rfl⟩
  | char _ _ => exact ⟨_, _, rfl⟩
  | escape _ => exact ⟨_, _, rfl⟩

theorem TripleCloses.tail {q : Char} {s : List Char} (h : TripleCloses q (q :: s)) (hq : q ≠ '\\') : ∃ c t, s = c :: t := by
  generalize hs : q :: s = u at h
  cases h with
  | close u => exact ⟨q, q :: u, (List.cons.inj hs).2⟩
  | char _ h => exact (List.cons.inj hs).2 ▸ h.exists_cons
  | escape _ => exact absurd (List.cons.inj hs).1 hq

/-- What follows the first quote of a string. -/
def StringCloses (quote : Char) (lines : Bool) (s : List Char) : Prop :=
  (∀ t, s = quote :: quote :: t → TripleCloses quote t) ∧
    ((∀ t, s ≠ quote :: quote :: t) → Closes quote lines s)

namespace Lexer

/-- No error at all. -/
abbrev Never : Stop → Prop := fun _ => False

theorem never_iff {α : Type} {x : Except Stop α} {P : α → Prop} : Ensures Never x P ↔ ∃ a, x = .ok a ∧ P a := by
  cases x with
  | ok a => exact ⟨fun h => ⟨a, rfl, h⟩, fun ⟨b, hb, h⟩ => by cases hb; exact h⟩
  | error e => exact ⟨False.elim, fun ⟨b, hb, _⟩ => by cases hb⟩

/-- A reader has read and moved on inside the program, or has left the state as it is. -/
structure Reading (program : List Char) (L : Lexer) (r : Bool × Lexer) : Prop where
  read : r.1 = true → L.cursor < r.2.cursor ∧ r.2.cursor ≤ program.length ∧ r.2.indentValues = L.indentValues
  unread : r.1 = false → r.2 = L

section
variable {program : List Char} {L : Lexer}

theorem reading_true {M : Lexer} (h : L.cursor < M.cursor) (hle : M.cursor ≤ program.length)
    (hindent : M.indentValues = L.indentValues) : Reading program L (true, M) :=
  ⟨fun _ => ⟨h, hle, hindent⟩, nofun⟩

theorem reading_false : Reading program L (false, L) := ⟨nofun, fun _ => rfl⟩

theorem rest_advance (L : Lexer) (n : Nat) : (L.incrementColumnPosition n).rest program = (L.rest program).drop n :=
  List.drop_drop.symm

theorem endsLine_rest (hend : EndsLine program) (hlt : L.cursor < program.length) : EndsLine (L.rest program) :=
  hend.drop hlt

theorem lt_of_get {i : Nat} {c : Char} (h : (L.rest program)[i]? = some c) : L.cursor + i < program.length := by
  obtain ⟨hlt, -⟩ := List.getElem?_eq_some_iff.1 h
  have hlength := rest_length program L
  omega

theorem ensures_peekAt {E : Stop → Prop} {i : Nat} {c : Char} {P : Char → Prop} (h : (L.rest program)[i]? = some c) :
    Ensures E (L.peek program i) P ↔ P c := by
  rw [peek_of_rest h]
  exact Iff.rfl

theorem current_of_rest {c : Char} (h : (L.rest program)[0]? = some c) : L.current program = .ok c := by
  rw [rest, List.getElem?_drop] at h
  unfold current
  rw [show program[L.cursor]? = some c from h]

theorem never_current (hle : L.cursor ≤ program.length) : Ensures Never (L.current program) fun c =>
    (L.rest program)[0]? = some c ∨ L.cursor = program.length ∧ c = Char.ofNat 0 := by
  by_cases hlt : L.cursor < program.length
  · have hget : (L.rest program)[0]? = some program[L.cursor] := by
      rw [rest, List.getElem?_drop]
      exact List.getElem?_eq_getElem hlt
    rw [current_of_rest hget]
    exact .inl hget
  · have heq : L.cursor = program.length := by omega
    unfold current
    rw [heq, List.getElem?_eq_none (Nat.le_refl _)]
    dsimp only
    rw [if_pos rfl]
    exact .inr ⟨rfl, rfl⟩

/-- `advance_while` stops inside the program, at a line feed at the latest. -/
theorem never_advanceWhile (hle : L.cursor ≤ program.length) {condition : Char → Bool}
    (h : EndsLine (L.rest program) ∧ condition '\n' = false ∨ condition (Char.ofNat 0) = false) :
    Ensures Never (L.advanceWhile program condition) fun M =>
      ∃ n, M = L.incrementColumnPosition n ∧ L.cursor + n ≤ program.length := by
  have hlength := rest_length program L
  have htake : ((L.rest program).takeWhile condition).length ≤ (L.rest program).length :=
    (List.takeWhile_sublist condition).length_le
  have hstop : ¬ ((L.rest program).length = ((L.rest program).takeWhile condition).length ∧
      condition (Char.ofNat 0) = true) := by
    intro hand
    rcases h with ⟨hline, hfeed⟩ | hzero
    · have hlt := hline.takeWhile_lt hfeed
      omega
    · rw [hzero] at hand
      cases hand.2
  unfold advanceWhile
  dsimp only
  rw [if_neg hstop, if_neg (by omega)]
  exact ⟨_, rfl, by omega⟩

theorem blanks_lt (hline : EndsLine (L.rest program)) :
    L.cursor + ((L.rest program).takeWhile isBlank).length < program.length := by
  have hlength := rest_length program L
  have hlt := hline.takeWhile_lt (p := isBlank) (by decide)
  omega

/-! ## Lines -/

theorem never_tryEmptyLine (hline : EndsLine (L.rest program)) :
    Ensures Never (L.tryEmptyLine program) (Reading program L) := by
  obtain ⟨c, s, hrest⟩ := hline.exists_cons
  have hget : (L.rest program)[0]? = some c := by
    rw [hrest]
    rfl
  have hlt := lt_of_get hget
  have hblanks := blanks_lt hline
  unfold tryEmptyLine
  simp only [ensures_bind, ensures_ite, ensures_pure]
  rw [ensures_peekAt hget]
  refine ⟨fun _ => ⟨fun _ => reading_true (Nat.lt_succ_self _) hlt rfl, fun _ => reading_false⟩, fun _ => ?_⟩
  rw [advanceWhile_blank L (Nat.le_of_lt hlt), ensures_ok]
  refine ⟨fun hle => absurd hle (Nat.not_le.2 hblanks), fun _ => ?_⟩
  have hnext : ((L.incrementColumnPosition ((L.rest program).takeWhile isBlank).length).rest program)[0]? =
      some program[L.cursor + ((L.rest program).takeWhile isBlank).length] := by
    rw [rest, List.getElem?_drop]
    exact List.getElem?_eq_getElem hblanks
  rw [ensures_peekAt hnext]
  refine ⟨fun _ => reading_true ?_ hblanks rfl, fun _ => reading_false⟩
  show L.cursor < L.cursor + _ + 1
  omega

theorem never_commentScan {s : List Char} {n : Nat} (hline : EndsLine s) :
    Ensures Never (commentScan s n) fun _ => True := by
  fun_induction commentScan s n with
  | case1 => cases hline
  | case2 c n hblank =>
    obtain rfl : c = '\n' := Option.some.inj hline
    exact absurd hblank (by decide)
  | case4 c n hblank d s hd ih =>
    refine ih (hline.next ?_)
    intro h
    obtain rfl := h
    exact absurd hblank (by decide)
  | case3 | case5 => trivial

theorem never_tryReadComment (hend : EndsLine program) (hlt : L.cursor < program.length) :
    Ensures Never (L.tryReadComment program) (Reading program L) := by
  have hline := endsLine_rest hend hlt
  obtain ⟨c, s, hrest⟩ := hline.exists_cons
  have hget : (L.rest program)[0]? = some c := by
    rw [hrest]
    rfl
  have hstart : Ensures Never (L.commentStart program) fun _ => True := by
    unfold commentStart
    simp only [ensures_bind, ensures_ite, ensures_pure]
    rw [ensures_peekAt hget]
    exact ⟨fun _ => trivial, fun _ => ⟨fun _ => trivial, fun _ => never_commentScan hline⟩⟩
  obtain ⟨start, hstart, -⟩ := never_iff.1 hstart
  unfold tryReadComment
  rw [hstart, ensures_bind, ensures_ok]
  cases start with
  | none => exact reading_false
  | some n =>
    obtain ⟨-, hhash⟩ := (ensures_commentStart_some L).of_ok hstart n rfl
    have hhash' : (L.rest program)[n]? = some '#' := by
      rw [rest, List.getElem?_drop]
      exact hhash
    obtain ⟨d, hd⟩ := hline.get_next hhash' (by decide)
    have hnext := lt_of_get hd
    have hafter : EndsLine (((L.advance n).advance 1).rest program) := hend.drop (n := L.cursor + n + 1) hnext
    simp only [ensures_bind, ensures_ite, ensures_pure]
    refine (never_advanceWhile (Nat.le_of_lt hnext) (.inl ⟨hafter, by decide⟩)).with_eq.mono ?_
    intro read h
    obtain ⟨hread, m, rfl, hm⟩ := h
    -- the line feed that ends the comment
    obtain ⟨c, hc, hfalse⟩ := (ensures_advanceWhile_stops (E := fun _ => True) aborts_true _ (by decide)).of_ok hread
    have hle : L.cursor + n + 1 + m < program.length := (List.getElem?_eq_some_iff.1 hc).1
    have hreading : ∀ {M : Lexer}, M.cursor = L.cursor + n + 1 + m + 1 → M.indentValues = L.indentValues →
        Reading program L (true, M) := fun hcursor hindent => reading_true (by omega) (by omega) hindent
    exact ⟨fun _ => hreading rfl rfl, fun _ => hreading rfl rfl⟩

theorem never_tryReadNewline (hlt : L.cursor < program.length) :
    Ensures Never (L.tryReadNewline program) (Reading program L) := by
  unfold tryReadNewline peekNewline
  simp only [ensures_bind, ensures_ite, ensures_pure]
  exact (never_current (Nat.le_of_lt hlt)).mono fun c _ =>
    ⟨fun _ => reading_true (Nat.lt_succ_self _) hlt rfl, fun _ => reading_false⟩

/-! ## Indentation -/

/-- How far the lexer is from the end of its work. -/
def measure (program : List Char) (L : Lexer) : Nat := 2 * (program.length + 1 - L.cursor) + L.indentValues.length

theorem Reading.measure_lt {r : Bool × Lexer} (h : Reading program L r) (hr : r.1 = true) :
    measure program r.2 < measure program L := by
  obtain ⟨hlt, hle, hindent⟩ := h.read hr
  unfold measure
  rw [hindent]
  omega

theorem never_dedent {v : Nat} {start stop : Position} {stack : List Nat} (hv : v ∈ stack) (hL : L.indentValues = stack) :
    Ensures Never (dedent v start stop stack L) fun M => M.cursor = L.cursor ∧ M.mode = L.mode ∧
      M.indentValues.length ≤ stack.length ∧ (stack.head? ≠ some v → M.indentValues.length < stack.length) := by
  induction stack generalizing L with
  | nil => cases hv
  | cons top below ih =>
    unfold dedent
    simp only [ensures_ite, ensures_ok]
    refine ⟨fun hne => ?_, fun heq => ⟨trivial, trivial, Nat.le_of_eq (congrArg List.length hL), fun hhead => absurd (by rw [not_not.1 heq]; rfl) hhead⟩⟩
    have hbelow : v ∈ below := (List.mem_cons.1 hv).resolve_left hne
    refine (ih (L := { L.pushToken .dedent start stop with indentValues := below }) hbelow rfl).mono fun M hM => ?_
    obtain ⟨hcursor, hmode, hle, -⟩ := hM
    exact ⟨hcursor, hmode, Nat.le_succ_of_le hle, fun _ => Nat.lt_succ_of_le hle⟩

theorem never_computeIndentLevel {s : List Char} (hline : EndsLine s) (value pos : Nat) :
    Ensures Never (computeIndentLevel s value pos) fun r =>
      r.2 = pos + (s.takeWhile isBlank).length ∧ (pos = r.2 → r.1 = value) := by
  fun_induction computeIndentLevel s value pos with
  | case1 => cases hline
  | case2 c s value pos hblank ih =>
    have hne : c ≠ '\n' := ne_newline_of_isBlank hblank
    refine (ih (hline.next hne)).mono fun r hr => ?_
    rw [List.takeWhile_cons_of_pos hblank, List.length_cons]
    refine ⟨by omega, fun heq => by omega⟩
  | case3 c s value pos hblank =>
    rw [List.takeWhile_cons_of_neg hblank]
    exact ⟨rfl, fun _ => rfl⟩

/-- What a reader of indentation leaves: tokens, and fewer blanks. -/
structure Indenting (program : List Char) (L : Lexer) (r : Bool × Lexer) : Prop where
  read : r.1 = true → measure program r.2 < measure program L
  inside : r.2.cursor ≤ program.length
  unread : r.1 = false → r.2 = L ∨ r.2 = L.incrementColumnPosition ((L.rest program).takeWhile isBlank).length

theorem never_tryReadIndent (hend : EndsLine program) (hlt : L.cursor < program.length) (hstack : L.indentValues ≠ [])
    (hmeets : ∀ v n, computeIndentLevel (L.rest program) 0 0 = .ok (v, n) → L.position.column = 0 →
      L.parenthesisLevel = 0 → v ∈ L.indentValues ∨ ∀ w ∈ L.indentValues, w < v) :
    Ensures Never (L.tryReadIndent program) (Indenting program L) := by
  have hline := endsLine_rest hend hlt
  have hblanks := blanks_lt hline
  unfold tryReadIndent
  simp only [ensures_ite, ensures_pure]
  refine ⟨fun hstart => ?_, fun _ => ⟨fun h => (by cases h), Nat.le_of_lt hlt, fun _ => .inl rfl⟩⟩
  obtain ⟨hcolumn, hlevel⟩ : L.position.column = 0 ∧ L.parenthesisLevel = 0 := by simpa using hstart
  obtain ⟨⟨v, n⟩, hcompute, hn, hzero⟩ := never_iff.1 (never_computeIndentLevel hline 0 0)
  have hm := hmeets v n hcompute hcolumn hlevel
  obtain rfl : n = ((L.rest program).takeWhile isBlank).length := by
    rw [Nat.zero_add] at hn
    exact hn
  rw [hcompute, ensures_bind]
  cases hvalues : L.indentValues with
  | nil => exact absurd hvalues hstack
  | cons top below =>
    rw [hvalues] at hm
    simp only [ensures_ite, ensures_bind, ensures_pure]
    refine ⟨fun htop => ⟨fun _ => ?_, Nat.le_of_lt hblanks, fun h => by cases h⟩, fun hle => ⟨fun htop => ?_, fun _ =>
      ⟨fun h => (by cases h), Nat.le_of_lt hblanks, fun _ => .inr rfl⟩⟩⟩
    · have hpos : 0 < ((L.rest program).takeWhile isBlank).length := by
        by_contra hnot
        have hzero' := hzero (by dsimp only; omega)
        dsimp only at hzero'
        omega
      show 2 * (program.length + 1 - (L.cursor + _)) + (v :: L.indentValues).length < 2 * _ + _
      rw [List.length_cons]
      omega
    · have hmem : v ∈ L.indentValues := by
        rw [hvalues]
        refine hm.resolve_right fun hall => ?_
        have hlarger := hall top List.mem_cons_self
        omega
      refine (never_dedent (L := L.incrementColumnPosition ((L.rest program).takeWhile isBlank).length) hmem
        rfl).mono fun M hM => ?_
      obtain ⟨hcursor, -, -, hless⟩ := hM
      have hfewer := hless fun heq => by
        rw [hvalues] at heq
        obtain rfl := Option.some.inj heq
        omega
      have hM' : M.cursor = L.cursor + ((L.rest program).takeWhile isBlank).length := hcursor
      refine ⟨fun _ => ?_, by dsimp only; omega, nofun⟩
      show 2 * (program.length + 1 - M.cursor) + M.indentValues.length < 2 * _ + L.indentValues.length
      omega

/-! ## Blanks and backslashes -/

/-- Only blanks, and a line that goes on, have been passed over. -/
structure ToToken (program : List Char) (L M : Lexer) : Prop where
  same : Same L M
  forward : L.cursor ≤ M.cursor
  inside : M.cursor ≤ program.length
  start : skipBlanks program M.cursor = tokenStart program L.cursor

theorem never_tryReadBackslash (hle : L.cursor ≤ program.length)
    (hfine : program[skipBlanks program L.cursor]? = some '\\' → program[skipBlanks program L.cursor + 1]? = some '\n') :
    Ensures Never (L.tryReadBackslash program) (ToToken program L) := by
  let M := L.incrementColumnPosition ((L.rest program).takeWhile isBlank).length
  have hM : M.cursor = skipBlanks program L.cursor := rfl
  have hlength := rest_length program L
  have htake : ((L.rest program).takeWhile isBlank).length ≤ (L.rest program).length :=
    (List.takeWhile_sublist isBlank).length_le
  have hMle : M.cursor ≤ program.length := by
    show L.cursor + _ ≤ _
    omega
  have hsame : Same L M := same_incrementColumnPosition L _
  unfold tryReadBackslash tryReadSpace
  rw [ensures_bind, advanceWhile_blank L hle, ensures_ok]
  unfold advanceIf
  simp only [ensures_bind, ensures_ite, ensures_pure]
  refine (never_current hMle).mono fun c hc => ⟨fun hslash => ⟨fun _ => ?_, nofun⟩, fun hslash => ⟨nofun, fun _ => ?_⟩⟩
  · obtain rfl : c = '\\' := by simpa using hslash
    have hget : program[M.cursor]? = some '\\' := by
      rcases hc with hc | ⟨-, hc⟩
      · rw [rest, List.getElem?_drop] at hc
        exact hc
      · exact absurd hc (by decide)
    have hfeed : program[M.cursor + 1]? = some '\n' := hfine hget
    have hin : M.cursor + 1 < program.length := (List.getElem?_eq_some_iff.1 hfeed).1
    have hcurrent : (M.incrementColumnPosition 1).current program = .ok '\n' := by
      unfold current
      rw [show program[(M.incrementColumnPosition 1).cursor]? = some '\n' from hfeed]
    have hstart : tokenStart program L.cursor = skipBlanks program (M.cursor + 1 + 1) := if_pos ⟨hget, hfeed⟩
    rw [hcurrent, ensures_ok]
    have hmoved : ToToken program L ((M.incrementColumnPosition 1).incrementColumnPosition 1).incrementRowPosition :=
      ⟨((hsame.trans (same_incrementColumnPosition M 1)).trans (same_incrementColumnPosition _ 1)).trans
        (same_incrementRowPosition _), by show L.cursor ≤ L.cursor + _ + 1 + 1; omega, hin, hstart.symm⟩
    exact ⟨fun _ => ⟨fun _ => hmoved, fun hnot => absurd trivial hnot⟩, fun hnot => absurd rfl hnot⟩
  · have hstart : tokenStart program L.cursor = skipBlanks program L.cursor := by
      refine if_neg fun hand => ?_
      rcases hc with hc | ⟨hend, -⟩
      · rw [rest, List.getElem?_drop] at hc
        obtain rfl : c = '\\' := Option.some.inj (hc.symm.trans hand.1)
        exact hslash (by decide)
      · have hlt := (List.getElem?_eq_some_iff.1 hand.1).1
        rw [← hM, hend] at hlt
        exact absurd hlt (Nat.lt_irrefl _)
    exact ⟨hsame, Nat.le_add_right _ _, hMle, by rw [hstart]; exact skipBlanks_skipBlanks program L.cursor⟩

/-! ## Strings -/

/-- The text between the quotes of a string. -/
inductive Body (quote : Char) (lines : Bool) : List Char → Prop
  | nil : Body quote lines []
  | char {c : Char} {s : List Char} : c ≠ quote → c ≠ '\\' → (c = '\n' → lines = true) → Body quote lines s →
      Body quote lines (c :: s)
  | escape {c : Char} {s : List Char} : Body quote lines s → Body quote lines ('\\' :: c :: s)

/-- The reader of a string of one quote stops behind its closing quote. -/
theorem never_quotedString {q : Char} {lines : Bool} {s : List Char} (h : Closes q lines s) (hq : q ≠ '\\') :
    ∃ body t, s = body ++ q :: t ∧ Body q lines body ∧ ∀ n L, Ensures Never (quotedString q s n L) fun M =>
      M.cursor = L.cursor + n + body.length + 1 := by
  induction h with
  | close s =>
    refine ⟨[], s, rfl, .nil, fun n L => ?_⟩
    rw [quotedString_cons hq, if_pos rfl]
    exact rfl
  | @char c s hslash hfeed _ ih =>
    obtain ⟨body, t, rfl, hbody, hread⟩ := ih
    by_cases hc : c = q
    · refine ⟨[], body ++ q :: t, by rw [hc]; rfl, .nil, fun n L => ?_⟩
      rw [quotedString_cons hslash, if_pos hc]
      exact rfl
    · refine ⟨c :: body, t, rfl, .char hc hslash hfeed hbody, fun n L => ?_⟩
      rw [quotedString_cons hslash, if_neg hc]
      refine (hread (n + 1) L).mono fun M hM => ?_
      rw [hM, List.length_cons]
      omega
  | @escape c s _ ih =>
    obtain ⟨body, t, rfl, hbody, hread⟩ := ih
    refine ⟨'\\' :: c :: body, t, rfl, .escape hbody, fun n L => ?_⟩
    rw [quotedString.eq_def]
    dsimp only
    rw [if_pos rfl]
    split
    · refine (hread 0 (L.advance (n + 2)).incrementRowPosition).mono fun M hM => ?_
      have hcursor : (L.advance (n + 2)).incrementRowPosition.cursor = L.cursor + (n + 2) := rfl
      rw [hM, hcursor]
      simp only [List.length_cons]
      omega
    · refine (hread (n + 2) L).mono fun M hM => ?_
      rw [hM]
      simp only [List.length_cons]
      omega

theorem never_tripleQuotedString {q : Char} {s : List Char} (h : TripleCloses q s) (hq : q ≠ '\\') : ∀ (n : Nat) (L : Lexer),
    Ensures Never (tripleQuotedString q s n L) fun M => L.cursor + n < M.cursor ∧ M.cursor ≤ L.cursor + n + s.length := by
  induction h with
  | close s =>
    intro n L
    rw [tripleQuotedString.eq_def]
    dsimp only
    rw [if_neg hq, if_pos rfl, if_pos rfl, if_pos rfl]
    show L.cursor + n < L.cursor + (n + 3) ∧ L.cursor + (n + 3) ≤ _
    simp only [List.length_cons]
    omega
  | @char c s hslash hs ih =>
    intro n L
    have hnext : ∀ M : Lexer, M.cursor = L.cursor → Ensures Never (tripleQuotedString q s (n + 1) M) fun R =>
        L.cursor + n < R.cursor ∧ R.cursor ≤ L.cursor + n + (c :: s).length := fun M hM =>
      (ih (n + 1) M).mono fun R hR => by
        rw [hM] at hR
        rw [List.length_cons]
        omega
    rw [tripleQuotedString.eq_def]
    dsimp only
    rw [if_neg hslash]
    split
    next hc =>
      obtain ⟨d, t, rfl⟩ := hs.exists_cons
      dsimp only
      split
      next hd =>
        subst hd
        obtain ⟨e, u, rfl⟩ := hs.tail hq
        dsimp only
        split
        · show L.cursor + n < L.cursor + (n + 3) ∧ L.cursor + (n + 3) ≤ _
          simp only [List.length_cons]
          omega
        · exact hnext L rfl
      · exact hnext L rfl
    · split
      · exact hnext L.incrementRowPosition rfl
      · exact hnext L rfl
  | @escape c s _ ih =>
    intro n L
    rw [tripleQuotedString.eq_def]
    dsimp only
    rw [if_pos rfl]
    split
    · refine (ih 0 (L.advance (n + 2)).incrementRowPosition).mono fun M hM => ?_
      have hcursor : (L.advance (n + 2)).incrementRowPosition.cursor = L.cursor + (n + 2) := rfl
      rw [hcursor] at hM
      simp only [List.length_cons]
      omega
    · refine (ih (n + 2) L).mono fun M hM => ?_
      simp only [List.length_cons]
      omega

theorem never_peekPrefix {p t : List Char} {i : Nat} (hp : '\n' ∉ p) (hdrop : (L.rest program).drop i = t)
    (ht : EndsLine t) : Ensures Never (L.peekPrefix program p i) fun found => found = true →
      ∃ q s, (q = '\'' ∨ q = '"') ∧ t = p ++ q :: s := by
  obtain ⟨c, s, rfl⟩ := ht.exists_cons
  have hget : (L.rest program)[i]? = some c := by
    rw [← Nat.add_zero i, ← List.getElem?_drop, hdrop]
    rfl
  induction p generalizing i c s with
  | nil =>
    unfold peekPrefix
    simp only [ensures_bind, ensures_ite, ensures_pure]
    rw [ensures_peekAt hget]
    exact ⟨fun hc _ => ⟨c, s, .inl hc, rfl⟩, fun _ hc => ⟨c, s, .inr (by simpa using hc), rfl⟩⟩
  | cons d p ih =>
    obtain ⟨hd, hp'⟩ : '\n' ≠ d ∧ '\n' ∉ p := by simpa using hp
    unfold peekPrefix
    simp only [ensures_bind, ensures_ite, ensures_pure]
    rw [ensures_peekAt hget]
    refine ⟨fun _ h => (by cases h), fun heq => ?_⟩
    obtain rfl : c = d := not_not.1 heq
    have hs := ht.next hd.symm
    obtain ⟨e, u, rfl⟩ := hs.exists_cons
    have hdrop' : (L.rest program).drop (i + 1) = e :: u := by
      rw [← List.drop_drop, hdrop]
      rfl
    have hget' : (L.rest program)[i + 1]? = some e := by
      rw [← Nat.add_zero (i + 1), ← List.getElem?_drop, hdrop']
      rfl
    refine (ih hp' e u hdrop' hs hget').mono fun found h htrue => ?_
    obtain ⟨q, v, hq, heq⟩ := h htrue
    exact ⟨q, v, hq, by rw [heq]; rfl⟩

theorem never_findPrefix {ps : List (List Char)} (hps : ∀ p ∈ ps, '\n' ∉ p) (ht : EndsLine (L.rest program)) :
    Ensures Never (L.findPrefix program ps) fun found => ∀ p, found = some p →
      p ∈ ps ∧ ∃ q s, (q = '\'' ∨ q = '"') ∧ L.rest program = p ++ q :: s := by
  induction ps with
  | nil => exact nofun
  | cons p ps ih =>
    unfold findPrefix
    simp only [ensures_bind, ensures_ite, ensures_pure]
    refine (never_peekPrefix (hps p List.mem_cons_self) List.drop_zero ht).mono fun found hfound =>
      ⟨fun htrue p' heq => ?_, fun _ => ?_⟩
    · obtain rfl := Option.some.inj heq
      exact ⟨List.mem_cons_self, hfound htrue⟩
    · refine (ih fun p' hp' => hps p' (List.mem_cons_of_mem p hp')).mono fun found' h p' heq => ?_
      obtain ⟨hmem, hq⟩ := h p' heq
      exact ⟨List.mem_cons_of_mem p hmem, hq⟩

theorem never_isTripleQuote {i : Nat} {c q : Char} {s : List Char} (hdrop : (L.rest program).drop i = c :: s)
    (hline : EndsLine (c :: s)) (hq : q ≠ '\n') :
    Ensures Never (L.isTripleQuote program i q) fun found => found = true ↔ c = q ∧ ∃ t, s = q :: q :: t := by
  have hget : ∀ {j : Nat} {d : Char}, (c :: s)[j]? = some d → (L.rest program)[i + j]? = some d := by
    intro j d hd
    rw [← List.getElem?_drop, hdrop]
    exact hd
  unfold isTripleQuote
  simp only [ensures_bind, ensures_ite, ensures_pure]
  have hfirst : (L.rest program)[i]? = some c := hget (j := 0) rfl
  rw [ensures_peekAt hfirst]
  refine ⟨fun hne => iff_of_false nofun fun h => hne h.1, fun heq => ?_⟩
  obtain rfl : c = q := not_not.1 heq
  have hs := hline.next hq
  obtain ⟨d, t, rfl⟩ := hs.exists_cons
  rw [ensures_peekAt (hget (j := 1) rfl)]
  refine ⟨fun hne => iff_of_false nofun ?_, fun heq => ?_⟩
  · intro h
    obtain ⟨-, u, hu⟩ := h
    exact hne (List.cons.inj hu).1
  obtain rfl : d = c := not_not.1 heq
  obtain ⟨e, u, rfl⟩ := (hs.next hq).exists_cons
  rw [ensures_peekAt (hget (j := 2) rfl)]
  rw [decide_eq_true_eq]
  refine ⟨fun he => ⟨rfl, u, by rw [he]⟩, fun h => ?_⟩
  obtain ⟨-, u', hu⟩ := h
  exact (List.cons.inj (List.cons.inj hu).2).1

/-- What has been read is a string, and if it has one quote no line feed stands between its quotes but behind a
backslash. -/
def OneLine (program : List Char) (L M : Lexer) : Prop :=
  ∃ p ∈ stringPossiblePrefixes, ∃ q s, (q = '\'' ∨ q = '"') ∧ L.rest program = p ++ q :: s ∧
    ((p.contains 'f' || p.contains 'F') = false → (∀ t, s ≠ q :: q :: t) →
      ∃ body t, s = body ++ q :: t ∧ Body q false body ∧ M.cursor = L.cursor + p.length + 1 + body.length + 1)

theorem pushStringToken_cursor (L read : Lexer) (isFstring : Bool) (quote : Quote) (skip : Nat) :
    (L.pushStringToken isFstring quote skip read).cursor = if isFstring then L.cursor + skip else read.cursor := by
  cases isFstring <;> rfl

theorem pushStringToken_indentValues (L read : Lexer) (isFstring : Bool) (quote : Quote) (skip : Nat) :
    (L.pushStringToken isFstring quote skip read).indentValues = read.indentValues := by
  cases isFstring <;> rfl

theorem never_tryReadString (hend : EndsLine program)
    (hfine : ∀ p ∈ stringPossiblePrefixes, ∀ q s, q = '\'' ∨ q = '"' → L.rest program = p ++ q :: s →
      StringCloses q (p.contains 'f' || p.contains 'F') s) :
    Ensures Never (L.tryReadString program) fun r => Reading program L r ∧ (r.1 = true → OneLine program L r.2) := by
  unfold tryReadString
  simp only [ensures_bind, ensures_ite, ensures_pure]
  refine ⟨fun _ => ⟨reading_false, nofun⟩, fun hlt => ?_⟩
  have hline := endsLine_rest hend (Nat.not_le.1 hlt)
  refine (never_findPrefix prefix_clear hline).mono fun found hfound => ?_
  cases found with
  | none => exact ⟨reading_false, nofun⟩
  | some p =>
    obtain ⟨hp, q, s, hq, hrest⟩ := hfound p rfl
    have hcloses := hfine p hp q s hq hrest
    have hslash : q ≠ '\\' := by rcases hq with rfl | rfl <;> decide
    have hlength := rest_length program L
    have hlengths : (L.rest program).length = p.length + 1 + s.length := by
      rw [hrest, List.length_append, List.length_cons]
      omega
    have hdrop : (L.rest program).drop p.length = q :: s := by
      rw [hrest]
      exact List.drop_left
    have hafter : EndsLine (q :: s) := by
      rw [← hdrop]
      exact hline.drop (by omega)
    have hprogram : ∀ {k : Nat} {t : List Char}, (q :: s).drop k = t → program.drop (L.cursor + (p.length + k)) = t := by
      intro k t ht
      rw [← ht, ← hdrop, rest, List.drop_drop, List.drop_drop]
    -- the token, from the state that has read the string
    have hpush : ∀ {kind : Quote} {skip : Nat} {read : Lexer}, 0 < skip → skip ≤ p.length + 1 + s.length → Same L read →
        L.cursor < read.cursor → read.cursor ≤ program.length →
        Reading program L (true, L.pushStringToken (p.contains 'f' || p.contains 'F') kind skip read) := by
      intro kind skip read hpos hskip hsame hlt' hle
      refine reading_true ?_ ?_ ((pushStringToken_indentValues _ _ _ _ _).trans hsame.indentValues)
      · rw [pushStringToken_cursor]
        split
        · omega
        · exact hlt'
      · rw [pushStringToken_cursor]
        split
        · omega
        · exact hle
    have hE : Aborts fun _ : Stop => True := ⟨trivial, trivial, trivial⟩
    have htriple : ∀ {kind : Quote} {t : List Char}, s = q :: q :: t →
        Ensures Never (tripleQuotedString q (program.drop (L.cursor + (p.length + 3))) (p.length + 3) L) fun read =>
          Reading program L (true, L.pushStringToken (p.contains 'f' || p.contains 'F') kind (p.length + 3) read) ∧
            (True → OneLine program L
              (L.pushStringToken (p.contains 'f' || p.contains 'F') kind (p.length + 3) read)) := by
      intro kind t hs
      rw [hprogram (k := 3) (t := t) (by rw [hs]; rfl)]
      have hlen : s.length = t.length + 2 := by rw [hs]; rfl
      refine (never_tripleQuotedString (hcloses.1 t hs) hslash (p.length + 3) L).with_eq.mono fun read hread => ?_
      obtain ⟨hok, hlt', hle⟩ := hread
      have hsame : Same L read := (ensures_tripleQuotedString hE _ _ _ L).of_ok hok
      refine ⟨hpush (by omega) (by omega) hsame (by omega) (by omega), fun _ => ?_⟩
      exact ⟨p, hp, q, s, hq, hrest, fun _ hno => absurd hs (hno t)⟩
    have hsingle : ∀ {kind : Quote}, (∀ t, s ≠ q :: q :: t) →
        Ensures Never (quotedString q (program.drop (L.cursor + (p.length + 1))) (p.length + 1) L) fun read =>
          Reading program L (true, L.pushStringToken (p.contains 'f' || p.contains 'F') kind (p.length + 1) read) ∧
            (True → OneLine program L
              (L.pushStringToken (p.contains 'f' || p.contains 'F') kind (p.length + 1) read)) := by
      intro kind hno
      rw [hprogram (k := 1) (t := s) rfl]
      obtain ⟨body, t, hs, hbody, hreads⟩ := never_quotedString (hcloses.2 hno) hslash
      have hlen : s.length = body.length + 1 + t.length := by
        rw [hs, List.length_append, List.length_cons]
        omega
      refine (hreads (p.length + 1) L).with_eq.mono fun read hread => ?_
      obtain ⟨hok, hcursor⟩ := hread
      have hsame : Same L read := (ensures_quotedString hE _ _ _ L).of_ok hok
      refine ⟨hpush (by omega) (by omega) hsame (by omega) (by omega), fun _ => ?_⟩
      refine ⟨p, hp, q, s, hq, hrest, fun hplain _ => ⟨body, t, hs, hplain ▸ hbody, ?_⟩⟩
      rw [pushStringToken_cursor, hplain]
      show read.cursor = _
      omega
    simp only [ensures_bind, ensures_ite, ensures_pure]
    refine (never_isTripleQuote hdrop hafter (by decide)).mono fun b hb => ⟨fun htrue => ?_, fun hfalse => ?_⟩
    · obtain ⟨rfl, t, ht⟩ := hb.1 htrue
      exact htriple ht
    refine (never_isTripleQuote hdrop hafter (by decide)).mono fun b' hb' => ⟨fun htrue => ?_, fun hfalse' => ?_⟩
    · obtain ⟨rfl, t, ht⟩ := hb'.1 htrue
      exact htriple ht
    have hpeek : (L.rest program)[p.length]? = some q := by
      rw [← Nat.add_zero p.length, ← List.getElem?_drop, hdrop]
      rfl
    rw [ensures_peekAt hpeek]
    refine ⟨fun heq => ?_, fun hne => ?_⟩
    · subst heq
      exact hsingle fun t ht => hfalse (hb.2 ⟨rfl, t, ht⟩)
    · obtain rfl := hq.resolve_left hne
      exact hsingle fun t ht => hfalse' (hb'.2 ⟨rfl, t, ht⟩)

/-! ## Names and operators -/

theorem never_tryReadName (hend : EndsLine program) : Ensures Never (L.tryReadName program) fun r =>
    Reading program L r ∧ (r.1 = false → (L.rest program)[0]? ≠ some '_') := by
  unfold tryReadName
  simp only [ensures_bind, ensures_ite, ensures_pure]
  refine ⟨fun hle => ⟨reading_false, fun _ hget => ?_⟩, fun hlt => ?_⟩
  · have hlt := lt_of_get hget
    omega
  have hlt := Nat.not_le.1 hlt
  obtain ⟨c, s, hrest⟩ := (endsLine_rest hend hlt).exists_cons
  have hget : (L.rest program)[0]? = some c := by
    rw [hrest]
    rfl
  rw [ensures_peekAt hget]
  refine ⟨fun hinvalid => ⟨reading_false, fun _ hunder => ?_⟩, fun hvalid => ?_⟩
  · obtain rfl : c = '_' := Option.some.inj (hget.symm.trans hunder)
    exact absurd hinvalid (by decide)
  unfold advanceIf
  rw [current_of_rest hget]
  show Ensures _ (if validStartName c = true then _ else _) _
  rw [if_pos (by simpa using hvalid)]
  simp only [ensures_pure]
  refine ⟨nofun, fun _ => (never_advanceWhile (L := L.incrementColumnPosition 1) hlt (.inr (by decide))).mono ?_⟩
  intro read h
  obtain ⟨n, rfl, hn⟩ := h
  refine ⟨reading_true ?_ hn rfl, nofun⟩
  show L.cursor < L.cursor + 1 + n
  omega

theorem lookupOperation_le {table : List (List Char × TokenType)} {size : Nat} {type : TokenType}
    (h : L.lookupOperation program table size = some type) : L.cursor + size ≤ program.length := by
  unfold lookupOperation at h
  split at h
  · cases h
  · omega

/-- Only the depth and the mode may differ. -/
def SamePlace (L M : Lexer) : Prop := M.cursor = L.cursor ∧ M.indentValues = L.indentValues

theorem never_oneCharacter {c : Char} (hget : (L.rest program)[0]? = some c)
    (hclosing : c = ')' ∨ c = ']' ∨ c = '}' ∧ L.mode.length ≤ 1 → 0 < L.parenthesisLevel)
    (hnest : 1 < L.mode.length → ∃ below, L.mode = .normal :: .fstring :: below ∧ L.fstringParenLevel ≠ []) :
    Ensures Never (L.tryReadOperationWithOneCharacter program) fun r => SamePlace L r.2 ∧ (r.1 = none → r.2 = L) := by
  have hopen : ∀ type, Ensures Never (L.openParenthesis type) fun r => SamePlace L r.2 ∧ (r.1 = none → r.2 = L) :=
    fun type => ⟨⟨rfl, rfl⟩, nofun⟩
  have hclose : ∀ type, 0 < L.parenthesisLevel →
      Ensures Never (L.closeParenthesis type) fun r => SamePlace L r.2 ∧ (r.1 = none → r.2 = L) := by
    intro type hpos
    unfold closeParenthesis
    rw [if_pos hpos]
    exact ⟨⟨rfl, rfl⟩, nofun⟩
  have hpop : ∀ type, 1 < L.mode.length →
      Ensures Never (L.popNormal type) fun r => SamePlace L r.2 ∧ (r.1 = none → r.2 = L) := by
    intro type hlong
    obtain ⟨below, hmode, -⟩ := hnest hlong
    unfold popNormal
    rw [hmode]
    exact ⟨⟨rfl, rfl⟩, nofun⟩
  have hsame : SamePlace L L := ⟨rfl, rfl⟩
  unfold tryReadOperationWithOneCharacter
  simp only [ensures_bind, ensures_ite, ensures_pure]
  rw [ensures_peekAt hget]
  refine ⟨fun _ => ⟨hsame, fun _ => trivial⟩, fun _ => ⟨fun _ => hopen _, fun _ => ⟨fun hc => ?_, fun _ =>
    ⟨fun _ => hopen _, fun _ => ⟨fun hc => ?_, fun _ => ⟨fun _ => hopen _, fun _ => ⟨fun hc => ⟨fun hlong => ?_,
    fun hshort => ?_⟩, fun _ => ⟨fun _ => ⟨fun hlong => ?_, fun _ => ⟨hsame, fun _ => trivial⟩⟩, fun _ => ⟨hsame, fun _ => trivial⟩⟩⟩⟩⟩⟩⟩⟩⟩
  · exact hclose _ (hclosing (.inl hc))
  · exact hclose _ (hclosing (.inr (.inl hc)))
  · exact hpop _ hlong
  · exact hclose _ (hclosing (.inr (.inr ⟨hc, Nat.not_lt.1 hshort⟩)))
  · obtain ⟨below, -, hne⟩ := hnest hlong
    cases hlevels : L.fstringParenLevel with
    | nil => exact absurd hlevels hne
    | cons level levels =>
      simp only [ensures_ite, ensures_pure]
      exact ⟨fun _ => hpop _ hlong, fun _ => ⟨hsame, nofun⟩⟩

theorem never_tryReadOperation (hend : EndsLine program)
    (hclosing : ∀ c s, L.rest program = c :: s → c = ')' ∨ c = ']' ∨ c = '}' ∧ L.mode.length ≤ 1 →
      0 < L.parenthesisLevel)
    (hnest : 1 < L.mode.length → ∃ below, L.mode = .normal :: .fstring :: below ∧ L.fstringParenLevel ≠ []) :
    Ensures Never (L.tryReadOperation program) (Reading program L) := by
  have hpush : ∀ {read : Lexer} (type : TokenType) (n : Nat), SamePlace L read → 0 < n → L.cursor + n ≤ program.length →
      Reading program L (L.pushOperation read type n) := by
    intro read type n hplace hpos hle
    have hcursor : (L.pushOperation read type n).2.cursor = L.cursor + n := congrArg (· + n) hplace.1
    exact ⟨fun _ => ⟨by omega, by omega, hplace.2⟩, nofun⟩
  have hsame : SamePlace L L := ⟨rfl, rfl⟩
  unfold tryReadOperation
  simp only [ensures_ite, ensures_pure]
  refine ⟨fun _ => reading_false, fun hlt => ?_⟩
  have hlt := Nat.not_le.1 hlt
  cases hthree : L.tryReadOperationWithThreeCharacters program with
  | some type => exact hpush type 3 hsame (by decide) (lookupOperation_le hthree)
  | none =>
    cases htwo : L.tryReadOperationWithTwoCharacters program with
    | some type => exact hpush type 2 hsame (by decide) (lookupOperation_le htwo)
    | none =>
      obtain ⟨c, s, hrest⟩ := (endsLine_rest hend hlt).exists_cons
      have hget : (L.rest program)[0]? = some c := by
        rw [hrest]
        rfl
      simp only [ensures_bind]
      refine (never_oneCharacter hget (hclosing c s hrest) hnest).mono fun ⟨type, read⟩ ⟨hread, hnone⟩ => ?_
      cases type with
      | some type => exact hpush type 1 hread (by decide) hlt
      | none =>
        obtain rfl : read = L := hnone rfl
        exact reading_false

end

end Lexer

end Pylang.Lex
