/-
The loop that reads the text of an f-string returns where the text comes to the
quotes or to a brace of its own before a line feed (`PieceEnds`).
-/
import Pylang.Lex.Lookahead

namespace Pylang.Lex

def Quote.isTriple : Quote → Bool
  | .singleSingleQuote | .singleDoubleQuote => false
  | .tripleSingleQuote | .tripleDoubleQuote => true

/-- Whether a text starts with the quotes that close an f-string. -/
def Quote.closes : Quote → List Char → Bool
  | .singleSingleQuote, s => s.head? = some '\''
  | .singleDoubleQuote, s => s.head? = some '"'
  | .tripleSingleQuote, s => s.take 3 = ['\'', '\'', '\'']
  | .tripleDoubleQuote, s => s.take 3 = ['"', '"', '"']

/-- The text of an f-string comes to its quotes or to a brace before a line feed; only at the start of a piece, and in
three quotes, a line feed is passed over. -/
inductive PieceEnds (quote : Quote) : List Char → Prop
  | close {s : List Char} : quote.closes s = true → PieceEnds quote s
  | brace {b c : Char} {s : List Char} : (b = '{' ∨ b = '}') → c ≠ b → PieceEnds quote (b :: c :: s)
  | doubled {b : Char} {s : List Char} : (b = '{' ∨ b = '}') → s.head? ≠ some '\n' → PieceEnds quote s →
      PieceEnds quote (b :: b :: s)
  | escape {c : Char} {s : List Char} : s.head? ≠ some '\n' → PieceEnds quote s → PieceEnds quote ('\\' :: c :: s)
  | char {c : Char} {s : List Char} : c ≠ '{' → c ≠ '}' → c ≠ '\\' → (c = '\n' → quote.isTriple = true) →
      s.head? ≠ some '\n' → PieceEnds quote s → PieceEnds quote (c :: s)

theorem PieceEnds.exists_cons {q : Quote} {s : List Char} (h : PieceEnds q s) : ∃ c t, s = c :: t := by
  cases h with
  | close hcloses =>
    cases s with
    | nil => cases q <;> exact absurd hcloses (by decide)
    | cons c t => exact ⟨c, t, rfl⟩
  | brace _ _ | doubled _ _ _ | escape _ _ | char _ _ _ _ _ _ => exact ⟨_, _, rfl⟩

theorem PieceEnds.head_ne {q : Quote} {s : List Char} (h : PieceEnds q s) (hq : q.isTriple = false) :
    s.head? ≠ some '\n' := by
  intro hfeed
  cases h with
  | close hcloses =>
    cases q with
    | singleSingleQuote => simp [Quote.closes, hfeed] at hcloses
    | singleDoubleQuote => simp [Quote.closes, hfeed] at hcloses
    | tripleSingleQuote => cases hq
    | tripleDoubleQuote => cases hq
  | brace hb _ | doubled hb _ _ =>
    obtain rfl := Option.some.inj hfeed
    exact absurd hb (by decide)
  | escape _ _ => exact absurd (Option.some.inj hfeed) (by decide)
  | char _ _ _ htriple _ _ =>
    have htrue := htriple (Option.some.inj hfeed)
    rw [hq] at htrue
    cases htrue

/-- What a turn of the loop passes over, if it is not the last one. -/
inductive PieceTurn (q : Quote) : List Char → List Char → Prop
  | doubled {b : Char} {s : List Char} : (b = '{' ∨ b = '}') → PieceTurn q (b :: b :: s) s
  | escape {c : Char} {s : List Char} : PieceTurn q ('\\' :: c :: s) s
  | char {c : Char} {s : List Char} : c ≠ '{' → c ≠ '}' → c ≠ '\\' → q.closes (c :: s) = false → PieceTurn q (c :: s) s

theorem closes_brace {q : Quote} {b : Char} {s : List Char} (hb : b = '{' ∨ b = '}') : q.closes (b :: s) = false := by
  rcases hb with rfl | rfl <;> cases q <;> simp [Quote.closes]

theorem closes_backslash {q : Quote} {s : List Char} : q.closes ('\\' :: s) = false := by
  cases q <;> simp [Quote.closes]

/-- A piece that ends goes on ending, and no line feed follows the turn. -/
theorem PieceEnds.turn {q : Quote} {s s' : List Char} (h : PieceEnds q s) (hturn : PieceTurn q s s') :
    s'.head? ≠ some '\n' ∧ PieceEnds q s' := by
  cases hturn with
  | doubled hb =>
    cases h with
    | close hcloses => rw [closes_brace hb] at hcloses; cases hcloses
    | brace _ hne => exact absurd rfl hne
    | doubled _ hhead hs => exact ⟨hhead, hs⟩
    | escape _ _ => exact absurd hb (by decide)
    | char hopen hclose _ _ _ _ => exact absurd hb (by simp [hopen, hclose])
  | escape =>
    cases h with
    | close hcloses => rw [closes_backslash] at hcloses; cases hcloses
    | brace hb _ => exact absurd hb (by decide)
    | doubled hb _ _ => exact absurd hb (by decide)
    | escape hhead hs => exact ⟨hhead, hs⟩
    | char _ _ hslash _ _ _ => exact absurd rfl hslash
  | char hopen hclose hslash hcloses =>
    cases h with
    | close hcloses' => rw [hcloses] at hcloses'; cases hcloses'
    | brace hb _ => exact absurd hb (by simp [hopen, hclose])
    | doubled hb _ _ => exact absurd hb (by simp [hopen, hclose])
    | escape _ _ => exact absurd rfl hslash
    | char _ _ _ _ hhead hs => exact ⟨hhead, hs⟩

namespace Lexer

section
variable {program : List Char} {L : Lexer}

theorem endsWith_eq {q : Quote} {below : List Quote} (hquote : L.quote = q :: below) (found : Bool) (kind : Quote) :
    L.endsWith found kind = .ok (found && decide (q = kind)) := by
  unfold endsWith
  rw [hquote]
  cases found <;> rfl

theorem never_isQuoteAt (hline : EndsLine (L.rest program)) {k : Char} (hk : k ≠ '\n') :
    Ensures Never (L.isQuoteAt program k) fun b => b = decide ((L.rest program).take 3 = [k, k, k]) := by
  obtain ⟨c, s, hrest⟩ := hline.exists_cons
  have hget : ∀ {j : Nat} {d : Char}, (c :: s)[j]? = some d → (L.rest program)[j]? = some d := by
    intro j d hd
    rw [hrest]
    exact hd
  rw [hrest] at hline ⊢
  unfold isQuoteAt
  simp only [ensures_bind, ensures_ite, ensures_pure]
  have hfirst : (L.rest program)[0]? = some c := hget rfl
  rw [ensures_peekAt hfirst]
  refine ⟨fun hne => ?_, fun heq => ?_⟩
  · symm
    simp [hne]
  obtain rfl : c = k := not_not.1 heq
  have hs := hline.next hk
  obtain ⟨d, t, rfl⟩ := hs.exists_cons
  have hsecond : (L.rest program)[1]? = some d := hget rfl
  rw [ensures_peekAt hsecond]
  refine ⟨fun hne => ?_, fun heq => ?_⟩
  · symm
    simp [hne]
  obtain rfl : d = c := not_not.1 heq
  obtain ⟨e, u, rfl⟩ := (hs.next hk).exists_cons
  have hthird : (L.rest program)[2]? = some e := hget rfl
  rw [ensures_peekAt hthird]
  simp

theorem length_of_take {s : List Char} {k : Char} (h : s.take 3 = [k, k, k]) : 3 ≤ s.length := by
  have hlength := congrArg List.length h
  rw [List.length_take] at hlength
  simp only [List.length_cons, List.length_nil] at hlength
  omega

theorem never_endQuotes {q : Quote} {below : List Quote} (hquote : L.quote = q :: below)
    (hline : EndsLine (L.rest program)) : Ensures Never (L.endQuotes program) fun r =>
      (r = none → q.closes (L.rest program) = false) ∧ ∀ n, r = some n → 0 < n ∧ n ≤ (L.rest program).length := by
  obtain ⟨c, s, hrest⟩ := hline.exists_cons
  have hget : (L.rest program)[0]? = some c := by
    rw [hrest]
    rfl
  have hone : ∀ n, some 1 = some n → 0 < n ∧ n ≤ (L.rest program).length := by
    intro n heq
    obtain rfl := Option.some.inj heq
    rw [hrest]
    exact ⟨Nat.one_pos, Nat.succ_pos _⟩
  have hthree : ∀ {k : Char}, (L.rest program).take 3 = [k, k, k] →
      ∀ n, some 3 = some n → 0 < n ∧ n ≤ (L.rest program).length := by
    intro k htake n heq
    obtain rfl := Option.some.inj heq
    exact ⟨by decide, length_of_take htake⟩
  unfold endQuotes
  simp only [ensures_bind, endsWith_eq hquote, ensures_ok, ensures_ite, ensures_pure]
  rw [ensures_peekAt hget]
  refine ⟨fun _ => ⟨nofun, hone⟩, fun hsingle => ⟨fun _ => ⟨nofun, hone⟩, fun hdouble => ?_⟩⟩
  refine (never_isQuoteAt hline (k := '\'') (by decide)).mono fun b hb => ⟨fun hfound => ⟨nofun, ?_⟩, fun hno => ?_⟩
  · exact hthree (k := '\'') (by simpa [hb] using (Bool.and_eq_true_iff.1 hfound).1)
  refine (never_isQuoteAt hline (k := '"') (by decide)).mono fun b' hb' => ⟨fun hfound => ⟨nofun, ?_⟩, fun hno' => ?_⟩
  · exact hthree (k := '"') (by simpa [hb'] using (Bool.and_eq_true_iff.1 hfound).1)
  refine ⟨fun _ => ?_, nofun⟩
  cases q with
  | singleSingleQuote => simpa [Quote.closes, hrest] using hsingle
  | singleDoubleQuote => simpa [Quote.closes, hrest] using hdouble
  | tripleSingleQuote => simpa [Quote.closes, hb] using hno
  | tripleDoubleQuote => simpa [Quote.closes, hb'] using hno'

/-- A turn of the loop has ended the piece, or has passed over a part of it. -/
structure Turned (program : List Char) (q : Quote) (L : Lexer) (r : Bool × Lexer) : Prop where
  forward : L.cursor < r.2.cursor
  inside : r.2.cursor ≤ program.length
  indentValues : r.2.indentValues = L.indentValues
  turn : r.1 = false → r.2.quote = L.quote ∧ PieceTurn q (L.rest program) (r.2.rest program)

theorem turned_piece {q : Quote} {n : Nat} {M : Lexer} (hn : 0 < n) (hle : n ≤ (L.rest program).length)
    (hcursor : M.cursor = L.cursor + n) (hindent : M.indentValues = L.indentValues) :
    Turned program q L (true, M) := by
  have hlength := rest_length program L
  have hM : (true, M).2.cursor = L.cursor + n := hcursor
  exact ⟨by omega, by omega, hindent, nofun⟩

theorem turned_advance {q : Quote} {n : Nat} (hn : 0 < n) (hle : n ≤ (L.rest program).length)
    (hturn : PieceTurn q (L.rest program) ((L.rest program).drop n)) : Turned program q L (false, L.advance n) := by
  have hlength := rest_length program L
  have hM : (false, L.advance n).2.cursor = L.cursor + n := rfl
  refine ⟨by omega, by omega, rfl, fun _ => ⟨rfl, ?_⟩⟩
  show PieceTurn q (L.rest program) ((L.incrementColumnPosition n).rest program)
  rwa [rest_advance]

theorem never_reachedEnd {q : Quote} {below : List Quote} (hquote : L.quote = q :: below)
    (hline : EndsLine (L.rest program)) (start : Position) :
    Ensures Never (L.reachedEnd program start) (Turned program q L) := by
  obtain ⟨c, s, hrest⟩ := hline.exists_cons
  have hget : (L.rest program)[0]? = some c := by
    rw [hrest]
    rfl
  have hget' : program[L.cursor]? = some c := by
    rw [rest, List.getElem?_drop] at hget
    exact hget
  have hone : 1 ≤ (L.rest program).length := by
    rw [hrest]
    exact Nat.succ_pos _
  -- two braces
  have hdoubled : ∀ {d : Char}, (c = '{' ∨ c = '}') → (L.rest program)[1]? = some d → d = c →
      Turned program q L (false, L.advance 2) := by
    intro d hb hd heq
    subst heq
    rw [hrest] at hd
    cases s with
    | nil => cases hd
    | cons e t =>
      obtain rfl : e = d := Option.some.inj hd
      have hle : 2 ≤ (L.rest program).length := by
        rw [hrest]
        simp
      refine turned_advance (by decide) hle ?_
      rw [hrest]
      exact .doubled hb
  unfold reachedEnd
  simp only [ensures_bind, ensures_ite, ensures_pure]
  refine ⟨fun hclose => ?_, fun hclose => ?_⟩
  · obtain rfl : c = '}' := by
      have heq := of_decide_eq_true (Bool.and_eq_true_iff.1 hclose).2
      exact Option.some.inj (hget'.symm.trans heq)
    obtain ⟨d, hd⟩ := hline.get_next hget (by decide)
    have hd' : (L.rest program)[1]? = some d := hd
    rw [ensures_peekAt hd']
    exact ⟨fun _ => turned_piece Nat.one_pos hone rfl rfl, fun heq => hdoubled (.inr rfl) hd' (not_not.1 heq)⟩
  have hnotclose : c ≠ '}' := by
    intro heq
    subst heq
    have hlt := hline.lt_next hget (by decide)
    have hlength := rest_length program L
    refine hclose (Bool.and_eq_true_iff.2 ⟨decide_eq_true (by omega), decide_eq_true hget'⟩)
  refine (never_endQuotes hquote hline).mono fun found hfound => ?_
  cases found with
  | some n =>
    obtain ⟨hpos, hle⟩ := hfound.2 n rfl
    exact turned_piece hpos hle rfl rfl
  | none =>
    have hcloses := hfound.1 rfl
    simp only [ensures_bind, ensures_ite, ensures_pure]
    rw [ensures_peekAt hget]
    refine ⟨fun hopen => ?_, fun hopen => ?_⟩
    · obtain ⟨d, hd⟩ := hline.get_next hget (by rw [hopen]; decide)
      have hd' : (L.rest program)[1]? = some d := hd
      rw [ensures_peekAt hd']
      exact ⟨fun _ => turned_piece Nat.one_pos hone rfl rfl,
        fun heq => hdoubled (.inl hopen) hd' ((not_not.1 heq).trans hopen.symm)⟩
    rw [ensures_peekAt hget]
    refine ⟨fun hslash => ?_, fun hslash => ?_⟩
    · subst hslash
      obtain ⟨d, t, rfl⟩ := ((hrest ▸ hline).next (by decide)).exists_cons
      have hle : 2 ≤ (L.rest program).length := by
        rw [hrest]
        simp
      have hturned : Turned program q L (false, L.advance 2) := by
        refine turned_advance (by decide) hle ?_
        rw [hrest]
        exact .escape
      exact ⟨hturned.1, hturned.2, hturned.3, hturned.4⟩
    · refine turned_advance Nat.one_pos hone ?_
      rw [hrest] at hcloses ⊢
      exact .char hopen hnotclose hslash hcloses

theorem never_fstringLoop {q : Quote} {below : List Quote} (start : Position) (fuel : Nat) (hquote : L.quote = q :: below)
    (hline : EndsLine (L.rest program)) (hpiece : PieceEnds q (L.rest program)) (hfuel : (L.rest program).length < fuel) :
    Ensures Never (fstringLoop program start fuel L) fun M =>
      L.cursor < M.cursor ∧ M.cursor ≤ program.length ∧ M.indentValues = L.indentValues := by
  induction fuel generalizing L with
  | zero => cases hfuel
  | succ fuel ih =>
    unfold fstringLoop peekNewline
    simp only [ensures_bind]
    refine (never_reachedEnd hquote hline start).mono fun r hM => ?_
    obtain ⟨reached, M⟩ := r
    cases reached with
    | true => exact ⟨hM.forward, hM.inside, hM.indentValues⟩
    | false =>
      obtain ⟨hsame, hturn⟩ := hM.turn rfl
      obtain ⟨hhead, hnext⟩ := hpiece.turn hturn
      have hends : PieceEnds q (M.rest program) := hnext
      have hforward : L.cursor < M.cursor := hM.forward
      have hinside : M.cursor ≤ program.length := hM.inside
      obtain ⟨c, t, hrest⟩ := hends.exists_cons
      have hlength := rest_length program L
      have hlength' := rest_length program M
      have hget : (M.rest program)[0]? = some c := by
        rw [hrest]
        rfl
      have hlt := lt_of_get hget
      have hline' : EndsLine (M.rest program) := by
        have hdrop : M.rest program = (L.rest program).drop (M.cursor - L.cursor) := by
          rw [rest, rest, List.drop_drop, Nat.add_sub_cancel' (Nat.le_of_lt hforward)]
        rw [hdrop]
        exact hline.drop (by omega)
      simp only [Bool.false_eq_true, if_false, ensures_bind, ensures_ite, ensures_pure, ensures_throw]
      rw [current_of_rest hget, ensures_ok]
      refine ⟨fun hfeed => hhead ?_, fun _ => ?_⟩
      · rw [show c = '\n' by simpa using hfeed] at hrest
        exact congrArg List.head? hrest
      · refine (ih (L := M) (hsame.trans hquote) hline' hends (by omega)).mono fun N hN => ?_
        exact ⟨Nat.lt_trans hforward hN.1, hN.2.1, hN.2.2.trans hM.indentValues⟩

theorem never_tryFstring {q : Quote} {below : List Quote} (hend : EndsLine program) (hlt : L.cursor < program.length)
    (hquote : L.quote = q :: below) (hpiece : PieceEnds q (L.rest program)) :
    Ensures Never (L.tryFstring program) (Reading program L) := by
  have hlength := rest_length program L
  unfold tryFstring
  simp only [ensures_bind, ensures_pure]
  exact (never_fstringLoop L.position (program.length + 1) hquote (endsLine_rest hend hlt) hpiece (by omega)).mono
    fun M hM => reading_true hM.1 hM.2.1 hM.2.2

end

end Lexer

end Pylang.Lex
