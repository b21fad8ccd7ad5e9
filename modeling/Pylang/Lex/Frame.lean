/-
What a step of the lexer does to its stacks, stated once for every reader.

A `Frame` is a relation that adjusting the position or the depth keeps, and
that pushing some kinds of token keeps. A `StepFrame` may also move the stacks of
the f-strings: where a string starts or ends one, where a brace enters or
leaves a replacement field.
-/
import Pylang.Lex.Read

namespace Pylang.Lex

namespace Lexer

/-- A relation between states that leaves the stacks alone. -/
structure Frame (R : Lexer → Lexer → Prop) (Free : TokenType → Prop) : Prop where
  trans : ∀ {L L' L'' : Lexer}, R L L' → R L' L'' → R L L''
  adjust : ∀ {L L' : Lexer}, L'.tokens = L.tokens → L'.indentValues = L.indentValues → L'.mode = L.mode →
    L'.quote = L.quote → L'.fstringParenLevel = L.fstringParenLevel → R L L'
  pushToken : ∀ (L : Lexer) {type : TokenType}, Free type → ∀ start stop, R L (L.pushToken type start stop)

/-- The types that the readers behind the indentation push, those of an f-string apart. -/
def Ordinary (type : TokenType) : Prop :=
  type ≠ .indent ∧ type ≠ .dedent ∧ type ≠ .endmarker ∧ type ≠ .fstringStart ∧ type ≠ .fstringEnd

instance (type : TokenType) : Decidable (Ordinary type) := by
  unfold Ordinary
  infer_instance

/-- What a whole step does: a frame, but for the stacks of the f-strings. -/
structure StepFrame (R P : Lexer → Lexer → Prop) (Free : TokenType → Prop) : Prop extends Frame R Free where
  ordinary : ∀ {type : TokenType}, Ordinary type → Free type
  keep : ∀ {L L' : Lexer}, R L L' → P L L'
  before : ∀ {L L' L'' : Lexer}, R L L' → P L' L'' → P L L''
  after : ∀ {L L' L'' : Lexer}, P L L' → R L' L'' → P L L''
  leave : ∀ {L : Lexer} {below : List Mode}, L.mode = .normal :: .fstring :: below →
    P L { L with mode := .fstring :: below }
  enter : ∀ {L : Lexer} {below : List Mode}, L.mode = .fstring :: below → P L { L with mode := .normal :: L.mode }
  begin : ∀ {L read : Lexer}, Same L read → ∀ quote skip, P L (L.pushStringToken true quote skip read)
  finish : ∀ {L : Lexer} {below : List Mode}, L.mode = .fstring :: below →
    ∀ start stop, P L (L.pushToken .fstringEnd start stop).popFstring

namespace Frame

variable {R : Lexer → Lexer → Prop} {Free : TokenType → Prop} (F : Frame R Free)
include F

theorem refl (L : Lexer) : R L L := F.adjust rfl rfl rfl rfl rfl

theorem same {L L' : Lexer} (h : Same L L') : R L L' :=
  F.adjust h.tokens h.indentValues h.mode h.quote h.fstringParenLevel

theorem advance (L : Lexer) (n : Nat) : R L (L.advance n) := F.same (same_incrementColumnPosition L n)

theorem incrementRowPosition (L : Lexer) : R L L.incrementRowPosition := F.same (same_incrementRowPosition L)

theorem pushEmptyLine (hnl : Free .nl) (L : Lexer) : R L L.pushEmptyLine :=
  F.trans (F.advance L 1) <| F.trans (F.pushToken _ hnl _ _) (F.incrementRowPosition _)

theorem pushNewLine (hnl : Free .nl) (hnewline : Free .newline) (L : Lexer) : R L L.pushNewLine := by
  have hfree : Free (if 0 < L.parenthesisLevel then .nl else .newline) := by
    split
    · exact hnl
    · exact hnewline
  exact F.trans (F.advance L 1) <| F.trans (F.pushToken _ hfree _ _) (F.incrementRowPosition _)

theorem pushOperation {L read : Lexer} {type : TokenType} (n : Nat) (hfree : Free type) :
    R read (L.pushOperation read type n).2 :=
  F.trans (F.advance read n) (F.pushToken _ hfree _ _)

variable {program : List Char} {E : Stop → Prop}

theorem advanceWhile (hE : Aborts E) (L : Lexer) (condition : Char → Bool) :
    Ensures E (L.advanceWhile program condition) (R L) := by
  refine (ensures_advanceWhile hE L condition).mono ?_
  intro L' h
  obtain ⟨n, rfl, -, -⟩ := h
  exact F.advance L n

theorem advanceIf (hE : Aborts E) (L : Lexer) {condition : Char → Bool} (hzero : condition (Char.ofNat 0) = false) :
    Ensures E (L.advanceIf program condition) fun r => R L r.2 := by
  refine (ensures_advanceIf hE L hzero).mono ?_
  intro r h
  rcases h with ⟨rfl, -⟩ | ⟨c, -, -, rfl⟩
  · exact F.refl L
  · exact F.advance L 1

end Frame

/-! ## Lookahead, which leaves no state behind -/

section
variable {program : List Char} {E : Stop → Prop}

theorem ensures_commentScan (hE : Aborts E) (s : List Char) (n : Nat) :
    Ensures E (commentScan s n) fun _ => True := by
  fun_induction commentScan s n with
  | case1 | case2 => exact hE.assertion
  | case4 => assumption
  | case3 | case5 => trivial

theorem ensures_commentStart (hE : Aborts E) (L : Lexer) : Ensures E (L.commentStart program) fun _ => True := by
  unfold commentStart
  simp only [ensures_bind, ensures_ite, ensures_pure]
  exact ⟨fun _ => trivial, fun _ => ensures_peek hE fun c _ => ⟨fun _ => trivial, fun _ => ensures_commentScan hE _ _⟩⟩

theorem ensures_peekPrefix (hE : Aborts E) (L : Lexer) (p : List Char) (i : Nat) :
    Ensures E (L.peekPrefix program p i) fun _ => True := by
  induction p generalizing i with
  | nil =>
    unfold peekPrefix
    simp only [ensures_bind, ensures_ite, ensures_pure]
    exact ensures_peek hE fun c _ => ⟨fun _ => trivial, fun _ => trivial⟩
  | cons c p ih =>
    unfold peekPrefix
    simp only [ensures_bind, ensures_ite, ensures_pure]
    exact ensures_peek hE fun c _ => ⟨fun _ => trivial, fun _ => ih _⟩

theorem ensures_findPrefix (hE : Aborts E) (L : Lexer) (ps : List (List Char)) :
    Ensures E (L.findPrefix program ps) fun _ => True := by
  induction ps with
  | nil => trivial
  | cons p ps ih =>
    unfold findPrefix
    simp only [ensures_bind, ensures_ite, ensures_pure]
    exact (ensures_peekPrefix hE L p 0).mono fun b _ => ⟨fun _ => trivial, fun _ => ih⟩

theorem ensures_isTripleQuote (hE : Aborts E) (L : Lexer) (i : Nat) (q : Char) :
    Ensures E (L.isTripleQuote program i q) fun _ => True := by
  unfold isTripleQuote
  simp only [ensures_bind, ensures_ite, ensures_pure]
  exact ensures_peek hE fun _ _ => ⟨fun _ => trivial, fun _ => ensures_peek hE fun _ _ =>
    ⟨fun _ => trivial, fun _ => ensures_peek hE fun _ _ => trivial⟩⟩

theorem ensures_endsWith (hE : Aborts E) (L : Lexer) (found : Bool) (kind : Quote) :
    Ensures E (L.endsWith found kind) fun _ => True := by
  unfold endsWith
  split
  · split
    · exact hE.undefined
    · trivial
  · trivial

theorem ensures_endQuotes (hE : Aborts E) (L : Lexer) : Ensures E (L.endQuotes program) fun _ => True := by
  have hquote : ∀ q, Ensures E (L.isQuoteAt program q) fun _ => True := by
    intro q
    unfold isQuoteAt
    simp only [ensures_bind, ensures_ite, ensures_pure]
    exact ensures_peek hE fun _ _ => ⟨fun _ => trivial, fun _ => ensures_peek hE fun _ _ =>
      ⟨fun _ => trivial, fun _ => ensures_peek hE fun _ _ => trivial⟩⟩
  unfold endQuotes
  simp only [ensures_bind, ensures_ite, ensures_pure]
  refine ensures_peek hE fun _ _ => (ensures_endsWith hE L _ _).mono fun _ _ => ⟨fun _ => trivial, fun _ => ?_⟩
  refine (ensures_endsWith hE L _ _).mono fun _ _ => ⟨fun _ => trivial, fun _ => ?_⟩
  refine (hquote _).mono fun _ _ => (ensures_endsWith hE L _ _).mono fun _ _ => ⟨fun _ => trivial, fun _ => ?_⟩
  exact (hquote _).mono fun _ _ => (ensures_endsWith hE L _ _).mono fun _ _ => ⟨fun _ => trivial, fun _ => trivial⟩

/-- What a reader keeps, and what comes after it keeps, they keep together. -/
theorem ensures_orElse {L : Lexer} {reader next : Lexer → Except Stop (Bool × Lexer)} {P Q : Lexer → Prop}
    (hreader : Ensures E (reader L) fun r => P r.2) (hPQ : ∀ M, P M → Q M)
    (hnext : ∀ M, P M → Ensures E (next M) fun r => Q r.2) : Ensures E (L.orElse reader next) fun r => Q r.2 := by
  unfold orElse
  rw [ensures_bind]
  refine hreader.mono fun ⟨read, M⟩ hM => ?_
  dsimp only
  split
  · exact hPQ M hM
  · exact hnext M hM

/-- A reader that has read a token, or has left no more than a frame behind. -/
theorem ensures_orElse_read {L : Lexer} {reader next : Lexer → Except Stop (Bool × Lexer)} {P Q : Lexer → Prop}
    (hreader : Ensures E (reader L) fun r => Q r.2 ∧ (r.1 = false → P r.2))
    (hnext : ∀ M, P M → Ensures E (next M) fun r => Q r.2) : Ensures E (L.orElse reader next) fun r => Q r.2 := by
  unfold orElse
  rw [ensures_bind]
  refine hreader.mono fun ⟨read, M⟩ hM => ?_
  cases read with
  | true => exact hM.1
  | false => exact hnext M (hM.2 rfl)

end

/-! ## The readers that are frames -/

namespace Frame

variable {R : Lexer → Lexer → Prop} {Free : TokenType → Prop} {program : List Char} {E : Stop → Prop}

section
variable (F : Frame R Free)
include F

theorem tryReadComment (hcomment : Free .comment) (hnl : Free .nl) (hnewline : Free .newline) (hE : Aborts E)
    (L : Lexer) : Ensures E (L.tryReadComment program) fun r => R L r.2 := by
  unfold Lexer.tryReadComment
  rw [ensures_bind]
  refine (ensures_commentStart hE L).mono fun start _ => ?_
  cases start with
  | none => exact F.refl L
  | some start =>
    simp only [ensures_bind, ensures_ite, ensures_pure]
    refine (F.advanceWhile hE _ _).mono fun read hread => ?_
    have hpushed : R L (read.pushToken .comment (L.advance start).position read.position) :=
      F.trans (F.advance L start) <| F.trans (F.advance _ 1) <| F.trans hread (F.pushToken _ hcomment _ _)
    exact ⟨fun _ => F.trans hpushed (F.pushEmptyLine hnl _), fun _ => F.trans hpushed (F.pushNewLine hnl hnewline _)⟩

theorem tryEmptyLine (hnl : Free .nl) (hE : Aborts E) (L : Lexer) :
    Ensures E (L.tryEmptyLine program) fun r => R L r.2 := by
  unfold Lexer.tryEmptyLine
  simp only [ensures_bind, ensures_ite, ensures_pure]
  refine ensures_peek hE fun c _ => ⟨fun _ => ⟨fun _ => F.pushEmptyLine hnl L, fun _ => F.refl L⟩, fun _ => ?_⟩
  refine (F.advanceWhile hE _ _).mono fun skipped hskipped => ⟨fun _ => hskipped, fun _ => ?_⟩
  refine ensures_peek hE fun d _ => ⟨fun _ => F.trans hskipped (F.pushEmptyLine hnl _), fun _ => ?_⟩
  exact F.trans hskipped (F.adjust rfl rfl rfl rfl rfl)

theorem tryReadNewline (hnl : Free .nl) (hnewline : Free .newline) (hE : Aborts E) (L : Lexer) :
    Ensures E (L.tryReadNewline program) fun r => R L r.2 := by
  unfold Lexer.tryReadNewline peekNewline
  simp only [ensures_bind, ensures_ite, ensures_pure]
  exact (ensures_current hE L).mono fun c _ => ⟨fun _ => F.pushNewLine hnl hnewline L, fun _ => F.refl L⟩

theorem tryReadBackslash (hE : Aborts E) (L : Lexer) : Ensures E (L.tryReadBackslash program) (R L) := by
  have hif : ∀ (M : Lexer) (c : Char), c ≠ Char.ofNat 0 →
      Ensures E (M.advanceIf program (· = c)) fun r => R M r.2 :=
    fun M c hc => F.advanceIf hE M (by simpa using hc.symm)
  unfold Lexer.tryReadBackslash tryReadSpace
  simp only [ensures_bind]
  refine (F.advanceWhile hE _ _).mono fun M hM => ?_
  refine (hif M '\\' (by decide)).mono fun ⟨backslash, N⟩ hN => ?_
  simp only [ensures_bind, ensures_ite, ensures_pure]
  refine ⟨fun _ => (hif N '\n' (by decide)).mono fun ⟨newline, N'⟩ hN' => ?_, fun _ => F.trans hM hN⟩
  exact ⟨fun _ => F.trans (F.trans hM hN) (F.trans hN' (F.incrementRowPosition _)), fun _ => hE.todo⟩

theorem tryReadName (hname : Free .name) (hE : Aborts E) (L : Lexer) :
    Ensures E (L.tryReadName program) fun r => R L r.2 := by
  unfold Lexer.tryReadName
  simp only [ensures_bind, ensures_ite, ensures_pure]
  refine ⟨fun _ => F.refl L, fun _ => ensures_peek hE fun c _ => ⟨fun _ => F.refl L, fun _ => ?_⟩⟩
  refine (F.advanceIf hE L (by decide)).mono fun ⟨first, M⟩ hM => ?_
  refine ⟨fun _ => hM, fun _ => (F.advanceWhile hE _ _).mono fun read hread => ?_⟩
  exact F.trans hM (F.trans hread (F.pushToken _ hname _ _))

theorem tryReadNumber (hnumber : Free .number) (hE : Aborts E) (L : Lexer) :
    Ensures E (L.tryReadNumber program) fun r => R L r.2 := by
  refine (ensures_tryReadNumber hE).mono ?_
  intro r h
  rcases h with rfl | ⟨n, -, rfl⟩
  · exact F.refl L
  · exact F.trans (F.advance L n) (F.pushToken _ hnumber _ _)

theorem pushPiece (hmiddle : Free .fstringMiddle) {type : TokenType} (hfree : Free type) (L : Lexer) (start : Position)
    (n : Nat) : R L (L.pushPiece start type n) :=
  F.trans (F.pushToken L hmiddle start L.position) <| F.trans (F.advance _ n) (F.pushToken _ hfree _ _)

end

end Frame

/-! ## Operators -/

theorem ordinary_of_find {α : Type} {table : List (α × TokenType)} {f : α × TokenType → Bool} {type : TokenType}
    (hall : ∀ entry ∈ table, Ordinary entry.2) (h : (table.find? f).map (fun entry => entry.2) = some type) :
    Ordinary type := by
  obtain ⟨entry, hfind, rfl⟩ := Option.map_eq_some_iff.1 h
  exact hall entry (List.mem_of_find?_eq_some hfind)

theorem ordinary_lookup {program : List Char} {L : Lexer} {table : List (List Char × TokenType)} {size : Nat}
    {type : TokenType} (hall : ∀ entry ∈ table, Ordinary entry.2)
    (h : L.lookupOperation program table size = some type) : Ordinary type := by
  unfold lookupOperation at h
  split at h
  · cases h
  · dsimp only at h
    split at h
    · cases h
    · exact ordinary_of_find hall h

namespace StepFrame

variable {R P : Lexer → Lexer → Prop} {Free : TokenType → Prop} {program : List Char} {E : Stop → Prop}
  (T : StepFrame R P Free)
include T

/-- An operator of one character changes the depth or the mode, and is no indentation. -/
theorem oneCharacter (hE : Aborts E) (L : Lexer) :
    Ensures E (L.tryReadOperationWithOneCharacter program) fun r =>
      P L r.2 ∧ (r.1 = none → r.2 = L) ∧ ∀ type, r.1 = some type → Ordinary type := by
  have htoken : ∀ {type : TokenType} {M : Lexer}, Ordinary type → P L M →
      P L M ∧ (some type = none → M = L) ∧ ∀ type', some type = some type' → Ordinary type' :=
    fun h hM => ⟨hM, nofun, fun type' heq => Option.some.inj heq ▸ h⟩
  have hself : P L L := T.keep (T.refl L)
  have hopen : ∀ {type}, Ordinary type → Ensures E (L.openParenthesis type) fun r =>
      P L r.2 ∧ (r.1 = none → r.2 = L) ∧ ∀ type, r.1 = some type → Ordinary type :=
    fun h => htoken h (T.keep (T.adjust rfl rfl rfl rfl rfl))
  have hclose : ∀ {type}, Ordinary type → Ensures E (L.closeParenthesis type) fun r =>
      P L r.2 ∧ (r.1 = none → r.2 = L) ∧ ∀ type, r.1 = some type → Ordinary type := by
    intro type h
    unfold closeParenthesis
    split
    · exact htoken h (T.keep (T.adjust rfl rfl rfl rfl rfl))
    · exact hE.assertion
  have hpop : ∀ {type}, Ordinary type → Ensures E (L.popNormal type) fun r =>
      P L r.2 ∧ (r.1 = none → r.2 = L) ∧ ∀ type, r.1 = some type → Ordinary type := by
    intro type h
    unfold popNormal
    split
    next hmode => exact htoken h (T.leave hmode)
    · exact hE.assertion
  have hsimple : ∀ entry ∈ simpleOperations, Ordinary entry.2 := by decide
  have hcolon : P L L ∧ (some TokenType.colon = none → True) ∧ ∀ type, some TokenType.colon = some type → Ordinary type :=
    ⟨hself, nofun, fun type heq => Option.some.inj heq ▸ (by decide)⟩
  unfold tryReadOperationWithOneCharacter
  simp only [ensures_bind, ensures_ite, ensures_pure]
  refine ensures_peek hE fun c _ => ⟨fun _ => ⟨hself, fun _ => trivial, nofun⟩, fun _ => ⟨fun _ => ?_, fun _ =>
    ⟨fun _ => ?_, fun _ => ⟨fun _ => ?_, fun _ => ⟨fun _ => ?_, fun _ => ⟨fun _ => ?_, fun _ =>
    ⟨fun _ => ⟨fun _ => ?_, fun _ => ?_⟩, fun _ => ⟨fun _ => ⟨fun _ => ?_, fun _ => ?_⟩, fun _ => ?_⟩⟩⟩⟩⟩⟩⟩⟩
  · exact hopen (by decide)
  · exact hclose (by decide)
  · exact hopen (by decide)
  · exact hclose (by decide)
  · exact hopen (by decide)
  · exact hpop (by decide)
  · exact hclose (by decide)
  · split
    · exact hE.undefined
    · simp only [ensures_ite, ensures_pure]
      exact ⟨fun _ => hpop (by decide), fun _ => hcolon⟩
  · exact hcolon
  · exact ⟨hself, fun _ => trivial, fun type h => ordinary_of_find hsimple h⟩

theorem tryReadOperation (hE : Aborts E) (L : Lexer) :
    Ensures E (L.tryReadOperation program) fun r => P L r.2 ∧ (r.1 = false → R L r.2) := by
  have hpush : ∀ {read : Lexer} {type : TokenType} (n : Nat), P L read → Ordinary type →
      P L (L.pushOperation read type n).2 ∧ ((L.pushOperation read type n).1 = false → R L (L.pushOperation read type n).2) :=
    fun n hread h => ⟨T.after hread (T.pushOperation n (T.ordinary h)), nofun⟩
  have hself : P L L := T.keep (T.refl L)
  unfold Lexer.tryReadOperation
  simp only [ensures_ite, ensures_pure]
  refine ⟨fun _ => ⟨hself, fun _ => T.refl L⟩, fun _ => ?_⟩
  cases hthree : L.tryReadOperationWithThreeCharacters program with
  | some type => exact hpush 3 hself (ordinary_lookup (by decide) hthree)
  | none =>
    cases htwo : L.tryReadOperationWithTwoCharacters program with
    | some type => exact hpush 2 hself (ordinary_lookup (by decide) htwo)
    | none =>
      simp only [ensures_bind]
      refine (T.oneCharacter hE L).mono fun ⟨type, read⟩ ⟨hread, hnone, htype⟩ => ?_
      cases type with
      | some type => exact hpush 1 hread (htype type rfl)
      | none => exact ⟨hread, fun _ => hnone rfl ▸ T.refl L⟩

/-! ## Strings and f-strings -/

theorem pushStringToken {L read : Lexer} (isFstring : Bool) (quote : Quote) (skip : Nat) (h : Same L read) :
    P L (L.pushStringToken isFstring quote skip read) := by
  cases isFstring with
  | true => exact T.begin h quote skip
  | false => exact T.keep (T.trans (T.same h) (T.pushToken _ (T.ordinary (by decide)) _ _))

theorem tryReadString (hE : Aborts E) (L : Lexer) :
    Ensures E (L.tryReadString program) fun r => P L r.2 ∧ (r.1 = false → R L r.2) := by
  have hself : P L L ∧ (True → R L L) := ⟨T.keep (T.refl L), fun _ => T.refl L⟩
  unfold Lexer.tryReadString
  simp only [ensures_bind, ensures_ite, ensures_pure]
  refine ⟨fun _ => hself, fun _ => (ensures_findPrefix hE L _).mono fun found _ => ?_⟩
  cases found with
  | none => exact ⟨hself.1, fun _ => T.refl L⟩
  | some found =>
    have htriple : ∀ q kind s n skip, Ensures E (tripleQuotedString q s n L) fun read =>
        P L (L.pushStringToken (found.contains 'f' || found.contains 'F') kind skip read) ∧
          (true = false → R L (L.pushStringToken (found.contains 'f' || found.contains 'F') kind skip read)) :=
      fun q kind s n skip =>
        (ensures_tripleQuotedString hE q s n L).mono fun read h => ⟨T.pushStringToken _ kind skip h, nofun⟩
    have hsingle : ∀ q kind s n skip, Ensures E (quotedString q s n L) fun read =>
        P L (L.pushStringToken (found.contains 'f' || found.contains 'F') kind skip read) ∧
          (true = false → R L (L.pushStringToken (found.contains 'f' || found.contains 'F') kind skip read)) :=
      fun q kind s n skip =>
        (ensures_quotedString hE q s n L).mono fun read h => ⟨T.pushStringToken _ kind skip h, nofun⟩
    simp only [ensures_bind, ensures_ite, ensures_pure]
    refine (ensures_isTripleQuote hE L _ _).mono fun _ _ => ⟨fun _ => htriple _ _ _ _ _, fun _ => ?_⟩
    refine (ensures_isTripleQuote hE L _ _).mono fun _ _ => ⟨fun _ => htriple _ _ _ _ _, fun _ => ?_⟩
    exact ensures_peek hE fun _ _ => ⟨fun _ => hsingle _ _ _ _ _, fun _ => hsingle _ _ _ _ _⟩

/-- In the text of an f-string the loop ends at a piece, or goes on from a state that only the position tells apart. -/
theorem reachedEnd (hE : Aborts E) {L : Lexer} {below : List Mode} (hmode : L.mode = .fstring :: below)
    (start : Position) :
    Ensures E (L.reachedEnd program start) fun r => P L r.2 ∧ (r.1 = false → Same L r.2) := by
  have hpiece : ∀ {type}, Ordinary type → R L (L.pushPiece start type 1) := fun h =>
    T.pushPiece (T.ordinary (by decide)) (T.ordinary h) L start 1
  have hadvance : ∀ n, P L (L.advance n) ∧ (True → Same L (L.advance n)) := fun n =>
    ⟨T.keep (T.advance L n), fun _ => same_incrementColumnPosition L n⟩
  unfold Lexer.reachedEnd
  simp only [ensures_bind, ensures_ite, ensures_pure]
  refine ⟨fun _ => ensures_peek hE fun _ _ => ⟨fun _ => ⟨T.keep (hpiece (by decide)), nofun⟩, fun _ => hadvance 2⟩,
    fun _ => (ensures_endQuotes hE L).mono fun found _ => ?_⟩
  cases found with
  | some n =>
    have hmiddle : R L ((L.pushToken .fstringMiddle start L.position).advance n) :=
      T.trans (T.pushToken L (T.ordinary (by decide)) start L.position) (T.advance _ n)
    exact ⟨T.before hmiddle (T.finish (L := (L.pushToken .fstringMiddle start L.position).advance n) hmode _ _), nofun⟩
  | none =>
    simp only [ensures_bind, ensures_ite, ensures_pure]
    refine ensures_peek hE fun _ _ => ⟨fun _ => ensures_peek hE fun _ _ => ⟨fun _ => ?_, fun _ => hadvance 2⟩, fun _ => ?_⟩
    · exact ⟨T.before (hpiece (by decide)) (T.enter (L := L.pushPiece start .lbrace 1) hmode), nofun⟩
    · exact ensures_peek hE fun _ _ => ⟨fun _ => ⟨T.keep (T.trans (T.advance L 1) (T.advance _ 1)), fun _ =>
        (same_incrementColumnPosition L 1).trans (same_incrementColumnPosition _ 1)⟩, fun _ => hadvance 1⟩

theorem tryFstring (hE : Aborts E) {L : Lexer} {below : List Mode} (hmode : L.mode = .fstring :: below) :
    Ensures E (L.tryFstring program) fun r => P L r.2 := by
  have hloop : ∀ (fuel : Nat) (start : Position) (M : Lexer), M.mode = .fstring :: below →
      Ensures E (fstringLoop program start fuel M) (P M) := by
    intro fuel start
    induction fuel with
    | zero => exact fun M _ => hE.assertion
    | succ fuel ih =>
      intro M hM
      unfold fstringLoop peekNewline
      simp only [ensures_bind]
      refine (T.reachedEnd hE hM start).mono fun ⟨reached, N⟩ hN => ?_
      cases reached with
      | true => exact hN.1
      | false =>
        have hsame : Same M N := hN.2 rfl
        simp only [Bool.false_eq_true, if_false, ensures_bind, ensures_ite, ensures_pure, ensures_throw]
        refine (ensures_current hE N).mono fun _ _ => ⟨fun _ => hE.assertion, fun _ => ?_⟩
        exact (ih N (hsame.mode.trans hM)).mono fun _ h => T.before (T.same hsame) h
  unfold Lexer.tryFstring
  simp only [ensures_bind, ensures_pure]
  exact hloop _ _ _ hmode

/-- The readers behind the indentation. -/
theorem readTokens (hE : Aborts E) (L : Lexer) : Ensures E (L.readTokens program) fun r => P L r.2 := by
  have hfree : ∀ {type : TokenType}, Ordinary type → Free type := T.ordinary
  refine ensures_orElse (T.tryReadNewline (hfree (by decide)) (hfree (by decide)) hE L) (fun _ h => T.keep h)
    fun M hM => ?_
  simp only [ensures_bind]
  refine (T.tryReadBackslash hE M).mono fun N hN => ?_
  refine (T.advanceWhile hE N isBlank).mono fun N' hN' => ?_
  have hread : Ensures E (N'.orElse (·.tryReadString program) (·.orElse (·.tryReadName program)
      (·.orElse (·.tryReadOperation program) (·.tryReadNumber program)))) fun r => P N' r.2 := by
    refine ensures_orElse_read (T.tryReadString hE N') fun S hS => ?_
    refine ensures_orElse (P := R N') ?_ (fun _ h => T.keep h) fun S' hS' => ?_
    · exact (T.tryReadName (hfree (by decide)) hE S).mono fun r h => T.trans hS h
    refine ensures_orElse_read (P := R N') ?_ fun S'' hS'' => ?_
    · exact (T.tryReadOperation hE S').mono fun r h => ⟨T.before hS' h.1, fun hr => T.trans hS' (h.2 hr)⟩
    · exact (T.tryReadNumber (hfree (by decide)) hE S'').mono fun r h => T.keep (T.trans hS'' h)
  exact hread.mono fun _ h => T.before (T.trans hM (T.trans hN hN')) h

end StepFrame

end Lexer

end Pylang.Lex
