/-
`Parser::parse`: the file, or the line of a syntax error. Every loop of the
parser goes forward; the loop that collects the line ends at the first token of
another row, and has no other end.
-/
import Pylang.Parser.Progress
import Pylang.Parser.Reading
import Pylang.Lex.Read

namespace Pylang.Parse

open Pylang.Lex (TokenType Token Position Lexer)

variable {P V : Type}

/-! ## The parser -/

/-- `[statements] ENDMARKER` -/
def filePattern : List Pattern := [.zeroOrOne (.rule .statements), .token .endmarker]

/-- The loop that collects the line of a syntax error, up to the end of its last token; `none` where it takes a token that
there is not. -/
def lineEnd (row : Nat) : Position → List Token → Option Position
  | _, [] => none
  | stop, t :: ts => if t.start.row = row then lineEnd row t.stop ts else some stop

inductive Outcome (V : Type)
  | module (statements : V)
  | syntaxError (row : Nat) (line : List Char)
  /-- No pattern is tried. -/
  | noToken

/-- `Parser::parse`, with `FilePattern::matches_impl`. -/
def parseFile (acts : Actions V) (I : Input) : Option (Outcome V) :=
  match I.tokens with
  | [] => some .noToken
  | t :: ts => do
    let (r, _) ← matchPack acts.grammar I filePattern {}
    match r with
    | some vs => some (.module (acts.tuple vs))
    | none =>
      let stop ← lineEnd t.start.row t.stop (t :: ts)
      some (.syntaxError (t.start.row + 1) ((I.program.drop t.start.pointer).take (stop.pointer - t.start.pointer)))

/-! ## What is asked -/

/-- The states that a parse can lead to: moved to a position, with entries for what is in progress, has failed, has been
matched or has grown, and after any runs. -/
inductive Inside [DecidableEq P] (G : Grammar P V) (I : Input) (rules : P → Prop) : Parser P V → Prop
  | start : Inside G I rules {}
  | moved {s : Parser P V} (position : Nat) : Inside G I rules s → Inside G I rules (s.at position)
  | seeded {s : Parser P V} (k : Key P) (leftRecursion : Bool) (position : Nat) : Inside G I rules s →
      Inside G I rules (s.store k (.seed leftRecursion position))
  | failed {s : Parser P V} (k : Key P) : Inside G I rules s → Inside G I rules (s.store k .failure)
  | matched {s s' : Parser P V} {p : P} {r : Option V} : Inside G I rules s → G.Occurs rules p →
      matchHead G I p s = some (r, s') → Inside G I rules s'
  | entered {s s' : Parser P V} {p : P} {r : Option V} : Inside G I rules s → G.Occurs rules p →
      matchesImpl G I (G.body p) s = some (r, s') → Inside G I rules s'
  | stored {s s' : Parser P V} {p : P} {t : Token} {v : V} : Inside G I rules s → G.Occurs rules p →
      G.memoized p = true → I.peekToken s.position = some t → matchesImpl G I (G.body p) s = some (some v, s') →
      Inside G I rules (s'.store (key p t) (.result v s'.position))

/-- What is asked of the parser. -/
structure ParseRight (acts : Actions V) (I : Input) : Prop where
  /-- It ends, and takes no token that there is not. -/
  ends : ∃ outcome, parseFile acts I = some outcome
  /-- A match of what a loop repeats reads a token. -/
  repeats : ∀ s s' p parts vs, Inside acts.grammar I Pattern.IsRule s → acts.grammar.Occurs Pattern.IsRule p →
    (acts.body p = .oneOrMore parts ∨ acts.body p = .zeroOrMore parts) →
    matchPack acts.grammar I parts s = some (some vs, s') → s.position < s'.position
  /-- Growth goes on only with a result that ends further on than the one before. -/
  grows : ∀ p k start s s' v entry position, matchesImpl acts.grammar I (acts.body p) (s.at start) = some (some v, s') →
    s'.cache k = some entry → entry.position? = some position →
    growLr acts.grammar I p k start s = some (entry.stop position s') ∨ position < s'.position ∧
      growLr acts.grammar I p k start s = growLr acts.grammar I p k start (s'.store k (.result v s'.position))

/-- The tokens are a file, by the rules alone. -/
def IsFile (acts : Actions V) (I : Input) : Prop := ∃ vs j, ReadsAll acts.grammar I filePattern 0 vs j

/-- All tokens start on one row. -/
def OneRow (I : Input) : Prop := ∀ t ∈ I.tokens, ∀ u ∈ I.tokens, t.start.row = u.start.row

/-! ## The loops -/

section
variable [DecidableEq P] {G : Grammar P V} {I : Input} {A : Analysis P} {s s' : Parser P V}

theorem Inside.forward (hw : A.WellFormed G) (ha : Apart G I A) {rules : P → Prop} (hrules : ∀ p, rules p → A.member p)
    (h : Inside G I rules s) : Forward G I A s.cache := by
  induction h with
  | start => exact fun _ _ _ _ _ _ _ _ hentry => by cases hentry
  | moved position _ ih => exact ih
  | seeded k leftRecursion position _ ih => exact ih.store k nofun
  | failed k _ ih => exact ih.store k nofun
  | matched _ hp hrun ih => exact ((runs_move hw ha).head _ _ _ hrun (hw.member_of_occurs hrules hp) ih).1
  | entered _ hp hrun ih => exact ((runs_move hw ha).body _ _ _ hrun _ rfl (hw.member_of_occurs hrules hp) ih).1
  | stored _ hp hmemo ht hrun ih =>
    have hmember := hw.member_of_occurs hrules hp
    obtain ⟨hs, hmoves⟩ := (runs_move hw ha).body _ _ _ hrun _ rfl hmember ih
    have hmove := hmoves _ rfl
    have hlt := hmove.consumes (hw.memoized _ hmember hmemo)
    exact hs.stored ha hmember hmemo ht hlt (hmove.starts hlt _ ht)

end

/-! ## The line of an error -/

theorem lineEnd_eq_none_iff {row : Nat} (stop : Position) {ts : List Token} :
    lineEnd row stop ts = none ↔ ∀ t ∈ ts, t.start.row = row := by
  induction ts generalizing stop with
  | nil => exact iff_of_true rfl nofun
  | cons t ts ih =>
    unfold lineEnd
    rw [List.forall_mem_cons]
    split
    next h => exact (ih _).trans (and_iff_right h).symm
    next h => exact iff_of_false nofun fun hall => h hall.1

variable {acts : Actions V} {I : Input}

theorem filePattern_members : ∀ p ∈ filePattern, analysis.member p := by
  unfold analysis
  decide

theorem matchPack_file (acts : Actions V) (hI : I.Lexed) :
    (∃ vs s, matchPack acts.grammar I filePattern {} = some (some vs, s) ∧ IsFile acts I) ∨
      ∃ s, matchPack acts.grammar I filePattern {} = some (none, s) ∧ ¬ IsFile acts I := by
  rcases matchPack_reads (grammar_wellFormed acts) (hI.apart acts) .start filePattern_members with
    ⟨vs, s, hrun, hvs⟩ | ⟨s, hrun, hfails⟩
  · exact .inl ⟨vs, s, hrun, vs, s.position, hvs⟩
  · refine .inr ⟨s, hrun, fun hfile => ?_⟩
    obtain ⟨vs, j, hvs⟩ := hfile
    exact hfails vs j hvs

theorem not_isFile (acts : Actions V) {t : Token} (ht : I.peekToken 0 = some t)
    (hstarts : t.tokenType ∉ analysis.starts (.rule .statements)) (hne : t.tokenType ≠ .endmarker) : ¬ IsFile acts I := by
  intro h
  obtain ⟨vs, j, v, e, ws, hv, hws, -⟩ := h
  have hw := grammar_wellFormed acts
  obtain ⟨-, ⟨us, hus, -⟩ | ⟨-, -, rfl⟩⟩ := (reads_zeroOrOne hw ⟨by decide, by decide⟩ rfl (by decide)).mp hv
  · exact fails_of_starts hw (Rule.member .statements) (by decide) ht hstarts us e hus
  · obtain ⟨w, m, -, hw, -, -⟩ := hws
    obtain ⟨u, hu, htype, -, -⟩ := (reads_token rfl).mp hw
    cases ht.symm.trans hu
    exact hne htype

theorem parseFile_ends_iff (acts : Actions V) (hI : I.Lexed) (hne : I.tokens ≠ []) :
    (∃ outcome, parseFile acts I = some outcome) ↔ IsFile acts I ∨ ¬ OneRow I := by
  obtain ⟨t, ts, htokens⟩ := List.exists_cons_of_ne_nil hne
  have ht : I.peekToken 0 = some t := by
    unfold Input.peekToken
    rw [htokens]
    rfl
  have hrow : OneRow I ↔ ∀ u ∈ t :: ts, u.start.row = t.start.row := by
    unfold OneRow
    rw [htokens]
    exact ⟨fun h u hu => h u hu t List.mem_cons_self, fun h u hu u' hu' => (h u hu).trans (h u' hu').symm⟩
  unfold parseFile
  rw [htokens, hrow, ← lineEnd_eq_none_iff t.stop]
  rcases matchPack_file acts hI with ⟨vs, s, hrun, hfile⟩ | ⟨s, hrun, hnot⟩
  · refine iff_of_true ⟨.module (acts.tuple vs), ?_⟩ (.inl hfile)
    simp only [hrun, Option.bind_eq_bind, Option.bind_some]
  · rw [or_iff_right hnot]
    simp only [hrun, Option.bind_eq_bind, Option.bind_some]
    cases lineEnd t.start.row t.stop (t :: ts) with
    | none =>
      refine iff_of_false (fun h => ?_) fun h => h rfl
      obtain ⟨_, h⟩ := h
      cases h
    | some stop => exact iff_of_true ⟨_, rfl⟩ (Option.some_ne_none stop)

/-- **Parsing.** The loops of the parser go forward; it ends, and takes no token that there is not, exactly if the tokens are
a file or do not all start on one row. -/
theorem parseRight_iff (hI : I.Lexed) (hend : ∃ t, I.tokens.getLast? = some t ∧ t.tokenType = .endmarker) :
    ParseRight acts I ↔ IsFile acts I ∨ ¬ OneRow I := by
  have hw := grammar_wellFormed acts
  have hmoves := runs_move hw (hI.apart acts)
  have hrules : ∀ p, Pattern.IsRule p → analysis.member p := fun _ ⟨r, h⟩ => h ▸ Rule.member r
  have hne : I.tokens ≠ [] := by
    obtain ⟨last, hlast, -⟩ := hend
    exact List.ne_nil_of_mem (List.mem_of_getLast? hlast)
  have hends := parseFile_ends_iff acts hI hne
  refine ⟨fun h => hends.mp h.ends, fun h => { ends := hends.mpr h, repeats := ?_, grows := ?_ }⟩
  · intro s s' p parts vs hs hp hbody hrun
    have hok := hw.body p (hw.member_of_occurs hrules hp)
    have hforward := hs.forward hw (hI.apart acts) hrules
    rcases hbody with hbody | hbody
    · rw [show acts.grammar.body p = _ from hbody] at hok
      exact ((hmoves.pack parts s _ hrun hok.1 hforward).2.2 vs rfl).consumes hok.2.2
    · rw [show acts.grammar.body p = _ from hbody] at hok
      exact ((hmoves.pack parts s _ hrun hok.1 hforward).2.2 vs rfl).consumes hok.2.2.1
  · intro p k start s s' v entry position hrun hentry hposition
    rw [growLr, show matchesImpl acts.grammar I (acts.grammar.body p) (s.at start) = _ from hrun]
    simp only [Option.bind_eq_bind, Option.bind_some, hentry, hposition]
    split
    next => exact .inl rfl
    next h => exact .inr ⟨Nat.lt_of_not_le h, rfl⟩

/-- A comma, on a line of its own. -/
def commaLine : Input where
  program := [',', '\n']
  tokens := [⟨.comma, ⟨0, 0, 0⟩, ⟨0, 1, 1⟩⟩, ⟨.newline, ⟨0, 1, 1⟩, ⟨0, 2, 2⟩⟩, ⟨.endmarker, ⟨1, 0, 2⟩, ⟨2, 0, 2⟩⟩]

/-- A comma, without a line feed. -/
def comma : Input where
  program := [',']
  tokens := [⟨.comma, ⟨0, 0, 0⟩, ⟨0, 1, 1⟩⟩, ⟨.endmarker, ⟨0, 1, 1⟩, ⟨1, 0, 1⟩⟩]

theorem parseRight_commaLine : (∃ L, Lexer.readTimes commaLine.program 3 {} = .ok L ∧ L.tokens = commaLine.tokens) ∧
    ParseRight plainActions commaLine := by
  refine ⟨⟨_, rfl, rfl⟩, ?_⟩
  refine (parseRight_iff ⟨by decide⟩ ⟨_, rfl, rfl⟩).mpr (.inr fun h => ?_)
  exact absurd (h _ List.mem_cons_self ⟨.endmarker, ⟨1, 0, 2⟩, ⟨2, 0, 2⟩⟩ (by decide)) (by decide)

/-- The line of the error has no end. -/
theorem comma_runs_on : (∃ L, Lexer.readTimes comma.program 2 {} = .ok L ∧ L.tokens = comma.tokens) ∧
    ¬ ParseRight plainActions comma := by
  refine ⟨⟨_, rfl, rfl⟩, fun h => ?_⟩
  rcases (parseFile_ends_iff plainActions ⟨by decide⟩ (by decide)).mp h.ends with hfile | hrows
  · exact not_isFile plainActions rfl (by decide) (by decide) hfile
  · exact hrows (by unfold OneRow; decide)

end Pylang.Parse
