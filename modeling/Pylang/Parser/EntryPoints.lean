/-
The ways into the parser: a file, an expression, and the expression of an
f-string. A file and an expression are read to their end; an f-string's
expression is what stands at the start.
-/
import Pylang.Parser.SyntaxError

namespace Pylang.Parse

open Pylang.Lex (TokenType Token Position Lexer)

/-! ## Results -/

/-- The results of the patterns, over the nodes. -/
inductive Part (N : Type)
  | token (t : Token)
  | monostate
  | tuple (parts : List (Part N))
  | vector (parts : List (Part N))
  | optional (part : Option (Part N))
  | node (n : N)

namespace Part

variable {N : Type}

def items : Part N → List (Part N)
  | .vector parts => parts
  | _ => []

def node? : Part N → Option N
  | .node n => some n
  | _ => none

/-- The node behind a comma. -/
def second? : Part N → Option N
  | .tuple [_, .node n] => some n
  | _ => none

end Part

/-- What is not the entry points' own: the nodes of expressions, and of other statements. -/
structure Nodes (N : Type) where
  /-- A tuple that is loaded, up to the end of a token, or of its last element. -/
  tuple : List N → Option Position → N
  expression : Nat → List (Part N) → Nat → Nat → Option N
  other : Rule → Nat → List (Part N) → Nat → Nat → Option (Part N)

section
variable {N : Type} (nodes : Nodes N) (I : Input)

/-- What the rules around expressions make of the parts of an alternative. -/
def Nodes.part : Rule → Nat → List (Part N) → Nat → Nat → Option (Part N)
  | .expression, n, parts, i, j => (nodes.expression n parts i j).map .node
  | .starExpression, _, [expression], _, _ => some expression
  | .starExpressions, 0, [.node expression, more, _], _, j =>
    some (.node (nodes.tuple (expression :: more.items.filterMap Part.second?) ((I.peekToken (j - 1)).map (·.stop))))
  | .starExpressions, 1, [.node expression, .token comma], _, _ => some (.node (nodes.tuple [expression] (some comma.stop)))
  | .starExpressions, 2, [expression], _, _ => some expression
  | .expressions, 0, [expressions, _], _, _ => some expressions
  | .expressions, 1, [expression, _], _, _ => some (.vector [expression])
  | .expressions, 2, [expression], _, _ => some (.vector [expression])
  | .smallStatement, 1, [expressions], _, _ => some expressions
  | .simpleStatement, 0, [statement, _, _], _, _ => some (.vector [statement])
  | .simpleStatement, 1, [statements, _, _], _, _ => some statements
  | .statement, 0, [compound], _, _ => some (.vector [compound])
  | .statement, 1, [simple], _, _ => some simple
  | .statements, _, [statements], _, _ => some (.vector (statements.items.flatMap Part.items))
  | r, n, parts, i, j => nodes.other r n parts i j

def Nodes.actions : Actions (Part N) where
  token := .token
  monostate := .monostate
  tuple := .tuple
  vector := .vector
  optional := .optional
  node := nodes.part I

abbrev Nodes.grammar : Grammar Pattern (Part N) := (nodes.actions I).grammar

/-! ## The entry points -/

/-- `Parser::parse_expression`: what the module returns, and where the parser stands. -/
def parseExpression : Option (Option N × Nat) := do
  let (r, s) ← matchPack (nodes.grammar I) I [.rule .expressions, .zeroOrMore (.token .newline), .token .endmarker] {}
  match r with
  | some (expressions :: _) =>
    match expressions.items.filterMap Part.node? with
    | [expression] => some (some expression, s.position)
    | elements => some (some (nodes.tuple elements none), s.position)
  | _ => some (none, s.position)

/-- `Parser::parse_fstring` -/
def parseFstring : Option (Option N × Nat) := do
  let (r, s) ← matchPack (nodes.grammar I) I [.rule .starExpression] {}
  some (r.bind fun parts => parts.head?.bind Part.node?, s.position)

/-! ## What is asked -/

/-- Nothing but line ends, and the end, from a position on. -/
def UpToEnd (i : Nat) : Prop :=
  ∃ n, (∀ k < n, TokenAt I .newline (i + k)) ∧ TokenAt I .endmarker (i + n) ∧ I.tokens.length = i + n + 1

/-- The text is a file of one line, which is read as an expression statement. -/
structure ExpressionLine (e : N) (k : Nat) : Prop where
  compound : Fails (nodes.grammar I) I [.rule .compoundStatement] 0
  assignment : Fails (nodes.grammar I) I [.rule .assignment] 0
  expression : Reads (nodes.grammar I) I (.rule .starExpressions) 0 (.node e) k
  newline : TokenAt I .newline k
  endmarker : TokenAt I .endmarker (k + 1)

/-- What is asked of the entry points. -/
structure EntryPointsAgree : Prop where
  expression : ∀ e k, ExpressionLine nodes I e k → ∃ stop, parseExpression nodes I = some (some e, stop)
  fstring : ∀ e k, ExpressionLine nodes I e k → ∃ stop, parseFstring nodes I = some (some e, stop)
  expressionEnds : ∀ e stop, parseExpression nodes I = some (some e, stop) → stop = I.tokens.length
  fstringEnds : ∀ e stop, parseFstring nodes I = some (some e, stop) → UpToEnd I stop

/-- An expression at the start is the whole text. -/
def WholeExpression : Prop :=
  ∀ v k, Reads (nodes.grammar I) I (.rule .expression) 0 v k → UpToEnd I k

end

variable {N : Type} {nodes : Nodes N} {I : Input} {i j k : Nat} {v w : Part N} {e : N}

/-! ## The rules -/

theorem reads_expression_node (h : Reads (nodes.grammar I) I (.rule .expression) i v j) : ∃ e, v = .node e := by
  have hleft : (nodes.grammar I).leftRecursive (.rule .expression) = false := leftRecursive_rule _ .expression
  obtain ⟨-, k, hbody, -⟩ := (reads_body hleft).mp h
  have hone : parseBody (nodes.grammar I) I ⟨.rule .expression, i, none⟩
      (.alternatives ((nodes.actions I).alternativesFrom .expression (Rule.alternatives .expression) 0)) i =
        some (some (v, k)) := hbody
  rw [parseBody] at hone
  obtain ⟨a, ha, vs, hv⟩ := parseOneOf_result hone
  obtain ⟨m, hm⟩ := act_of_mem ha
  rw [hm] at hv
  obtain ⟨e, -, rfl⟩ := Option.map_eq_some_iff.mp hv
  exact ⟨e, rfl⟩

theorem reads_starExpression : Reads (nodes.grammar I) I (.rule .starExpression) i v j ↔
    Reads (nodes.grammar I) I (.rule .expression) i v j := by
  rw [Rule.reads_iff (by decide)]
  constructor
  · intro h
    rcases h with ⟨vs, ⟨w, e, ws, hw, ⟨rfl, rfl⟩, rfl⟩, hact⟩ | ⟨-, h⟩
    · cases hact
      exact hw
    · cases h
  · intro h
    exact .inl ⟨[v], ⟨v, j, [], h, ⟨rfl, rfl⟩, rfl⟩, rfl⟩

theorem reads_starExpressions_one (h : Reads (nodes.grammar I) I (.rule .expression) i v j)
    (hcomma : Fails (nodes.grammar I) I [.token .comma] j) : Reads (nodes.grammar I) I (.rule .starExpressions) i v j := by
  have hw := grammar_wellFormed (nodes.actions I)
  have hstar := reads_starExpression.mpr h
  have hmore : Fails (nodes.grammar I) I [.oneOrMore (.both (.token .comma) (.rule .starExpression))] j := by
    intro vs k hvs
    obtain ⟨w, e, ws, hw', -⟩ := hvs
    obtain ⟨us, l, ws, hus, -⟩ := (reads_oneOrMore hw ⟨by decide, by decide⟩ rfl (by decide)).mp hw'
    exact fails_head hcomma _ us l hus
  rw [Rule.reads_iff (by decide)]
  refine .inr ⟨fails_second hstar (fails_head hmore _), .inr ⟨fails_second hstar hcomma, .inl ?_⟩⟩
  exact ⟨[v], ⟨v, j, [], hstar, ⟨rfl, rfl⟩, rfl⟩, rfl⟩

theorem reads_expressions_one (h : Reads (nodes.grammar I) I (.rule .expression) i v j)
    (hcomma : Fails (nodes.grammar I) I [.token .comma] j) (hj : ∃ t, I.peekToken j = some t) :
    Reads (nodes.grammar I) I (.rule .expressions) i (.vector [v]) j := by
  have hw := grammar_wellFormed (nodes.actions I)
  have hitems : Reads (nodes.grammar I) I (.applyInBetween (.rule .expression) (.token .comma)) i (.vector [v]) j :=
    reads_applyInBetween_one hw ⟨by decide, by decide⟩ rfl ⟨by decide, by decide⟩ h (.inl hcomma)
  have htrailing : Reads (nodes.grammar I) I (.zeroOrOne (.token .comma)) j (.optional none) j :=
    (reads_zeroOrOne hw ⟨by decide, by decide⟩ rfl (by decide)).mpr ⟨hj, .inr ⟨hcomma, rfl, rfl⟩⟩
  rw [Rule.reads_iff (by decide)]
  exact .inl ⟨_, ⟨_, _, _, hitems, ⟨_, _, _, htrailing, ⟨rfl, rfl⟩, rfl⟩, rfl⟩, rfl⟩

theorem reads_expressions_comma (h : Reads (nodes.grammar I) I (.rule .expression) i v j) (hcomma : TokenAt I .comma j)
    (hnext : Fails (nodes.grammar I) I [.rule .expression] (j + 1)) :
    Reads (nodes.grammar I) I (.rule .expressions) i (.vector [v]) (j + 1) := by
  have hw := grammar_wellFormed (nodes.actions I)
  obtain ⟨t, ht⟩ := reads_tokenAt (nodes.actions I) hcomma
  have hitems : Reads (nodes.grammar I) I (.applyInBetween (.rule .expression) (.token .comma)) i (.vector [v]) j :=
    reads_applyInBetween_one hw ⟨by decide, by decide⟩ rfl ⟨by decide, by decide⟩ h (.inr ⟨_, _, ht, hnext⟩)
  have hone : ReadsAll (nodes.grammar I) I [.token .comma] j [.token t] (j + 1) := ⟨_, _, _, ht, ⟨rfl, rfl⟩, rfl⟩
  have htrailing : Reads (nodes.grammar I) I (.zeroOrOne (.token .comma)) j (.optional (some (.token t))) (j + 1) :=
    (reads_zeroOrOne hw ⟨by decide, by decide⟩ rfl (by decide)).mpr ⟨ht.token, .inl ⟨_, hone, rfl⟩⟩
  rw [Rule.reads_iff (by decide)]
  exact .inl ⟨_, ⟨_, _, _, hitems, ⟨_, _, _, htrailing, ⟨rfl, rfl⟩, rfl⟩, rfl⟩, rfl⟩

/-- An expression with a comma is a tuple. -/
theorem reads_starExpressions_comma (h : Reads (nodes.grammar I) I (.rule .expression) i (.node e) j)
    (hcomma : TokenAt I .comma j) (hnext : Fails (nodes.grammar I) I [.rule .expression] (j + 1)) :
    ∃ stop, Reads (nodes.grammar I) I (.rule .starExpressions) i (.node (nodes.tuple [e] stop)) (j + 1) := by
  have hw := grammar_wellFormed (nodes.actions I)
  have hstar := reads_starExpression.mpr h
  obtain ⟨t, ht⟩ := reads_tokenAt (nodes.actions I) hcomma
  have hmore : Fails (nodes.grammar I) I [.oneOrMore (.both (.token .comma) (.rule .starExpression))] j := by
    intro vs k hvs
    obtain ⟨w, k, ws, hw', -⟩ := hvs
    obtain ⟨us, l, ws, ⟨u, m, us', hu, ⟨u', m', us'', hu', -⟩, -⟩, -⟩ :=
      (reads_oneOrMore hw ⟨by decide, by decide⟩ rfl (by decide)).mp hw'
    obtain ⟨-, rfl⟩ := hu.unique ht
    exact hnext [u'] m' ⟨u', m', [], reads_starExpression.mp hu', ⟨rfl, rfl⟩, rfl⟩
  refine ⟨some t.stop, (Rule.reads_iff (by decide)).mpr (.inr ⟨fails_second hstar (fails_head hmore _), .inl ?_⟩)⟩
  exact ⟨_, ⟨_, _, _, hstar, ⟨_, _, _, ht, ⟨rfl, rfl⟩, rfl⟩, rfl⟩, rfl⟩

/-! ## The first expression -/

theorem starExpressions_first (h : Reads (nodes.grammar I) I (.rule .starExpressions) i v j) :
    ∃ w k, Reads (nodes.grammar I) I (.rule .expression) i w k := by
  rcases (Rule.reads_iff (by decide)).mp h with ⟨vs, ⟨w, k, ws, hw, -⟩, -⟩ | ⟨-, ⟨vs, ⟨w, k, ws, hw, -⟩, -⟩ |
    ⟨-, ⟨vs, ⟨w, k, ws, hw, -⟩, -⟩ | ⟨-, h⟩⟩⟩
  · exact ⟨w, k, reads_starExpression.mp hw⟩
  · exact ⟨w, k, reads_starExpression.mp hw⟩
  · exact ⟨w, k, reads_starExpression.mp hw⟩
  · cases h

theorem expressions_first (h : Reads (nodes.grammar I) I (.rule .expressions) i v j) :
    ∃ w k, Reads (nodes.grammar I) I (.rule .expression) i w k := by
  rcases (Rule.reads_iff (by decide)).mp h with ⟨vs, ⟨w, k, ws, hw, -⟩, -⟩ | ⟨-, ⟨vs, ⟨w, k, ws, hw, -⟩, -⟩ |
    ⟨-, ⟨vs, ⟨w, k, ws, hw, -⟩, -⟩ | ⟨-, h⟩⟩⟩
  · exact reads_applyInBetween_first (grammar_wellFormed _) ⟨by decide, by decide⟩ rfl (by decide) hw
  · exact ⟨w, k, hw⟩
  · exact ⟨w, k, hw⟩
  · cases h

theorem UpToEnd.fails_comma {V : Type} {acts : Actions V} (h : UpToEnd I i) : Fails acts.grammar I [.token .comma] i := by
  obtain ⟨n, hlines, hend, -⟩ := h
  cases n with
  | zero => exact fails_token hend (by decide)
  | succ n => exact fails_token (hlines 0 (Nat.zero_lt_succ n)) (by decide)

theorem UpToEnd.token (h : UpToEnd I i) : ∃ t, I.peekToken i = some t := by
  obtain ⟨n, hlines, hend, -⟩ := h
  cases n with
  | zero => exact hend.imp fun t ht => ht.1
  | succ n => exact (hlines 0 (Nat.zero_lt_succ n)).imp fun t ht => ht.1

theorem readsMany_newline {V : Type} (acts : Actions V) {n : Nat} (hlines : ∀ k < n, TokenAt I .newline (i + k))
    (hend : TokenAt I .endmarker (i + n)) : ∃ vs, ReadsMany acts.grammar I [.token .newline] i vs (i + n) := by
  induction n generalizing i with
  | zero => exact ⟨[], .stop (fails_token hend (by decide))⟩
  | succ n ih =>
    obtain ⟨t, ht⟩ := reads_tokenAt acts (hlines 0 (Nat.zero_lt_succ n))
    obtain ⟨vs, hvs⟩ := ih (i := i + 1) (fun k hk => by
      rw [Nat.add_assoc, Nat.add_comm 1 k]
      exact hlines (k + 1) (Nat.succ_lt_succ hk)) (by rwa [Nat.add_assoc, Nat.add_comm 1 n])
    rw [Nat.add_assoc, Nat.add_comm 1 n] at hvs
    exact ⟨_, .next ⟨_, _, _, ht, ⟨rfl, rfl⟩, rfl⟩ hvs⟩

theorem readsAll_expression (h : Reads (nodes.grammar I) I (.rule .expressions) 0 v k) (hend : UpToEnd I k) :
    ∃ w u, ReadsAll (nodes.grammar I) I [.rule .expressions, .zeroOrMore (.token .newline), .token .endmarker] 0
      [v, w, u] I.tokens.length := by
  have htoken := hend.token
  obtain ⟨n, hlines, hmarker, hlength⟩ := hend
  obtain ⟨vs, hvs⟩ := readsMany_newline (nodes.actions I) hlines hmarker
  obtain ⟨t, ht⟩ := reads_tokenAt (nodes.actions I) hmarker
  have hnewlines : Reads (nodes.grammar I) I (.zeroOrMore (.token .newline)) k (.vector vs) (k + n) :=
    (reads_zeroOrMore (grammar_wellFormed _) ⟨by decide, by decide⟩ rfl (by decide)).mpr ⟨htoken, vs, hvs, rfl⟩
  rw [hlength]
  exact ⟨_, _, _, _, _, h, ⟨_, _, _, hnewlines, ⟨_, _, _, ht, ⟨rfl, rfl⟩, rfl⟩, rfl⟩, rfl⟩

/-! ## One number -/

/-- The alternative does not match where there is a token of one type and a token of another: its first part does not start
with the first, or is `own`, and the second does not start with the next. -/
def stuckAt (own base : Pattern) (type next : TokenType) (p : Pattern) : Bool :=
  match p.parts with
  | q :: r :: _ =>
    decide (own ≠ q) && q.consumes false && !(q.starts false).contains type ||
      (decide (q = own) || decide (q = base)) && decide (own ≠ r) && r.consumes false && !(r.starts false).contains next
  | [q] => decide (own ≠ q) && q.consumes false && !(q.starts false).contains type
  | [] => false

/-- A rule whose alternatives before one of a single part are stuck. -/
def climbs (type next : TokenType) (r : Rule) (before : Nat) (base : Pattern) : Bool :=
  match r.alternatives.drop before with
  | p :: _ => decide (p = base) && decide (p.parts = [base]) && decide (Pattern.rule r ≠ base) &&
      (r.alternatives.take before).all (stuckAt (.rule r) base type next)
  | [] => false

theorem stuck_of_stuckAt {V : Type} {acts : Actions V} {own base : Pattern} {type next : TokenType} {p : Pattern}
    (hmembers : ∀ q ∈ p.parts, analysis.member q) (hi : TokenAt I type i) (hj : TokenAt I next j)
    (h : stuckAt own base type next p = true) : Stuck acts.grammar I analysis own base i j p.parts := by
  obtain ⟨t, ht, rfl⟩ := hi
  obtain ⟨u, hu, rfl⟩ := hj
  have hw := grammar_wellFormed acts
  unfold stuckAt at h
  cases hparts : p.parts with
  | nil =>
    rw [hparts] at h
    cases h
  | cons q qs =>
    rw [hparts] at h hmembers
    have hq := hmembers q List.mem_cons_self
    have hfirst (h : (decide (own ≠ q) && q.consumes false && !(q.starts false).contains t.tokenType) = true) :
        Stuck acts.grammar I analysis own base i j (q :: qs) := by
      simp only [Bool.and_eq_true, decide_eq_true_eq, Bool.not_eq_true', List.contains_eq_mem, decide_eq_false_iff_not] at h
      exact .inl ⟨q, qs, rfl, h.1.1, hq, fails_of_starts hw hq h.1.2 ht h.2⟩
    cases qs with
    | nil => exact hfirst h
    | cons r rest =>
      rcases Bool.or_eq_true_iff.mp h with h | h
      · exact hfirst h
      · simp only [Bool.and_eq_true, Bool.or_eq_true, decide_eq_true_eq, Bool.not_eq_true', List.contains_eq_mem,
          decide_eq_false_iff_not] at h
        have hr := hmembers r (List.mem_cons_of_mem _ List.mem_cons_self)
        exact .inr ⟨q, r, rest, rfl, h.1.1.1, h.1.1.2, hr, fails_of_starts hw hr h.1.2 hu h.2⟩

theorem alternativesFrom_append {V : Type} (acts : Actions V) (r : Rule) (ps qs : List Pattern) (n : Nat) :
    acts.alternativesFrom r (ps ++ qs) n = acts.alternativesFrom r ps n ++ acts.alternativesFrom r qs (n + ps.length) := by
  induction ps generalizing n with
  | nil => rfl
  | cons p ps ih =>
    have htail := ih (n + 1)
    rw [Nat.add_right_comm n 1] at htail
    exact congrArg ((p.parts, acts.node r n) :: ·) htail

/-- A rule reads what one of its alternatives does. -/
theorem reads_climb {V : Type} {acts : Actions V} (hacts : ∀ r n vs i j, (acts.node r n vs i j).isSome) {type next : TokenType}
    {r : Rule} (before : Nat) {base : Pattern} (hclimbs : climbs type next r before base = true) (hi : TokenAt I type i)
    (hj : TokenAt I next j) (h : ∃ v, Reads acts.grammar I base i v j) : ∃ v, Reads acts.grammar I (.rule r) i v j := by
  obtain ⟨v, h⟩ := h
  unfold climbs at hclimbs
  split at hclimbs
  next p more hdrop =>
    simp only [Bool.and_eq_true, decide_eq_true_eq, List.all_eq_true] at hclimbs
    obtain ⟨⟨⟨rfl, hparts⟩, hne⟩, hstuck⟩ := hclimbs
    let n := (r.alternatives.take before).length
    have hbody : acts.grammar.body (.rule r) = .alternatives (acts.alternativesFrom r (r.alternatives.take before) 0 ++
        ([p], acts.node r (0 + n)) :: acts.alternativesFrom r more (0 + n + 1)) := by
      show Body.alternatives (acts.alternativesFrom r r.alternatives 0) = _
      have hsplit := List.take_append_drop before r.alternatives
      rw [hdrop] at hsplit
      rw [← hsplit, alternativesFrom_append, hsplit, ← hparts]
      rfl
    obtain ⟨w, hw⟩ := Option.isSome_iff_exists.mp (hacts r (0 + n) [v] i j)
    refine ⟨w, reads_base (grammar_wellFormed acts) r.member hbody hne (fun a ha => ?_) h hw⟩
    obtain ⟨q, hq, heq⟩ := mem_alternativesFrom acts ha
    have hok := Rule.alternative_ok (List.mem_of_mem_take hq)
    simp only [Rule.alternativeOk, Bool.and_eq_true, decide_eq_true_eq] at hok
    rw [heq]
    exact stuck_of_stuckAt (Pattern.member_parts hok.1.1.1 hok.1.1.2) hi hj (hstuck q hq)
  next => cases hclimbs

/-- Rules, each of which reads what the one before it does, from `base` on. -/
def ladder (type next : TokenType) : Pattern → List (Rule × Nat) → Bool
  | _, [] => true
  | base, (r, before) :: rules => climbs type next r before base && ladder type next (.rule r) rules

def top : Pattern → List (Rule × Nat) → Pattern
  | base, [] => base
  | _, (r, _) :: rules => top (.rule r) rules

theorem reads_top {V : Type} {acts : Actions V} (hacts : ∀ r n vs i j, (acts.node r n vs i j).isSome) {type next : TokenType}
    (hi : TokenAt I type i) (hj : TokenAt I next j) {rules : List (Rule × Nat)} {base : Pattern}
    (hladder : ladder type next base rules = true) (h : ∃ v, Reads acts.grammar I base i v j) :
    ∃ v, Reads acts.grammar I (top base rules) i v j := by
  induction rules generalizing base with
  | nil => exact h
  | cons a rules ih =>
    obtain ⟨r, before⟩ := a
    obtain ⟨hclimbs, hrest⟩ := Bool.and_eq_true_iff.mp hladder
    exact ih hrest (reads_climb hacts before hclimbs hi hj h)

/-- From a number up to an expression. -/
def numberRules : List (Rule × Nat) :=
  [(.atom, 2), (.primary, 4), (.awaitPrimary, 1), (.power, 1), (.factor, 3), (.term, 5), (.sum, 2), (.shiftExpr, 2),
    (.bitwiseAnd, 1), (.bitwiseXor, 1), (.bitwiseOr, 1), (.comparisson, 1), (.inversion, 1), (.conjunction, 1),
    (.disjunction, 1), (.expression, 1)]

theorem reads_number {V : Type} {acts : Actions V} (hacts : ∀ r n vs i j, (acts.node r n vs i j).isSome) {next : TokenType}
    (h : TokenAt I .number i) (hnext : TokenAt I next (i + 1)) (hladder : ladder .number next (.token .number) numberRules = true) :
    ∃ v, Reads acts.grammar I (.rule .expression) i v (i + 1) := by
  obtain ⟨t, ht⟩ := reads_tokenAt acts h
  exact reads_top hacts h hnext hladder ⟨_, ht⟩

/-! ## The runs -/

variable (nodes) in
theorem matchPack_grammar (hI : I.Lexed) {parts : List Pattern} (hparts : ∀ p ∈ parts, analysis.member p) :
    (∃ vs s, matchPack (nodes.grammar I) I parts {} = some (some vs, s) ∧
      ReadsAll (nodes.grammar I) I parts 0 vs s.position) ∨
      ∃ s, matchPack (nodes.grammar I) I parts {} = some (none, s) ∧ Fails (nodes.grammar I) I parts 0 :=
  matchPack_reads (grammar_wellFormed _) (hI.apart _) .start hparts

theorem expression_members : ∀ p ∈ [Pattern.rule .expressions, .zeroOrMore (.token .newline), .token .endmarker],
    analysis.member p := by
  unfold analysis
  decide

theorem parseExpression_of_reads (hI : I.Lexed) (h : Reads (nodes.grammar I) I (.rule .expressions) 0 (.vector [.node e]) k)
    (hend : UpToEnd I k) : parseExpression nodes I = some (some e, I.tokens.length) := by
  obtain ⟨w, u, hall⟩ := readsAll_expression h hend
  rcases matchPack_grammar nodes hI expression_members with ⟨vs, s, hrun, hvs⟩ | ⟨s, -, hfails⟩
  · obtain ⟨rfl, hstop⟩ := hvs.unique hall
    unfold parseExpression
    rw [hrun, ← hstop]
    rfl
  · exact absurd hall (hfails _ _)

/-- A tuple of one element is that element for `parse_expression`. -/
theorem parseExpression_comma (hI : I.Lexed) (h : Reads (nodes.grammar I) I (.rule .expression) 0 (.node e) k)
    (hcomma : TokenAt I .comma k) (hend : UpToEnd I (k + 1)) :
    (∃ stop, Reads (nodes.grammar I) I (.rule .starExpressions) 0 (.node (nodes.tuple [e] stop)) (k + 1)) ∧
      parseExpression nodes I = some (some e, I.tokens.length) := by
  have hnext : Fails (nodes.grammar I) I [.rule .expression] (k + 1) := by
    have hw := grammar_wellFormed (nodes.actions I)
    obtain ⟨n, hlines, hmarker, -⟩ := hend
    cases n with
    | zero =>
      obtain ⟨t, ht, htype⟩ := hmarker
      exact fails_of_starts hw (Rule.member .expression) (by decide) ht (by rw [htype]; decide)
    | succ n =>
      obtain ⟨t, ht, htype⟩ := hlines 0 (Nat.zero_lt_succ n)
      exact fails_of_starts hw (Rule.member .expression) (by decide) ht (by rw [htype]; decide)
  exact ⟨reads_starExpressions_comma h hcomma hnext, parseExpression_of_reads hI (reads_expressions_comma h hcomma hnext) hend⟩

theorem parseExpression_reads (hI : I.Lexed) {stop : Nat} (h : parseExpression nodes I = some (some e, stop)) :
    ∃ vs, ReadsAll (nodes.grammar I) I [.rule .expressions, .zeroOrMore (.token .newline), .token .endmarker] 0 vs stop := by
  unfold parseExpression at h
  rcases matchPack_grammar nodes hI expression_members with ⟨vs, s, hrun, hvs⟩ | ⟨s, hrun, -⟩
  · refine ⟨vs, ?_⟩
    have hstop : s.position = stop := by
      rw [hrun] at h
      obtain ⟨v, j, ws, -, -, rfl⟩ := hvs
      simp only [Option.bind_eq_bind, Option.bind_some] at h
      split at h
      next => exact (Prod.mk.inj (Option.some.inj h)).2
      next => exact (Prod.mk.inj (Option.some.inj h)).2
    exact hstop ▸ hvs
  · rw [hrun] at h
    cases h

theorem starExpression_members : ∀ p ∈ [Pattern.rule .starExpression], analysis.member p :=
  List.forall_mem_singleton.mpr (Rule.member .starExpression)

theorem parseFstring_iff (hI : I.Lexed) {stop : Nat} : parseFstring nodes I = some (some e, stop) ↔
    Reads (nodes.grammar I) I (.rule .expression) 0 (.node e) stop := by
  unfold parseFstring
  rcases matchPack_grammar nodes hI starExpression_members with ⟨vs, s, hrun, v, j, ws, hv, ⟨rfl, rfl⟩, rfl⟩ | ⟨s, hrun, hfails⟩
  · have hv := reads_starExpression.mp hv
    obtain ⟨n, rfl⟩ := reads_expression_node hv
    rw [hrun]
    constructor
    · intro h
      cases h
      exact hv
    · intro h
      obtain ⟨heq, rfl⟩ := hv.unique h
      cases heq
      rfl
  · rw [hrun]
    refine iff_of_false nofun fun h => ?_
    exact hfails _ _ ⟨_, _, [], reads_starExpression.mpr h, ⟨rfl, rfl⟩, rfl⟩

/-- What such a line is as a file: a module of one statement. -/
theorem ExpressionLine.file (hI : I.Lexed) (h : ExpressionLine nodes I e k) : ∃ u,
    parseFile (nodes.actions I) I = some (.module (.tuple [.optional (some (.vector [.node e])), u])) := by
  have hw := grammar_wellFormed (nodes.actions I)
  obtain ⟨newline, hnewline⟩ := reads_tokenAt (nodes.actions I) h.newline
  obtain ⟨marker, hmarker⟩ := reads_tokenAt (nodes.actions I) h.endmarker
  have hsmall : Reads (nodes.grammar I) I (.rule .smallStatement) 0 (.node e) k :=
    (Rule.reads_iff (by decide)).mpr
      (.inr ⟨h.assignment, .inl ⟨_, ⟨_, _, _, h.expression, ⟨rfl, rfl⟩, rfl⟩, rfl⟩⟩)
  have hnoSemi : Reads (nodes.grammar I) I (.negativeLookAhead (.token .semi)) k .monostate k :=
    reads_negativeLookAhead hw ⟨by decide, by decide⟩ rfl hnewline.token.choose_spec (fails_token h.newline (by decide))
  have hsimple : Reads (nodes.grammar I) I (.rule .simpleStatement) 0 (.vector [.node e]) (k + 1) :=
    (Rule.reads_iff (by decide)).mpr (.inl ⟨_, ⟨_, _, _, hsmall, ⟨_, _, _, hnoSemi, ⟨_, _, _, hnewline, ⟨rfl, rfl⟩, rfl⟩, rfl⟩,
      rfl⟩, rfl⟩)
  have hstatement : Reads (nodes.grammar I) I (.rule .statement) 0 (.vector [.node e]) (k + 1) :=
    (Rule.reads_iff (by decide)).mpr (.inr ⟨h.compound, .inl ⟨_, ⟨_, _, _, hsimple, ⟨rfl, rfl⟩, rfl⟩, rfl⟩⟩)
  have hno : Fails (nodes.grammar I) I [.rule .statement] (k + 1) := by
    obtain ⟨t, ht, htype⟩ := h.endmarker
    refine fails_of_starts hw (Rule.member .statement) (by decide) ht ?_
    rw [htype]
    decide
  have hmany : Reads (nodes.grammar I) I (.oneOrMore (.rule .statement)) 0 (.vector [.vector [.node e]]) (k + 1) :=
    (reads_oneOrMore hw ⟨by decide, by decide⟩ rfl (by decide)).mpr
      ⟨[.vector [.node e]], k + 1, [], ⟨_, _, _, hstatement, ⟨rfl, rfl⟩, rfl⟩, .stop hno, rfl⟩
  have hstatements : Reads (nodes.grammar I) I (.rule .statements) 0 (.vector [.node e]) (k + 1) :=
    (Rule.reads_iff (by decide)).mpr (.inl ⟨_, ⟨_, _, _, hmany, ⟨rfl, rfl⟩, rfl⟩, rfl⟩)
  have hone : ReadsAll (nodes.grammar I) I [.rule .statements] 0 [.vector [.node e]] (k + 1) :=
    ⟨_, _, _, hstatements, ⟨rfl, rfl⟩, rfl⟩
  have hoptional : Reads (nodes.grammar I) I (.zeroOrOne (.rule .statements)) 0 (.optional (some (.vector [.node e])))
      (k + 1) :=
    (reads_zeroOrOne hw ⟨by decide, by decide⟩ rfl (by decide)).mpr
      ⟨hstatements.token, .inl ⟨_, hone, rfl⟩⟩
  have hall : ReadsAll (nodes.grammar I) I filePattern 0 [.optional (some (.vector [.node e])), .token marker] (k + 1 + 1) :=
    ⟨_, _, _, hoptional, ⟨_, _, _, hmarker, ⟨rfl, rfl⟩, rfl⟩, rfl⟩
  refine ⟨.token marker, ?_⟩
  obtain ⟨t, ht⟩ := hstatements.token
  rcases matchPack_grammar nodes hI filePattern_members with ⟨vs, s, hrun, hvs⟩ | ⟨s, -, hfails⟩
  · obtain ⟨rfl, -⟩ := hvs.unique hall
    unfold parseFile
    cases htokens : I.tokens with
    | nil =>
      rw [Input.peekToken, htokens] at ht
      cases ht
    | cons t ts =>
      dsimp only
      rw [hrun]
      rfl
  · exact absurd hall (hfails _ _)

/-- **Entry points.** They agree, and read all of what they accept, exactly if no expression at the start is a part of the
text only. -/
theorem entryPointsAgree_iff (hI : I.Lexed) : EntryPointsAgree nodes I ↔ WholeExpression nodes I := by
  constructor
  · intro h v k hv
    obtain ⟨e, rfl⟩ := reads_expression_node hv
    exact h.fstringEnds e k ((parseFstring_iff hI).mpr hv)
  · intro h
    have hline {e : N} {k : Nat} (hline : ExpressionLine nodes I e k) :
        Reads (nodes.grammar I) I (.rule .expression) 0 (.node e) k := by
      obtain ⟨v, m, hv⟩ := starExpressions_first hline.expression
      have hone := reads_starExpressions_one hv (h v m hv).fails_comma
      obtain ⟨rfl, rfl⟩ := hline.expression.unique hone
      exact hv
    refine { expression := ?_, fstring := ?_, expressionEnds := ?_, fstringEnds := ?_ }
    · intro e k hek
      have hend := h _ k (hline hek)
      exact ⟨_, parseExpression_of_reads hI (reads_expressions_one (hline hek) hend.fails_comma hend.token) hend⟩
    · intro e k hek
      exact ⟨k, (parseFstring_iff hI).mpr (hline hek)⟩
    · intro e stop hrun
      obtain ⟨vs, v, j, ws, hv, hws, rfl⟩ := parseExpression_reads hI hrun
      obtain ⟨u, m, hu⟩ := expressions_first hv
      have hend := h u m hu
      obtain ⟨_, _, hall⟩ := readsAll_expression (reads_expressions_one hu hend.fails_comma hend.token) hend
      have hread : ReadsAll (nodes.grammar I) I [.rule .expressions, .zeroOrMore (.token .newline), .token .endmarker] 0
        (v :: ws) stop := ⟨v, j, ws, hv, hws, rfl⟩
      exact (hread.unique hall).2
    · intro e stop hrun
      exact h _ stop ((parseFstring_iff hI).mp hrun)

/-- Nodes of one kind. -/
def oneNode : Nodes Unit where
  tuple _ _ := ()
  expression _ _ _ _ := some ()
  other _ _ _ _ _ := some .monostate

theorem oneNode_isSome (r : Rule) (n : Nat) (vs : List (Part Unit)) (i j : Nat) : ((oneNode.actions I).node r n vs i j).isSome := by
  show (oneNode.part I r n vs i j).isSome = true
  unfold Nodes.part
  split <;> rfl

/-- `1` -/
def oneNumber : Input where
  program := ['1', '\n']
  tokens := [⟨.number, ⟨0, 0, 0⟩, ⟨0, 1, 1⟩⟩, ⟨.newline, ⟨0, 1, 1⟩, ⟨0, 2, 2⟩⟩, ⟨.endmarker, ⟨1, 0, 2⟩, ⟨2, 0, 2⟩⟩]

theorem entryPointsAgree_number : (∃ L, Lexer.readTimes oneNumber.program 3 {} = .ok L ∧ L.tokens = oneNumber.tokens) ∧
    EntryPointsAgree oneNode oneNumber := by
  refine ⟨⟨_, rfl, rfl⟩, (entryPointsAgree_iff ⟨by decide⟩).mpr fun v k hv => ?_⟩
  obtain ⟨w, hw⟩ := reads_number (I := oneNumber) (i := 0) oneNode_isSome ⟨_, rfl, rfl⟩ ⟨_, rfl, rfl⟩ (by decide)
  obtain ⟨-, rfl⟩ := hv.unique hw
  refine ⟨1, fun n hn => ?_, ⟨_, rfl, rfl⟩, rfl⟩
  obtain rfl : n = 0 := Nat.lt_one_iff.mp hn
  exact ⟨_, rfl, rfl⟩

/-- `1 2` -/
def twoNumbers : Input where
  program := ['1', ' ', '2', '\n']
  tokens := [⟨.number, ⟨0, 0, 0⟩, ⟨0, 1, 1⟩⟩, ⟨.number, ⟨0, 2, 2⟩, ⟨0, 3, 3⟩⟩, ⟨.newline, ⟨0, 3, 3⟩, ⟨0, 4, 4⟩⟩,
    ⟨.endmarker, ⟨1, 0, 4⟩, ⟨2, 0, 4⟩⟩]

/-- An f-string's expression is one of two numbers. -/
theorem number_before_number : (∃ L, Lexer.readTimes twoNumbers.program 4 {} = .ok L ∧ L.tokens = twoNumbers.tokens) ∧
    ¬ EntryPointsAgree oneNode twoNumbers := by
  refine ⟨⟨_, rfl, rfl⟩, fun h => ?_⟩
  obtain ⟨v, hv⟩ := reads_number (I := twoNumbers) (i := 0) oneNode_isSome ⟨_, rfl, rfl⟩ ⟨_, rfl, rfl⟩ (by decide)
  obtain ⟨e, rfl⟩ := reads_expression_node hv
  have hlexed : twoNumbers.Lexed := ⟨by decide⟩
  obtain ⟨n, hlines, ⟨t, ht, htype⟩, hlength⟩ := h.fstringEnds e 1 ((parseFstring_iff hlexed).mpr hv)
  cases n with
  | zero =>
    cases ht
    cases htype
  | succ n =>
    obtain ⟨u, hu, hline⟩ := hlines 0 (Nat.zero_lt_succ n)
    cases hu
    cases hline

end Pylang.Parse
