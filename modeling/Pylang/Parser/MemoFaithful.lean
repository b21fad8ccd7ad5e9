/-
The table of the parser's own grammar. Each rule has a rank and the tokens it
can start with; the rules have their parts in order, no pattern of the table
starts with a token that has no text, and so a match through the table is the
match without one.
-/
import Pylang.Parser.Grammar
import Pylang.Parser.Memo
import Pylang.Lex.Nesting
import Pylang.Lex.Starts

namespace Pylang.Parse

open Pylang.Lex (TokenType Token Lexer textless)

/-! ## The analysis -/

/-- What the parts at the start of a rule are below. -/
def Rule.rank : Rule → Nat
  | .lambdaStarEtc => 0
  | .starAtom | .tLookahead | .fStringMiddle | .fStringFormatSpec | .kwargsOrStarred | .compareOpBitwiseOrPair
  | .lambdaParam | .annotatedRhs | .dottedAsName | .importFromAsName | .importStatement | .deleteAtom
  | .yieldStatement | .param | .starEtc | .functionName => 2
  | .forIfClauses | .lambdaParamNoDefault | .lambdaParamWithDefault | .paramNoDefault | .paramWithDefault
  | .paramMaybeDefault => 3
  | .strings | .kwargs | .dottedAsNames | .importFromAsNames => 4
  | .atom | .lambdaParameters | .importFromTargets | .slashWithDefault | .slashNoDefault => 5
  | .tPrimary | .primary | .lambdaParams | .parameters => 6
  | .targetWithStarAtom | .awaitPrimary | .singleSubscriptAttributeTarget | .deleteTarget | .params => 7
  | .starTarget | .power | .singleTarget => 8
  | .starTargets | .factor | .deleteTargets => 9
  | .starTargetsTupleSeq | .starTargetsListSeq | .term => 10
  | .sum | .assignment => 11
  | .shiftExpr => 12
  | .bitwiseAnd => 13
  | .bitwiseXor => 14
  | .bitwiseOr => 15
  | .comparisson => 16
  | .inversion => 17
  | .conjunction => 18
  | .disjunction => 19
  | .expression => 20
  | .kvPair | .namedExpression | .starExpression | .withItem => 21
  | .starNamedExpression | .doubleStarredKVPair | .slice | .starExpressions | .expressions => 22
  | .smallStatement | .decorators => 23
  | .fExpression | .starNamedExpressions | .doubleStarredKVPairs | .slices | .functionDefinitionStatement
  | .classDefinition => 24
  | .args | .simpleStatement | .compoundStatement => 25
  | .arguments | .block | .statement => 26
  | .statements => 28
  | .file => 30
  | _ => 1

def atomStarts : List TokenType := [.name, .number, .string, .fstringStart, .lparen, .lsqb, .lbrace, .ellipsis]

def expressionStarts : List TokenType := [.plus, .minus, .tilde] ++ atomStarts

/-- The tokens a rule can start with. -/
def Rule.starts : Rule → List TokenType
  | .fExpression | .kvPair | .namedExpression | .factor | .term | .sum | .shiftExpr | .bitwiseAnd | .bitwiseXor
  | .bitwiseOr | .comparisson | .inversion | .conjunction | .disjunction | .expression | .starExpression
  | .starExpressions | .withItem | .expressions => expressionStarts
  | .tPrimary | .targetWithStarAtom | .atom | .primary | .awaitPrimary | .power
  | .singleSubscriptAttributeTarget | .singleTarget | .deleteTarget | .deleteTargets => atomStarts
  | .starTargetsTupleSeq | .starTargetsListSeq | .starTarget | .starTargets | .assignment => [.star] ++ atomStarts
  | .fStringReplacementField | .dict | .set | .dictComp | .setComp => [.lbrace]
  | .starNamedExpression | .starNamedExpressions | .smallStatement | .simpleStatement => [.star] ++ expressionStarts
  | .tuple | .group | .genex => [.lparen]
  | .kwargs | .parameters | .params => [.doublestar, .name, .star]
  | .functionDefinitionStatement | .classDefinition | .compoundStatement => [.at, .name]
  | .starAtom | .deleteAtom => [.lparen, .lsqb, .name]
  | .fStringMiddle | .fStringFormatSpec => [.fstringMiddle, .lbrace]
  | .list | .listComp => [.lsqb]
  | .doubleStarredKVPair | .doubleStarredKVPairs => [.doublestar] ++ expressionStarts
  | .args | .arguments => [.doublestar, .star] ++ expressionStarts
  | .slice | .slices => [.colon] ++ expressionStarts
  | .statement | .statements => [.at, .star] ++ expressionStarts
  | .tLookahead => [.dot, .lparen, .lsqb]
  | .fString => [.fstringStart]
  | .string => [.string]
  | .strings => [.fstringStart, .string]
  | .kwargsOrStarred => [.name, .star]
  | .starredExpression => [.star]
  | .kwargsOrDoubleStarred => [.doublestar, .name]
  | .eqBitwiseOr => [.eqequal]
  | .notEqBitwiseOr => [.notequal]
  | .ltEqBitwiseOr => [.lessequal]
  | .ltBitwiseOr => [.less]
  | .gtEqBitwiseOr => [.greaterequal]
  | .gtBitwiseOr => [.greater]
  | .compareOpBitwiseOrPair => [.eqequal, .greater, .greaterequal, .less, .lessequal, .name, .notequal]
  | .lambdaStarEtc => []
  | .augAssign => [.amperequal, .atequal, .circumflexequal, .doubleslashequal, .doublestarequal, .leftshiftequal,
      .minequal, .percentequal, .plusequal, .rightshiftequal, .slashequal, .starequal, .vbarequal]
  | .importFromTargets => [.lparen, .name, .star]
  | .annotationPattern => [.colon]
  | .default => [.equal]
  | .keywords => [.doublestar]
  | .starEtc => [.doublestar, .star]
  | .block => [.newline, .star] ++ expressionStarts
  | .decorators => [.at]
  | .file => [.at, .endmarker, .star] ++ expressionStarts
  | _ => [.name]

namespace Pattern

def rank : Pattern → Nat
  | .rule r => r.rank
  | .token _ | .keyword _ | .notReserved => 0
  | .both p q => max p.rank q.rank
  | .oneOrMore ps | .zeroOrMore ps | .zeroOrOne ps | .or _ ps | .group ps => ps.rank + 1
  | .applyInBetween p q => max p.rank q.rank + 1
  | .lookAhead p | .negativeLookAhead p => p.rank + 1

/-- A match reads a token. A pack is one of sequence, or of choices. -/
def consumes : Pattern → Bool → Bool
  | .rule _, _ | .token _, _ | .keyword _, _ | .oneOrMore _, _ | .applyInBetween _ _, _ => true
  | .both p q, choice => if choice then p.consumes false && q.consumes true else p.consumes false || q.consumes false
  | .or _ ps, _ => ps.consumes true
  | .group ps, _ => ps.consumes false
  | _, _ => false

def starts : Pattern → Bool → List TokenType
  | .rule r, _ => r.starts
  | .token type, _ => [type]
  | .keyword _, _ => [.name]
  | .notReserved, _ => []
  | .both p q, choice => p.starts false ++ if !choice && p.consumes false then [] else q.starts choice
  | .or _ ps, _ => ps.starts true
  | .oneOrMore ps, _ | .zeroOrMore ps, _ | .zeroOrOne ps, _ | .group ps, _ => ps.starts false
  | .applyInBetween p _, _ | .lookAhead p, _ | .negativeLookAhead p, _ => p.starts false

/-- What is repeated reads a token; what is in the table reads one that has a text; what is looked ahead for is not in the
table. -/
def ok : Pattern → Bool → Bool
  | .rule _, _ | .token _, _ | .keyword _, _ | .notReserved, _ => true
  | .both p q, isPack => isPack && p.ok false && q.ok true
  | .oneOrMore ps, _ | .zeroOrMore ps, _ => ps.ok true && ps.consumes false
  | .zeroOrOne ps, _ | .group ps, _ => ps.ok true
  | .or node ps, _ => ps.ok true && (!node || ps.consumes true && (ps.starts true).all (!textless.contains ·))
  | .applyInBetween p q, _ => p.ok false && q.ok false && p.consumes false
  | .lookAhead p, _ | .negativeLookAhead p, _ => p.ok false && !p.memoized

/-- The parts at the start of a sequence are below a rank, and start with these tokens only. -/
def headsBelow (rank : Nat) (starts : List TokenType) : Pattern → Bool
  | .both p q =>
    decide (p.rank < rank) && (p.starts false).all (starts.contains ·) && (p.consumes false || q.headsBelow rank starts)
  | p => decide (p.rank < rank) && (p.starts false).all (starts.contains ·)

end Pattern

def rankBound : Nat := 40

def analysis : Analysis Pattern where
  member p := p.ok false = true ∧ p.rank < rankBound
  rank p := p.rank
  bound := rankBound
  consumes p := p.consumes false
  starts p := p.starts false

/-! ## Packs -/

namespace Pattern

theorem ok_parts {p : Pattern} (h : p.ok true = true) : ∀ q ∈ p.parts, q.ok false = true := by
  induction p with
  | both p q _ ih =>
    simp only [ok, Bool.true_and, Bool.and_eq_true] at h
    intro r hr
    rcases List.mem_cons.mp hr with rfl | hr
    · exact h.1
    · exact ih h.2 r hr
  | _ =>
    intro r hr
    obtain rfl := List.mem_singleton.mp hr
    exact h

theorem rank_parts {p : Pattern} : ∀ q ∈ p.parts, q.rank ≤ p.rank := by
  induction p with
  | both p q _ ih =>
    intro r hr
    rcases List.mem_cons.mp hr with rfl | hr
    · exact Nat.le_max_left _ _
    · exact Nat.le_trans (ih r hr) (Nat.le_max_right _ _)
  | _ =>
    intro r hr
    obtain rfl := List.mem_singleton.mp hr
    exact Nat.le_refl _

theorem starts_choice {p : Pattern} : ∀ q ∈ p.parts, q.starts false ⊆ p.starts true := by
  induction p with
  | both p q _ ih =>
    intro r hr
    rcases List.mem_cons.mp hr with rfl | hr
    · exact List.subset_append_left _ _
    · exact fun t ht => List.mem_append_right _ (ih r hr ht)
  | _ =>
    intro r hr
    obtain rfl := List.mem_singleton.mp hr
    exact List.Subset.refl _

theorem consumes_choice {p : Pattern} (h : p.consumes true = true) : ∀ q ∈ p.parts, q.consumes false = true := by
  induction p with
  | both p q _ ih =>
    simp only [consumes, if_true, Bool.and_eq_true] at h
    intro r hr
    rcases List.mem_cons.mp hr with rfl | hr
    · exact h.1
    · exact ih h.2 r hr
  | _ =>
    intro r hr
    obtain rfl := List.mem_singleton.mp hr
    exact h

theorem consumes_sequence {p : Pattern} (h : p.consumes false = true) : analysis.Consuming p.parts := by
  induction p with
  | both p q _ ih =>
    simp only [consumes, Bool.false_eq_true, if_false, Bool.or_eq_true] at h
    rcases h with h | h
    · exact ⟨p, List.mem_cons_self, h⟩
    · obtain ⟨r, hr, hc⟩ := ih h
      exact ⟨r, List.mem_cons_of_mem _ hr, hc⟩
  | _ => exact ⟨_, List.mem_singleton_self _, h⟩

/-- A sequence below a pattern in rank and starts has its parts below it. -/
theorem heads_parts {own p : Pattern} (hrank : p.rank < own.rank) (hstarts : p.starts false ⊆ own.starts false) :
    analysis.Heads own p.parts := by
  induction p with
  | both p q _ ih =>
    have hp : p.rank < own.rank := Nat.lt_of_le_of_lt (Nat.le_max_left _ _) hrank
    have hq : q.rank < own.rank := Nat.lt_of_le_of_lt (Nat.le_max_right _ _) hrank
    refine ⟨⟨hp, fun t ht => hstarts (List.mem_append_left _ ht)⟩, ?_⟩
    cases hc : p.consumes false with
    | true => exact .inl hc
    | false =>
      refine .inr (ih hq fun t ht => hstarts (List.mem_append_right _ ?_))
      simpa [hc] using ht
  | _ => exact ⟨⟨hrank, hstarts⟩, .inr trivial⟩

theorem heads_of_below {own p : Pattern} (h : p.headsBelow own.rank
    (own.starts false) = true) : analysis.Heads own p.parts := by
  have hsubset {q : Pattern} (h : (q.starts false).all (own.starts false).contains = true) :
      q.starts false ⊆ own.starts false := fun t ht => by simpa using List.all_eq_true.mp h t ht
  induction p with
  | both p q _ ih =>
    simp only [headsBelow, Bool.and_eq_true, Bool.or_eq_true, decide_eq_true_eq] at h
    exact ⟨⟨h.1.1, hsubset h.1.2⟩, h.2.imp_right ih⟩
  | _ =>
    simp only [headsBelow, Bool.and_eq_true, decide_eq_true_eq] at h
    exact ⟨⟨h.1, hsubset h.2⟩, .inr trivial⟩

theorem member_parts {p : Pattern} (hok : p.ok true = true) (hrank : p.rank < rankBound) :
    ∀ q ∈ p.parts, analysis.member q :=
  fun q hq => ⟨ok_parts hok q hq, Nat.lt_of_le_of_lt (rank_parts q hq) hrank⟩

end Pattern

/-! ## The rules -/

namespace Rule

/-- The rule is the first part of its first alternative. -/
def leftRecursive (r : Rule) : Bool :=
  match r.alternatives with
  | p :: _ => p.parts.head? = some (.rule r)
  | [] => false

/-- An alternative of a rule: it reads a token, and has its parts below the rule, or starts with the rule. -/
def alternativeOk (r : Rule) (p : Pattern) : Bool :=
  p.ok true && decide (p.rank < rankBound) && p.consumes false &&
    (p.headsBelow r.rank r.starts || r.leftRecursive && decide (p.parts.head? = some (.rule r)))

def ok (r : Rule) : Bool :=
  decide (r.rank < rankBound) && r.alternatives.all r.alternativeOk && (!r.leftRecursive || r.memoized) &&
    (!r.memoized || r.starts.all (!textless.contains ·))

theorem all_ok (r : Rule) : r.ok = true := by
  cases r <;> decide

theorem member (r : Rule) : analysis.member (.rule r) := by
  have h := r.all_ok
  simp only [ok, Bool.and_eq_true, decide_eq_true_eq] at h
  exact ⟨rfl, h.1.1.1⟩

theorem alternative_ok {r : Rule} {p : Pattern} (hp : p ∈ r.alternatives) : r.alternativeOk p = true := by
  have h := r.all_ok
  simp only [ok, Bool.and_eq_true, List.all_eq_true] at h
  exact h.1.1.2 p hp

end Rule

variable {V : Type} (acts : Actions V)

theorem mem_alternativesFrom {r : Rule} {ps : List Pattern} {n : Nat} {a : List Pattern × (List V → Nat → Nat → Option V)}
    (h : a ∈ acts.alternativesFrom r ps n) : ∃ p ∈ ps, a.1 = p.parts := by
  induction ps generalizing n with
  | nil => cases h
  | cons p ps ih =>
    rcases List.mem_cons.mp h with rfl | h
    · exact ⟨p, List.mem_cons_self, rfl⟩
    · obtain ⟨q, hq, heq⟩ := ih h
      exact ⟨q, List.mem_cons_of_mem _ hq, heq⟩

theorem leftRecursive_rule (r : Rule) : acts.grammar.leftRecursive (.rule r) = r.leftRecursive := by
  unfold Grammar.leftRecursive Rule.leftRecursive
  have hbody : acts.grammar.body (.rule r) = .alternatives (acts.alternativesFrom r r.alternatives 0) := rfl
  rw [hbody]
  cases r.alternatives with
  | nil => rfl
  | cons p ps =>
    cases p with
    | _ => simp [Actions.alternativesFrom, Pattern.parts]

/-- Only rules start with themselves. -/
theorem leftRecursive_memoized {p : Pattern} (h : acts.grammar.leftRecursive p = true) : p.memoized = true := by
  obtain ⟨tail, act, as, hbody⟩ := leftRecursive_body h
  cases p with
  | rule r =>
    rw [leftRecursive_rule] at h
    have hok := r.all_ok
    simp only [Rule.ok, h, Bool.not_true, Bool.false_or, Bool.and_eq_true] at hok
    exact hok.1.2
  | or node ps =>
    have hmem : ([Pattern.or node ps] ++ tail, act) ∈ ps.parts.map fun p => ([p],
      fun (vs : List V) (_ _ : Nat) => vs.head?) := by
      have heq : ps.parts.map (fun p => ([p], fun (vs : List V) (_ _ : Nat) => vs.head?)) = (Pattern.or node ps :: tail,
        act) :: as :=
        Body.alternatives.inj hbody
      rw [heq]
      exact List.mem_cons_self
    obtain ⟨q, hq, heq⟩ := List.mem_map.mp hmem
    obtain rfl : q = .or node ps := (List.cons.inj (Prod.mk.inj heq).1).1
    exact absurd (Pattern.rank_parts _ hq) (Nat.not_succ_le_self _)
  | group ps =>
    have heq := (List.cons.inj (Body.alternatives.inj hbody)).1
    have hq : Pattern.group ps ∈ ps.parts := by
      rw [(Prod.mk.inj heq).1]
      exact List.mem_cons_self
    exact absurd (Pattern.rank_parts _ hq) (Nat.not_succ_le_self _)
  | _ => cases hbody

theorem grammar_wellFormed : analysis.WellFormed acts.grammar where
  rank_lt _ hp := hp.2
  leftRecursive _ _ h := leftRecursive_memoized acts h
  memoized p hp h := by
    cases p with
    | rule r => rfl
    | or node ps =>
      obtain rfl : node = true := h
      have hok : (ps.ok true && (!true || ps.consumes true && (ps.starts true).all (!textless.contains ·))) = true :=
        hp.1
      simp only [Bool.not_true, Bool.false_or, Bool.and_eq_true] at hok
      exact hok.2.1
    | _ => cases h
  body p hp := by
    obtain ⟨hok, hrank⟩ := hp
    cases p with
    | rule r =>
      have halt {a : List Pattern × (List V → Nat → Nat → Option V)} (ha : a ∈ acts.alternativesFrom r r.alternatives 0) :
          ∃ p, a.1 = p.parts ∧ r.alternativeOk p = true := by
        obtain ⟨p, hp, heq⟩ := mem_alternativesFrom acts ha
        exact ⟨p, heq, Rule.alternative_ok hp⟩
      refine ⟨fun a ha q hq => ?_, fun a ha => ?_, fun _ a ha => ?_⟩
      all_goals
        obtain ⟨p, heq, h⟩ := halt ha
        simp only [Rule.alternativeOk, Bool.and_eq_true, Bool.or_eq_true, decide_eq_true_eq] at h
      · exact Pattern.member_parts h.1.1.1 h.1.1.2 q (heq ▸ hq)
      · rw [heq]
        rcases h.2 with hbelow | ⟨hleft, hhead⟩
        · exact .inr (Pattern.heads_of_below hbelow)
        · refine .inl ⟨(leftRecursive_rule acts r).trans hleft, ?_⟩
          exact List.head?_eq_some_iff.mp hhead
      · rw [heq]
        exact Pattern.consumes_sequence h.1.2
    | token type => exact List.Subset.refl _
    | keyword word => exact List.Subset.refl _
    | notReserved => rfl
    | both p q => cases hok
    | oneOrMore ps =>
      obtain ⟨hps, hcons⟩ := Bool.and_eq_true_iff.mp hok
      exact ⟨Pattern.member_parts hps (Nat.lt_of_succ_lt hrank),
        Pattern.heads_parts (Nat.lt_succ_self _) (List.Subset.refl _), Pattern.consumes_sequence hcons⟩
    | zeroOrMore ps =>
      obtain ⟨hps, hcons⟩ := Bool.and_eq_true_iff.mp hok
      exact ⟨Pattern.member_parts hps (Nat.lt_of_succ_lt hrank),
        Pattern.heads_parts (Nat.lt_succ_self _) (List.Subset.refl _), Pattern.consumes_sequence hcons, rfl⟩
    | zeroOrOne ps =>
      exact ⟨Pattern.member_parts hok (Nat.lt_of_succ_lt hrank),
        Pattern.heads_parts (Nat.lt_succ_self _) (List.Subset.refl _), rfl⟩
    | applyInBetween p q =>
      obtain ⟨hpq, hcons⟩ := Bool.and_eq_true_iff.mp hok
      obtain ⟨hp, hq⟩ := Bool.and_eq_true_iff.mp hpq
      have hmax : max p.rank q.rank < rankBound := Nat.lt_of_succ_lt hrank
      exact ⟨⟨hp, Nat.lt_of_le_of_lt (Nat.le_max_left _ _) hmax⟩, ⟨hq, Nat.lt_of_le_of_lt (Nat.le_max_right _ _) hmax⟩,
        ⟨Nat.lt_succ_of_le (Nat.le_max_left _ _), List.Subset.refl _⟩, hcons⟩
    | or node ps =>
      obtain ⟨hps, -⟩ := Bool.and_eq_true_iff.mp hok
      have hmem {a : List Pattern × (List V → Nat → Nat → Option V)}
          (ha : a ∈ ps.parts.map fun p => ([p], fun (vs : List V) (_ _ : Nat) => vs.head?)) : ∃ q ∈ ps.parts,
            a.1 = [q] := by
        obtain ⟨q, hq, rfl⟩ := List.mem_map.mp ha
        exact ⟨q, hq, rfl⟩
      refine ⟨fun a ha q hq => ?_, fun a ha => ?_, fun hcons a ha => ?_⟩
      all_goals obtain ⟨c, hc, heq⟩ := hmem ha
      · rw [heq] at hq
        obtain rfl := List.mem_singleton.mp hq
        exact Pattern.member_parts hps (Nat.lt_of_succ_lt hrank) q hc
      · rw [heq]
        exact .inr ⟨⟨Nat.lt_succ_of_le (Pattern.rank_parts c hc), Pattern.starts_choice c hc⟩, .inr trivial⟩
      · rw [heq]
        exact ⟨c, List.mem_singleton_self _, Pattern.consumes_choice hcons c hc⟩
    | group ps =>
      refine ⟨fun a ha q hq => ?_, fun a ha => ?_, fun hcons a ha => ?_⟩
      all_goals obtain rfl := List.mem_singleton.mp ha
      · exact Pattern.member_parts hok (Nat.lt_of_succ_lt hrank) q hq
      · exact .inr (Pattern.heads_parts (Nat.lt_succ_self _) (List.Subset.refl _))
      · exact Pattern.consumes_sequence hcons
    | lookAhead p =>
      obtain ⟨hp, hmemo⟩ := Bool.and_eq_true_iff.mp hok
      have hnot : p.memoized = false := by simpa using hmemo
      exact ⟨⟨hp, Nat.lt_of_succ_lt hrank⟩, ⟨Nat.lt_succ_self _, List.Subset.refl _⟩, hnot, rfl⟩
    | negativeLookAhead p =>
      obtain ⟨hp, hmemo⟩ := Bool.and_eq_true_iff.mp hok
      have hnot : p.memoized = false := by simpa using hmemo
      exact ⟨⟨hp, Nat.lt_of_succ_lt hrank⟩, ⟨Nat.lt_succ_self _, List.Subset.refl _⟩, hnot, rfl⟩

/-! ## The table -/

/-- What the lexer gives: of two tokens with one start, the first has no text or is a block that ends. -/
structure Input.Lexed (I : Input) : Prop where
  separate : I.tokens.Pairwise fun t u => u.start.pointer = t.start.pointer → t.tokenType ∈ textless

/-- Every text gives such tokens, with or without its comments and empty lines. -/
theorem Input.lexed_of_reaches {program : List Char} {L : Lexer} (h : L.Reaches program) (ignoreComments ignoreNl : Bool) :
    (Input.mk program (L.emitted ignoreComments ignoreNl)).Lexed := by
  obtain ⟨o, hranged⟩ := h.ranged
  exact ⟨hranged.separate.filter _⟩

/-- No pattern of the table starts with a token that may have no text. -/
theorem not_mem_starts {p : Pattern} (hp : analysis.member p) (hmemo : p.memoized = true) {type : TokenType}
    (htype : type ∈ textless) : type ∉ p.starts false := by
  have hall (types : List TokenType) (h : types.all (!textless.contains ·) = true) : type ∉ types := by
    intro hmem
    have := List.all_eq_true.mp h type hmem
    simp [htype] at this
  cases p with
  | rule r =>
    have hok := r.all_ok
    have hmemo : r.memoized = true := hmemo
    simp only [Rule.ok, hmemo, Bool.not_true, Bool.false_or, Bool.and_eq_true] at hok
    exact hall _ hok.2
  | or node ps =>
    obtain rfl : node = true := hmemo
    have hok : (ps.ok true && (!true || ps.consumes true && (ps.starts true).all (!textless.contains ·))) = true := hp.1
    simp only [Bool.not_true, Bool.false_or, Bool.and_eq_true] at hok
    exact hall _ hok.2.2
  | _ => cases hmemo

theorem Input.Lexed.apart {I : Input} (h : I.Lexed) : Apart acts.grammar I analysis := by
  intro i j t u hij ht hu hpointer _ q hq hmemo
  obtain ⟨hi, rfl⟩ := List.getElem?_eq_some_iff.mp ht
  obtain ⟨hj, rfl⟩ := List.getElem?_eq_some_iff.mp hu
  exact not_mem_starts hq hmemo (List.pairwise_iff_getElem.mp h.separate i j hi hj hij hpointer)

/-- **The memo table is faithful**: after any matches of a parse, every pattern of the grammar gives through the table what
it gives without one, and ends where it ends without one. -/
theorem memo_faithful (I : Input) (hI : I.Lexed) {s : Parser Pattern V} (hs : Parsing acts.grammar I Pattern.IsRule s)
    {p : Pattern} (hp : acts.grammar.Occurs Pattern.IsRule p) :
    ∃ o s', matchHead acts.grammar I p s = some (o.map Prod.fst, s') ∧ parseAt acts.grammar I p s.position = some o ∧
      s'.position = o.elim s.position Prod.snd :=
  hs.match_eq (grammar_wellFormed acts) (hI.apart acts) (fun _ ⟨r, h⟩ => h ▸ Rule.member r) hp

/-- Rules that keep nothing of what they match. -/
def plainActions : Actions Unit where
  token _ := ()
  monostate := ()
  tuple _ := ()
  vector _ := ()
  optional _ := ()
  node _ _ _ _ _ := some ()

/-- The last line ends two blocks, whose tokens share its blank. -/
def nested : List Char := "if a:\n if b:\n  if c:\n   d\n e\n".toList

def nestedTokens : Input := ⟨nested, (Lexer.stateAfter nested 24).emitted true true⟩

theorem nestedTokens_lexed : nestedTokens.Lexed := by
  have hread : Lexer.readTimes nested 24 {} = .ok (Lexer.stateAfter nested 24) := by decide +kernel
  exact Input.lexed_of_reaches (Lexer.Reaches.create.times hread) true true

/-- An expression at the start. -/
theorem memo_faithful_name : (nestedTokens.tokens.filter fun t => t.tokenType = .dedent).map (·.start.pointer) = [26, 26, 29] ∧
    ∃ o s', matchHead plainActions.grammar nestedTokens (.rule .expression) {} = some (o.map Prod.fst, s') ∧
      parseAt plainActions.grammar nestedTokens (.rule .expression) 0 = some o ∧ s'.position = o.elim 0 Prod.snd :=
  ⟨by decide +kernel, memo_faithful plainActions nestedTokens nestedTokens_lexed .start (.rule ⟨.expression, rfl⟩)⟩

end Pylang.Parse
