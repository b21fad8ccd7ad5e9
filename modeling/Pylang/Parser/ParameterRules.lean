/-
What the rules of parameters read: a parameter, an entry of the list, a run of
entries.
-/
import Pylang.Parser.Parameters

namespace Pylang.Parse

open Pylang.Lex (TokenType Token)

section
variable {N : Type} {I : Input} {other : Rule → Nat → List (Value N) → Nat → Nat → Option N} {i j k l : Nat}
  {v : Value N} {vs : List (Value N)} {type : TokenType} {name : List Char} {a b : Argument N} {m n : N}

/-! ## Tokens -/

theorem reads_type : Reads (parameterGrammar I other) I (.token type) i v j ↔
    ∃ t, I.peekToken i = some t ∧ t.tokenType = type ∧ v = .token t ∧ j = i + 1 :=
  reads_token rfl

theorem tokenAt_of_reads (h : Reads (parameterGrammar I other) I (.token type) i v j) : TokenAt I type i ∧ j = i + 1 := by
  obtain ⟨t, ht, htype, -, hj⟩ := reads_type.mp h
  exact ⟨⟨t, ht, htype⟩, hj⟩

theorem reads_ahead (hmember : analysis.member (.lookAhead (.token type))) :
    Reads (parameterGrammar I other) I (.lookAhead (.token type)) i v j ↔ TokenAt I type i ∧ v = .monostate ∧ j = i := by
  rw [reads_lookAhead (grammar_wellFormed _) hmember rfl]
  refine and_congr_left fun _ => ?_
  constructor
  · intro h
    obtain ⟨w, k, h⟩ := h
    exact (tokenAt_of_reads h).1
  · intro h
    obtain ⟨t, ht⟩ := reads_tokenAt (parameterActions I other) h
    exact ⟨_, _, ht⟩

theorem ahead_member : analysis.member (.lookAhead (.token .rparen)) := ⟨by decide, by decide⟩

/-! ## A parameter -/

theorem readsOne_one {parts : List Pattern} {act : List (Value N) → Nat → Nat → Option (Value N)} :
    ReadsOne (parameterGrammar I other) I [(parts, act)] i v j ↔
      ∃ vs, ReadsAll (parameterGrammar I other) I parts i vs j ∧ act vs i j = some v := by
  simp [ReadsOne]

theorem reads_rule {r : Rule} {parts : List Pattern} (hbody : (parameterGrammar I other).body (.rule r) =
      .alternatives [(parts, (parameterActions I other).node r 0)]) (hself : .rule r ∉ parts ∧ parts ≠ []) :
    Reads (parameterGrammar I other) I (.rule r) i v j ↔ ∃ vs, ReadsAll (parameterGrammar I other) I parts i vs j ∧
      (parameterActions I other).node r 0 vs i j = some v := by
  rw [reads_alternatives (grammar_wellFormed _) r.member hbody, readsOne_one]
  intro a ha
  obtain rfl := List.mem_singleton.mp ha
  exact hself

theorem reads_name : Reads (parameterGrammar I other) I (.rule .name) i v j ↔
    ∃ t, I.peekToken i = some t ∧ NameAt I (I.text t) i ∧ v = .token t ∧ j = i + 1 := by
  rw [reads_rule rfl ⟨by decide, by decide⟩]
  constructor
  · intro h
    obtain ⟨vs, ⟨w, e, ws, hnot, ⟨w', e', ws', htoken, ⟨rfl, rfl⟩, rfl⟩, rfl⟩, hact⟩ := h
    obtain ⟨t, ht, hreserved, rfl, rfl⟩ := (reads_notAt rfl).mp hnot
    obtain ⟨u, hu, htype, rfl, rfl⟩ := reads_type.mp htoken
    obtain rfl := Option.some.inj (ht.symm.trans hu)
    cases hact
    exact ⟨t, ht, ⟨t, ht, htype, rfl, by simpa using hreserved⟩, rfl, rfl⟩
  · intro h
    obtain ⟨t, ht, ⟨u, hu, htype, -, hreserved⟩, rfl, rfl⟩ := h
    obtain rfl := Option.some.inj (ht.symm.trans hu)
    exact ⟨_, ⟨_, _, _, (reads_notAt rfl).mpr ⟨t, ht, by simpa using hreserved, rfl, rfl⟩, ⟨_, _, _,
      reads_type.mpr ⟨t, ht, htype, rfl, rfl⟩, ⟨rfl, rfl⟩, rfl⟩, rfl⟩, rfl⟩

theorem reads_expression (h : Reads (parameterGrammar I other) I (.rule .expression) i v j) :
    ∃ n, v = .node n ∧ ExpressionAt I other i n j := by
  have hleft : (parameterGrammar I other).leftRecursive (.rule .expression) = false := leftRecursive_rule _ .expression
  obtain ⟨-, k, hbody, -⟩ := (reads_body hleft).mp h
  have hone : parseBody (parameterGrammar I other) I ⟨.rule .expression, i, none⟩ (.alternatives
      ((parameterActions I other).alternativesFrom .expression (Rule.alternatives .expression) 0)) i = some (some (v, k)) := hbody
  rw [parseBody] at hone
  obtain ⟨a, ha, vs, hv⟩ := parseOneOf_result hone
  obtain ⟨m, hm⟩ := act_of_mem ha
  rw [hm] at hv
  obtain ⟨n, -, rfl⟩ := Option.map_eq_some_iff.mp hv
  exact ⟨n, rfl, h⟩

/-- A token and an expression, whose node is the result. -/
theorem reads_tokenExpression {r : Rule} (hbody : (parameterGrammar I other).body (.rule r) =
      .alternatives [([.token type, .rule .expression], (parameterActions I other).node r 0)])
    (hself : r ≠ .expression) (hact : ∀ v w i j, (parameterActions I other).node r 0 [v, w] i j = some w) :
    Reads (parameterGrammar I other) I (.rule r) i v j ↔
      ∃ n, TokenAt I type i ∧ ExpressionAt I other (i + 1) n j ∧ v = .node n := by
  rw [reads_rule hbody (by simp [hself])]
  constructor
  · intro h
    obtain ⟨vs, ⟨w, e, ws, htoken, ⟨w', e', ws', hexpr, ⟨rfl, rfl⟩, rfl⟩, rfl⟩, hv⟩ := h
    obtain ⟨htype, rfl⟩ := tokenAt_of_reads htoken
    obtain ⟨n, rfl, hn⟩ := reads_expression hexpr
    exact ⟨n, htype, hn, Option.some.inj (hv.symm.trans (hact _ _ _ _))⟩
  · intro h
    obtain ⟨n, htype, hn, rfl⟩ := h
    obtain ⟨t, ht⟩ := reads_tokenAt (parameterActions I other) htype
    exact ⟨_, ⟨_, _, _, ht, ⟨_, _, _, hn, ⟨rfl, rfl⟩, rfl⟩, rfl⟩, hact _ _ _ _⟩

theorem reads_annotation : Reads (parameterGrammar I other) I (.rule .annotationPattern) i v j ↔
    ∃ n, TokenAt I .colon i ∧ ExpressionAt I other (i + 1) n j ∧ v = .node n :=
  reads_tokenExpression rfl (by decide) fun _ _ _ _ => rfl

theorem reads_default : Reads (parameterGrammar I other) I (.rule .default) i v j ↔
    ∃ n, TokenAt I .equal i ∧ ExpressionAt I other (i + 1) n j ∧ v = .node n :=
  reads_tokenExpression rfl (by decide) fun _ _ _ _ => rfl

theorem ExpressionAt.unique (h : ExpressionAt I other i m j) (h' : ExpressionAt I other i n k) : m = n ∧ j = k := by
  obtain ⟨hv, hj⟩ := Reads.unique h h'
  exact ⟨Value.node.inj hv, hj⟩

theorem readsAll_one {p : Pattern} : ReadsAll (parameterGrammar I other) I [p] i vs j ↔
    ∃ v, vs = [v] ∧ Reads (parameterGrammar I other) I p i v j := by
  constructor
  · intro h
    obtain ⟨w, e, ws, hw, ⟨rfl, rfl⟩, rfl⟩ := h
    exact ⟨w, rfl, hw⟩
  · intro h
    obtain ⟨v, rfl, hv⟩ := h
    exact ⟨v, j, [], hv, ⟨rfl, rfl⟩, rfl⟩

theorem fails_one {p : Pattern} (h : ∀ v j, ¬ Reads (parameterGrammar I other) I p i v j) :
    Fails (parameterGrammar I other) I [p] i := by
  intro vs j hvs
  obtain ⟨v, -, hv⟩ := readsAll_one.mp hvs
  exact h v j hv

/-- What is read is a parameter. -/
theorem paramAt_of_reads (h : Reads (parameterGrammar I other) I (.rule .param) i v j) :
    ∃ a, v = .argument a ∧ ParamAt I other i a j := by
  obtain ⟨vs, ⟨w, e, ws, hname, ⟨w', e', ws', hann, ⟨rfl, rfl⟩, rfl⟩, rfl⟩, hv⟩ :=
    (reads_rule rfl ⟨by decide, by decide⟩).mp h
  obtain ⟨t, ht, hat, rfl, rfl⟩ := reads_name.mp hname
  obtain ⟨-, hann⟩ := (reads_zeroOrOne (grammar_wellFormed _) ⟨by decide, by decide⟩ rfl (by decide)).mp hann
  rcases hann with ⟨vs, hvs, rfl⟩ | ⟨-, rfl, rfl⟩
  · obtain ⟨w, rfl, hw⟩ := readsAll_one.mp hvs
    obtain ⟨n, hcolon, hn, rfl⟩ := reads_annotation.mp hw
    cases hv
    exact ⟨_, rfl, .annotated hat hcolon hn⟩
  · cases hv
    exact ⟨_, rfl, .plain hat⟩

/-- A parameter is read where no colon follows it. -/
theorem reads_of_paramAt (h : ParamAt I other i a j) (htype : TokenAt I type j) (hne : type ≠ .colon) :
    Reads (parameterGrammar I other) I (.rule .param) i (.argument a) j := by
  have hann (v : Value N) {e : Nat} := reads_zeroOrOne (I := I) (i := i + 1) (v := v) (j := e)
    (grammar_wellFormed (parameterActions I other)) (p := .zeroOrOne (.rule .annotationPattern)) ⟨by decide, by decide⟩ rfl
    (by decide)
  refine (reads_rule rfl ⟨by decide, by decide⟩).mpr ?_
  cases h with
  | plain hat =>
    obtain ⟨t, ht, -, rfl, -⟩ := id hat
    have hfails : Fails (parameterGrammar I other) I [.rule .annotationPattern] (i + 1) := by
      refine fails_one fun w k hw => ?_
      obtain ⟨n, hcolon, -⟩ := reads_annotation.mp hw
      exact hne (htype.unique hcolon)
    obtain ⟨u, hu, -⟩ := htype
    exact ⟨_, ⟨_, _, _, reads_name.mpr ⟨t, ht, hat, rfl, rfl⟩, ⟨_, _, _, (hann _).mpr ⟨⟨u, hu⟩, .inr ⟨hfails, rfl, rfl⟩⟩,
      ⟨rfl, rfl⟩, rfl⟩, rfl⟩, rfl⟩
  | annotated hat hcolon hn =>
    obtain ⟨t, ht, -, rfl, -⟩ := id hat
    obtain ⟨u, hu, -⟩ := id hcolon
    have hread := readsAll_one.mpr ⟨_, rfl, reads_annotation.mpr ⟨_, hcolon, hn, rfl⟩⟩
    exact ⟨_, ⟨_, _, _, reads_name.mpr ⟨t, ht, hat, rfl, rfl⟩, ⟨_, _, _, (hann _).mpr ⟨⟨u, hu⟩, .inl ⟨_, hread, rfl⟩⟩,
      ⟨rfl, rfl⟩, rfl⟩, rfl⟩, rfl⟩

/-! ## Entries -/

theorem SeparatorAt.token (h : SeparatorAt I j k) : ∃ type, TokenAt I type j ∧ (type = .comma ∨ type = .rparen) := by
  cases h with
  | comma h => exact ⟨_, h, .inl rfl⟩
  | last h => exact ⟨_, h, .inr rfl⟩

theorem SeparatorAt.unique (h : SeparatorAt I i j) (h' : SeparatorAt I i k) : j = k := by
  cases h with
  | comma h =>
    cases h' with
    | comma _ => rfl
    | last h' => cases h.unique h'
  | last h =>
    cases h' with
    | comma h' => cases h.unique h'
    | last _ => rfl

/-- A rule whose two alternatives end with a comma, or before the parenthesis. -/
theorem reads_separated {r : Rule} (front : List Pattern) (hbody : (parameterGrammar I other).body (.rule r) =
      .alternatives [(front ++ [.token .comma], (parameterActions I other).node r 0),
        (front ++ [.lookAhead (.token .rparen)], (parameterActions I other).node r 1)])
    (hself : .rule r ∉ front)
    (hact : ∀ us e, ReadsAll (parameterGrammar I other) I front i us e → ∀ n w j,
      (parameterActions I other).node r n (us ++ [w]) i j = (parameterActions I other).node r 0 (us ++ [.monostate]) 0 0) :
    Reads (parameterGrammar I other) I (.rule r) i v k ↔ ∃ us j, ReadsAll (parameterGrammar I other) I front i us j ∧
      SeparatorAt I j k ∧ (parameterActions I other).node r 0 (us ++ [.monostate]) 0 0 = some v := by
  rw [reads_alternatives (grammar_wellFormed _) r.member hbody (by simp [hself])]
  constructor
  · intro h
    rcases h with ⟨vs, hvs, hv⟩ | ⟨-, ⟨vs, hvs, hv⟩ | ⟨-, h⟩⟩
    · obtain ⟨us, j, ws, hus, hws, rfl⟩ := readsAll_append.mp hvs
      obtain ⟨w, rfl, hw⟩ := readsAll_one.mp hws
      obtain ⟨hcomma, rfl⟩ := tokenAt_of_reads hw
      exact ⟨us, j, hus, .comma hcomma, (hact us j hus _ _ _).symm.trans hv⟩
    · obtain ⟨us, j, ws, hus, hws, rfl⟩ := readsAll_append.mp hvs
      obtain ⟨w, rfl, hw⟩ := readsAll_one.mp hws
      obtain ⟨hlast, -, rfl⟩ := (reads_ahead ahead_member).mp hw
      exact ⟨us, k, hus, .last hlast, (hact us k hus _ _ _).symm.trans hv⟩
    · cases h
  · intro h
    obtain ⟨us, j, hus, hsep, hv⟩ := h
    cases hsep with
    | comma hcomma =>
      obtain ⟨t, ht⟩ := reads_tokenAt (parameterActions I other) hcomma
      exact .inl ⟨_, readsAll_append.mpr ⟨us, j, _, hus, readsAll_one.mpr ⟨_, rfl, ht⟩, rfl⟩, (hact us j hus _ _ _).trans hv⟩
    | last hlast =>
      refine .inr ⟨fun vs e hvs => ?_, .inl ⟨_, readsAll_append.mpr ⟨us, k, _, hus, readsAll_one.mpr ⟨_, rfl,
        (reads_ahead ahead_member).mpr ⟨hlast, rfl, rfl⟩⟩, rfl⟩, (hact us k hus _ _ _).trans hv⟩⟩
      obtain ⟨us', j', ws, hus', hws, -⟩ := readsAll_append.mp hvs
      obtain ⟨rfl, rfl⟩ := hus.unique hus'
      obtain ⟨w, -, hw⟩ := readsAll_one.mp hws
      cases hlast.unique (tokenAt_of_reads hw).1

theorem reads_noDefault : Reads (parameterGrammar I other) I (.rule .paramNoDefault) i v k ↔
    ∃ a, v = .argument a ∧ EntryAt I other i (.param a none) k := by
  rw [reads_separated [.rule .param] rfl (by decide) fun us e hus n w j => by
    obtain ⟨v, rfl, -⟩ := readsAll_one.mp hus
    rfl]
  constructor
  · intro h
    obtain ⟨us, j, hus, hsep, hv⟩ := h
    obtain ⟨w, rfl, hw⟩ := readsAll_one.mp hus
    obtain ⟨a, rfl, ha⟩ := paramAt_of_reads hw
    cases hv
    exact ⟨a, rfl, .param ha hsep⟩
  · intro h
    obtain ⟨a, rfl, h⟩ := h
    cases h with
    | param ha hsep =>
      obtain ⟨type, htype, hor⟩ := hsep.token
      exact ⟨_, _, readsAll_one.mpr ⟨_, rfl, reads_of_paramAt ha htype (by rcases hor with rfl | rfl <;> decide)⟩, hsep, rfl⟩

theorem reads_withDefault : Reads (parameterGrammar I other) I (.rule .paramWithDefault) i v k ↔
    ∃ a n, v = .param a (some n) ∧ EntryAt I other i (.param a (some n)) k := by
  rw [reads_separated [.rule .param, .rule .default] rfl (by decide) fun us e hus n w j => by
    obtain ⟨v, l, ws, hv, hws, rfl⟩ := hus
    obtain ⟨a, rfl, -⟩ := paramAt_of_reads hv
    obtain ⟨w', rfl, -⟩ := readsAll_one.mp hws
    rfl]
  constructor
  · intro h
    obtain ⟨us, j, ⟨w, l, ws, hw, hws, rfl⟩, hsep, hv⟩ := h
    obtain ⟨a, rfl, ha⟩ := paramAt_of_reads hw
    obtain ⟨w', rfl, hw'⟩ := readsAll_one.mp hws
    obtain ⟨n, hequal, hn, rfl⟩ := reads_default.mp hw'
    cases hv
    exact ⟨a, n, rfl, .withDefault ha hequal hn hsep⟩
  · intro h
    obtain ⟨a, n, rfl, h⟩ := h
    cases h with
    | withDefault ha hequal hn hsep =>
      exact ⟨_, _, ⟨_, _, _, reads_of_paramAt ha hequal (by decide), readsAll_one.mpr ⟨_, rfl,
        reads_default.mpr ⟨n, hequal, hn, rfl⟩⟩, rfl⟩, hsep, rfl⟩

theorem reads_maybeDefault : Reads (parameterGrammar I other) I (.rule .paramMaybeDefault) i v k ↔
    ∃ a d, v = .param a d ∧ EntryAt I other i (.param a d) k := by
  have hdefault {w : Value N} {j e : Nat} := reads_zeroOrOne (I := I) (i := j) (v := w) (j := e)
    (grammar_wellFormed (parameterActions I other)) (p := .zeroOrOne (.rule .default)) ⟨by decide, by decide⟩ rfl
    (by decide)
  rw [reads_separated [.rule .param, .zeroOrOne (.rule .default)] rfl (by decide) fun us e hus n w j => by
    obtain ⟨v, l, ws, hv, hws, rfl⟩ := hus
    obtain ⟨a, rfl, -⟩ := paramAt_of_reads hv
    obtain ⟨w', rfl, -⟩ := readsAll_one.mp hws
    rfl]
  constructor
  · intro h
    obtain ⟨us, j, ⟨w, l, ws, hw, hws, rfl⟩, hsep, hv⟩ := h
    obtain ⟨a, rfl, ha⟩ := paramAt_of_reads hw
    obtain ⟨w', rfl, hw'⟩ := readsAll_one.mp hws
    obtain ⟨-, ⟨xs, hxs, rfl⟩ | ⟨-, rfl, rfl⟩⟩ := hdefault.mp hw'
    · obtain ⟨x, rfl, hx⟩ := readsAll_one.mp hxs
      obtain ⟨n, hequal, hn, rfl⟩ := reads_default.mp hx
      cases hv
      exact ⟨a, some n, rfl, .withDefault ha hequal hn hsep⟩
    · cases hv
      exact ⟨a, none, rfl, .param ha hsep⟩
  · intro h
    obtain ⟨a, d, rfl, h⟩ := h
    cases h with
    | @param _ _ j _ ha hsep =>
      obtain ⟨type, htype, hor⟩ := hsep.token
      have hfails : Fails (parameterGrammar I other) I [.rule .default] j := by
        refine fails_one fun w k hw => ?_
        obtain ⟨n, hequal, -⟩ := reads_default.mp hw
        cases htype.unique hequal
        exact absurd hor (by decide)
      obtain ⟨t, ht, -⟩ := id htype
      exact ⟨_, _, ⟨_, _, _, reads_of_paramAt ha htype (by rcases hor with rfl | rfl <;> decide), readsAll_one.mpr ⟨_, rfl,
        hdefault.mpr ⟨⟨t, ht⟩, .inr ⟨hfails, rfl, rfl⟩⟩⟩, rfl⟩, hsep, rfl⟩
    | withDefault ha hequal hn hsep =>
      obtain ⟨t, ht, -⟩ := id hequal
      exact ⟨_, _, ⟨_, _, _, reads_of_paramAt ha hequal (by decide), readsAll_one.mpr ⟨_, rfl,
        hdefault.mpr ⟨⟨t, ht⟩, .inl ⟨_, readsAll_one.mpr ⟨_, rfl, reads_default.mpr ⟨_, hequal, hn, rfl⟩⟩, rfl⟩⟩⟩, rfl⟩,
        hsep, rfl⟩

theorem reads_keywords : Reads (parameterGrammar I other) I (.rule .keywords) i v k ↔
    ∃ a, v = .argument a ∧ EntryAt I other i (.kwarg a) k := by
  rw [reads_rule rfl ⟨by decide, by decide⟩]
  constructor
  · intro h
    obtain ⟨vs, ⟨w, e, ws, htoken, hws, rfl⟩, hv⟩ := h
    obtain ⟨hstar, rfl⟩ := tokenAt_of_reads htoken
    obtain ⟨w', rfl, hw'⟩ := readsAll_one.mp hws
    obtain ⟨a, rfl, h⟩ := reads_noDefault.mp hw'
    cases hv
    cases h with
    | param ha hsep => exact ⟨a, rfl, .kwarg hstar ha hsep⟩
  · intro h
    obtain ⟨a, rfl, h⟩ := h
    cases h with
    | kwarg hstar ha hsep =>
      obtain ⟨t, ht⟩ := reads_tokenAt (parameterActions I other) hstar
      exact ⟨_, ⟨_, _, _, ht, readsAll_one.mpr ⟨_, rfl, reads_noDefault.mpr ⟨a, rfl, .param ha hsep⟩⟩, rfl⟩, rfl⟩

/-! ## One reading -/

/-- The token that an entry starts with. -/
def Entry.first : Entry N → TokenType
  | .param _ _ => .name
  | .slash => .slash
  | .star | .vararg _ => .star
  | .kwarg _ => .doublestar

theorem ParamAt.first (h : ParamAt I other i a j) : TokenAt I .name i := by
  cases h with
  | plain h | annotated h _ _ =>
    obtain ⟨t, ht, htype, -⟩ := h
    exact ⟨t, ht, htype⟩

theorem EntryAt.first {e : Entry N} (h : EntryAt I other i e j) : TokenAt I e.first i := by
  cases h with
  | param ha _ | withDefault ha _ _ _ => exact ha.first
  | slash h _ | star h _ | vararg h _ _ | kwarg h _ _ => exact h

theorem EntryAt.starred {e : Entry N} (h : EntryAt I other i e k) (hstar : e = .vararg a ∨ e = .kwarg a) :
    EntryAt I other (i + 1) (.param a none) k := by
  rcases hstar with rfl | rfl
  · cases h with
    | vararg _ ha hsep => exact .param ha hsep
  · cases h with
    | kwarg _ ha hsep => exact .param ha hsep

theorem EntryAt.unique_param {d d' : Option N} (h : EntryAt I other i (.param a d) j)
    (h' : EntryAt I other i (.param b d') k) : a = b ∧ d = d' ∧ j = k := by
  obtain ⟨hv, hj⟩ := (reads_maybeDefault.mpr ⟨a, d, rfl, h⟩).unique (reads_maybeDefault.mpr ⟨b, d', rfl, h'⟩)
  obtain ⟨ha, hd⟩ := Value.param.inj hv
  exact ⟨ha, hd, hj⟩

/-- At a position there is one entry. -/
theorem EntryAt.unique {e e' : Entry N} (h : EntryAt I other i e j) (h' : EntryAt I other i e' k) : e = e' ∧ j = k := by
  have hfirst := h.first.unique h'.first
  have hbare : ∀ {a : Argument N} {j : Nat}, TokenAt I .comma (i + 1) → ¬ EntryAt I other i (.vararg a) j := by
    intro a j hcomma hvararg
    cases (hvararg.starred (.inl rfl)).first.unique hcomma
  cases e with
  | param a d =>
    cases e' with
    | param b d' =>
      obtain ⟨rfl, rfl, rfl⟩ := h.unique_param h'
      exact ⟨rfl, rfl⟩
    | _ => cases hfirst
  | slash =>
    cases e' with
    | slash =>
      cases h with
      | slash _ hsep =>
        cases h' with
        | slash _ hsep' => exact ⟨rfl, hsep.unique hsep'⟩
    | _ => cases hfirst
  | star =>
    cases e' with
    | star =>
      cases h with
      | star _ _ =>
        cases h' with
        | star _ _ => exact ⟨rfl, rfl⟩
    | vararg b =>
      cases h with
      | star _ hcomma => exact absurd h' (hbare hcomma)
    | _ => cases hfirst
  | vararg a =>
    cases e' with
    | star =>
      cases h' with
      | star _ hcomma => exact absurd h (hbare hcomma)
    | vararg b =>
      obtain ⟨rfl, -, rfl⟩ := (h.starred (.inl rfl)).unique_param (h'.starred (.inl rfl))
      exact ⟨rfl, rfl⟩
    | _ => cases hfirst
  | kwarg a =>
    cases e' with
    | kwarg b =>
      obtain ⟨rfl, -, rfl⟩ := (h.starred (.inr rfl)).unique_param (h'.starred (.inr rfl))
      exact ⟨rfl, rfl⟩
    | _ => cases hfirst

theorem EntryAt.not_last {e : Entry N} (h : EntryAt I other i e j) : ¬ TokenAt I .rparen i := by
  intro hlast
  have hfirst := h.first.unique hlast
  cases e <;> cases hfirst

theorem EntriesTo.append_iff {es fs : List (Entry N)} :
    EntriesTo I other i (es ++ fs) k ↔ ∃ j, EntriesTo I other i es j ∧ EntriesTo I other j fs k := by
  induction es generalizing i with
  | nil =>
    constructor
    · exact fun h => ⟨i, .nil, h⟩
    · intro h
      obtain ⟨j, hnil, h⟩ := h
      cases hnil
      exact h
  | cons e es ih =>
    constructor
    · intro h
      cases h with
      | cons he hes =>
        obtain ⟨j, hes, hfs⟩ := ih.mp hes
        exact ⟨j, .cons he hes, hfs⟩
    · intro h
      obtain ⟨j, h, hfs⟩ := h
      cases h with
      | cons he hes => exact .cons he (ih.mpr ⟨j, hes, hfs⟩)

theorem entriesTo_one {e : Entry N} : EntriesTo I other i [e] k ↔ EntryAt I other i e k := by
  constructor
  · intro h
    cases h with
    | cons he hes =>
      cases hes
      exact he
  · exact fun h => .cons h .nil

theorem EntriesTo.isPrefix {es fs : List (Entry N)} (h : EntriesTo I other i es j) (hfs : EntriesTo I other i fs k)
    (hlast : TokenAt I .rparen k) : es <+: fs := by
  induction h generalizing fs with
  | nil => exact List.nil_prefix
  | cons he _ ih =>
    cases hfs with
    | nil => exact absurd hlast he.not_last
    | cons he' hfs =>
      obtain ⟨rfl, rfl⟩ := he.unique he'
      exact List.cons_prefix_cons.mpr ⟨rfl, ih hfs⟩

theorem EntriesTo.position {es : List (Entry N)} (h : EntriesTo I other i es j) (h' : EntriesTo I other i es k) : j = k := by
  induction h with
  | nil =>
    cases h'
    rfl
  | cons he _ ih =>
    cases h' with
    | cons he' h' =>
      obtain ⟨-, rfl⟩ := he.unique he'
      exact ih h'

/-- Nothing that stands where entries do ends behind a star without a comma. -/
theorem EndsInStar.not_entriesTo {es fs : List (Entry N)} (h : EndsInStar I other i es k) (hlast : TokenAt I .rparen k) :
    ¬ EntriesTo I other i fs k := by
  obtain ⟨front, j, rfl, hfront, hstar, rfl⟩ := h
  intro hfs
  obtain ⟨rest, rfl⟩ := hfront.isPrefix hfs hlast
  obtain ⟨j', hfront', hrest⟩ := EntriesTo.append_iff.mp hfs
  obtain rfl := hfront.position hfront'
  -- What stands at the star goes on with a comma or a name, where the parenthesis is.
  generalize hj : j + 1 = l at hrest
  cases hrest with
  | nil => omega
  | cons he _ =>
    have hfirst := he.first.unique hstar
    cases he with
    | star _ hcomma => cases hcomma.unique hlast
    | vararg _ ha _ => cases ha.first.unique hlast
    | _ => cases hfirst

theorem EntriesTo.token {es : List (Entry N)} (h : EntriesTo I other i es k) (hlast : TokenAt I .rparen k) :
    ∃ t, I.peekToken i = some t := by
  cases h with
  | nil =>
    obtain ⟨t, ht, -⟩ := hlast
    exact ⟨t, ht⟩
  | cons he _ =>
    obtain ⟨t, ht, -⟩ := he.first
    exact ⟨t, ht⟩

/-! ## Runs -/

section
variable {α : Type} {r : Rule} {f : α → Entry N} {g : α → Value N}

/-- A rule of one entry, as often as there is one. -/
theorem readsMany_iff (hr : ∀ {i v k}, Reads (parameterGrammar I other) I (.rule r) i v k ↔
      ∃ a, v = g a ∧ EntryAt I other i (f a) k) : ReadsMany (parameterGrammar I other) I [.rule r] i vs k ↔
    ∃ as : List α, vs = as.map g ∧ EntriesTo I other i (as.map f) k ∧ ∀ a l, ¬ EntryAt I other k (f a) l := by
  constructor
  · intro h
    induction h with
    | stop hfails =>
      refine ⟨[], rfl, .nil, fun a l ha => ?_⟩
      exact hfails _ _ (readsAll_one.mpr ⟨_, rfl, hr.mpr ⟨a, rfl, ha⟩⟩)
    | next hvs _ ih =>
      obtain ⟨v, rfl, hv⟩ := readsAll_one.mp hvs
      obtain ⟨a, rfl, ha⟩ := hr.mp hv
      obtain ⟨as, rfl, has, hstop⟩ := ih
      exact ⟨a :: as, rfl, .cons ha has, hstop⟩
  · intro h
    obtain ⟨as, rfl, has, hstop⟩ := h
    induction as generalizing i with
    | nil =>
      cases has
      refine .stop (fails_one fun v l hv => ?_)
      obtain ⟨a, -, ha⟩ := hr.mp hv
      exact hstop a l ha
    | cons a as ih =>
      cases has with
      | cons ha has =>
        have hfirst : ReadsAll (parameterGrammar I other) I [.rule r] i [g a] _ := readsAll_one.mpr ⟨_, rfl, hr.mpr ⟨a, rfl, ha⟩⟩
        exact .next hfirst (ih has)

end

end

end Pylang.Parse
