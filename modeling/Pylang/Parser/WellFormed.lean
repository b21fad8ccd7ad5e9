/-
When patterns can be matched at all. Every pattern has a rank, and what can
stand at a pattern's start is of a lower rank, but for a rule that starts with
itself; what is repeated reads a token. Then every pattern gives an answer at
every token, and only moves forward.
-/
import Pylang.Parser.Reference

namespace Pylang.Parse

open Pylang.Lex (TokenType Token)

variable {P V : Type} [DecidableEq P]

/-! ## Conditions on a grammar -/

/-- What is known of the patterns of a grammar before any token is read: a rank, whether a match reads a token, and the
tokens it can look beyond. -/
structure Analysis (P : Type) where
  member : P → Prop
  rank : P → Nat
  bound : Nat
  consumes : P → Bool
  starts : P → List TokenType

namespace Analysis

variable (A : Analysis P)

/-- `q` can stand at the start of `p`. -/
def Below (p q : P) : Prop := A.rank q < A.rank p ∧ A.starts q ⊆ A.starts p

/-- The parts that can stand at the start of `p`. -/
def Heads (p : P) : List P → Prop
  | [] => True
  | q :: qs => A.Below p q ∧ (A.consumes q = true ∨ Heads p qs)

def Consuming (parts : List P) : Prop := ∃ q ∈ parts, A.consumes q = true

def BodyOk (G : Grammar P V) (p : P) : Body P V → Prop
  | .singleToken types => types ⊆ A.starts p
  | .andLiteral types _ => types ⊆ A.starts p
  | .notAt _ => A.consumes p = false
  | .alternatives as =>
    (∀ a ∈ as, ∀ q ∈ a.1, A.member q) ∧ (∀ a ∈ as, (G.leftRecursive p = true ∧ ∃ tail, a.1 = p :: tail) ∨
      A.Heads p a.1) ∧
      (A.consumes p = true → ∀ a ∈ as, A.Consuming a.1)
  | .oneOrMore parts => (∀ q ∈ parts, A.member q) ∧ A.Heads p parts ∧ A.Consuming parts
  | .zeroOrMore parts => (∀ q ∈ parts, A.member q) ∧ A.Heads p parts ∧ A.Consuming parts ∧ A.consumes p = false
  | .zeroOrOne parts => (∀ q ∈ parts, A.member q) ∧ A.Heads p parts ∧ A.consumes p = false
  | .applyInBetween main between => A.member main ∧ A.member between ∧ A.Below p main ∧ A.consumes main = true
  | .lookAhead q | .negativeLookAhead q => A.member q ∧ A.Below p q ∧ G.memoized q = false ∧ A.consumes p = false

structure WellFormed (G : Grammar P V) : Prop where
  rank_lt : ∀ p, A.member p → A.rank p < A.bound
  body : ∀ p, A.member p → A.BodyOk G p (G.body p)
  leftRecursive : ∀ p, A.member p → G.leftRecursive p = true → G.memoized p = true
  memoized : ∀ p, A.member p → G.memoized p = true → A.consumes p = true

theorem WellFormed.member_uses {A : Analysis P} {G : Grammar P V} (hw : A.WellFormed G) {p q : P} (hp : A.member p)
    (hq : q ∈ (G.body p).uses) : A.member q := by
  have hok := hw.body p hp
  cases hbody : G.body p with
  | singleToken types | andLiteral types literal | notAt literals => simp [hbody, Body.uses] at hq
  | alternatives as =>
    rw [hbody] at hok hq
    obtain ⟨a, ha, hqa⟩ := List.mem_flatMap.mp hq
    exact hok.1 a ha q hqa
  | oneOrMore parts | zeroOrMore parts | zeroOrOne parts =>
    rw [hbody] at hok hq
    exact hok.1 q hq
  | applyInBetween main between =>
    rw [hbody] at hok hq
    rcases List.mem_pair.mp hq with rfl | rfl
    · exact hok.1
    · exact hok.2.1
  | lookAhead r | negativeLookAhead r =>
    rw [hbody] at hok hq
    obtain rfl := List.mem_singleton.mp hq
    exact hok.1

theorem WellFormed.member_of_occurs {A : Analysis P} {G : Grammar P V} (hw : A.WellFormed G) {rules : P → Prop}
    (hrules : ∀ p, rules p → A.member p) {p : P} (hp : G.Occurs rules p) : A.member p := by
  induction hp with
  | rule h => exact hrules _ h
  | uses _ hq ih => exact hw.member_uses ih hq

/-- How much a match of `p` with so many tokens left has below it. -/
def measure (left : Nat) (p : P) : Nat := left * A.bound + A.rank p

end Analysis

variable {G : Grammar P V} {I : Input} {A : Analysis P}

theorem Analysis.WellFormed.measure_lt (hw : A.WellFormed G) {left left' : Nat} (h : left' < left) (p : P) {q : P}
    (hq : A.member q) : A.measure left' q < A.measure left p := by
  have hq := hw.rank_lt q hq
  have hmul : (left' + 1) * A.bound ≤ left * A.bound := Nat.mul_le_mul_right _ h
  rw [Nat.succ_mul] at hmul
  unfold Analysis.measure
  omega

theorem leftRecursive_body {p : P} (h : G.leftRecursive p = true) :
    ∃ tail act as, G.body p = .alternatives ((p :: tail, act) :: as) := by
  unfold Grammar.leftRecursive at h
  split at h
  next q tail act as hbody =>
    obtain rfl : q = p := of_decide_eq_true h
    exact ⟨tail, act, as, hbody⟩
  next => cases h

theorem leftRecursive_advanceBy {p : P} (h : G.leftRecursive p = true) : (G.body p).advanceBy = 0 := by
  obtain ⟨tail, act, as, hbody⟩ := leftRecursive_body h
  rw [hbody]
  rfl

theorem peekToken_lt {i : Nat} {t : Token} (h : I.peekToken i = some t) : i < I.tokens.length :=
  (List.getElem?_eq_some_iff.mp h).1

/-! ## Tokens -/

theorem singleToken_total (types : List TokenType) {i : Nat} {t : Token} (ht : I.peekToken i = some t) :
    ∃ o, singleToken I types i = some o ∧ ∀ j, o = some j → i ≤ j ∧ t.tokenType ∈ types := by
  induction types with
  | nil => exact ⟨none, rfl, fun j h => by cases h⟩
  | cons head tail ih =>
    obtain ⟨o, ho, hspec⟩ := ih
    by_cases hhead : head = t.tokenType
    · refine ⟨some i, by simp [singleToken, ht, hhead], fun j h => ?_⟩
      cases h
      exact ⟨Nat.le_refl _, hhead ▸ List.mem_cons_self⟩
    · refine ⟨o.map (· + 1), by simp [singleToken, ht, hhead, ho], fun j h => ?_⟩
      obtain ⟨k, hk, rfl⟩ := Option.map_eq_some_iff.mp h
      exact ⟨Nat.le_succ_of_le (hspec k hk).1, List.mem_cons_of_mem _ (hspec k hk).2⟩

theorem singleTokenAt_total (types : List TokenType) {i : Nat} {t : Token} (ht : I.peekToken i = some t) :
    ∃ o, singleTokenAt I types i = some o ∧
      ∀ u j, o = some (u, j) → i ≤ j ∧ t.tokenType ∈ types ∧ I.peekToken j = some u := by
  obtain ⟨o, ho, hspec⟩ := singleToken_total types ht
  cases o with
  | none => exact ⟨none, by simp [singleTokenAt, ho], fun u j h => by cases h⟩
  | some k =>
    refine ⟨(I.peekToken k).map (·, k), by simp [singleTokenAt, ho], fun u j h => ?_⟩
    obtain ⟨u', hu, heq⟩ := Option.map_eq_some_iff.mp h
    cases heq
    exact ⟨(hspec k rfl).1, (hspec k rfl).2, hu⟩

theorem andLiteralAt_total (types : List TokenType) (literal : List Char → Bool) {i : Nat} {t : Token}
    (ht : I.peekToken i = some t) :
    ∃ o, andLiteralAt I types literal i = some o ∧
      ∀ u j, o = some (u, j) → i ≤ j ∧ t.tokenType ∈ types ∧ I.peekToken j = some u := by
  obtain ⟨o, ho, hspec⟩ := singleTokenAt_total types ht
  rcases o with _ | ⟨u, j⟩
  · exact ⟨none, by simp [andLiteralAt, ho], fun u j h => by cases h⟩
  · obtain ⟨hle, htype, hu⟩ := hspec u j rfl
    refine ⟨if literal (I.text u) then some (u, j) else none, by simp [andLiteralAt, ho, hu], fun w k h => ?_⟩
    split at h
    · cases h
      exact ⟨hle, htype, hu⟩
    · cases h

/-! ## Every pattern answers -/

/-- Where a match of `p` at a token can end. -/
structure Analysis.Ends (A : Analysis P) (I : Input) (p : P) (i : Nat) (t : Token) (e : Nat) : Prop where
  le : i ≤ e
  inside : e ≤ I.tokens.length
  consumes : A.consumes p = true → i < e
  starts : i < e → t.tokenType ∈ A.starts p

/-- A match of `p` answers, and where. -/
def Answers (G : Grammar P V) (I : Input) (A : Analysis P) (p : P) (i : Nat) (t : Token) : Prop :=
  ∃ o, parse G I p i = some o ∧ ∀ v j, o = some (v, j) → A.Ends I p i t (j + (G.body p).advanceBy)

section Body

variable {p : P} {i : Nat} {t : Token} {grown : Found V}

/-- Where the parts of `p` are matched: at its start, or beyond it. -/
def Analysis.From (A : Analysis P) (p : P) (i : Nat) (t : Token) (parts : List P) (e : Nat) : Prop :=
  (∀ q ∈ parts, A.member q) ∧ (e = i ∧ A.Heads p parts ∨ i < e ∧ t.tokenType ∈ A.starts p)

omit [DecidableEq P] in
theorem Analysis.From.le {parts : List P} {e : Nat} (h : A.From p i t parts e) : i ≤ e := by
  rcases h.2 with ⟨rfl, -⟩ | ⟨h, -⟩
  · exact Nat.le_refl _
  · exact Nat.le_of_lt h

omit [DecidableEq P] in
theorem Analysis.From.starts {parts : List P} {e : Nat} (h : A.From p i t parts e) (hlt : i < e) :
    t.tokenType ∈ A.starts p := by
  rcases h.2 with ⟨rfl, -⟩ | ⟨-, h⟩
  · exact absurd hlt (Nat.lt_irrefl _)
  · exact h

omit [DecidableEq P] in
theorem Analysis.From.ne {q : P} {qs : List P} {e : Nat} (h : A.From p i t (q :: qs) e) : ¬(q = p ∧ e = i) := by
  intro h
  obtain ⟨rfl, rfl⟩ := h
  rcases h.2 with ⟨-, h, -⟩ | ⟨h, -⟩
  · exact Nat.lt_irrefl _ h.1
  · exact Nat.lt_irrefl _ h

omit [DecidableEq P] in
/-- After the first part the others stand at the start or beyond it. -/
theorem Analysis.From.tail {q : P} {qs : List P} {e e' : Nat} {u : Token} (ht : I.peekToken i = some t)
    (hu : I.peekToken e = some u) (h : A.From p i t (q :: qs) e) (hends : A.Ends I q e u e') : A.From p i t qs e' := by
  refine ⟨fun r hr => h.1 r (List.mem_cons_of_mem _ hr), ?_⟩
  rcases h.2 with ⟨rfl, hbelow, hheads⟩ | ⟨hlt, hstarts⟩
  · obtain rfl := Option.some.inj (ht.symm.trans hu)
    rcases Nat.lt_or_eq_of_le hends.le with hlt | rfl
    · exact .inr ⟨hlt, hbelow.2 (hends.starts hlt)⟩
    · exact .inl ⟨rfl, hheads.resolve_left fun h => Nat.lt_irrefl _ (hends.consumes h)⟩
  · exact .inr ⟨Nat.lt_of_lt_of_le hlt hends.le, hstarts⟩

/-- Whatever can be reached from `p` answers. -/
def Reached (G : Grammar P V) (I : Input) (A : Analysis P) (p : P) (i : Nat) : Prop :=
  ∀ q e u, A.member q → I.peekToken e = some u → e = i ∧ A.Below p q ∨ i < e → Answers G I A q e u

theorem Reached.head (h : Reached G I A p i) {q : P} {qs : List P} {e : Nat} {u : Token} (hu : I.peekToken e = some u)
    (hfrom : A.From p i t (q :: qs) e) : Answers G I A q e u := by
  refine h q e u (hfrom.1 q List.mem_cons_self) hu ?_
  rcases hfrom.2 with ⟨rfl, hbelow, -⟩ | ⟨hlt, -⟩
  · exact .inl ⟨rfl, hbelow⟩
  · exact .inr hlt

theorem parseHead_of_ne {q : P} {e : Nat} {u : Token} (hu : I.peekToken e = some u) (hne : ¬(q = p ∧ e = i)) :
    parseHead G I ⟨p, i, grown⟩ q e = (parse G I q e).map (found (G.body q).advanceBy) := by
  rw [parseHead, hu]
  simp only [if_neg hne]
  cases parse G I q e <;> rfl

theorem parseHead_own (ht : I.peekToken i = some t) :
    parseHead G I ⟨p, i, grown⟩ p i = some (found (G.body p).advanceBy grown) := by
  rw [parseHead, ht]
  simp

theorem parseAll_total (grown : Found V) (parts : List P) (ht : I.peekToken i = some t) (hr : Reached G I A p i)
    {e : Nat} (hfrom : A.From p i t parts e) (he : e ≤ I.tokens.length) :
    ∃ o, parseAll G I ⟨p, i, grown⟩ parts e = some o ∧ ∀ vs e', o = some (vs, e') →
      e ≤ e' ∧ e' ≤ I.tokens.length ∧ (A.Consuming parts → e < e') ∧ (i < e' → t.tokenType ∈ A.starts p) := by
  induction parts generalizing e with
  | nil =>
    refine ⟨_, by rw [parseAll], fun vs e' h => ?_⟩
    cases h
    refine ⟨Nat.le_refl _, he, fun h => ?_, hfrom.starts⟩
    obtain ⟨q, hq, -⟩ := h
    cases hq
  | cons q qs ih =>
    cases hu : I.peekToken e with
    | none => exact ⟨none, by rw [parseAll, parseHead, hu]; rfl, fun vs e' h => by cases h⟩
    | some u =>
      obtain ⟨o, ho, hends⟩ := hr.head hu hfrom
      have hhead : parseHead G I ⟨p, i, grown⟩ q e = some (found (G.body q).advanceBy o) := by
        rw [parseHead_of_ne hu hfrom.ne, ho]
        rfl
      rcases o with _ | ⟨v, j⟩
      · exact ⟨none, by rw [parseAll, hhead]; rfl, fun vs e' h => by cases h⟩
      · have hend := hends v j rfl
        obtain ⟨o', ho', hspec⟩ := ih (hfrom.tail ht hu hend) hend.inside
        refine ⟨o'.map fun w => (v :: w.1, w.2), ?_, fun vs e' h => ?_⟩
        · rw [parseAll, hhead]
          simp only [found, Option.map_some, Option.bind_eq_bind, Option.bind_some, ho']
          cases o' <;> rfl
        · obtain ⟨⟨ws, k⟩, hk, heq⟩ := Option.map_eq_some_iff.mp h
          cases heq
          obtain ⟨hle, hin, hcons, hstarts⟩ := hspec ws k hk
          refine ⟨Nat.le_trans hend.le hle, hin, fun h => ?_, hstarts⟩
          obtain ⟨r, hr, hcr⟩ := h
          rcases List.mem_cons.mp hr with rfl | hr
          · exact Nat.lt_of_lt_of_le (hend.consumes hcr) hle
          · exact Nat.lt_of_le_of_lt hend.le (hcons ⟨r, hr, hcr⟩)

theorem parseOneOf_total (ht : I.peekToken i = some t) (hr : Reached G I A p i)
    (hown : ∀ v j, grown = some (v, j) → i < j ∧ j ≤ I.tokens.length ∧ t.tokenType ∈ A.starts p)
    (hadv : G.leftRecursive p = true → (G.body p).advanceBy = 0) {as : List (List P × (List V → Nat → Nat → Option V))}
    (hmem : ∀ a ∈ as, ∀ q ∈ a.1, A.member q)
    (has : ∀ a ∈ as, (G.leftRecursive p = true ∧ ∃ tail, a.1 = p :: tail) ∨ A.Heads p a.1) :
    ∃ o, parseOneOf G I ⟨p, i, grown⟩ as i = some o ∧ ∀ v e, o = some (v, e) →
      i ≤ e ∧ e ≤ I.tokens.length ∧ ((∀ a ∈ as, A.Consuming a.1) → i < e) ∧ (i < e → t.tokenType ∈ A.starts p) := by
  induction as with
  | nil => exact ⟨none, by rw [parseOneOf], fun v e h => by cases h⟩
  | cons a as ih =>
    obtain ⟨parts, act⟩ := a
    obtain ⟨o, ho, hspec⟩ := ih (fun a ha => hmem a (List.mem_cons_of_mem _ ha)) fun a ha => has a
      (List.mem_cons_of_mem _ ha)
    have hall : ∃ r, parseAll G I ⟨p, i, grown⟩ parts i = some r ∧ ∀ vs e, r = some (vs, e) →
        i ≤ e ∧ e ≤ I.tokens.length ∧ (A.Consuming parts → i < e) ∧ (i < e → t.tokenType ∈ A.starts p) := by
      rcases has (parts, act) List.mem_cons_self with ⟨hleft, tail, rfl⟩ | hheads
      · cases hgrown : grown with
        | none =>
          refine ⟨none, ?_, fun vs e h => by cases h⟩
          rw [parseAll, parseHead_own ht]
          rfl
        | some vj =>
          obtain ⟨v, j⟩ := vj
          obtain ⟨hlt, hin, hstarts⟩ := hown v j hgrown
          obtain ⟨r, hr', hrspec⟩ := parseAll_total grown tail ht hr
            ⟨fun q hq => hmem _ List.mem_cons_self q (List.mem_cons_of_mem _ hq), .inr ⟨hlt, hstarts⟩⟩ hin
          refine ⟨r.map fun w => (v :: w.1, w.2), ?_, fun vs e h => ?_⟩
          · rw [hgrown] at hr'
            rw [parseAll, parseHead_own ht, hadv hleft]
            simp only [found, Option.map_some, Option.bind_eq_bind, Option.bind_some, Nat.add_zero, hr']
            cases r <;> rfl
          · obtain ⟨⟨ws, k⟩, hk, heq⟩ := Option.map_eq_some_iff.mp h
            cases heq
            obtain ⟨hle, hin', -, -⟩ := hrspec ws k hk
            exact ⟨by omega, hin', fun _ => by omega, fun _ => hstarts⟩
      · exact parseAll_total _ _ ht hr ⟨hmem _ List.mem_cons_self, .inl ⟨rfl, hheads⟩⟩ (Nat.le_of_lt (peekToken_lt ht))
    obtain ⟨r, hr', hrspec⟩ := hall
    cases r with
    | none =>
      refine ⟨o, by rw [parseOneOf, hr']; exact ho, fun v e h => ?_⟩
      obtain ⟨hle, hin, hcons, hstarts⟩ := hspec v e h
      exact ⟨hle, hin, fun h => hcons fun a ha => h a (List.mem_cons_of_mem _ ha), hstarts⟩
    | some ve =>
      obtain ⟨vs, e⟩ := ve
      refine ⟨(act vs i e).map (·, e), by rw [parseOneOf, hr']; rfl, fun v e' h => ?_⟩
      obtain ⟨w, -, heq⟩ := Option.map_eq_some_iff.mp h
      cases heq
      obtain ⟨hle, hin, hcons, hstarts⟩ := hrspec vs e rfl
      exact ⟨hle, hin, fun h => hcons (h _ List.mem_cons_self), hstarts⟩

theorem parseRepeated_total (grown : Found V) (ht : I.peekToken i = some t) (hr : Reached G I A p i) {parts : List P}
    (hcons : A.Consuming parts) {e : Nat} (hfrom : A.From p i t parts e) (he : e ≤ I.tokens.length) :
    ∃ vs e', parseRepeated G I ⟨p, i, grown⟩ parts e = some (vs, e') ∧
      e ≤ e' ∧ e' ≤ I.tokens.length ∧ (i < e' → t.tokenType ∈ A.starts p) := by
  induction hn : I.tokens.length - e using Nat.strongRecOn generalizing e with
  | ind n ih =>
    obtain ⟨o, ho, hspec⟩ := parseAll_total grown _ ht hr hfrom he
    rcases o with _ | ⟨vs, j⟩
    · exact ⟨[], e, by rw [parseRepeated, ho]; rfl, Nat.le_refl _, he, hfrom.starts⟩
    · obtain ⟨hle, hin, hlt, hstarts⟩ := hspec vs j rfl
      have hlt := hlt hcons
      have hbeyond : i < j := Nat.lt_of_le_of_lt hfrom.le hlt
      obtain ⟨ws, e', hws, hle', hin', hstarts'⟩ := ih _ (by omega) ⟨hfrom.1, .inr ⟨hbeyond, hstarts hbeyond⟩⟩ hin rfl
      exact ⟨G.pack vs :: ws, e', by rw [parseRepeated, ho]; simp [hws], Nat.le_trans hle hle', hin', hstarts'⟩

theorem parseInBetween_total (grown : Found V) (between : P) (ht : I.peekToken i = some t) (hr : Reached G I A p i)
    {main : P}
    (hmain : A.member main) (hbetween : A.member between) (hbelow : A.Below p main) (hcons : A.consumes main = true)
      {e : Nat} (hfrom : e = i ∨ i < e ∧ t.tokenType ∈ A.starts p) (he : e ≤ I.tokens.length) :
    ∃ o, _parseInBetween G I ⟨p, i, grown⟩ main between e = some o ∧ ∀ vs e', o = some (vs, e') →
      e < e' ∧ e' ≤ I.tokens.length ∧ t.tokenType ∈ A.starts p := by
  induction hn : I.tokens.length - e using Nat.strongRecOn generalizing e with
  | ind n ih =>
    obtain ⟨o, ho, hspec⟩ := parseAll_total grown [main] ht hr
      ⟨fun q hq => List.mem_singleton.mp hq ▸ hmain, hfrom.imp_left fun h => ⟨h, hbelow, .inl hcons⟩⟩ he
    rcases o with _ | ⟨vs, j⟩
    · exact ⟨none, by rw [_parseInBetween, ho]; rfl, fun vs e' h => by cases h⟩
    · obtain ⟨hle, hin, hlt, hstarts⟩ := hspec vs j rfl
      have hlt := hlt ⟨main, List.mem_singleton_self _, hcons⟩
      have hij : i < j := by rcases hfrom with rfl | ⟨h, -⟩ <;> omega
      have hstarts := hstarts hij
      have hself (vs' : List V) (e' : Nat) (h : some (vs, j) = some (vs', e')) :
          e < e' ∧ e' ≤ I.tokens.length ∧ t.tokenType ∈ A.starts p := by
        cases h
        exact ⟨hlt, hin, hstarts⟩
      obtain ⟨b, hb, hbspec⟩ := parseAll_total grown [between] ht hr
        ⟨fun q hq => List.mem_singleton.mp hq ▸ hbetween, .inr ⟨hij, hstarts⟩⟩ hin
      rcases b with _ | ⟨bs, k⟩
      · exact ⟨some (vs, j), by rw [_parseInBetween, ho]; simp [hb], hself⟩
      · obtain ⟨hjk, hink, -, -⟩ := hbspec bs k rfl
        obtain ⟨c, hc, hcspec⟩ := ih _ (by omega) (.inr ⟨by omega, hstarts⟩) hink rfl
        rcases c with _ | ⟨ws, l⟩
        · exact ⟨some (vs, j), by rw [_parseInBetween, ho]; simp [hb, hc], hself⟩
        · refine ⟨some (vs ++ ws, l), by rw [_parseInBetween, ho]; simp [hb, hc], fun vs' e' h => ?_⟩
          cases h
          obtain ⟨hkl, hinl, -⟩ := hcspec ws l rfl
          exact ⟨by omega, hinl, hstarts⟩

/-- The body of a pattern answers, whatever the pattern has grown to. -/
theorem parseBody_total (grown : Found V) (hw : A.WellFormed G) (hp : A.member p) (ht : I.peekToken i = some t)
    (hr : Reached G I A p i)
    (hown : ∀ v j, grown = some (v, j) → i < j ∧ j ≤ I.tokens.length ∧ t.tokenType ∈ A.starts p) :
    ∃ o, parseBody G I ⟨p, i, grown⟩ (G.body p) i = some o ∧
      ∀ v j, o = some (v, j) → A.Ends I p i t (j + (G.body p).advanceBy) := by
  have hok := hw.body p hp
  have hadv : G.leftRecursive p = true → (G.body p).advanceBy = 0 := leftRecursive_advanceBy
  have hi := Nat.le_of_lt (peekToken_lt ht)
  generalize hbody : G.body p = body at hok hadv
  cases body with
  | singleToken types =>
    obtain ⟨o, ho, hspec⟩ := singleTokenAt_total types ht
    refine ⟨o.map fun w => (G.token w.1, w.2), by rw [parseBody, ho]; rfl, fun v j h => ?_⟩
    obtain ⟨⟨u, k⟩, hk, heq⟩ := Option.map_eq_some_iff.mp h
    cases heq
    obtain ⟨hle, htype, hu⟩ := hspec u k hk
    exact ⟨Nat.le_succ_of_le hle, peekToken_lt hu, fun _ => Nat.lt_succ_of_le hle, fun _ => hok htype⟩
  | andLiteral types literal =>
    obtain ⟨o, ho, hspec⟩ := andLiteralAt_total types literal ht
    refine ⟨o.map fun w => (G.token w.1, w.2), by rw [parseBody, ho]; rfl, fun v j h => ?_⟩
    obtain ⟨⟨u, k⟩, hk, heq⟩ := Option.map_eq_some_iff.mp h
    cases heq
    obtain ⟨hle, htype, hu⟩ := hspec u k hk
    exact ⟨Nat.le_succ_of_le hle, peekToken_lt hu, fun _ => Nat.lt_succ_of_le hle, fun _ => hok htype⟩
  | notAt literals =>
    refine ⟨if literals (I.text t) then none else some (G.monostate, i), by rw [parseBody, ht]; rfl, fun v j h => ?_⟩
    split at h
    · cases h
    · cases h
      exact ⟨Nat.le_refl _, hi, fun h => absurd (h.symm.trans hok) (by simp), fun h => absurd h (Nat.lt_irrefl _)⟩
  | alternatives as =>
    obtain ⟨o, ho, hspec⟩ := parseOneOf_total ht hr hown (fun h => (congrArg _ hbody).trans (hadv h)) hok.1
      hok.2.1
    refine ⟨o, by rw [parseBody]; exact ho, fun v j h => ?_⟩
    obtain ⟨hle, hin, hcons, hstarts⟩ := hspec v j h
    exact ⟨hle, hin, fun h => hcons (hok.2.2 h), hstarts⟩
  | oneOrMore parts =>
    obtain ⟨o, ho, hspec⟩ := parseAll_total grown _ ht hr ⟨hok.1, .inl ⟨rfl, hok.2.1⟩⟩ hi
    rcases o with _ | ⟨vs, j⟩
    · exact ⟨none, by rw [parseBody]; simp [ho], fun v j h => by cases h⟩
    · obtain ⟨hle, hin, hlt, hstarts⟩ := hspec vs j rfl
      have hlt := hlt hok.2.2
      obtain ⟨ws, k, hws, hjk, hink, -⟩ := parseRepeated_total grown ht hr hok.2.2
        ⟨hok.1, .inr ⟨hlt, hstarts hlt⟩⟩ hin
      refine ⟨some (G.vector (G.pack vs :: ws), k), by rw [parseBody]; simp [ho, hws], fun v j' h => ?_⟩
      cases h
      exact ⟨Nat.le_trans hle hjk, hink, fun _ => Nat.lt_of_lt_of_le hlt hjk, fun _ => hstarts hlt⟩
  | zeroOrMore parts =>
    obtain ⟨vs, j, hvs, hle, hin, hstarts⟩ := parseRepeated_total grown ht hr hok.2.2.1
      ⟨hok.1, .inl ⟨rfl, hok.2.1⟩⟩ hi
    refine ⟨some (G.vector vs, j), by rw [parseBody]; simp [hvs], fun v j' h => ?_⟩
    cases h
    exact ⟨hle, hin, fun h => absurd (h.symm.trans hok.2.2.2) (by simp), hstarts⟩
  | zeroOrOne parts =>
    obtain ⟨o, ho, hspec⟩ := parseAll_total grown _ ht hr ⟨hok.1, .inl ⟨rfl, hok.2.1⟩⟩ hi
    rcases o with _ | ⟨vs, j⟩
    · refine ⟨some (G.optional none, i), by rw [parseBody]; simp [ho], fun v j h => ?_⟩
      cases h
      exact ⟨Nat.le_refl _, hi, fun h => absurd (h.symm.trans hok.2.2) (by simp), fun h => absurd h (Nat.lt_irrefl _)⟩
    · obtain ⟨hle, hin, -, hstarts⟩ := hspec vs j rfl
      refine ⟨some (G.optional (some (G.pack vs)), j), by rw [parseBody]; simp [ho], fun v j' h => ?_⟩
      cases h
      exact ⟨hle, hin, fun h => absurd (h.symm.trans hok.2.2) (by simp), hstarts⟩
  | applyInBetween main between =>
    obtain ⟨o, ho, hspec⟩ := parseInBetween_total grown between ht hr hok.1 hok.2.1
      hok.2.2.1 hok.2.2.2 (.inl rfl) hi
    refine ⟨o.map fun w => (G.vector w.1, w.2), by rw [parseBody, ho]; cases o <;> rfl, fun v j h => ?_⟩
    obtain ⟨⟨vs, k⟩, hk, heq⟩ := Option.map_eq_some_iff.mp h
    cases heq
    obtain ⟨hlt, hin, hstarts⟩ := hspec vs k hk
    exact ⟨Nat.le_of_lt hlt, hin, fun _ => hlt, fun _ => hstarts⟩
  | lookAhead q =>
    obtain ⟨r, hr', -⟩ := hr q i t hok.1 ht (.inl ⟨rfl, hok.2.1⟩)
    refine ⟨if r.isSome then some (G.monostate, i) else none, by rw [parseBody, hr']; rfl, fun v j h => ?_⟩
    split at h
    · cases h
      exact ⟨Nat.le_refl _, hi, fun h => absurd (h.symm.trans hok.2.2.2) (by simp), fun h => absurd h (Nat.lt_irrefl _)⟩
    · cases h
  | negativeLookAhead q =>
    obtain ⟨r, hr', -⟩ := hr q i t hok.1 ht (.inl ⟨rfl, hok.2.1⟩)
    refine ⟨if r.isSome then none else some (G.monostate, i), by rw [parseBody, hr']; rfl, fun v j h => ?_⟩
    split at h
    · cases h
    · cases h
      exact ⟨Nat.le_refl _, hi, fun h => absurd (h.symm.trans hok.2.2.2) (by simp), fun h => absurd h (Nat.lt_irrefl _)⟩

/-- A round of growth ends it or goes further. -/
theorem grow_next (hw : A.WellFormed G) (hp : A.member p) (ht : I.peekToken i = some t) (hr : Reached G I A p i)
    {v : V} {j : Nat} (hj : i < j ∧ j ≤ I.tokens.length ∧ t.tokenType ∈ A.starts p) :
    grow G I p i v j = some (some (v, j)) ∨
      ∃ w k, j < k ∧ k ≤ I.tokens.length ∧ parseBody G I ⟨p, i, some (v, j)⟩ (G.body p) i = some (some (w, k)) ∧
        grow G I p i v j = grow G I p i w k := by
  obtain ⟨o, ho, hspec⟩ := parseBody_total (some (v, j)) hw hp ht hr fun v' j' h => by cases h; exact hj
  rcases o with _ | ⟨w, k⟩
  · exact .inl (by rw [grow, ho]; rfl)
  · by_cases hk : k ≤ j
    · exact .inl (by rw [grow, ho]; simp [hk])
    · refine .inr ⟨w, k, Nat.lt_of_not_le hk, Nat.le_trans (Nat.le_add_right _ _) (hspec w k rfl).inside, ho, ?_⟩
      rw [grow, ho]
      simp [hk]

theorem grow_total (hw : A.WellFormed G) (hp : A.member p) (ht : I.peekToken i = some t) (hr : Reached G I A p i)
    {v : V} {j : Nat} (hj : i < j ∧ j ≤ I.tokens.length ∧ t.tokenType ∈ A.starts p) :
    ∃ w k, grow G I p i v j = some (some (w, k)) ∧ A.Ends I p i t k := by
  induction hn : I.tokens.length - j using Nat.strongRecOn generalizing v j with
  | ind n ih =>
    rcases grow_next (v := v) hw hp ht hr hj with hstop | ⟨w, k, hjk, hk, -, hnext⟩
    · exact ⟨v, j, hstop, Nat.le_of_lt hj.1, hj.2.1, fun _ => hj.1, fun _ => hj.2.2⟩
    · obtain ⟨w', k', hg, hends⟩ := ih _ (by omega) (v := w) ⟨Nat.lt_trans hj.1 hjk, hk, hj.2.2⟩ rfl
      exact ⟨w', k', hnext.trans hg, hends⟩

end Body

/-- **Every pattern answers** at every token, and moves forward only. -/
theorem parse_total (hw : A.WellFormed G) {p : P} (hp : A.member p) {i : Nat} {t : Token}
    (ht : I.peekToken i = some t) :
    Answers G I A p i t := by
  induction hn : A.measure (I.tokens.length - i) p using Nat.strongRecOn generalizing p i t with
  | ind n ih =>
    have hr : Reached G I A p i := by
      intro q e u hq hu hreach
      refine ih _ ?_ hq hu rfl
      rw [← hn]
      rcases hreach with ⟨rfl, hbelow⟩ | hlt
      · exact Nat.add_lt_add_left hbelow.1 _
      · have hei := peekToken_lt hu
        exact hw.measure_lt (by omega) p hq
    obtain ⟨o, ho, hspec⟩ := parseBody_total none hw hp ht hr fun v j h => by cases h
    rcases o with _ | ⟨v, j⟩
    · exact ⟨none, by rw [parse, ho]; rfl, fun v j h => by cases h⟩
    · have hend := hspec v j rfl
      by_cases hleft : G.leftRecursive p = true
      · rw [leftRecursive_advanceBy hleft, Nat.add_zero] at hend
        have hij := hend.consumes (hw.memoized p hp (hw.leftRecursive p hp hleft))
        obtain ⟨w, k, hg, hends⟩ := grow_total (v := v) hw hp ht hr ⟨hij, hend.inside, hend.starts hij⟩
        refine ⟨some (w, k), by rw [parse, ho]; simp [hleft, hg], fun v' j' h => ?_⟩
        cases h
        rw [leftRecursive_advanceBy hleft]
        exact hends
      · exact ⟨some (v, j), by rw [parse, ho]; simp [hleft], hspec⟩

end Pylang.Parse
