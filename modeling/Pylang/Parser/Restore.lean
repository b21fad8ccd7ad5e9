/-
Where a match leaves the position. A pack that fails is put back where it was,
and so is a look-ahead; a pattern of several token types would not be at the token
it has tested, but for the first type, and cannot be instantiated.
-/
import Mathlib.Data.Option.Basic
import Pylang.Parser.Memo

namespace Pylang.Parse

open Pylang.Lex (TokenType Token)

variable {P V : Type} [DecidableEq P]

/-! ## What a match is for -/

def Body.isToken : Body P V → Bool
  | .singleToken _ => true
  | _ => false

def Body.isLookAhead : Body P V → Bool
  | .lookAhead _ | .negativeLookAhead _ => true
  | _ => false

/-- The results of these patterns are no `ValueTypes`. -/
def Grammar.Typed (G : Grammar P V) : Prop :=
  ∀ p, (G.body p).isToken = true ∨ (G.body p).isLookAhead = true → G.memoized p = false

/-- What is asked of the runs of `match`, for a pack of patterns. -/
structure MatchRight (G : Grammar P V) (I : Input) (parts : List P) (s : Parser P V) : Prop where
  failure : ∀ s', matchPack G I parts s = some (none, s') → s'.position = s.position
  lookAhead : ∀ p, parts = [p] → (G.body p).isLookAhead = true → ∀ r s', matchPack G I parts s = some (r, s') →
    s'.position = s.position
  token : ∀ p types, parts = [p] → G.body p = .singleToken types → ∀ vs s', matchPack G I parts s = some (some vs, s') →
    ∃ t, I.peekToken s.position = some t ∧ t.tokenType ∈ types ∧ vs = [G.token t] ∧ s'.position = s.position + 1

/-- The token has the first of the types, or none of them, or fewer tokens come after it than types before its own. -/
def FirstType (I : Input) (types : List TokenType) (i : Nat) : Prop :=
  ∀ t k, I.peekToken i = some t → types.idxOf t.tokenType = k → k < types.length → k = 0 ∨ I.peekToken (i + k) = none

/-! ## Tokens -/

section
variable {I : Input} {types : List TokenType} {i : Nat} {t : Token}

/-- The position is moved by the types that are not the token's. -/
theorem singleToken_eq (ht : I.peekToken i = some t) : ∀ types : List TokenType, singleToken I types i =
    some (if types.idxOf t.tokenType < types.length then some (i + types.idxOf t.tokenType) else none) := by
  intro types
  induction types with
  | nil => rfl
  | cons head tail ih =>
    rw [singleToken, ht]
    show (if head = t.tokenType then _ else _) = _
    by_cases hhead : head = t.tokenType
    · rw [if_pos hhead, hhead, List.idxOf_cons_self, if_pos (by rw [List.length_cons]; omega)]
      rfl
    · rw [if_neg hhead, ih, List.idxOf_cons_ne _ hhead, List.length_cons]
      show some (Option.map _ _) = _
      by_cases hlt : tail.idxOf t.tokenType < tail.length
      · rw [if_pos hlt, if_pos (by omega)]
        rfl
      · rw [if_neg hlt, if_neg (by omega)]
        rfl

theorem singleTokenAt_eq (ht : I.peekToken i = some t) (types : List TokenType) : singleTokenAt I types i =
    some (if types.idxOf t.tokenType < types.length then
      (I.peekToken (i + types.idxOf t.tokenType)).map (·, i + types.idxOf t.tokenType) else none) := by
  rw [singleTokenAt, singleToken_eq ht]
  by_cases hlt : types.idxOf t.tokenType < types.length
  · rw [if_pos hlt, if_pos hlt]
    rfl
  · rw [if_neg hlt, if_neg hlt]
    rfl

end

/-! ## Patterns without a table -/

section
variable {G : Grammar P V} {I : Input} {p : P} {s : Parser P V}

/-- A pack of one pattern that has no entries. -/
theorem matchPack_singleton {t : Token} (ht : I.peekToken s.position = some t) (hmemo : G.memoized p = false) :
    matchPack G I [p] s = (matchesImpl G I (G.body p) s).map fun r => (r.1.map fun v => [v],
      r.2.at (if r.1.isSome then r.2.position + (G.body p).advanceBy else s.position)) := by
  have hnot : ¬ G.memoized p = true := by rw [hmemo]; exact Bool.false_ne_true
  have hhead : matchHead G I p s = (matchesImpl G I (G.body p) s).map fun r => (r.1,
      r.2.at (if r.1.isSome then r.2.position + (G.body p).advanceBy else s.position)) := by
    rw [matchHead, ht]
    simp only [if_neg hnot]
    rw [«matches», if_neg hnot]
    rcases matchesImpl G I (G.body p) s with _ | ⟨_ | v, s₁⟩ <;> rfl
  have hnil (s : Parser P V) : matchAll G I [] s = some (some [], s) := by rw [matchAll]
  rw [matchPack, matchAll, hhead]
  rcases matchesImpl G I (G.body p) s with _ | ⟨_ | v, s₁⟩
  · rfl
  · rfl
  · simp [hnil]

theorem matchPack_none (ht : I.peekToken s.position = none) : matchPack G I [p] s = some (none, s) := by
  rw [matchPack, matchAll, matchHead_none ht]
  rfl

theorem matchPack_failure {parts : List P} {s' : Parser P V} (h : matchPack G I parts s = some (none, s')) :
    s'.position = s.position := by
  rw [matchPack] at h
  rcases hall : matchAll G I parts s with _ | ⟨_ | vs, s₁⟩
  · rw [hall] at h
    cases h
  · rw [hall] at h
    cases h
    rfl
  · rw [hall] at h
    cases h

/-- A look-ahead goes back to where it started. -/
theorem matchesImpl_lookAhead (hbody : (G.body p).isLookAhead = true) {r : Option V} {s₁ : Parser P V}
    (h : matchesImpl G I (G.body p) s = some (r, s₁)) : s₁.position = s.position := by
  cases hp : G.body p with
  | lookAhead q =>
    rw [hp, matchesImpl] at h
    rcases hq : «matches» G I q s with _ | ⟨r', s'⟩
    · rw [hq] at h
      cases h
    · rw [hq] at h
      cases h
      rfl
  | negativeLookAhead q =>
    rw [hp, matchesImpl] at h
    rcases hq : «matches» G I q s with _ | ⟨r', s'⟩
    · rw [hq] at h
      cases h
    · rw [hq] at h
      cases h
      rfl
  | _ => rw [hp] at hbody; cases hbody

theorem matchPack_lookAhead (htyped : G.Typed) (hbody : (G.body p).isLookAhead = true) {r : Option (List V)}
    {s' : Parser P V} (h : matchPack G I [p] s = some (r, s')) : s'.position = s.position := by
  cases ht : I.peekToken s.position with
  | none =>
    rw [matchPack_none ht] at h
    cases h
    rfl
  | some t =>
    rw [matchPack_singleton ht (htyped p (.inr hbody))] at h
    obtain ⟨⟨r', s₁⟩, hrun, heq⟩ := Option.map_eq_some_iff.mp h
    have hback := matchesImpl_lookAhead hbody hrun
    have hadvance : (G.body p).advanceBy = 0 := by
      cases hp : G.body p with
      | singleToken | andLiteral => rw [hp] at hbody; cases hbody
      | _ => rfl
    cases heq
    show (if _ then s₁.position + (G.body p).advanceBy else s.position) = s.position
    rw [hadvance, hback]
    split <;> rfl

theorem matchPack_token (htyped : G.Typed) {types : List TokenType} (hbody : G.body p = .singleToken types) {t u : Token}
    (ht : I.peekToken s.position = some t) (hlt : types.idxOf t.tokenType < types.length)
    (hu : I.peekToken (s.position + types.idxOf t.tokenType) = some u) :
    ∃ s', matchPack G I [p] s = some (some [G.token u], s') ∧
      s'.position = s.position + types.idxOf t.tokenType + 1 := by
  rw [matchPack_singleton ht (htyped p (.inl (by rw [hbody]; rfl))), hbody, matchesImpl, singleTokenAt_eq ht, if_pos hlt, hu]
  exact ⟨_, rfl, rfl⟩

theorem matchPack_no_token (htyped : G.Typed) {types : List TokenType} (hbody : G.body p = .singleToken types) {t : Token}
    (ht : I.peekToken s.position = some t)
    (hnone : types.idxOf t.tokenType < types.length → I.peekToken (s.position + types.idxOf t.tokenType) = none) :
    ∃ s', matchPack G I [p] s = some (none, s') := by
  rw [matchPack_singleton ht (htyped p (.inl (by rw [hbody]; rfl))), hbody, matchesImpl, singleTokenAt_eq ht]
  by_cases hlt : types.idxOf t.tokenType < types.length
  · rw [if_pos hlt, hnone hlt]
    exact ⟨_, rfl⟩
  · rw [if_neg hlt]
    exact ⟨_, rfl⟩

end

/-- **A match leaves the position as it should**, but for a pattern of several types at a token that has not the first of
them. -/
theorem matchRight_iff (G : Grammar P V) (I : Input) (parts : List P) (s : Parser P V) (htyped : G.Typed) :
    MatchRight G I parts s ↔ ∀ p types, parts = [p] → G.body p = .singleToken types → FirstType I types s.position := by
  constructor
  · intro h p types hparts hbody t k ht hk hlt
    subst hparts hk
    by_contra hnot
    obtain ⟨hpos, hsome⟩ := not_or.mp hnot
    obtain ⟨u, hu⟩ := Option.ne_none_iff_exists'.mp hsome
    obtain ⟨s', hrun, hposition⟩ := matchPack_token htyped hbody ht hlt hu
    obtain ⟨-, -, -, -, hone⟩ := h.token p types rfl hbody _ s' hrun
    omega
  · intro h
    refine { failure := fun s' => matchPack_failure, lookAhead := fun p hparts hbody r s' hrun => ?_,
             token := fun p types hparts hbody vs s' hrun => ?_ }
    · subst hparts
      exact matchPack_lookAhead htyped hbody hrun
    · subst hparts
      cases ht : I.peekToken s.position with
      | none =>
        rw [matchPack_none ht] at hrun
        cases hrun
      | some t =>
        have hsome : types.idxOf t.tokenType < types.length ∧
            I.peekToken (s.position + types.idxOf t.tokenType) ≠ none := by
          by_contra hnot
          obtain ⟨s₁, hnone⟩ := matchPack_no_token htyped hbody ht fun hlt => by
            by_contra hne
            exact hnot ⟨hlt, hne⟩
          cases hnone.symm.trans hrun
        obtain ⟨hlt, hne⟩ := hsome
        have hzero := (h p types rfl hbody t _ ht rfl hlt).resolve_right hne
        obtain ⟨s₁, hrun', hposition⟩ := matchPack_token htyped hbody ht hlt (u := t) (by rw [hzero]; exact ht)
        cases hrun'.symm.trans hrun
        rw [hzero] at hposition
        exact ⟨t, rfl, List.idxOf_lt_length_iff.mp hlt, rfl, hposition⟩

/-- A single-token pattern of more types than one is no C++: its result type, a variant of a `TokenResult` for each type,
is not made of a `Token`. -/
def Grammar.Instantiable (G : Grammar P V) : Prop := ∀ p types, G.body p = .singleToken types → types.length = 1

/-- **A match leaves the position as it should**, for the patterns that there can be. -/
theorem matchRight (G : Grammar P V) (I : Input) (parts : List P) (s : Parser P V) (htyped : G.Typed)
    (hinst : G.Instantiable) : MatchRight G I parts s := by
  refine (matchRight_iff G I parts s htyped).mpr fun p types _ hbody t k _ _ hlt => .inl ?_
  have hone := hinst p types hbody
  omega

/-- `SingleTokenPatternV2<LPAREN>`, with tokens for results. -/
def openParenthesis : Grammar Unit (List Token) where
  token t := [t]
  monostate := []
  tuple := List.flatten
  vector := List.flatten
  optional r := r.getD []
  body _ := .singleToken [.lparen]
  memoized _ := false

/-- The tokens of a text of single characters. -/
def charTokens (types : List TokenType) : Input where
  program := []
  tokens := types.zipIdx.map fun (type, i) => ⟨type, ⟨0, i, i⟩, ⟨0, i + 1, i + 1⟩⟩

/-- `(`, and `((` as a sequence. -/
theorem matchRight_lparen : MatchRight openParenthesis (charTokens [.lparen, .rparen]) [()] {} ∧
    MatchRight openParenthesis (charTokens [.lparen, .lparen]) [(), ()] {} := by
  have htyped : openParenthesis.Typed := fun _ _ => rfl
  have hinst : openParenthesis.Instantiable := fun _ _ hbody => congrArg List.length (Body.singleToken.inj hbody).symm
  exact ⟨matchRight openParenthesis _ [()] {} htyped hinst, matchRight openParenthesis _ [(), ()] {} htyped hinst⟩

end Pylang.Parse
