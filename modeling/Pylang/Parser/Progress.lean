/-
Where the engine's runs lead, from any state of a parse: an entry of the table
is the end of a match that has read a token, and so every match of what a loop
repeats reads a token.
-/
import Mathlib
import Pylang.Parser.MemoFaithful

namespace Pylang.Parse

open Pylang.Lex (TokenType Token)

variable {P V : Type} [DecidableEq P]

section
variable (G : Grammar P V) (I : Input) (A : Analysis P)

/-- Where a match of `p` from a position can end. -/
structure Moves (p : P) (i e : Nat) : Prop where
  le : i ≤ e
  consumes : A.consumes p = true → i < e
  starts : i < e → ∀ t, I.peekToken i = some t → t.tokenType ∈ A.starts p

/-- Where a match of a pack can end. -/
structure PackMoves (parts : List P) (i e : Nat) : Prop where
  le : i ≤ e
  consumes : A.Consuming parts → i < e
  first : ∀ q qs, parts = q :: qs → ∃ m, Moves I A q i m ∧ m ≤ e
  starts : ∀ p, A.Heads p parts → i < e → ∀ t, I.peekToken i = some t → t.tokenType ∈ A.starts p

/-- The results in the table end beyond their tokens. -/
def Forward (cache : Key P → Option (CacheValue V)) : Prop :=
  ∀ q i t v j, A.member q → G.memoized q = true → I.peekToken i = some t → cache (key q t) = some (.result v j) →
    i < j + (G.body q).advanceBy ∧ t.tokenType ∈ A.starts q

/-! ## What each run leaves -/

def MatchesMoves (p : P) (s : Parser P V) (r : Option V × Parser P V) : Prop :=
  A.member p → Forward G I A s.cache → Forward G I A r.2.cache ∧
    ∀ v, r.1 = some v → Moves I A p s.position (r.2.position + (G.body p).advanceBy)

def GrowMoves (p : P) (k : Key P) (start : Nat) (s : Parser P V) (r : Option V × Parser P V) : Prop :=
  A.member p → G.memoized p = true → (∃ t, I.peekToken start = some t ∧ k = key p t) → Forward G I A s.cache →
    Forward G I A r.2.cache ∧ ∀ v, r.1 = some v → Moves I A p start (r.2.position + (G.body p).advanceBy)

def BodyMoves (body : Body P V) (s : Parser P V) (r : Option V × Parser P V) : Prop :=
  ∀ p, G.body p = body → A.member p → Forward G I A s.cache → Forward G I A r.2.cache ∧
    ∀ v, r.1 = some v → Moves I A p s.position (r.2.position + body.advanceBy)

def InBetweenMoves (main between : P) (s : Parser P V) (r : Option (List V) × Parser P V) : Prop :=
  A.member main → A.member between → A.consumes main = true → Forward G I A s.cache → Forward G I A r.2.cache ∧
    ∀ vs, r.1 = some vs → Moves I A main s.position r.2.position

def PackLeaves (parts : List P) (s : Parser P V) (r : Option (List V) × Parser P V) : Prop :=
  (∀ q ∈ parts, A.member q) → Forward G I A s.cache → Forward G I A r.2.cache ∧
    (r.1 = none → r.2.position = s.position) ∧ ∀ vs, r.1 = some vs → PackMoves I A parts s.position r.2.position

def AllMoves (parts : List P) (s : Parser P V) (r : Option (List V) × Parser P V) : Prop :=
  (∀ q ∈ parts, A.member q) → Forward G I A s.cache → Forward G I A r.2.cache ∧
    ∀ vs, r.1 = some vs → PackMoves I A parts s.position r.2.position

def HeadMoves (p : P) (s : Parser P V) (r : Option V × Parser P V) : Prop :=
  A.member p → Forward G I A s.cache → Forward G I A r.2.cache ∧ ∀ v, r.1 = some v → Moves I A p s.position r.2.position

def RepeatedMoves (parts : List P) (s : Parser P V) (r : List V × Parser P V) : Prop :=
  (∀ q ∈ parts, A.member q) → Forward G I A s.cache → Forward G I A r.2.cache ∧ s.position ≤ r.2.position ∧
    ∀ p, A.Heads p parts → s.position < r.2.position → ∀ t, I.peekToken s.position = some t → t.tokenType ∈ A.starts p

def OneOfMoves (as : List (List P × (List V → Nat → Nat → Option V))) (s : Parser P V) (r : Option V × Parser P V) :
    Prop :=
  ∀ p, A.member p → (∀ a ∈ as, ∀ q ∈ a.1, A.member q) →
    (∀ a ∈ as, (G.leftRecursive p = true ∧ ∃ tail, a.1 = p :: tail) ∨ A.Heads p a.1) →
    (A.consumes p = true → ∀ a ∈ as, A.Consuming a.1) → Forward G I A s.cache → Forward G I A r.2.cache ∧
    ∀ v, r.1 = some v → Moves I A p s.position r.2.position

end

variable {G : Grammar P V} {I : Input} {A : Analysis P} {s s' : Parser P V} {p : P} {parts : List P} {i j e : Nat}

/-! ## The table -/

theorem Forward.store (h : Forward G I A s.cache) (k : Key P) {value : CacheValue V} (hvalue : ∀ v j, value ≠ .result v j) :
    Forward G I A (s.store k value).cache := by
  intro q i t v j hq hmemo ht hentry
  by_cases hk : key q t = k
  · have hself : (s.store k value).cache k = some value := Function.update_self ..
    rw [hk, hself] at hentry
    exact absurd (Option.some.inj hentry) (hvalue v j)
  · exact h q i t v j hq hmemo ht ((Function.update_of_ne hk _ _).symm.trans hentry)

theorem Forward.stored (ha : Apart G I A) (h : Forward G I A s.cache) (hp : A.member p) (hmemo : G.memoized p = true)
    {t : Token} (ht : I.peekToken i = some t) {v : V} (hlt : i < j + (G.body p).advanceBy)
    (hstarts : t.tokenType ∈ A.starts p) : Forward G I A (s.store (key p t) (.result v j)).cache := by
  intro q e u w l hq hmemoq hu hentry
  by_cases hk : key q u = key p t
  · have hself : (s.store (key p t) (.result v j)).cache (key p t) = some (.result v j) := Function.update_self ..
    rw [hk, hself] at hentry
    cases hentry
    obtain ⟨rfl, htoken⟩ := Prod.mk.inj hk
    obtain ⟨hpointer, htype⟩ := Prod.mk.inj htoken
    -- tokens that share the key start no pattern of the table
    rcases Nat.lt_trichotomy e i with hlt' | rfl | hlt'
    · exact absurd (htype ▸ hstarts) (ha e i u t hlt' hu ht hpointer.symm htype.symm q hq hmemo)
    · exact ⟨hlt, htype ▸ hstarts⟩
    · exact absurd hstarts (ha i e t u hlt' ht hu hpointer htype q hq hmemo)
  · exact h q e u w l hq hmemoq hu ((Function.update_of_ne hk _ _).symm.trans hentry)

/-! ## Packs -/

omit [DecidableEq P] in
theorem PackMoves.nil : PackMoves I A [] i i where
  le := Nat.le_refl i
  consumes := fun h => by
    obtain ⟨q, hq, -⟩ := h
    cases hq
  first := nofun
  starts := fun _ _ hlt => absurd hlt (Nat.lt_irrefl i)

omit [DecidableEq P] in
theorem PackMoves.cons {q : P} {qs : List P} (h : Moves I A q i j) (hs : PackMoves I A qs j e) :
    PackMoves I A (q :: qs) i e where
  le := Nat.le_trans h.le hs.le
  consumes := fun hc => by
    obtain ⟨r, hr, hconsumes⟩ := hc
    rcases List.mem_cons.mp hr with rfl | hr
    · exact Nat.lt_of_lt_of_le (h.consumes hconsumes) hs.le
    · exact Nat.lt_of_le_of_lt h.le (hs.consumes ⟨r, hr, hconsumes⟩)
  first := fun r rs heq => by
    obtain ⟨rfl, rfl⟩ := List.cons.inj heq
    exact ⟨j, h, hs.le⟩
  starts := fun p hheads hlt t ht => by
    obtain ⟨hbelow, hrest⟩ := hheads
    rcases Nat.lt_or_eq_of_le h.le with hij | rfl
    · exact hbelow.2 (h.starts hij t ht)
    · have hheads := hrest.resolve_left fun hc => Nat.lt_irrefl _ (h.consumes hc)
      exact hs.starts p hheads hlt t ht

omit [DecidableEq P] in
theorem Moves.still (h : A.consumes p = false) : Moves I A p i i where
  le := Nat.le_refl i
  consumes := fun hc => absurd (h.symm.trans hc) nofun
  starts := fun hlt => absurd hlt (Nat.lt_irrefl i)

/-! ## Each run, from the runs it makes -/

section
variable {runMatches : P → Parser P V → Option (Option V × Parser P V)}
  {runGrow : P → Key P → Nat → Parser P V → Option (Option V × Parser P V)}
  {runBody : Body P V → Parser P V → Option (Option V × Parser P V)}
  {runInBetween : P → P → Parser P V → Option (Option (List V) × Parser P V)}
  {runPack runAll : List P → Parser P V → Option (Option (List V) × Parser P V)}
  {runHead : P → Parser P V → Option (Option V × Parser P V)}
  {runRepeated : List P → Parser P V → Option (List V × Parser P V)}
  {runOneOf : List (List P × (List V → Nat → Nat → Option V)) → Parser P V → Option (Option V × Parser P V)}

omit [DecidableEq P] in
theorem allMoves (hall : ∀ parts s r, runAll parts s = some r → AllMoves G I A parts s r)
    (hhead : ∀ p s r, runHead p s = some r → HeadMoves G I A p s r) (parts : List P) (s : Parser P V)
    (r : Option (List V) × Parser P V)
    (h : (match parts with
      | [] => some (some [], s)
      | p :: ps => do
        let (r, s) ← runHead p s
        match r with
        | none => some (none, s)
        | some v =>
          let (rs, s) ← runAll ps s
          some (rs.map (v :: ·), s)) = some r) : AllMoves G I A parts s r := by
  intro hparts hs
  cases parts with
  | nil =>
    cases h
    exact ⟨hs, fun _ _ => .nil⟩
  | cons p ps =>
    obtain ⟨hp, hps⟩ := List.forall_mem_cons.mp hparts
    obtain ⟨⟨first, s₁⟩, hfirst, h⟩ := Option.bind_eq_some_iff.mp h
    obtain ⟨hs₁, hmoves⟩ := hhead p s _ hfirst hp hs
    cases first with
    | none =>
      cases h
      exact ⟨hs₁, nofun⟩
    | some v =>
      obtain ⟨⟨rest, s₂⟩, hrest, h⟩ := Option.bind_eq_some_iff.mp h
      cases h
      obtain ⟨hs₂, hmoves₂⟩ := hall ps s₁ _ hrest hps hs₁
      refine ⟨hs₂, fun vs hvs => ?_⟩
      obtain ⟨ws, hws, -⟩ := Option.map_eq_some_iff.mp hvs
      exact .cons (hmoves v rfl) (hmoves₂ ws hws)

omit [DecidableEq P] in
theorem packLeaves (hall : ∀ parts s r, runAll parts s = some r → AllMoves G I A parts s r) (parts : List P)
    (s : Parser P V) (r : Option (List V) × Parser P V)
    (h : (do
      let (r, s') ← runAll parts s
      match r with
      | some vs => some (some vs, s')
      | none => some (none, s'.at s.position)) = some r) : PackLeaves G I A parts s r := by
  intro hparts hs
  obtain ⟨⟨all, s₁⟩, hrun, h⟩ := Option.bind_eq_some_iff.mp h
  obtain ⟨hs₁, hmoves⟩ := hall parts s _ hrun hparts hs
  cases all with
  | none =>
    cases h
    exact ⟨hs₁, fun _ => rfl, nofun⟩
  | some vs =>
    cases h
    exact ⟨hs₁, nofun, hmoves⟩

omit [DecidableEq P] in
theorem repeatedMoves (hpack : ∀ parts s r, runPack parts s = some r → PackLeaves G I A parts s r)
    (hrepeated : ∀ parts s r, runRepeated parts s = some r → RepeatedMoves G I A parts s r) (parts : List P)
    (s : Parser P V) (r : List V × Parser P V)
    (h : (do
      let (r, s) ← runPack parts s
      match r with
      | none => some ([], s)
      | some vs =>
        let (rest, s) ← runRepeated parts s
        some (G.pack vs :: rest, s)) = some r) : RepeatedMoves G I A parts s r := by
  intro hparts hs
  obtain ⟨⟨first, s₁⟩, hrun, h⟩ := Option.bind_eq_some_iff.mp h
  obtain ⟨hs₁, hstays, hmoves⟩ := hpack parts s _ hrun hparts hs
  cases first with
  | none =>
    cases h
    have hstays : s₁.position = s.position := hstays rfl
    exact ⟨hs₁, Nat.le_of_eq hstays.symm, fun _ _ hlt => absurd hlt (by rw [hstays]; exact Nat.lt_irrefl _)⟩
  | some vs =>
    obtain ⟨⟨rest, s₂⟩, hrest, h⟩ := Option.bind_eq_some_iff.mp h
    cases h
    have hfirst := hmoves vs rfl
    obtain ⟨hs₂, hle, hstarts⟩ := hrepeated parts s₁ _ hrest hparts hs₁
    refine ⟨hs₂, Nat.le_trans hfirst.le hle, fun p hheads hlt t ht => ?_⟩
    rcases Nat.lt_or_eq_of_le hfirst.le with hbeyond | hsame
    · exact hfirst.starts p hheads hbeyond t ht
    · have hlt : s.position < s₂.position := hlt
      exact hstarts p hheads (hsame ▸ hlt) t (hsame ▸ ht)

omit [DecidableEq P] in
theorem inBetweenMoves (hpack : ∀ parts s r, runPack parts s = some r → PackLeaves G I A parts s r)
    (hinBetween : ∀ main between s r, runInBetween main between s = some r → InBetweenMoves G I A main between s r)
    (main between : P) (s : Parser P V) (r : Option (List V) × Parser P V)
    (h : (do
      let (r, s) ← runPack [main] s
      match r with
      | none => some (none, s)
      | some vs =>
        let (b, s') ← runPack [between] s
        match b with
        | none => some (some vs, s')
        | some _ =>
          let (rest, s') ← runInBetween main between s'
          match rest with
          | some ws => some (some (vs ++ ws), s')
          | none => some (some vs, s'.at s.position)) = some r) : InBetweenMoves G I A main between s r := by
  intro hmain hbetween hconsumes hs
  have hone {q : P} (hq : A.member q) : ∀ q' ∈ [q], A.member q' := fun q' hq' => List.mem_singleton.mp hq' ▸ hq
  obtain ⟨⟨first, s₁⟩, hrun, h⟩ := Option.bind_eq_some_iff.mp h
  obtain ⟨hs₁, -, hmoves⟩ := hpack [main] s _ hrun (hone hmain) hs
  cases first with
  | none =>
    cases h
    exact ⟨hs₁, nofun⟩
  | some vs =>
    have hpackMoves := hmoves vs rfl
    obtain ⟨m, hfirst, hm⟩ := hpackMoves.first main [] rfl
    have hlt := Nat.lt_of_lt_of_le (hfirst.consumes hconsumes) hm
    have hmove {e : Nat} (he : s₁.position ≤ e) : Moves I A main s.position e :=
      { le := Nat.le_trans hpackMoves.le he
        consumes := fun _ => Nat.lt_of_lt_of_le hlt he
        starts := fun _ => hfirst.starts (hfirst.consumes hconsumes) }
    obtain ⟨⟨second, s₂⟩, hrun₂, h⟩ := Option.bind_eq_some_iff.mp h
    obtain ⟨hs₂, hstays, hmoves₂⟩ := hpack [between] s₁ _ hrun₂ (hone hbetween) hs₁
    cases second with
    | none =>
      cases h
      exact ⟨hs₂, fun _ _ => hmove (Nat.le_of_eq (hstays rfl).symm)⟩
    | some bs =>
      obtain ⟨⟨rest, s₃⟩, hrun₃, h⟩ := Option.bind_eq_some_iff.mp h
      obtain ⟨hs₃, hmoves₃⟩ := hinBetween main between s₂ _ hrun₃ hmain hbetween hconsumes hs₂
      cases rest with
      | none =>
        cases h
        exact ⟨hs₃, fun _ _ => hmove (Nat.le_refl _)⟩
      | some ws =>
        cases h
        exact ⟨hs₃, fun _ _ => hmove (Nat.le_trans (hmoves₂ bs rfl).le (hmoves₃ ws rfl).le)⟩

theorem oneOfMoves (hw : A.WellFormed G) (hpack : ∀ parts s r, runPack parts s = some r → PackLeaves G I A parts s r)
    (honeOf : ∀ as s r, runOneOf as s = some r → OneOfMoves G I A as s r)
    (as : List (List P × (List V → Nat → Nat → Option V))) (s : Parser P V) (r : Option V × Parser P V)
    (h : (match as with
      | [] => some (none, s)
      | (parts, act) :: as => do
        let (r, s') ← runPack parts s
        match r with
        | some vs => some (act vs s.position s'.position, s')
        | none => runOneOf as s') = some r) : OneOfMoves G I A as s r := by
  intro p hp hmember hheads hconsuming hs
  cases as with
  | nil =>
    cases h
    exact ⟨hs, nofun⟩
  | cons a as =>
    obtain ⟨parts, act⟩ := a
    obtain ⟨hparts, hmember⟩ := List.forall_mem_cons.mp hmember
    obtain ⟨hhead, hheads⟩ := List.forall_mem_cons.mp hheads
    obtain ⟨⟨first, s₁⟩, hrun, h⟩ := Option.bind_eq_some_iff.mp h
    obtain ⟨hs₁, hstays, hmoves⟩ := hpack parts s _ hrun hparts hs
    cases first with
    | none =>
      have hstays : s₁.position = s.position := hstays rfl
      have hrest := honeOf as s₁ _ h p hp hmember hheads
        (fun hc a ha => hconsuming hc a (List.mem_cons_of_mem _ ha)) hs₁
      rw [hstays] at hrest
      exact hrest
    | some vs =>
      cases h
      have hpackMoves := hmoves vs rfl
      refine ⟨hs₁, fun v _ => ?_⟩
      refine { le := hpackMoves.le, consumes := fun hc => hpackMoves.consumes (hconsuming hc _ List.mem_cons_self), starts := ?_ }
      intro hlt t ht
      rcases hhead with ⟨hleft, tail, rfl⟩ | hhead
      · -- the pattern itself stands first
        obtain ⟨m, hfirst, -⟩ := hpackMoves.first p tail rfl
        exact hfirst.starts (hfirst.consumes (hw.memoized p hp (hw.leftRecursive p hp hleft))) t ht
      · exact hpackMoves.starts p hhead hlt t ht

/-- A token that is answered is there. -/
theorem singleTokenAt_ends {types : List TokenType} {t : Token} (h : singleTokenAt I types i = some (some (t, j))) :
    i ≤ j ∧ ∀ u, I.peekToken i = some u → u.tokenType ∈ types := by
  cases hu : I.peekToken i with
  | none =>
    cases types with
    | nil => cases h
    | cons type types =>
      unfold singleTokenAt singleToken at h
      rw [hu] at h
      cases h
  | some u =>
    obtain ⟨o, ho, hends⟩ := singleTokenAt_total types hu
    obtain ⟨hle, htype, -⟩ := hends t j (Option.some.inj (ho.symm.trans h))
    exact ⟨hle, fun u' hu' => Option.some.inj hu' ▸ htype⟩

theorem andLiteralAt_ends {types : List TokenType} {literal : List Char → Bool} {t : Token}
    (h : andLiteralAt I types literal i = some (some (t, j))) :
    i ≤ j ∧ ∀ u, I.peekToken i = some u → u.tokenType ∈ types := by
  obtain ⟨o, ho, h⟩ := Option.bind_eq_some_iff.mp h
  cases o with
  | none => cases h
  | some o =>
    obtain ⟨token, -, h⟩ := Option.bind_eq_some_iff.mp h
    split at h
    next =>
      cases h
      exact singleTokenAt_ends ho
    next => cases h

omit [DecidableEq P] in
/-- A match of a token. -/
theorem Moves.token {types : List TokenType} (hstarts : types ⊆ A.starts p)
    (h : i ≤ j ∧ ∀ u, I.peekToken i = some u → u.tokenType ∈ types) : Moves I A p i (j + 1) where
  le := Nat.le_succ_of_le h.1
  consumes := fun _ => Nat.lt_succ_of_le h.1
  starts := fun _ u hu => hstarts (h.2 u hu)

theorem oneOrMoreMoves (hw : A.WellFormed G) (hpack : ∀ parts s r, runPack parts s = some r → PackLeaves G I A parts s r)
    (hrepeated : ∀ parts s r, runRepeated parts s = some r → RepeatedMoves G I A parts s r) (parts : List P)
    (s : Parser P V) (r : Option V × Parser P V)
    (h : (do
      let (r, s) ← runPack parts s
      match r with
      | none => some (none, s)
      | some vs =>
        let (rest, s) ← runRepeated parts s
        some (some (G.vector (G.pack vs :: rest)), s)) = some r) : BodyMoves G I A (.oneOrMore parts) s r := by
  intro p hbody hp hs
  have hok := hw.body p hp
  rw [hbody] at hok
  obtain ⟨hmember, hheads, hconsuming⟩ := hok
  obtain ⟨⟨first, s₁⟩, hrun, h⟩ := Option.bind_eq_some_iff.mp h
  obtain ⟨hs₁, -, hmoves⟩ := hpack parts s _ hrun hmember hs
  cases first with
  | none =>
    cases h
    exact ⟨hs₁, nofun⟩
  | some vs =>
    obtain ⟨⟨rest, s₂⟩, hrest, h⟩ := Option.bind_eq_some_iff.mp h
    cases h
    have hfirst := hmoves vs rfl
    have hlt := hfirst.consumes hconsuming
    obtain ⟨hs₂, hle, -⟩ := hrepeated parts s₁ _ hrest hmember hs₁
    refine ⟨hs₂, fun _ _ => { le := Nat.le_trans hfirst.le hle, consumes := fun _ => Nat.lt_of_lt_of_le hlt hle, starts := ?_ }⟩
    exact fun _ => hfirst.starts p hheads hlt

theorem zeroOrOneMoves (hw : A.WellFormed G) (hpack : ∀ parts s r, runPack parts s = some r → PackLeaves G I A parts s r)
    (parts : List P) (s : Parser P V) (r : Option V × Parser P V)
    (h : (do
      let (r, s) ← runPack parts s
      some (some (G.optional (r.map G.pack)), s)) = some r) : BodyMoves G I A (.zeroOrOne parts) s r := by
  intro p hbody hp hs
  have hok := hw.body p hp
  rw [hbody] at hok
  obtain ⟨hmember, hheads, hnot⟩ := hok
  obtain ⟨⟨first, s₁⟩, hrun, h⟩ := Option.bind_eq_some_iff.mp h
  cases h
  obtain ⟨hs₁, hstays, hmoves⟩ := hpack parts s _ hrun hmember hs
  refine ⟨hs₁, fun _ _ => ?_⟩
  cases first with
  | none =>
    have hstays : s₁.position = s.position := hstays rfl
    show Moves I A p s.position s₁.position
    rw [hstays]
    exact .still hnot
  | some vs =>
    have hfirst := hmoves vs rfl
    exact { le := hfirst.le, consumes := fun hc => absurd (hnot.symm.trans hc) nofun, starts := hfirst.starts p hheads }

theorem bodyMoves (hw : A.WellFormed G) (hmatches : ∀ p s r, runMatches p s = some r → MatchesMoves G I A p s r)
    (hinBetween : ∀ main between s r, runInBetween main between s = some r → InBetweenMoves G I A main between s r)
    (hpack : ∀ parts s r, runPack parts s = some r → PackLeaves G I A parts s r)
    (hrepeated : ∀ parts s r, runRepeated parts s = some r → RepeatedMoves G I A parts s r)
    (honeOf : ∀ as s r, runOneOf as s = some r → OneOfMoves G I A as s r) (body : Body P V) (s : Parser P V)
    (r : Option V × Parser P V)
    (h : (match body with
      | .singleToken types => do
        match ← singleTokenAt I types s.position with
        | none => some (none, s)
        | some (t, i) => some (some (G.token t), s.at i)
      | .andLiteral types literal => do
        match ← andLiteralAt I types literal s.position with
        | none => some (none, s)
        | some (t, i) => some (some (G.token t), s.at i)
      | .notAt literals => do
        let t ← I.peekToken s.position
        some (if literals (I.text t) then none else some G.monostate, s)
      | .alternatives as => runOneOf as s
      | .oneOrMore parts => do
        let (r, s) ← runPack parts s
        match r with
        | none => some (none, s)
        | some vs =>
          let (rest, s) ← runRepeated parts s
          some (some (G.vector (G.pack vs :: rest)), s)
      | .zeroOrMore parts => do
        let (vs, s) ← runRepeated parts s
        some (some (G.vector vs), s)
      | .zeroOrOne parts => do
        let (r, s) ← runPack parts s
        some (some (G.optional (r.map G.pack)), s)
      | .applyInBetween main between => do
        let (r, s) ← runInBetween main between s
        some (r.map G.vector, s)
      | .lookAhead p => do
        let (r, s') ← runMatches p s
        some (if r.isSome then some G.monostate else none, s'.at s.position)
      | .negativeLookAhead p => do
        let (r, s') ← runMatches p s
        some (if r.isSome then none else some G.monostate, s'.at s.position)) = some r) : BodyMoves G I A body s r := by
  intro p hbody hp hs
  have hok := hw.body p hp
  rw [hbody] at hok
  cases body with
  | singleToken types =>
    obtain ⟨o, ho, h⟩ := Option.bind_eq_some_iff.mp h
    cases o with
    | none =>
      cases h
      exact ⟨hs, nofun⟩
    | some o =>
      cases h
      exact ⟨hs, fun _ _ => .token hok (singleTokenAt_ends ho)⟩
  | andLiteral types literal =>
    obtain ⟨o, ho, h⟩ := Option.bind_eq_some_iff.mp h
    cases o with
    | none =>
      cases h
      exact ⟨hs, nofun⟩
    | some o =>
      cases h
      exact ⟨hs, fun _ _ => .token hok (andLiteralAt_ends ho)⟩
  | notAt literals =>
    obtain ⟨t, -, h⟩ := Option.bind_eq_some_iff.mp h
    cases h
    exact ⟨hs, fun _ _ => .still hok⟩
  | alternatives as =>
    obtain ⟨hmember, hheads, hconsuming⟩ := hok
    exact honeOf as s r h p hp hmember hheads hconsuming hs
  | oneOrMore parts => exact oneOrMoreMoves hw hpack hrepeated parts s r h p hbody hp hs
  | zeroOrMore parts =>
    obtain ⟨hmember, hheads, -, hnot⟩ := hok
    obtain ⟨⟨vs, s₁⟩, hrun, h⟩ := Option.bind_eq_some_iff.mp h
    cases h
    obtain ⟨hs₁, hle, hstarts⟩ := hrepeated parts s _ hrun hmember hs
    exact ⟨hs₁, fun _ _ => { le := hle, consumes := fun hc => absurd (hnot.symm.trans hc) nofun, starts := hstarts p hheads }⟩
  | zeroOrOne parts => exact zeroOrOneMoves hw hpack parts s r h p hbody hp hs
  | applyInBetween main between =>
    obtain ⟨hmain, hbetween, hbelow, hconsumes⟩ := hok
    obtain ⟨⟨first, s₁⟩, hrun, h⟩ := Option.bind_eq_some_iff.mp h
    cases h
    obtain ⟨hs₁, hmoves⟩ := hinBetween main between s _ hrun hmain hbetween hconsumes hs
    refine ⟨hs₁, fun v hv => ?_⟩
    obtain ⟨vs, hvs, -⟩ := Option.map_eq_some_iff.mp hv
    have hmain := hmoves vs hvs
    exact { le := hmain.le, consumes := fun _ => hmain.consumes hconsumes, starts := fun hlt t ht => hbelow.2 (hmain.starts hlt t ht) }
  | lookAhead q =>
    obtain ⟨⟨o, s₁⟩, hrun, h⟩ := Option.bind_eq_some_iff.mp h
    cases h
    exact ⟨(hmatches q s _ hrun hok.1 hs).1, fun _ _ => .still hok.2.2.2⟩
  | negativeLookAhead q =>
    obtain ⟨⟨o, s₁⟩, hrun, h⟩ := Option.bind_eq_some_iff.mp h
    cases h
    exact ⟨(hmatches q s _ hrun hok.1 hs).1, fun _ _ => .still hok.2.2.2⟩

theorem growMoves (hw : A.WellFormed G) (ha : Apart G I A)
    (hgrow : ∀ p k start s r, runGrow p k start s = some r → GrowMoves G I A p k start s r)
    (hbody : ∀ body s r, runBody body s = some r → BodyMoves G I A body s r) (p : P) (k : Key P) (start : Nat)
    (s : Parser P V) (r : Option V × Parser P V)
    (h : (do
      let (r, s) ← runBody (G.body p) (s.at start)
      let entry ← s.cache k
      let position ← entry.position?
      match r with
      | none => some (entry.stop position s)
      | some v =>
        if s.position ≤ position then some (entry.stop position s)
        else runGrow p k start (s.store k (.result v s.position))) = some r) : GrowMoves G I A p k start s r := by
  intro hp hmemo hk hs
  obtain ⟨t, ht, rfl⟩ := hk
  obtain ⟨⟨o, s₁⟩, hrun, h⟩ := Option.bind_eq_some_iff.mp h
  obtain ⟨entry, hentry, h⟩ := Option.bind_eq_some_iff.mp h
  obtain ⟨position, hposition, h⟩ := Option.bind_eq_some_iff.mp h
  obtain ⟨hs₁, hmoves⟩ := hbody _ _ _ hrun p rfl hp hs
  -- where it stops, the entry is what a match has left
  have hstop : Forward G I A (entry.stop position s₁).2.cache ∧ ∀ v, (entry.stop position s₁).1 = some v →
      Moves I A p start ((entry.stop position s₁).2.position + (G.body p).advanceBy) := by
    refine ⟨hs₁, fun v hv => ?_⟩
    cases entry with
    | failure => cases hposition
    | seed leftRecursion position => cases hv
    | result w position' =>
      cases hposition
      obtain ⟨hlt, hstarts⟩ := hs₁ p start t w _ hp hmemo ht hentry
      exact { le := Nat.le_of_lt hlt, consumes := fun _ => hlt, starts := fun _ u hu => Option.some.inj (ht.symm.trans hu) ▸ hstarts }
  cases o with
  | none =>
    cases h
    exact hstop
  | some v =>
    dsimp only at h
    split at h
    next =>
      cases h
      exact hstop
    next =>
      have hmove := hmoves v rfl
      have hlt := hmove.consumes (hw.memoized p hp hmemo)
      exact hgrow p (key p t) start _ _ h hp hmemo ⟨t, ht, rfl⟩ (hs₁.stored ha hp hmemo ht hlt (hmove.starts hlt t ht))

theorem matchesMoves (hgrow : ∀ p k start s r, runGrow p k start s = some r → GrowMoves G I A p k start s r)
    (hbody : ∀ body s r, runBody body s = some r → BodyMoves G I A body s r) (p : P) (s : Parser P V)
    (r : Option V × Parser P V)
    (h : (if G.memoized p then do
      let t ← I.peekToken s.position
      let (r, s') ← runBody (G.body p) (s.store (key p t) (.seed false s.position))
      match r with
      | none => some (none, s'.at s.position)
      | some v =>
        match ← s'.cache (key p t) with
        | .failure => none
        | .seed true _ => runGrow p (key p t) s.position s'
        | _ => some (some v, s')
    else do
      let (r, s') ← runBody (G.body p) s
      match r with
      | none => some (none, s'.at s.position)
      | some v => some (some v, s')) = some r) : MatchesMoves G I A p s r := by
  intro hp hs
  split at h
  next hmemo =>
    obtain ⟨t, ht, h⟩ := Option.bind_eq_some_iff.mp h
    obtain ⟨⟨o, s₁⟩, hrun, h⟩ := Option.bind_eq_some_iff.mp h
    have hseeded : Forward G I A (s.store (key p t) (.seed false s.position)).cache := hs.store _ nofun
    obtain ⟨hs₁, hmoves⟩ := hbody _ _ _ hrun p rfl hp hseeded
    cases o with
    | none =>
      cases h
      exact ⟨hs₁, nofun⟩
    | some v =>
      obtain ⟨entry, hentry, h⟩ := Option.bind_eq_some_iff.mp h
      split at h
      next => cases h
      next => exact hgrow p (key p t) s.position s₁ _ h hp hmemo ⟨t, ht, rfl⟩ hs₁
      next =>
        cases h
        exact ⟨hs₁, fun _ _ => hmoves v rfl⟩
  next =>
    obtain ⟨⟨o, s₁⟩, hrun, h⟩ := Option.bind_eq_some_iff.mp h
    obtain ⟨hs₁, hmoves⟩ := hbody _ _ _ hrun p rfl hp hs
    cases o with
    | none =>
      cases h
      exact ⟨hs₁, nofun⟩
    | some v =>
      cases h
      exact ⟨hs₁, fun _ _ => hmoves v rfl⟩

theorem headMoves (hw : A.WellFormed G) (ha : Apart G I A)
    (hmatches : ∀ p s r, runMatches p s = some r → MatchesMoves G I A p s r) (p : P) (s : Parser P V)
    (r : Option V × Parser P V)
    (h : (match I.peekToken s.position with
      | none => some (none, s)
      | some t =>
        match if G.memoized p then s.cache (key p t) else none with
        | some .failure => some (none, s)
        | some (.seed _ position) => some (none, (s.store (key p t) (.seed true position)).at position)
        | some (.result v position) => some (some v, s.at (position + (G.body p).advanceBy))
        | none => do
          let (r, s') ← runMatches p s
          match r with
          | some v =>
            let s' := if G.memoized p then s'.store (key p t) (.result v s'.position) else s'
            some (some v, s'.at (s'.position + (G.body p).advanceBy))
          | none =>
            let s' := if G.memoized p then s'.store (key p t) .failure else s'
            some (none, s'.at s.position)) = some r) : HeadMoves G I A p s r := by
  intro hp hs
  cases ht : I.peekToken s.position with
  | none =>
    rw [ht] at h
    cases h
    exact ⟨hs, fun _ h => by cases h⟩
  | some t =>
    rw [ht] at h
    dsimp only at h
    split at h
    next =>
      cases h
      exact ⟨hs, fun _ h => by cases h⟩
    next =>
      cases h
      exact ⟨hs.store _ (fun _ _ h => by cases h), fun _ h => by cases h⟩
    next v position hentry =>
      cases h
      refine ⟨hs, fun _ _ => ?_⟩
      split at hentry
      next hmemo =>
        obtain ⟨hlt, hstarts⟩ := hs p s.position t v position hp hmemo ht hentry
        exact { le := Nat.le_of_lt hlt, consumes := fun _ => hlt, starts := fun _ u hu => Option.some.inj (ht.symm.trans hu) ▸ hstarts }
      next => cases hentry
    next =>
      obtain ⟨⟨o, s₁⟩, hrun, h⟩ := Option.bind_eq_some_iff.mp h
      obtain ⟨hs₁, hmoves⟩ := hmatches p s _ hrun hp hs
      cases o with
      | none =>
        cases h
        refine ⟨?_, fun _ h => by cases h⟩
        show Forward G I A (if G.memoized p = true then s₁.store (key p t) .failure else s₁).cache
        split
        next => exact hs₁.store _ fun _ _ h => by cases h
        next => exact hs₁
      | some v =>
        cases h
        have hmove := hmoves v rfl
        by_cases hmemo : G.memoized p = true
        · rw [if_pos hmemo]
          have hlt := hmove.consumes (hw.memoized p hp hmemo)
          exact ⟨hs₁.stored ha hp hmemo ht hlt (hmove.starts hlt t ht), fun _ _ => hmove⟩
        · rw [if_neg hmemo]
          exact ⟨hs₁, fun _ _ => hmove⟩

end

/-! ## Every run -/

/-- Every run, in whatever state the table is, leads forward. -/
structure RunsMove (G : Grammar P V) (I : Input) (A : Analysis P) : Prop where
  body : ∀ body s r, matchesImpl G I body s = some r → BodyMoves G I A body s r
  pack : ∀ parts s r, matchPack G I parts s = some r → PackLeaves G I A parts s r
  head : ∀ p s r, matchHead G I p s = some r → HeadMoves G I A p s r

theorem runs_move (hw : A.WellFormed G) (ha : Apart G I A) : RunsMove G I A := by
  obtain ⟨-, hpack, -, hhead, -, -, hbody, -, -⟩ := _inBetween.mutual_partial_correctness G I (InBetweenMoves G I A)
    (PackLeaves G I A) (AllMoves G I A) (HeadMoves G I A) (MatchesMoves G I A) (GrowMoves G I A) (BodyMoves G I A)
    (RepeatedMoves G I A) (OneOfMoves G I A)
    (fun _ _ hinBetween hpack => inBetweenMoves hpack hinBetween) (fun _ hall => packLeaves hall)
    (fun _ _ hall hhead => allMoves hall hhead) (fun _ hmatches => headMoves hw ha hmatches)
    (fun _ _ hgrow hbody => matchesMoves hgrow hbody) (fun _ _ hgrow hbody => growMoves hw ha hgrow hbody)
    (fun _ _ _ _ _ hinBetween hpack hmatches hrepeated honeOf => bodyMoves hw hmatches hinBetween hpack hrepeated honeOf)
    (fun _ _ hpack hrepeated => repeatedMoves hpack hrepeated) (fun _ _ hpack honeOf => oneOfMoves hw hpack honeOf)
  exact ⟨hbody, hpack, hhead⟩

end Pylang.Parse
