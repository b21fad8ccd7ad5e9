/-
The table changes nothing. While patterns are in progress their entries are
seeds or growths; every other entry is what the pattern gives without a table,
at every token its key stands for. A run of the engine keeps this, leaves the
entries in progress as they are, and answers what the pattern gives.
-/
import Pylang.Parser.WellFormed

namespace Pylang.Parse

open Pylang.Lex (TokenType Token)

variable {P V : Type} [DecidableEq P] {G : Grammar P V} {I : Input} {A : Analysis P}

/-! ## The table -/

/-- Only tokens that start no pattern of the table have start and type in common with a later one. -/
def Apart (G : Grammar P V) (I : Input) (A : Analysis P) : Prop :=
  ∀ i j t u, i < j → I.peekToken i = some t → I.peekToken j = some u →
    u.start.pointer = t.start.pointer → u.tokenType = t.tokenType → ∀ q,
      A.member q → G.memoized q = true → t.tokenType ∉ A.starts q

/-- An entry is what the pattern gives. -/
inductive EntryOk (G : Grammar P V) (I : Input) (q : P) (i : Nat) : Option (CacheValue V) → Prop
  | absent : EntryOk G I q i none
  | failure : parse G I q i = some none → EntryOk G I q i (some .failure)
  | result {v : V} {j : Nat} : parse G I q i = some (some (v, j)) → EntryOk G I q i (some (.result v j))

/-- The entries but those in progress. -/
def Correct (G : Grammar P V) (I : Input) (C : Key P → Prop) (cache : Key P → Option (CacheValue V)) : Prop :=
  ∀ q i t, I.peekToken i = some t → G.memoized q = true → ¬C (key q t) → EntryOk G I q i (cache (key q t))

/-- What a run leaves: its answer and position, the table right but for `C`, and the entries of `F` untouched. -/
structure Goes {α : Type} (G : Grammar P V) (I : Input) (C F : Key P → Prop) (s s' : Parser P V) (r : Option α)
    (o : Option (α × Nat)) : Prop where
  answer : r = o.map Prod.fst
  position : ∀ a j, o = some (a, j) → s'.position = j
  correct : Correct G I C s'.cache
  frame : ∀ k, F k → s'.cache k = s.cache k

/-- One that fails is also back where it began. -/
structure Returns {α : Type} (G : Grammar P V) (I : Input) (C F : Key P → Prop) (s s' : Parser P V) (r : Option α)
    (o : Option (α × Nat)) : Prop extends Goes G I C F s s' r o where
  stays : o = none → s'.position = s.position

theorem Goes.failed {α : Type} {C F : Key P → Prop} {s s' : Parser P V} (hc : Correct G I C s'.cache)
    (hframe : ∀ k, F k → s'.cache k = s.cache k) : Goes G I C F s s' (none : Option α) none :=
  ⟨rfl, nofun, hc, hframe⟩

theorem Goes.ended {α : Type} {C F : Key P → Prop} {s s' : Parser P V} {a : α} {j : Nat} (hpos : s'.position = j)
    (hc : Correct G I C s'.cache) (hframe : ∀ k, F k → s'.cache k = s.cache k) :
    Goes G I C F s s' (some a) (some (a, j)) :=
  ⟨rfl, fun _ _ h => by cases h; exact hpos, hc, hframe⟩

theorem Goes.back {α : Type} {C F : Key P → Prop} {s s' : Parser P V} {r : Option α} {o : Option (α × Nat)}
    (h : Goes G I C F s s' r o) (ho : o = none) : Returns G I C F s (s'.at s.position) r o :=
  ⟨⟨h.answer, fun a j hj => (by cases ho.symm.trans hj), h.correct, h.frame⟩, fun _ => rfl⟩

/-! ## What a pattern runs -/

/-- What stands at the start of `p` at a token, or beyond it, is matched right through the table. -/
structure Ready (G : Grammar P V) (I : Input) (A : Analysis P) (C : Key P → Prop) (p : P) (i : Nat)
    (t : Token) : Prop where
  head : ∀ q e u, A.member q → I.peekToken e = some u → e = i ∧ A.Below p q ∨ i < e ∧ t.tokenType ∈ A.starts p →
    ∀ s : Parser P V, s.position = e → Correct G I C s.cache → ∃ r s' o, matchHead G I q s = some (r, s') ∧
      parse G I q e = some o ∧ Returns G I C C s s' r (found (G.body q).advanceBy o)
  looked : ∀ q, A.member q → A.Below p q → G.memoized q = false → ∀ s : Parser P V,
    s.position = i → Correct G I C s.cache →
    ∃ r s' o, «matches» G I q s = some (r, s') ∧ parse G I q i = some o ∧ Returns G I C C s s' r o

section Body

variable {C : Key P → Prop} {p : P} {i : Nat} {t : Token} {grown : Found V}

theorem matchHead_none {q : P} {s : Parser P V} (h : I.peekToken s.position = none) :
    matchHead G I q s = some (none, s) := by
  rw [matchHead]
  rw [h]

theorem matchAll_goes (grown : Found V) (parts : List P) (hw : A.WellFormed G) (ht : I.peekToken i = some t)
    (hr : Ready G I A C p i t) {s : Parser P V} (hfrom : A.From p i t parts s.position) (hs : Correct G I C s.cache) :
    ∃ r s' o, matchAll G I parts s = some (r, s') ∧
      parseAll G I ⟨p, i, grown⟩ parts s.position = some o ∧ Goes G I C C s s' r o := by
  induction parts generalizing s with
  | nil =>
    exact ⟨some [], s, some ([], s.position), by rw [matchAll], by rw [parseAll], .ended rfl hs fun k _ => rfl⟩
  | cons q qs ih =>
    cases hu : I.peekToken s.position with
    | none =>
      refine ⟨none, s, none, ?_, ?_, .failed hs fun k _ => rfl⟩
      · rw [matchAll]
        rw [matchHead_none hu]
        rfl
      · rw [parseAll, parseHead, hu]
        rfl
    | some u =>
      have hreach : s.position = i ∧ A.Below p q ∨ i < s.position ∧ t.tokenType ∈ A.starts p :=
        hfrom.2.imp_left fun h => ⟨h.1, h.2.1⟩
      obtain ⟨r, s₁, o, hrun, ho, hret⟩ := hr.head q _ u (hfrom.1 q List.mem_cons_self) hu hreach s rfl hs
      have hhead : parseHead G I ⟨p, i, grown⟩ q s.position = some (found (G.body q).advanceBy o) := by
        rw [parseHead_of_ne hu hfrom.ne, ho]
        rfl
      rcases o with _ | ⟨v, j⟩
      · obtain rfl := hret.answer
        refine ⟨none, s₁, none, ?_, by rw [parseAll, hhead]; rfl, .failed hret.correct hret.frame⟩
        rw [matchAll]
        rw [hrun]
        rfl
      · obtain rfl := hret.answer
        have hpos : s₁.position = j + (G.body q).advanceBy := hret.position v _ rfl
        obtain ⟨o', ho', hends⟩ := parse_total (I := I) hw (hfrom.1 q List.mem_cons_self) hu
        obtain rfl := Option.some.inj (ho.symm.trans ho')
        have hfrom' : A.From p i t qs s₁.position := hpos ▸ hfrom.tail ht hu (hends v j rfl)
        obtain ⟨r', s₂, o₂, hrun', ho₂, hgoes⟩ := ih hfrom' hret.correct
        refine ⟨r'.map (v :: ·), s₂, o₂.map fun w => (v :: w.1, w.2), ?_, ?_, ?_, fun a k h => ?_, hgoes.correct,
          fun k hk => ?_⟩
        · rw [matchAll]
          rw [hrun]
          simp only [found, Option.map_some, Option.bind_eq_bind, Option.bind_some, hrun']
        · rw [parseAll, hhead]
          rw [hpos] at ho₂
          simp only [found, Option.map_some, Option.bind_eq_bind, Option.bind_some, ho₂]
          cases o₂ <;> rfl
        · rw [hgoes.answer]
          cases o₂ <;> rfl
        · obtain ⟨⟨ws, l⟩, hl, heq⟩ := Option.map_eq_some_iff.mp h
          cases heq
          exact hgoes.position ws l hl
        · exact (hgoes.frame k hk).trans (hret.frame k hk)

theorem matchPack_of_all {s s' : Parser P V} {r : Option (List V)}
    {o : Option (List V × Nat)} {F : Key P → Prop} (hrun : matchAll G I parts s = some (r, s'))
    (h : Goes G I C F s s' r o) :
    ∃ s'', matchPack G I parts s = some (r, s'') ∧ s''.cache = s'.cache ∧ Returns G I C F s s'' r o := by
  have hanswer := h.answer
  cases o with
  | none =>
    subst hanswer
    exact ⟨s'.at s.position, by rw [matchPack, hrun]; rfl, rfl, h.back rfl⟩
  | some a =>
    subst hanswer
    exact ⟨s', by rw [matchPack, hrun]; rfl, rfl, h, nofun⟩

theorem matchPack_returns (grown : Found V) (parts : List P) (hw : A.WellFormed G) (ht : I.peekToken i = some t)
    (hr : Ready G I A C p i t) {s : Parser P V} (hfrom : A.From p i t parts s.position) (hs : Correct G I C s.cache) :
    ∃ r s' o, matchPack G I parts s = some (r, s') ∧
      parseAll G I ⟨p, i, grown⟩ parts s.position = some o ∧ Returns G I C C s s' r o := by
  obtain ⟨r, s', o, hrun, ho, hgoes⟩ := matchAll_goes grown _ hw ht hr hfrom hs
  obtain ⟨s'', hpack, -, hret⟩ := matchPack_of_all hrun hgoes
  exact ⟨r, s'', o, hpack, ho, hret⟩

/-- The answer of a pack: it fails where it began, or ends further on. -/
theorem pack_cases (grown : Found V) (parts : List P) (hw : A.WellFormed G) (ht : I.peekToken i = some t)
    (hr : Ready G I A C p i t) {s : Parser P V} (hfrom : A.From p i t parts s.position) (hs : Correct G I C s.cache)
    (he : s.position ≤ I.tokens.length) :
    (∃ s', matchPack G I parts s = some (none, s') ∧
      parseAll G I ⟨p, i, grown⟩ parts s.position = some none ∧ s'.position = s.position ∧ Correct G I C s'.cache ∧
      ∀ k, C k → s'.cache k = s.cache k) ∨
    ∃ vs s', matchPack G I parts s = some (some vs, s') ∧
      parseAll G I ⟨p, i, grown⟩ parts s.position = some (some (vs, s'.position)) ∧ Correct G I C s'.cache ∧
      (∀ k, C k → s'.cache k = s.cache k) ∧ s.position ≤ s'.position ∧ s'.position ≤ I.tokens.length ∧
      (A.Consuming parts → s.position < s'.position) ∧ (i < s'.position → t.tokenType ∈ A.starts p) := by
  obtain ⟨r, s', o, hrun, ho, hret⟩ := matchPack_returns grown _ hw ht hr hfrom hs
  have hreached : Reached G I A p i := fun q e u hq hu _ => parse_total hw hq hu
  obtain ⟨o', ho', hspec⟩ := parseAll_total grown _ ht hreached hfrom he
  obtain rfl := Option.some.inj (ho.symm.trans ho')
  obtain rfl := hret.answer
  rcases o with _ | ⟨vs, j⟩
  · exact .inl ⟨s', hrun, ho, hret.stays rfl, hret.correct, hret.frame⟩
  · have hpos := hret.position vs j rfl
    subst hpos
    exact .inr ⟨vs, s', hrun, ho, hret.correct, hret.frame, hspec vs _ rfl⟩

theorem repeated_goes (grown : Found V) (hw : A.WellFormed G) (ht : I.peekToken i = some t) (hr : Ready G I A C p i t)
    {parts : List P} (hcons : A.Consuming parts) {s : Parser P V} (hfrom : A.From p i t parts s.position)
    (hs : Correct G I C s.cache) (he : s.position ≤ I.tokens.length) :
    ∃ vs s', repeated G I parts s = some (vs, s') ∧
      parseRepeated G I ⟨p, i, grown⟩ parts s.position = some (vs, s'.position) ∧ Correct G I C s'.cache ∧
      ∀ k, C k → s'.cache k = s.cache k := by
  induction hn : I.tokens.length - s.position using Nat.strongRecOn generalizing s with
  | ind n ih =>
    rcases pack_cases grown _ hw ht hr hfrom hs he with
      ⟨s₁, hrun, ho, hpos, hc, hframe⟩ | ⟨vs, s₁, hrun, ho, hc, hframe, hle, hin, hlt, hstarts⟩
    · refine ⟨[], s₁, by rw [repeated, hrun]; rfl, ?_, hc, hframe⟩
      rw [parseRepeated, ho, hpos]
      rfl
    · have hlt := hlt hcons
      have hbeyond : i < s₁.position := Nat.lt_of_le_of_lt hfrom.le hlt
      obtain ⟨ws, s₂, hrun₂, ho₂, hc₂, hframe₂⟩ := ih _ (by omega) ⟨hfrom.1, .inr ⟨hbeyond, hstarts hbeyond⟩⟩ hc hin rfl
      refine ⟨G.pack vs :: ws, s₂, by rw [repeated, hrun]; simp [hrun₂], ?_, hc₂,
        fun k hk => (hframe₂ k hk).trans (hframe k hk)⟩
      rw [parseRepeated, ho]
      simp [ho₂]

theorem inBetween_goes (grown : Found V) (between : P) (hw : A.WellFormed G) (ht : I.peekToken i = some t)
    (hr : Ready G I A C p i t)
    {main : P} (hmain : A.member main) (hbetween : A.member between) (hbelow : A.Below p main)
      (hcons : A.consumes main = true) {s : Parser P V}
    (hfrom : s.position = i ∨ i < s.position ∧ t.tokenType ∈ A.starts p) (hs : Correct G I C s.cache)
    (he : s.position ≤ I.tokens.length) :
    ∃ r s' o, _inBetween G I main between s = some (r, s') ∧
      _parseInBetween G I ⟨p, i, grown⟩ main between s.position = some o ∧ Goes G I C C s s' r o := by
  induction hn : I.tokens.length - s.position using Nat.strongRecOn generalizing s with
  | ind n ih =>
    rcases pack_cases grown [main] hw ht hr
      ⟨fun q hq => List.mem_singleton.mp hq ▸ hmain, hfrom.imp_left fun h => ⟨h, hbelow, .inl hcons⟩⟩ hs he with
      ⟨s₁, hrun, ho, hpos, hc, hframe⟩ | ⟨vs, s₁, hrun, ho, hc, hframe, hle, hin, hlt, hstarts⟩
    · refine ⟨none, s₁, none, by rw [_inBetween, hrun]; rfl, ?_, .failed hc hframe⟩
      rw [_parseInBetween, ho]
      rfl
    · have hlt := hlt ⟨main, List.mem_singleton_self _, hcons⟩
      have hij : i < s₁.position := by rcases hfrom with h | ⟨h, -⟩ <;> omega
      have hstarts := hstarts hij
      rcases pack_cases grown [between] hw ht hr
        ⟨fun q hq => List.mem_singleton.mp hq ▸ hbetween, .inr ⟨hij, hstarts⟩⟩ hc hin with
        ⟨s₂, hrun₂, ho₂, hpos₂, hc₂, hframe₂⟩ | ⟨bs, s₂, hrun₂, ho₂, hc₂, hframe₂, hle₂, hin₂, -, -⟩
      · refine ⟨some vs, s₂, some (vs, s₁.position), by rw [_inBetween, hrun]; simp [hrun₂], ?_,
          .ended hpos₂ hc₂ fun k hk => (hframe₂ k hk).trans (hframe k hk)⟩
        rw [_parseInBetween, ho]
        simp [ho₂]
      · obtain ⟨r, s₃, o, hrun₃, ho₃, hgoes⟩ := ih _ (by omega) (.inr ⟨by omega, hstarts⟩) hc₂ hin₂ rfl
        obtain rfl := hgoes.answer
        have hframe₃ (k : Key P) (hk : C k) : s₃.cache k = s.cache k :=
          (hgoes.frame k hk).trans ((hframe₂ k hk).trans (hframe k hk))
        rcases o with _ | ⟨ws, l⟩
        · refine ⟨some vs, s₃.at s₁.position, some (vs, s₁.position), by rw [_inBetween, hrun]; simp [hrun₂, hrun₃], ?_,
            .ended rfl hgoes.correct hframe₃⟩
          rw [_parseInBetween, ho]
          simp [ho₂, ho₃]
        · refine ⟨some (vs ++ ws), s₃, some (vs ++ ws, l), by rw [_inBetween, hrun]; simp [hrun₂, hrun₃], ?_,
            .ended (hgoes.position ws l rfl) hgoes.correct hframe₃⟩
          rw [_parseInBetween, ho]
          simp [ho₂, ho₃]

/-! ### Alternatives -/

/-- The entry of a pattern in progress: its seed, or what it has grown to. -/
inductive InProgress (i : Nat) : Found V → Bool → Option (CacheValue V) → Prop
  | seed (b : Bool) : InProgress i none b (some (.seed b i))
  | grown (v : V) (j : Nat) (b : Bool) : InProgress i (some (v, j)) b (some (.result v j))

/-- The rule at the start of its own alternative: the seed fails and is marked, a growth is taken. -/
theorem matchHead_own {b : Bool} {s : Parser P V} (ht : I.peekToken i = some t)
    (hmemo : G.memoized p = true) (hadv : (G.body p).advanceBy = 0) (hpos : s.position = i)
    (hentry : InProgress i grown b (s.cache (key p t))) :
    ∃ s', matchHead G I p s = some (grown.map Prod.fst, s') ∧
      s'.position = grown.elim i Prod.snd ∧
      (∀ k, k ≠ key p t → s'.cache k = s.cache k) ∧ InProgress i grown true (s'.cache (key p t)) := by
  subst hpos
  rw [matchHead]
  rw [ht]
  simp only [hmemo, if_true]
  generalize hcache : s.cache (key p t) = entry at hentry
  cases hentry with
  | seed b =>
    refine ⟨_, rfl, rfl, fun k hk => Function.update_of_ne hk _ _, ?_⟩
    have hself : ((s.store (key p t) (.seed true s.position)).at s.position).cache (key p t) =
        some (.seed true s.position) := Function.update_self ..
    rw [hself]
    exact .seed true
  | grown v j b =>
    refine ⟨_, rfl, by simp [hadv, Parser.at], fun k _ => rfl, ?_⟩
    exact hcache.symm ▸ .grown v j true

/-- The first alternative starts with the rule. -/
def OwnFirst (p : P) (as : List (List P × (List V → Nat → Nat → Option V))) : Prop :=
  ∃ tail act as', as = (p :: tail, act) :: as'

theorem oneOf_goes (hw : A.WellFormed G) (ht : I.peekToken i = some t) (hr : Ready G I A C p i t)
    (hmemo : G.leftRecursive p = true → G.memoized p = true ∧ C (key p t))
    (hown : ∀ v j, grown = some (v, j) → i < j ∧ t.tokenType ∈ A.starts p)
    {as : List (List P × (List V → Nat → Nat → Option V))} (hmem : ∀ a ∈ as, ∀ q ∈ a.1, A.member q)
    (has : ∀ a ∈ as, (G.leftRecursive p = true ∧ ∃ tail, a.1 = p :: tail) ∨ A.Heads p a.1) {b : Bool} {s : Parser P V}
    (hpos : s.position = i) (hs : Correct G I C s.cache)
    (hentry : G.leftRecursive p = true → InProgress i grown b (s.cache (key p t))) :
    ∃ r s' o, oneOf G I as s = some (r, s') ∧ parseOneOf G I ⟨p, i, grown⟩ as i = some o ∧
      Goes G I C (fun k => C k ∧ (G.leftRecursive p = true → k ≠ key p t)) s s' r o ∧
      (G.leftRecursive p = true → ∃ b', InProgress i grown b' (s'.cache (key p t)) ∧
        (b = true ∨ OwnFirst p as → b' = true)) := by
  induction as generalizing b s with
  | nil =>
    refine ⟨none, s, none, by rw [oneOf], by rw [parseOneOf], .failed hs fun k _ => rfl,
      fun h => ⟨b, hentry h, ?_⟩⟩
    rintro (h | ⟨_, _, _, h⟩)
    · exact h
    · cases h
  | cons a as ih =>
    obtain ⟨parts, act⟩ := a
    have hpack : ∃ r s' o b', matchPack G I parts s = some (r, s') ∧
        parseAll G I ⟨p, i, grown⟩ parts i = some o ∧
        Returns G I C (fun k => C k ∧ (G.leftRecursive p = true → k ≠ key p t)) s s' r o ∧
        (G.leftRecursive p = true → InProgress i grown b' (s'.cache (key p t))) ∧
        (b = true ∨ OwnFirst p ((parts, act) :: as) → G.leftRecursive p = true → b' = true) := by
      rcases has (parts, act) List.mem_cons_self with ⟨hleft, tail, rfl⟩ | hheads
      · obtain ⟨hm, hC⟩ := hmemo hleft
        obtain ⟨s₁, hrun, hpos₁, hother, hentry₁⟩ := matchHead_own ht hm
          (leftRecursive_advanceBy hleft) hpos (hentry hleft)
        have hc₁ : Correct G I C s₁.cache := by
          intro q e u hu hq hnot
          rw [hother _ fun h => hnot (by rw [h]; exact hC)]
          exact hs q e u hu hq hnot
        have hframe₁ (k : Key P) (hk : C k ∧ (G.leftRecursive p = true → k ≠ key p t)) : s₁.cache k = s.cache k :=
          hother k (hk.2 hleft)
        cases hgrown : grown with
        | none =>
          subst hgrown
          have hall : matchAll G I (p :: tail) s = some (none, s₁) := by
            rw [matchAll]
            rw [hrun]
            rfl
          obtain ⟨s₂, hpack, hcache, hret⟩ := matchPack_of_all hall
            (.failed hc₁ hframe₁ : Goes G I C _ s s₁ none none)
          refine ⟨none, s₂, none, true, hpack, ?_, hret, fun _ => hcache ▸ hentry₁, fun _ _ => rfl⟩
          rw [parseAll, parseHead_own ht]
          rfl
        | some vj =>
          obtain ⟨v, j⟩ := vj
          subst hgrown
          have hpos₁ : s₁.position = j := hpos₁
          obtain ⟨hij, hstarts⟩ := hown v j rfl
          obtain ⟨r, s₂, o, hrun₂, ho, hgoes⟩ := matchAll_goes (some (v, j)) tail (s := s₁) hw ht hr
            ⟨fun q hq => hmem _ List.mem_cons_self q (List.mem_cons_of_mem _ hq), .inr ⟨hpos₁.symm ▸ hij, hstarts⟩⟩ hc₁
          have hall : matchAll G I (p :: tail) s = some (r.map (v :: ·), s₂) := by
            rw [matchAll]
            rw [hrun]
            simp [hrun₂]
          have hgoes' : Goes G I C (fun k => C k ∧ (G.leftRecursive p = true → k ≠ key p t)) s s₂ (r.map (v :: ·))
              (o.map fun w => (v :: w.1, w.2)) := by
            refine ⟨?_, fun a k h => ?_, hgoes.correct, fun k hk => (hgoes.frame k hk.1).trans (hframe₁ k hk)⟩
            · rw [hgoes.answer]
              cases o <;> rfl
            · obtain ⟨⟨ws, l⟩, hl, heq⟩ := Option.map_eq_some_iff.mp h
              cases heq
              exact hgoes.position ws l hl
          obtain ⟨s₃, hpack, hcache, hret⟩ := matchPack_of_all hall hgoes'
          refine ⟨_, s₃, _, true, hpack, ?_, hret, fun _ => ?_, fun _ _ => rfl⟩
          · rw [hpos₁] at ho
            rw [parseAll, parseHead_own ht, leftRecursive_advanceBy hleft]
            simp only [found, Option.map_some, Option.bind_eq_bind, Option.bind_some, Nat.add_zero, ho]
            cases o <;> rfl
          · rw [hcache, hgoes.frame _ hC]
            exact hentry₁
      · obtain ⟨r, s₁, o, hrun, ho, hret⟩ := matchPack_returns grown parts (s := s) hw ht hr
          ⟨hmem _ List.mem_cons_self, .inl ⟨hpos, hheads⟩⟩ hs
        refine ⟨r, s₁, o, b, hrun, hpos ▸ ho,
          ⟨⟨hret.answer, hret.position, hret.correct, fun k hk => hret.frame k hk.1⟩, hret.stays⟩,
          fun h => ?_, ?_⟩
        · rw [hret.frame _ (hmemo h).2]
          exact hentry h
        · rintro (h | ⟨tail, _, _, h⟩) hleft
          · exact h
          · cases h
            exact absurd hheads.1.1 (Nat.lt_irrefl _)
    obtain ⟨r, s₁, o, b', hrun, ho, hret, hentry₁, hb'⟩ := hpack
    obtain rfl := hret.answer
    rcases o with _ | ⟨vs, j⟩
    · obtain ⟨r₂, s₂, o₂, hrun₂, ho₂, hgoes, hentry₂⟩ :=
        ih (fun a ha => hmem a (List.mem_cons_of_mem _ ha)) (fun a ha => has a (List.mem_cons_of_mem _ ha))
        ((hret.stays rfl).trans hpos) hret.correct hentry₁
      refine ⟨r₂, s₂, o₂, by rw [oneOf, hrun]; exact hrun₂, by rw [parseOneOf, ho]; exact ho₂,
        ⟨hgoes.answer, hgoes.position, hgoes.correct, fun k hk => (hgoes.frame k hk).trans (hret.frame k hk)⟩,
          fun h => ?_⟩
      obtain ⟨b₂, hprogress, hb₂⟩ := hentry₂ h
      exact ⟨b₂, hprogress, fun hb => hb₂ (.inl (hb' hb h))⟩
    · have hj := hret.position vs j rfl
      refine ⟨act vs s.position s₁.position, s₁, (act vs i j).map (·, j), by rw [oneOf, hrun]; rfl, by rw [parseOneOf, ho]; rfl,
        ⟨?_, fun a k h => ?_, hret.correct, hret.frame⟩, fun h => ⟨b', hentry₁ h, fun hb => hb' hb h⟩⟩
      · rw [hpos, hj]
        cases act vs i j <;> rfl
      · obtain ⟨w, -, heq⟩ := Option.map_eq_some_iff.mp h
        cases heq
        exact hj

/-! ### Bodies -/

/-- `matches_impl` of a pattern, in progress or not. -/
theorem matchesImpl_goes (hw : A.WellFormed G) (hp : A.member p) (ht : I.peekToken i = some t)
    (hr : Ready G I A C p i t) (hmemo : G.leftRecursive p = true → C (key p t))
    (hown : ∀ v j, grown = some (v, j) → i < j ∧ t.tokenType ∈ A.starts p) {b : Bool} {s : Parser P V}
      (hpos : s.position = i)
    (hs : Correct G I C s.cache) (hentry : G.leftRecursive p = true → InProgress i grown b (s.cache (key p t))) :
    ∃ r s' o, matchesImpl G I (G.body p) s = some (r, s') ∧
      parseBody G I ⟨p, i, grown⟩ (G.body p) i = some o ∧
      Goes G I C (fun k => C k ∧ (G.leftRecursive p = true → k ≠ key p t)) s s' r o ∧
      (G.leftRecursive p = true → InProgress i grown true (s'.cache (key p t))) := by
  have hok := hw.body p hp
  have hi := Nat.le_of_lt (peekToken_lt ht)
  by_cases hleft : G.leftRecursive p = true
  · obtain ⟨tail, act, as, hbody⟩ := leftRecursive_body hleft
    rw [hbody] at hok ⊢
    obtain ⟨r, s', o, hrun, ho, hgoes, hprogress⟩ := oneOf_goes hw ht hr
      (fun h => ⟨hw.leftRecursive p hp h, hmemo h⟩) hown
      hok.1 hok.2.1 hpos hs hentry
    refine ⟨r, s', o, by rw [matchesImpl]; exact hrun, by rw [parseBody]; exact ho, hgoes, fun h => ?_⟩
    obtain ⟨b', hin, hb'⟩ := hprogress h
    exact hb' (.inr ⟨tail, act, as, rfl⟩) ▸ hin
  · -- the frame is the whole of `C`, and there is no growth
    suffices h : ∃ r s' o, matchesImpl G I (G.body p) s = some (r, s') ∧
        parseBody G I ⟨p, i, grown⟩ (G.body p) i = some o ∧ Goes G I C C s s' r o by
      obtain ⟨r, s', o, hrun, ho, hgoes⟩ := h
      exact ⟨r, s', o, hrun, ho, ⟨hgoes.answer, hgoes.position, hgoes.correct, fun k hk => hgoes.frame k hk.1⟩,
        fun h => absurd h hleft⟩
    subst hpos
    generalize hbody : G.body p = body at hok
    cases body with
    | singleToken types =>
      obtain ⟨o, ho, -⟩ := singleTokenAt_total types ht
      rcases o with _ | ⟨u, j⟩
      · exact ⟨none, s, none, by rw [matchesImpl, ho]; rfl, by rw [parseBody, ho]; rfl,
          .failed hs fun k _ => rfl⟩
      · exact ⟨some (G.token u), s.at j, some (G.token u, j), by rw [matchesImpl, ho]; rfl, by rw [parseBody, ho]; rfl,
          .ended rfl hs fun k _ => rfl⟩
    | andLiteral types literal =>
      obtain ⟨o, ho, -⟩ := andLiteralAt_total types literal ht
      rcases o with _ | ⟨u, j⟩
      · exact ⟨none, s, none, by rw [matchesImpl, ho]; rfl, by rw [parseBody, ho]; rfl,
          .failed hs fun k _ => rfl⟩
      · exact ⟨some (G.token u), s.at j, some (G.token u, j), by rw [matchesImpl, ho]; rfl, by rw [parseBody, ho]; rfl,
          .ended rfl hs fun k _ => rfl⟩
    | notAt literals =>
      refine ⟨if literals (I.text t) then none else some G.monostate, s,
        if literals (I.text t) then none else some (G.monostate, s.position),
        by rw [matchesImpl, ht]; rfl, by rw [parseBody, ht]; rfl, ?_, fun a j h => ?_, hs, fun k _ => rfl⟩
      · split <;> rfl
      · split at h
        · cases h
        · cases h
          rfl
    | alternatives as =>
      obtain ⟨r, s', o, hrun, ho, hgoes, -⟩ := oneOf_goes (b := b) hw ht hr
        (fun h => absurd h hleft) hown hok.1 hok.2.1 rfl hs
        fun h => absurd h hleft
      exact ⟨r, s', o, by rw [matchesImpl]; exact hrun, by rw [parseBody]; exact ho, hgoes.answer, hgoes.position,
        hgoes.correct, fun k hk => hgoes.frame k ⟨hk, fun h => absurd h hleft⟩⟩
    | oneOrMore parts =>
      rcases pack_cases grown _ hw ht hr ⟨hok.1, .inl ⟨rfl, hok.2.1⟩⟩ hs hi with
        ⟨s₁, hrun, ho, -, hc, hframe⟩ | ⟨vs, s₁, hrun, ho, hc, hframe, hle, hin, hlt, hstarts⟩
      · exact ⟨none, s₁, none, by rw [matchesImpl, hrun]; rfl, by rw [parseBody]; simp [ho],
          .failed hc hframe⟩
      · have hlt := hlt hok.2.2
        obtain ⟨ws, s₂, hrun₂, ho₂, hc₂, hframe₂⟩ := repeated_goes grown hw ht hr hok.2.2 ⟨hok.1,
          .inr ⟨hlt, hstarts hlt⟩⟩ hc hin
        exact ⟨some (G.vector (G.pack vs :: ws)), s₂, some (G.vector (G.pack vs :: ws), s₂.position),
          by rw [matchesImpl, hrun]; simp [hrun₂], by rw [parseBody]; simp [ho, ho₂],
          .ended rfl hc₂ fun k hk => (hframe₂ k hk).trans (hframe k hk)⟩
    | zeroOrMore parts =>
      obtain ⟨vs, s₁, hrun, ho, hc, hframe⟩ := repeated_goes grown hw ht hr hok.2.2.1 ⟨hok.1, .inl ⟨rfl, hok.2.1⟩⟩ hs hi
      exact ⟨some (G.vector vs), s₁, some (G.vector vs, s₁.position), by rw [matchesImpl, hrun]; rfl,
        by rw [parseBody]; simp [ho], .ended rfl hc hframe⟩
    | zeroOrOne parts =>
      rcases pack_cases grown _ hw ht hr ⟨hok.1, .inl ⟨rfl, hok.2.1⟩⟩ hs hi with
        ⟨s₁, hrun, ho, hpos₁, hc, hframe⟩ | ⟨vs, s₁, hrun, ho, hc, hframe, -, -, -, -⟩
      · exact ⟨some (G.optional none), s₁, some (G.optional none, s.position), by rw [matchesImpl, hrun]; rfl,
          by rw [parseBody]; simp [ho], .ended hpos₁ hc hframe⟩
      · exact ⟨some (G.optional (some (G.pack vs))), s₁, some (G.optional (some (G.pack vs)), s₁.position),
          by rw [matchesImpl, hrun]; rfl, by rw [parseBody]; simp [ho], .ended rfl hc hframe⟩
    | applyInBetween main between =>
      obtain ⟨r, s₁, o, hrun, ho, hgoes⟩ := inBetween_goes grown between hw ht hr hok.1 hok.2.1 hok.2.2.1 hok.2.2.2
        (.inl rfl) hs hi
      obtain rfl := hgoes.answer
      refine ⟨(o.map Prod.fst).map G.vector, s₁, o.map fun w => (G.vector w.1, w.2), by rw [matchesImpl, hrun]; rfl,
        by rw [parseBody, ho]; cases o <;> rfl, ?_,
        fun a j h => ?_, hgoes.correct, hgoes.frame⟩
      · cases o <;> rfl
      · obtain ⟨⟨vs, l⟩, hl, heq⟩ := Option.map_eq_some_iff.mp h
        cases heq
        exact hgoes.position vs l hl
    | lookAhead q =>
      obtain ⟨r, s₁, o, hrun, ho, hret⟩ := hr.looked q hok.1 hok.2.1 hok.2.2.1 s rfl hs
      obtain rfl := hret.answer
      refine ⟨if (o.map Prod.fst).isSome then some G.monostate else none, s₁.at s.position,
        if o.isSome then some (G.monostate, s.position) else none, by rw [matchesImpl, hrun]; rfl,
        by rw [parseBody, ho]; rfl, ?_, fun a j h => ?_, hret.correct, hret.frame⟩
      · cases o <;> rfl
      · cases o with
        | none => cases h
        | some w =>
          cases h
          rfl
    | negativeLookAhead q =>
      obtain ⟨r, s₁, o, hrun, ho, hret⟩ := hr.looked q hok.1 hok.2.1 hok.2.2.1 s rfl hs
      obtain rfl := hret.answer
      refine ⟨if (o.map Prod.fst).isSome then none else some G.monostate, s₁.at s.position,
        if o.isSome then none else some (G.monostate, s.position), by rw [matchesImpl, hrun]; rfl,
        by rw [parseBody, ho]; rfl, ?_, fun a j h => ?_, hret.correct, hret.frame⟩
      · cases o <;> rfl
      · cases o with
        | none =>
          cases h
          rfl
        | some w => cases h

/-! ### Growth -/

theorem Correct.store {s : Parser P V} (hs : Correct G I C s.cache) {k : Key P} (hk : C k) (value : CacheValue V) :
    Correct G I C (s.store k value).cache := by
  intro q e u hu hq hnot
  have hne : key q u ≠ k := fun h => hnot (by rw [h]; exact hk)
  have hsame : (s.store k value).cache (key q u) = s.cache (key q u) := Function.update_of_ne hne _ _
  rw [hsame]
  exact hs q e u hu hq hnot

theorem growLr_goes (hw : A.WellFormed G) (hp : A.member p) (ht : I.peekToken i = some t) (hr : Ready G I A C p i t)
    (hleft : G.leftRecursive p = true) (hC : C (key p t)) {v : V} {j : Nat}
    (hj : i < j ∧ j ≤ I.tokens.length ∧ t.tokenType ∈ A.starts p) {s : Parser P V} (hs : Correct G I C s.cache)
    (hentry : s.cache (key p t) = some (.result v j)) :
    ∃ w k s', growLr G I p (key p t) i s = some (some w, s') ∧ grow G I p i v j = some (some (w, k)) ∧ s'.position = k ∧
      Correct G I C s'.cache ∧ ∀ k', C k' ∧ k' ≠ key p t → s'.cache k' = s.cache k' := by
  induction hn : I.tokens.length - j using Nat.strongRecOn generalizing v j s with
  | ind n ih =>
    have hown (v' : V) (j' : Nat) (h : some (v, j) = some (v', j')) : i < j' ∧ t.tokenType ∈ A.starts p := by
      cases h
      exact ⟨hj.1, hj.2.2⟩
    obtain ⟨r, s₁, o, hrun, ho, hgoes, hprogress⟩ := matchesImpl_goes (b := true) (s := s.at i) hw hp ht hr
      (fun _ => hC) hown rfl hs fun _ => hentry ▸ .grown v j true
    have hentry₁ : s₁.cache (key p t) = some (.result v j) := by
      generalize hc : s₁.cache (key p t) = entry at hprogress
      cases hprogress hleft
      rfl
    have hframe (k : Key P) (hk : C k ∧ k ≠ key p t) : s₁.cache k = s.cache k := hgoes.frame k ⟨hk.1, fun _ => hk.2⟩
    have hreached : Reached G I A p i := fun q e u hq hu _ => parse_total hw hq hu
    obtain rfl := hgoes.answer
    rcases o with _ | ⟨w, k⟩
    · refine ⟨v, j, s₁.at j, ?_, by rw [grow, ho]; rfl, rfl, hgoes.correct, hframe⟩
      rw [growLr, hrun]
      simp [hentry₁, CacheValue.position?, CacheValue.stop]
    · have hpos := hgoes.position w k rfl
      subst hpos
      by_cases hk : s₁.position ≤ j
      · refine ⟨v, j, s₁.at j, ?_, by rw [grow, ho]; simp [hk], rfl, hgoes.correct, hframe⟩
        rw [growLr, hrun]
        simp [hentry₁, CacheValue.position?, CacheValue.stop, hk]
      · obtain ⟨o', ho', hends⟩ := parseBody_total (some (v, j)) hw hp ht hreached fun v' j' h => by cases h; exact hj
        obtain rfl := Option.some.inj (ho.symm.trans ho')
        have hend := hends w _ rfl
        rw [leftRecursive_advanceBy hleft, Nat.add_zero] at hend
        have hin := hend.inside
        obtain ⟨w', k', s₂, hrun₂, hgrow, hpos₂, hc₂, hframe₂⟩ := ih _ (by omega)
          (s := s₁.store (key p t) (.result w s₁.position)) ⟨by omega, hin, hj.2.2⟩ (hgoes.correct.store hC _)
          (Function.update_self ..) rfl
        refine ⟨w', k', s₂, ?_, ?_, hpos₂, hc₂, fun k hk' => ?_⟩
        · rw [growLr, hrun]
          simp [hentry₁, CacheValue.position?, hk, hrun₂]
        · rw [grow, ho]
          simp [hk, hgrow]
        · rw [hframe₂ k hk', ← hframe k hk']
          exact Function.update_of_ne hk'.2 _ _

end Body

/-! ## Patterns in progress -/

def tokenKey (t : Token) : Nat × TokenType := (t.start.pointer, t.tokenType)

/-- No pattern in progress is met by `p` at a token: at that token only higher ones are, and the later tokens that `p` can
see have other keys. -/
def Clear (I : Input) (A : Analysis P) (C : Key P → Prop) (p : P) (i : Nat) (t : Token) : Prop :=
  ∀ k, C k → (k.2 = tokenKey t → A.rank p < A.rank k.1) ∧
    (t.tokenType ∈ A.starts p → ∀ j u, i < j → I.peekToken j = some u → k.2 ≠ tokenKey u)

/-- The keys in progress, and the pattern's own. -/
def withOwn (G : Grammar P V) (C : Key P → Prop) (p : P) (t : Token) (k : Key P) : Prop :=
  C k ∨ G.memoized p = true ∧ k = key p t

theorem Correct.mono {C C' : Key P → Prop} {cache : Key P → Option (CacheValue V)} (h : Correct G I C cache)
    (hsub : ∀ k, C k → C' k) : Correct G I C' cache :=
  fun q i t ht hq hnot => h q i t ht hq fun hC => hnot (hsub _ hC)

omit [DecidableEq P] in
theorem Apart.ne (ha : Apart G I A) {p : P} (hp : A.member p) {i j : Nat} {t u : Token} (hmemo : G.memoized p = true)
    (ht : I.peekToken i = some t) (hu : I.peekToken j = some u) (hij : i < j) (hstarts : t.tokenType ∈ A.starts p) :
    tokenKey t ≠ tokenKey u := by
  intro h
  obtain ⟨hpointer, htype⟩ := Prod.mk.inj h
  exact ha i j t u hij ht hu hpointer.symm htype.symm p hp hmemo hstarts

omit [DecidableEq P] in
/-- What `p` reaches meets no pattern in progress either, `p` among them. -/
theorem Clear.reached (ha : Apart G I A) {C : Key P → Prop} {p q : P} (hp : A.member p) {i e : Nat} {t u : Token}
    (ht : I.peekToken i = some t) (hu : I.peekToken e = some u) (h : Clear I A C p i t)
    (hreach : e = i ∧ A.Below p q ∨ i < e ∧ t.tokenType ∈ A.starts p) : Clear I A (withOwn G C p t) q e u := by
  rintro k (hk | ⟨hmemo, rfl⟩)
  · rcases hreach with ⟨rfl, hbelow⟩ | ⟨hlt, hstarts⟩
    · obtain rfl := Option.some.inj (ht.symm.trans hu)
      exact ⟨fun heq => Nat.lt_trans hbelow.1 ((h k hk).1 heq), fun hs => (h k hk).2 (hbelow.2 hs)⟩
    · exact ⟨fun heq => absurd heq ((h k hk).2 hstarts e u hlt hu),
        fun _ j w hj hw => (h k hk).2 hstarts j w (Nat.lt_trans hlt hj) hw⟩
  · rcases hreach with ⟨rfl, hbelow⟩ | ⟨hlt, hstarts⟩
    · obtain rfl := Option.some.inj (ht.symm.trans hu)
      exact ⟨fun _ => hbelow.1, fun hs j w hj hw => ha.ne hp hmemo ht hw hj (hbelow.2 hs)⟩
    · exact ⟨fun heq => absurd heq (ha.ne hp hmemo ht hu hlt hstarts),
        fun _ j w hj hw => ha.ne hp hmemo ht hw (Nat.lt_trans hlt hj) hstarts⟩

omit [DecidableEq P] in
theorem Clear.not_own {C : Key P → Prop} {p : P} {i : Nat} {t : Token} (h : Clear I A C p i t) : ¬C (key p t) :=
  fun hC => Nat.lt_irrefl _ ((h _ hC).1 rfl)

/-- Tokens that are one to the table are one to a pattern of the table. -/
theorem parse_of_key (hw : A.WellFormed G) (ha : Apart G I A) {q : P} (hmem : A.member q) (hq : G.memoized q = true)
    {i j : Nat} {t u : Token}
    (ht : I.peekToken i = some t) (hu : I.peekToken j = some u) (hkey : tokenKey t = tokenKey u) :
    parse G I q i = parse G I q j := by
  have hfails {i j : Nat} {t u : Token} (ht : I.peekToken i = some t) (hu : I.peekToken j = some u) (hij : i < j)
      (hkey : tokenKey t = tokenKey u) : parse G I q i = some none ∧ parse G I q j = some none := by
    have hdead : t.tokenType ∉ A.starts q := fun h => ha.ne hmem hq ht hu hij h hkey
    have hnone {e : Nat} {w : Token} (hwt : I.peekToken e = some w) (htype : w.tokenType = t.tokenType) :
        parse G I q e = some none := by
      obtain ⟨o, ho, hends⟩ := parse_total hw hmem hwt
      rcases o with _ | ⟨v, k⟩
      · exact ho
      · have hend := hends v k rfl
        exact absurd (htype ▸ hend.starts (hend.consumes (hw.memoized q hmem hq))) hdead
    exact ⟨hnone ht rfl, hnone hu (Prod.mk.inj hkey).2.symm⟩
  rcases Nat.lt_trichotomy i j with h | rfl | h
  · exact (hfails ht hu h hkey).1.trans (hfails ht hu h hkey).2.symm
  · rfl
  · exact (hfails hu ht h hkey.symm).2.trans (hfails hu ht h hkey.symm).1.symm

/-- Storing what a pattern gave. -/
theorem Correct.stored (hw : A.WellFormed G) (ha : Apart G I A) {C : Key P → Prop} {q : P} {i : Nat} {t : Token}
    (hmem : A.member q) (hq : G.memoized q = true) (ht : I.peekToken i = some t) {s : Parser P V}
      (hs : Correct G I (withOwn G C q t) s.cache)
    {value : CacheValue V} (hvalue : EntryOk G I q i (some value)) : Correct G I C (s.store (key q t) value).cache := by
  intro p e u hu hp hnot
  by_cases hkey : key p u = key q t
  · obtain ⟨rfl, htoken⟩ := Prod.mk.inj hkey
    have hsame : parse G I p e = parse G I p i := parse_of_key hw ha hmem hp hu ht htoken
    have hstored : (s.store (key p t) value).cache (key p u) = some value := by
      rw [hkey]
      exact Function.update_self ..
    rw [hstored]
    cases hvalue with
    | failure h => exact .failure (hsame.trans h)
    | result h => exact .result (hsame.trans h)
  · have hother : (s.store (key q t) value).cache (key p u) = s.cache (key p u) := Function.update_of_ne hkey _ _
    rw [hother]
    exact hs p e u hu hp fun h => h.elim hnot fun h => hkey h.2

/-! ## Every run -/

/-- `matches` of a pattern is right, but for its own entry. -/
def Meets (G : Grammar P V) (I : Input) (A : Analysis P) (p : P) (i : Nat) (t : Token) : Prop :=
  ∀ (C : Key P → Prop) (s : Parser P V), s.position = i → Clear I A C p i t → Correct G I C s.cache →
    ∃ r s' o, «matches» G I p s = some (r, s') ∧ parse G I p i = some o ∧ Returns G I (withOwn G C p t) C s s' r o

theorem matchHead_returns (hw : A.WellFormed G) (ha : Apart G I A) {C : Key P → Prop} {p : P}
    (hp : A.member p) {i : Nat} {t : Token}
    (ht : I.peekToken i = some t) (hmeets : Meets G I A p i t) (hclear : Clear I A C p i t) {s : Parser P V}
    (hpos : s.position = i) (hs : Correct G I C s.cache) :
    ∃ r s' o, matchHead G I p s = some (r, s') ∧ parse G I p i = some o ∧
      Returns G I C C s s' r (found (G.body p).advanceBy o) := by
  have hmiss (hentry : (if G.memoized p = true then s.cache (key p t) else none) = none) :
      ∃ r s' o, matchHead G I p s = some (r, s') ∧ parse G I p i = some o ∧
        Returns G I C C s s' r (found (G.body p).advanceBy o) := by
    obtain ⟨r, s₁, o, hrun, ho, hret⟩ := hmeets C s hpos hclear hs
    obtain rfl := hret.answer
    have hother (hmemo : G.memoized p = true) (value : CacheValue V) (k : Key P) (hk : C k) :
        (s₁.store (key p t) value).cache k = s.cache k := by
      have hne : k ≠ key p t := fun h => hclear.not_own (h ▸ hk)
      exact (Function.update_of_ne hne _ _).trans (hret.frame k hk)
    have hnone (hmemo : G.memoized p = true) : s.cache (key p t) = none := by rwa [if_pos hmemo] at hentry
    have hnotMemo (hmemo : ¬G.memoized p = true) : Correct G I C s₁.cache :=
      hret.correct.mono fun k hk => hk.resolve_right fun h => hmemo h.1
    rcases o with _ | ⟨v, j⟩
    · by_cases hmemo : G.memoized p = true
      · refine ⟨none, (s₁.store (key p t) .failure).at s.position, none, ?_, ho,
          .failed (hret.correct.stored hw ha hp hmemo ht (.failure ho)) (hother hmemo _), fun _ => rfl⟩
        rw [matchHead, hpos, ht]
        simp only [if_pos hmemo, hnone hmemo, hrun, Option.bind_eq_bind, Option.bind_some, Option.map_none]
      · refine ⟨none, s₁.at s.position, none, ?_, ho, .failed (hnotMemo hmemo) hret.frame, fun _ => rfl⟩
        rw [matchHead, hpos, ht]
        simp only [if_neg hmemo, hrun, Option.bind_eq_bind, Option.bind_some, Option.map_none]
    · have hpos₁ : s₁.position = j := hret.position v j rfl
      have hend₁ : s₁.position + (G.body p).advanceBy = j + (G.body p).advanceBy := by rw [hpos₁]
      by_cases hmemo : G.memoized p = true
      · refine ⟨some v, (s₁.store (key p t) (.result v s₁.position)).at (s₁.position + (G.body p).advanceBy),
          some (v, j), ?_, ho, .ended hend₁ (hret.correct.stored hw ha hp hmemo ht (.result (hpos₁ ▸ ho)))
            (hother hmemo _), nofun⟩
        rw [matchHead, hpos, ht]
        simp only [if_pos hmemo, hnone hmemo, hrun, Option.bind_eq_bind, Option.bind_some, Option.map_some]
        rfl
      · refine ⟨some v, s₁.at (s₁.position + (G.body p).advanceBy), some (v, j), ?_, ho,
          .ended hend₁ (hnotMemo hmemo) hret.frame, nofun⟩
        rw [matchHead, hpos, ht]
        simp only [if_neg hmemo, hrun, Option.bind_eq_bind, Option.bind_some, Option.map_some]
  by_cases hmemo : G.memoized p = true
  · have hok := hs p i t ht hmemo hclear.not_own
    generalize hentry : s.cache (key p t) = entry at hok
    cases hok with
    | absent => exact hmiss (by rw [if_pos hmemo, hentry])
    | failure h =>
      refine ⟨none, s, none, ?_, h, .failed hs fun k _ => rfl, fun _ => rfl⟩
      rw [matchHead, hpos, ht]
      simp only [if_pos hmemo, hentry]
    | @result v j h =>
      refine ⟨some v, s.at (j + (G.body p).advanceBy), some (v, j), ?_, h, .ended rfl hs fun k _ => rfl, nofun⟩
      rw [matchHead, hpos, ht]
      simp only [if_pos hmemo, hentry]
  · exact hmiss (if_neg hmemo)

/-- What a pattern reaches is matched right if `matches` is right there. -/
theorem ready_of_meets (hw : A.WellFormed G) (ha : Apart G I A) {C : Key P → Prop} {p : P}
    (hp : A.member p) {i : Nat} {t : Token}
    (ht : I.peekToken i = some t) (hclear : Clear I A C p i t)
    (hmeets : ∀ q e u, A.member q → I.peekToken e = some u → e = i ∧ A.Below p q ∨ i < e ∧ t.tokenType ∈ A.starts p →
      Meets G I A q e u) :
    Ready G I A (withOwn G C p t) p i t := by
  constructor
  · intro q e u hq hu hreach s hpos hs
    exact matchHead_returns hw ha hq hu (hmeets q e u hq hu hreach) (hclear.reached ha hp ht hu hreach) hpos hs
  · intro q hq hbelow hmemo s hpos hs
    have hreach : i = i ∧ A.Below p q ∨ i < i ∧ t.tokenType ∈ A.starts p := .inl ⟨rfl, hbelow⟩
    obtain ⟨r, s', o, hrun, ho, hret⟩ := hmeets q i t hq ht hreach _ s hpos (hclear.reached ha hp ht ht hreach) hs
    refine ⟨r, s', o, hrun, ho, ⟨hret.answer, hret.position, hret.correct.mono fun k hk => hk.resolve_right fun h => ?_,
      hret.frame⟩, hret.stays⟩
    exact absurd (h.1.symm.trans hmemo) nofun

theorem matches_meets (hw : A.WellFormed G) (ha : Apart G I A) {p : P} (hp : A.member p) {i : Nat} {t : Token}
    (ht : I.peekToken i = some t)
    (hmeets : ∀ q e u, A.member q → I.peekToken e = some u → e = i ∧ A.Below p q ∨ i < e ∧ t.tokenType ∈ A.starts p →
      Meets G I A q e u) :
    Meets G I A p i t := by
  intro C s hpos hclear hs
  have hr := ready_of_meets hw ha hp ht hclear hmeets
  have hs' : Correct G I (withOwn G C p t) s.cache := hs.mono fun k hk => .inl hk
  have hnot : ∀ v j, (none : Found V) = some (v, j) → i < j ∧ t.tokenType ∈ A.starts p := nofun
  by_cases hmemo : G.memoized p = true
  · have hC : withOwn G C p t (key p t) := .inr ⟨hmemo, rfl⟩
    have hne (k : Key P) (hk : C k) : k ≠ key p t := fun h => hclear.not_own (h ▸ hk)
    have hseed : (s.store (key p t) (.seed false s.position)).cache (key p t) = some (.seed false i) := by
      rw [← hpos]
      exact Function.update_self ..
    obtain ⟨r, s₁, o, hrun, ho, hgoes, hprogress⟩ := matchesImpl_goes (b := false)
      (s := s.store (key p t) (.seed false s.position)) hw hp ht hr (fun _ => hC) hnot hpos (hs'.store hC _)
      fun _ => hseed ▸ .seed false
    have hframe (k : Key P) (hk : C k) : s₁.cache k = s.cache k :=
      (hgoes.frame k ⟨.inl hk, fun _ => hne k hk⟩).trans (Function.update_of_ne (hne k hk) _ _)
    obtain rfl := hgoes.answer
    rcases o with _ | ⟨v, j⟩
    · refine ⟨none, s₁.at s.position, none, ?_, by rw [parse, ho]; rfl,
        .failed hgoes.correct hframe, fun _ => rfl⟩
      rw [«matches», if_pos hmemo, hpos, ht]
      rw [hpos] at hrun
      simp [hrun]
    · have hj := hgoes.position v j rfl
      by_cases hleft : G.leftRecursive p = true
      · have hentry : s₁.cache (key p t) = some (.seed true i) := by
          generalize hc : s₁.cache (key p t) = entry at hprogress
          cases hprogress hleft
          rfl
        -- the first round gives what `matches_impl` gave
        obtain ⟨r₂, s₂, o₂, hrun₂, ho₂, hgoes₂, hprogress₂⟩ :=
          matchesImpl_goes (b := true) (s := s₁.at i) hw hp ht hr (fun _ => hC)
          hnot rfl hgoes.correct fun _ => hentry ▸ .seed true
        obtain rfl := Option.some.inj (ho.symm.trans ho₂)
        obtain rfl := hgoes₂.answer
        have hentry₂ : s₂.cache (key p t) = some (.seed true i) := by
          generalize hc : s₂.cache (key p t) = entry at hprogress₂
          cases hprogress₂ hleft
          rfl
        have hj₂ := hgoes₂.position v j rfl
        obtain ⟨o', ho', hends⟩ := parseBody_total none hw hp ht (fun q e u hq hu _ => parse_total hw hq hu) nofun
        obtain rfl := Option.some.inj (ho.symm.trans ho')
        have hend := hends v j rfl
        rw [leftRecursive_advanceBy hleft, Nat.add_zero] at hend
        have hij := hend.consumes (hw.memoized p hp hmemo)
        obtain ⟨w, k, s₃, hrun₃, hgrow, hk, hc₃, hframe₃⟩ := growLr_goes (v := v) (j := j)
          (s := s₂.store (key p t) (.result v s₂.position)) hw hp ht hr hleft hC ⟨hij, hend.inside, hend.starts hij⟩
          (hgoes₂.correct.store hC _) (by rw [hj₂]; exact Function.update_self ..)
        refine ⟨some w, s₃, some (w, k), ?_, by rw [parse, ho]; simp [hleft, hgrow],
          .ended hk hc₃ fun k' hk' => ?_, nofun⟩
        · rw [«matches», if_pos hmemo, hpos, ht]
          rw [hpos] at hrun
          simp only [Option.bind_eq_bind, Option.bind_some, hrun, Option.map_some, hentry]
          rw [growLr, hrun₂]
          have hfar : ¬s₂.position ≤ i := by omega
          simp [hentry₂, CacheValue.position?, hfar, hrun₃]
        · rw [hframe₃ k' ⟨.inl hk', hne k' hk'⟩]
          refine (Function.update_of_ne (hne k' hk') _ _).trans ?_
          exact (hgoes₂.frame k' ⟨.inl hk', fun _ => hne k' hk'⟩).trans (hframe k' hk')
      · have hentry : s₁.cache (key p t) = some (.seed false i) :=
          (hgoes.frame _ ⟨hC, fun h => absurd h hleft⟩).trans hseed
        refine ⟨some v, s₁, some (v, j), ?_, by rw [parse, ho]; simp [hleft],
          .ended hj hgoes.correct hframe, nofun⟩
        rw [«matches», if_pos hmemo, hpos, ht]
        rw [hpos] at hrun
        simp [hrun, hentry]
  · have hleft : ¬G.leftRecursive p = true := fun h => hmemo (hw.leftRecursive p hp h)
    obtain ⟨r, s₁, o, hrun, ho, hgoes, -⟩ := matchesImpl_goes (b := false) (s := s) hw hp ht hr
      (fun h => absurd h hleft) hnot hpos hs'
      fun h => absurd h hleft
    have hframe (k : Key P) (hk : C k) : s₁.cache k = s.cache k := hgoes.frame k ⟨.inl hk, fun h => absurd h hleft⟩
    obtain rfl := hgoes.answer
    rcases o with _ | ⟨v, j⟩
    · refine ⟨none, s₁.at s.position, none, ?_, by rw [parse, ho]; rfl,
        .failed hgoes.correct hframe, fun _ => rfl⟩
      rw [«matches», if_neg hmemo, hrun]
      rfl
    · refine ⟨some v, s₁, some (v, j), ?_, by rw [parse, ho]; simp [hleft],
        .ended (hgoes.position v _ rfl) hgoes.correct hframe, nofun⟩
      rw [«matches», if_neg hmemo, hrun]
      rfl

theorem meets (hw : A.WellFormed G) (ha : Apart G I A) {p : P} (hp : A.member p) {i : Nat} {t : Token}
    (ht : I.peekToken i = some t) :
    Meets G I A p i t := by
  induction hn : A.measure (I.tokens.length - i) p using Nat.strongRecOn generalizing p i t with
  | ind n ih =>
    refine matches_meets hw ha hp ht fun q e u hq hu hreach => ih _ ?_ hq hu rfl
    rw [← hn]
    rcases hreach with ⟨rfl, hbelow⟩ | ⟨hlt, -⟩
    · exact Nat.add_lt_add_left hbelow.1 _
    · have hei := peekToken_lt hu
      exact hw.measure_lt (by omega) p hq

/-! ## A parse -/

/-- A pattern where the parser stands, without a table. -/
def parseAt (G : Grammar P V) (I : Input) (p : P) (i : Nat) : Option (Found V) :=
  match I.peekToken i with
  | none => some none
  | some _ => (parse G I p i).map (found (G.body p).advanceBy)

/-- The parser in a parse: at its start, moved to a token, or after a match of a pattern that comes from `rules`. -/
inductive Parsing (G : Grammar P V) (I : Input) (rules : P → Prop) : Parser P V → Prop
  | start : Parsing G I rules {}
  | moved {s : Parser P V} (position : Nat) : Parsing G I rules s → Parsing G I rules (s.at position)
  | matched {s s' : Parser P V} {p : P} {r : Option V} : Parsing G I rules s → G.Occurs rules p →
    matchHead G I p s = some (r, s') →
      Parsing G I rules s'

/-- No pattern is in progress. -/
def idle : Key P → Prop := fun _ => False

theorem matchHead_parseAt (hw : A.WellFormed G) (ha : Apart G I A) {p : P} (hp : A.member p) {s : Parser P V}
    (hs : Correct G I idle s.cache) :
    ∃ o s', matchHead G I p s = some (o.map Prod.fst, s') ∧ parseAt G I p s.position = some o ∧
      s'.position = o.elim s.position Prod.snd ∧ Correct G I idle s'.cache := by
  cases ht : I.peekToken s.position with
  | none => exact ⟨none, s, matchHead_none ht, by rw [parseAt, ht], rfl, hs⟩
  | some t =>
    obtain ⟨r, s', o, hrun, ho, hret⟩ := matchHead_returns hw ha hp ht (meets hw ha hp ht) (fun _ h => h.elim) rfl hs
    obtain rfl := hret.answer
    refine ⟨found (G.body p).advanceBy o, s', hrun, by rw [parseAt, ht]; simp [ho], ?_, hret.correct⟩
    generalize found (G.body p).advanceBy o = last at hret
    cases last with
    | none => exact hret.stays rfl
    | some e => exact hret.position e.1 e.2 rfl

theorem Parsing.correct (hw : A.WellFormed G) (ha : Apart G I A) {rules : P → Prop} (hrules : ∀ p, rules p → A.member p)
    {s : Parser P V} (hs : Parsing G I rules s) : Correct G I idle s.cache := by
  induction hs with
  | start => exact fun q i t _ _ _ => .absent
  | moved position _ ih => exact ih
  | matched _ hp hrun ih =>
    obtain ⟨o, s', hrun', -, -, hc⟩ := matchHead_parseAt hw ha (hw.member_of_occurs hrules hp) ih
    obtain rfl := (Prod.mk.inj (Option.some.inj (hrun.symm.trans hrun'))).2
    exact hc

/-- **Memoisation**: in a parse a pattern of a well-formed grammar gives what it gives without a table. -/
theorem Parsing.match_eq (hw : A.WellFormed G) (ha : Apart G I A) {rules : P → Prop} (hrules : ∀ p, rules p → A.member p)
    {s : Parser P V} (hs : Parsing G I rules s) {p : P} (hp : G.Occurs rules p) :
    ∃ o s', matchHead G I p s = some (o.map Prod.fst, s') ∧ parseAt G I p s.position = some o ∧
      s'.position = o.elim s.position Prod.snd := by
  obtain ⟨o, s', hrun, ho, hpos, -⟩ :=
    matchHead_parseAt hw ha (hw.member_of_occurs hrules hp) (hs.correct hw ha hrules)
  exact ⟨o, s', hrun, ho, hpos⟩

end Pylang.Parse
