/-
What a pattern reads at a position, as a relation (`Reads`): the operators of a
parsing expression grammar, one lemma for each, over the reference.
-/
import Pylang.Parser.MemoFaithful
import Pylang.Parser.Restore

namespace Pylang.Parse

open Pylang.Lex (TokenType Token)

variable {P V : Type} [DecidableEq P]

section
variable (G : Grammar P V) (I : Input)

/-- The pattern matches at `i` with a result, and the next one stands at `j`. -/
def Reads (p : P) (i : Nat) (v : V) (j : Nat) : Prop := parseAt G I p i = some (some (v, j))

/-- A pack of patterns, one behind the other. -/
def ReadsAll : List P → Nat → List V → Nat → Prop
  | [], i, vs, j => vs = [] ∧ j = i
  | p :: ps, i, vs, k => ∃ v j ws, Reads G I p i v j ∧ ReadsAll ps j ws k ∧ vs = v :: ws

def Fails (parts : List P) (i : Nat) : Prop := ∀ vs j, ¬ ReadsAll G I parts i vs j

/-- The first alternative that matches makes the result. -/
def ReadsOne : List (List P × (List V → Nat → Nat → Option V)) → Nat → V → Nat → Prop
  | [], _, _, _ => False
  | (parts, act) :: as, i, v, j =>
    (∃ vs, ReadsAll G I parts i vs j ∧ act vs i j = some v) ∨ Fails G I parts i ∧ ReadsOne as i v j

/-- A pack as often as it matches. -/
inductive ReadsMany (parts : List P) : Nat → List V → Nat → Prop
  | stop {i : Nat} : Fails G I parts i → ReadsMany parts i [] i
  | next {i j k : Nat} {vs ws : List V} : ReadsAll G I parts i vs j → ReadsMany parts j ws k →
      ReadsMany parts i (G.pack vs :: ws) k

end

variable {G : Grammar P V} {I : Input} {A : Analysis P} {o : Own P V} {p : P} {parts : List P} {i j k : Nat} {v w : V}
  {vs ws : List V}

/-! ## One result -/

theorem Reads.unique (h : Reads G I p i v j) (h' : Reads G I p i w k) : v = w ∧ j = k :=
  Prod.mk.inj (Option.some.inj (Option.some.inj (h.symm.trans h')))

theorem ReadsAll.unique : ∀ {parts : List P} {i : Nat} {vs ws : List V}, ReadsAll G I parts i vs j →
    ReadsAll G I parts i ws k → vs = ws ∧ j = k
  | [], _, _, _, ⟨hvs, hj⟩, ⟨hws, hk⟩ => ⟨hvs.trans hws.symm, hj.trans hk.symm⟩
  | _ :: _, _, _, _, ⟨_, _, _, h, hs, hvs⟩, ⟨_, _, _, h', hs', hws⟩ => by
    obtain ⟨rfl, rfl⟩ := h.unique h'
    obtain ⟨rfl, rfl⟩ := ReadsAll.unique hs hs'
    exact ⟨hvs.trans hws.symm, rfl⟩

theorem readsAll_append {front back : List P} : ReadsAll G I (front ++ back) i vs k ↔
    ∃ us j ws, ReadsAll G I front i us j ∧ ReadsAll G I back j ws k ∧ vs = us ++ ws := by
  induction front generalizing i vs with
  | nil =>
    constructor
    · exact fun h => ⟨[], i, vs, ⟨rfl, rfl⟩, h, rfl⟩
    · intro h
      obtain ⟨us, j, ws, ⟨rfl, rfl⟩, hws, rfl⟩ := h
      exact hws
  | cons p ps ih =>
    constructor
    · intro h
      obtain ⟨v, e, rest, hv, hrest, rfl⟩ := h
      obtain ⟨us, j, ws, hus, hws, rfl⟩ := ih.mp hrest
      exact ⟨v :: us, j, ws, ⟨v, e, us, hv, hus, rfl⟩, hws, rfl⟩
    · intro h
      obtain ⟨_, j, ws, ⟨v, e, us, hv, hus, rfl⟩, hws, rfl⟩ := h
      exact ⟨v, e, us ++ ws, hv, ih.mpr ⟨us, j, ws, hus, hws, rfl⟩, rfl⟩

theorem ReadsMany.unique (h : ReadsMany G I parts i vs j) (h' : ReadsMany G I parts i ws k) : vs = ws ∧ j = k := by
  induction h generalizing ws with
  | stop hf =>
    cases h' with
    | stop _ => exact ⟨rfl, rfl⟩
    | next hs _ => exact absurd hs (hf _ _)
  | next hs _ ih =>
    cases h' with
    | stop hf => exact absurd hs (hf _ _)
    | next hs' hm =>
      obtain ⟨rfl, rfl⟩ := hs.unique hs'
      obtain ⟨rfl, rfl⟩ := ih hm
      exact ⟨rfl, rfl⟩

theorem Reads.token (h : Reads G I p i v j) : ∃ t, I.peekToken i = some t := by
  cases ht : I.peekToken i with
  | none =>
    rw [Reads, parseAt, ht] at h
    cases h
  | some t => exact ⟨t, rfl⟩

theorem ReadsAll.token (h : ReadsAll G I parts i vs j) (hne : parts ≠ []) : ∃ t, I.peekToken i = some t := by
  cases parts with
  | nil => exact absurd rfl hne
  | cons p ps =>
    obtain ⟨v, e, ws, hv, -⟩ := h
    exact hv.token

/-! ## Where it ends -/

theorem answers (hw : A.WellFormed G) (hp : A.member p) (i : Nat) : ∃ o, parseAt G I p i = some o := by
  cases ht : I.peekToken i with
  | none => exact ⟨none, by rw [parseAt, ht]⟩
  | some t =>
    obtain ⟨o, ho, -⟩ := parse_total hw hp ht
    refine ⟨found (G.body p).advanceBy o, ?_⟩
    rw [parseAt, ht]
    simp only [ho, Option.map_some]

theorem Reads.ends (hw : A.WellFormed G) (hp : A.member p) (h : Reads G I p i v j) :
    i ≤ j ∧ j ≤ I.tokens.length ∧ (A.consumes p = true → i < j) := by
  obtain ⟨t, ht⟩ := h.token
  obtain ⟨o, ho, hends⟩ := parse_total hw hp ht
  rw [Reads, parseAt, ht] at h
  simp only [ho, Option.map_some] at h
  rcases o with _ | ⟨v', j'⟩
  · cases h
  · cases h
    exact ⟨(hends _ _ rfl).le, (hends _ _ rfl).inside, (hends _ _ rfl).consumes⟩

theorem ReadsAll.le (hw : A.WellFormed G) (hparts : ∀ p ∈ parts, A.member p) (h : ReadsAll G I parts i vs j) : i ≤ j := by
  induction parts generalizing i vs with
  | nil => exact Nat.le_of_eq h.2.symm
  | cons p ps ih =>
    obtain ⟨v, e, ws, hv, hs, -⟩ := h
    exact Nat.le_trans (hv.ends hw (hparts p List.mem_cons_self)).1 (ih (fun q hq => hparts q (List.mem_cons_of_mem _ hq)) hs)

omit [DecidableEq P] in
theorem ne_nil_of_consuming (hc : A.Consuming parts) : parts ≠ [] := by
  obtain ⟨q, hq, -⟩ := hc
  exact List.ne_nil_of_mem hq

/-- A pack that reads a token goes forward. -/
theorem ReadsAll.lt (hw : A.WellFormed G) (hparts : ∀ p ∈ parts, A.member p) (hc : A.Consuming parts)
    (h : ReadsAll G I parts i vs j) : i < j ∧ i < I.tokens.length := by
  induction parts generalizing i vs with
  | nil =>
    obtain ⟨q, hq, -⟩ := hc
    cases hq
  | cons p ps ih =>
    obtain ⟨v, e, ws, hv, hs, -⟩ := h
    have htail : ∀ q ∈ ps, A.member q := fun q hq => hparts q (List.mem_cons_of_mem _ hq)
    have hends := hv.ends hw (hparts p List.mem_cons_self)
    obtain ⟨t, ht⟩ := hv.token
    refine ⟨?_, peekToken_lt ht⟩
    obtain ⟨q, hq, hq'⟩ := hc
    rcases List.mem_cons.mp hq with rfl | hq
    · exact Nat.lt_of_lt_of_le (hends.2.2 hq') (hs.le hw htail)
    · exact Nat.lt_of_le_of_lt hends.1 (ih htail ⟨q, hq, hq'⟩ hs).1

/-! ## Packs, alternatives and loops -/

theorem parseHead_parseAt (hne : p ≠ o.pattern) : parseHead G I o p i = parseAt G I p i := by
  rw [parseHead, parseAt]
  cases I.peekToken i with
  | none => rfl
  | some t =>
    simp only [hne, false_and, if_false]
    cases parse G I p i <;> rfl

theorem parseAll_cases (hw : A.WellFormed G) (hparts : ∀ p ∈ parts, A.member p) (hown : o.pattern ∉ parts) :
    (∃ vs j, parseAll G I o parts i = some (some (vs, j)) ∧ ReadsAll G I parts i vs j) ∨
      parseAll G I o parts i = some none ∧ Fails G I parts i := by
  induction parts generalizing i with
  | nil => exact .inl ⟨[], i, by rw [parseAll], rfl, rfl⟩
  | cons p ps ih =>
    have hhead : parseHead G I o p i = parseAt G I p i := parseHead_parseAt fun h => hown (h ▸ List.mem_cons_self)
    obtain ⟨o, ho⟩ := answers hw (I := I) (hparts p List.mem_cons_self) i
    rw [parseAll, hhead, ho]
    rcases o with _ | ⟨v, e⟩
    · refine .inr ⟨rfl, fun vs j h => ?_⟩
      obtain ⟨w, k, ws, hw, -⟩ := h
      cases ho.symm.trans hw
    · have hv : Reads G I p i v e := ho
      rcases ih (i := e) (fun q hq => hparts q (List.mem_cons_of_mem _ hq)) (fun h => hown (List.mem_cons_of_mem _ h)) with
        ⟨vs, j, hall, hvs⟩ | ⟨hall, hfails⟩
      · exact .inl ⟨v :: vs, j, by simp [hall], v, e, vs, hv, hvs, rfl⟩
      · refine .inr ⟨by simp [hall], fun vs j h => ?_⟩
        obtain ⟨w, k, ws, hw, hws, -⟩ := h
        obtain ⟨-, rfl⟩ := hv.unique hw
        exact hfails ws j hws

theorem parseOneOf_iff (hw : A.WellFormed G) {as : List (List P × (List V → Nat → Nat → Option V))}
    (has : ∀ a ∈ as, ∀ p ∈ a.1, A.member p) (hown : ∀ a ∈ as, o.pattern ∉ a.1) :
    parseOneOf G I o as i = some (some (v, j)) ↔ ReadsOne G I as i v j := by
  induction as with
  | nil =>
    rw [parseOneOf]
    exact iff_of_false (fun h => by cases h) id
  | cons a as ih =>
    obtain ⟨parts, act⟩ := a
    have ih := ih (fun a ha => has a (List.mem_cons_of_mem _ ha)) fun a ha => hown a (List.mem_cons_of_mem _ ha)
    rw [parseOneOf]
    rcases parseAll_cases (I := I) (i := i) hw (has _ List.mem_cons_self) (hown _ List.mem_cons_self) with
      ⟨vs, e, hall, hvs⟩ | ⟨hall, hfails⟩
    · have hall : parseAll G I o parts i = some (some (vs, e)) := hall
      rw [hall]
      show some ((act vs i e).map (·, e)) = _ ↔ _
      constructor
      · intro h
        obtain ⟨v', hact, heq⟩ := Option.map_eq_some_iff.mp (Option.some.inj h)
        obtain ⟨rfl, rfl⟩ := Prod.mk.inj heq
        exact .inl ⟨vs, hvs, hact⟩
      · intro h
        rcases h with ⟨ws, hws, hact⟩ | ⟨hfails, -⟩
        · obtain ⟨rfl, rfl⟩ := hvs.unique hws
          rw [hact]
          rfl
        · exact absurd hvs (hfails _ _)
    · have hall : parseAll G I o parts i = some none := hall
      rw [hall]
      show parseOneOf G I o as i = _ ↔ _
      rw [ih]
      constructor
      · exact fun h => .inr ⟨hfails, h⟩
      · intro h
        rcases h with ⟨ws, hws, -⟩ | ⟨-, h⟩
        · exact absurd hws (hfails _ _)
        · exact h

/-- A result is that of an alternative. -/
theorem parseOneOf_result {as : List (List P × (List V → Nat → Nat → Option V))}
    (h : parseOneOf G I o as i = some (some (v, j))) : ∃ a ∈ as, ∃ vs, a.2 vs i j = some v := by
  induction as with
  | nil =>
    rw [parseOneOf] at h
    cases h
  | cons a as ih =>
    obtain ⟨parts, act⟩ := a
    rw [parseOneOf] at h
    rcases hall : parseAll G I o parts i with _ | _ | ⟨vs, e⟩
    · rw [hall] at h
      cases h
    · rw [hall] at h
      obtain ⟨a, ha, hv⟩ := ih h
      exact ⟨a, List.mem_cons_of_mem _ ha, hv⟩
    · rw [hall] at h
      obtain ⟨w, hw, heq⟩ := Option.map_eq_some_iff.mp (Option.some.inj h)
      obtain ⟨rfl, rfl⟩ := Prod.mk.inj heq
      exact ⟨_, List.mem_cons_self, vs, hw⟩

theorem parseRepeated_reads (hw : A.WellFormed G) (hparts : ∀ p ∈ parts, A.member p) (hc : A.Consuming parts)
    (hown : o.pattern ∉ parts) (i : Nat) :
    ∃ vs j, parseRepeated G I o parts i = some (vs, j) ∧ ReadsMany G I parts i vs j := by
  induction hn : I.tokens.length - i using Nat.strongRecOn generalizing i with
  | ind n ih =>
    rw [parseRepeated]
    rcases parseAll_cases (I := I) (i := i) hw hparts hown with ⟨vs, j, hall, hvs⟩ | ⟨hall, hfails⟩
    · have hlt := hvs.lt hw hparts hc
      obtain ⟨ws, k, hrest, hws⟩ := ih _ (by omega) j rfl
      exact ⟨G.pack vs :: ws, k, by simp [hall, hrest], .next hvs hws⟩
    · exact ⟨[], i, by simp [hall], .stop hfails⟩

theorem ReadsOne.token {as : List (List P × (List V → Nat → Nat → Option V))} (hne : ∀ a ∈ as, a.1 ≠ [])
    (h : ReadsOne G I as i v j) : ∃ t, I.peekToken i = some t := by
  induction as with
  | nil => cases h
  | cons a as ih =>
    rcases h with ⟨vs, hvs, -⟩ | ⟨-, h⟩
    · exact hvs.token (hne a List.mem_cons_self)
    · exact ih (fun a ha => hne a (List.mem_cons_of_mem _ ha)) h

/-! ## Patterns -/

theorem reads_body (hleft : G.leftRecursive p = false) : Reads G I p i v k ↔ (∃ t, I.peekToken i = some t) ∧
    ∃ j, parseBody G I ⟨p, i, none⟩ (G.body p) i = some (some (v, j)) ∧ k = j + (G.body p).advanceBy := by
  unfold Reads parseAt
  cases I.peekToken i with
  | none => exact iff_of_false (fun h => by cases h) fun h => by obtain ⟨⟨t, ht⟩, -⟩ := h; cases ht
  | some t =>
    dsimp only
    rw [parse]
    rcases parseBody G I ⟨p, i, none⟩ (G.body p) i with _ | _ | ⟨w, e⟩
    · exact iff_of_false (fun h => by cases h) fun h => by obtain ⟨-, j, hj, -⟩ := h; cases hj
    · exact iff_of_false (fun h => by cases h) fun h => by obtain ⟨-, j, hj, -⟩ := h; cases hj
    · simp only [Option.bind_eq_bind, Option.bind_some, hleft]
      constructor
      · intro h
        cases h
        exact ⟨⟨t, rfl⟩, e, rfl, rfl⟩
      · intro h
        obtain ⟨-, j, hj, rfl⟩ := h
        cases hj
        rfl

theorem reads_alternatives (hw : A.WellFormed G) (hp : A.member p)
    {as : List (List P × (List V → Nat → Nat → Option V))} (hbody : G.body p = .alternatives as)
    (hself : ∀ a ∈ as, p ∉ a.1 ∧ a.1 ≠ []) : Reads G I p i v j ↔ ReadsOne G I as i v j := by
  have has : ∀ a ∈ as, ∀ q ∈ a.1, A.member q := by
    have hok := hw.body p hp
    rw [hbody] at hok
    exact hok.1
  have hleft : G.leftRecursive p = false := by
    refine Bool.eq_false_iff.mpr fun h => ?_
    obtain ⟨tail, act, as', hbody'⟩ := leftRecursive_body h
    obtain rfl := Body.alternatives.inj (hbody.symm.trans hbody')
    exact (hself _ List.mem_cons_self).1 List.mem_cons_self
  have hone : parseBody G I ⟨p, i, none⟩ (.alternatives as) i = some (some (v, j)) ↔ ReadsOne G I as i v j := by
    rw [parseBody]
    exact parseOneOf_iff hw has fun a ha => (hself a ha).1
  rw [reads_body hleft, hbody]
  constructor
  · intro h
    obtain ⟨-, e, he, rfl⟩ := h
    rw [parseBody] at he
    exact (parseOneOf_iff hw has fun a ha => (hself a ha).1).mp he
  · intro h
    exact ⟨h.token fun a ha => (hself a ha).2, j, hone.mpr h, rfl⟩

theorem leftRecursive_of_body (h : ∀ as, G.body p ≠ .alternatives as) : G.leftRecursive p = false := by
  refine Bool.eq_false_iff.mpr fun hleft => ?_
  obtain ⟨tail, act, as, hbody⟩ := leftRecursive_body hleft
  exact h _ hbody

theorem reads_zeroOrMore (hw : A.WellFormed G) (hp : A.member p) (hbody : G.body p = .zeroOrMore parts) (hself : p ∉ parts) :
    Reads G I p i v j ↔ (∃ t, I.peekToken i = some t) ∧ ∃ vs, ReadsMany G I parts i vs j ∧ v = G.vector vs := by
  have hok := hw.body p hp
  rw [hbody] at hok
  obtain ⟨vs, e, hrun, hvs⟩ := parseRepeated_reads (I := I) (o := ⟨p, i, none⟩) hw hok.1 hok.2.2.1 hself i
  rw [reads_body (leftRecursive_of_body (by rw [hbody]; intro as h; cases h)), hbody, parseBody, hrun]
  constructor
  · intro h
    obtain ⟨ht, k, hk, rfl⟩ := h
    cases hk
    exact ⟨ht, vs, hvs, rfl⟩
  · intro h
    obtain ⟨ht, ws, hws, rfl⟩ := h
    obtain ⟨rfl, rfl⟩ := hvs.unique hws
    exact ⟨ht, e, rfl, rfl⟩

theorem reads_oneOrMore (hw : A.WellFormed G) (hp : A.member p) (hbody : G.body p = .oneOrMore parts) (hself : p ∉ parts) :
    Reads G I p i v j ↔
      ∃ vs e ws, ReadsAll G I parts i vs e ∧ ReadsMany G I parts e ws j ∧ v = G.vector (G.pack vs :: ws) := by
  have hok := hw.body p hp
  rw [hbody] at hok
  rw [reads_body (leftRecursive_of_body (by rw [hbody]; intro as h; cases h)), hbody, parseBody]
  rcases parseAll_cases (I := I) (o := ⟨p, i, none⟩) (i := i) hw hok.1 hself with ⟨vs, e, hall, hvs⟩ | ⟨hall, hfails⟩
  · obtain ⟨ws, k, hrun, hws⟩ := parseRepeated_reads (I := I) (o := ⟨p, i, none⟩) hw hok.1 hok.2.2 hself e
    rw [hall]
    simp only [Option.bind_eq_bind, Option.bind_some, hrun]
    constructor
    · intro h
      obtain ⟨-, l, hl, rfl⟩ := h
      cases hl
      exact ⟨vs, e, ws, hvs, hws, rfl⟩
    · intro h
      obtain ⟨vs', e', ws', hvs', hws', rfl⟩ := h
      obtain ⟨rfl, rfl⟩ := hvs.unique hvs'
      obtain ⟨rfl, rfl⟩ := hws.unique hws'
      exact ⟨hvs.token (ne_nil_of_consuming hok.2.2), k, rfl, rfl⟩
  · rw [hall]
    refine iff_of_false (fun h => ?_) fun h => ?_
    · obtain ⟨-, l, hl, -⟩ := h
      cases hl
    · obtain ⟨vs, e, ws, hvs, -⟩ := h
      exact hfails vs e hvs

theorem reads_zeroOrOne (hw : A.WellFormed G) (hp : A.member p) (hbody : G.body p = .zeroOrOne parts) (hself : p ∉ parts) :
    Reads G I p i v j ↔ (∃ t, I.peekToken i = some t) ∧
      ((∃ vs, ReadsAll G I parts i vs j ∧ v = G.optional (some (G.pack vs))) ∨
        Fails G I parts i ∧ v = G.optional none ∧ j = i) := by
  have hok := hw.body p hp
  rw [hbody] at hok
  rw [reads_body (leftRecursive_of_body (by rw [hbody]; intro as h; cases h)), hbody, parseBody]
  rcases parseAll_cases (I := I) (o := ⟨p, i, none⟩) (i := i) hw hok.1 hself with ⟨vs, e, hall, hvs⟩ | ⟨hall, hfails⟩
  · rw [hall]
    refine and_congr_right fun ht => ?_
    constructor
    · intro h
      obtain ⟨k, hk, rfl⟩ := h
      cases hk
      exact .inl ⟨vs, hvs, rfl⟩
    · intro h
      rcases h with ⟨ws, hws, rfl⟩ | ⟨hfails, -⟩
      · obtain ⟨rfl, rfl⟩ := hvs.unique hws
        exact ⟨e, rfl, rfl⟩
      · exact absurd hvs (hfails _ _)
  · rw [hall]
    refine and_congr_right fun ht => ?_
    constructor
    · intro h
      obtain ⟨k, hk, rfl⟩ := h
      cases hk
      exact .inr ⟨hfails, rfl, rfl⟩
    · intro h
      rcases h with ⟨ws, hws, -⟩ | ⟨-, rfl, rfl⟩
      · exact absurd hws (hfails _ _)
      · exact ⟨_, rfl, rfl⟩

theorem reads_token {type : TokenType} (hbody : G.body p = .singleToken [type]) :
    Reads G I p i v j ↔ ∃ t, I.peekToken i = some t ∧ t.tokenType = type ∧ v = G.token t ∧ j = i + 1 := by
  rw [reads_body (leftRecursive_of_body (by rw [hbody]; intro as h; cases h)), hbody, parseBody]
  constructor
  · intro h
    obtain ⟨⟨t, ht⟩, k, hk, rfl⟩ := h
    rw [singleTokenAt_eq ht] at hk
    by_cases htype : type = t.tokenType
    · simp [htype, ht] at hk
      obtain ⟨rfl, rfl⟩ := hk
      exact ⟨t, ht, htype.symm, rfl, rfl⟩
    · simp [htype] at hk
  · intro h
    obtain ⟨t, ht, htype, rfl, rfl⟩ := h
    refine ⟨⟨t, ht⟩, i, ?_, rfl⟩
    rw [singleTokenAt_eq ht]
    simp [htype, ht]

theorem reads_notAt {literals : List Char → Bool} (hbody : G.body p = .notAt literals) :
    Reads G I p i v j ↔ ∃ t, I.peekToken i = some t ∧ literals (I.text t) = false ∧ v = G.monostate ∧ j = i := by
  rw [reads_body (leftRecursive_of_body (by rw [hbody]; intro as h; cases h)), hbody, parseBody]
  constructor
  · intro h
    obtain ⟨⟨t, ht⟩, k, hk, rfl⟩ := h
    cases hl : literals (I.text t) with
    | true => simp [ht, hl] at hk
    | false =>
      simp [ht, hl] at hk
      obtain ⟨rfl, rfl⟩ := hk
      exact ⟨t, ht, hl, rfl, rfl⟩
  · intro h
    obtain ⟨t, ht, hl, rfl, rfl⟩ := h
    refine ⟨⟨t, ht⟩, j, ?_, rfl⟩
    simp [ht, hl]

theorem reads_lookAhead (hw : A.WellFormed G) (hp : A.member p) {q : P} (hbody : G.body p = .lookAhead q) :
    Reads G I p i v j ↔ (∃ w k, Reads G I q i w k) ∧ v = G.monostate ∧ j = i := by
  have hq : A.member q := hw.member_uses hp (by rw [hbody]; exact List.mem_singleton_self q)
  rw [reads_body (leftRecursive_of_body (by rw [hbody]; intro as h; cases h)), hbody, parseBody]
  unfold Reads parseAt
  cases ht : I.peekToken i with
  | none =>
    refine iff_of_false (fun h => ?_) fun h => ?_
    · obtain ⟨⟨t, h⟩, -⟩ := h
      cases h
    · obtain ⟨⟨w, k, h⟩, -⟩ := h
      cases h
  | some t =>
    obtain ⟨o, ho, -⟩ := parse_total hw hq ht
    rw [ho]
    cases o with
    | none =>
      refine iff_of_false (fun h => ?_) fun h => ?_
      · obtain ⟨-, k, h, -⟩ := h
        cases h
      · obtain ⟨⟨w, k, h⟩, -⟩ := h
        cases h
    | some r =>
      constructor
      · intro h
        obtain ⟨-, k, h, rfl⟩ := h
        cases h
        exact ⟨⟨r.1, r.2 + (G.body q).advanceBy, rfl⟩, rfl, rfl⟩
      · intro h
        obtain ⟨-, rfl, rfl⟩ := h
        exact ⟨⟨t, rfl⟩, j, rfl, rfl⟩

/-! ## Failing -/

theorem fails_head {q : P} (h : Fails G I [q] i) (qs : List P) : Fails G I (q :: qs) i := by
  intro vs j hvs
  obtain ⟨v, e, ws, hv, -⟩ := hvs
  exact h [v] e ⟨v, e, [], hv, ⟨rfl, rfl⟩, rfl⟩

theorem fails_second {q : P} {qs : List P} (h : Reads G I q i v j) (hfails : Fails G I qs j) : Fails G I (q :: qs) i := by
  intro vs k hvs
  obtain ⟨w, e, ws, hw, hws, -⟩ := hvs
  obtain ⟨-, rfl⟩ := h.unique hw
  exact hfails ws k hws

theorem fails_of_starts (hw : A.WellFormed G) (hp : A.member p) (hc : A.consumes p = true) {t : Token}
    (ht : I.peekToken i = some t) (hstarts : t.tokenType ∉ A.starts p) : Fails G I [p] i := by
  intro vs j hvs
  obtain ⟨v, e, -, hv, -, -⟩ := hvs
  obtain ⟨o, ho, hends⟩ := parse_total hw hp ht
  rw [Reads, parseAt, ht] at hv
  simp only [ho, Option.map_some] at hv
  cases o with
  | none => cases hv
  | some a =>
    have hend := hends a.1 a.2 rfl
    exact hstarts (hend.starts (hend.consumes hc))

/-! ## Patterns with one item -/

theorem reads_negativeLookAhead (hw : A.WellFormed G) (hp : A.member p) {q : P} (hbody : G.body p = .negativeLookAhead q)
    {t : Token} (ht : I.peekToken i = some t) (hfails : Fails G I [q] i) : Reads G I p i G.monostate i := by
  have hq : A.member q := hw.member_uses hp (by rw [hbody]; exact List.mem_singleton_self q)
  obtain ⟨o, ho, -⟩ := parse_total hw hq ht
  have hnone : o = none := by
    cases o with
    | none => rfl
    | some a =>
      have hreads : Reads G I q i a.1 (a.2 + (G.body q).advanceBy) := by
        rw [Reads, parseAt, ht]
        simp only [ho, Option.map_some]
        rfl
      exact absurd ⟨_, _, _, hreads, ⟨rfl, rfl⟩, rfl⟩ (hfails [a.1] _)
  subst hnone
  rw [reads_body (leftRecursive_of_body (by rw [hbody]; intro as h; cases h)), hbody, parseBody, ho]
  exact ⟨⟨t, ht⟩, i, rfl, rfl⟩

theorem parseAll_one {q : P} (hne : q ≠ o.pattern) (h : Reads G I q i v j) :
    parseAll G I o [q] i = some (some ([v], j)) := by
  have hhead : parseHead G I o q i = some (some (v, j)) := (parseHead_parseAt hne).trans h
  rw [parseAll, hhead]
  simp only [Option.bind_eq_bind, Option.bind_some]
  rw [parseAll]
  rfl

theorem parseHead_fails (hw : A.WellFormed G) (hp : A.member p) (hne : p ≠ o.pattern) (h : Fails G I [p] i) :
    parseHead G I o p i = some none := by
  obtain ⟨r, hr⟩ := answers hw (I := I) hp i
  rw [parseHead_parseAt hne, hr]
  cases r with
  | none => rfl
  | some a => exact absurd ⟨a.1, a.2, [], hr, ⟨rfl, rfl⟩, rfl⟩ (h [a.1] a.2)

theorem parseAll_fails (hw : A.WellFormed G) (hp : A.member p) (hne : p ≠ o.pattern) (h : Fails G I [p] i) (ps : List P) :
    parseAll G I o (p :: ps) i = some none := by
  rw [parseAll, parseHead_fails hw hp hne h]
  rfl

/-- One item, without a separator behind it, or without an item behind that. -/
theorem reads_applyInBetween_one (hw : A.WellFormed G) (hp : A.member p) {main between : P}
    (hbody : G.body p = .applyInBetween main between) (hself : main ≠ p ∧ between ≠ p) (h : Reads G I main i v j)
    (hlast : Fails G I [between] j ∨ ∃ w k, Reads G I between j w k ∧ Fails G I [main] k) :
    Reads G I p i (G.vector [v]) j := by
  have hok := hw.body p hp
  rw [hbody] at hok
  rw [reads_body (leftRecursive_of_body (by rw [hbody]; intro as h; cases h)), hbody, parseBody, _parseInBetween,
    parseAll_one (o := ⟨p, i, none⟩) hself.1 h]
  rcases hlast with hfails | ⟨w, k, hw', hfails⟩
  · simp only [Option.bind_eq_bind, Option.bind_some, parseAll_fails (o := ⟨p, i, none⟩) hw hok.2.1 hself.2 hfails]
    exact ⟨h.token, j, rfl, rfl⟩
  · simp only [Option.bind_eq_bind, Option.bind_some, parseAll_one (o := ⟨p, i, none⟩) hself.2 hw']
    rw [_parseInBetween, parseAll_fails (o := ⟨p, i, none⟩) hw hok.1 hself.1 hfails]
    exact ⟨h.token, j, rfl, rfl⟩

/-- The first item. -/
theorem reads_applyInBetween_first (hw : A.WellFormed G) (hp : A.member p) {main between : P}
    (hbody : G.body p = .applyInBetween main between) (hself : p ≠ main) (h : Reads G I p i v j) :
    ∃ w k, Reads G I main i w k := by
  have hok := hw.body p hp
  rw [hbody] at hok
  rw [reads_body (leftRecursive_of_body (by rw [hbody]; intro as h; cases h)), hbody, parseBody, _parseInBetween] at h
  obtain ⟨-, l, hl, -⟩ := h
  rcases parseAll_cases (I := I) (o := ⟨p, i, none⟩) (i := i) hw
      (List.forall_mem_singleton.mpr hok.1) (mt List.mem_singleton.mp hself) with ⟨vs, e, -, hvs⟩ | ⟨hnone, -⟩
  · obtain ⟨w, k, -, hw', -, -⟩ := hvs
    exact ⟨w, k, hw'⟩
  · rw [hnone] at hl
    cases hl

/-! ## The parser -/

theorem matchAll_reads (hw : A.WellFormed G) (ha : Apart G I A) {s : Parser P V} (hs : Parsing G I A.member s)
    (hparts : ∀ p ∈ parts, A.member p) :
    ∃ o s', matchAll G I parts s = some (o, s') ∧
      ((∃ vs, o = some vs ∧ ReadsAll G I parts s.position vs s'.position) ∨ o = none ∧ Fails G I parts s.position) := by
  induction parts generalizing s with
  | nil => exact ⟨some [], s, by rw [matchAll], .inl ⟨[], rfl, rfl, rfl⟩⟩
  | cons p ps ih =>
    have hp := hparts p List.mem_cons_self
    obtain ⟨o, s₁, hrun, ho, hpos⟩ := hs.match_eq hw ha (fun _ h => h) (.rule hp)
    have hs₁ : Parsing G I A.member s₁ := .matched hs (.rule hp) hrun
    rw [matchAll, hrun]
    cases o with
    | none =>
      refine ⟨none, s₁, rfl, .inr ⟨rfl, fun vs j hvs => ?_⟩⟩
      obtain ⟨v, e, ws, hv, -⟩ := hvs
      cases ho.symm.trans hv
    | some a =>
      obtain ⟨v, j⟩ := a
      have hv : Reads G I p s.position v j := ho
      obtain ⟨o, s₂, hrest, hcases⟩ := ih hs₁ fun q hq => hparts q (List.mem_cons_of_mem _ hq)
      rw [show s₁.position = j from hpos] at hcases
      refine ⟨o.map (v :: ·), s₂, ?_, ?_⟩
      · show (matchAll G I ps s₁).bind _ = _
        rw [hrest]
        rfl
      · rcases hcases with ⟨vs, rfl, hvs⟩ | ⟨rfl, hfails⟩
        · exact .inl ⟨v :: vs, rfl, v, j, vs, hv, hvs, rfl⟩
        · exact .inr ⟨rfl, fails_second hv hfails⟩

theorem matchPack_reads (hw : A.WellFormed G) (ha : Apart G I A) {s : Parser P V} (hs : Parsing G I A.member s)
    (hparts : ∀ p ∈ parts, A.member p) :
    (∃ vs s', matchPack G I parts s = some (some vs, s') ∧ ReadsAll G I parts s.position vs s'.position) ∨
      ∃ s', matchPack G I parts s = some (none, s') ∧ Fails G I parts s.position := by
  obtain ⟨o, s', hrun, hcases⟩ := matchAll_reads hw ha hs hparts
  rw [matchPack, hrun]
  rcases hcases with ⟨vs, rfl, hvs⟩ | ⟨rfl, hfails⟩
  · exact .inl ⟨vs, s', rfl, hvs⟩
  · exact .inr ⟨s'.at s.position, rfl, hfails⟩

/-! ## Rules that read what one alternative reads -/

/-- An alternative of `p` that does not match at `i`: its first part does not, or reads what `p` or `base` does, up to `j`,
and the second does not match there. -/
def Stuck (G : Grammar P V) (I : Input) (A : Analysis P) (p base : P) (i j : Nat) (parts : List P) : Prop :=
  (∃ q qs, parts = q :: qs ∧ p ≠ q ∧ A.member q ∧ Fails G I [q] i) ∨
    ∃ q r qs, parts = q :: r :: qs ∧ (q = p ∨ q = base) ∧ p ≠ r ∧ A.member r ∧ Fails G I [r] j

theorem Stuck.parseAll (hw : A.WellFormed G) {base : P} {grown : Found V} (hbase : p ≠ base) (h : Reads G I base i v j)
    (hadvance : (G.body p).advanceBy = 0) (hgrown : grown = none ∨ ∃ u, grown = some (u, j))
    (hstuck : Stuck G I A p base i j parts) : parseAll G I ⟨p, i, grown⟩ parts i = some none := by
  obtain ⟨t, ht⟩ := h.token
  rcases hstuck with ⟨q, qs, rfl, hne, hq, hfails⟩ | ⟨q, r, qs, rfl, hfirst, hne, hr, hfails⟩
  · exact parseAll_fails hw hq hne.symm hfails qs
  · rw [Parse.parseAll]
    rcases hfirst with rfl | rfl
    · rw [parseHead_own ht]
      rcases hgrown with rfl | ⟨u, rfl⟩
      · rfl
      · simp only [found, Option.map_some, hadvance, Nat.add_zero, Option.bind_eq_bind, Option.bind_some]
        rw [parseAll_fails hw hr hne.symm hfails]
        rfl
    · have hhead : parseHead G I ⟨p, i, grown⟩ q i = some (some (v, j)) := (parseHead_parseAt hbase.symm).trans h
      rw [hhead]
      simp only [Option.bind_eq_bind, Option.bind_some]
      rw [parseAll_fails hw hr hne.symm hfails]
      rfl

/-- A rule reads what an alternative of one part reads, where those before it do not match; growth to the left goes no
further. -/
theorem reads_base (hw : A.WellFormed G) (hp : A.member p)
    {as more : List (List P × (List V → Nat → Nat → Option V))} {base : P} {act : List V → Nat → Nat → Option V}
    (hbody : G.body p = .alternatives (as ++ ([base], act) :: more)) (hbase : p ≠ base)
    (has : ∀ a ∈ as, Stuck G I A p base i j a.1) (h : Reads G I base i v j) (hact : act [v] i j = some w) :
    Reads G I p i w j := by
  have hok := hw.body p hp
  rw [hbody] at hok
  obtain ⟨t, ht⟩ := h.token
  have hadvance : (G.body p).advanceBy = 0 := by
    rw [hbody]
    rfl
  have hround (grown : Found V) (hgrown : grown = none ∨ ∃ u, grown = some (u, j)) :
      parseBody G I ⟨p, i, grown⟩ (G.body p) i = some (some (w, j)) := by
    rw [hbody, parseBody]
    clear hbody hok
    induction as with
    | nil =>
      rw [List.nil_append, parseOneOf, parseAll_one hbase.symm h]
      show some ((act [v] i j).map (·, j)) = _
      rw [hact]
      rfl
    | cons a as ih =>
      rw [List.cons_append, parseOneOf, (has a List.mem_cons_self).parseAll hw hbase h hadvance hgrown]
      exact ih fun a ha => has a (List.mem_cons_of_mem _ ha)
  rw [Reads, parseAt, ht]
  dsimp only
  rw [parse, hround none (.inl rfl)]
  by_cases hleft : G.leftRecursive p = true
  · simp only [Option.bind_eq_bind, Option.bind_some, hleft, if_true]
    rw [grow, hround _ (.inr ⟨w, rfl⟩)]
    simp [found, hadvance]
  · simp [hleft, found, hadvance]

/-! ## The rules of the parser -/

def TokenAt (I : Input) (type : TokenType) (i : Nat) : Prop := ∃ t, I.peekToken i = some t ∧ t.tokenType = type

theorem TokenAt.unique {type type' : TokenType} (h : TokenAt I type i) (h' : TokenAt I type' i) : type = type' := by
  obtain ⟨t, ht, rfl⟩ := h
  obtain ⟨u, hu, rfl⟩ := h'
  rw [Option.some.inj (ht.symm.trans hu)]

section
variable (acts : Actions V) {r : Rule} {type type' : TokenType}

theorem reads_tokenAt (h : TokenAt I type i) : ∃ t, Reads acts.grammar I (.token type) i (acts.token t) (i + 1) := by
  obtain ⟨t, ht, htype⟩ := h
  exact ⟨t, (reads_token rfl).mpr ⟨t, ht, htype, rfl, rfl⟩⟩

variable {acts}

theorem fails_token (h : TokenAt I type i) (hne : type ≠ type') : Fails acts.grammar I [.token type'] i := by
  intro vs j hvs
  obtain ⟨v, e, ws, hv, -⟩ := hvs
  obtain ⟨t, ht, htype, -⟩ := (reads_token rfl).mp hv
  exact hne (h.unique ⟨t, ht, htype⟩)

theorem Rule.reads_iff (h : r.alternatives.all (fun p => decide (Pattern.rule r ∉ p.parts ∧ p.parts ≠ [])) = true) :
    Reads acts.grammar I (.rule r) i v j ↔ ReadsOne acts.grammar I (acts.alternativesFrom r r.alternatives 0) i v j := by
  refine reads_alternatives (grammar_wellFormed acts) r.member rfl fun a ha => ?_
  obtain ⟨p, hp, heq⟩ := mem_alternativesFrom acts ha
  rw [heq]
  exact of_decide_eq_true (List.all_eq_true.mp h p hp)

theorem act_of_mem {ps : List Pattern} {m : Nat} {a : List Pattern × (List V → Nat → Nat → Option V)}
    (h : a ∈ acts.alternativesFrom r ps m) : ∃ m, a.2 = acts.node r m := by
  induction ps generalizing m with
  | nil => cases h
  | cons p ps ih =>
    rcases List.mem_cons.mp h with rfl | h
    · exact ⟨m, rfl⟩
    · exact ih h

end

end Pylang.Parse
