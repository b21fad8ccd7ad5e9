/-
`ParametersPattern` against Python's grammar: a list is taken with its node
exactly if its defaults come last and what is behind the star stands there
(`reads_parameters_iff`). Python asks more.
-/
import Pylang.Parser.ParameterRules
import Pylang.Parser.SyntaxError

namespace Pylang.Parse

open Pylang.Lex (TokenType Token Lexer)
open ParameterList (params)

section
variable {N : Type} {I : Input} {other : Rule → Nat → List (Value N) → Nat → Nat → Option N} {i j k l : Nat}
  {v w : Value N} {vs : List (Value N)} {as bs : List (Argument N)} {ds : List (Argument N × N)}
  {ps : List (Argument N × Option N)} {es : List (Entry N)}

/-! ## Runs of parameters -/

/-- Parameters without a default. -/
def plain (as : List (Argument N)) : List (Argument N × Option N) := as.map fun a => (a, none)

/-- Parameters with a default. -/
def defaulted (ds : List (Argument N × N)) : List (Argument N × Option N) := ds.map fun d => (d.1, some d.2)

def argumentValues (as : List (Argument N)) : Value N := .vector (as.map .argument)

def paramValues (ps : List (Argument N × Option N)) : Value N := .vector (ps.map fun p => .param p.1 p.2)

@[simp] theorem argumentList_values (as : List (Argument N)) : (argumentValues as).argumentList = as := by
  unfold argumentValues Value.argumentList Value.items
  rw [List.filterMap_map]
  exact List.filterMap_some

@[simp] theorem argumentList_nil : (Value.vector [] : Value N).argumentList = [] := rfl

@[simp] theorem paramList_values (ps : List (Argument N × Option N)) : (paramValues ps).paramList = ps := by
  unfold paramValues Value.paramList Value.items
  rw [List.filterMap_map]
  exact List.filterMap_some

theorem params_plain (as : List (Argument N)) : params (plain as) = as.map fun a => .param a none := by
  simp [params, plain]

theorem params_defaulted (ds : List (Argument N × N)) : params (defaulted ds) = ds.map fun d => .param d.1 (some d.2) := by
  simp [params, defaulted]

theorem paramValues_defaulted (ds : List (Argument N × N)) :
    paramValues (defaulted ds) = .vector (ds.map fun d => .param d.1 (some d.2)) := by
  simp [paramValues, defaulted]

/-! ## Runs of one rule -/

section
variable {α : Type} {r : Rule} {f : α → Entry N} {g : α → Value N} {xs : List α}

theorem reads_zeroOrMore_iff (hr : ∀ {i v k}, Reads (parameterGrammar I other) I (.rule r) i v k ↔
      ∃ a, v = g a ∧ EntryAt I other i (f a) k) (hmember : analysis.member (.zeroOrMore (.rule r))) :
    Reads (parameterGrammar I other) I (.zeroOrMore (.rule r)) i v k ↔ (∃ t, I.peekToken i = some t) ∧
      ∃ xs : List α, v = .vector (xs.map g) ∧ EntriesTo I other i (xs.map f) k ∧ ∀ a l, ¬ EntryAt I other k (f a) l := by
  have hself : .zeroOrMore (.rule r) ∉ [Pattern.rule r] := by simp
  rw [reads_zeroOrMore (grammar_wellFormed _) hmember rfl hself]
  refine and_congr_right fun _ => ?_
  constructor
  · intro h
    obtain ⟨vs, hvs, rfl⟩ := h
    obtain ⟨xs, rfl, hxs⟩ := (readsMany_iff hr).mp hvs
    exact ⟨xs, rfl, hxs⟩
  · intro h
    obtain ⟨xs, rfl, hxs⟩ := h
    exact ⟨_, (readsMany_iff hr).mpr ⟨xs, rfl, hxs⟩, rfl⟩

theorem reads_oneOrMore_iff (hr : ∀ {i v k}, Reads (parameterGrammar I other) I (.rule r) i v k ↔
      ∃ a, v = g a ∧ EntryAt I other i (f a) k) (hmember : analysis.member (.oneOrMore (.rule r))) :
    Reads (parameterGrammar I other) I (.oneOrMore (.rule r)) i v k ↔
      ∃ xs : List α, xs ≠ [] ∧ v = .vector (xs.map g) ∧ EntriesTo I other i (xs.map f) k ∧
        ∀ a l, ¬ EntryAt I other k (f a) l := by
  have hself : .oneOrMore (.rule r) ∉ [Pattern.rule r] := by simp
  rw [reads_oneOrMore (grammar_wellFormed _) hmember rfl hself]
  constructor
  · intro h
    obtain ⟨us, e, vs, hus, hvs, rfl⟩ := h
    obtain ⟨u, rfl, hu⟩ := readsAll_one.mp hus
    obtain ⟨a, rfl, ha⟩ := hr.mp hu
    obtain ⟨xs, rfl, hxs, hstop⟩ := (readsMany_iff hr).mp hvs
    exact ⟨a :: xs, List.cons_ne_nil _ _, rfl, .cons ha hxs, hstop⟩
  · intro h
    obtain ⟨xs, hne, rfl, hxs, hstop⟩ := h
    cases xs with
    | nil => exact absurd rfl hne
    | cons a xs =>
      cases hxs with
      | cons ha hxs =>
        exact ⟨[g a], _, xs.map g, readsAll_one.mpr ⟨_, rfl, hr.mpr ⟨a, rfl, ha⟩⟩,
          (readsMany_iff hr).mpr ⟨xs, rfl, hxs, hstop⟩, rfl⟩

end

/-- No parameter without a default stands at a position, or none with one, or none at all. -/
def NoPlain (I : Input) (other : Rule → Nat → List (Value N) → Nat → Nat → Option N) (i : Nat) : Prop :=
  ∀ a l, ¬ EntryAt I other i (.param a none) l

def NoDefaulted (I : Input) (other : Rule → Nat → List (Value N) → Nat → Nat → Option N) (i : Nat) : Prop :=
  ∀ (d : Argument N × N) l, ¬ EntryAt I other i (.param d.1 (some d.2)) l

def NoParam (I : Input) (other : Rule → Nat → List (Value N) → Nat → Nat → Option N) (i : Nat) : Prop :=
  ∀ (p : Argument N × Option N) l, ¬ EntryAt I other i (.param p.1 p.2) l

theorem reads_withDefault_pair : Reads (parameterGrammar I other) I (.rule .paramWithDefault) i v k ↔
    ∃ d : Argument N × N, v = .param d.1 (some d.2) ∧ EntryAt I other i (.param d.1 (some d.2)) k := by
  rw [reads_withDefault, Prod.exists]

theorem reads_maybeDefault_pair : Reads (parameterGrammar I other) I (.rule .paramMaybeDefault) i v k ↔
    ∃ p : Argument N × Option N, v = .param p.1 p.2 ∧ EntryAt I other i (.param p.1 p.2) k := by
  rw [reads_maybeDefault, Prod.exists]

theorem reads_plain : Reads (parameterGrammar I other) I (.zeroOrMore (.rule .paramNoDefault)) i v k ↔
    (∃ t, I.peekToken i = some t) ∧
      ∃ as, v = argumentValues as ∧ EntriesTo I other i (params (plain as)) k ∧ NoPlain I other k := by
  simp only [params_plain]
  exact reads_zeroOrMore_iff reads_noDefault ⟨by decide, by decide⟩

theorem reads_somePlain : Reads (parameterGrammar I other) I (.oneOrMore (.rule .paramNoDefault)) i v k ↔
    ∃ as, as ≠ [] ∧ v = argumentValues as ∧ EntriesTo I other i (params (plain as)) k ∧ NoPlain I other k := by
  simp only [params_plain]
  exact reads_oneOrMore_iff reads_noDefault ⟨by decide, by decide⟩

theorem reads_defaulted : Reads (parameterGrammar I other) I (.zeroOrMore (.rule .paramWithDefault)) i v k ↔
    (∃ t, I.peekToken i = some t) ∧
      ∃ ds, v = paramValues (defaulted ds) ∧ EntriesTo I other i (params (defaulted ds)) k ∧ NoDefaulted I other k := by
  simp only [params_defaulted, paramValues_defaulted]
  exact reads_zeroOrMore_iff reads_withDefault_pair ⟨by decide, by decide⟩

theorem reads_someDefaulted : Reads (parameterGrammar I other) I (.oneOrMore (.rule .paramWithDefault)) i v k ↔
    ∃ ds, ds ≠ [] ∧ v = paramValues (defaulted ds) ∧ EntriesTo I other i (params (defaulted ds)) k ∧
      NoDefaulted I other k := by
  simp only [params_defaulted, paramValues_defaulted]
  exact reads_oneOrMore_iff reads_withDefault_pair ⟨by decide, by decide⟩

theorem reads_maybeDefaults : Reads (parameterGrammar I other) I (.zeroOrMore (.rule .paramMaybeDefault)) i v k ↔
    (∃ t, I.peekToken i = some t) ∧
      ∃ ps, v = paramValues ps ∧ EntriesTo I other i (params ps) k ∧ NoParam I other k :=
  reads_zeroOrMore_iff reads_maybeDefault_pair ⟨by decide, by decide⟩

/-! ## What stands where -/

theorem EntriesTo.no_entry {e : Entry N} (h : EntriesTo I other i es k) (hlast : TokenAt I .rparen k)
    (hhead : es.head? ≠ some e) (l : Nat) : ¬ EntryAt I other i e l := by
  intro he
  cases h with
  | nil => exact he.not_last hlast
  | cons hf _ => exact hhead (congrArg some (hf.unique he).1)

theorem EntryAt.no_entry {e f : Entry N} (h : EntryAt I other i e k) (hne : e ≠ f) (l : Nat) : ¬ EntryAt I other i f l :=
  fun hf => hne (h.unique hf).1

theorem EntriesTo.unique {fs : List (Entry N)} (h : EntriesTo I other i es k) (hfs : EntriesTo I other i fs k)
    (hlast : TokenAt I .rparen k) : es = fs :=
  (h.isPrefix hfs hlast).eq_of_length_le (hfs.isPrefix h hlast).length_le

/-! ## Behind the star -/

/-- What `star_etc` makes of a list. -/
def starValue (L : ParameterList N) : Value N := .starEtc L.star.join L.kwonly L.kwarg

/-- What may stand behind the last positional parameter. -/
structure Tail (L : ParameterList N) : Prop where
  posonly : L.posonly = []
  args : L.args = []
  kwonly : L.star = none → L.kwonly = []

theorem reads_keywordsOption (hlast : ∃ t, I.peekToken i = some t) {kwarg : Option (Argument N)}
    (h : EntriesTo I other i (kwarg.toList.map .kwarg) k) (hno : kwarg = none → ∀ a l, ¬ EntryAt I other i (.kwarg a) l) :
    ∃ w, Reads (parameterGrammar I other) I (.zeroOrOne (.rule .keywords)) i w k ∧
      w.value?.bind (·.argument?) = kwarg := by
  have hread (w : Value N) := reads_zeroOrOne (I := I) (i := i) (v := w) (j := k)
    (grammar_wellFormed (parameterActions I other)) (p := .zeroOrOne (.rule .keywords)) ⟨by decide, by decide⟩ rfl
    (by decide)
  cases kwarg with
  | none =>
    cases h
    refine ⟨_, (hread _).mpr ⟨hlast, .inr ⟨fails_one fun w l hw => ?_, rfl, rfl⟩⟩, rfl⟩
    obtain ⟨a, -, ha⟩ := reads_keywords.mp hw
    exact hno rfl a l ha
  | some a =>
    have hentry := entriesTo_one.mp h
    have hone := readsAll_one.mpr ⟨_, rfl, reads_keywords.mpr ⟨a, rfl, hentry⟩⟩
    exact ⟨_, (hread _).mpr ⟨hlast, .inl ⟨_, hone, rfl⟩⟩, rfl⟩

theorem keywordsOption_of_reads {w : Value N} (h : Reads (parameterGrammar I other) I (.zeroOrOne (.rule .keywords)) i w k) :
    ∃ kwarg : Option (Argument N), EntriesTo I other i (kwarg.toList.map .kwarg) k ∧
      w.value?.bind (·.argument?) = kwarg := by
  obtain ⟨-, ⟨vs, hvs, rfl⟩ | ⟨-, rfl, rfl⟩⟩ := (reads_zeroOrOne (grammar_wellFormed _) ⟨by decide, by decide⟩ rfl
    (by decide)).mp h
  · obtain ⟨u, rfl, hu⟩ := readsAll_one.mp hvs
    obtain ⟨a, rfl, ha⟩ := reads_keywords.mp hu
    exact ⟨some a, entriesTo_one.mpr ha, rfl⟩
  · exact ⟨none, .nil, rfl⟩

/-- What is read behind the star is the tail of a list. -/
theorem tail_of_reads (h : Reads (parameterGrammar I other) I (.rule .starEtc) i v k) :
    ∃ L : ParameterList N, Tail L ∧ L.starEtcEntries ≠ [] ∧ v = starValue L ∧ EntriesTo I other i L.starEtcEntries k := by
  rcases (Rule.reads_iff (by decide)).mp h with ⟨vs, ⟨_, _, _, hstar, ⟨_, _, _, hfirst, ⟨_, _, _, hmany, ⟨_, _, _, hkw,
    ⟨rfl, rfl⟩, rfl⟩, rfl⟩, rfl⟩, rfl⟩, hact⟩ | ⟨-, h⟩
  · obtain ⟨htoken, rfl⟩ := tokenAt_of_reads hstar
    obtain ⟨a, rfl, ha⟩ := reads_noDefault.mp hfirst
    obtain ⟨-, ps, rfl, hps, -⟩ := reads_maybeDefaults.mp hmany
    obtain ⟨kwarg, hkwarg, heq⟩ := keywordsOption_of_reads hkw
    cases ha with
    | param ha hsep =>
      have htail : EntriesTo I other _ (params ps ++ kwarg.toList.map .kwarg) k := EntriesTo.append_iff.mpr ⟨_, hps, hkwarg⟩
      refine ⟨{ star := some (some a), kwonly := ps, kwarg := kwarg }, ⟨rfl, rfl, nofun⟩, nofun, ?_, ?_⟩
      · obtain rfl := Option.some.inj hact
        rw [← heq]
        exact congrArg (Value.starEtc (some a) · _) (paramList_values ps)
      · exact .cons (.vararg htoken ha hsep) htail
  · rcases h with ⟨vs, ⟨_, _, _, hstar, ⟨_, _, _, hcomma, ⟨_, _, _, hmany, ⟨_, _, _, hkw,
      ⟨rfl, rfl⟩, rfl⟩, rfl⟩, rfl⟩, rfl⟩, hact⟩ | ⟨-, h⟩
    · obtain ⟨htoken, rfl⟩ := tokenAt_of_reads hstar
      obtain ⟨hseparator, rfl⟩ := tokenAt_of_reads hcomma
      obtain ⟨-, ps, rfl, hps, -⟩ := reads_maybeDefaults.mp hmany
      obtain ⟨kwarg, hkwarg, heq⟩ := keywordsOption_of_reads hkw
      have htail : EntriesTo I other _ (params ps ++ kwarg.toList.map .kwarg) k := EntriesTo.append_iff.mpr ⟨_, hps, hkwarg⟩
      refine ⟨{ star := some none, kwonly := ps, kwarg := kwarg }, ⟨rfl, rfl, nofun⟩, nofun, ?_, ?_⟩
      · obtain rfl := Option.some.inj hact
        rw [← heq]
        exact congrArg (Value.starEtc none · _) (paramList_values ps)
      · exact .cons (.star htoken hseparator) htail
    · rcases h with ⟨vs, hvs, hact⟩ | ⟨-, h⟩
      · obtain ⟨w, rfl, hw⟩ := readsAll_one.mp hvs
        obtain ⟨a, rfl, ha⟩ := reads_keywords.mp hw
        obtain rfl := Option.some.inj hact
        exact ⟨{ kwarg := some a }, ⟨rfl, rfl, fun _ => rfl⟩, nofun, rfl, entriesTo_one.mpr ha⟩
      · cases h

theorem head?_kwarg {kwarg : Option (Argument N)} {e : Entry N} (h : ∀ a, e ≠ .kwarg a) :
    (kwarg.toList.map Entry.kwarg).head? ≠ some e := by
  cases kwarg with
  | none => nofun
  | some a => exact fun heq => h a (Option.some.inj heq).symm

/-- Keyword-only parameters, and what is behind them. -/
theorem reads_kwonly (hlast : TokenAt I .rparen k) {kwarg : Option (Argument N)}
    (h : EntriesTo I other i (params ps ++ kwarg.toList.map .kwarg) k) :
    ∃ j w, Reads (parameterGrammar I other) I (.zeroOrMore (.rule .paramMaybeDefault)) i (paramValues ps) j ∧
      Reads (parameterGrammar I other) I (.zeroOrOne (.rule .keywords)) j w k ∧ w.value?.bind (·.argument?) = kwarg := by
  have htoken := h.token hlast
  obtain ⟨j, hps, hkwarg⟩ := EntriesTo.append_iff.mp h
  have hno : kwarg = none → ∀ a l, ¬ EntryAt I other j (.kwarg a) l := by
    intro hnone a l
    subst hnone
    exact hkwarg.no_entry hlast nofun l
  obtain ⟨w, hw, heq⟩ := reads_keywordsOption (hkwarg.token hlast) hkwarg hno
  refine ⟨j, w, reads_maybeDefaults.mpr ⟨htoken, ps, rfl, hps, fun p l => ?_⟩, hw, heq⟩
  exact hkwarg.no_entry hlast (head?_kwarg fun a heq => by cases heq) l

/-- The tail of a list is read. -/
theorem reads_of_tail {L : ParameterList N} (hL : Tail L) (hne : L.starEtcEntries ≠ [])
    (h : EntriesTo I other i L.starEtcEntries k) (hlast : TokenAt I .rparen k) :
    Reads (parameterGrammar I other) I (.rule .starEtc) i (starValue L) k := by
  obtain ⟨posonly, args, star, kwonly, kwarg⟩ := L
  rw [Rule.reads_iff (by decide)]
  match star, h with
  | some (some a), h =>
    have h : EntriesTo I other i (.vararg a :: (params kwonly ++ kwarg.toList.map .kwarg)) k := h
    cases h with
    | cons hstar htail =>
      obtain ⟨j, w, hps, hw, rfl⟩ := reads_kwonly hlast htail
      obtain ⟨t, ht⟩ := reads_tokenAt (parameterActions I other) hstar.first
      have hfirst := reads_noDefault.mpr ⟨a, rfl, hstar.starred (.inl rfl)⟩
      refine .inl ⟨_, ⟨_, _, _, ht, ⟨_, _, _, hfirst, ⟨_, _, _, hps, ⟨_, _, _, hw, ⟨rfl, rfl⟩, rfl⟩, rfl⟩, rfl⟩, rfl⟩, ?_⟩
      exact congrArg (fun ps => some (Value.starEtc (some a) ps _)) (paramList_values kwonly)
  | some none, h =>
    have h : EntriesTo I other i (.star :: (params kwonly ++ kwarg.toList.map .kwarg)) k := h
    cases h with
    | cons hstar htail =>
      obtain ⟨j, w, hps, hw, rfl⟩ := reads_kwonly hlast htail
      cases hstar with
      | star hstar hcomma =>
        obtain ⟨t, ht⟩ := reads_tokenAt (parameterActions I other) hstar
        obtain ⟨u, hu⟩ := reads_tokenAt (parameterActions I other) hcomma
        have hno : Fails (parameterGrammar I other) I [.rule .paramNoDefault] (i + 1) := fails_one fun v l hv => by
          obtain ⟨a, -, ha⟩ := reads_noDefault.mp hv
          cases ha.first.unique hcomma
        refine .inr ⟨fails_second ht (fails_head hno _), .inl ⟨_, ⟨_, _, _, ht, ⟨_, _, _, hu, ⟨_, _, _, hps, ⟨_, _, _, hw,
          ⟨rfl, rfl⟩, rfl⟩, rfl⟩, rfl⟩, rfl⟩, ?_⟩⟩
        exact congrArg (fun ps => some (Value.starEtc none ps _)) (paramList_values kwonly)
  | none, h =>
    have hkwonly : kwonly = [] := hL.kwonly rfl
    subst hkwonly
    cases kwarg with
    | none => exact absurd rfl hne
    | some a =>
      have hentry : EntryAt I other i (.kwarg a) k := entriesTo_one.mp h
      have hno : Fails (parameterGrammar I other) I [.token .star] i := fails_token hentry.first nofun
      refine .inr ⟨fails_head hno _, .inr ⟨fails_head hno _, .inl ⟨_, readsAll_one.mpr ⟨_, rfl, reads_keywords.mpr
        ⟨a, rfl, hentry⟩⟩, rfl⟩⟩⟩

/-! ## Before the slash -/

/-- Parameters without a default, and those with one behind them. -/
def positional (as : List (Argument N)) (ds : List (Argument N × N)) : List (Argument N × Option N) := plain as ++ defaulted ds

theorem params_append (ps qs : List (Argument N × Option N)) : params (ps ++ qs) = params ps ++ params qs :=
  List.map_append

theorem reads_slashNoDefault : Reads (parameterGrammar I other) I (.rule .slashNoDefault) i v k ↔
    ∃ as, as ≠ [] ∧ v = argumentValues as ∧ EntriesTo I other i (params (plain as) ++ [.slash]) k := by
  rw [reads_separated [.oneOrMore (.rule .paramNoDefault), .token .slash] rfl (by decide) fun us e hus n w j => by
    obtain ⟨v, l, ws, -, hws, rfl⟩ := hus
    obtain ⟨w', rfl, -⟩ := readsAll_one.mp hws
    rfl]
  constructor
  · intro h
    obtain ⟨us, j, ⟨w, l, ws, hw, hws, rfl⟩, hsep, hv⟩ := h
    obtain ⟨as, hne, rfl, has, -⟩ := reads_somePlain.mp hw
    obtain ⟨w', rfl, hw'⟩ := readsAll_one.mp hws
    obtain ⟨hslash, rfl⟩ := tokenAt_of_reads hw'
    exact ⟨as, hne, (Option.some.inj hv).symm, EntriesTo.append_iff.mpr ⟨_, has, entriesTo_one.mpr (.slash hslash hsep)⟩⟩
  · intro h
    obtain ⟨as, hne, rfl, h⟩ := h
    obtain ⟨j, has, hslash⟩ := EntriesTo.append_iff.mp h
    have hslash := entriesTo_one.mp hslash
    have hread := reads_somePlain.mpr ⟨as, hne, rfl, has, fun a l => hslash.no_entry (fun heq => by cases heq) l⟩
    cases hslash with
    | slash htoken hsep =>
      obtain ⟨t, ht⟩ := reads_tokenAt (parameterActions I other) htoken
      exact ⟨_, _, ⟨_, _, _, hread, readsAll_one.mpr ⟨_, rfl, ht⟩, rfl⟩, hsep, rfl⟩

theorem reads_slashWithDefault : Reads (parameterGrammar I other) I (.rule .slashWithDefault) i v k ↔
    ∃ as ds, ds ≠ [] ∧ v = .tuple [argumentValues as, paramValues (defaulted ds)] ∧
      EntriesTo I other i (params (positional as ds) ++ [.slash]) k := by
  rw [reads_separated [.zeroOrMore (.rule .paramNoDefault), .oneOrMore (.rule .paramWithDefault), .token .slash] rfl (by decide)
    fun us e hus n w j => by
      obtain ⟨v, l, ws, -, ⟨v', l', ws', -, hws, rfl⟩, rfl⟩ := hus
      obtain ⟨w', rfl, -⟩ := readsAll_one.mp hws
      rfl]
  constructor
  · intro h
    obtain ⟨us, j, ⟨w, l, ws, hw, ⟨w', l', ws', hw', hws, rfl⟩, rfl⟩, hsep, hv⟩ := h
    obtain ⟨-, as, rfl, has, -⟩ := reads_plain.mp hw
    obtain ⟨ds, hne, rfl, hds, -⟩ := reads_someDefaulted.mp hw'
    obtain ⟨w'', rfl, hw''⟩ := readsAll_one.mp hws
    obtain ⟨hslash, rfl⟩ := tokenAt_of_reads hw''
    refine ⟨as, ds, hne, (Option.some.inj hv).symm, EntriesTo.append_iff.mpr ⟨_, ?_, entriesTo_one.mpr (.slash hslash hsep)⟩⟩
    rw [positional, params_append]
    exact EntriesTo.append_iff.mpr ⟨_, has, hds⟩
  · intro h
    obtain ⟨as, ds, hne, rfl, h⟩ := h
    obtain ⟨j, hparams, hslash⟩ := EntriesTo.append_iff.mp h
    have hslash := entriesTo_one.mp hslash
    rw [positional, params_append] at hparams
    obtain ⟨l, has, hds⟩ := EntriesTo.append_iff.mp hparams
    have hdefaulted := reads_someDefaulted.mpr ⟨ds, hne, rfl, hds, fun d l => hslash.no_entry (fun heq => by cases heq) l⟩
    have hplain := reads_plain.mpr ⟨by
      cases as with
      | nil =>
        cases has
        exact hdefaulted.token
      | cons a as =>
        cases has with
        | cons ha _ => exact ha.first.imp fun t ht => ht.1, as, rfl, has, fun a l => by
      cases ds with
      | nil => exact absurd rfl hne
      | cons d ds =>
        cases hds with
        | cons hd _ => exact hd.no_entry (fun heq => by cases heq) l⟩
    cases hslash with
    | slash htoken hsep =>
      obtain ⟨t, ht⟩ := reads_tokenAt (parameterActions I other) htoken
      exact ⟨_, _, ⟨_, _, _, hplain, ⟨_, _, _, hdefaulted, readsAll_one.mpr ⟨_, rfl, ht⟩, rfl⟩, rfl⟩, hsep, rfl⟩

/-! ## The tail -/

/-- What `star_etc` adds to a node is the tail of a list. -/
def Adds (w : Value N) (T : ParameterList N) : Prop := ∀ p q d,
  ({ posonlyargs := p, args := q, defaults := d } : Arguments N).withStarEtc w.value? =
    { posonlyargs := p, args := q, vararg := T.star.join, kwonlyargs := T.kwonly.map Prod.fst,
      kwDefaults := T.kwonly.map Prod.snd, kwarg := T.kwarg, defaults := d }

theorem adds_starValue (T : ParameterList N) : Adds (.optional (some (starValue T))) T := fun _ _ _ => rfl

theorem tailOption_of_reads (h : Reads (parameterGrammar I other) I (.zeroOrOne (.rule .starEtc)) i w k) :
    ∃ T, Tail T ∧ EntriesTo I other i T.starEtcEntries k ∧ Adds w T := by
  obtain ⟨-, ⟨vs, hvs, rfl⟩ | ⟨-, rfl, rfl⟩⟩ := (reads_zeroOrOne (grammar_wellFormed _) ⟨by decide, by decide⟩ rfl
    (by decide)).mp h
  · obtain ⟨u, rfl, hu⟩ := readsAll_one.mp hvs
    obtain ⟨T, hT, -, rfl, hentries⟩ := tail_of_reads hu
    exact ⟨T, hT, hentries, adds_starValue T⟩
  · exact ⟨{}, ⟨rfl, rfl, fun _ => rfl⟩, .nil, fun _ _ _ => rfl⟩

theorem reads_tailOption {T : ParameterList N} (hT : Tail T) (h : EntriesTo I other i T.starEtcEntries k)
    (hlast : TokenAt I .rparen k) :
    ∃ w, Reads (parameterGrammar I other) I (.zeroOrOne (.rule .starEtc)) i w k ∧ Adds w T := by
  have hread (w : Value N) := reads_zeroOrOne (I := I) (i := i) (v := w) (j := k)
    (grammar_wellFormed (parameterActions I other)) (p := .zeroOrOne (.rule .starEtc)) ⟨by decide, by decide⟩ rfl
    (by decide)
  have htoken := h.token hlast
  by_cases hne : T.starEtcEntries = []
  · rw [hne] at h
    cases h
    obtain ⟨t, ht, htype⟩ := id hlast
    have hno : Fails (parameterGrammar I other) I [.rule .starEtc] i :=
      fails_of_starts (grammar_wellFormed _) (Rule.member .starEtc) (by decide) ht (by rw [htype]; decide)
    refine ⟨_, (hread _).mpr ⟨htoken, .inr ⟨hno, rfl, rfl⟩⟩, ?_⟩
    obtain ⟨posonly, args, star, kwonly, kwarg⟩ := T
    match star with
    | none =>
      have hkwonly : kwonly = [] := hT.kwonly rfl
      subst hkwonly
      cases kwarg with
      | none => exact fun _ _ _ => rfl
      | some a => cases hne
    | some none => cases hne
    | some (some a) => cases hne
  · have hone := readsAll_one.mpr ⟨_, rfl, reads_of_tail hT hne h hlast⟩
    exact ⟨_, (hread _).mpr ⟨htoken, .inl ⟨_, hone, rfl⟩⟩, adds_starValue T⟩

/-! ## Positional parameters -/

theorem map_fst_plain (as : List (Argument N)) : (plain as).map Prod.fst = as := by
  unfold plain
  rw [List.map_map]
  exact List.map_id as

theorem filterMap_snd_plain (as : List (Argument N)) : (plain as).filterMap Prod.snd = [] := by
  unfold plain
  rw [List.filterMap_map]
  exact List.filterMap_eq_nil_iff.mpr fun _ _ => rfl

theorem positional_nil (as : List (Argument N)) : positional as [] = plain as := List.append_nil _

theorem plain_append (as bs : List (Argument N)) (ds : List (Argument N × N)) :
    plain as ++ positional bs ds = positional (as ++ bs) ds := by
  unfold positional plain
  rw [List.map_append, List.append_assoc]

theorem positional_append (as : List (Argument N)) (ds es : List (Argument N × N)) :
    positional as ds ++ defaulted es = positional as (ds ++ es) := by
  unfold positional defaulted
  rw [List.map_append, List.append_assoc]

theorem defaultsLast_positional (as : List (Argument N)) (ds : List (Argument N × N)) :
    ParameterList.DefaultsLast (positional as ds) := by
  unfold ParameterList.DefaultsLast positional
  rw [List.pairwise_append]
  have hplain : ∀ p ∈ plain as, p.2.isSome = false := by
    intro p hp
    obtain ⟨a, -, rfl⟩ := List.mem_map.mp hp
    rfl
  have hdefaulted : ∀ q ∈ defaulted ds, q.2.isSome = true := by
    intro q hq
    obtain ⟨d, -, rfl⟩ := List.mem_map.mp hq
    rfl
  refine ⟨List.pairwise_of_forall_mem_list fun p hp q _ h => ?_, List.pairwise_of_forall_mem_list fun p _ q hq _ => ?_,
    fun p hp q hq _ => hdefaulted q hq⟩
  · cases (hplain p hp).symm.trans h
  · exact hdefaulted q hq

/-- Where defaults come last, the parameters with one are behind those without. -/
theorem exists_positional (h : ParameterList.DefaultsLast ps) : ∃ as ds, ps = positional as ds := by
  induction ps with
  | nil => exact ⟨[], [], rfl⟩
  | cons p ps ih =>
    obtain ⟨a, d⟩ := p
    obtain ⟨hfirst, hrest⟩ := List.pairwise_cons.mp h
    obtain ⟨as, ds, rfl⟩ := ih hrest
    cases d with
    | none => exact ⟨a :: as, ds, rfl⟩
    | some n =>
      cases as with
      | nil => exact ⟨[], (a, n) :: ds, rfl⟩
      | cons b as => cases hfirst _ List.mem_cons_self rfl

/-! ## What is accepted is a list -/

/-- A list of positional parameters and a tail. -/
def ParameterList.withPositional (T : ParameterList N) (posonly args : List (Argument N × Option N)) : ParameterList N :=
  { T with posonly := posonly, args := args }

theorem ordered_withPositional {T : ParameterList N} (hT : Tail T) {posonly args : List (Argument N × Option N)}
    (hne : posonly ≠ [] ∨ args ≠ [] ∨ T.starEtcEntries ≠ []) (hdefaults : ParameterList.DefaultsLast (posonly ++ args)) :
    (T.withPositional posonly args).Ordered where
  nonempty hnil := by
    have hnil : params posonly ++ ((T.withPositional posonly args).slashEntries ++ (params args ++ T.starEtcEntries)) = [] := hnil
    simp only [List.append_eq_nil_iff, params, List.map_eq_nil_iff] at hnil
    simp [hnil] at hne
  defaults := hdefaults
  kwonly := hT.kwonly

theorem adds_withPositional {T : ParameterList N} (hw : Adds w T) (posonly args : List (Argument N × Option N)) :
    ({ posonlyargs := posonly.map Prod.fst, args := args.map Prod.fst,
       defaults := (posonly ++ args).filterMap Prod.snd } : Arguments N).withStarEtc w.value? =
      (T.withPositional posonly args).node := hw _ _ _

@[simp] theorem map_fst_positional (as : List (Argument N)) (ds : List (Argument N × N)) :
    (positional as ds).map Prod.fst = as ++ (defaulted ds).map Prod.fst := by
  rw [positional, List.map_append, map_fst_plain]

@[simp] theorem filterMap_snd_positional (as : List (Argument N)) (ds : List (Argument N × N)) :
    (positional as ds).filterMap Prod.snd = (defaulted ds).filterMap Prod.snd := by
  rw [positional, List.filterMap_append, filterMap_snd_plain, List.nil_append]

theorem entries_slash {T : ParameterList N} {posonly : List (Argument N × Option N)} (h : posonly ≠ [])
    (args : List (Argument N × Option N)) :
    (T.withPositional posonly args).entries = (params posonly ++ [.slash]) ++ (params args ++ T.starEtcEntries) := by
  have hslash : (T.withPositional posonly args).slashEntries = [.slash] :=
    if_neg fun hempty => h (List.isEmpty_iff.mp hempty)
  rw [List.append_assoc]
  exact congrArg (fun s => params posonly ++ (s ++ (params args ++ T.starEtcEntries))) hslash

/-- The list that an alternative of `parameters` makes. -/
theorem exists_ordered {T : ParameterList N} (hT : Tail T) (hadds : Adds w T) {posonly args : List (Argument N × Option N)}
    {as : List (Argument N)} {ds : List (Argument N × N)} (hdefaults : posonly ++ args = positional as ds)
    (hne : posonly ≠ [] ∨ args ≠ [] ∨ T.starEtcEntries ≠ [])
    (hentries : EntriesTo I other i (T.withPositional posonly args).entries k) {a : Arguments N}
    (ha : a = { posonlyargs := posonly.map Prod.fst, args := args.map Prod.fst,
                defaults := (posonly ++ args).filterMap Prod.snd }) :
    ∃ L : ParameterList N, L.Ordered ∧ Value.arguments (a.withStarEtc w.value?) = .arguments L.node ∧
      EntriesTo I other i L.entries k := by
  refine ⟨T.withPositional posonly args, ordered_withPositional hT hne ?_, ?_, hentries⟩
  · rw [hdefaults]
    exact defaultsLast_positional as ds
  · rw [← adds_withPositional hadds, ha]

/-- What is read is a list with its defaults last, and its node. -/
theorem list_of_reads (h : Reads (parameterGrammar I other) I (.rule .parameters) i v k) :
    ∃ L : ParameterList N, L.Ordered ∧ v = .arguments L.node ∧ EntriesTo I other i L.entries k := by
  rcases (Rule.reads_iff (by decide)).mp h with ⟨vs, ⟨_, _, _, hslash, ⟨_, _, _, hplain, ⟨_, _, _, hdefaulted,
    ⟨w, _, _, hw, ⟨rfl, rfl⟩, rfl⟩, rfl⟩, rfl⟩, rfl⟩, hact⟩ | ⟨-, h⟩
  · obtain ⟨as, hne, rfl, has⟩ := reads_slashNoDefault.mp hslash
    obtain ⟨-, bs, rfl, hbs, -⟩ := reads_plain.mp hplain
    obtain ⟨-, ds, rfl, hds, -⟩ := reads_defaulted.mp hdefaulted
    obtain ⟨T, hT, htail, hadds⟩ := tailOption_of_reads hw
    obtain rfl := Option.some.inj hact
    have hposonly : plain as ≠ [] := by simpa [plain] using hne
    refine exists_ordered hT hadds (plain_append as bs ds) (.inl hposonly) ?_ ?_
    · rw [entries_slash hposonly, positional, params_append, List.append_assoc (params (plain bs))]
      exact EntriesTo.append_iff.mpr ⟨_, has, EntriesTo.append_iff.mpr ⟨_, hbs, EntriesTo.append_iff.mpr ⟨_, hds, htail⟩⟩⟩
    · simp [Arguments.withArgs, map_fst_plain, filterMap_snd_plain]
  rcases h with ⟨vs, ⟨_, _, _, hslash, ⟨_, _, _, hdefaulted, ⟨w, _, _, hw, ⟨rfl, rfl⟩, rfl⟩, rfl⟩, rfl⟩, hact⟩ | ⟨-, h⟩
  · obtain ⟨as, ds, hne, rfl, has⟩ := reads_slashWithDefault.mp hslash
    obtain ⟨-, es, rfl, hes, -⟩ := reads_defaulted.mp hdefaulted
    obtain ⟨T, hT, htail, hadds⟩ := tailOption_of_reads hw
    obtain rfl := Option.some.inj hact
    have hposonly : positional as ds ≠ [] := by simp [positional, defaulted, hne]
    refine exists_ordered hT hadds (positional_append as ds es) (.inl hposonly) ?_ ?_
    · rw [entries_slash hposonly]
      exact EntriesTo.append_iff.mpr ⟨_, has, EntriesTo.append_iff.mpr ⟨_, hes, htail⟩⟩
    · simp [Arguments.withArgs]
  rcases h with ⟨vs, ⟨_, _, _, hplain, ⟨_, _, _, hdefaulted, ⟨w, _, _, hw, ⟨rfl, rfl⟩, rfl⟩, rfl⟩, rfl⟩, hact⟩ | ⟨-, h⟩
  · obtain ⟨as, hne, rfl, has, -⟩ := reads_somePlain.mp hplain
    obtain ⟨-, ds, rfl, hds, -⟩ := reads_defaulted.mp hdefaulted
    obtain ⟨T, hT, htail, hadds⟩ := tailOption_of_reads hw
    obtain rfl := Option.some.inj hact
    have hargs : positional as ds ≠ [] := by simp [positional, plain, hne]
    refine exists_ordered hT hadds (List.nil_append (positional as ds)) (.inr (.inl hargs)) ?_ ?_
    · have hparams : EntriesTo I other i (params (positional as ds) ++ T.starEtcEntries) k := by
        rw [positional, params_append, List.append_assoc]
        exact EntriesTo.append_iff.mpr ⟨_, has, EntriesTo.append_iff.mpr ⟨_, hds, htail⟩⟩
      exact hparams
    · simp [Arguments.withArgs]
  rcases h with ⟨vs, ⟨_, _, _, hdefaulted, ⟨w, _, _, hw, ⟨rfl, rfl⟩, rfl⟩, rfl⟩, hact⟩ | ⟨-, h⟩
  · obtain ⟨ds, hne, rfl, hds, -⟩ := reads_someDefaulted.mp hdefaulted
    obtain ⟨T, hT, htail, hadds⟩ := tailOption_of_reads hw
    obtain rfl := Option.some.inj hact
    have hargs : defaulted ds ≠ [] := by simpa [defaulted] using hne
    refine exists_ordered hT hadds (List.nil_append (positional [] ds)) (.inr (.inl hargs)) ?_ ?_
    · have hparams : EntriesTo I other i (params (defaulted ds) ++ T.starEtcEntries) k :=
        EntriesTo.append_iff.mpr ⟨_, hds, htail⟩
      exact hparams
    · simp [Arguments.withArgs]
  rcases h with ⟨vs, hvs, hact⟩ | ⟨-, h⟩
  · obtain ⟨u, rfl, hu⟩ := readsAll_one.mp hvs
    obtain ⟨T, hT, hne, rfl, htail⟩ := tail_of_reads hu
    obtain rfl := Option.some.inj hact
    have hdefaults : [] ++ [] = positional ([] : List (Argument N)) [] := rfl
    exact exists_ordered hT (adds_starValue T) hdefaults (.inr (.inr hne)) htail rfl
  · cases h

/-! ## A list is accepted -/

/-- A list without a slash is not read by the rules that ask for one. -/
theorem fails_slash (hes : EntriesTo I other i es k) (hlast : TokenAt I .rparen k) (hno : .slash ∉ es) :
    Fails (parameterGrammar I other) I [.rule .slashNoDefault] i ∧
      Fails (parameterGrammar I other) I [.rule .slashWithDefault] i := by
  have hmem {front : List (Entry N)} {l : Nat} (h : EntriesTo I other i (front ++ [.slash]) l) : False := by
    obtain ⟨rest, rfl⟩ := h.isPrefix hes hlast
    exact hno (List.mem_append_left _ (List.mem_append_right _ List.mem_cons_self))
  constructor
  · refine fails_one fun v l hv => ?_
    obtain ⟨as, -, -, has⟩ := reads_slashNoDefault.mp hv
    exact hmem has
  · refine fails_one fun v l hv => ?_
    obtain ⟨as, ds, -, -, has⟩ := reads_slashWithDefault.mp hv
    exact hmem has

theorem slash_notMem_params (ps : List (Argument N × Option N)) : Entry.slash ∉ params ps := by
  intro h
  obtain ⟨p, -, hp⟩ := List.mem_map.mp h
  cases hp

theorem slash_notMem_tail (T : ParameterList N) : Entry.slash ∉ T.starEtcEntries := by
  obtain ⟨posonly, args, star, kwonly, kwarg⟩ := T
  intro h
  rcases List.mem_append.mp h with h | h
  · match star with
    | none => cases h
    | some none => simp [ParameterList.starEntries] at h
    | some (some a) => simp [ParameterList.starEntries] at h
  · rcases List.mem_append.mp h with h | h
    · exact slash_notMem_params kwonly h
    · simp at h

theorem params_injective : Function.Injective (params (N := N)) :=
  List.map_injective_iff.mpr fun p q h => by
    obtain ⟨a, d⟩ := p
    obtain ⟨b, e⟩ := q
    cases h
    rfl

theorem filterMap_snd_defaulted (ds : List (Argument N × N)) : (defaulted ds).filterMap Prod.snd = ds.map Prod.snd := by
  unfold defaulted
  rw [List.filterMap_map, ← List.filterMap_eq_map]
  rfl

theorem fails_slashNoDefault {as : List (Argument N)} {rest : List (Entry N)}
    (hes : EntriesTo I other i (params (positional as ds) ++ .slash :: rest) k) (hlast : TokenAt I .rparen k)
    (hne : ds ≠ []) (hrest : .slash ∉ rest) : Fails (parameterGrammar I other) I [.rule .slashNoDefault] i := by
  refine fails_one fun v l hv => ?_
  obtain ⟨bs, -, -, hbs⟩ := reads_slashNoDefault.mp hv
  obtain ⟨rest', heq⟩ := hbs.isPrefix hes hlast
  rw [List.append_assoc] at heq
  obtain ⟨hparams, -⟩ := (List.append_cons_inj_of_notMem (slash_notMem_params _) hrest).mp heq.symm
  have hdefaults := congrArg (List.filterMap Prod.snd) (params_injective hparams)
  rw [filterMap_snd_positional, filterMap_snd_defaulted, filterMap_snd_plain] at hdefaults
  exact hne (List.map_eq_nil_iff.mp hdefaults)

theorem head?_starEtcEntries {T : ParameterList N} (hT : Tail T) (a : Argument N) (d : Option N) :
    T.starEtcEntries.head? ≠ some (.param a d) := by
  obtain ⟨posonly, args, star, kwonly, kwarg⟩ := T
  match star with
  | some none => nofun
  | some (some b) => nofun
  | none =>
    have hkwonly : kwonly = [] := hT.kwonly rfl
    subst hkwonly
    exact head?_kwarg nofun

theorem reads_rest {T : ParameterList N} (hT : Tail T) {es : List (Argument N × N)}
    (h : EntriesTo I other i (params (defaulted es) ++ T.starEtcEntries) k) (hlast : TokenAt I .rparen k) :
    ∃ j w, Reads (parameterGrammar I other) I (.zeroOrMore (.rule .paramWithDefault)) i (paramValues (defaulted es)) j ∧
      Reads (parameterGrammar I other) I (.zeroOrOne (.rule .starEtc)) j w k ∧ Adds w T := by
  have htoken := h.token hlast
  obtain ⟨j, hes, htail⟩ := EntriesTo.append_iff.mp h
  obtain ⟨w, hw, hadds⟩ := reads_tailOption hT htail hlast
  exact ⟨j, w, reads_defaulted.mpr ⟨htoken, es, rfl, hes, fun d l =>
    htail.no_entry hlast (head?_starEtcEntries hT d.1 (some d.2)) l⟩, hw, hadds⟩

theorem noPlain_rest {T : ParameterList N} (hT : Tail T) {es : List (Argument N × N)}
    (h : EntriesTo I other i (params (defaulted es) ++ T.starEtcEntries) k) (hlast : TokenAt I .rparen k) :
    NoPlain I other i := by
  intro a l
  refine h.no_entry hlast ?_ l
  cases es with
  | nil => exact head?_starEtcEntries hT a none
  | cons d es => exact fun heq => by cases heq

section
variable {T : ParameterList N} {as : List (Argument N)} {es : List (Argument N × N)}

/-- Names without a default before the slash. -/
theorem reads_slash_plain (hT : Tail T) (has : as ≠ [])
    (h : EntriesTo I other i (T.withPositional (plain as) (positional bs es)).entries k) (hlast : TokenAt I .rparen k) :
    Reads (parameterGrammar I other) I (.rule .parameters) i
      (.arguments (T.withPositional (plain as) (positional bs es)).node) k := by
  have hposonly : plain as ≠ [] := by simpa [plain] using has
  rw [entries_slash hposonly, positional, params_append, List.append_assoc (params (plain bs))] at h
  obtain ⟨j, hfront, hback⟩ := EntriesTo.append_iff.mp h
  obtain ⟨m, hbs, hrest⟩ := EntriesTo.append_iff.mp hback
  have hplain := reads_plain.mpr ⟨hback.token hlast, bs, rfl, hbs, noPlain_rest hT hrest hlast⟩
  obtain ⟨l, w, hdefaulted, hw, hadds⟩ := reads_rest hT hrest hlast
  refine (Rule.reads_iff (by decide)).mpr (.inl ⟨_, ⟨_, _, _, reads_slashNoDefault.mpr ⟨as, has, rfl, hfront⟩,
    ⟨_, _, _, hplain, ⟨_, _, _, hdefaulted, ⟨_, _, _, hw, ⟨rfl, rfl⟩, rfl⟩, rfl⟩, rfl⟩, rfl⟩, ?_⟩)
  rw [← adds_withPositional hadds]
  refine congrArg (fun a : Arguments N => some (Value.arguments (a.withStarEtc w.value?))) ?_
  simp [Arguments.withArgs, map_fst_plain, filterMap_snd_plain]

/-- A default before the slash, and so for all behind it. -/
theorem reads_slash_defaulted (hT : Tail T) (hds : ds ≠ [])
    (h : EntriesTo I other i (T.withPositional (positional as ds) (defaulted es)).entries k) (hlast : TokenAt I .rparen k) :
    Reads (parameterGrammar I other) I (.rule .parameters) i
      (.arguments (T.withPositional (positional as ds) (defaulted es)).node) k := by
  have hposonly : positional as ds ≠ [] := by simp [positional, defaulted, hds]
  rw [entries_slash hposonly] at h
  have hno : Entry.slash ∉ params (defaulted es) ++ T.starEtcEntries := fun hmem =>
    (List.mem_append.mp hmem).elim (slash_notMem_params _) (slash_notMem_tail T)
  have hfails := fails_slashNoDefault (by rw [List.append_assoc] at h; exact h) hlast hds hno
  obtain ⟨j, hfront, hrest⟩ := EntriesTo.append_iff.mp h
  obtain ⟨l, w, hdefaulted, hw, hadds⟩ := reads_rest hT hrest hlast
  refine (Rule.reads_iff (by decide)).mpr (.inr ⟨fails_head hfails _, .inl ⟨_, ⟨_, _, _,
    reads_slashWithDefault.mpr ⟨as, ds, hds, rfl, hfront⟩, ⟨_, _, _, hdefaulted, ⟨_, _, _, hw, ⟨rfl, rfl⟩, rfl⟩, rfl⟩,
    rfl⟩, ?_⟩⟩)
  rw [← adds_withPositional hadds]
  refine congrArg (fun a : Arguments N => some (Value.arguments (a.withStarEtc w.value?))) ?_
  simp [Arguments.withArgs]

/-- No slash. -/
theorem reads_args (hT : Tail T) (hne : (T.withPositional [] (positional bs es)).entries ≠ [])
    (h : EntriesTo I other i (T.withPositional [] (positional bs es)).entries k) (hlast : TokenAt I .rparen k) :
    Reads (parameterGrammar I other) I (.rule .parameters) i (.arguments (T.withPositional [] (positional bs es)).node) k := by
  have hall : EntriesTo I other i (params (positional bs es) ++ T.starEtcEntries) k := h
  have hno : Entry.slash ∉ params (positional bs es) ++ T.starEtcEntries := fun hmem =>
    (List.mem_append.mp hmem).elim (slash_notMem_params _) (slash_notMem_tail T)
  obtain ⟨hfirst, hsecond⟩ := fails_slash hall hlast hno
  refine (Rule.reads_iff (by decide)).mpr (.inr ⟨fails_head hfirst _, .inr ⟨fails_head hsecond _, ?_⟩⟩)
  rw [positional, params_append, List.append_assoc] at hall
  obtain ⟨j, hbs, hrest⟩ := EntriesTo.append_iff.mp hall
  by_cases hplain : bs = []
  · subst hplain
    cases hbs
    have hnoPlain : Fails (parameterGrammar I other) I [.oneOrMore (.rule .paramNoDefault)] i := fails_one fun v l hv => by
      obtain ⟨as, has, -, hentries, -⟩ := reads_somePlain.mp hv
      cases as with
      | nil => exact has rfl
      | cons a as =>
        cases hentries with
        | cons ha _ => exact noPlain_rest hT hrest hlast a _ ha
    refine .inr ⟨fails_head hnoPlain _, ?_⟩
    by_cases hes : es = []
    · subst hes
      have htail : EntriesTo I other i T.starEtcEntries k := hrest
      have hnoDefaulted : Fails (parameterGrammar I other) I [.oneOrMore (.rule .paramWithDefault)] i :=
        fails_one fun v l hv => by
          obtain ⟨ds, hds, -, hentries, -⟩ := reads_someDefaulted.mp hv
          cases ds with
          | nil => exact hds rfl
          | cons d ds =>
            cases hentries with
            | cons hd _ => exact htail.no_entry hlast (head?_starEtcEntries hT d.1 (some d.2)) _ hd
      refine .inr ⟨fails_head hnoDefaulted _, .inl ⟨_, readsAll_one.mpr ⟨_, rfl, reads_of_tail hT hne htail hlast⟩, rfl⟩⟩
    · obtain ⟨m, hdefaulted, htail⟩ := EntriesTo.append_iff.mp hrest
      obtain ⟨w, hw, hadds⟩ := reads_tailOption hT htail hlast
      have hsome := reads_someDefaulted.mpr ⟨es, hes, rfl, hdefaulted, fun d l =>
        htail.no_entry hlast (head?_starEtcEntries hT d.1 (some d.2)) l⟩
      refine .inl ⟨_, ⟨_, _, _, hsome, ⟨_, _, _, hw, ⟨rfl, rfl⟩, rfl⟩, rfl⟩, ?_⟩
      rw [← adds_withPositional hadds]
      refine congrArg (fun a : Arguments N => some (Value.arguments (a.withStarEtc w.value?))) ?_
      simp [Arguments.withArgs]
  · obtain ⟨l, w, hdefaulted, hw, hadds⟩ := reads_rest hT hrest hlast
    have hsome := reads_somePlain.mpr ⟨bs, hplain, rfl, hbs, noPlain_rest hT hrest hlast⟩
    refine .inl ⟨_, ⟨_, _, _, hsome, ⟨_, _, _, hdefaulted, ⟨_, _, _, hw, ⟨rfl, rfl⟩, rfl⟩, rfl⟩, rfl⟩, ?_⟩
    rw [← adds_withPositional hadds]
    refine congrArg (fun a : Arguments N => some (Value.arguments (a.withStarEtc w.value?))) ?_
    simp [Arguments.withArgs]

end

/-- A list with its defaults last is read, with its node. -/
theorem reads_of_ordered {L : ParameterList N} (hL : L.Ordered) (h : EntriesTo I other i L.entries k)
    (hlast : TokenAt I .rparen k) : Reads (parameterGrammar I other) I (.rule .parameters) i (.arguments L.node) k := by
  obtain ⟨posonly, args, star, kwonly, kwarg⟩ := L
  have hT : Tail ({ star := star, kwonly := kwonly, kwarg := kwarg } : ParameterList N) := ⟨rfl, rfl, hL.kwonly⟩
  obtain ⟨hposonly, hargs, hacross⟩ := List.pairwise_append.mp hL.defaults
  obtain ⟨as, ds, rfl⟩ := exists_positional hposonly
  obtain ⟨bs, es, rfl⟩ := exists_positional hargs
  cases ds with
  | nil =>
    rw [positional_nil] at *
    cases as with
    | nil => exact reads_args hT hL.nonempty h hlast
    | cons a as => exact reads_slash_plain hT (List.cons_ne_nil a as) h hlast
  | cons d ds =>
    have hbs : bs = [] := by
      cases bs with
      | nil => rfl
      | cons b bs =>
        have hd : (d.1, some d.2) ∈ positional as (d :: ds) := List.mem_append_right _ List.mem_cons_self
        cases hacross _ hd (b, none) List.mem_cons_self rfl
    subst hbs
    exact reads_slash_defaulted hT (List.cons_ne_nil d ds) h hlast

/-! ## The names, and the bare star -/

def Entry.argument? : Entry N → Option (Argument N)
  | .param a _ | .vararg a | .kwarg a => some a
  | .slash | .star => none

theorem filterMap_params (ps : List (Argument N × Option N)) : (params ps).filterMap Entry.argument? = ps.map Prod.fst := by
  unfold params
  rw [List.filterMap_map, ← List.filterMap_eq_map]
  rfl

theorem arguments_eq (L : ParameterList N) : L.arguments = L.entries.filterMap Entry.argument? := by
  obtain ⟨posonly, args, star, kwonly, kwarg⟩ := L
  have hslash : (ParameterList.slashEntries ⟨posonly, args, star, kwonly, kwarg⟩).filterMap Entry.argument? = [] := by
    unfold ParameterList.slashEntries
    split <;> rfl
  have hkwarg : (kwarg.toList.map Entry.kwarg).filterMap Entry.argument? = kwarg.toList := by
    cases kwarg <;> rfl
  have hstar : (ParameterList.starEntries ⟨posonly, args, star, kwonly, kwarg⟩).filterMap Entry.argument? =
      star.join.toList := by
    match star with
    | none => rfl
    | some none => rfl
    | some (some a) => rfl
  unfold ParameterList.arguments ParameterList.entries ParameterList.starEtcEntries
  simp only [List.filterMap_append, filterMap_params, hslash, hkwarg, hstar, List.nil_append, List.append_assoc]

theorem star_mem_iff (L : ParameterList N) : Entry.star ∈ L.entries ↔ L.star = some none := by
  obtain ⟨posonly, args, star, kwonly, kwarg⟩ := L
  have hparams (ps : List (Argument N × Option N)) : Entry.star ∉ params ps := by
    intro h
    obtain ⟨p, -, hp⟩ := List.mem_map.mp h
    cases hp
  have hslash : Entry.star ∉ ParameterList.slashEntries ⟨posonly, args, star, kwonly, kwarg⟩ := by
    unfold ParameterList.slashEntries
    split <;> simp
  have hkwarg : Entry.star ∉ kwarg.toList.map Entry.kwarg := by
    cases kwarg <;> simp
  unfold ParameterList.entries ParameterList.starEtcEntries
  simp only [List.mem_append, hparams, hslash, hkwarg, or_false, false_or]
  match star with
  | none => simp [ParameterList.starEntries]
  | some none => simp [ParameterList.starEntries]
  | some (some a) => simp [ParameterList.starEntries]

/-- Whether a list is proper is a matter of its entries and its node. -/
theorem proper_of_node {L L' : ParameterList N} (hentries : L.entries = L'.entries) (hnode : L.node = L'.node)
    (h : L'.Proper) : L.Proper where
  bare hstar hkwonly := by
    have hkwonlyargs : L.kwonly.map Prod.fst = L'.kwonly.map Prod.fst := congrArg Arguments.kwonlyargs hnode
    rw [hkwonly] at hkwonlyargs
    refine h.bare ((star_mem_iff L').mp ?_) (List.map_eq_nil_iff.mp hkwonlyargs.symm)
    rw [← hentries]
    exact (star_mem_iff L).mpr hstar
  names := by
    rw [arguments_eq, hentries, ← arguments_eq]
    exact h.names

/-! ## The rule and Python's -/

variable (I other) in
/-- From a state of the parser, the rule takes the list up to a position, with a result. -/
def Accepts (s : Parser Pattern (Value N)) (k : Nat) (v : Value N) : Prop :=
  ∃ s', matchHead (parameterGrammar I other) I (.rule .parameters) s = some (some v, s') ∧ s'.position = k

variable (I other) in
/-- What is asked of the rule where a list stands. -/
structure ParametersRight (s : Parser Pattern (Value N)) (es : List (Entry N)) (k : Nat) : Prop where
  sound : ∀ v, Accepts I other s k v → ∃ L : ParameterList N, L.entries = es ∧ L.Valid ∧ v = .arguments L.node
  complete : ∀ L : ParameterList N, L.entries = es → L.Valid → Accepts I other s k (.arguments L.node)

theorem accepts_iff (hI : I.Lexed) {s : Parser Pattern (Value N)} (hs : Parsing (parameterGrammar I other) I Pattern.IsRule s) :
    Accepts I other s k v ↔ Reads (parameterGrammar I other) I (.rule .parameters) s.position v k := by
  obtain ⟨o, s', hrun, ho, hposition⟩ := memo_faithful (parameterActions I other) I hI hs (.rule ⟨.parameters, rfl⟩)
  unfold Accepts Reads
  rw [hrun, ho]
  constructor
  · intro h
    obtain ⟨s'', heq, hk⟩ := h
    cases o with
    | none => cases heq
    | some a =>
      cases heq
      rw [← hk, hposition]
      rfl
  · intro h
    cases h
    exact ⟨s', rfl, hposition⟩

/-- A list that is proper has something behind its bare star. -/
theorem entries_ne_star_last {L : ParameterList N} (hL : L.Proper) (front : List (Entry N)) :
    L.entries ≠ front ++ [.star] := by
  intro h
  have hstar : L.star = some none := (star_mem_iff L).mp (by
    rw [h]
    exact List.mem_append_right _ List.mem_cons_self)
  have hkwonly := hL.bare hstar
  obtain ⟨posonly, args, star, kwonly, kwarg⟩ := L
  obtain rfl : star = some none := hstar
  have hlast := congrArg List.getLast? h
  rw [List.getLast?_append_of_ne_nil _ (List.cons_ne_nil _ _)] at hlast
  unfold ParameterList.entries ParameterList.starEtcEntries at hlast
  have hbehind : params kwonly ++ kwarg.toList.map .kwarg ≠ [] := by simpa [params] using fun h => absurd h hkwonly
  rw [List.getLast?_append_of_ne_nil _ (by simp [ParameterList.starEntries]),
    List.getLast?_append_of_ne_nil _ (by simp [ParameterList.starEntries]),
    List.getLast?_append_of_ne_nil _ (by simp [ParameterList.starEntries]),
    List.getLast?_append_of_ne_nil _ hbehind] at hlast
  have hmem := List.mem_of_getLast? hlast
  simp [params] at hmem

/-- A list that ends in a bare star is rejected, as Python's grammar rejects it. -/
theorem parametersRight_of_endsInStar (hI : I.Lexed) {s : Parser Pattern (Value N)}
    (hs : Parsing (parameterGrammar I other) I Pattern.IsRule s) (h : EndsInStar I other s.position es k)
    (hlast : TokenAt I .rparen k) : ParametersRight I other s es k where
  sound v hv := by
    obtain ⟨L, -, -, hentries⟩ := list_of_reads ((accepts_iff hI hs).mp hv)
    exact absurd hentries (h.not_entriesTo hlast)
  complete L hes hL := by
    obtain ⟨front, j, rfl, -⟩ := h
    exact absurd hes (entries_ne_star_last hL.2 front)

/-- **Parameters.** The rule takes Python's lists, with their nodes, exactly if the list ends in a bare star without a comma,
or has a parameter behind a bare star and no constant for a name, where its defaults come last. -/
theorem parametersRight_iff (hI : I.Lexed) {s : Parser Pattern (Value N)}
    (hs : Parsing (parameterGrammar I other) I Pattern.IsRule s) (h : ListTo I other s.position es k)
    (hlast : TokenAt I .rparen k) :
    ParametersRight I other s es k ↔
      EndsInStar I other s.position es k ∨ ∀ L : ParameterList N, L.entries = es → L.Ordered → L.Proper := by
  rcases h with h | h
  · constructor
    · intro hright
      refine .inr fun L hes hL => ?_
      subst hes
      obtain ⟨L', hentries, hvalid, hnode⟩ := hright.sound _ ((accepts_iff hI hs).mpr (reads_of_ordered hL h hlast))
      exact proper_of_node hentries.symm (Value.arguments.inj hnode) hvalid.2
    · intro hcond
      have hproper := hcond.resolve_left fun hstar => hstar.not_entriesTo hlast h
      refine { sound := fun v hv => ?_, complete := fun L hes hL => ?_ }
      · obtain ⟨L, hL, hv, hentries⟩ := list_of_reads ((accepts_iff hI hs).mp hv)
        have hes := hentries.unique h hlast
        exact ⟨L, hes, ⟨hL, hproper L hes hL⟩, hv⟩
      · subst hes
        exact (accepts_iff hI hs).mpr (reads_of_ordered hL.1 h hlast)
  · exact ⟨fun _ => .inl h, fun _ => parametersRight_of_endsInStar hI hs h hlast⟩

end

/-- Expressions of one kind. -/
def oneKind : Rule → Nat → List (Value Unit) → Nat → Nat → Option Unit := fun _ _ _ _ _ => some ()

/-- `def f(a):pass` -/
def oneParameter : Input where
  program := "def f(a):pass\n".toList
  tokens := [⟨.name, ⟨0, 0, 0⟩, ⟨0, 3, 3⟩⟩, ⟨.name, ⟨0, 4, 4⟩, ⟨0, 5, 5⟩⟩, ⟨.lparen, ⟨0, 5, 5⟩, ⟨0, 6, 6⟩⟩,
    ⟨.name, ⟨0, 6, 6⟩, ⟨0, 7, 7⟩⟩, ⟨.rparen, ⟨0, 7, 7⟩, ⟨0, 8, 8⟩⟩, ⟨.colon, ⟨0, 8, 8⟩, ⟨0, 9, 9⟩⟩,
    ⟨.name, ⟨0, 9, 9⟩, ⟨0, 13, 13⟩⟩, ⟨.newline, ⟨0, 13, 13⟩, ⟨0, 14, 14⟩⟩, ⟨.endmarker, ⟨1, 0, 14⟩, ⟨2, 0, 14⟩⟩]

theorem parametersRight_one :
    (∃ L, Lexer.readTimes oneParameter.program 9 {} = .ok L ∧ L.tokens = oneParameter.tokens) ∧
      ParametersRight oneParameter oneKind (({} : Parser Pattern (Value Unit)).at 3) [.param ⟨['a'], none⟩ none] 4 := by
  refine ⟨⟨_, rfl, rfl⟩, ?_⟩
  have hname : NameAt oneParameter ['a'] 3 := ⟨_, rfl, rfl, by decide, by decide⟩
  have hentry : EntryAt oneParameter oneKind 3 (.param ⟨['a'], none⟩ none) 4 :=
    .param (.plain hname) (.last ⟨_, rfl, rfl⟩)
  refine (parametersRight_iff ⟨by decide⟩ (.moved 3 .start) (.inl (entriesTo_one.mpr hentry))
    ⟨_, rfl, rfl⟩).mpr <| .inr fun L hes _ => { bare := fun hstar => ?_, names := ?_ }
  · have hmem := (star_mem_iff L).mpr hstar
    rw [hes] at hmem
    simp at hmem
  · rw [arguments_eq, hes]
    intro a ha
    obtain rfl := List.mem_singleton.mp ha
    decide

/-- `def f(*,):pass` -/
def bareStar : Input where
  program := "def f(*,):pass\n".toList
  tokens := [⟨.name, ⟨0, 0, 0⟩, ⟨0, 3, 3⟩⟩, ⟨.name, ⟨0, 4, 4⟩, ⟨0, 5, 5⟩⟩, ⟨.lparen, ⟨0, 5, 5⟩, ⟨0, 6, 6⟩⟩,
    ⟨.star, ⟨0, 6, 6⟩, ⟨0, 7, 7⟩⟩, ⟨.comma, ⟨0, 7, 7⟩, ⟨0, 8, 8⟩⟩, ⟨.rparen, ⟨0, 8, 8⟩, ⟨0, 9, 9⟩⟩,
    ⟨.colon, ⟨0, 9, 9⟩, ⟨0, 10, 10⟩⟩, ⟨.name, ⟨0, 10, 10⟩, ⟨0, 14, 14⟩⟩, ⟨.newline, ⟨0, 14, 14⟩, ⟨0, 15, 15⟩⟩,
    ⟨.endmarker, ⟨1, 0, 15⟩, ⟨2, 0, 15⟩⟩]

/-- Nothing stands behind the bare star. -/
theorem bare_star_alone : (∃ L, Lexer.readTimes bareStar.program 10 {} = .ok L ∧ L.tokens = bareStar.tokens) ∧
    ¬ ParametersRight bareStar oneKind (({} : Parser Pattern (Value Unit)).at 3) [.star] 5 := by
  refine ⟨⟨_, rfl, rfl⟩, fun h => ?_⟩
  have hentry : EntryAt bareStar oneKind 3 .star 5 := .star ⟨_, rfl, rfl⟩ ⟨_, rfl, rfl⟩
  have hlexed : bareStar.Lexed := ⟨by decide⟩
  have hordered : ({ star := some none } : ParameterList Unit).Ordered :=
    { nonempty := nofun, defaults := .nil, kwonly := nofun }
  have hread := reads_of_ordered hordered (entriesTo_one.mpr hentry) ⟨_, rfl, rfl⟩
  obtain ⟨L, hentries, hvalid, hnode⟩ := h.sound _ ((accepts_iff hlexed (.moved 3 .start)).mpr hread)
  have hbare := hvalid.2.bare ((star_mem_iff L).mp (by rw [hentries]; exact List.mem_cons_self))
  have hkwonly : [] = L.kwonly.map Prod.fst := congrArg Arguments.kwonlyargs (Value.arguments.inj hnode)
  exact hbare (List.map_eq_nil_iff.mp hkwonly.symm)

end Pylang.Parse
