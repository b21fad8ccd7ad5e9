/-
The condition is exact. A call whose values are pairwise different objects, and
whose defaults are integers, tells every misplaced value apart; one that passes
integers only never meets an object in a slot, so nothing but an unknown
keyword or a superfluous argument stops it.
-/
import Pylang.Calling.Bind

namespace Pylang.Calling

/-- The call with other values. -/
def Call.withValues (c : Call) (arg : Nat → Value) (key : String → Value) : Call where
  args := (List.range c.args.length).map arg
  kwargs := c.kwargs.map fun kv => (kv.1, key kv.1)
  keys_nodup := by
    have h := c.keys_nodup
    rwa [List.map_map]

/-- Objects by position, and by the place of the keyword behind them. -/
def Call.distinct (c : Call) : Call :=
  c.withValues .object fun n => .object (c.args.length + (c.kwargs.map Prod.fst).idxOf n)

namespace Callable
variable {g g' : Callable} {c c' : Call}

/-- Values that tell the arguments of a call apart. -/
structure Distinct (g : Callable) (c : Call) : Prop where
  defaults : ∀ i v, g.default i = some v → ∃ z, v = .int z
  args : ∀ v ∈ c.args, ∃ id, v = .object id
  keys : ∀ kv ∈ c.kwargs, ∃ id, kv.2 = .object id
  apart : ∀ v ∈ c.args, ∀ kv ∈ c.kwargs, v ≠ kv.2
  keys_inj : ∀ kv ∈ c.kwargs, ∀ kv' ∈ c.kwargs, kv.2 = kv'.2 → kv = kv'

/-- What the last two passes leave of a frame. -/
theorem variadic_get {fr fr' : Frame} (h : g.variadic c fr = .ok fr') (p : Place) :
    fr'.get p = fr.get p ∨ (∃ s, p = .slot s) ∧
      ((∃ items, fr'.get p = .tuple items) ∨ fr'.get p = .dict (c.kwargs.filter fun kv => kv.1 ∉ g.f.varnames)) := by
  have hput : ∀ {i content} {fr fr' : Frame}, g.f.code.bindRest i content fr = .ok fr' →
      fr'.get p = fr.get p ∨ (∃ s, p = .slot s) ∧ fr'.get p = content := by
    intro i content fr fr' h
    rcases Code.bindRest_run _ h with rfl | ⟨s, rfl⟩
    · exact .inl rfl
    · rw [Frame.get_put]
      split
      next hp => exact .inr ⟨⟨s, hp⟩, rfl⟩
      next => exact .inl rfl
  unfold variadic at h
  cases hfirst : g.f.code.bindVarargs c.args fr with
  | error e =>
    rw [hfirst] at h
    cases h
  | ok fr₁ =>
    rw [hfirst] at h
    have h₁ : fr₁.get p = fr.get p ∨ (∃ s, p = .slot s) ∧ ∃ items, fr₁.get p = .tuple items := by
      simp only [Code.bindVarargs] at hfirst
      split at hfirst
      next => exact (hput hfirst).imp_right fun ⟨hs, ht⟩ => ⟨hs, _, ht⟩
      next =>
        split at hfirst
        next => cases hfirst
        next =>
          cases hfirst
          exact .inl rfl
    have h₂ : fr'.get p = fr₁.get p ∨ (∃ s, p = .slot s) ∧
        fr'.get p = .dict (c.kwargs.filter fun kv => kv.1 ∉ g.f.varnames) := by
      have h : g.f.code.bindVarkeywords c.kwargs fr₁ = .ok fr' := h
      unfold Code.bindVarkeywords at h
      split at h
      next => exact hput h
      next =>
        cases h
        exact .inl rfl
    rcases h₂ with h₂ | ⟨hs, h₂⟩
    · rcases h₁ with h₁ | ⟨hs, items, h₁⟩
      · exact .inl (h₂.trans h₁)
      · exact .inr ⟨hs, .inl ⟨items, h₂.trans h₁⟩⟩
    · exact .inr ⟨hs, .inr h₂⟩

theorem eval_ok {fr : Frame} (h : g.eval c = .ok fr) :
    g.variadic c ((g.start c).run (g.f.code.keywordWrites c.kwargs 0)) = .ok fr := by
  rw [eval_eq] at h
  cases hk : g.f.code.bindKeywords 0 c.kwargs (g.start c) with
  | error e =>
    rw [hk] at h
    cases h
  | ok fr₁ =>
    rw [hk] at h
    rwa [← Code.bindKeywords_run _ hk]

theorem start_get (p : Place) : (g.start c).get p = .null ∨ ∃ v ∈ c.args, (g.start c).get p = .value v := by
  rcases Frame.empty.get_run_cases p (g.f.code.positionalWrites (c.args.take (g.filled c))) with ⟨-, h⟩ | ⟨w, hw, -, h⟩
  · exact .inl (h.trans (Frame.get_empty p))
  · obtain ⟨i, n, v, -, -, hv, rfl⟩ := mem_startWrites hw
    exact .inr ⟨v, List.mem_of_getElem? hv, h⟩

/-- A place holds the value of a keyword that was put there, or one of the positional tuple. -/
theorem eval_value {fr : Frame} (h : g.eval c = .ok fr) {p : Place} {v : Value} (hv : fr.get p = .value v) :
    (∃ k kv, (g.f.code.recognised c.kwargs)[k]? = some kv ∧
      p ∈ g.f.code.keywordPlaces (g.f.varnames.idxOf kv.1) k ∧ v = kv.2) ∨ v ∈ c.args := by
  rcases variadic_get (eval_ok h) p with hget | ⟨-, ⟨_, hget⟩ | hget⟩
  · rcases (g.start c).get_run_cases p (g.f.code.keywordWrites c.kwargs 0) with ⟨-, hrun⟩ | ⟨w, hw, hp, hrun⟩
    · rcases @start_get g c p with hs | ⟨u, hu, hs⟩
      · rw [hget, hrun, hs] at hv
        cases hv
      · rw [hget, hrun, hs] at hv
        cases hv
        exact .inr hu
    · obtain ⟨k, kv, hk, rfl⟩ := (Code.mem_keywordWrites _).mp hw
      rw [hget, hrun] at hv
      cases hv
      exact .inl ⟨k, kv, hk, hp, rfl⟩
  · rw [hv] at hget
    cases hget
  · rw [hv] at hget
    cases hget

theorem eval_cell {fr : Frame} (h : g.eval c = .ok fr) (cell : Nat) :
    fr.get (.cell cell) = .null ∨ ∃ v, fr.get (.cell cell) = .value v := by
  rcases variadic_get (eval_ok h) (.cell cell) with hget | ⟨⟨s, hs⟩, -⟩
  · rcases (g.start c).get_run_cases (.cell cell) (g.f.code.keywordWrites c.kwargs 0) with ⟨-, hrun⟩ | ⟨w, hw, -, hrun⟩
    · rcases @start_get g c (.cell cell) with hs | ⟨v, -, hs⟩
      · exact .inl (hget.trans (hrun.trans hs))
      · exact .inr ⟨v, hget.trans (hrun.trans hs)⟩
    · obtain ⟨k, kv, -, rfl⟩ := (Code.mem_keywordWrites _).mp hw
      exact .inr ⟨kv.2, hget.trans hrun⟩
  · cases hs

theorem eval_dict {fr : Frame} (h : g.eval c = .ok fr) {p : Place} {items : List (String × Value)}
    (hv : fr.get p = .dict items) : items = c.kwargs.filter fun kv => kv.1 ∉ g.f.varnames := by
  rcases variadic_get (eval_ok h) p with hget | ⟨-, ⟨_, hget⟩ | hget⟩
  · rw [hget] at hv
    rcases (g.start c).get_run_cases p (g.f.code.keywordWrites c.kwargs 0) with ⟨-, hrun⟩ | ⟨w, hw, -, hrun⟩
    · rw [hrun] at hv
      rcases @start_get g c p with hs | ⟨v, -, hs⟩ <;> rw [hs] at hv <;> cases hv
    · obtain ⟨k, kv, -, rfl⟩ := (Code.mem_keywordWrites _).mp hw
      rw [hrun] at hv
      cases hv
  · rw [hv] at hget
    cases hget
  · rw [hv] at hget
    cases hget
    rfl

/-- The keyword after `k` others is found in the cell with the number `k`. -/
theorem eval_keywordCell {fr : Frame} (h : g.eval c = .ok fr) {k : Nat} {kv : String × Value} {m : String}
    (hk : (g.f.code.recognised c.kwargs)[k]? = some kv) (hm : g.f.code.argCell k = some (g.f.cellvars.idxOf m)) :
    fr.get (.cell (g.f.cellvars.idxOf m)) = .value kv.2 := by
  rcases variadic_get (eval_ok h) (.cell (g.f.cellvars.idxOf m)) with hget | ⟨⟨s, hs⟩, -⟩
  · rw [hget]
    have hw := (@Code.mem_keywordWrites g.f.code c.kwargs _).mpr ⟨k, kv, hk, rfl⟩
    refine Frame.get_run_of_unique _ hw ((Code.mem_keywordPlaces _).mpr (.inl ⟨_, hm, rfl⟩)) fun w hw' hp => ?_
    obtain ⟨k', kv', hk', rfl⟩ := (Code.mem_keywordWrites _).mp hw'
    rcases (Code.mem_keywordPlaces _).mp hp with ⟨cell, hcell, he⟩ | he
    · rw [Place.cell.injEq] at he
      subst he
      have hkk := (Function.argOf_of_argCell hcell).symm.trans (Function.argOf_of_argCell hm)
      subst hkk
      rw [hk] at hk'
      cases hk'
      rfl
    · cases he
  · cases hs

theorem given_keyword {kv : String × Value} (hk : kv ∈ c.kwargs) {i : Nat} (hi : g.filled c ≤ i)
    (hn : g.f.Nameable kv.1) : g.given c i kv.1 = some kv.2 := by
  unfold given
  rw [if_neg (by omega), if_pos hn]
  obtain ⟨v, hv⟩ := Option.isSome_iff_exists.mp (lookup_isSome.mpr (List.mem_map_of_mem hk))
  obtain ⟨l₁, l₂, heq, -⟩ := List.lookup_eq_some_iff.mp hv
  have hmem : (kv.1, v) ∈ c.kwargs := by
    rw [heq]
    simp
  have := List.inj_on_of_nodup_map c.keys_nodup hmem hk rfl
  rw [hv, ← this]

/-- **A correct call with distinct values is clean.** -/
theorem Distinct.clean (hd : g.Distinct c) (hb : g.Binds c) (h : g.Correct c) : g.Clean c := by
  obtain ⟨fr, hfr, hbound⟩ := h.1 hb
  have hlen := @Function.length_parameters g.f
  have hnamedlen := @Function.length_named g.f
  have hgiven : ∀ i n, i < g.f.named.length → g.f.At i n → ∃ v, (g.given c i n).or (g.default i) = some v ∧
      fr.get (g.f.code.readPlace n) = .value v := by
    intro i n hi hat
    obtain ⟨v, hv⟩ : ∃ v, (g.given c i n).or (g.default i) = some v := by
      rw [← Option.isSome_iff_exists, Option.isSome_or, Bool.or_eq_true]
      exact hb.2.2 i hi n hat
    have := hbound i n (by omega) hat
    rw [bound, if_pos hi, hv] at this
    exact ⟨v, hv, this⟩
  have hnamed : ∀ kv ∈ c.kwargs, kv.1 ∈ g.f.varnames → g.f.Nameable kv.1 := by
    intro kv hkv hv
    by_contra hn
    have hsome := hb.2.1 kv hkv
    rw [if_neg hn] at hsome
    obtain ⟨m, hm⟩ := Option.isSome_iff_exists.mp hsome
    have hat := Function.kwarg_at hm
    have hdict := hbound _ m (by rw [hlen, hm]; simp) hat
    have hnot : g.f.vararg ≠ some m := by
      intro hva
      have h₁ := (Function.vararg_at hva).idxOf
      have h₂ := hat.idxOf
      rw [hva] at h₂
      simp at h₂
      omega
    rw [bound, if_neg (by omega), if_neg hnot] at hdict
    have hitems := eval_dict hfr hdict
    have hmem : kv ∈ c.kwargs.filter fun kv => ¬ g.f.Nameable kv.1 := List.mem_filter.mpr ⟨hkv, by simpa using hn⟩
    rw [hitems] at hmem
    exact absurd hv (by simpa using (List.mem_filter.mp hmem).2)
  refine ⟨fun i n hi hat => ?_, fun n hn hcap => ?_, hnamed, fun k kv i hk hat => ?_⟩
  · obtain ⟨v, hv, hget⟩ := hgiven i n hi hat
    cases hg : g.given c i n with
    | some u => rfl
    | none =>
      rw [hg, Option.none_or] at hv
      obtain ⟨z, rfl⟩ := hd.defaults i v hv
      rcases eval_value hfr hget with ⟨k, kv, hk, -, he⟩ | hmem
      · obtain ⟨id, hid⟩ := hd.keys kv (mem_recognised.mp (List.mem_of_getElem? hk)).1
        rw [hid] at he
        cases he
      · obtain ⟨id, hid⟩ := hd.args _ hmem
        cases hid
  · have hrest : ∃ i, g.f.At i n ∧ g.f.named.length ≤ i ∧ i < g.f.parameters.length := by
      rcases hn with hn | hn
      · exact ⟨_, Function.vararg_at hn, Nat.le_refl _, by rw [hlen, hn]; simp; omega⟩
      · exact ⟨_, Function.kwarg_at hn, Nat.le_add_right _ _, by rw [hlen, hn]; simp⟩
    obtain ⟨i, hat, hle, hlt⟩ := hrest
    have hget := hbound i n hlt hat
    rw [bound, if_neg (by omega), Function.readPlace_captured hcap] at hget
    rcases eval_cell hfr (g.f.cellvars.idxOf n) with hc | ⟨v, hc⟩ <;> rw [hc] at hget <;> split at hget <;> cases hget
  · have hmem := List.mem_of_getElem? hk
    obtain ⟨hkw, hv⟩ := mem_recognised.mp hmem
    obtain ⟨hfilled, hlt, hat'⟩ := recognised_spec hb hnamed hmem
    have hi : g.f.varnames.idxOf kv.1 = i := hat.idxOf
    rw [hi] at hfilled hlt
    have hnameable := hnamed kv hkw hv
    obtain ⟨v, hvalue, hget⟩ := hgiven i kv.1 hlt hat
    rw [given_keyword hkw hfilled hnameable, Option.some_or] at hvalue
    cases hvalue
    have hklt := recognised_lt hnamed hk
    -- the value is only at the places of its own keyword
    have hplace : g.f.code.readPlace kv.1 ∈ g.f.code.keywordPlaces i k := by
      rcases eval_value hfr hget with ⟨k', kv', hk', hp, he⟩ | hargs
      · obtain rfl := hd.keys_inj kv hkw kv' (mem_recognised.mp (List.mem_of_getElem? hk')).1 he
        have hnodup : (g.f.code.recognised c.kwargs).Nodup := (List.Nodup.of_map _ c.keys_nodup).filter _
        obtain ⟨h₁, hg₁⟩ := List.getElem?_eq_some_iff.mp hk
        obtain ⟨h₂, hg₂⟩ := List.getElem?_eq_some_iff.mp hk'
        have hkk : k = k' := (hnodup.getElem_inj_iff).mp (hg₁.trans hg₂.symm)
        rwa [hkk, ← hi]
      · exact absurd rfl (hd.apart _ hargs kv hkw)
    by_cases hcap : kv.1 ∈ g.f.cellvars
    · right
      rw [Code.mem_keywordPlaces, Function.readPlace_captured hcap] at hplace
      rcases hplace with ⟨cell, hcell, he⟩ | he
      · rw [Place.cell.injEq] at he
        subst he
        have harg := Function.argOf_of_argCell hcell
        have hnum : kv.1 ∈ g.f.numberedArguments := Function.argOf_ne.mp (by omega)
        simp only [Function.numberedArguments, List.mem_append, Option.mem_toList] at hnum
        rcases hnum with hnum | hnum | hnum
        · obtain ⟨j, hj⟩ := List.mem_iff_getElem?.mp hnum
          obtain ⟨hjlt, -⟩ := List.getElem?_eq_some_iff.mp hj
          have hji := (Function.argument_at hj).idxOf.symm.trans hat.idxOf
          subst hji
          exact ⟨hcap, hjlt, harg.symm.trans (Function.argOf_argument hj)⟩
        · have := (Function.vararg_at hnum).idxOf
          omega
        · have := (Function.kwarg_at hnum).idxOf
          omega
      · cases he
    · left
      have hslot := hat.readPlace hcap
      rw [Code.mem_keywordPlaces, hslot] at hplace
      rcases hplace with ⟨cell, -, he⟩ | he
      · cases he
      rw [Place.slot.injEq] at he
      refine ⟨hcap, (Function.slotsBefore_eq_self (Nat.le_of_lt hat.lt)).mp he, fun m hm hmc => ?_⟩
      have hmat := Function.argument_at hm
      obtain ⟨u, hu, hmget⟩ := hgiven k m hklt hmat
      rw [Function.readPlace_captured hmc, eval_keywordCell hfr hk (Function.argCell_captured hm hmc)] at hmget
      cases hmget
      cases hg : g.given c k m with
      | none =>
        rw [hg, Option.none_or] at hu
        obtain ⟨z, hz⟩ := hd.defaults k _ hu
        obtain ⟨id, hid⟩ := hd.keys kv hkw
        rw [hz] at hid
        cases hid
      | some u =>
        rw [hg, Option.some_or] at hu
        cases hu
        rcases given_cases hmat hg with ⟨-, hargs⟩ | ⟨-, -, k', hk'⟩
        · exact hd.apart _ (List.mem_of_getElem? hargs) kv hkw rfl
        · have := hd.keys_inj kv hkw _ (mem_recognised.mp (List.mem_of_getElem? hk')).1 rfl
          rw [this] at hcap
          exact hcap hmc

/-! ## Where the rule has no binding -/

/-- The two mistakes that `eval` always notices: an unknown keyword, and more positional arguments than parameters. -/
def Stopped (g : Callable) (c : Call) : Prop :=
  (g.f.kwarg = none ∧ ∃ kv ∈ c.kwargs, kv.1 ∉ g.f.varnames) ∨
    (g.f.vararg = none ∧ g.f.argumentNames.length < c.args.length)

theorem Stopped.typeError (h : g.Stopped c) : ∃ e, g.eval c = .error (.typeError e) := by
  rw [eval_eq]
  cases hk : g.f.code.bindKeywords 0 c.kwargs (g.start c) with
  | error s =>
    obtain ⟨e, rfl⟩ := Code.bindKeywords_error _ hk
    exact ⟨e, rfl⟩
  | ok fr =>
    rcases h with ⟨hkw, hunknown⟩ | ⟨hva, hmany⟩
    · have hvar : g.f.code.varkeywords = false := by
        rw [Function.code_varkeywords, hkw]
        rfl
      obtain ⟨e, he⟩ := g.f.code.bindKeywords_unexpected hvar hunknown
      rw [he] at hk
      cases hk
    · refine ⟨.tooManyPositional (min c.args.length g.f.argumentNames.length) c.args.length, ?_⟩
      have hfew : min c.args.length g.f.argumentNames.length < c.args.length := by omega
      have hfirst : g.f.code.bindVarargs c.args fr =
          .error (.typeError (.tooManyPositional (min c.args.length g.f.argumentNames.length) c.args.length)) := by
        simp [Code.bindVarargs, hva, hfew]
      show g.variadic c fr = _
      unfold variadic
      rw [hfirst]
      rfl

theorem bindRest_error {i : Nat} {content : Content} {fr : Frame} {s : Stop}
    (h : g.f.code.bindRest i content fr = .error s) : s = .abort := by
  unfold Code.bindRest at h
  split at h
  next => cases h
  next =>
    split at h
    next => cases h
    next =>
      cases h
      rfl

/-- A call that passes integers alone meets no object in a slot. -/
theorem not_typeError_of_int (hargs : ∀ v ∈ c.args, ∃ z, v = .int z) (h : ¬ g.Stopped c) (e : BindError) :
    g.eval c ≠ .error (.typeError e) := by
  obtain ⟨hknown, hfew⟩ := not_or.mp h
  obtain ⟨fr, hfr⟩ : ∃ fr, g.f.code.bindKeywords 0 c.kwargs (g.start c) = .ok fr := by
    refine Code.bindKeywords_isOk _ c.keys_nodup (fun kv hkv => ?_) fun kv hkv hv => ?_
    · by_cases hv : kv.1 ∈ g.f.varnames
      · exact .inl hv
      · refine .inr (Option.isSome_iff_ne_none.mpr fun hk => hknown ⟨hk, kv, hkv, hv⟩)
    · rcases @start_get g c (.slot (g.f.code.varnames.idxOf kv.1)) with hs | ⟨v, hv, hs⟩
      · rw [hs]
        rfl
      · obtain ⟨z, rfl⟩ := hargs v hv
        rw [hs]
        rfl
  rw [eval_eq, hfr]
  show g.variadic c fr ≠ _
  intro he
  unfold variadic at he
  cases hfirst : g.f.code.bindVarargs c.args fr with
  | error s =>
    rw [hfirst] at he
    cases he
    simp only [Code.bindVarargs] at hfirst
    split at hfirst
    next => cases bindRest_error hfirst
    next hva =>
      split at hfirst
      next hlt =>
        have hnone : g.f.vararg = none := Option.isNone_iff_eq_none.mp (by simpa using hva)
        have hlt : min c.args.length g.f.argumentNames.length < c.args.length := hlt
        exact hfew ⟨hnone, by omega⟩
      next => cases hfirst
  | ok fr₁ =>
    rw [hfirst] at he
    have he : g.f.code.bindVarkeywords c.kwargs fr₁ = .error (.typeError e) := he
    unfold Code.bindVarkeywords at he
    split at he
    next => cases bindRest_error he
    next => cases he

/-! ## The exact condition -/

def withDefaults (g : Callable) (v : Value) : Callable where
  f := g.f
  defaults := g.defaults.map fun _ => v
  kwDefaults := g.kwDefaults.map (·.map fun _ => v)
  defaults_le := by simpa using g.defaults_le
  kwDefaults_length := by simpa using g.kwDefaults_length

theorem sameShape (g : Callable) (c : Call) (v : Value) (arg : Nat → Value) (key : String → Value) :
    SameShape g c (g.withDefaults v) (c.withValues arg key) where
  f := rfl
  defaults := by simp [withDefaults]
  kwDefaults := by simp [withDefaults, Function.comp_def]
  args := by simp [Call.withValues]
  keys := by simp [Call.withValues, Function.comp_def]

theorem distinct_spec (g : Callable) (c : Call) : (g.withDefaults (.int 0)).Distinct c.distinct where
  defaults i v h := by
    unfold default at h
    split at h
    next =>
      split at h
      next =>
        simp only [withDefaults, List.getElem?_map, Option.map_eq_some_iff] at h
        obtain ⟨u, -, rfl⟩ := h
        exact ⟨0, rfl⟩
      next => cases h
    next =>
      obtain ⟨d, hd, rfl⟩ : ∃ d, (g.withDefaults (.int 0)).kwDefaults[i - (g.withDefaults (.int 0)).f.argumentNames.length]? =
          some d ∧ d = some v := by simpa [Option.join_eq_some_iff] using h
      simp only [withDefaults, List.getElem?_map, Option.map_eq_some_iff] at hd
      obtain ⟨u, -, hu⟩ := hd
      obtain ⟨w, -, rfl⟩ := hu
      exact ⟨0, rfl⟩
  args v hv := by
    obtain ⟨i, -, rfl⟩ := List.mem_map.mp hv
    exact ⟨i, rfl⟩
  keys kv hkv := by
    obtain ⟨kv₀, -, rfl⟩ := List.mem_map.mp hkv
    exact ⟨_, rfl⟩
  apart v hv kv hkv he := by
    obtain ⟨i, hi, rfl⟩ := List.mem_map.mp hv
    obtain ⟨kv₀, -, rfl⟩ := List.mem_map.mp hkv
    have hi := List.mem_range.mp hi
    cases he
    omega
  keys_inj kv hkv kv' hkv' he := by
    obtain ⟨kv₀, h₀, rfl⟩ := List.mem_map.mp hkv
    obtain ⟨kv₁, h₁, rfl⟩ := List.mem_map.mp hkv'
    have hidx : (c.kwargs.map Prod.fst).idxOf kv₀.1 = (c.kwargs.map Prod.fst).idxOf kv₁.1 := by
      simp only [Value.object.injEq] at he
      omega
    have hname := (List.idxOf_inj (List.mem_map_of_mem h₀)).mp hidx
    simp only [hname]

/-- The condition on a call, whatever its values: if the rule binds it, it is clean, and if not, `eval` notices. -/
def Settled (g : Callable) (c : Call) : Prop := (g.Binds c → g.Clean c) ∧ (¬ g.Binds c → g.Stopped c)

theorem SameShape.stopped (h : SameShape g c g' c') (hs : g.Stopped c) : g'.Stopped c' := by
  unfold Stopped at *
  rw [h.f, h.args]
  refine hs.imp_left fun ⟨hk, kv, hkv, hv⟩ => ⟨hk, ?_⟩
  obtain ⟨kv', hkv', he⟩ := h.symm.mem_keys hkv
  exact ⟨kv', hkv', he ▸ hv⟩

theorem SameShape.settled (h : SameShape g c g' c') (hs : g.Settled c) : g'.Settled c' :=
  ⟨fun hb => h.clean (hs.1 (h.symm.binds hb)), fun hb => h.stopped (hs.2 fun hb' => hb (h.binds hb'))⟩

theorem Settled.correct (h : g.Settled c) : g.Correct c := ⟨fun hb => (h.1 hb).binds hb, fun hb => (h.2 hb).typeError⟩

/-- **`PyCode::eval` binds as Python's rule says** whatever the values of a call are, exactly where the condition holds
of the function and the call. -/
theorem correct_iff (g : Callable) (c : Call) :
    (∀ g' c', SameShape g c g' c' → g'.Correct c') ↔ g.Settled c := by
  constructor
  · intro h
    constructor
    · intro hb
      have hshape := sameShape g c (.int 0) .object fun n => .object (c.args.length + (c.kwargs.map Prod.fst).idxOf n)
      exact hshape.symm.clean ((distinct_spec g c).clean (hshape.binds hb) (h _ _ hshape))
    · intro hb
      by_contra hs
      have hshape := sameShape g c (.int 0) (fun _ => .int 0) fun _ => .int 0
      obtain ⟨e, he⟩ := (h _ _ hshape).2 fun hb' => hb (hshape.symm.binds hb')
      refine not_typeError_of_int (fun v hv => ?_) (fun hs' => hs (hshape.symm.stopped hs')) e he
      obtain ⟨i, -, rfl⟩ := List.mem_map.mp hv
      exact ⟨0, rfl⟩
  · intro h g' c' hshape
    exact (hshape.settled h).correct

/-- `def f(a, b=2)`. -/
def withDefault : Callable where
  f :=
    { posonlyargs := [], args := ["a", "b"], kwonlyargs := [], vararg := none, kwarg := none
      locals := [], cellvars := [], freevars := [], isClass := false
      varnames_nodup := by decide, cellvars_nodup := by decide, freevars_nodup := by decide
      locals_uncaptured := by decide, freevars_foreign := by decide }
  defaults := [.int 2]
  kwDefaults := []
  defaults_le := by decide
  kwDefaults_length := rfl

/-- In the call `f(1)` the rule gives `b` its default and `eval` leaves its slot null. -/
theorem withDefault_unbound : ∃ fr, withDefault.eval ⟨[.int 1], [], .nil⟩ = .ok fr ∧
    fr.get (withDefault.f.code.readPlace "b") = .null ∧
    withDefault.bound ⟨[.int 1], [], .nil⟩ 1 "b" = .value (.int 2) ∧ ¬ withDefault.Correct ⟨[.int 1], [], .nil⟩ := by
  refine ⟨_, rfl, by decide, by decide, fun h => ?_⟩
  have hb : withDefault.Binds ⟨[.int 1], [], .nil⟩ := by
    refine ⟨.inl (by decide), by simp, fun i hi n _ => ?_⟩
    obtain rfl | rfl : i = 0 ∨ i = 1 := by
      have hi : i < 2 := hi
      omega
    · exact .inl rfl
    · exact .inr rfl
  obtain ⟨fr, hfr, hbound⟩ := h.1 hb
  have hget := hbound 1 "b" (by decide) rfl
  cases hfr
  exact absurd hget (by decide)

end Callable

end Pylang.Calling
