/-
The calls that `eval` binds by Python's rule whatever their values: those that
give every named parameter and whose keywords meet the cells and slots by the
count that the pass over the keywords uses. Where the rule has no binding,
`eval` only notices unknown keywords and superfluous positional arguments.
-/
import Pylang.Calling.Rule
import Mathlib.Data.List.Perm.Subperm
import Mathlib.Tactic.Tauto

namespace Pylang.Calling

namespace Function
variable {f : Function}

theorem Nameable.named {n : String} (h : f.Nameable n) : n ∈ f.named := by
  unfold Nameable at h
  simp only [Function.named, argumentNames, List.mem_append] at h ⊢
  tauto

theorem At.lt_named {i : Nat} {n : String} (h : f.At i n) (hn : n ∈ f.named) : i < f.named.length := by
  obtain ⟨j, hj⟩ := List.mem_iff_getElem?.mp hn
  obtain ⟨hlt, -⟩ := List.getElem?_eq_some_iff.mp hj
  have hat : f.At j n := by
    unfold At
    rwa [varnames, parameters, List.append_assoc, List.append_assoc, List.getElem?_append_left hlt]
  rw [← h.idxOf, hat.idxOf]
  exact hlt

theorem Nameable.mem {n : String} (h : f.Nameable n) : n ∈ f.varnames := by
  simp [varnames, parameters, h.named]

theorem At.of_mem {n : String} (h : n ∈ f.varnames) : f.At (f.varnames.idxOf n) n := by
  obtain ⟨i, hi⟩ := exists_at h
  rwa [hi.idxOf]

/-- A rest parameter stands behind the named ones. -/
theorem At.rest {i : Nat} {n : String} (h : f.At i n) (hle : f.named.length ≤ i) (hlt : i < f.parameters.length) :
    f.vararg = some n ∧ i = f.named.length ∨ f.kwarg = some n ∧ i = f.named.length + f.vararg.isSome.toNat := by
  unfold At varnames parameters at h
  rw [List.append_assoc, List.append_assoc, List.getElem?_append_right hle] at h
  have hlen := @length_parameters f
  cases hv : f.vararg <;> cases hk : f.kwarg <;>
    simp only [hv, hk, Option.isSome_some, Option.isSome_none, Bool.toNat_true, Bool.toNat_false] at hlen
  · omega
  · have hi : i = f.named.length := by omega
    subst hi
    simp [hv, hk] at h
    simp [h]
  · have hi : i = f.named.length := by omega
    subst hi
    simp [hv] at h
    simp [h]
  · obtain hi | hi : i = f.named.length ∨ i = f.named.length + 1 := by omega
    · subst hi
      simp [hv] at h
      simp [h]
    · subst hi
      simp [hv, hk] at h
      simp [h]

/-- The captured names among the first. -/
def cellsBefore (f : Function) (i : Nat) : Nat := (f.varnames.take i).countP (· ∈ f.cellvars)

theorem cellsBefore_add {i : Nat} (h : i ≤ f.varnames.length) : f.cellsBefore i + f.slotsBefore i = i := by
  have hadd := List.length_eq_countP_add_countP (· ∈ f.cellvars) (l := f.varnames.take i)
  rw [List.length_take, Nat.min_eq_left h] at hadd
  unfold cellsBefore slotsBefore
  simpa using hadd.symm

/-- Neither `*args` nor `**kwargs` is captured. -/
def RestUncaptured (f : Function) : Prop := ∀ n, f.vararg = some n ∨ f.kwarg = some n → n ∉ f.cellvars

theorem RestUncaptured.argCell (h : f.RestUncaptured) {i : Nat} (hi : i < f.parameters.length)
    (hnone : ∀ n, f.argumentNames[i]? = some n → n ∉ f.cellvars) : f.code.argCell i = none := by
  refine Option.eq_none_iff_forall_ne_some.mpr fun cell hcell => ?_
  obtain ⟨n, hn, harg, -⟩ := argCell_name hcell
  have hmem : n ∈ f.numberedArguments := argOf_ne.mp (by omega)
  simp only [numberedArguments, List.mem_append, Option.mem_toList] at hmem
  rcases hmem with hmem | hmem | hmem
  · obtain ⟨j, hj⟩ := List.mem_iff_getElem?.mp hmem
    rw [argOf_argument hj] at harg
    exact hnone n (harg ▸ hj) hn
  · exact h n (.inl hmem) hn
  · exact h n (.inr hmem) hn

/-- The slot computed for a rest parameter is the one the body reads. -/
theorem RestUncaptured.restSlot (h : f.RestUncaptured)
    (hkw : ∀ i n, f.At i n → f.argumentNames.length ≤ i → i < f.named.length → n ∉ f.cellvars)
    {i : Nat} {n : String} (hat : f.At i n) (hle : f.named.length ≤ i) (hlt : i < f.parameters.length) :
    f.code.restSlot i = some (f.code.readPlace n) := by
  have hrest := hat.rest hle hlt
  have hn : n ∉ f.cellvars := h n (hrest.imp And.left And.left)
  have hadd := cellsBefore_add (Nat.le_of_lt hat.lt)
  have hnamed := @length_named f
  have hcount : f.code.argCellsCount = f.cellsBefore i := by
    have htake : (f.varnames.take i).Nodup := f.nodup.sublist (List.take_sublist _ _)
    unfold cellsBefore
    rw [argCellsCount_eq, ← countP_mem_comm f.cellvars_nodup numberedArguments_nodup,
      ← countP_mem_comm f.cellvars_nodup htake]
    refine List.countP_congr fun m hm => ?_
    simp only [decide_eq_true_eq]
    constructor
    · intro hmem
      simp only [numberedArguments, List.mem_append, Option.mem_toList] at hmem
      rcases hmem with hmem | hmem | hmem
      · obtain ⟨j, hj⟩ := List.mem_iff_getElem?.mp hmem
        obtain ⟨hj', -⟩ := List.getElem?_eq_some_iff.mp hj
        have hji : j < i := by omega
        exact List.mem_of_getElem? ((List.getElem?_take_of_lt hji).trans (argument_at hj))
      · exact absurd hm (h m (.inl hmem))
      · exact absurd hm (h m (.inr hmem))
    · intro hmem
      obtain ⟨j, hj⟩ := List.mem_iff_getElem?.mp hmem
      have hji : j < i := by
        by_contra hge
        rw [List.getElem?_take_eq_none (by omega)] at hj
        cases hj
      rw [List.getElem?_take_of_lt hji] at hj
      by_cases harg : j < f.argumentNames.length
      · simp [numberedArguments, List.mem_of_getElem? (At.argument hj harg)]
      · by_cases hjn : j < f.named.length
        · exact absurd hm (hkw j m hj (by omega) hjn)
        · have := At.rest hj (by omega) (by omega)
          exact absurd hm (h m (this.imp And.left And.left))
  rw [hat.readPlace hn, Code.restSlot, if_pos (by omega), hcount]
  simp only [Option.some.injEq, Place.slot.injEq]
  omega

end Function

namespace Callable
variable {g : Callable} {c : Call}

/-- What a call that the rule binds must be like for `eval` to bind it so: every named parameter is given, no rest
parameter is captured, no keyword names another local or a positional-only parameter, and the keyword after `k` others
names an uncaptured parameter with no captured one in front, where the parameter at `k` has no cell, or the captured
positional parameter at `k`. -/
structure Clean (g : Callable) (c : Call) : Prop where
  given : ∀ i n, i < g.f.named.length → g.f.At i n → (g.given c i n).isSome
  rest : g.f.RestUncaptured
  named : ∀ kv ∈ c.kwargs, kv.1 ∈ g.f.varnames → g.f.Nameable kv.1
  placed : ∀ k kv i, (g.f.code.recognised c.kwargs)[k]? = some kv → g.f.At i kv.1 →
    (kv.1 ∉ g.f.cellvars ∧ (∀ j m, j < i → g.f.At j m → m ∉ g.f.cellvars) ∧
      ∀ m, g.f.argumentNames[k]? = some m → m ∉ g.f.cellvars) ∨
    (kv.1 ∈ g.f.cellvars ∧ i < g.f.argumentNames.length ∧ k = i)

theorem mem_recognised {kv : String × Value} : kv ∈ g.f.code.recognised c.kwargs ↔ kv ∈ c.kwargs ∧ kv.1 ∈ g.f.varnames := by
  unfold Code.recognised
  rw [List.mem_filter, decide_eq_true_iff]
  rfl

theorem recognised_spec (hb : g.Binds c) (hnamed : ∀ kv ∈ c.kwargs, kv.1 ∈ g.f.varnames → g.f.Nameable kv.1)
    {kv : String × Value} (h : kv ∈ g.f.code.recognised c.kwargs) :
    g.filled c ≤ g.f.varnames.idxOf kv.1 ∧ g.f.varnames.idxOf kv.1 < g.f.named.length ∧
      g.f.At (g.f.varnames.idxOf kv.1) kv.1 := by
  obtain ⟨hmem, hv⟩ := mem_recognised.mp h
  have hn := hnamed kv hmem hv
  have hfilled := hb.2.1 kv hmem
  rw [if_pos hn] at hfilled
  have hat := Function.At.of_mem hv
  exact ⟨hfilled, hat.lt_named hn.named, hat⟩

theorem recognised_unique {kv kv' : String × Value} (h : kv ∈ g.f.code.recognised c.kwargs)
    (h' : kv' ∈ g.f.code.recognised c.kwargs) (he : kv.1 = kv'.1) : kv = kv' :=
  List.inj_on_of_nodup_map c.keys_nodup (mem_recognised.mp h).1 (mem_recognised.mp h').1 he

/-- There are no more keywords to place than named parameters. -/
theorem recognised_lt (hnamed : ∀ kv ∈ c.kwargs, kv.1 ∈ g.f.varnames → g.f.Nameable kv.1) {k : Nat}
    {kv : String × Value} (h : (g.f.code.recognised c.kwargs)[k]? = some kv) : k < g.f.named.length := by
  obtain ⟨hk, -⟩ := List.getElem?_eq_some_iff.mp h
  have hnodup : ((g.f.code.recognised c.kwargs).map Prod.fst).Nodup :=
    c.keys_nodup.sublist (List.filter_sublist.map _)
  have hsub : (g.f.code.recognised c.kwargs).map Prod.fst ⊆ g.f.named := by
    intro n hn
    obtain ⟨kv, hkv, rfl⟩ := List.mem_map.mp hn
    obtain ⟨hmem, hv⟩ := mem_recognised.mp hkv
    exact (hnamed kv hmem hv).named
  have hle := (List.subperm_of_subset hnodup hsub).length_le
  rw [List.length_map] at hle
  omega

/-- The frame after the positional arguments. -/
def start (g : Callable) (c : Call) : Frame := Frame.empty.run (g.f.code.positionalWrites (c.args.take (g.filled c)))

/-- The two passes over what is left. -/
def variadic (g : Callable) (c : Call) (fr : Frame) : Except Stop Frame :=
  (g.f.code.bindVarargs c.args fr).bind (g.f.code.bindVarkeywords c.kwargs)

theorem eval_eq : g.eval c = (g.f.code.bindKeywords 0 c.kwargs (g.start c)).bind (g.variadic c) := by
  have hkw : (g.kwDefaults.filterMap id).length ≤ g.f.code.namedCount := by
    have hle := List.length_filterMap_le id g.kwDefaults
    have hlen := g.kwDefaults_length
    show _ ≤ g.f.argumentNames.length + g.f.kwonlyargs.length
    omega
  exact g.f.code.eval_eq g.defaults_le hkw

theorem filled_le : g.filled c ≤ g.f.argumentNames.length := Nat.min_le_right _ _

theorem mem_startWrites {w : List Place × Content} (h : w ∈ g.f.code.positionalWrites (c.args.take (g.filled c))) :
    ∃ i n v, i < g.filled c ∧ g.f.At i n ∧ c.args[i]? = some v ∧ w = ([g.f.code.readPlace n], .value v) := by
  obtain ⟨i, v, hv, rfl⟩ := (Code.mem_positionalWrites _).mp h
  have hi : i < g.filled c := by
    by_contra hge
    rw [List.getElem?_take_eq_none (by omega)] at hv
    cases hv
  rw [List.getElem?_take_of_lt hi] at hv
  have harg : i < g.f.argumentNames.length := Nat.lt_of_lt_of_le hi filled_le
  obtain ⟨n, hn⟩ : ∃ n, g.f.argumentNames[i]? = some n := ⟨_, List.getElem?_eq_getElem harg⟩
  exact ⟨i, n, v, hi, Function.argument_at hn, hv, by rw [Function.argPlace_eq hn]⟩

theorem start_filled {i : Nat} {n : String} {v : Value} (hi : i < g.filled c) (hat : g.f.At i n)
    (hv : c.args[i]? = some v) : (g.start c).get (g.f.code.readPlace n) = .value v := by
  have harg := hat.argument (Nat.lt_of_lt_of_le hi filled_le)
  have hw : ([g.f.code.readPlace n], Content.value v) ∈ g.f.code.positionalWrites (c.args.take (g.filled c)) := by
    refine (Code.mem_positionalWrites _).mpr ⟨i, v, ?_, by rw [Function.argPlace_eq harg]⟩
    rw [List.getElem?_take_of_lt hi, hv]
  refine Frame.get_run_of_unique _ hw (by simp) fun w hw hp => ?_
  obtain ⟨j, m, u, hj, hm, hu, rfl⟩ := mem_startWrites hw
  have hnm := Function.readPlace_inj (.inl hat.mem) (.inl hm.mem) (by simpa using hp)
  subst hnm
  have hij := hat.idxOf.symm.trans hm.idxOf
  subst hij
  rw [hv] at hu
  cases hu
  rfl

theorem start_slot {s : Nat} (hs : g.filled c ≤ s) : (g.start c).get (.slot s) = .null := by
  unfold start
  rw [Frame.get_run_of_not_mem, Frame.get_empty]
  intro w hw hp
  obtain ⟨i, n, v, hi, hat, -, rfl⟩ := mem_startWrites hw
  rw [List.mem_singleton] at hp
  by_cases hn : n ∈ g.f.cellvars
  · rw [Function.readPlace_captured hn] at hp
    cases hp
  · rw [hat.readPlace hn, Place.slot.injEq] at hp
    have := Function.slotsBefore_le (f := g.f) i
    omega

/-- The values of a parameter: by position, or by a keyword that the pass places. -/
theorem given_cases {i : Nat} {n : String} {v : Value} (hat : g.f.At i n) (h : g.given c i n = some v) :
    (i < g.filled c ∧ c.args[i]? = some v) ∨
      (g.filled c ≤ i ∧ g.f.Nameable n ∧ ∃ k : Nat, (g.f.code.recognised c.kwargs)[k]? = some (n, v)) := by
  unfold given at h
  split at h
  next hi => exact .inl ⟨hi, h⟩
  next hi =>
    split at h
    next hn =>
      obtain ⟨l₁, l₂, heq, -⟩ := List.lookup_eq_some_iff.mp h
      have hmem : (n, v) ∈ g.f.code.recognised c.kwargs := mem_recognised.mpr ⟨by rw [heq]; simp, hat.mem⟩
      exact .inr ⟨by omega, hn, List.mem_iff_getElem?.mp hmem⟩
    next => cases h

/-! ## Clean calls -/

theorem Clean.kwonly (hc : g.Clean c) {i : Nat} {n : String} (hat : g.f.At i n) (hle : g.f.argumentNames.length ≤ i)
    (hlt : i < g.f.named.length) : n ∉ g.f.cellvars := by
  obtain ⟨v, hv⟩ := Option.isSome_iff_exists.mp (hc.given i n hlt hat)
  have hfilled := @filled_le g c
  rcases given_cases hat hv with ⟨hi, -⟩ | ⟨-, -, k, hk⟩
  · omega
  · rcases hc.placed k _ i hk hat with ⟨hn, -⟩ | ⟨-, hi, -⟩
    · exact hn
    · omega

/-- In a clean call a keyword goes to the place of its parameter, and at most to the slot of a captured one besides. -/
theorem Clean.places (hb : g.Binds c) (hc : g.Clean c) {k : Nat} {kv : String × Value}
    (h : (g.f.code.recognised c.kwargs)[k]? = some kv) :
    g.f.code.readPlace kv.1 ∈ g.f.code.keywordPlaces (g.f.varnames.idxOf kv.1) k ∧
      ∀ p ∈ g.f.code.keywordPlaces (g.f.varnames.idxOf kv.1) k, p = g.f.code.readPlace kv.1 ∨
        p = .slot (g.f.varnames.idxOf kv.1) ∧ kv.1 ∈ g.f.cellvars := by
  obtain ⟨hfilled, hlt, hat⟩ := recognised_spec hb hc.named (List.mem_of_getElem? h)
  rcases hc.placed k kv _ h hat with ⟨hn, hbefore, hnone⟩ | ⟨hn, harg, rfl⟩
  · have hk : k < g.f.parameters.length := by
      have := recognised_lt hc.named h
      have := @Function.length_parameters g.f
      omega
    have hread := hat.readPlace hn
    rw [(Function.slotsBefore_eq_self (Nat.le_of_lt hat.lt)).mpr hbefore] at hread
    simp [Code.mem_keywordPlaces, hc.rest.argCell hk hnone, hread]
  · have hcell := Function.argCell_captured (hat.argument harg) hn
    simp [Code.mem_keywordPlaces, hcell, Function.readPlace_captured hn, hn]

/-- The frame after the keywords of a clean call. -/
theorem Clean.keywords (hb : g.Binds c) (hc : g.Clean c) : ∃ fr, g.f.code.bindKeywords 0 c.kwargs (g.start c) = .ok fr ∧
    ∀ i n v, i < g.f.named.length → g.f.At i n → g.given c i n = some v →
      fr.get (g.f.code.readPlace n) = .value v := by
  obtain ⟨fr, hfr⟩ : ∃ fr, g.f.code.bindKeywords 0 c.kwargs (g.start c) = .ok fr := by
    refine Code.bindKeywords_isOk _ c.keys_nodup (fun kv hkv => ?_) fun kv hkv hv => ?_
    · by_cases hv : kv.1 ∈ g.f.varnames
      · exact .inl hv
      · have hknown := hb.2.1 kv hkv
        rw [if_neg fun hn => hv hn.mem] at hknown
        exact .inr hknown
    · obtain ⟨hfilled, -⟩ := recognised_spec hb hc.named (mem_recognised.mpr ⟨hkv, hv⟩)
      have hnull := start_slot hfilled
      show (Frame.get _ (.slot (g.f.varnames.idxOf kv.1))).isHeapObject = false
      rw [hnull]
      rfl
  refine ⟨fr, hfr, fun i n v hi hat hv => ?_⟩
  rw [Code.bindKeywords_run _ hfr]
  -- what another keyword writes at this parameter's place
  have hother : ∀ k kv, (g.f.code.recognised c.kwargs)[k]? = some kv →
      g.f.code.readPlace n ∈ g.f.code.keywordPlaces (g.f.varnames.idxOf kv.1) k → n = kv.1 ∨
        (n ∉ g.f.cellvars ∧ g.f.slotsBefore i = g.f.varnames.idxOf kv.1 ∧ kv.1 ∈ g.f.cellvars) := by
    intro k kv hk hp
    obtain ⟨-, -, hkat⟩ := recognised_spec hb hc.named (List.mem_of_getElem? hk)
    rcases (hc.places hb hk).2 _ hp with hp | ⟨hp, hcap⟩
    · exact .inl (Function.readPlace_inj (.inl hat.mem) (.inl hkat.mem) hp)
    · by_cases hn : n ∈ g.f.cellvars
      · rw [Function.readPlace_captured hn] at hp
        cases hp
      · rw [hat.readPlace hn, Place.slot.injEq] at hp
        exact .inr ⟨hn, hp, hcap⟩
  rcases given_cases hat hv with ⟨hfilled, hargs⟩ | ⟨hge, hnameable, k, hk⟩
  · rw [Frame.get_run_of_not_mem, start_filled hfilled hat hargs]
    intro w hw hp
    obtain ⟨k, kv, hk, rfl⟩ := (Code.mem_keywordWrites _).mp hw
    obtain ⟨hge, -, hkat⟩ := recognised_spec hb hc.named (List.mem_of_getElem? hk)
    rcases hother k kv hk hp with rfl | ⟨-, hslot, -⟩
    · have := hat.idxOf
      omega
    · have := Function.slotsBefore_le (f := g.f) i
      omega
  · have hw := (@Code.mem_keywordWrites g.f.code c.kwargs _).mpr ⟨k, (n, v), hk, rfl⟩
    refine Frame.get_run_of_unique _ hw (hc.places hb hk).1 fun w hw' hp => ?_
    obtain ⟨k', kv, hk', rfl⟩ := (Code.mem_keywordWrites _).mp hw'
    rcases hother k' kv hk' hp with rfl | ⟨hn, hslot, hcap⟩
    · have := recognised_unique (List.mem_of_getElem? hk) (List.mem_of_getElem? hk') rfl
      rw [← this]
    · -- an uncaptured parameter given by keyword has no captured one in front, so its slot is its own
      obtain ⟨-, -, hkat⟩ := recognised_spec hb hc.named (List.mem_of_getElem? hk')
      rcases hc.placed k (n, v) i hk hat with ⟨-, hbefore, -⟩ | ⟨hcn, -, -⟩
      · rw [(Function.slotsBefore_eq_self (Nat.le_of_lt hat.lt)).mpr hbefore] at hslot
        rw [← hslot] at hkat
        exact absurd (hat.unique hkat ▸ hcap) hn
      · exact absurd hcn hn

theorem Clean.bindRest (hc : g.Clean c) {i : Nat} {n : String} (hat : g.f.At i n) (hle : g.f.named.length ≤ i)
    (hlt : i < g.f.parameters.length) (content : Content) (fr : Frame) :
    g.f.code.bindRest i content fr = .ok (fr.put (g.f.code.readPlace n) content) := by
  have hnone : ∀ m, g.f.argumentNames[i]? = some m → m ∉ g.f.cellvars := by
    intro m hm
    obtain ⟨hi, -⟩ := List.getElem?_eq_some_iff.mp hm
    have := @Function.length_named g.f
    omega
  have hslot := hc.rest.restSlot (fun i n hat hle hlt => hc.kwonly hat hle hlt) hat hle hlt
  simp only [Code.bindRest, hc.rest.argCell hlt hnone, hslot]

theorem Clean.varargs (hb : g.Binds c) (hc : g.Clean c) (fr : Frame) :
    ∃ fr', g.f.code.bindVarargs c.args fr = .ok fr' ∧
      (∀ n, g.f.vararg = some n → fr'.get (g.f.code.readPlace n) = .tuple (c.args.drop g.f.argumentNames.length)) ∧
      ∀ p, (∀ n, g.f.vararg = some n → p ≠ g.f.code.readPlace n) → fr'.get p = fr.get p := by
  have hlen := @Function.length_parameters g.f
  have hcount : g.f.code.namedCount = g.f.named.length := Function.length_named.symm
  have hfew := hb.1
  unfold Code.bindVarargs
  rw [Function.code_varargs, hcount]
  cases hv : g.f.vararg with
  | none =>
    rw [hv] at hfew
    have hfew : ¬ min c.args.length g.f.argumentNames.length < c.args.length := by
      simp at hfew
      omega
    exact ⟨fr, by simp [hfew], by simp, fun p _ => rfl⟩
  | some v =>
    have hdrop : c.args.drop (min c.args.length g.f.argumentNames.length) = c.args.drop g.f.argumentNames.length := by
      rcases Nat.le_total c.args.length g.f.argumentNames.length with h | h
      · rw [Nat.min_eq_left h, List.drop_of_length_le (Nat.le_refl _), List.drop_of_length_le h]
      · rw [Nat.min_eq_right h]
    rw [hv] at hlen
    have hlt : g.f.named.length < g.f.parameters.length := by
      simp at hlen
      omega
    have hbind := hc.bindRest (Function.vararg_at hv) (Nat.le_refl _) hlt
    refine ⟨fr.put (g.f.code.readPlace v) (.tuple (c.args.drop g.f.argumentNames.length)), ?_, ?_, ?_⟩
    · simp only [Option.isSome_some, if_true, Function.code_argCount, hdrop, hbind]
    · intro n hn
      cases hn
      exact Frame.get_put_self ..
    · exact fun p hp => Frame.get_put_of_ne _ _ (hp v rfl)

theorem Clean.varkeywords (hc : g.Clean c) (fr : Frame) :
    ∃ fr', g.f.code.bindVarkeywords c.kwargs fr = .ok fr' ∧
      (∀ n, g.f.kwarg = some n → fr'.get (g.f.code.readPlace n) = .dict (c.kwargs.filter fun kv => ¬ g.f.Nameable kv.1)) ∧
      ∀ p, (∀ n, g.f.kwarg = some n → p ≠ g.f.code.readPlace n) → fr'.get p = fr.get p := by
  have hlen := @Function.length_parameters g.f
  have hcount : g.f.code.namedCount = g.f.named.length := Function.length_named.symm
  have hdict : c.kwargs.filter (fun kv => kv.1 ∉ g.f.varnames) = c.kwargs.filter fun kv => ¬ g.f.Nameable kv.1 := by
    refine List.filter_congr fun kv hkv => ?_
    have hiff : kv.1 ∈ g.f.varnames ↔ g.f.Nameable kv.1 := ⟨hc.named kv hkv, Function.Nameable.mem⟩
    simp [hiff]
  unfold Code.bindVarkeywords
  rw [Function.code_varkeywords, hcount]
  cases hk : g.f.kwarg with
  | none => exact ⟨fr, by simp, by simp, fun p _ => rfl⟩
  | some k =>
    rw [hk] at hlen
    have hlt : g.f.named.length + g.f.vararg.isSome.toNat < g.f.parameters.length := by
      simp at hlen
      omega
    have hbind := hc.bindRest (Function.kwarg_at hk) (Nat.le_add_right _ _) hlt
      (.dict (c.kwargs.filter fun kv => kv.1 ∉ g.f.varnames)) fr
    refine ⟨_, hbind, ?_, ?_⟩
    · intro n hn
      cases hn
      exact (Frame.get_put_self ..).trans (congrArg _ hdict)
    · exact fun p hp => Frame.get_put_of_ne _ _ (hp k rfl)

/-- The rest parameters of a clean call. -/
theorem Clean.variadic (hb : g.Binds c) (hc : g.Clean c) (fr : Frame) :
    ∃ fr', g.variadic c fr = .ok fr' ∧
      (∀ n, g.f.vararg = some n → fr'.get (g.f.code.readPlace n) = .tuple (c.args.drop g.f.argumentNames.length)) ∧
      (∀ n, g.f.kwarg = some n → fr'.get (g.f.code.readPlace n) = .dict (c.kwargs.filter fun kv => ¬ g.f.Nameable kv.1)) ∧
      ∀ p, (∀ n, g.f.vararg = some n ∨ g.f.kwarg = some n → p ≠ g.f.code.readPlace n) → fr'.get p = fr.get p := by
  obtain ⟨fr₁, h₁, hvararg, hrest₁⟩ := hc.varargs hb fr
  obtain ⟨fr₂, h₂, hkwarg, hrest₂⟩ := hc.varkeywords fr₁
  refine ⟨fr₂, by unfold Callable.variadic; rw [h₁]; exact h₂, fun v hv => ?_, hkwarg, fun p hp => ?_⟩
  · rw [hrest₂, hvararg v hv]
    intro k hk he
    have hvk := Function.readPlace_inj (.inl (Function.vararg_at hv).mem) (.inl (Function.kwarg_at hk).mem) he
    have hv' := (Function.vararg_at hv).idxOf
    have hk' := (Function.kwarg_at hk).idxOf
    rw [hvk, hk', hv] at hv'
    simp at hv'
  · rw [hrest₂ p fun n hn => hp n (.inr hn), hrest₁ p fun n hn => hp n (.inl hn)]

/-- `eval` binds a clean call by the rule. -/
theorem Clean.binds (hb : g.Binds c) (hc : g.Clean c) : ∃ fr, g.eval c = .ok fr ∧
    ∀ i n, i < g.f.parameters.length → g.f.At i n → fr.get (g.f.code.readPlace n) = g.bound c i n := by
  obtain ⟨fr, hfr, hgiven⟩ := hc.keywords hb
  obtain ⟨fr', hfr', hvararg, hkwarg, hrest⟩ := hc.variadic hb fr
  refine ⟨fr', by rw [eval_eq, hfr]; exact hfr', fun i n hi hat => ?_⟩
  unfold bound
  split
  next hlt =>
    obtain ⟨v, hv⟩ := Option.isSome_iff_exists.mp (hc.given i n hlt hat)
    rw [hrest, hgiven i n v hlt hat hv, hv, Option.some_or]
    intro m hm he
    have hmat : ∃ j, g.f.At j m ∧ g.f.named.length ≤ j := by
      rcases hm with hm | hm
      · exact ⟨_, Function.vararg_at hm, Nat.le_refl _⟩
      · exact ⟨_, Function.kwarg_at hm, Nat.le_add_right _ _⟩
    obtain ⟨j, hj, hle⟩ := hmat
    obtain rfl := Function.readPlace_inj (.inl hat.mem) (.inl hj.mem) he
    have h₁ := hat.idxOf
    have h₂ := hj.idxOf
    omega
  next hge =>
    rcases hat.rest (Nat.le_of_not_lt hge) hi with ⟨hv, -⟩ | ⟨hk, hi'⟩
    · rw [if_pos hv, hvararg n hv]
    · rw [if_neg, hkwarg n hk]
      intro hv
      have h₁ := (Function.vararg_at hv).idxOf
      have h₂ := hat.idxOf
      rw [hv] at hi'
      simp at hi'
      omega

/-! ## Calls of one shape -/

/-- Two calls that differ in their values only. -/
structure SameShape (g : Callable) (c : Call) (g' : Callable) (c' : Call) : Prop where
  f : g'.f = g.f
  defaults : g'.defaults.length = g.defaults.length
  kwDefaults : g'.kwDefaults.map Option.isSome = g.kwDefaults.map Option.isSome
  args : c'.args.length = c.args.length
  keys : c'.kwargs.map Prod.fst = c.kwargs.map Prod.fst

theorem lookup_isSome {kwargs : List (String × Value)} {n : String} :
    (kwargs.lookup n).isSome ↔ n ∈ kwargs.map Prod.fst := by
  induction kwargs with
  | nil => simp
  | cons kv kwargs ih =>
    rw [List.lookup_cons, List.map_cons, List.mem_cons]
    split
    next h => simp [beq_iff_eq.mp h]
    next h =>
      rw [ih]
      have hne : n ≠ kv.1 := by simpa using h
      simp [hne]

variable {g' : Callable} {c' : Call}

namespace SameShape

theorem symm (h : SameShape g c g' c') : SameShape g' c' g c :=
  ⟨h.f.symm, h.defaults.symm, h.kwDefaults.symm, h.args.symm, h.keys.symm⟩

theorem filled (h : SameShape g c g' c') : g'.filled c' = g.filled c := by
  unfold Callable.filled
  rw [h.f, h.args]

theorem mem_keys (h : SameShape g c g' c') {kv' : String × Value} (hkv : kv' ∈ c'.kwargs) :
    ∃ kv ∈ c.kwargs, kv.1 = kv'.1 := by
  have hmem : kv'.1 ∈ c.kwargs.map Prod.fst := h.keys ▸ List.mem_map_of_mem hkv
  exact List.mem_map.mp hmem

theorem given (h : SameShape g c g' c') (i : Nat) (n : String) : (g'.given c' i n).isSome = (g.given c i n).isSome := by
  unfold Callable.given
  rw [h.filled, h.f]
  split
  · rw [Bool.eq_iff_iff]
    simp [h.args]
  · split
    · rw [Bool.eq_iff_iff, lookup_isSome, lookup_isSome, h.keys]
    · rfl

theorem default (h : SameShape g c g' c') (i : Nat) : (g'.default i).isSome = (g.default i).isSome := by
  unfold Callable.default
  rw [h.f, h.defaults]
  split
  · split
    · rw [Bool.eq_iff_iff]
      simp [h.defaults]
    · rfl
  · have hj := congrArg (·[i - g.f.argumentNames.length]?) h.kwDefaults
    simp only [List.getElem?_map] at hj
    cases h₁ : g'.kwDefaults[i - g.f.argumentNames.length]? <;> cases h₂ : g.kwDefaults[i - g.f.argumentNames.length]? <;>
      simp_all

theorem binds (h : SameShape g c g' c') (hb : g.Binds c) : g'.Binds c' := by
  refine ⟨by rw [h.f, h.args]; exact hb.1, fun kv' hkv' => ?_, fun i hi n hat => ?_⟩
  · obtain ⟨kv, hkv, he⟩ := h.mem_keys hkv'
    rw [h.f, h.filled, ← he]
    exact hb.2.1 kv hkv
  · rw [h.f] at hi hat
    rw [h.given, h.default]
    exact hb.2.2 i hi n hat

theorem recognised (h : SameShape g c g' c') {k : Nat} {kv' : String × Value}
    (hk : (g'.f.code.recognised c'.kwargs)[k]? = some kv') :
    ∃ kv, (g.f.code.recognised c.kwargs)[k]? = some kv ∧ kv.1 = kv'.1 := by
  have hmap : (g'.f.code.recognised c'.kwargs).map Prod.fst = (g.f.code.recognised c.kwargs).map Prod.fst := by
    have hfilter := fun (l : List (String × Value)) =>
      List.filter_map (f := Prod.fst) (p := fun n => decide (n ∈ g.f.varnames)) (l := l)
    have h₁ := hfilter c'.kwargs
    have h₂ := hfilter c.kwargs
    rw [h.keys, h₂] at h₁
    rw [h.f]
    exact h₁.symm
  have hget := congrArg (·[k]?) hmap
  simp only [List.getElem?_map, hk, Option.map_some] at hget
  exact Option.map_eq_some_iff.mp hget.symm

theorem clean (h : SameShape g c g' c') (hc : g.Clean c) : g'.Clean c' where
  given i n hi hat := by
    rw [h.f] at hi hat
    rw [h.given]
    exact hc.given i n hi hat
  rest := by
    rw [h.f]
    exact hc.rest
  named kv' hkv' hv := by
    obtain ⟨kv, hkv, he⟩ := h.mem_keys hkv'
    rw [h.f, ← he] at hv ⊢
    exact hc.named kv hkv hv
  placed k kv' i hk hat := by
    obtain ⟨kv, hk', he⟩ := h.recognised hk
    rw [h.f] at hat ⊢
    rw [← he] at hat ⊢
    exact hc.placed k kv i hk' hat

end SameShape

end Callable

end Pylang.Calling
