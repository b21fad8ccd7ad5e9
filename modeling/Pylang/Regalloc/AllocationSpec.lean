/-
From a finished scan to the allocation it ends in. Over the intervals of a live
analysis, a scan that leaves every interval a register, intervals alive together
different ones, and register 0 to what it is claimed for (`Scanned`) gives every
mentioned value the register of its root (`Allocation.Spec`).
-/
import Pylang.Lib.IntervalGraph
import Pylang.Regalloc.Assignment

namespace Pylang.Regalloc

/-- A fix-up stands at the definition register 0 is claimed for, and its value is in the scratch register. -/
structure Fixed (fn : Func) (inputs : ArgumentInputs) (Safe : Var → Prop) (map : ValueMapping Reg) (fx : Fixup) :
    Prop where
  map : map.find fx.value = some fx.scratch
  scratch : fx.scratch ≠ 0
  curReg : fx.curReg = 0
  claimed : preallocated fn inputs fx.value = true
  safe : Safe fx.value
  definition : ∃ v c op, fx.value = .value v ∧ currentValue fn inputs v = some c ∧ fn.definingOp c = some op ∧
    op.id = fx.op

theorem value_of_preallocated {fn : Func} {inputs : ArgumentInputs} {x : Var}
    (hkeys : ∀ x l, inputs.find x = some l → ∃ v, x = .value v) (h : preallocated fn inputs x = true) :
    ∃ v, x = .value v := by
  cases x with
  | value v => exact ⟨v, rfl⟩
  | forwarded op i =>
    simp only [preallocated, clobberedResult, clobberedArgument, Bool.false_or] at h
    cases hf : inputs.find (.forwarded op i) with
    | none => simp [hf] at h
    | some l =>
      obtain ⟨v, hv⟩ := hkeys _ _ hf
      cases hv

/-- The fix-up of the round that moves a value away from the register claimed for it. -/
theorem Fixed.of_moved {fn : Func} {inputs : ArgumentInputs} {Safe : Var → Prop} {map map' : ValueMapping Reg} {x : Var}
    {fx : Fixup} (hfind : map.find x = if preallocated fn inputs x then some 0 else none) (hvalue : fx.value = x)
    (hself : map'.find x = some fx.scratch) (hscratch : fx.scratch ≠ 0) (hclaim : map.find x = some fx.curReg)
    (hsafe : Safe x) (hop : ∃ v c op, x = .value v ∧ currentValue fn inputs v = some c ∧ fn.definingOp c = some op ∧
      op.id = fx.op) : Fixed fn inputs Safe map' fx := by
  subst hvalue
  have hpre : preallocated fn inputs fx.value = true := by
    by_contra hc
    rw [hfind, if_neg hc] at hclaim
    cases hclaim
  rw [hfind, if_pos hpre] at hclaim
  exact ⟨hself, hscratch, (Option.some.inj hclaim).symm, hpre, hsafe, hop⟩

theorem fixups_once {fixups : List Fixup} {fixup : Option Fixup} {x : Var} (h : (fixups.map (·.value)).Nodup)
    (hold : ∀ fx ∈ fixups, fx.value ≠ x) (hnew : ∀ fx, fixup = some fx → fx.value = x) :
    ((fixups ++ fixup.toList).map (·.value)).Nodup := by
  rw [List.map_append]
  refine List.nodup_append.mpr ⟨h, ?_, ?_⟩
  · cases fixup <;> simp
  · intro y hy z hz
    obtain ⟨fx, hm, rfl⟩ := List.mem_map.mp hy
    cases hf : fixup with
    | none => simp [hf] at hz
    | some fx' =>
      simp only [hf, Option.toList_some, List.map_cons, List.map_nil, List.mem_singleton] at hz
      rw [hz, hnew fx' hf]
      exact hold fx hm

theorem value_of_find {fn : Func} {inputs : ArgumentInputs} {map : ValueMapping Reg} {x : Var} {r : Reg}
    (hkeys : ∀ x l, inputs.find x = some l → ∃ v, x = .value v)
    (hfind : map.find x = if preallocated fn inputs x then some 0 else none) (h : map.find x = some r) :
    ∃ v, x = .value v := by
  rw [hfind] at h
  split at h
  next hp => exact value_of_preallocated hkeys hp
  next => cases h

/-- The fix-ups after a round, which gives `cur` the register `r` and may move what register 0 was claimed for. -/
theorem fixups_step {fn : Func} {inputs : ArgumentInputs} {Safe : Var → Prop} {done : List LiveInterval} {cur : LiveInterval}
    {map map' : ValueMapping Reg} {fixups : List Fixup} {fixup : Option Fixup} {r : Reg}
    (hzero : ∀ p ∈ done, preallocated fn inputs p.value = true →
      map.find p.value = some 0 ∨ ∃ fx ∈ fixups, fx.value = p.value)
    (hfixed : ∀ fx ∈ fixups, (∃ p ∈ done, p.value = fx.value) ∧ Fixed fn inputs Safe map fx)
    (honce : (fixups.map (·.value)).Nodup) (hne : ∀ i ∈ done, i.value ≠ cur.value)
    (hold : ∀ x, x ≠ cur.value → map'.find x = map.find x) (hself : map'.find cur.value = some r)
    (hfind : map.find cur.value = if preallocated fn inputs cur.value then some 0 else none)
    (hclaimed : fixup = none → ∀ r₀, map.find cur.value = some r₀ → r = r₀)
    (hmoved : ∀ fx, fixup = some fx → fx.value = cur.value ∧ fx.scratch = r ∧ r ≠ 0 ∧
      map.find cur.value = some fx.curReg ∧ Safe cur.value ∧
      ∃ v c op, cur.value = .value v ∧ currentValue fn inputs v = some c ∧ fn.definingOp c = some op ∧ op.id = fx.op) :
    (∀ p ∈ done ++ [cur], preallocated fn inputs p.value = true →
      map'.find p.value = some 0 ∨ ∃ fx ∈ fixups ++ fixup.toList, fx.value = p.value) ∧
    (∀ fx ∈ fixups ++ fixup.toList, (∃ p ∈ done ++ [cur], p.value = fx.value) ∧ Fixed fn inputs Safe map' fx) ∧
    ((fixups ++ fixup.toList).map (·.value)).Nodup := by
  refine ⟨fun p hp hpre => ?_, fun fx hm => ?_, fixups_once honce (fun fx hm => ?_) fun fx hf => (hmoved fx hf).1⟩
  · rcases List.mem_append.mp hp with hp | hp
    · rw [hold _ (hne p hp)]
      exact (hzero p hp hpre).imp id fun hx => hx.imp fun fx h => ⟨List.mem_append_left _ h.1, h.2⟩
    · rw [List.mem_singleton.mp hp] at hpre ⊢
      cases hf : fixup with
      | none =>
        left
        rw [hself, hclaimed hf 0 (by simp [hfind, hpre])]
      | some fx => exact .inr ⟨fx, by simp, (hmoved fx hf).1⟩
  · rcases List.mem_append.mp hm with hm | hm
    · obtain ⟨⟨p, hp, hv⟩, hfd⟩ := hfixed fx hm
      exact ⟨⟨p, by simp [hp], hv⟩, { hfd with map := by rw [hold _ (hv ▸ hne p hp)]; exact hfd.map }⟩
    · obtain ⟨hv, hsc, hr0, hclaim, hsafe, hop⟩ := hmoved fx (Option.mem_toList.mp hm)
      exact ⟨⟨cur, by simp, hv.symm⟩, .of_moved hfind hv (hsc ▸ hself) (hsc ▸ hr0) hclaim hsafe hop⟩
  · obtain ⟨⟨p, hp, hv⟩, _⟩ := hfixed fx hm
    exact hv ▸ hne p hp

/-- What a scan leaves over the intervals `all`. -/
structure Scanned (fn : Func) (inputs : ArgumentInputs) (Safe : Var → Prop) (all : List LiveInterval)
    (map : ValueMapping Reg) (fixups : List Fixup) : Prop where
  mapped : ∀ i ∈ all, ∃ r, map.find i.value = some r
  keys : ∀ x r, map.find x = some r → ∃ i ∈ all, i.value = x
  greedy : Lib.Greedy LiveInterval.start LiveInterval.stop (fun i => map.find i.value) all
  zero : ∀ i ∈ all, preallocated fn inputs i.value = true →
    map.find i.value = some 0 ∨ ∃ fx ∈ fixups, fx.value = i.value
  fixed : ∀ fx ∈ fixups, (∃ i ∈ all, i.value = fx.value) ∧ Fixed fn inputs Safe map fx
  fixedOnce : (fixups.map (·.value)).Nodup

/-- The intervals of a live analysis, in some order: one a root, alive wherever a value of the root is listed. -/
structure LiveAnalysis.Intervals (base : List (List Var)) (la : LiveAnalysis) (all : List LiveInterval) : Prop where
  nodup : (all.map (·.value)).Nodup
  sorted : all.Pairwise (·.start ≤ ·.start)
  covers : ∀ t xs, base[t]? = some xs → ∀ x ∈ xs, ∃ i ∈ all, i.value = la.root x ∧ i.aliveAt t = true
  value : ∀ i ∈ all, ∃ x, Mentioned base x ∧ i.value = la.root x

/-- What holds of a finished allocation: mentioned values have registers, those of one root the same, those of
intervals alive together different ones; and the result of an operation that clobbers register 0 is there, unless the
one fix-up of the operation moves it. -/
structure Allocation.Spec (fn : Func) (base : List (List Var)) (la : LiveAnalysis) (all : List LiveInterval)
    (P : Operation → Prop) (a : Allocation) : Prop where
  register : ∀ x, Mentioned base x → ∃ r, a.getRegister x = some r ∧ a.getRegister (la.root x) = some r
  distinct : ∀ i ∈ all, ∀ j ∈ all, i ≠ j → ∀ t, i.aliveAt t = true → j.aliveAt t = true →
    a.getRegister i.value ≠ a.getRegister j.value
  clobbered : ∀ o : Operation, o ∈ fn.ops → o.kind.clobbersR0 = true → ∀ w ∈ o.results, Mentioned base (.value w) →
    (a.fixupsOf o = [] ∧ a.getRegister (.value w) = some 0) ∨
      ∃ fx, a.fixupsOf o = [fx] ∧ a.getRegister (.value w) = some fx.scratch ∧ fx.scratch ≠ 0 ∧ fx.curReg = 0 ∧ P o
  fixups : ∀ o : Operation, o ∈ fn.ops → o.kind.clobbersR0 = false → a.fixupsOf o = []

/-! ## What is mapped to a root -/

theorem mem_clobberingValues {fn : Func} {inputs : ArgumentInputs} {x y : Var} :
    y ∈ clobberingValues fn inputs x ↔ (y = x ∨ Lists inputs x y) ∧ clobberedResult fn y = true := by
  have : y ∈ (inputs.find x).getD [] ↔ Lists inputs x y := by
    cases hf : inputs.find x <;> simp [Lists, hf]
  simp [clobberingValues, this]

theorem firstClobbering_spec {fn : Func} : ∀ {l : List Var} {c : Value}, firstClobbering fn l = some c →
    .value c ∈ l ∧ fn.clobbersR0 c = true
  | .value v :: l, c, h => by
    simp only [firstClobbering] at h
    split at h
    next hv => cases h; exact ⟨by simp, hv⟩
    next => exact (firstClobbering_spec h).imp (fun h => by simp [h]) id

section
variable {fn : Func} {base : List (List Var)} {L : Var → Value → Prop} {la : LiveAnalysis} (h : la.Resolves base L)
include h

theorem LiveAnalysis.Resolves.lists {x y : Var} :
    Lists (invert la.blockInputMappings) y x ↔ y = la.root x ∧ (la.blockInputMappings.find x).isSome = true := by
  rw [lists_invert]
  constructor
  · intro h
    obtain ⟨b, rfl, l, hl, hb⟩ := h
    obtain ⟨c, rfl, hc⟩ := h.mapping x l hl
    rw [List.mem_singleton.mp hb, hc, hl]
    exact ⟨rfl, rfl⟩
  · intro h
    obtain ⟨rfl, hx⟩ := h
    obtain ⟨l, hl⟩ := Option.isSome_iff_exists.mp hx
    obtain ⟨c, rfl, hc⟩ := h.mapping x l hl
    exact ⟨c, hc, [c], hl, by simp⟩

theorem LiveAnalysis.Resolves.isBlockArgument (harg : ∀ x a, L x a → fn.isBlockArgument a = true) {x : Var} {v : Value}
    (hl : Lists (invert la.blockInputMappings) (.value v) x) : fn.isBlockArgument v = true := by
  obtain ⟨hv, hx⟩ := h.lists.mp hl
  obtain ⟨l, hl⟩ := Option.isSome_iff_exists.mp hx
  obtain ⟨hm, _⟩ := h.isKey x l hl
  have hr := h.reach x hm
  have hn := h.root_notKey x hm
  generalize la.root x = f at hr hn hv
  cases hr with
  | refl => rw [hn] at hl; cases hl
  | tail _ hlast =>
    obtain ⟨arg, he, hlink⟩ := hlast
    rw [← hv] at he
    cases he
    exact harg _ _ hlink

theorem LiveAnalysis.Resolves.currentValue (harg : ∀ x a, L x a → fn.isBlockArgument a = true) {v c : Value}
    (hp : preallocated fn (invert la.blockInputMappings) (.value v) = true)
    (hc : currentValue fn (invert la.blockInputMappings) v = some c) :
    .value c ∈ clobberingValues fn (invert la.blockInputMappings) (.value v) := by
  simp only [Regalloc.currentValue] at hc
  rw [mem_clobberingValues]
  split at hc
  next =>
    simp only [Option.bind_eq_some_iff] at hc
    obtain ⟨l, hl, hc⟩ := hc
    obtain ⟨hm, hcl⟩ := firstClobbering_spec hc
    exact ⟨.inr ⟨l, hl, hm⟩, hcl⟩
  next hna =>
    cases hc
    refine ⟨.inl rfl, ?_⟩
    simp only [preallocated, Bool.or_eq_true] at hp
    refine hp.resolve_right fun ha => ?_
    simp only [clobberedArgument] at ha
    cases hf : (invert la.blockInputMappings).find (.value v) with
    | none => simp [hf] at ha
    | some l =>
      simp only [hf, Option.getD_some, List.any_eq_true] at ha
      obtain ⟨x, hx, _⟩ := ha
      exact hna (h.isBlockArgument harg ⟨l, hf, hx⟩)

theorem LiveAnalysis.Resolves.intervals (S : StartSort) :
    la.Intervals base (LiveIntervalAnalysis.ofLive S la).sortedLiveIntervals := by
  obtain ⟨g1, g2, _, g4⟩ := intervalsFrom_spec la.aliveAtTimestep .empty
  have hperm : (LiveIntervalAnalysis.ofLive S la).sortedLiveIntervals.Perm (intervalsFrom 0 la.aliveAtTimestep []) :=
    S.perm _
  refine ⟨(hperm.map _).nodup_iff.mpr g1, S.sorted _, fun t xs hxs x hx => ?_, fun i hi => ?_⟩
  · have ht : t < la.aliveAtTimestep.length := h.length ▸ (List.getElem?_eq_some_iff.mp hxs).1
    have hmem := (h.alive t xs _ hxs (List.getElem?_eq_getElem ht) (la.root x)).mpr ⟨x, hx, rfl⟩
    obtain ⟨i, hi, hv, hc⟩ := g2 t _ (List.getElem?_eq_getElem ht) _ hmem
    exact ⟨i, hperm.mem_iff.mpr hi, hv, LiveInterval.aliveAt_iff.mpr (by simpa using hc)⟩
  · have hv := (g4 i.value).mp (List.mem_map_of_mem (hperm.mem_iff.mp hi))
    simp only [List.map_nil, List.not_mem_nil, false_or] at hv
    obtain ⟨ys, hys, hm⟩ := hv
    obtain ⟨t, ht⟩ := List.mem_iff_getElem?.mp hys
    have hlt : t < base.length := h.length ▸ (List.getElem?_eq_some_iff.mp ht).1
    obtain ⟨x, hx, he⟩ := (h.alive t _ ys (List.getElem?_eq_getElem hlt) ht i.value).mp hm
    exact ⟨x, ⟨_, List.getElem_mem hlt, hx⟩, he⟩

end

/-! ## The finished allocation -/

theorem filter_eq_singleton {α β : Type} {f : α → β} {p : α → Bool} : ∀ {l : List α}, (l.map f).Nodup →
    ∀ {x : α}, x ∈ l → p x = true → (∀ y ∈ l, p y = true → f y = f x) → l.filter p = [x]
  | [], _, x, hx, _, _ => by simp at hx
  | y :: l, hnd, x, hx, hp, hall => by
    simp only [List.map_cons, List.nodup_cons] at hnd
    have hrest : ∀ z ∈ l, f z = f y → False := fun z hz he => hnd.1 (he ▸ List.mem_map_of_mem hz)
    rcases List.mem_cons.mp hx with rfl | hx
    · have : l.filter p = [] := by
        rw [List.filter_eq_nil_iff]
        exact fun z hz hpz => hrest z hz (hall z (by simp [hz]) hpz)
      simp [hp, this]
    · have hy : ¬p y = true := fun hpy => hrest x hx (hall y (by simp) hpy).symm
      rw [List.filter_cons_of_neg hy]
      exact filter_eq_singleton hnd.2 hx hp fun z hz => hall z (by simp [hz])

section
variable {fn : Func} {base : List (List Var)} {L : Var → Value → Prop} {la : LiveAnalysis} {all : List LiveInterval}
  {map : ValueMapping Reg} {fixups : List Fixup}

theorem LiveAnalysis.Resolves.root_of_clobbering (h : la.Resolves base L) (hI : la.Intervals base all)
    {i : LiveInterval} (hi : i ∈ all) {x : Var} :
    x ∈ clobberingValues fn (invert la.blockInputMappings) i.value →
      i.value = la.root x ∧ clobberedResult fn x = true := by
  rw [mem_clobberingValues, h.lists]
  rintro ⟨rfl | ⟨hv, _⟩, hc⟩
  · obtain ⟨y, hy, he⟩ := hI.value i hi
    have := h.root_notKey y hy
    rw [← he] at this
    exact ⟨(LiveAnalysis.root_of_find_none this).symm, hc⟩
  · exact ⟨hv, hc⟩

/-- Every value whose root is an interval's, and whose definition clobbers register 0, is one of them. -/
theorem LiveAnalysis.Resolves.mem_clobbering_root (h : la.Resolves base L) {x : Var}
    (hc : clobberedResult fn x = true) : x ∈ clobberingValues fn (invert la.blockInputMappings) (la.root x) := by
  refine mem_clobberingValues.mpr ⟨?_, hc⟩
  cases hk : la.blockInputMappings.find x with
  | none => exact .inl (LiveAnalysis.root_of_find_none hk).symm
  | some l => exact .inr (h.lists.mpr ⟨rfl, by simp [hk]⟩)

theorem preallocated_iff {inputs : ArgumentInputs} {x : Var} :
    preallocated fn inputs x = true ↔ ∃ y, y ∈ clobberingValues fn inputs x := by
  simp only [preallocated, Bool.or_eq_true, clobberedArgument, List.any_eq_true, clobberingValues, List.mem_filter,
    List.mem_cons]
  constructor
  · rintro (h | ⟨y, hy, hc⟩)
    · exact ⟨x, .inl rfl, h⟩
    · exact ⟨y, .inr hy, hc⟩
  · rintro ⟨y, rfl | hy, hc⟩
    · exact .inl hc
    · exact .inr ⟨y, hy, hc⟩

theorem Scanned.getRegister_interval {inputs : ArgumentInputs} {Safe : Var → Prop}
    (hs : Scanned fn inputs Safe all map fixups) {i : LiveInterval} (hi : i ∈ all) :
    (Allocation.mk (map.merge (additional inputs map)) fixups).getRegister i.value =
      map.find i.value := by
  obtain ⟨r, hr⟩ := hs.mapped i hi
  simp [Allocation.getRegister, Lib.OrdMap.find_merge, hr]

variable {Safe : Var → Prop} (h : la.Resolves base L) (hI : la.Intervals base all)
  (hs : Scanned fn (invert la.blockInputMappings) Safe all map fixups)
include h hI hs

theorem Scanned.getRegister {x : Var} (hx : Mentioned base x) : ∃ i ∈ all, i.value = la.root x ∧
    ∃ r, map.find i.value = some r ∧
      (Allocation.mk (map.merge (additional (invert la.blockInputMappings) map)) fixups).getRegister x = some r := by
  obtain ⟨xs, hxs, hm⟩ := hx
  obtain ⟨t, ht⟩ := List.mem_iff_getElem?.mp hxs
  obtain ⟨i, hi, hv, _⟩ := hI.covers t xs ht x hm
  obtain ⟨r, hr⟩ := hs.mapped i hi
  refine ⟨i, hi, hv, r, hr, ?_⟩
  rw [hv] at hr
  rw [Allocation.getRegister, Lib.OrdMap.find_merge]
  cases hk : la.blockInputMappings.find x with
  | none =>
    rw [LiveAnalysis.root_of_find_none hk] at hr
    simp [hr]
  | some l =>
    have hnone : map.find x = none := by
      rw [Option.eq_none_iff_forall_ne_some]
      intro q hf
      obtain ⟨j, hj, rfl⟩ := hs.keys x q hf
      obtain ⟨y, hy, he⟩ := hI.value j hj
      have := h.root_notKey y hy
      rw [← he, hk] at this
      cases this
    rw [hnone, Option.none_or]
    exact find_additional _ map (h.lists.mpr ⟨rfl, by simp [hk]⟩) (fun z hz => (h.lists.mp hz).1) hr

theorem Scanned.fixup_at (harg : ∀ x a, L x a → fn.isBlockArgument a = true) {o : Operation} (ho : o ∈ fn.ops)
    {fx : Fixup} (hfx : fx ∈ fixups) (he : fx.op = o.id) : ∃ c ∈ o.results, fx.value = la.root (.value c) ∧
      .value c ∈ clobberingValues fn (invert la.blockInputMappings) fx.value ∧ fn.clobbersR0 c = true := by
  obtain ⟨⟨i, hi, hiv⟩, hf⟩ := hs.fixed fx hfx
  obtain ⟨v, c, op, hv, hc, hop, hid⟩ := hf.definition
  obtain ⟨hmem, hcr⟩ := Func.definingOp_mem hop
  have : op = o := Func.eq_of_id hmem ho (hid.trans he)
  have hcl := h.currentValue harg (hv ▸ hf.claimed) hc
  rw [← hv] at hcl
  obtain ⟨hroot, hcc⟩ := h.root_of_clobbering hI hi (hiv ▸ hcl)
  exact ⟨c, this ▸ hcr, hiv ▸ hroot, hcl, hcc⟩

end

/-- **A scan that leaves what it should ends in an allocation that is what it should be.** -/
theorem Scanned.spec {fn : Func} {base : List (List Var)} {L : Var → Value → Prop} {la : LiveAnalysis}
    {all : List LiveInterval} {map : ValueMapping Reg} {fixups : List Fixup} {P : Operation → Prop}
    (h : la.Resolves base L) (hI : la.Intervals base all) (harg : ∀ x a, L x a → fn.isBlockArgument a = true)
    (hs : Scanned fn (invert la.blockInputMappings) (SingleClobber fn (invert la.blockInputMappings) P) all map
      fixups) :
    Allocation.Spec fn base la all P ⟨map.merge (additional (invert la.blockInputMappings) map), fixups⟩ := by
  constructor
  case register =>
    intro x hx
    obtain ⟨i, hi, hv, r, hr, hg⟩ := hs.getRegister h hI hx
    exact ⟨r, hg, by rw [← hv, hs.getRegister_interval hi, hr]⟩
  case distinct =>
    intro i hi j hj hij t hti htj
    rw [hs.getRegister_interval hi, hs.getRegister_interval hj]
    exact hs.greedy.proper hi hj hij ⟨t, LiveInterval.aliveAt_iff.mp hti, LiveInterval.aliveAt_iff.mp htj⟩
  case clobbered =>
    intro o ho hcl w hw hm
    obtain ⟨i, hi, hvi, r, hr, hg⟩ := hs.getRegister h hI hm
    have hwi : .value w ∈ clobberingValues fn (invert la.blockInputMappings) i.value :=
      hvi ▸ h.mem_clobbering_root ((Func.clobbersR0_iff ho hw).trans hcl)
    have honly : ∀ c ∈ o.results, c = w := by
      obtain ⟨c, hc⟩ := List.length_eq_one_iff.mp (fn.single o ho hcl)
      intro d hd
      rw [hc] at hw hd
      rw [List.mem_singleton.mp hw, List.mem_singleton.mp hd]
    have hfxval : ∀ fx ∈ fixups, fx.op = o.id → fx.value = i.value := by
      intro fx hfx he
      obtain ⟨c, hc, hcv, _⟩ := hs.fixup_at h hI harg ho hfx he
      rw [hcv, honly c hc, hvi]
    by_cases hex : ∃ fx ∈ fixups, fx.op = o.id
    · obtain ⟨fx, hfx, he⟩ := hex
      have hv := hfxval fx hfx he
      obtain ⟨_, hf⟩ := hs.fixed fx hfx
      obtain ⟨v', o', hsing, ho', hP⟩ := hf.safe
      refine .inr ⟨fx, ?_, by rw [hg, ← hr, ← hv, hf.map], hf.scratch, hf.curReg, ?_⟩
      · exact filter_eq_singleton (f := (·.value)) hs.fixedOnce hfx (by simp [he])
          fun y hy hpy => by rw [hfxval y hy (by simpa using hpy), hv]
      · rw [← hv, hsing] at hwi
        cases List.mem_singleton.mp hwi
        rw [Func.definingOp_eq ho hw] at ho'
        cases ho'
        exact hP
    · refine .inl ⟨List.filter_eq_nil_iff.mpr fun fx hfx he => hex ⟨fx, hfx, by simpa using he⟩, ?_⟩
      rcases hs.zero i hi (preallocated_iff.mpr ⟨_, hwi⟩) with hz | ⟨fx, hfx, hv⟩
      · rw [hg, ← hr, hz]
      · -- The interval's fix-up is at the one definition that claims register 0, which is `o`.
        exfalso
        obtain ⟨_, hf⟩ := hs.fixed fx hfx
        obtain ⟨v', o', hsing, _, _⟩ := hf.safe
        obtain ⟨v, c, op, hvv, hc, hop, hid⟩ := hf.definition
        have hcl' := h.currentValue harg (hvv ▸ hf.claimed) hc
        rw [← hvv, hsing] at hcl'
        rw [← hv, hsing] at hwi
        cases List.mem_singleton.mp hcl'
        cases List.mem_singleton.mp hwi
        rw [Func.definingOp_eq ho hw] at hop
        cases hop
        exact hex ⟨fx, hfx, hid.symm⟩
  case fixups =>
    intro o ho hcl
    simp only [Allocation.fixupsOf, List.filter_eq_nil_iff, decide_eq_true_eq]
    intro fx hfx he
    obtain ⟨c, hc, _, _, hcc⟩ := hs.fixup_at h hI harg ho hfx he
    rw [Func.clobbersR0_iff ho hc, hcl] at hcc
    cases hcc

end Pylang.Regalloc
