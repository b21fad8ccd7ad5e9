/-
Values alive together have different registers, in the header's allocation,
when every round of the scan is safe (`RoundsSafe`). The scratch register a
taken register 0 is moved to stays free for the next interval, so a call whose
result is moved while something else starts breaks it (`threeElements`).
-/
import Pylang.Regalloc.Header.ScanFacts

namespace Pylang.Regalloc.Header

/-- The values an interval stands for: its own, and what is mapped to it as a block argument. -/
def Carries (inputs : ArgumentInputs) (i : LiveInterval) (x : Var) : Prop := x = i.value ∨ Lists inputs i.value x

/-- Values of different intervals that are alive at one timestep have different registers, and where an operation
leaves its result in register 0, no other value alive there has that register unless it is pushed before the
operation and popped after it. -/
structure Disjoint (fn : Func) (lia : LiveIntervalAnalysis) (a : Allocation) : Prop where
  registers : ∀ i ∈ lia.sortedLiveIntervals, ∀ j ∈ lia.sortedLiveIntervals, i ≠ j →
    ∀ t, i.aliveAt t = true → j.aliveAt t = true →
      ∀ x y, Carries lia.blockInputMappings i x → Carries lia.blockInputMappings j y →
        ∃ r q, a.getRegister x = some r ∧ a.getRegister y = some q ∧ r ≠ q
  clobbers : ∀ t o, fn.ops[t]? = some o → o.kind.clobbersR0 = true → ∀ w ∈ o.results,
    ∀ i ∈ lia.sortedLiveIntervals, i.aliveAt t = true → ¬Carries lia.blockInputMappings i (.value w) →
      ∀ x, Carries lia.blockInputMappings i x → a.getRegister x = some 0 → ∃ fx ∈ a.fixupsOf o, fx.curReg = 0

theorem getRegister_carried {fn : Func} {base : List (List Var)} {L : Var → Value → Prop} {la : LiveAnalysis}
    {all : List LiveInterval} {map : ValueMapping Reg} {fixups : List Fixup} {Safe : Var → Prop}
    (h : la.Resolves base L) (hI : la.Intervals base all)
    (hs : Scanned fn (invert la.blockInputMappings) Safe all map fixups) {i : LiveInterval} (hi : i ∈ all) {x : Var}
    (hx : Carries (invert la.blockInputMappings) i x) :
    (Allocation.mk (map.merge (additional (invert la.blockInputMappings) map)) fixups).getRegister x =
      map.find i.value := by
  rcases hx with rfl | hl
  · exact hs.getRegister_interval hi
  · obtain ⟨hroot, hkey⟩ := h.lists.mp hl
    obtain ⟨l, hk⟩ := Option.isSome_iff_exists.mp hkey
    obtain ⟨j, _, hjv, r, hr, hg⟩ := hs.getRegister h hI (h.isKey x l hk).1
    rw [hg, ← hr, hjv, hroot]

theorem exists_carries {base : List (List Var)} {L : Var → Value → Prop} {la : LiveAnalysis} {all : List LiveInterval}
    (h : la.Resolves base L) (hI : la.Intervals base all) {t : Nat} {xs : List Var} (ht : base[t]? = some xs) {x : Var}
    (hx : x ∈ xs) : ∃ i ∈ all, Carries (invert la.blockInputMappings) i x ∧ i.aliveAt t = true := by
  obtain ⟨i, hi, hv, halive⟩ := hI.covers t xs ht x hx
  refine ⟨i, hi, ?_, halive⟩
  cases hk : la.blockInputMappings.find x with
  | none => exact .inl (by rw [hv, LiveAnalysis.root_of_find_none hk])
  | some l => exact .inr (h.lists.mpr ⟨hv, by simp [hk]⟩)

/-- **Registers of values alive together differ** when every round of the scan is safe. -/
theorem registers_disjoint {S : StartSort} {fn : Func} {lia : LiveIntervalAnalysis} {a : Allocation}
    (hlia : LiveIntervalAnalysis.analyse S fn = some lia) (ha : LinearScanRegisterAllocation.analyse S fn = some a)
    (hsafe : RoundsSafe S fn) : Disjoint fn lia a := by
  simp only [LinearScanRegisterAllocation.analyse, hlia, Option.bind_eq_bind, Option.bind_some,
    Option.bind_eq_some_iff, Option.some.injEq] at ha
  obtain ⟨s, hscan, rfl⟩ := ha
  have hrounds := hsafe lia hlia
  simp only [LiveIntervalAnalysis.analyse, Option.bind_eq_bind, Option.bind_eq_some_iff, Option.some.injEq] at hlia
  obtain ⟨la, hla, rfl⟩ := hlia
  obtain ⟨base, _, hbase, hL⟩ := LiveAnalysis.analyse_resolves hla
  have hI := hL.intervals S
  have hinv := ScanInv.run (fun x l hx => find_invert_value hx) _ [] .init (by simpa using hI.nodup)
    (by simpa using hI.sorted) hscan hrounds
  have hs := hinv.scanned
  rw [List.nil_append] at hs
  have harg : ∀ x arg, Linked fn base x arg → fn.isBlockArgument arg = true := by
    intro x arg h
    obtain ⟨_, b, hb, _⟩ := h
    simp [Func.isBlockArgument, hb]
  have hspec := hs.spec hL hI harg
  have hreg : ∀ i ∈ (LiveIntervalAnalysis.ofLive S la).sortedLiveIntervals,
      ∀ j ∈ (LiveIntervalAnalysis.ofLive S la).sortedLiveIntervals, i ≠ j →
        ∀ t, i.aliveAt t = true → j.aliveAt t = true → s.map.find i.value ≠ s.map.find j.value :=
    fun i hi j hj hij t hti htj =>
      hs.greedy.proper hi hj hij ⟨t, LiveInterval.aliveAt_iff.mp hti, LiveInterval.aliveAt_iff.mp htj⟩
  constructor
  case registers =>
    intro i hi j hj hij t hti htj x y hx hy
    obtain ⟨r, hr⟩ := hs.mapped i hi
    obtain ⟨q, hq⟩ := hs.mapped j hj
    refine ⟨r, q, (getRegister_carried hL hI hs hi hx).trans hr, (getRegister_carried hL hI hs hj hy).trans hq, ?_⟩
    intro h
    obtain rfl := h
    exact hreg i hi j hj hij t hti htj (hr.trans hq.symm)
  case clobbers =>
    intro t o ho hcl w hw i hi halive hnot x hx hzero
    have hom := List.mem_of_getElem? ho
    have ht : t < base.length := hbase.length_eq ▸ (List.getElem?_eq_some_iff.mp ho).1
    have hxs : base[t]? = some base[t] := List.getElem?_eq_getElem ht
    have hlist : Var.value w ∈ base[t] := (Lib.forall₂_getElem? hbase ho hxs).2 w hw
    obtain ⟨k, hk, hkc, hka⟩ := exists_carries hL hI hxs hlist
    rcases hspec.clobbered o hom hcl w hw ⟨_, List.getElem_mem ht, hlist⟩ with ⟨_, hz⟩ | ⟨fx, hfx, _, _, hcr, _⟩
    · -- The result is alive there too, in register 0.
      have hik : i ≠ k := fun he => hnot (he ▸ hkc)
      refine absurd ?_ (hreg i hi k hk hik t halive hka)
      exact (getRegister_carried hL hI hs hi hx).symm.trans
        ((hzero.trans hz.symm).trans (getRegister_carried hL hI hs hk hkc))
    · exact ⟨fx, hfx ▸ List.mem_singleton_self fx, hcr⟩

/-! ## One loop, and three elements -/

/-- `for x in xs: g(x)`. -/
def loop : Func where
  blocks := [
    ⟨[], [⟨0, .guarded, [100], [], []⟩, ⟨1, .getIter, [101], [100], []⟩, ⟨2, .branch, [], [], [(1, [])]⟩]⟩,
    ⟨[], [⟨3, .forIter, [], [101], [(2, []), (3, [])]⟩]⟩,
    ⟨[102], [⟨4, .guarded, [103], [], []⟩, ⟨5, .functionCall, [104], [103, 102], []⟩,
      ⟨6, .branch, [], [], [(1, [])]⟩]⟩,
    ⟨[], [⟨7, .guarded, [105], [], []⟩, ⟨8, .ret, [], [105], []⟩]⟩]
  results_nodup := by decide
  ids_nodup := by decide
  single := by decide

/-- `return [f(), g(), c]`. -/
def threeElements : Func where
  blocks := [
    ⟨[], [⟨0, .guarded, [100], [], []⟩, ⟨1, .functionCall, [101], [100], []⟩, ⟨2, .guarded, [102], [], []⟩,
      ⟨3, .functionCall, [103], [102], []⟩, ⟨4, .guarded, [104], [], []⟩,
      ⟨5, .guarded, [105], [101, 103, 104], []⟩, ⟨6, .ret, [], [105], []⟩]⟩]
  results_nodup := by decide
  ids_nodup := by decide
  single := by decide

/-- `registers_disjoint` at `loop`. -/
theorem loop_disjoint : ∃ lia a, LiveIntervalAnalysis.analyse .stable loop = some lia ∧
    LinearScanRegisterAllocation.analyse .stable loop = some a ∧ Disjoint loop lia a := by
  have h : (LiveIntervalAnalysis.analyse .stable loop).isSome = true ∧
      (LinearScanRegisterAllocation.analyse .stable loop).isSome = true := by decide
  obtain ⟨lia, hlia⟩ := Option.isSome_iff_exists.mp h.1
  obtain ⟨a, ha⟩ := Option.isSome_iff_exists.mp h.2
  refine ⟨lia, a, hlia, ha, registers_disjoint hlia ha ?_⟩
  -- No round finds register 0 taken, and none finds a reserved register.
  have hall : ((LiveIntervalAnalysis.analyse .stable loop).all fun lia =>
      (rounds loop lia.blockInputMappings lia.sortedLiveIntervals
        (preallocate loop lia.blockInputMappings lia.sortedLiveIntervals .init)).all fun p =>
          (p.expired.map.find p.cur.value).all p.expired.free && p.before.foriterReserved.entries.isEmpty) = true := by
    decide
  intro lia' hlia' p hp
  rw [hlia'] at hall
  have := List.all_eq_true.mp hall p hp
  simp only [Bool.and_eq_true, List.isEmpty_iff] at this
  refine ⟨fun ⟨r, hr, hfree⟩ => ?_, fun j _ _ r hr => ?_⟩
  · rw [hr, Option.all_some, hfree] at this
    exact absurd this.1 (by simp)
  · rw [← Lib.OrdMap.mem_entries, this.2] at hr
    simp at hr

/-- **Two elements of `threeElements` share a register**: the second call's result is moved to one that stays free,
and `c` is loaded there. -/
theorem threeElements_shared :
    ¬∀ (S : StartSort) (fn : Func) (lia : LiveIntervalAnalysis) (a : Allocation),
      LiveIntervalAnalysis.analyse S fn = some lia → LinearScanRegisterAllocation.analyse S fn = some a →
        Disjoint fn lia a := by
  intro h
  have hrun : ((LiveIntervalAnalysis.analyse .stable threeElements).bind fun lia =>
      (LinearScanRegisterAllocation.analyse .stable threeElements).map fun a =>
        (lia.sortedLiveIntervals.any fun i => lia.sortedLiveIntervals.any fun j => i.value = .value 103 &&
          j.value = .value 104 && i.aliveAt 4 && j.aliveAt 4 &&
            a.getRegister (.value 103) = some 1 && a.getRegister (.value 104) = some 1)) = some true := by decide
  obtain ⟨lia, hlia, hrun⟩ := Option.bind_eq_some_iff.mp hrun
  obtain ⟨a, ha, hany⟩ := Option.map_eq_some_iff.mp hrun
  simp only [List.any_eq_true, Bool.and_eq_true, decide_eq_true_eq] at hany
  obtain ⟨i, hi, j, hj, ⟨⟨⟨⟨hiv, hjv⟩, hia⟩, hja⟩, hr⟩, hq⟩ := hany
  have hij : i ≠ j := fun he => by rw [he, hjv] at hiv; cases hiv
  obtain ⟨r, q, hr', hq', hne⟩ := (h .stable threeElements lia a hlia ha).registers i hi j hj hij 4 hia hja _ _
    (.inl hiv.symm) (.inl hjv.symm)
  rw [hr] at hr'
  rw [hq] at hq'
  exact hne (Option.some.inj (hr'.symm.trans hq'))

end Pylang.Regalloc.Header
