/-
What one round of the header's scan does, and what holds of a whole scan whose
rounds are safe: the bits of `free` are in step with the intervals in `active`
(`InStep`), so a register handed out is nobody else's.

A moved value is the exception: its scratch register stays marked free, so it
must be out of `active` before the next register is handed out.
-/
import Pylang.Regalloc.AllocationSpec
import Pylang.Regalloc.Header.LinearScan

namespace Pylang.Regalloc.Header

/-- The register a state gives an interval. -/
def ScanState.colour (s : ScanState) (i : LiveInterval) : Option Reg := s.map.find i.value

/-- Away from `cur`, the intervals in `active` hold registers that are not free, each its own. -/
structure InStep (cur : Var) (s : ScanState) : Prop where
  taken : ∀ i ∈ s.active, i.value ≠ cur → ∃ r, s.map.find i.value = some r ∧ s.free r = false
  distinct : ∀ i ∈ s.active, ∀ j ∈ s.active, i.value ≠ cur → j.value ≠ cur → i ≠ j → s.colour i ≠ s.colour j

/-! ## Expiring -/

/-- What the loop over `active` does: it frees the registers of what it removes, and those these have reserved. -/
structure ExpiredActive (cur : LiveInterval) (s : ScanState) (l : List LiveInterval) (s' : ScanState) : Prop where
  map : s'.map = s.map
  fixups : s'.fixups = s.fixups
  values : ∀ i ∈ l, i.value ≠ cur.value
  active : ∀ i, i ∈ s'.active ↔ i ∈ l ∧ i.stop ≥ cur.start ∧ i.aliveAt cur.start = true
  inactive : ∀ i ∈ s'.inactive, i ∈ s.inactive ∨ i ∈ l
  reserved : ∀ x r, s'.foriterReserved.find x = some r → s.foriterReserved.find x = some r
  free : ∀ r, s'.free r = true → s.free r = true ∨ ∃ i ∈ l, i.aliveAt cur.start = false ∧
    (s.map.find i.value = some r ∨ s.foriterReserved.find i.value = some r)

/-- `free_register` frees the interval's register and the one it has reserved. -/
theorem freeRegister_spec {i : LiveInterval} {s s' : ScanState} (h : freeRegister i s = some s') :
    s'.map = s.map ∧ s'.fixups = s.fixups ∧ s'.active = s.active ∧ s'.inactive = s.inactive ∧
      (∀ x r, s'.foriterReserved.find x = some r → s.foriterReserved.find x = some r) ∧
      ∀ r, s'.free r = true → s.free r = true ∨ s.map.find i.value = some r ∨ s.foriterReserved.find i.value = some r := by
  simp only [freeRegister, Option.bind_eq_bind, Option.bind_eq_some_iff] at h
  obtain ⟨r, hr, h⟩ := h
  split at h
  next q hq =>
    cases h
    refine ⟨rfl, rfl, rfl, rfl, fun x r' hx => ?_, fun r' hr' => ?_⟩
    · simp only [Lib.OrdMap.find_erase] at hx
      split at hx
      next => cases hx
      next => exact hx
    · simp only [setFree_true] at hr'
      rcases hr' with (h | rfl) | rfl
      · exact .inl h
      · exact .inr (.inl hr)
      · exact .inr (.inr hq)
  next =>
    cases h
    refine ⟨rfl, rfl, rfl, rfl, fun _ _ hx => hx, fun r' hr' => ?_⟩
    simp only [setFree_true] at hr'
    rcases hr' with h | rfl
    · exact .inl h
    · exact .inr (.inl hr)

theorem ExpiredActive.cons_dead {cur i : LiveInterval} {l : List LiveInterval} {s s₁ s' : ScanState}
    (hv : i.value ≠ cur.value) (hdead : i.aliveAt cur.start = false) (hin : ∀ j ∈ s₁.inactive, j ∈ s.inactive ∨ j = i)
    (hmap : s₁.map = s.map) (hfix : s₁.fixups = s.fixups)
    (hres : ∀ x r, s₁.foriterReserved.find x = some r → s.foriterReserved.find x = some r)
    (hfree : ∀ r, s₁.free r = true → s.free r = true ∨ s.map.find i.value = some r ∨
      s.foriterReserved.find i.value = some r) (h : ExpiredActive cur s₁ l s') : ExpiredActive cur s (i :: l) s' := by
  refine ⟨h.map.trans hmap, h.fixups.trans hfix, by simpa using ⟨hv, h.values⟩, fun j => ?_, fun j hj => ?_,
    fun x r hx => hres x r (h.reserved x r hx), fun r hr => ?_⟩
  · rw [h.active]
    constructor
    · rintro ⟨hj, hc⟩; exact ⟨by simp [hj], hc⟩
    · intro h
      obtain ⟨hj, hc⟩ := h
      rcases List.mem_cons.mp hj with rfl | hj
      · rw [hdead] at hc; simp at hc
      · exact ⟨hj, hc⟩
  · rcases h.inactive j hj with hj | hj
    · exact (hin j hj).imp id fun he => by simp [he]
    · exact .inr (by simp [hj])
  · rcases h.free r hr with hr | ⟨j, hj, hd, hr⟩
    · exact (hfree r hr).imp id fun h => ⟨i, by simp, hdead, h⟩
    · rw [hmap] at hr
      exact .inr ⟨j, by simp [hj], hd, hr.imp id (hres _ _)⟩

theorem expireActive_spec {cur : LiveInterval} : ∀ {l : List LiveInterval} {s s' : ScanState},
    expireActive cur s l = some s' → ExpiredActive cur s l s'
  | [], s, s', h => by
    simp only [expireActive, Option.some.injEq] at h
    subst h
    exact ⟨rfl, rfl, by simp, by simp, by simp, by simp, by simp⟩
  | i :: l, s, s', h => by
    simp only [expireActive] at h
    split at h
    next => cases h
    next hv =>
      split at h
      next hend =>
        simp only [Option.bind_eq_bind, Option.bind_eq_some_iff] at h
        obtain ⟨s₁, hf, h⟩ := h
        obtain ⟨h1, h2, _, h4, h5, h6⟩ := freeRegister_spec hf
        have hdead : i.aliveAt cur.start = false := by simp [LiveInterval.aliveAt]; omega
        exact (expireActive_spec h).cons_dead hv hdead (fun j hj => .inl (h4 ▸ hj)) h1 h2 h5 h6
      next hend =>
        split at h
        next hdead =>
          simp only [Option.bind_eq_bind, Option.bind_eq_some_iff] at h
          obtain ⟨s₁, hf, h⟩ := h
          obtain ⟨h1, h2, _, h4, h5, h6⟩ := freeRegister_spec hf
          refine (expireActive_spec h).cons_dead hv (by simpa using hdead) (fun j hj => ?_) h1 h2 h5 h6
          rw [h4] at hj
          exact (mem_insertByEnd.mp hj).symm
        next halive =>
          simp only [Bool.not_eq_true', Bool.not_eq_false] at halive
          simp only [Option.bind_eq_bind, Option.bind_eq_some_iff, Option.some.injEq] at h
          obtain ⟨s₁, h, rfl⟩ := h
          have ih := expireActive_spec h
          refine ⟨ih.map, ih.fixups, by simpa using ⟨hv, ih.values⟩, fun j => ?_, fun j hj => ?_, ih.reserved,
            fun r hr => ?_⟩
          · simp only [mem_insertByEnd, ih.active, List.mem_cons, or_and_right]
            constructor
            · rintro (rfl | h)
              · exact .inl ⟨rfl, by omega, halive⟩
              · exact .inr h
            · rintro (h | h)
              · exact .inl h.1
              · exact .inr h
          · exact (ih.inactive j hj).imp id fun h => by simp [h]
          · exact (ih.free r hr).imp id fun hx => hx.imp fun j h => ⟨by simp [h.1], h.2⟩

theorem markRegisterUsed_spec {i : LiveInterval} {s s' : ScanState} (h : markRegisterUsed i s = some s') :
    s'.map = s.map ∧ s'.fixups = s.fixups ∧ s'.active = s.active ∧ s'.inactive = s.inactive ∧
      (∀ r, s'.free r = true → s.free r = true) ∧ ∃ r, s.map.find i.value = some r ∧ s.free r = true ∧ s'.free r = false := by
  simp only [markRegisterUsed, Option.bind_eq_bind, Option.bind_eq_some_iff] at h
  obtain ⟨r, hr, h⟩ := h
  split at h
  next hfree =>
    split at h
    next q _ =>
      cases h
      refine ⟨rfl, rfl, rfl, rfl, fun r' hr' => ?_, r, hr, hfree, ?_⟩
      · simp only [setFree_false] at hr'
        exact hr'.1.1
      · rw [← Bool.not_eq_true]
        simp [setFree_false]
    next =>
      cases h
      refine ⟨rfl, rfl, rfl, rfl, fun r' hr' => (setFree_false.mp hr').1, r, hr, hfree, ?_⟩
      simp [setFree]
  next => cases h

/-- What the loop over `inactive` does: it moves intervals, and takes the registers of those alive again. -/
structure ExpiredInactive (cur : LiveInterval) (s : ScanState) (l : List LiveInterval) (s' : ScanState) : Prop where
  map : s'.map = s.map
  fixups : s'.fixups = s.fixups
  active : ∀ i, i ∈ s.active → i ∈ s'.active
  from_list : ∀ i ∈ s'.active, i ∈ s.active ∨ i ∈ l
  inactive : ∀ i ∈ s'.inactive, i ∈ l
  inStep : InStep cur.value s → InStep cur.value s'

theorem InStep.insert_cur {cur : Var} {s : ScanState} (h : InStep cur s) {i : LiveInterval} (hi : i.value = cur) :
    InStep cur { s with active := insertByEnd i s.active } := by
  have hmem : ∀ j ∈ insertByEnd i s.active, j.value ≠ cur → j ∈ s.active := fun j hj hne =>
    (mem_insertByEnd.mp hj).resolve_left fun he => hne (he ▸ hi)
  exact ⟨fun j hj hne => h.taken j (hmem j hj hne) hne,
    fun j hj k hk hjc hkc => h.distinct j (hmem j hj hjc) k (hmem k hk hkc) hjc hkc⟩

/-- An interval that takes a free register is in step with those that already hold theirs. -/
theorem InStep.insert_marked {cur : Var} {s s' : ScanState} (h : InStep cur s) {i : LiveInterval}
    (hmap : s'.map = s.map) (hact : s'.active = insertByEnd i s.active)
    (hkeep : ∀ r, s'.free r = true → s.free r = true) {r : Reg} (hr : s.map.find i.value = some r)
    (hfree : s.free r = true) (hfree' : s'.free r = false) : InStep cur s' := by
  have hmem : ∀ j, j ∈ s'.active ↔ j = i ∨ j ∈ s.active := fun j => by rw [hact, mem_insertByEnd]
  have hne : ∀ j ∈ s.active, j.value ≠ cur → s.colour j ≠ s.colour i := by
    intro j hj hjc he
    obtain ⟨q, hq, hqf⟩ := h.taken j hj hjc
    rw [ScanState.colour, ScanState.colour, hq, hr] at he
    rw [Option.some.inj he, hfree] at hqf
    cases hqf
  refine ⟨fun j hj hjc => ?_, fun j hj k hk hjc hkc hjk => ?_⟩
  · rcases (hmem j).mp hj with rfl | hj
    · exact ⟨r, by rw [hmap, hr], hfree'⟩
    · obtain ⟨q, hq, hqf⟩ := h.taken j hj hjc
      refine ⟨q, by rw [hmap, hq], ?_⟩
      by_contra hc
      rw [hkeep q (by simpa using hc)] at hqf
      cases hqf
  · simp only [ScanState.colour, hmap]
    rcases (hmem j).mp hj with rfl | hj
    · rcases (hmem k).mp hk with rfl | hk
      · exact absurd rfl hjk
      · exact (hne k hk hkc).symm
    · rcases (hmem k).mp hk with rfl | hk
      · exact hne j hj hjc
      · exact h.distinct j hj k hk hjc hkc hjk

theorem expireInactive_spec {cur : LiveInterval} : ∀ {l : List LiveInterval} {s s' : ScanState},
    expireInactive cur s l = some s' → ExpiredInactive cur s l s'
  | [], s, s', h => by
    simp only [expireInactive, Option.some.injEq] at h
    subst h
    exact ⟨rfl, rfl, fun _ h => h, fun _ h => .inl h, by simp, fun h => ⟨h.taken, h.distinct⟩⟩
  | i :: l, s, s', h => by
    simp only [expireInactive] at h
    split at h
    next hv =>
      have ih := expireInactive_spec h
      refine ⟨ih.map, ih.fixups, fun j hj => ih.active j (mem_insertByEnd.mpr (.inr hj)), fun j hj => ?_,
        fun j hj => by simp [ih.inactive j hj], fun hs => ih.inStep (hs.insert_cur hv)⟩
      rcases ih.from_list j hj with hj | hj
      · rcases mem_insertByEnd.mp hj with rfl | hj
        · simp
        · exact .inl hj
      · simp [hj]
    next hv =>
      split at h
      next =>
        have ih := expireInactive_spec h
        exact ⟨ih.map, ih.fixups, ih.active, fun j hj => (ih.from_list j hj).imp id fun hj => by simp [hj],
          fun j hj => by simp [ih.inactive j hj], fun hs => ih.inStep ⟨hs.taken, hs.distinct⟩⟩
      next =>
        split at h
        next =>
          simp only [Option.bind_eq_bind, Option.bind_eq_some_iff] at h
          obtain ⟨s₁, hm, h⟩ := h
          obtain ⟨h1, h2, h3, h4, h5, r, hr, hf, hf'⟩ := markRegisterUsed_spec hm
          have ih := expireInactive_spec h
          refine ⟨ih.map.trans h1, ih.fixups.trans h2,
            fun j hj => ih.active j (h3 ▸ mem_insertByEnd.mpr (.inr hj)), fun j hj => ?_,
            fun j hj => by simp [ih.inactive j hj], fun hs => ih.inStep (hs.insert_marked h1 h3 h5 hr hf hf')⟩
          rcases ih.from_list j hj with hj | hj
          · rw [h3] at hj
            rcases mem_insertByEnd.mp hj with rfl | hj
            · simp
            · exact .inl hj
          · simp [hj]
        next =>
          simp only [Option.bind_eq_bind, Option.bind_eq_some_iff, Option.some.injEq] at h
          obtain ⟨s₁, h, rfl⟩ := h
          have ih := expireInactive_spec h
          refine ⟨ih.map, ih.fixups, ih.active, fun j hj => (ih.from_list j hj).imp id fun hj => by simp [hj],
            fun j hj => ?_, fun hs => ⟨(ih.inStep hs).taken, (ih.inStep hs).distinct⟩⟩
          rcases mem_insertByEnd.mp hj with rfl | hj
          · simp
          · simp [ih.inactive j hj]

/-! ## Claiming register 0 -/

/-- Before the scan every claimed interval is inactive, and register 0 is mapped to it. -/
theorem preallocate_spec (fn : Func) (inputs : ArgumentInputs) : ∀ (l : List LiveInterval) (s : ScanState),
    (preallocate fn inputs l s).active = s.active ∧ (preallocate fn inputs l s).fixups = s.fixups ∧
      (∀ i ∈ (preallocate fn inputs l s).inactive, i ∈ s.inactive ∨ i ∈ l) ∧
      ∀ x, (preallocate fn inputs l s).map.find x =
        if x ∈ l.map (·.value) ∧ preallocated fn inputs x = true then some 0 else s.map.find x
  | [], s => ⟨rfl, rfl, fun _ h => .inl h, by simp [preallocate]⟩
  | i :: l, s => by
    simp only [preallocate, List.foldl_cons]
    split
    next hp =>
      obtain ⟨h1, h2, h3, h4⟩ := preallocate_spec fn inputs l
        { s with map := s.map.insertOrAssign i.value 0, inactive := insertByEnd i s.inactive }
      refine ⟨h1, h2, fun j hj => ?_, fun x => ?_⟩
      · rcases h3 j hj with hj | hj
        · exact (mem_insertByEnd.mp hj).symm.imp id fun he => by simp [he]
        · exact .inr (by simp [hj])
      · rw [preallocate] at h4
        rw [h4, Lib.OrdMap.find_insertOrAssign]
        by_cases hx : x = i.value
        · subst hx; simp [hp]
        · simp [hx]
    next hp =>
      obtain ⟨h1, h2, h3, h4⟩ := preallocate_spec fn inputs l s
      refine ⟨h1, h2, fun j hj => (h3 j hj).imp id fun hj => by simp [hj], fun x => ?_⟩
      rw [preallocate] at h4
      rw [h4]
      by_cases hx : x = i.value
      · subst hx; simp [hp]
      · simp [hx]

/-! ## Allocating -/

/-- The register one round gives `cur`, and the fix-up it may insert. Only without one is the register marked. -/
structure Allocated (fn : Func) (inputs : ArgumentInputs) (cur : LiveInterval) (s s' : ScanState) (r : Reg)
    (fixup : Option Fixup) : Prop where
  self : s'.map.find cur.value = some r
  other : ∀ x, x ≠ cur.value → s'.map.find x = s.map.find x
  wasFree : s.free r = true
  free : ∀ q, s'.free q = true → s.free q = true
  marked : fixup = none → s'.free r = false
  active : s'.active = insertByEnd cur s.active
  inactive : s'.inactive = s.inactive
  fixups : s'.fixups = s.fixups ++ fixup.toList
  claimed : fixup = none → ∀ r₀, s.map.find cur.value = some r₀ → r = r₀
  moved : ∀ fx, fixup = some fx → fx.value = cur.value ∧ fx.scratch = r ∧ r ≠ 0 ∧
    s.map.find cur.value = some fx.curReg ∧ s.free fx.curReg = false ∧
    ∃ v c op, cur.value = .value v ∧ currentValue fn inputs v = some c ∧ fn.definingOp c = some op ∧ op.id = fx.op

theorem reserveIterators_spec (fn : Func) (inputs : ArgumentInputs) (cur : LiveInterval) (s : ScanState) :
    (reserveIterators fn inputs cur s).map = s.map ∧ (reserveIterators fn inputs cur s).fixups = s.fixups ∧
      (reserveIterators fn inputs cur s).active = s.active ∧ (reserveIterators fn inputs cur s).inactive = s.inactive ∧
      ∀ r, (reserveIterators fn inputs cur s).free r = true → s.free r = true := by
  have hone : ∀ (s : ScanState) (x : Var), (reserveIterator fn cur s x).map = s.map ∧
      (reserveIterator fn cur s x).fixups = s.fixups ∧ (reserveIterator fn cur s x).active = s.active ∧
      (reserveIterator fn cur s x).inactive = s.inactive ∧
      ∀ r, (reserveIterator fn cur s x).free r = true → s.free r = true := by
    intro s x
    simp only [reserveIterator]
    split
    next => exact ⟨rfl, rfl, rfl, rfl, fun _ h => h⟩
    next =>
      split
      next => exact ⟨rfl, rfl, rfl, rfl, fun _ h => (setFree_false.mp h).1⟩
      next => exact ⟨rfl, rfl, rfl, rfl, fun _ h => h⟩
  have hall : ∀ (l : List Var) (s : ScanState), (l.foldl (reserveIterator fn cur) s).map = s.map ∧
      (l.foldl (reserveIterator fn cur) s).fixups = s.fixups ∧ (l.foldl (reserveIterator fn cur) s).active = s.active ∧
      (l.foldl (reserveIterator fn cur) s).inactive = s.inactive ∧
      ∀ r, (l.foldl (reserveIterator fn cur) s).free r = true → s.free r = true := by
    intro l
    induction l with
    | nil => exact fun s => ⟨rfl, rfl, rfl, rfl, fun _ h => h⟩
    | cons x l ih =>
      intro s
      obtain ⟨a1, a2, a3, a4, a5⟩ := ih (reserveIterator fn cur s x)
      obtain ⟨b1, b2, b3, b4, b5⟩ := hone s x
      exact ⟨a1.trans b1, a2.trans b2, a3.trans b3, a4.trans b4, fun r hr => b5 r (a5 r hr)⟩
  simp only [reserveIterators]
  split
  next =>
    split
    next => exact hall _ s
    next => exact ⟨rfl, rfl, rfl, rfl, fun _ h => h⟩
  next => exact ⟨rfl, rfl, rfl, rfl, fun _ h => h⟩

theorem available_free {fn : Func} {inputs : ArgumentInputs} {cur : LiveInterval} {l : List LiveInterval} {s : ScanState}
    {r : Reg} (h : available fn inputs cur l s r = true) : s.free r = true := by
  simp only [available, Bool.and_eq_true] at h
  exact h.1.1

theorem allocateRegister_spec {fn : Func} {inputs : ArgumentInputs} {cur : LiveInterval} {l : List LiveInterval}
    {s s' : ScanState} (h : allocateRegister fn inputs cur l s = some s')
    (hval : ∀ r, s.map.find cur.value = some r → ∃ v, cur.value = .value v) :
    ∃ r fixup, Allocated fn inputs cur s s' r fixup := by
  simp only [allocateRegister] at h
  split at h
  next => cases h
  next =>
    simp only [Option.bind_eq_bind, Option.bind_eq_some_iff, Option.some.injEq] at h
    obtain ⟨r, hr, s₁, hs₁, rfl⟩ := h
    obtain ⟨e1, e2, e3, e4, e5⟩ := reserveIterators_spec fn inputs cur { s₁ with active := insertByEnd cur s₁.active }
    simp only [takeRegister] at hs₁
    split at hs₁
    next hfree =>
      cases hs₁
      refine ⟨r, none, by rw [e1]; simp, fun x hx => by rw [e1, Lib.OrdMap.find_insert_ne hx], hfree,
        fun q hq => (setFree_false.mp (e5 q hq)).1, fun _ => ?_, e3, e4, by rw [e2]; simp, fun _ r₀ hr₀ => ?_, by simp⟩
      · by_contra hc
        exact (setFree_false.mp (e5 r (by simpa using hc))).2 rfl
      · simpa [chooseRegister, hr₀] using hr.symm
    next hfree =>
      cases hc : s.map.find cur.value with
      | none =>
        -- An unclaimed register comes from those available, which are free.
        rw [chooseRegister, hc, Option.none_or] at hr
        exact absurd (available_free (List.find?_some hr)) hfree
      | some r₀ =>
        obtain ⟨v, hv⟩ := hval r₀ hc
        rw [chooseRegister, hc, Option.some_or, Option.some.injEq] at hr
        subst hr
        simp only [handleRegisterConflict, Option.bind_eq_bind, Option.bind_eq_some_iff, hv, Option.some.injEq] at hs₁
        obtain ⟨scratch, hs, c, hcv, op, hop, rfl⟩ := hs₁
        have hs' := List.find?_some hs
        simp only [Bool.and_eq_true, decide_eq_true_eq] at hs'
        refine ⟨scratch, some ⟨op.id, cur.value, scratch, r₀⟩, by rw [e1, hv]; simp, fun x hx => ?_,
          available_free hs'.2, e5, by simp, e3, e4, by rw [e2]; simp [hv], by simp, ?_⟩
        · rw [hv] at hx
          rw [e1, Lib.OrdMap.find_insert_ne hx, Lib.OrdMap.find_insert_ne hx]
        · intro fx hfx
          cases hfx
          exact ⟨rfl, rfl, Nat.one_le_iff_ne_zero.mp hs'.1, hc, by simpa using hfree, v, c, op, hv, hcv, hop, rfl⟩

/-! ## The scan -/

/-- After the intervals `done`, before those of `rest`: registers of hulls that meet differ, `free` is in step with
the intervals that reach the next start, and every fix-up is some claimed interval's. -/
structure ScanInv (fn : Func) (inputs : ArgumentInputs) (done rest : List LiveInterval) (s : ScanState) : Prop where
  mapped : ∀ p ∈ done, ∃ r, s.map.find p.value = some r
  alive : ∀ p ∈ done, (∀ q ∈ done, q.start < p.stop) → p ∈ s.active
  active : ∀ i ∈ s.active, i ∈ done ∨ i ∈ rest
  inactive : ∀ i ∈ s.inactive, i ∈ done ∨ i ∈ rest
  taken : ∀ i ∈ s.active, (∃ q ∈ rest, q.start < i.stop) → ∃ r, s.map.find i.value = some r ∧ s.free r = false
  distinct : ∀ i ∈ s.active, ∀ j ∈ s.active, i ≠ j → s.colour i ≠ s.colour j
  greedy : Lib.Greedy LiveInterval.start LiveInterval.stop s.colour done
  unscanned : ∀ q ∈ rest, s.map.find q.value = if preallocated fn inputs q.value then some 0 else none
  keys : ∀ x r, s.map.find x = some r → ∃ q, (q ∈ done ∨ q ∈ rest) ∧ q.value = x
  zero : ∀ p ∈ done, preallocated fn inputs p.value = true →
    s.map.find p.value = some 0 ∨ ∃ fx ∈ s.fixups, fx.value = p.value
  fixed : ∀ fx ∈ s.fixups, (∃ p ∈ done, p.value = fx.value) ∧
    Fixed fn inputs (SingleClobber fn inputs fun _ => True) s.map fx
  fixedOnce : (s.fixups.map (·.value)).Nodup

theorem ScanInv.init {fn : Func} {inputs : ArgumentInputs} {all : List LiveInterval} :
    ScanInv fn inputs [] all (preallocate fn inputs all .init) := by
  obtain ⟨hact, hfix, hin, hmap⟩ := preallocate_spec fn inputs all .init
  have hact : (preallocate fn inputs all .init).active = [] := hact
  have hfix : (preallocate fn inputs all .init).fixups = [] := hfix
  refine ⟨by simp, by simp, by simp [hact], fun i hi => ?_, by simp [hact], by simp [hact], .nil, fun q hq => ?_,
    fun x r hx => ?_, by simp, by simp [hfix], by simp [hfix]⟩
  · exact .inr ((hin i hi).resolve_left (by simp [ScanState.init]))
  · rw [hmap]
    by_cases hp : preallocated fn inputs q.value = true
    · simp [hp, List.mem_map_of_mem hq]
    · simp [hp, ScanState.init]
  · rw [hmap] at hx
    split at hx
    next hm =>
      obtain ⟨q, hq, he⟩ := List.mem_map.mp hm.1
      exact ⟨q, .inr hq, he⟩
    next => simp [ScanState.init] at hx

section
variable {fn : Func} {inputs : ArgumentInputs} {done rest : List LiveInterval} {cur : LiveInterval}
  {s s' s'' : ScanState}

/-- The state an interval is allocated in: what reaches its start is still active, and everything active is in
step. -/
theorem ScanInv.expire (h : ScanInv fn inputs done (cur :: rest) s) (hle : ∀ q ∈ done, q.start ≤ cur.start)
    (he : expireOldIntervals cur s = some s') (hrel : Round.ReleaseSafe ⟨cur, rest, s, s'⟩) :
    s'.map = s.map ∧ s'.fixups = s.fixups ∧ (∀ i ∈ s'.inactive, i ∈ done ∨ i ∈ cur :: rest) ∧
      (∀ i ∈ s'.active, i ∈ done ∨ i ∈ cur :: rest) ∧ (∀ p ∈ done, cur.start < p.stop → p ∈ s'.active) ∧
      InStep cur.value s' := by
  simp only [expireOldIntervals, Option.bind_eq_bind, Option.bind_eq_some_iff] at he
  obtain ⟨s₁, h1, h2⟩ := he
  have e1 := expireActive_spec h1
  have e2 := expireInactive_spec h2
  have hstep : InStep cur.value s₁ := by
    refine ⟨fun i hi _ => ?_, fun i hi j hj _ _ hij => ?_⟩
    · obtain ⟨hi, _, halive⟩ := (e1.active i).mp hi
      obtain ⟨r, hr, hf⟩ := h.taken i hi ⟨cur, by simp, (LiveInterval.aliveAt_iff.mp halive).2⟩
      refine ⟨r, by rw [e1.map, hr], ?_⟩
      -- What was freed was a dead interval's, or reserved by one: not the register of `i`.
      by_contra hc
      rcases e1.free r (by simpa using hc) with hc | ⟨j, hj, hdead, hjr | hjr⟩
      · rw [hf] at hc; cases hc
      · have hne : i ≠ j := fun he => by rw [he, hdead] at halive; cases halive
        exact h.distinct i hi j hj hne (hr.trans hjr.symm)
      · exact hrel j hj hdead r hjr i hi halive hr
    · have := h.distinct i ((e1.active i).mp hi).1 j ((e1.active j).mp hj).1 hij
      simpa only [ScanState.colour, e1.map] using this
  have hin : ∀ i ∈ s₁.inactive, i ∈ done ∨ i ∈ cur :: rest := fun i hi =>
    (e1.inactive i hi).elim (h.inactive i) (h.active i)
  refine ⟨e2.map.trans e1.map, e2.fixups.trans e1.fixups, fun i hi => hin i (e2.inactive i hi), fun i hi => ?_, ?_,
    e2.inStep hstep⟩
  · exact (e2.from_list i hi).elim (fun hi => h.active i ((e1.active i).mp hi).1) (hin i)
  · intro p hp hlt
    have hact := h.alive p hp fun q hq => Nat.lt_of_le_of_lt (hle q hq) hlt
    have := hle p hp
    exact e2.active p ((e1.active p).mpr ⟨hact, by omega, LiveInterval.aliveAt_iff.mpr ⟨this, hlt⟩⟩)

/-- One safe round keeps the invariant. -/
theorem ScanInv.step (h : ScanInv fn inputs done (cur :: rest) s) (hnd : ((done ++ cur :: rest).map (·.value)).Nodup)
    (hsorted : (done ++ cur :: rest).Pairwise (·.start ≤ ·.start))
    (hkeys : ∀ x l, inputs.find x = some l → ∃ v, x = .value v) (he : expireOldIntervals cur s = some s')
    (ha : allocateRegister fn inputs cur rest s' = some s'') (hrel : Round.ReleaseSafe ⟨cur, rest, s, s'⟩)
    (hconf : Round.ConflictSafe fn inputs ⟨cur, rest, s, s'⟩) : ScanInv fn inputs (done ++ [cur]) rest s'' := by
  have hle : ∀ q ∈ done, q.start ≤ cur.start := fun q hq =>
    (List.pairwise_append.mp hsorted).2.2 q hq cur (by simp)
  have hne : ∀ i, i ∈ done ∨ i ∈ rest → i.value ≠ cur.value := by
    rw [List.map_append, List.nodup_append, List.map_cons, List.nodup_cons] at hnd
    obtain ⟨_, ⟨hrest, _⟩, hdisj⟩ := hnd
    rintro i (hi | hi) hv
    · exact hdisj _ (List.mem_map_of_mem hi) cur.value (by simp) hv
    · exact hrest (hv ▸ List.mem_map_of_mem hi)
  have hcurv : ∀ i, i ∈ done ∨ i ∈ cur :: rest → i ≠ cur → i.value ≠ cur.value := by
    rintro i (hi | hi) hic
    · exact hne i (.inl hi)
    · exact hne i (.inr ((List.mem_cons.mp hi).resolve_left hic))
  obtain ⟨hmap, hfix, hin, hact, hreach, hstep⟩ := h.expire hle he hrel
  have hfind : s'.map.find cur.value = if preallocated fn inputs cur.value then some 0 else none := by
    rw [hmap]; exact h.unscanned cur (by simp)
  obtain ⟨r, fixup, hA⟩ := allocateRegister_spec ha fun _ => value_of_find hkeys hfind
  have hold : ∀ x, x ≠ cur.value → s''.map.find x = s.map.find x := fun x hx => by
    rw [hA.other x hx, hmap]
  have hself : s''.map.find cur.value = some r := hA.self
  have hmem : ∀ i, i ∈ s''.active ↔ i = cur ∨ i ∈ s'.active := fun i => by rw [hA.active, mem_insertByEnd]
  -- An interval still active holds a register that is not free, and `cur` gets one that is.
  have hother : ∀ i ∈ s''.active, i ≠ cur → ∃ q, s''.map.find i.value = some q ∧ q ≠ r ∧ s''.free q = false ∧
      i ∈ s'.active ∧ i.value ≠ cur.value := by
    intro i hi hic
    have hi' := ((hmem i).mp hi).resolve_left hic
    have hv := hcurv i (hact i hi') hic
    obtain ⟨q, hq, hf⟩ := hstep.taken i hi' hv
    refine ⟨q, by rw [hA.other _ hv, hq], ?_, ?_, hi', hv⟩
    · rintro rfl; rw [hA.wasFree] at hf; cases hf
    · by_contra hc
      rw [hA.free q (by simpa using hc)] at hf
      cases hf
  have hsafe : ∀ fx, fixup = some fx → (∀ q ∈ rest, cur.stop ≤ q.start) ∧
      SingleClobber fn inputs (fun _ => True) cur.value := by
    intro fx hf
    obtain ⟨_, _, _, hclaim, hbusy, _⟩ := hA.moved fx hf
    exact hconf ⟨_, hclaim, hbusy⟩
  obtain ⟨hzero, hfixed, honce⟩ := fixups_step h.zero h.fixed h.fixedOnce (fun i hi => hne i (.inl hi)) hold hself
    (hmap ▸ hfind) (hmap ▸ hA.claimed) fun fx hf => by
      obtain ⟨hv, hsc, hr0, hclaim, _, hop⟩ := hA.moved fx hf
      exact ⟨hv, hsc, hr0, hmap ▸ hclaim, (hsafe fx hf).2, hop⟩
  rw [← hfix, ← hA.fixups] at hzero hfixed honce
  constructor
  case mapped =>
    intro p hp
    rcases List.mem_append.mp hp with hp | hp
    · rw [hold _ (hne p (.inl hp))]; exact h.mapped p hp
    · rw [List.mem_singleton.mp hp]; exact ⟨r, hself⟩
  case alive =>
    intro p hp hlt
    rcases List.mem_append.mp hp with hp | hp
    · exact (hmem p).mpr (.inr (hreach p hp (hlt cur (by simp))))
    · exact (hmem p).mpr (.inl (List.mem_singleton.mp hp))
  case active =>
    intro i hi
    rcases (hmem i).mp hi with rfl | hi
    · simp
    · have := hact i hi
      simp only [List.mem_cons] at this
      simp only [List.mem_append, List.mem_singleton]
      tauto
  case inactive =>
    intro i hi
    rw [hA.inactive] at hi
    have := hin i hi
    simp only [List.mem_cons] at this
    simp only [List.mem_append, List.mem_singleton]
    tauto
  case taken =>
    intro i hi h
    obtain ⟨q, hq, hlt⟩ := h
    by_cases hic : i = cur
    · subst hic
      refine ⟨r, hself, ?_⟩
      cases hf : fixup with
      | none => exact hA.marked hf
      | some fx =>
        -- A moved value has ended before the next interval starts.
        have := (hsafe fx hf).1 q hq
        omega
    · obtain ⟨q', hq', _, hf, _⟩ := hother i hi hic
      exact ⟨q', hq', hf⟩
  case distinct =>
    refine Lib.colours_differ (fun i hi (hic : i ≠ cur) => ?_) fun i hi hic j hj hjc hij => ?_
    · obtain ⟨q, hq, hqr, _⟩ := hother i hi hic
      rw [ScanState.colour, hq, ScanState.colour, hself]
      exact fun he => hqr (Option.some.inj he)
    · obtain ⟨_, _, _, _, hi', hiv⟩ := hother i hi hic
      obtain ⟨_, _, _, _, hj', hjv⟩ := hother j hj hjc
      have := hstep.distinct i hi' j hj' hiv hjv hij
      simpa only [ScanState.colour, hold _ hiv, hold _ hjv, hmap] using this
  case greedy =>
    have hcol : ∀ i ∈ done, s''.colour i = s.colour i := fun i hi => hold _ (hne i (.inl hi))
    refine (h.greedy.congr hcol).concat fun i hi hlt => ?_
    obtain ⟨q, hq, hqr, _⟩ := hother i ((hmem i).mpr (.inr (hreach i hi hlt))) fun hc => hne i (.inl hi) (hc ▸ rfl)
    rw [ScanState.colour, hq, ScanState.colour, hself]
    exact fun he => hqr (Option.some.inj he)
  case unscanned =>
    intro q hq
    rw [hold _ (hne q (.inr hq))]
    exact h.unscanned q (by simp [hq])
  case keys =>
    intro x q hx
    by_cases hxc : x = cur.value
    · exact ⟨cur, by simp, hxc.symm⟩
    · rw [hold x hxc] at hx
      obtain ⟨p, hp, rfl⟩ := h.keys x q hx
      simp only [List.mem_cons] at hp
      refine ⟨p, ?_, rfl⟩
      simp only [List.mem_append, List.mem_singleton]
      tauto
  case zero => exact hzero
  case fixed => exact hfixed
  case fixedOnce => exact honce

end

/-- **The invariant of a whole scan** whose rounds are safe. -/
theorem ScanInv.run {fn : Func} {inputs : ArgumentInputs} (hkeys : ∀ x l, inputs.find x = some l → ∃ v, x = .value v) :
    ∀ (rest done : List LiveInterval) {s s' : ScanState}, ScanInv fn inputs done rest s →
      ((done ++ rest).map (·.value)).Nodup → (done ++ rest).Pairwise (·.start ≤ ·.start) →
      scan fn inputs rest s = some s' →
      (∀ p ∈ rounds fn inputs rest s, p.ConflictSafe fn inputs ∧ p.ReleaseSafe) →
      ScanInv fn inputs (done ++ rest) [] s'
  | [], done, s, s', h, _, _, hs, _ => by
    simp only [scan, Option.some.injEq] at hs
    subst hs
    simpa using h
  | cur :: rest, done, s, s', h, hnd, hsorted, hs, hsafe => by
    simp only [scan, Option.bind_eq_bind, Option.bind_eq_some_iff] at hs
    obtain ⟨e, he, s₂, ha, hs⟩ := hs
    simp only [rounds, he, ha, List.mem_cons, forall_eq_or_imp] at hsafe
    have := ScanInv.run hkeys rest (done ++ [cur]) (h.step hnd hsorted hkeys he ha hsafe.1.2 hsafe.1.1)
      (by simpa using hnd) (by simpa using hsorted) hs hsafe.2
    simpa using this

theorem ScanInv.scanned {fn : Func} {inputs : ArgumentInputs} {all : List LiveInterval} {s : ScanState}
    (h : ScanInv fn inputs all [] s) :
    Scanned fn inputs (SingleClobber fn inputs fun _ => True) all s.map s.fixups :=
  ⟨h.mapped, fun x r hx => by simpa using h.keys x r hx, h.greedy, h.zero, h.fixed, h.fixedOnce⟩

end Pylang.Regalloc.Header
