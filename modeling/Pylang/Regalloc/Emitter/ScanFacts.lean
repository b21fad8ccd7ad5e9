/-
What one round of the emitter's scan does, and what holds of a whole scan: the
registers of intervals whose hulls meet differ, and a value that an operation
leaves in register 0 is either kept there or moved out of it by its one fix-up.

The argument needs nothing of `overlaps`: a register is handed out only when it
is free, and it is not free while an interval that holds it is in `active`,
which is every interval scanned so far whose hull reaches the current start.
-/
import Pylang.Regalloc.AllocationSpec
import Pylang.Regalloc.Emitter.LinearScan

namespace Pylang.Regalloc.Emitter

/-! ## Expiring -/

/-- What the loop over `active` does to the rest of the state: it frees the registers of what it removes. -/
structure ExpiredActive (cur : LiveInterval) (s : ScanState) (l : List LiveInterval) (s' : ScanState) : Prop where
  map : s'.map = s.map
  fixups : s'.fixups = s.fixups
  values : ∀ i ∈ l, i.value ≠ cur.value
  active : ∀ i, i ∈ s'.active ↔ i ∈ l ∧ i.stop ≥ cur.start ∧ i.aliveAt cur.start = true
  inactive : ∀ i ∈ s'.inactive, i ∈ s.inactive ∨ i ∈ l
  free : ∀ r, s'.free r = true ↔ s.free r = true ∨ ∃ i ∈ l, i.aliveAt cur.start = false ∧ s.map.find i.value = some r

theorem expireActive_spec {cur : LiveInterval} : ∀ {l : List LiveInterval} {s s' : ScanState},
    expireActive cur s l = some s' → ExpiredActive cur s l s'
  | [], s, s', h => by
    simp only [expireActive, Option.some.injEq] at h
    subst h
    exact ⟨rfl, rfl, by simp, by simp, by simp, by simp⟩
  | i :: l, s, s', h => by
    simp only [expireActive] at h
    split at h
    next => cases h
    next hv =>
      split at h
      next hend =>
        simp only [Option.bind_eq_bind, Option.bind_eq_some_iff] at h
        obtain ⟨r, hr, h⟩ := h
        have ih := expireActive_spec h
        have hdead : i.aliveAt cur.start = false := by simp [LiveInterval.aliveAt]; omega
        refine ⟨ih.map, ih.fixups, by simpa using ⟨hv, ih.values⟩, fun j => ?_, fun j hj => ?_, fun q => ?_⟩
        · rw [ih.active]
          constructor
          · rintro ⟨hj, hc⟩; exact ⟨by simp [hj], hc⟩
          · intro h
            obtain ⟨hj, hc⟩ := h
            rcases List.mem_cons.mp hj with rfl | hj
            · omega
            · exact ⟨hj, hc⟩
        · exact (ih.inactive j hj).imp id fun h => by simp [h]
        · simp only [ih.free, setFree_true, List.mem_cons, exists_eq_or_imp, hdead, hr, true_and, Option.some.injEq]
          rw [or_assoc, eq_comm (a := q)]
      next hend =>
        split at h
        next hdead =>
          simp only [Bool.not_eq_true'] at hdead
          simp only [Option.bind_eq_bind, Option.bind_eq_some_iff] at h
          obtain ⟨r, hr, h⟩ := h
          have ih := expireActive_spec h
          refine ⟨ih.map, ih.fixups, by simpa using ⟨hv, ih.values⟩, fun j => ?_, fun j hj => ?_, fun q => ?_⟩
          · rw [ih.active]
            constructor
            · rintro ⟨hj, hc⟩; exact ⟨by simp [hj], hc⟩
            · intro h
              obtain ⟨hj, hc⟩ := h
              rcases List.mem_cons.mp hj with rfl | hj
              · simp [hdead] at hc
              · exact ⟨hj, hc⟩
          · rcases ih.inactive j hj with hj | hj
            · rcases mem_insertByEnd.mp hj with rfl | hj
              · exact .inr (by simp)
              · exact .inl hj
            · exact .inr (by simp [hj])
          · simp only [ih.free, setFree_true, List.mem_cons, exists_eq_or_imp, hdead, hr, true_and, Option.some.injEq]
            rw [or_assoc, eq_comm (a := q)]
        next halive =>
          simp only [Bool.not_eq_true', Bool.not_eq_false] at halive
          simp only [Option.bind_eq_bind, Option.bind_eq_some_iff, Option.some.injEq] at h
          obtain ⟨s1, h, rfl⟩ := h
          have ih := expireActive_spec h
          refine ⟨ih.map, ih.fixups, by simpa using ⟨hv, ih.values⟩, fun j => ?_, fun j hj => ?_, fun q => ?_⟩
          · simp only [mem_insertByEnd, ih.active, List.mem_cons, or_and_right]
            constructor
            · rintro (rfl | h)
              · exact .inl ⟨rfl, by omega, halive⟩
              · exact .inr h
            · rintro (h | h)
              · exact .inl h.1
              · exact .inr h
          · exact (ih.inactive j hj).imp id fun h => by simp [h]
          · simp [ih.free, halive]

/-- What the loop over `inactive` does: nothing but move intervals. -/
structure ExpiredInactive (cur : LiveInterval) (s : ScanState) (l : List LiveInterval) (s' : ScanState) : Prop where
  map : s'.map = s.map
  fixups : s'.fixups = s.fixups
  free : s'.free = s.free
  active : ∀ i, i ∈ s'.active ↔ i ∈ s.active ∨ (i ∈ l ∧ i.value = cur.value)
  inactive : ∀ i ∈ s'.inactive, i ∈ l

theorem expireInactive_spec {fn : Func} {inputs : ArgumentInputs} {cur : LiveInterval} :
    ∀ {l : List LiveInterval} {s s' : ScanState}, expireInactive fn inputs cur s l = some s' →
      ExpiredInactive cur s l s'
  | [], s, s', h => by
    simp only [expireInactive, Option.some.injEq] at h
    subst h
    exact ⟨rfl, rfl, rfl, by simp, by simp⟩
  | i :: l, s, s', h => by
    simp only [expireInactive] at h
    split at h
    next hv =>
      split at h
      next =>
        have ih := expireInactive_spec h
        refine ⟨ih.map, ih.fixups, ih.free, fun j => ?_, fun j hj => by simp [ih.inactive j hj]⟩
        simp only [ih.active, mem_insertByEnd, List.mem_cons]
        constructor
        · rintro ((rfl | h) | ⟨h, hc⟩)
          · exact .inr ⟨.inl rfl, hv⟩
          · exact .inl h
          · exact .inr ⟨.inr h, hc⟩
        · rintro (h | ⟨rfl | h, hc⟩)
          · exact .inl (.inr h)
          · exact .inl (.inl rfl)
          · exact .inr ⟨h, hc⟩
      next => cases h
    next hv =>
      have hact : ∀ j, (j ∈ i :: l ∧ j.value = cur.value) ↔ (j ∈ l ∧ j.value = cur.value) := by
        intro j
        simp only [List.mem_cons]
        constructor
        · rintro ⟨rfl | h, hc⟩
          · exact absurd hc hv
          · exact ⟨h, hc⟩
        · rintro ⟨h, hc⟩; exact ⟨.inr h, hc⟩
      split at h
      next =>
        have ih := expireInactive_spec h
        exact ⟨ih.map, ih.fixups, ih.free, fun j => by rw [ih.active, hact], fun j hj => by simp [ih.inactive j hj]⟩
      next =>
        split at h
        next => cases h
        next =>
          simp only [Option.bind_eq_bind, Option.bind_eq_some_iff, Option.some.injEq] at h
          obtain ⟨s1, h, rfl⟩ := h
          have ih := expireInactive_spec h
          refine ⟨ih.map, ih.fixups, ih.free, fun j => by rw [ih.active, hact], fun j hj => ?_⟩
          rcases mem_insertByEnd.mp hj with rfl | hj
          · simp
          · simp [ih.inactive j hj]

/-! ## Claiming register 0 -/

/-- Claiming register 0 for the intervals of `l` where `p` says so. -/
structure Claimed (p : Var → Bool) (l : List LiveInterval) (s s' : ScanState) : Prop where
  active : s'.active = s.active
  free : s'.free = s.free
  fixups : s'.fixups = s.fixups
  inactive : ∀ i ∈ s'.inactive, i ∈ s.inactive ∨ i ∈ l
  map : ∀ x, s'.map.find x = if x ∈ l.map (·.value) ∧ p x = true then some 0 else s.map.find x

theorem claim_spec {p : Var → Bool} {i : LiveInterval} {s : ScanState} :
    Claimed p [i] s (if p i.value then claim i s else s) := by
  split
  next h =>
    refine ⟨rfl, rfl, rfl, fun j hj => ?_, fun x => ?_⟩
    · rcases mem_insertByEnd.mp hj with rfl | hj
      · simp
      · exact .inl hj
    · simp only [claim, Lib.OrdMap.find_insertOrAssign, List.map_cons, List.map_nil, List.mem_singleton]
      by_cases hx : x = i.value
      · subst hx; simp [h]
      · simp [hx]
  next h =>
    refine ⟨rfl, rfl, rfl, fun j hj => .inl hj, fun x => ?_⟩
    simp only [List.map_cons, List.map_nil, List.mem_singleton]
    by_cases hx : x = i.value
    · subst hx; simp [h]
    · simp [hx]

theorem Claimed.or {p q : Var → Bool} {l : List LiveInterval} {s s' s'' : ScanState} (h : Claimed p l s s')
    (h' : Claimed q l s' s'') : Claimed (fun x => p x || q x) l s s'' := by
  refine ⟨h'.active.trans h.active, h'.free.trans h.free, h'.fixups.trans h.fixups, fun i hi => ?_, fun x => ?_⟩
  · exact (h'.inactive i hi).elim (h.inactive i) .inr
  · rw [h'.map, h.map]
    by_cases hx : x ∈ l.map (·.value) <;> by_cases hp : p x = true <;> by_cases hq : q x = true <;> simp [hx, hp, hq]

theorem Claimed.cons {p : Var → Bool} {i : LiveInterval} {l : List LiveInterval} {s s' s'' : ScanState}
    (h : Claimed p [i] s s') (h' : Claimed p l s' s'') : Claimed p (i :: l) s s'' := by
  refine ⟨h'.active.trans h.active, h'.free.trans h.free, h'.fixups.trans h.fixups, fun j hj => ?_, fun x => ?_⟩
  · rcases h'.inactive j hj with hj | hj
    · exact (h.inactive j hj).imp id fun hj => by simpa using .inl (by simpa using hj)
    · exact .inr (by simp [hj])
  · rw [h'.map, h.map]
    simp only [List.map_cons, List.map_nil, List.mem_cons, List.not_mem_nil, or_false]
    by_cases hi : x = i.value
    · by_cases hp : p x = true <;> simp [← hi, hp]
    · simp [hi]

theorem preallocate_spec (fn : Func) (inputs : ArgumentInputs) : ∀ (l : List LiveInterval) (s : ScanState),
    Claimed (preallocated fn inputs) l s (preallocate fn inputs l s)
  | [], s => ⟨rfl, rfl, rfl, fun _ h => .inl h, by simp [preallocate]⟩
  | i :: l, s => by
    have h : Claimed (preallocated fn inputs) [i] s _ :=
      (claim_spec (p := clobberedResult fn) (i := i) (s := s)).or (claim_spec (p := clobberedArgument fn inputs))
    exact h.cons (preallocate_spec fn inputs l _)

/-! ## Allocating -/

/-- The register one round gives `cur`, and the fix-up it may insert. `fixup` is the one insertion. -/
structure Allocated (fn : Func) (inputs : ArgumentInputs) (cur : LiveInterval) (s s' : ScanState) (r : Reg)
    (fixup : Option Fixup) : Prop where
  map : s'.map = s.map.insertOrAssign cur.value r
  wasFree : s.free r = true
  free : s'.free = setFree s.free r false
  active : s'.active = insertByEnd cur s.active
  inactive : s'.inactive = s.inactive
  fixups : s'.fixups = s.fixups ++ fixup.toList
  claimed : fixup = none → ∀ r₀, s.map.find cur.value = some r₀ → r = r₀
  moved : ∀ fx, fixup = some fx → fx.value = cur.value ∧ fx.scratch = r ∧ r ≠ 0 ∧
    s.map.find cur.value = some fx.curReg ∧ s.free fx.curReg = false ∧
    ∃ v c op, cur.value = .value v ∧ currentValue fn inputs v = some c ∧ fn.definingOp c = some op ∧ op.id = fx.op

theorem available_free {cur : LiveInterval} {l : List LiveInterval} {s : ScanState} {r : Reg}
    (h : available cur l s r = true) : s.free r = true := by
  simp only [available, Bool.and_eq_true] at h
  exact h.1

theorem allocate_spec {fn : Func} {inputs : ArgumentInputs} {cur : LiveInterval} {l : List LiveInterval}
    {s s' : ScanState} (h : allocate fn inputs cur l s = some s')
    (hval : ∀ r, s.map.find cur.value = some r → ∃ v, cur.value = .value v) :
    ∃ r fixup, Allocated fn inputs cur s s' r fixup := by
  simp only [allocate] at h
  split at h
  next => cases h
  next =>
    simp only [Option.bind_eq_bind, Option.bind_eq_some_iff] at h
    obtain ⟨r, hr, h⟩ := h
    split at h
    next hfree =>
      simp only [Option.some.injEq] at h
      subst h
      refine ⟨r, none, rfl, hfree, rfl, rfl, rfl, by simp, fun _ r₀ hr₀ => ?_, by simp⟩
      simpa [chooseRegister, hr₀] using hr.symm
    next hfree =>
      simp only [chooseRegister] at hr
      split at hr
      next r₀ hr₀ =>
        simp only [Option.some.injEq] at hr
        subst hr
        obtain ⟨v, hv⟩ := hval _ hr₀
        simp only [handleConflict, Option.bind_eq_bind, Option.bind_eq_some_iff, hv, Option.some.injEq] at h
        obtain ⟨scratch, hs, c, hc, op, hop, rfl⟩ := h
        have hs' := List.find?_some hs
        simp only [Bool.and_eq_true, decide_eq_true_eq] at hs'
        refine ⟨scratch, some ⟨op.id, cur.value, scratch, r₀⟩, by rw [hv], available_free hs'.2, rfl, rfl, rfl,
          by simp [hv], by simp, ?_⟩
        intro fx hfx
        simp only [Option.some.injEq] at hfx
        subst hfx
        exact ⟨rfl, rfl, Nat.one_le_iff_ne_zero.mp hs'.1, hr₀, by simpa using hfree, v, c, op, hv, hc, hop, rfl⟩
      next hnone =>
        split at hr
        next => cases hr
        next v hv =>
          have hf := List.find?_some hr
          simp only [Bool.and_eq_true] at hf
          exact absurd (available_free hf.2) hfree

/-! ## The scan -/

/-- The register a state gives an interval. -/
def ScanState.colour (s : ScanState) (i : LiveInterval) : Option Reg := s.map.find i.value

/-- After the intervals `done` of `all`: they have registers, the ones whose hull goes on hold theirs, registers of
hulls that meet differ, and every fix-up is some claimed interval's. -/
structure ScanInv (fn : Func) (inputs : ArgumentInputs) (Safe : Var → Prop) (all done : List LiveInterval)
    (s : ScanState) : Prop where
  mapped : ∀ p ∈ done, ∃ r, s.map.find p.value = some r
  alive : ∀ p ∈ done, (∀ q ∈ done, q.start < p.stop) → p ∈ s.active
  active : ∀ i ∈ s.active, i ∈ done
  inactive : ∀ i ∈ s.inactive, i ∈ all
  taken : ∀ i ∈ s.active, ∀ r, s.map.find i.value = some r → s.free r = false
  distinct : ∀ i ∈ s.active, ∀ j ∈ s.active, i ≠ j → s.colour i ≠ s.colour j
  greedy : Lib.Greedy LiveInterval.start LiveInterval.stop s.colour done
  rest : ∀ q ∈ all, q ∉ done → s.map.find q.value = if preallocated fn inputs q.value then some 0 else none
  keys : ∀ x r, s.map.find x = some r → ∃ q ∈ all, q.value = x
  zero : ∀ p ∈ done, preallocated fn inputs p.value = true →
    s.map.find p.value = some 0 ∨ ∃ fx ∈ s.fixups, fx.value = p.value
  fixed : ∀ fx ∈ s.fixups, (∃ p ∈ done, p.value = fx.value) ∧ Fixed fn inputs Safe s.map fx
  fixedOnce : (s.fixups.map (·.value)).Nodup

theorem ScanInv.init {fn : Func} {inputs : ArgumentInputs} {Safe : Var → Prop} {all : List LiveInterval} :
    ScanInv fn inputs Safe all [] (preallocate fn inputs all .init) := by
  have h := preallocate_spec fn inputs all .init
  have hact : (preallocate fn inputs all .init).active = [] := h.active
  have hfix : (preallocate fn inputs all .init).fixups = [] := h.fixups
  refine ⟨by simp, by simp, by simp [hact], fun i hi => ?_, by simp [hact], by simp [hact], .nil, fun q hq _ => ?_,
    fun x r hx => ?_, by simp, by simp [hfix], by simp [hfix]⟩
  · simpa [ScanState.init] using h.inactive i hi
  · rw [h.map]
    by_cases hp : preallocated fn inputs q.value = true
    · simp [hp, List.mem_map_of_mem hq]
    · simp [hp, ScanState.init]
  · rw [h.map] at hx
    split at hx
    next hm => exact (List.mem_map.mp hm.1)
    next => simp [ScanState.init] at hx

/-- The state an interval is allocated in: what reaches its start still holds its register, nothing else is taken
away. -/
theorem ScanInv.expire {fn : Func} {inputs : ArgumentInputs} {Safe : Var → Prop} {all done : List LiveInterval}
    {s s' : ScanState} {cur : LiveInterval} (h : ScanInv fn inputs Safe all done s)
    (hnd : (all.map (·.value)).Nodup) (hsub : ∀ i ∈ done, i ∈ all) (hcur : cur ∈ all)
    (hsorted : ∀ q ∈ done, q.start ≤ cur.start) (he : expire fn inputs cur s = some s') :
    s'.map = s.map ∧ s'.fixups = s.fixups ∧ (∀ i ∈ s'.inactive, i ∈ all) ∧
      (∀ p ∈ done, cur.start < p.stop → p ∈ s'.active) ∧
      ∀ i ∈ s'.active, i = cur ∨ (i ∈ done ∧ i ∈ s.active ∧ i.value ≠ cur.value ∧
        ∀ r, s.map.find i.value = some r → s'.free r = false) := by
  simp only [Emitter.expire, Option.bind_eq_bind, Option.bind_eq_some_iff] at he
  obtain ⟨s1, h1, h2⟩ := he
  have e1 := expireActive_spec h1
  have e2 := expireInactive_spec h2
  have huniq : ∀ i ∈ all, ∀ j ∈ all, i.value = j.value → i = j := fun i hi j hj =>
    List.inj_on_of_nodup_map hnd hi hj
  have hin1 : ∀ i ∈ s1.inactive, i ∈ all := fun i hi =>
    (e1.inactive i hi).elim (h.inactive i) fun hi => hsub i (h.active i hi)
  refine ⟨e2.map.trans e1.map, e2.fixups.trans e1.fixups, fun i hi => hin1 i (e2.inactive i hi), ?_, ?_⟩
  · intro p hp hlt
    have hact := h.alive p hp fun q hq => Nat.lt_of_le_of_lt (hsorted q hq) hlt
    refine (e2.active p).mpr (.inl ((e1.active p).mpr ⟨hact, by omega, ?_⟩))
    exact LiveInterval.aliveAt_iff.mpr ⟨hsorted p hp, hlt⟩
  · intro i hi
    rcases (e2.active i).mp hi with hi | ⟨hi, hv⟩
    · right
      obtain ⟨hia, _, halive⟩ := (e1.active i).mp hi
      refine ⟨h.active i hia, hia, e1.values i hia, fun r hr => ?_⟩
      rw [e2.free]
      -- A register freed by an expired interval is not this one's: the two differ while both are active.
      by_contra hc
      simp only [Bool.not_eq_false, e1.free] at hc
      rcases hc with hc | ⟨j, hj, hdead, hjr⟩
      · rw [h.taken i hia r hr] at hc; cases hc
      · have hne : i ≠ j := fun he => by rw [he, hdead] at halive; cases halive
        exact h.distinct i hia j hj hne (hr.trans hjr.symm)
    · exact .inl (huniq i (hin1 i hi) cur hcur hv)

/-- One round keeps the invariant. -/
theorem ScanInv.step {fn : Func} {inputs : ArgumentInputs} {Safe : Var → Prop} {all done rest : List LiveInterval}
    {s s' s'' : ScanState} {cur : LiveInterval} (h : ScanInv fn inputs Safe all done s)
    (hall : all = done ++ cur :: rest) (hnd : (all.map (·.value)).Nodup) (hsorted : all.Pairwise (·.start ≤ ·.start))
    (hkeys : ∀ x l, inputs.find x = some l → ∃ v, x = .value v)
    (he : Emitter.expire fn inputs cur s = some s') (ha : allocate fn inputs cur rest s' = some s'')
    (hsafe : Conflict cur s' → Safe cur.value) : ScanInv fn inputs Safe all (done ++ [cur]) s'' := by
  have hcur : cur ∈ all := by simp [hall]
  have hsub : ∀ i ∈ done, i ∈ all := fun i hi => by simp [hall, hi]
  have hle : ∀ q ∈ done, q.start ≤ cur.start := fun q hq => by
    rw [hall] at hsorted
    exact (List.pairwise_append.mp hsorted).2.2 q hq cur (by simp)
  have huniq : ∀ i ∈ all, ∀ j ∈ all, i.value = j.value → i = j := fun i hi j hj =>
    List.inj_on_of_nodup_map hnd hi hj
  have hnew : cur ∉ done := fun hc => by
    have := (List.nodup_append.mp (hall ▸ hnd.of_map)).2.2 cur hc cur (by simp)
    exact this rfl
  obtain ⟨hmap, hfix, hin, hreach, hact⟩ := h.expire hnd hsub hcur hle he
  have hfind : s'.map.find cur.value = if preallocated fn inputs cur.value then some 0 else none := by
    rw [hmap]; exact h.rest cur hcur hnew
  obtain ⟨r, fixup, hA⟩ := allocate_spec ha fun _ => value_of_find hkeys hfind
  have hne : ∀ i ∈ done, i.value ≠ cur.value := fun i hi he => hnew (huniq i (hsub i hi) cur hcur he ▸ hi)
  have hold : ∀ x, x ≠ cur.value → s''.map.find x = s.map.find x := fun x hx => by
    rw [hA.map, Lib.OrdMap.find_insert_ne hx, hmap]
  have hself : s''.map.find cur.value = some r := by rw [hA.map, Lib.OrdMap.find_insert_self]
  have hother : ∀ i ∈ s'.active, i ≠ cur → ∀ q, s.map.find i.value = some q → q ≠ r := by
    intro i hi hic q hq h
    obtain rfl := h
    rcases hact i hi with rfl | ⟨_, _, _, ht⟩
    · exact hic rfl
    · have := ht _ hq; rw [hA.wasFree] at this; cases this
  have hmem : ∀ i, i ∈ s''.active ↔ i = cur ∨ i ∈ s'.active := fun i => by rw [hA.active, mem_insertByEnd]
  obtain ⟨hzero, hfixes, honce⟩ := fixups_step h.zero h.fixed h.fixedOnce hne hold hself (hmap ▸ hfind)
    (hmap ▸ hA.claimed) fun fx hf => by
      obtain ⟨hv, hsc, hr0, hclaim, hbusy, hop⟩ := hA.moved fx hf
      exact ⟨hv, hsc, hr0, hmap ▸ hclaim, hsafe ⟨_, hclaim, hbusy⟩, hop⟩
  rw [← hfix, ← hA.fixups] at hzero hfixes honce
  constructor
  case mapped =>
    intro p hp
    rcases List.mem_append.mp hp with hp | hp
    · rw [hold _ (hne p hp)]; exact h.mapped p hp
    · rw [List.mem_singleton.mp hp]; exact ⟨r, hself⟩
  case alive =>
    intro p hp hlt
    rcases List.mem_append.mp hp with hp | hp
    · exact (hmem p).mpr (.inr (hreach p hp (hlt cur (by simp))))
    · exact (hmem p).mpr (.inl (List.mem_singleton.mp hp))
  case active =>
    intro i hi
    rcases (hmem i).mp hi with rfl | hi
    · simp
    · rcases hact i hi with rfl | ⟨hd, _⟩
      · simp
      · simp [hd]
  case inactive => rw [hA.inactive]; exact hin
  case taken =>
    intro i hi q hq
    rw [hA.free, ← Bool.not_eq_true, setFree_false, not_and, not_not]
    intro hfree
    by_cases hic : i = cur
    · rw [hic, hself] at hq; exact (Option.some.inj hq).symm
    · rcases (hmem i).mp hi with rfl | hi
      · exact absurd rfl hic
      · rcases hact i hi with rfl | ⟨_, _, hv, ht⟩
        · exact absurd rfl hic
        · rw [hold _ hv] at hq
          rw [ht q hq] at hfree
          cases hfree
  case distinct =>
    -- An interval still active holds a register that was not free, and `cur` got one that was.
    have hnewreg : ∀ i ∈ s''.active, i ≠ cur → ∃ q, s''.colour i = some q ∧ q ≠ r ∧ i ∈ s.active ∧ i.value ≠ cur.value := by
      intro i hi hic
      rcases (hmem i).mp hi with rfl | hi
      · exact absurd rfl hic
      · rcases hact i hi with rfl | ⟨hd, ha, hv, _⟩
        · exact absurd rfl hic
        · obtain ⟨q, hq⟩ := h.mapped i hd
          exact ⟨q, by rw [ScanState.colour, hold _ hv, hq], hother i hi hic q hq, ha, hv⟩
    refine Lib.colours_differ (fun i hi (hic : i ≠ cur) => ?_) fun i hi hic j hj hjc hij => ?_
    · obtain ⟨q, hq, hqr, _⟩ := hnewreg i hi hic
      rw [hq, ScanState.colour, hself]
      exact fun he => hqr (Option.some.inj he)
    · obtain ⟨_, _, _, hia, hiv⟩ := hnewreg i hi hic
      obtain ⟨_, _, _, hja, hjv⟩ := hnewreg j hj hjc
      have := h.distinct i hia j hja hij
      simpa only [ScanState.colour, hold _ hiv, hold _ hjv] using this
  case greedy =>
    have hcol : ∀ i ∈ done, s''.colour i = s.colour i := fun i hi => hold _ (hne i hi)
    refine (h.greedy.congr hcol).concat fun i hi hlt => ?_
    obtain ⟨q, hq⟩ := h.mapped i hi
    rw [hcol i hi, ScanState.colour, ScanState.colour, hq, hself]
    exact fun he => hother i (hreach i hi hlt) (fun hc => hnew (hc ▸ hi)) q hq (Option.some.inj he)
  case rest =>
    intro q hq hnot
    have hqc : q ≠ cur := fun hc => hnot (by simp [hc])
    rw [hold _ fun he => hqc (huniq q hq cur hcur he)]
    exact h.rest q hq fun hd => hnot (by simp [hd])
  case keys =>
    intro x q hx
    by_cases hxc : x = cur.value
    · exact ⟨cur, hcur, hxc.symm⟩
    · rw [hold x hxc] at hx; exact h.keys x q hx
  case zero => exact hzero
  case fixed => exact hfixes
  case fixedOnce => exact honce

/-- **The invariant of a whole scan**, when every conflict it reaches is safe. -/
theorem ScanInv.run {fn : Func} {inputs : ArgumentInputs} (Safe : Var → Prop) {all : List LiveInterval}
    (hnd : (all.map (·.value)).Nodup) (hsorted : all.Pairwise (·.start ≤ ·.start))
    (hkeys : ∀ x l, inputs.find x = some l → ∃ v, x = .value v) :
    ∀ (rest done : List LiveInterval) {s s' : ScanState}, ScanInv fn inputs Safe all done s → all = done ++ rest →
      scan fn inputs rest s = some s' →
      (∀ p ∈ scanStates fn inputs rest s, Conflict p.1 p.2 → Safe p.1.value) → ScanInv fn inputs Safe all all s'
  | [], done, s, s', h, hall, hs, _ => by
    simp only [scan, Option.some.injEq] at hs
    subst hs
    simpa [hall] using h
  | cur :: rest, done, s, s', h, hall, hs, hsafe => by
    simp only [scan, Option.bind_eq_bind, Option.bind_eq_some_iff] at hs
    obtain ⟨s1, he, s2, ha, hs⟩ := hs
    simp only [scanStates, he, ha, List.mem_cons, forall_eq_or_imp] at hsafe
    exact ScanInv.run Safe hnd hsorted hkeys rest (done ++ [cur])
      (h.step hall hnd hsorted hkeys he ha hsafe.1) (by simp [hall]) hs hsafe.2

theorem ScanInv.scanned {fn : Func} {inputs : ArgumentInputs} {Safe : Var → Prop} {all : List LiveInterval}
    {s : ScanState} (h : ScanInv fn inputs Safe all all s) : Scanned fn inputs Safe all s.map s.fixups :=
  ⟨h.mapped, h.keys, h.greedy, h.zero, h.fixed, h.fixedOnce⟩

end Pylang.Regalloc.Emitter
