/-
The dispatch through the slots of a type against `PyType::lookup`: they agree for
a special method as long as each class is created soundly for it and no
assignment changes what is found.
-/
import Pylang.Runtime.TypeSlots

namespace Pylang.Runtime.World

variable {τ ο φ : Type} [DecidableEq τ] {W : World τ ο φ} {rest : List τ} {base type : τ} {d d' : Draft τ ο φ}
  {s : Slotdef} {name : String} {v : Value τ ο} {f : Fn τ ο φ} {namespace_ descriptors : String → Option (Value τ ο)}

/-! ### Special methods with slots of their own -/

theorem Behind.ready_regular (base : τ) (h : W.Behind type rest name) (hregular : Regular name)
    (hsound : W.SlotSound rest namespace_ descriptors name) (hs : s ∈ slotdefs) (hname : s.name = name) :
    (W.ready type base rest descriptors (initialized namespace_)).dict name = namespace_ name ∧
      (W.ready type base rest descriptors (initialized namespace_)).slot s.member =
        ((namespace_ name).map .object).or
          (if s.member ∈ inheritable then rest.findSome? (W.slot · s.member) else none) := by
  obtain ⟨hdict, hslot⟩ : ((initialized namespace_ : Draft τ ο φ).addOperators type).dict name = namespace_ name ∧
      ((initialized namespace_ : Draft τ ο φ).addOperators type).slot s.member = (namespace_ name).map .object :=
    addOperators_regular hregular hs hname
  have hnew : s.member ≠ newMember := fun he => hregular.2.2 (hname ▸ (slotdefs_new s hs).mpr he)
  have hdict' : (rest.foldl (fun d b => W.inheritSlots b d) (W.inheritSpecial base
      (((initialized namespace_).addOperators type).addDescriptors descriptors))).dict name = namespace_ name := by
    rw [inherit_dict]
    simp only [inheritSpecial, Draft.setSlot_dict, Draft.addDescriptors, hdict]
    cases hown : namespace_ name with
    | some v => rfl
    | none => simp [hsound.descriptors hown]
  have hslot' : (rest.foldl (fun d b => W.inheritSlots b d) (W.inheritSpecial base
      (((initialized namespace_).addOperators type).addDescriptors descriptors))).slot s.member =
        ((namespace_ name).map .object).or
          (if s.member ∈ inheritable then rest.findSome? (W.slot · s.member) else none) := by
    rw [inherit_slot]
    simp only [inheritSpecial]
    rw [Draft.setSlot_slot_ne _ hnew.symm]
    simp only [Draft.addDescriptors, hslot]
  unfold ready
  by_cases hhash : name = "__hash__"
  · have hmember : s.member = hashMember := (slotdefs_hash s hs).mp (hname.trans hhash)
    rw [Draft.addHash_of_isSome]
    · exact ⟨hdict', hslot'⟩
    rw [← hmember, hslot']
    cases hown : namespace_ name with
    | some v => rfl
    | none =>
      obtain ⟨v, hv⟩ := Option.ne_none_iff_exists'.mp (hsound.hash hhash)
      rw [found, hown] at hv
      obtain ⟨s', hs', hname', hset⟩ := h.slot_isSome hv
      rw [(slotdefs_hash s' hs').mp (hname'.trans hhash), ← hmember] at hset
      rw [if_pos ((hsound.inherited hown v (by rw [found, hown]; exact hv)).1 s hs hname)]
      exact hset
  · rw [Draft.addHash_dict_ne hhash, Draft.addHash_slot_ne fun he => hhash (hname ▸ (slotdefs_hash s hs).mpr he)]
    exact ⟨hdict', hslot'⟩

theorem Behind.firstFinder_some (h : W.Behind type rest name) (hv : rest.findSome? (W.dict · name) = some v) :
    ∃ b ∈ rest, W.firstFinder rest name = some b := by
  obtain ⟨c, hc, hdict⟩ := List.exists_of_findSome?_eq_some hv
  obtain ⟨v', hv'⟩ := h.head c hc v hdict
  have hsome : (W.firstFinder rest name).isSome := List.find?_isSome.mpr ⟨c, hc, by simp [hv']⟩
  obtain ⟨b, hb⟩ := Option.isSome_iff_exists.mp hsome
  exact ⟨b, List.mem_of_find?_eq_some hb, hb⟩

omit [DecidableEq τ] in
theorem calls_object (h : ∀ t s, v ≠ .wrapper t s) : W.Calls (.object v) v := by
  cases v with
  | wrapper t s => exact absurd rfl (h t s)
  | newWrapper t => exact Or.inl rfl
  | function | staticMethod | none | other => rfl

theorem Agrees.of_single {m : Member} (hm : ∀ s ∈ slotdefs, s.name = name → s.member = m)
    (hin : ∃ s ∈ slotdefs, s.name = name) (hmissing : W.lookup type name = none → W.slot type m = none)
    (hcalls : ∀ v, W.lookup type name = some v → ∃ f, W.slot type m = some f ∧ W.Calls f v) : W.Agrees type name where
  missing := fun hnone s hs hname => hm s hs hname ▸ hmissing hnone
  set := fun v hv => by
    obtain ⟨s, hs, hname⟩ := hin
    obtain ⟨f, hf, -⟩ := hcalls v hv
    exact ⟨s, hs, hname, by rw [hm s hs hname, hf]; rfl⟩
  calls := fun v hv s hs hname f hf => by
    obtain ⟨f', hf', hcall⟩ := hcalls v hv
    rw [hm s hs hname, hf'] at hf
    obtain rfl := Option.some.inj hf
    exact hcall
  all := fun v hv _ s hs hname => by
    obtain ⟨f, hf, -⟩ := hcalls v hv
    rw [hm s hs hname, hf]
    rfl

/-- What the last update makes of a slot that the class has from its namespace or inherits. -/
theorem Behind.regular_slot (h : W.Behind type rest name) (hregular : Regular name)
    (hsound : W.SlotSound rest namespace_ descriptors name)
    (hfix : W.fixupSlots type rest (W.ready type base rest descriptors (initialized namespace_)) = some d)
    {s : Slotdef} (hs : s ∈ slotdefs) (hname : s.name = name) :
    ∃ d₁ d₂, d₁.slot s.member = ((namespace_ name).map .object).or
        (if s.member ∈ inheritable then rest.findSome? (W.slot · s.member) else none) ∧
      d.slot s.member = d₂.slot s.member ∧
      ((d₁.slot s.member = none ∧ d₂ = d₁) ∨ (W.found rest namespace_ name = none ∧ d₂.slot s.member = none) ∨
        (∃ base slot f, W.found rest namespace_ name = some (.wrapper base slot) ∧ (d₁.slot s.member).isSome ∧
          d₂.slot s.member = some f ∧ (f = .forward base slot ∧ d₁.duplicates s.name ∨
            W.memberOf type d₁ base s.member = some f ∨ W.memberOf type d₁ base slot.member = some f)) ∨
        ∃ v, W.found rest namespace_ name = some v ∧ (∀ t slot, v ≠ .wrapper t slot) ∧ d₂ = d₁) := by
  obtain ⟨hready, hmember⟩ := h.ready_regular base hregular hsound hs hname
  obtain ⟨d₁, d₂, hd₁, hs₁, hupdate, hfinal⟩ := fixup_slot slotdefs _ slotdefs_nodup hfix hs
    (slotdefs_member s hs (hname ▸ hregular))
  refine ⟨d₁, d₂, hs₁.trans hmember, hfinal, ?_⟩
  have hcases := updateSlot_cases hupdate (hname ▸ hregular.2.2)
  have hfound : (d₁.dict s.name).or (rest.findSome? (W.dict · s.name)) = W.found rest namespace_ name := by
    rw [hd₁, hname, hready, found]
  rwa [hfound] at hcases

/-- The first class that finds an inherited method gives all its slots, and they call it. -/
theorem Behind.inherited_calls (h : W.Behind type rest name) (hsound : W.SlotSound rest namespace_ descriptors name)
    {v : Value τ ο} (hnone : namespace_ name = none) (hv : W.found rest namespace_ name = some v)
    (hwrapper : ∀ t s, v ≠ .wrapper t s) {s : Slotdef} (hs : s ∈ slotdefs) (hname : s.name = name) :
    ∃ f, rest.findSome? (W.slot · s.member) = some f ∧ W.Calls f v := by
  have hrest : W.found rest namespace_ name = rest.findSome? (W.dict · name) := by rw [found, hnone, Option.none_or]
  obtain ⟨b, hb, hfinder⟩ := h.firstFinder_some (hrest.symm.trans hv)
  have hb' := ((hsound.inherited hnone v hv).2.resolve_left fun ⟨t, s, he⟩ => hwrapper t s he) b hfinder
  have hall := (h.agrees b hb).all v hb' hwrapper s hs hname
  obtain ⟨f, hf⟩ := Option.isSome_iff_exists.mp hall
  exact ⟨f, (h.findSome?_slot hfinder hs hname hall).2.trans hf, (h.agrees b hb).calls v hb' s hs hname f hf⟩

/-- A class that is created soundly for a special method agrees about it. -/
theorem Behind.agrees_regular (h : W.Behind type rest name) (hns : ∀ v, namespace_ name = some v → W.Known v)
    (hregular : Regular name) (hin : ∃ s ∈ slotdefs, s.name = name)
    (hsound : W.SlotSound rest namespace_ descriptors name)
    (hfix : W.fixupSlots type rest (W.ready type base rest descriptors (initialized namespace_)) = some d) :
    (W.extend type rest d).Agrees type name := by
  have hdict : d.dict name = namespace_ name := by
    obtain ⟨s, hs, hname⟩ := hin
    rw [fixup_dict _ _ hfix]
    exact (h.ready_regular base hregular hsound hs hname).1
  have hlookup : (W.extend type rest d).lookup type name = W.found rest namespace_ name := by
    rw [lookup_new h.notMem, hdict, found]
  have hset (s : Slotdef) (hs : s ∈ slotdefs) (hname : s.name = name) {v : Value τ ο}
      (hv : W.found rest namespace_ name = some v) (hready : (((namespace_ name).map Fn.object).or
        (if s.member ∈ inheritable then rest.findSome? (W.slot · s.member) else none)).isSome) :
      (d.slot s.member).isSome := by
    obtain ⟨d₁, d₂, hmember, hfinal, hcases⟩ := h.regular_slot hregular hsound hfix hs hname
    rw [hfinal]
    rcases hcases with ⟨hnone, -⟩ | ⟨hnone, -⟩ | ⟨_, _, f, -, -, hf, -⟩ | ⟨_, -, -, rfl⟩
    · rw [← hmember, hnone] at hready
      cases hready
    · rw [hv] at hnone
      cases hnone
    · rw [hf]
      rfl
    · rw [hmember]
      exact hready
  have hown {v : Value τ ο} (hown : namespace_ name = some v) : W.found rest namespace_ name = some v := by
    rw [found, hown, Option.some_or]
  have hrest (hown : namespace_ name = none) : W.found rest namespace_ name = rest.findSome? (W.dict · name) := by
    rw [found, hown, Option.none_or]
  refine { missing := ?_, set := ?_, calls := ?_, all := ?_ }
  · intro hnone s hs hname
    rw [hlookup] at hnone
    obtain ⟨d₁, d₂, -, hfinal, hcases⟩ := h.regular_slot hregular hsound hfix hs hname
    rw [extend_slot, hfinal]
    rcases hcases with ⟨hempty, rfl⟩ | ⟨-, hempty⟩ | ⟨_, _, _, hv, -⟩ | ⟨_, hv, -⟩
    · exact hempty
    · exact hempty
    · rw [hnone] at hv
      cases hv
    · rw [hnone] at hv
      cases hv
  · intro v hv
    rw [hlookup] at hv
    simp only [extend_slot]
    cases hns : namespace_ name with
    | some v' =>
      obtain ⟨s, hs, hname⟩ := hin
      exact ⟨s, hs, hname, hset s hs hname hv (by simp [hns])⟩
    | none =>
      obtain ⟨s, hs, hname, hsome⟩ := h.slot_isSome ((hrest hns).symm.trans hv)
      refine ⟨s, hs, hname, hset s hs hname hv ?_⟩
      rw [hns, if_pos ((hsound.inherited hns v hv).1 s hs hname)]
      exact hsome
  · intro v hv s hs hname f hf
    rw [hlookup] at hv
    have hknown := h.found_known hns hv
    refine Calls.extend h.fresh hknown ?_
    obtain ⟨d₁, d₂, hmember, hfinal, hcases⟩ := h.regular_slot hregular hsound hfix hs hname
    rw [extend_slot, hfinal] at hf
    rcases hcases with ⟨hempty, rfl⟩ | ⟨hnone, -⟩ | ⟨b, slot, f', hv', -, hf', hcalls⟩ | ⟨v', hv', hwrapper, rfl⟩
    · rw [hempty] at hf
      cases hf
    · rw [hv] at hnone
      cases hnone
    · rw [hf] at hf'
      obtain rfl := Option.some.inj hf'
      rw [hv] at hv'
      obtain rfl := Option.some.inj hv'
      have hb : b ≠ type := fun he => h.fresh (he ▸ hknown)
      rw [memberOf_old hb, memberOf_old hb] at hcalls
      rcases hcalls with ⟨rfl, -⟩ | hm | hm
      · exact Or.inr (Or.inl rfl)
      · exact hsound.wrapper _ hv b slot rfl s hs hname f hm
      · exact Or.inr (Or.inr hm)
    · rw [hv] at hv'
      obtain rfl := Option.some.inj hv'
      rw [hmember] at hf
      cases hns : namespace_ name with
      | some v'' =>
        rw [hown hns] at hv
        rw [hns, Option.map_some, Option.some_or] at hf
        obtain rfl := Option.some.inj hf
        obtain rfl := Option.some.inj hv
        exact calls_object hwrapper
      | none =>
        obtain ⟨f', hf', hcalls⟩ := h.inherited_calls hsound hns hv hwrapper hs hname
        rw [hns, Option.map_none, Option.none_or, if_pos ((hsound.inherited hns v hv).1 s hs hname), hf'] at hf
        obtain rfl := Option.some.inj hf
        exact hcalls
  · intro v hv hwrapper s hs hname
    rw [hlookup] at hv
    rw [extend_slot]
    refine hset s hs hname hv ?_
    cases hns : namespace_ name with
    | some v' => rfl
    | none =>
      obtain ⟨f, hf, -⟩ := h.inherited_calls hsound hns hv hwrapper hs hname
      rw [if_pos ((hsound.inherited hns v hv).1 s hs hname), hf]
      rfl

/-! ### `__new__` -/

theorem newSlot_unique : ∀ s ∈ slotdefs, s.member = newMember → s = .ofType "__new__" := by decide +kernel

omit [DecidableEq τ] in
/-- `add_operators` leaves `__new__` to `initialize`. -/
theorem addOperators_new : ∀ (l : List Slotdef) (d : Draft τ ο φ), (∀ s ∈ l, s ∈ slotdefs) →
    (l.foldl (·.addOperator type ·) d).dict "__new__" = d.dict "__new__" ∧
      (l.foldl (·.addOperator type ·) d).slot newMember = d.slot newMember
  | [], _, _ => ⟨rfl, rfl⟩
  | s :: l, d, hl => by
    rw [List.foldl_cons]
    obtain ⟨hdict, hslot⟩ := addOperators_new l (d.addOperator type s) fun s' hs' => hl s' (List.mem_cons_of_mem _ hs')
    rw [hdict, hslot]
    by_cases hname : s.name = "__new__"
    · simp [Draft.addOperator, hname]
    · refine ⟨?_, Draft.addOperator_slot_ne fun he => hname ((slotdefs_new s (hl s List.mem_cons_self)).mpr he)⟩
      unfold Draft.addOperator
      rw [if_neg hname]
      split
      · rfl
      · split
        · exact Draft.setDict_dict_ne hname
        · rfl

/-- `__new__` of a namespace: a function is a static method. -/
def ownNew (namespace_ : String → Option (Value τ ο)) : Option (Value τ ο) :=
  (initialized namespace_ : Draft τ ο Unit).dict "__new__"

omit [DecidableEq τ] in
theorem initialized_new : (initialized namespace_ : Draft τ ο φ).dict "__new__" = ownNew namespace_ ∧
    (initialized namespace_ : Draft τ ο φ).slot newMember = (ownNew namespace_).map .object := by
  unfold ownNew initialized
  cases hown : namespace_ "__new__" with
  | none => simp [hown]
  | some v => simp

omit [DecidableEq τ] in
theorem ownNew_eq_none : ownNew namespace_ = none ↔ namespace_ "__new__" = none := by
  unfold ownNew initialized
  cases hown : namespace_ "__new__" with
  | none => simp [hown]
  | some v => simp

omit [DecidableEq τ] in
theorem ownNew_sound (hown : namespace_ "__new__" = some v)
    (h : (∀ t s, v ≠ .wrapper t s) ∧ ∀ t, v ≠ .newWrapper t) :
    ∃ v', ownNew namespace_ = some v' ∧ (∀ t s, v' ≠ .wrapper t s) ∧ ∀ t, v' ≠ .newWrapper t := by
  unfold ownNew initialized
  rw [hown]
  cases v with
  | wrapper t s => exact absurd rfl (h.1 t s)
  | newWrapper t => exact absurd rfl (h.2 t)
  | function | staticMethod | none | other => exact ⟨_, by simp; rfl, by simp, by simp⟩

omit [DecidableEq τ] in
theorem ready_new (W : World τ ο φ) (type base : τ) (rest : List τ) (h : namespace_ "__new__" = none → descriptors "__new__" = none) :
    (W.ready type base rest descriptors (initialized namespace_)).dict "__new__" = ownNew namespace_ ∧
      (W.ready type base rest descriptors (initialized namespace_)).slot newMember =
        ((ownNew namespace_).map .object).or (W.slot base newMember) := by
  obtain ⟨hdict, hslot⟩ : (initialized namespace_ : Draft τ ο φ).dict "__new__" = ownNew namespace_ ∧
    (initialized namespace_ : Draft τ ο φ).slot newMember = (ownNew namespace_).map .object := initialized_new
  obtain ⟨hfoldDict, hfoldSlot⟩ := @addOperators_new τ ο φ type slotdefs (initialized namespace_) fun _ hs => hs
  have hadded : ((initialized namespace_ : Draft τ ο φ).addOperators type).dict "__new__" = ownNew namespace_ ∧
      ((initialized namespace_ : Draft τ ο φ).addOperators type).slot newMember = (ownNew namespace_).map .object := by
    unfold Draft.addOperators
    dsimp only
    rw [hfoldDict, hfoldSlot, hdict, hslot]
    rw [if_neg]
    · exact ⟨hfoldDict.trans hdict, hfoldSlot.trans hslot⟩
    · cases ownNew namespace_ <;> simp
  unfold ready
  rw [Draft.addHash_dict_ne (by decide), Draft.addHash_slot_ne (by decide), inherit_dict, inherit_slot,
    if_neg (by decide), Option.or_none]
  simp only [inheritSpecial, Draft.setSlot_dict, Draft.setSlot_slot, Draft.addDescriptors, hadded, and_true]
  cases hown : namespace_ "__new__" with
  | none => simp [h hown]
  | some v => simp [ownNew, initialized, hown]

theorem updateSlot_keeps (h : W.updateSlot type rest d s = some d')
    (hv : (d.dict s.name).or (rest.findSome? (W.dict · s.name)) = some v) (hwrapper : ∀ t slot, v ≠ .wrapper t slot)
    (hnew : ∀ t, v = .newWrapper t → ∃ g, d.slot s.member = some (.native g)) : d' = d := by
  unfold updateSlot at h
  rw [hv] at h
  split at h
  · cases h
    rfl
  · cases v with
    | wrapper t slot => exact absurd rfl (hwrapper t slot)
    | newWrapper t =>
      obtain ⟨g, hg⟩ := hnew t rfl
      rw [hg] at h
      simp only [ite_self] at h
      exact (Option.some.inj h).symm
    | none =>
      dsimp only at h
      split at h
      · cases h
      · exact (Option.some.inj h).symm
    | function | staticMethod | other => exact (Option.some.inj h).symm

/-- A class that is created soundly for `__new__` agrees about it. -/
theorem Behind.agrees_new (h : W.Behind type rest "__new__") (hns' : ∀ v, namespace_ "__new__" = some v → W.Known v)
    (hbase : base ∈ rest) (hsound : W.NewSound base rest namespace_ descriptors)
    (hfix : W.fixupSlots type rest (W.ready type base rest descriptors (initialized namespace_)) = some d) :
    (W.extend type rest d).Agrees type "__new__" := by
  obtain ⟨hdict, hslot⟩ := ready_new W type base rest hsound.descriptors
  obtain ⟨d₁, d₂, hd₁, hs₁, hupdate, hfinal⟩ := fixup_slot slotdefs _ slotdefs_nodup hfix
    (show Slotdef.ofType "__new__" ∈ slotdefs by decide) newSlot_unique
  have hfinal : d.slot newMember = d₂.slot newMember := hfinal
  have hlookup : (W.extend type rest d).lookup type "__new__" =
      (ownNew namespace_).or (rest.findSome? (W.dict · "__new__")) := by
    rw [lookup_new h.notMem, fixup_dict _ _ hfix, hdict]
  have hmember : d₁.slot newMember = ((ownNew namespace_).map .object).or (W.slot base newMember) := hs₁.trans hslot
  have hfound : (d₁.dict "__new__").or (rest.findSome? (W.dict · "__new__")) =
      (ownNew namespace_).or (rest.findSome? (W.dict · "__new__")) := by
    rw [hd₁, hdict]
  refine .of_single (fun s hs hname => (slotdefs_new s hs).mp hname) ⟨.ofType "__new__", by decide, rfl⟩ ?_ ?_
  · intro hnone
    rw [hlookup] at hnone
    obtain ⟨hown, hrest⟩ := Option.or_eq_none_iff.mp hnone
    have hns : namespace_ "__new__" = none := ownNew_eq_none.mp hown
    have hbaseNone := (hsound.inherited hns).1
    rw [found, hns, Option.none_or, hrest] at hbaseNone
    have hbaseSlot : W.slot base newMember = none :=
      (h.agrees base hbase).missing hbaseNone (.ofType "__new__") (by decide) rfl
    have hempty : d₁.slot newMember = none := by
      rw [hmember, hown, hbaseSlot]
      rfl
    have hd₂ : d₂ = d₁ := by
      unfold updateSlot at hupdate
      rw [if_pos (by rw [Option.isNone_iff_eq_none]; exact hempty)] at hupdate
      exact (Option.some.inj hupdate).symm
    rw [extend_slot, ← hempty, ← hd₂]
    exact hfinal
  · intro v hv
    rw [hlookup] at hv
    have hkeeps := updateSlot_keeps hupdate (hfound.trans hv)
    cases hns : namespace_ "__new__" with
    | some v₀ =>
      obtain ⟨v₁, hv₁, hwrapper, hnew⟩ := ownNew_sound hns (hsound.own v₀ hns)
      rw [hv₁, Option.some_or] at hv
      obtain rfl := Option.some.inj hv
      have hd₂ := hkeeps hwrapper fun t he => absurd he (hnew t)
      refine ⟨.object v₁, ?_, calls_object hwrapper⟩
      rw [extend_slot, hfinal.trans (congrArg (·.slot newMember) hd₂), hmember, hv₁]
      rfl
    | none =>
      have hown : ownNew namespace_ = none := ownNew_eq_none.mpr hns
      rw [hown, Option.none_or] at hv
      obtain ⟨hlook, hinherited⟩ := hsound.inherited hns
      have hf : W.found rest namespace_ "__new__" = some v := by rw [found, hns, Option.none_or, hv]
      rw [hf] at hlook
      obtain ⟨hwrapper, hnative⟩ := hinherited v hf
      obtain ⟨s, hs, hname, hset⟩ := (h.agrees base hbase).set v hlook
      have hmember' : s.member = newMember := (slotdefs_new s hs).mp hname
      rw [hmember'] at hset
      obtain ⟨f, hslotBase⟩ := Option.isSome_iff_exists.mp hset
      have hslot₁ : d₁.slot newMember = some f := by rw [hmember, hown, hslotBase]; rfl
      have hd₂ := hkeeps hwrapper fun t he => by
        obtain ⟨g, hg⟩ := hnative t he
        exact ⟨g, (hslot₁.trans hslotBase.symm).trans hg⟩
      refine ⟨f, ?_, ((h.agrees base hbase).calls v hlook s hs hname f (hmember' ▸ hslotBase)).extend h.fresh
        (h.found_known hns' hf)⟩
      rw [extend_slot, hfinal.trans (congrArg (·.slot newMember) hd₂), hslot₁]

/-! ### `__getattribute__` and `__getattr__` -/

def attributeMember : Member := ⟨.type, "__getattribute__"⟩

def getattrSlot : Slotdef := ⟨"__getattr__", attributeMember⟩

theorem slotdefs_eq : slotdefs = .ofType "__getattribute__" :: getattrSlot :: slotdefs.drop 2 := rfl

theorem slotdefs_attribute : ∀ s ∈ slotdefs, s.name = "__getattribute__" ∨ s.name = "__getattr__" →
    s.member = attributeMember := by decide +kernel

theorem others_ne : ∀ s ∈ slotdefs.drop 2,
    s.member ≠ attributeMember ∧ s.name ≠ "__getattribute__" ∧ s.name ≠ "__getattr__" := by decide +kernel

omit [DecidableEq τ] in
theorem getattr_not_duplicated : d.duplicates "__getattr__" = false := by
  have hone : (slotdefs.filter fun s => s.name = "__getattr__") = [getattrSlot] := by decide +kernel
  have hle : (slotdefs.filter fun s => s.name = "__getattr__" ∧ (d.slot s.member).isSome).length ≤ 1 := by
    rw [← List.length_singleton (a := getattrSlot), ← hone]
    exact (List.monotone_filter_right _ fun s hs => by simp_all).length_le
  unfold Draft.duplicates
  rw [decide_eq_false_iff_not]
  omega

omit [DecidableEq τ] in
/-- `add_operators` of a class without a `__getattr__`: an own `__getattribute__`
gives the slot, and with it a slot wrapper for `__getattr__`. -/
theorem addOperators_attribute (h : namespace_ "__getattr__" = none) :
    ((initialized namespace_ : Draft τ ο φ).addOperators type).dict "__getattribute__" = namespace_ "__getattribute__" ∧
    ((initialized namespace_ : Draft τ ο φ).addOperators type).dict "__getattr__" =
      (namespace_ "__getattribute__").map (fun _ => .wrapper type getattrSlot) ∧
    ((initialized namespace_ : Draft τ ο φ).addOperators type).slot attributeMember =
      (namespace_ "__getattribute__").map .object := by
  have hslot₀ : (initialized namespace_ : Draft τ ο φ).slot attributeMember = none := initialized_slot (by decide)
  have hdict₀ : (initialized namespace_ : Draft τ ο φ).dict "__getattribute__" = namespace_ "__getattribute__" :=
    initialized_dict (by decide)
  have hgetattr₀ : (initialized namespace_ : Draft τ ο φ).dict "__getattr__" = none :=
    (initialized_dict (by decide)).trans h
  have htwo : ∃ d₂ : Draft τ ο φ, slotdefs.foldl (·.addOperator type ·) (initialized namespace_ : Draft τ ο φ) =
      (slotdefs.drop 2).foldl (·.addOperator type ·) d₂ ∧
      d₂.dict "__getattribute__" = namespace_ "__getattribute__" ∧
      d₂.dict "__getattr__" = (namespace_ "__getattribute__").map (fun _ => .wrapper type getattrSlot) ∧
      d₂.slot attributeMember = (namespace_ "__getattribute__").map .object := by
    rw [slotdefs_eq, List.foldl_cons, List.foldl_cons]
    refine ⟨_, rfl, ?_⟩
    cases hown : namespace_ "__getattribute__" with
    | none =>
      rw [hown] at hdict₀
      have hfirst : (initialized namespace_ : Draft τ ο φ).addOperator type (.ofType "__getattribute__") =
          initialized namespace_ := by
        simp [Draft.addOperator, Slotdef.ofType, hdict₀, show (initialized namespace_ : Draft τ ο φ).slot
          ⟨.type, "__getattribute__"⟩ = none from hslot₀]
      have hsecond : (initialized namespace_ : Draft τ ο φ).addOperator type getattrSlot = initialized namespace_ := by
        simp [Draft.addOperator, getattrSlot, hgetattr₀, hslot₀]
      rw [hfirst, hsecond]
      exact ⟨hdict₀, hgetattr₀, hslot₀⟩
    | some v =>
      rw [hown] at hdict₀
      have hfirst : (initialized namespace_ : Draft τ ο φ).addOperator type (.ofType "__getattribute__") =
          (initialized namespace_).setSlot attributeMember (some (.object v)) := by
        simp [Draft.addOperator, Slotdef.ofType, hdict₀, attributeMember]
      rw [hfirst]
      simp [Draft.addOperator, getattrSlot, hgetattr₀, hdict₀, Draft.setDict]
  obtain ⟨d₂, hfold, hdict, hgetattr, hslot⟩ := htwo
  have hdictFold (name : String) (hne : ∀ s ∈ slotdefs.drop 2, s.name ≠ name) :
      (slotdefs.foldl (·.addOperator type ·) (initialized namespace_ : Draft τ ο φ)).dict name = d₂.dict name := by
    rw [hfold]
    exact Draft.addOperators_dict_ne _ _ hne
  have hslotFold : (slotdefs.foldl (·.addOperator type ·) (initialized namespace_ : Draft τ ο φ)).slot attributeMember =
      d₂.slot attributeMember := by
    rw [hfold]
    exact Draft.addOperators_slot_ne _ _ fun s hs => (others_ne s hs).1
  have hadded (name : String) (hne : name ≠ "__new__") :
      ((initialized namespace_ : Draft τ ο φ).addOperators type).dict name =
        (slotdefs.foldl (·.addOperator type ·) (initialized namespace_ : Draft τ ο φ)).dict name := by
    unfold Draft.addOperators
    dsimp only
    split
    · exact Draft.setDict_dict_ne hne.symm
    · rfl
  have haddedSlot : ((initialized namespace_ : Draft τ ο φ).addOperators type).slot =
      (slotdefs.foldl (·.addOperator type ·) (initialized namespace_ : Draft τ ο φ)).slot := by
    unfold Draft.addOperators
    dsimp only
    split <;> rfl
  refine ⟨?_, ?_, ?_⟩
  · rw [hadded _ (by decide), hdictFold _ fun s hs => (others_ne s hs).2.1, hdict]
  · rw [hadded _ (by decide), hdictFold _ fun s hs => (others_ne s hs).2.2, hgetattr]
  · rw [haddedSlot, hslotFold, hslot]

omit [DecidableEq τ] in
theorem ready_attribute (W : World τ ο φ) (type base : τ) (rest : List τ)
    (hsound : W.AttributeSound rest namespace_ descriptors) :
    (W.ready type base rest descriptors (initialized namespace_)).dict "__getattribute__" =
        namespace_ "__getattribute__" ∧
      (W.ready type base rest descriptors (initialized namespace_)).dict "__getattr__" =
        (namespace_ "__getattribute__").map (fun _ => .wrapper type getattrSlot) ∧
      (W.ready type base rest descriptors (initialized namespace_)).slot attributeMember =
        ((namespace_ "__getattribute__").map .object).or (rest.findSome? (W.slot · attributeMember)) := by
  obtain ⟨hdict, hgetattr, hslot⟩ := @addOperators_attribute τ ο φ type namespace_ hsound.getattr
  unfold ready
  rw [Draft.addHash_dict_ne (by decide), Draft.addHash_dict_ne (by decide), Draft.addHash_slot_ne (by decide),
    inherit_dict, inherit_slot, if_pos (by decide)]
  simp only [inheritSpecial, Draft.setSlot_dict]
  rw [Draft.setSlot_slot_ne _ (by decide)]
  simp only [Draft.addDescriptors, hdict, hgetattr, hslot, hsound.descriptors, Option.or_none, and_self]

/-- A slot that is set stays set where something is found, and calls it unless a
wrapper or an object that is none takes it elsewhere. -/
theorem updateSlot_some (h : W.updateSlot type rest d s = some d') (hname : s.name ≠ "__new__")
    (hv : (d.dict s.name).or (rest.findSome? (W.dict · s.name)) = some v) (hf : d.slot s.member = some f) :
    ∃ f', d'.slot s.member = some f' ∧ ((∀ t slot, v ≠ .wrapper t slot) → f' = f) ∧
      ∀ t slot, v = .wrapper t slot → f' = .forward t slot ∧ d.duplicates s.name ∨
        W.memberOf type d t s.member = some f' ∨ W.memberOf type d t slot.member = some f' := by
  obtain ⟨hempty, -⟩ | ⟨hnone, -⟩ | ⟨b, slot, f', hv', -, hf', hcalls⟩ | ⟨v', hv', hwrapper, rfl⟩ :=
    updateSlot_cases h hname
  · rw [hf] at hempty
    cases hempty
  · rw [hv] at hnone
    cases hnone
  · rw [hv] at hv'
    obtain rfl := Option.some.inj hv'
    refine ⟨f', hf', fun hwrapper => absurd rfl (hwrapper b slot), fun t slot' he => ?_⟩
    cases he
    exact hcalls
  · rw [hv] at hv'
    obtain rfl := Option.some.inj hv'
    exact ⟨f, hf, fun _ => rfl, fun t slot he => absurd he (hwrapper t slot)⟩

/-- A class that is created soundly for `__getattribute__` and `__getattr__` agrees about them. -/
theorem Behind.agrees_attribute (h : W.Behind type rest name) (hname : name = "__getattribute__" ∨ name = "__getattr__")
    (hns : ∀ v, namespace_ "__getattribute__" = some v → W.Known v)
    (hsound : W.AttributeSound rest namespace_ descriptors)
    (hfix : W.fixupSlots type rest (W.ready type base rest descriptors (initialized namespace_)) = some d) :
    (W.extend type rest d).Agrees type name := by
  obtain ⟨hdict, hgetattr, hslot⟩ := ready_attribute W type base rest hsound
  have hfinalDict := fixup_dict _ _ hfix
  unfold fixupSlots at hfix
  rw [slotdefs_eq, List.foldlM_cons] at hfix
  obtain ⟨d₁, h₁, hfix⟩ := Option.bind_eq_some_iff.mp hfix
  rw [List.foldlM_cons] at hfix
  obtain ⟨d₂, h₂, hfix⟩ := Option.bind_eq_some_iff.mp hfix
  have hfinal : d.slot attributeMember = d₂.slot attributeMember :=
    fixup_slot_ne _ _ hfix fun s hs => (others_ne s hs).1
  have hd₁ := updateSlot_dict h₁
  -- the one slot and what the two names find
  suffices ∃ f v t slot, d₂.slot attributeMember = some f ∧
      (d.dict "__getattribute__").or (rest.findSome? (W.dict · "__getattribute__")) = some v ∧
      (d.dict "__getattr__").or (rest.findSome? (W.dict · "__getattr__")) = some (.wrapper t slot) ∧
      (W.extend type rest d).Calls f v ∧ (W.extend type rest d).Calls f (.wrapper t slot) by
    obtain ⟨f, v, t, slot, hf, hv, hw, hcallsV, hcallsW⟩ := this
    obtain ⟨v', hv', hcalls⟩ : ∃ v', (d.dict name).or (rest.findSome? (W.dict · name)) = some v' ∧
        (W.extend type rest d).Calls f v' := by
      rcases hname with rfl | rfl
      · exact ⟨v, hv, hcallsV⟩
      · exact ⟨_, hw, hcallsW⟩
    refine .of_single (m := attributeMember) (fun s hs he => slotdefs_attribute s hs (he ▸ hname)) ?_ ?_ ?_
    · rcases hname with rfl | rfl
      · exact ⟨.ofType "__getattribute__", by decide, rfl⟩
      · exact ⟨getattrSlot, by decide, rfl⟩
    · intro hnone
      rw [lookup_new h.notMem, hv'] at hnone
      cases hnone
    · intro v'' hv''
      rw [lookup_new h.notMem, hv'] at hv''
      obtain rfl := Option.some.inj hv''
      exact ⟨f, by rw [extend_slot, hfinal, hf], hcalls⟩
  cases hown : namespace_ "__getattribute__" with
  | some v =>
    rw [hown, Option.map_some] at hgetattr
    rw [hown, Option.map_some, Option.some_or] at hslot
    rw [hown] at hdict
    obtain ⟨f₁, hf₁, hkeeps, hwrapper⟩ := updateSlot_some h₁ (by decide) (v := v)
      (by rw [show Slotdef.name (.ofType "__getattribute__") = "__getattribute__" from rfl, hdict]; rfl) hslot
    have hknown := hns v hown
    have hcalls : W.Calls f₁ v := by
      by_cases hw : ∃ t slot, v = .wrapper t slot
      · obtain ⟨t, slot, rfl⟩ := hw
        have ht : t ≠ type := fun he => h.fresh (he ▸ hknown)
        have hcases := hwrapper t slot rfl
        rw [memberOf_old ht, memberOf_old ht] at hcases
        rcases hcases with ⟨rfl, -⟩ | hm | hm
        · exact Or.inr (Or.inl rfl)
        · exact hsound.own _ hown t slot rfl (.ofType "__getattribute__") (by decide) rfl f₁ hm
        · exact Or.inr (Or.inr hm)
      · have hnot : ∀ t slot, v ≠ .wrapper t slot := fun t slot he => hw ⟨t, slot, he⟩
        rw [hkeeps hnot]
        exact calls_object hnot
    have hgetattr₁ : d₁.dict "__getattr__" = some (.wrapper type getattrSlot) := by rw [hd₁, hgetattr]
    obtain ⟨f₂, hf₂, -, hwrapper₂⟩ := updateSlot_some h₂ (by decide) (v := .wrapper type getattrSlot)
      (by rw [show Slotdef.name getattrSlot = "__getattr__" from rfl, hgetattr₁]; rfl) hf₁
    have heq : f₂ = f₁ := by
      rcases hwrapper₂ type getattrSlot rfl with ⟨-, hdup⟩ | hm | hm
      · rw [show Slotdef.name getattrSlot = "__getattr__" from rfl, getattr_not_duplicated] at hdup
        cases hdup
      all_goals
        rw [memberOf, if_pos rfl] at hm
        exact Option.some.inj (hm.symm.trans hf₁)
    obtain rfl := heq
    refine ⟨f₂, v, type, getattrSlot, hf₂, by rw [hfinalDict, hdict]; rfl, by rw [hfinalDict, hgetattr]; rfl,
      hcalls.extend h.fresh hknown, Or.inr (Or.inr ?_)⟩
    rw [extend_slot, show getattrSlot.member = attributeMember from rfl, hfinal]
    exact hf₂
  | none =>
    obtain ⟨t, slot, hw, hmember, v, hv, hcalls⟩ := hsound.inherited hown
    have hgetattrRest : rest.findSome? (W.dict · "__getattr__") = some (.wrapper t slot) := by
      rwa [found, hsound.getattr, Option.none_or] at hw
    have hrest : rest.findSome? (W.dict · "__getattribute__") = some v := by rwa [found, hown, Option.none_or] at hv
    rw [hown, Option.map_none] at hgetattr
    rw [hown, Option.map_none, Option.none_or] at hslot
    rw [hown] at hdict
    obtain ⟨f₀, hf₀⟩ : ∃ f₀, rest.findSome? (W.slot · attributeMember) = some f₀ := by
      have hbehind : ∃ v', rest.findSome? (W.dict · name) = some v' := by
        rcases hname with rfl | rfl
        · exact ⟨v, hrest⟩
        · exact ⟨_, hgetattrRest⟩
      obtain ⟨v', hv'⟩ := hbehind
      obtain ⟨s, hs, hn, hset⟩ := h.slot_isSome hv'
      rw [slotdefs_attribute s hs (hn ▸ hname)] at hset
      exact Option.isSome_iff_exists.mp hset
    obtain ⟨f₁, hf₁, -, -⟩ := updateSlot_some h₁ (by decide) (v := v)
      (by rw [show Slotdef.name (.ofType "__getattribute__") = "__getattribute__" from rfl, hdict, Option.none_or]; exact hrest)
      (hslot.trans hf₀)
    obtain ⟨f₂, hf₂, -, hwrapper₂⟩ := updateSlot_some h₂ (by decide) (v := .wrapper t slot)
      (by rw [show Slotdef.name getattrSlot = "__getattr__" from rfl, hd₁, hgetattr, Option.none_or]; exact hgetattrRest) hf₁
    have hknown : W.Known (.wrapper t slot) := h.found_known (by simp [hsound.getattr]) hw
    have ht : t ≠ type := fun he => h.fresh (he ▸ hknown)
    have hf : W.slot t attributeMember = some f₂ := by
      have hcases := hwrapper₂ t slot rfl
      rw [memberOf_old ht, memberOf_old ht, hmember] at hcases
      rcases hcases with ⟨-, hdup⟩ | hm | hm
      · rw [show Slotdef.name getattrSlot = "__getattr__" from rfl, getattr_not_duplicated] at hdup
        cases hdup
      · exact hm
      · exact hm
    refine ⟨f₂, v, t, slot, hf₂, by rw [hfinalDict, hdict]; exact hrest, by rw [hfinalDict, hgetattr]; exact hgetattrRest,
      Calls.extend h.fresh (h.found_known (fun v hv => by rw [hown] at hv; cases hv) hv) (hcalls f₂ (by rw [hmember]; exact hf)),
      Calls.extend h.fresh hknown (Or.inr (Or.inr (by rw [hmember]; exact hf)))⟩

/-! ### Whole runs -/

theorem Agrees.faithful (h : W.Agrees type name) : W.Faithful type name := by
  unfold Faithful
  split
  · next hnone =>
    refine List.findSome?_eq_none_iff.mpr fun s hs => ?_
    obtain ⟨hs, hname⟩ := List.mem_filter.mp hs
    exact h.missing hnone s hs (of_decide_eq_true hname)
  · next v hv =>
    obtain ⟨s, hs, hname, hset⟩ := h.set v hv
    have hsome : (W.dispatch type name).isSome := by
      unfold dispatch
      rw [List.findSome?_isSome_iff]
      exact ⟨s, List.mem_filter.mpr ⟨hs, decide_eq_true hname⟩, hset⟩
    obtain ⟨f, hf⟩ := Option.isSome_iff_exists.mp hsome
    obtain ⟨s', hs', hslot⟩ := List.exists_of_findSome?_eq_some hf
    obtain ⟨hs', hname'⟩ := List.mem_filter.mp hs'
    exact ⟨f, hf, h.calls v hv s' hs' (of_decide_eq_true hname') f hslot⟩

/-- A new class leaves the agreement of the others. -/
theorem Agrees.extend {t : τ} (h : W.Agrees t name) (hnew : type ∉ W.types) (ht : t ∈ W.types)
    (hmro : ∀ b ∈ W.hierarchy.mroOf t, b ∈ W.types) (hknown : ∀ b name v, W.dict b name = some v → W.Known v) :
    (W.extend type rest d).Agrees t name := by
  have hne : t ≠ type := fun he => hnew (he ▸ ht)
  have hlookup : (W.extend type rest d).lookup t name = W.lookup t name :=
    lookup_old hne fun hin => hnew (hmro type hin)
  have hslot : (W.extend type rest d).slot t = W.slot t := extend_slot_ne hne
  have hv {v : Value τ ο} (hv : W.lookup t name = some v) : W.Known v := by
    obtain ⟨b, -, hdict⟩ := List.exists_of_findSome?_eq_some hv
    exact hknown b name v hdict
  constructor
  · intro hnone
    rw [hlookup] at hnone
    rw [hslot]
    exact h.missing hnone
  · intro v hfound
    rw [hlookup] at hfound
    rw [hslot]
    exact h.set v hfound
  · intro v hfound s hs hname f hf
    rw [hlookup] at hfound
    rw [hslot] at hf
    exact (h.calls v hfound s hs hname f hf).extend hnew (hv hfound)
  · intro v hfound
    rw [hlookup] at hfound
    rw [hslot]
    exact h.all v hfound

theorem Agrees.setattribute {t : τ} {name' : String} (h : W.Agrees t name)
    (hlookup : (W.setattribute type name' v).lookup t name = W.lookup t name) :
    (W.setattribute type name' v).Agrees t name := by
  have hcalls {f : Fn τ ο φ} {v' : Value τ ο} (hc : W.Calls f v') : (W.setattribute type name' v).Calls f v' := by
    cases v' <;> exact hc
  constructor
  · intro hnone
    exact h.missing (hlookup ▸ hnone)
  · intro v' hv'
    exact h.set v' (hlookup ▸ hv')
  · intro v' hv' s hs hname f hf
    exact hcalls (h.calls v' (hlookup ▸ hv') s hs hname f hf)
  · intro v' hv'
    exact h.all v' (hlookup ▸ hv')

omit [DecidableEq τ] in
/-- The values in the dictionary of a new class are there. -/
theorem ready_known {P : Value τ ο → Prop} (hns : ∀ name v, namespace_ name = some v → P v)
    (hdesc : ∀ name v, descriptors name = some v → P v) (hstatic : ∀ o, P (.staticMethod o)) (hnone : P .none)
    (hwrapper : ∀ s, P (.wrapper type s)) (hnewWrapper : P (.newWrapper type))
    (h : (W.ready type base rest descriptors (initialized namespace_)).dict name = some v) : P v := by
  have hinit : ∀ name v, (initialized namespace_ : Draft τ ο φ).dict name = some v → P v := by
    intro name v h
    by_cases he : name = "__new__"
    · obtain rfl := he
      unfold initialized at h
      cases hv₀ : namespace_ "__new__" with
      | none =>
        rw [hv₀] at h
        exact hns _ _ h
      | some v₀ =>
        have hP := hns _ _ hv₀
        rw [hv₀] at h
        cases v₀ <;> simp only [Function.update_self, Option.some.injEq] at h <;> subst h
        all_goals first
          | exact hstatic _
          | exact hP
    · rw [initialized_dict he] at h
      exact hns name v h
  have hset (d : Draft τ ο φ) (name' : String) (v' : Value τ ο) (hd : ∀ name v, d.dict name = some v → P v) (hv' : P v') :
      ∀ name v, (d.setDict name' v').dict name = some v → P v := by
    intro name v h
    by_cases he : name = name'
    · obtain rfl := he
      simp only [Draft.setDict, Function.update_self, Option.some.injEq] at h
      exact h ▸ hv'
    · rw [Draft.setDict_dict_ne (Ne.symm he)] at h
      exact hd name v h
  have hadd (d : Draft τ ο φ) (s : Slotdef) (hd : ∀ name v, d.dict name = some v → P v) :
      ∀ name v, (d.addOperator type s).dict name = some v → P v := by
    unfold Draft.addOperator
    split
    · exact hd
    · split
      · exact hd
      · split
        · exact hset d _ _ hd (hwrapper s)
        · exact hd
  have hfold : ∀ (l : List Slotdef) (d : Draft τ ο φ), (∀ name v, d.dict name = some v → P v) →
      ∀ name v, (l.foldl (·.addOperator type ·) d).dict name = some v → P v := by
    intro l
    induction l with
    | nil => exact fun d hd => hd
    | cons s l ih =>
      exact fun d hd => ih _ (hadd d s hd)
  have hadded : ∀ name v, ((initialized namespace_ : Draft τ ο φ).addOperators type).dict name = some v → P v := by
    unfold Draft.addOperators
    dsimp only
    split
    · exact hset _ _ _ (hfold _ _ hinit) hnewWrapper
    · exact hfold _ _ hinit
  have hinherited : ∀ name v, (rest.foldl (fun d b => W.inheritSlots b d) (W.inheritSpecial base
      (((initialized namespace_).addOperators type).addDescriptors descriptors))).dict name = some v → P v := by
    intro name v h
    rw [inherit_dict] at h
    rcases Option.or_eq_some_iff.mp h with h | ⟨-, h⟩
    · exact hadded name v h
    · exact hdesc name v h
  unfold ready Draft.addHash at h
  split at h
  · exact hinherited name v h
  · split at h
    · exact hinherited name v h
    · exact hset _ _ _ hinherited hnone name v h

/-! ### Steps -/

omit [DecidableEq τ] in
theorem Known.mono {W' : World τ ο φ} (h : ∀ t ∈ W.types, t ∈ W'.types) (hv : W.Known v) : W'.Known v := by
  cases v with
  | wrapper t => exact h t hv
  | newWrapper t => exact h t hv
  | function | staticMethod | none | other => trivial

theorem mroOf_types {object t : τ} (h : W.WellFormed object) (ht : t ∈ W.types) :
    ∀ b ∈ W.hierarchy.mroOf t, b ∈ W.types := (h.built.mro_nodup _ (mem_mroOf ht)).2

theorem mroOf_self {object t : τ} (h : W.WellFormed object) (ht : t ∈ W.types) : t ∈ W.hierarchy.mroOf t :=
  List.mem_of_mem_head? (h.built.wellFormed _ (mem_mroOf ht)).head

/-- What the creation of a class has to go by. -/
structure Created (W W' : World τ ο φ) (object type base : τ) (rest : List τ) (d : Draft τ ο φ) : Prop where
  fresh : type ∉ W.types
  behind : ∀ b ∈ rest, b ∈ W.types
  base_mem : base ∈ rest
  built : Built object W'.hierarchy
  eq : W' = W.extend type rest d

theorem step_created {W' : World τ ο φ} {object : τ} {bases : List τ} (hwf : W.WellFormed object)
    (h : W.step (.create type bases namespace_ descriptors) = some W') :
    ∃ base rest d, bases.head? = some base ∧ mro_ type (bases.map W.hierarchy.mroOf) = .order (type :: rest) ∧
      W.fixupSlots type rest (W.ready type base rest descriptors (initialized namespace_)) = some d ∧
      W.Created W' object type base rest d := by
  simp only [World.step] at h
  split at h
  · next hcond =>
    obtain ⟨hnew, hnodup, hbases⟩ := hcond
    obtain ⟨base, bases', rest, d, rfl, hmro, hfix, rfl⟩ := buildType_eq h
    have hbuilt : Built object (W.extend type rest d).hierarchy :=
      .create hwf.built hnew (by simp) hnodup hbases hmro
    obtain ⟨hnodupMro, hin⟩ := hbuilt.mro_nodup _ List.mem_cons_self
    have hrest : ∀ b ∈ rest, b ∈ W.types := by
      intro b hb
      have hne : b ≠ type := by
        intro h
        obtain rfl := h
        exact (List.nodup_cons.mp hnodupMro).1 hb
      exact (List.mem_cons.mp (hin b (List.mem_cons_of_mem _ hb))).resolve_left hne
    have hbase : base ∈ rest := by
      obtain ⟨hroot, -⟩ := wellFormed_mros hwf.built.wellFormed hbases
      have hlin := ((mro_eq_order_iff (Or.inr hroot)).mp hmro).linearizes
      exact (hlin.mem base).mpr ⟨_, List.mem_map_of_mem List.mem_cons_self,
        mroOf_self hwf (hbases base List.mem_cons_self)⟩
    exact ⟨base, rest, d, rfl, hmro, hfix, ⟨hnew, hrest, hbase, hbuilt, rfl⟩⟩
  · cases h

/-- A step keeps the world well formed. -/
theorem WellFormed.step {W' : World τ ο φ} {object : τ} {a : Action τ ο} (h : W.WellFormed object)
    (hstep : W.step a = some W') (hfits : W.Fits a) : W'.WellFormed object := by
  cases a with
  | create type bases namespace_ descriptors =>
    obtain ⟨base, rest, d, -, -, hfix, hcreated⟩ := step_created h hstep
    obtain rfl := hcreated.eq
    have hmono : ∀ t ∈ W.types, t ∈ (W.extend type rest d).types := fun t ht => List.mem_cons_of_mem _ ht
    have htype : type ∈ (W.extend type rest d).types := List.mem_cons_self
    refine ⟨hcreated.built, fun t name v hdict => ?_⟩
    by_cases ht : t = type
    · obtain rfl := ht
      simp only [extend, Function.update_self] at hdict
      rw [fixup_dict _ _ hfix] at hdict
      exact ready_known (fun name v hv => (hfits.1 name v hv).mono hmono) (fun name v hv => (hfits.2 name v hv).mono hmono)
        (fun _ => trivial) trivial (fun _ => htype) htype hdict
    · simp only [extend, Function.update_of_ne ht] at hdict
      exact (h.known t name v hdict).mono hmono
  | assign type name v =>
    simp only [World.step] at hstep
    split at hstep
    · cases hstep
      refine ⟨h.built, fun t name' v' hdict => ?_⟩
      by_cases ht : t = type
      · obtain rfl := ht
        simp only [setattribute, Function.update_self] at hdict
        by_cases hn : name' = name
        · obtain rfl := hn
          simp only [Function.update_self, Option.some.injEq] at hdict
          obtain rfl := hdict
          exact Known.mono (fun _ ht => ht) hfits
        · rw [Function.update_of_ne hn] at hdict
          exact Known.mono (fun _ ht => ht) (h.known _ _ _ hdict)
      · simp only [setattribute, Function.update_of_ne ht] at hdict
        exact Known.mono (fun _ ht => ht) (h.known _ _ _ hdict)
    · cases hstep

/-- A sound step keeps the classes in agreement. -/
theorem Agrees.step {W' : World τ ο φ} {object : τ} {K : τ → Prop} {a : Action τ ο}
    (hin : ∃ s ∈ slotdefs, s.name = name) (hwf : W.WellFormed object) (h : ∀ t ∈ W.types, K t → W.Agrees t name)
    (hstep : W.step a = some W') (hfits : W.Fits a) (hsound : W.Sound K name a) :
    ∀ t ∈ W'.types, K t → W'.Agrees t name := by
  cases a with
  | create type bases namespace_ descriptors =>
    obtain ⟨base, rest, d, hhead, hmro, hfix, hcreated⟩ := step_created hwf hstep
    obtain rfl := hcreated.eq
    intro t ht hK
    rcases List.mem_cons.mp ht with rfl | ht
    · obtain ⟨hbehind, hcreation⟩ := hsound hK base _ hhead hmro
      have hB : W.Behind t rest name :=
        { fresh := hcreated.fresh
          types := hcreated.behind
          head := fun b hb v hv => by
            obtain ⟨l, hl⟩ := List.head?_eq_some_iff.mp (hwf.built.wellFormed _ (mem_mroOf (hcreated.behind b hb))).head
            refine ⟨v, ?_⟩
            simp only at hl
            simp only [lookup]
            rw [hl, List.findSome?_cons, hv]
          known := fun b _ name v hv => hwf.known b name v hv
          agrees := fun b hb => h b (hcreated.behind b hb) (hbehind b hb) }
      unfold CreationSound at hcreation
      split at hcreation
      · next hname => exact hB.agrees_attribute hname (fun v hv => hfits.1 _ v hv) hcreation hfix
      · next hname =>
        split at hcreation
        · next hnew =>
          obtain rfl := hnew
          exact hB.agrees_new (fun v hv => hfits.1 _ v hv) hcreated.base_mem hcreation hfix
        · next hnew =>
          exact hB.agrees_regular (fun v hv => hfits.1 _ v hv) ⟨fun he => hname (Or.inl he), fun he => hname (Or.inr he), hnew⟩
            hin hcreation hfix
    · exact (h t ht hK).extend hcreated.fresh ht (mroOf_types hwf ht) hwf.known
  | assign type name' v =>
    simp only [World.step] at hstep
    split at hstep
    · cases hstep
      exact fun t ht hK => (h t ht hK).setattribute (hsound t ht hK)
    · cases hstep

/-- The runs whose steps are sound for a special method of the classes `K`. -/
inductive Reaches (K : τ → Prop) (name : String) (W : World τ ο φ) : World τ ο φ → Prop
  | start : Reaches K name W W
  | step {W' W'' : World τ ο φ} {a : Action τ ο} : Reaches K name W W' → W'.step a = some W'' → W'.Fits a →
      W'.Sound K name a → Reaches K name W W''

theorem Reaches.agrees {object : τ} {K : τ → Prop} {W' : World τ ο φ} (hin : ∃ s ∈ slotdefs, s.name = name)
    (hwf : W.WellFormed object) (h : ∀ t ∈ W.types, K t → W.Agrees t name) (hrun : W.Reaches K name W') :
    W'.WellFormed object ∧ ∀ t ∈ W'.types, K t → W'.Agrees t name := by
  induction hrun with
  | start => exact ⟨hwf, h⟩
  | step _ hstep hfits hsound ih => exact ⟨ih.1.step hstep hfits, Agrees.step hin ih.1 ih.2 hstep hfits hsound⟩

/-- **Dispatch follows the MRO** in every world of a run whose classes are created
soundly and whose assignments leave what is found as it is. -/
theorem dispatch_faithful {object : τ} {K : τ → Prop} {W' : World τ ο φ} (hin : name ∈ slotdefs.map (·.name))
    (hwf : W.WellFormed object) (h : ∀ t ∈ W.types, K t → W.Agrees t name) (hrun : W.Reaches K name W') :
    ∀ t ∈ W'.types, K t → W'.Faithful t name :=
  fun t ht hK => ((hrun.agrees (List.mem_map.mp hin) hwf h).2 t ht hK).faithful

/-! ### A method of a base, and one that is assigned -/

/-- `object`, with its hash. -/
def objectOnly : World Nat Nat Nat where
  hierarchy := [(0, [0])]
  slot := fun t m => if t = 0 ∧ m = hashMember then some (.native 0) else none
  dict := fun t name => if t = 0 ∧ name = "__hash__" then some (.wrapper 0 (.ofType "__hash__")) else none

theorem objectOnly_wellFormed : objectOnly.WellFormed 0 where
  built := .object
  known := fun t name v h => by
    simp only [objectOnly] at h
    split at h
    · cases h
      exact List.mem_singleton_self 0
    · cases h

theorem objectOnly_agrees : ∀ t ∈ objectOnly.types, True → objectOnly.Agrees t "__add__" := by
  intro t ht _
  obtain rfl : t = 0 := List.mem_singleton.mp ht
  refine .of_single (m := ⟨.type, "__add__"⟩) (by decide +kernel) ⟨.ofType "__add__", by decide, rfl⟩ (fun _ => rfl) ?_
  intro v hv
  cases hv

/-- `class A` with an `__add__`. -/
def createA : Action Nat Nat := .create 1 [0] (fun name => if name = "__add__" then some (.function 7) else none) fun _ => none

/-- `class B(A)` without. -/
def createB : Action Nat Nat := .create 2 [1] (fun _ => none) fun _ => none

def withA : World Nat Nat Nat := (objectOnly.step createA).getD objectOnly

def withB : World Nat Nat Nat := (withA.step createB).getD withA

theorem withA_eq : objectOnly.step createA = some withA := by
  have hsome : (objectOnly.step createA).isSome = true := by decide +kernel
  obtain ⟨W, hW⟩ := Option.isSome_iff_exists.mp hsome
  rw [withA, hW, Option.getD_some]

theorem withB_eq : withA.step createB = some withB := by
  have hsome : (withA.step createB).isSome = true := by decide +kernel
  obtain ⟨W, hW⟩ := Option.isSome_iff_exists.mp hsome
  rw [withB, hW, Option.getD_some]

theorem withA_mro : withA.hierarchy = [(1, [1, 0]), (0, [0])] := by decide +kernel

theorem createA_sound : objectOnly.Sound (fun _ => True) "__add__" createA := by
  intro _ base mro _ hmro
  obtain rfl : mro = [1, 0] := by
    rw [show mro_ 1 ([0].map objectOnly.hierarchy.mroOf) = .order [1, 0] by decide] at hmro
    exact (MroResult.order.inj hmro).symm
  refine ⟨fun _ _ => trivial, ?_⟩
  rw [CreationSound, if_neg (by decide), if_neg (by decide)]
  exact
    { descriptors := fun _ => rfl
      hash := fun he => absurd he (by decide)
      wrapper := fun v hv t s he => by
        subst he
        cases hv
      inherited := fun hnone => by cases hnone }

theorem createB_sound : withA.Sound (fun _ => True) "__add__" createB := by
  intro _ base mro _ hmro
  obtain rfl : mro = [2, 1, 0] := by
    rw [show mro_ 2 ([1].map withA.hierarchy.mroOf) = .order [2, 1, 0] by rw [withA_mro]; decide] at hmro
    exact (MroResult.order.inj hmro).symm
  refine ⟨fun _ _ => trivial, ?_⟩
  have hfound : withA.found [1, 0] (fun _ => none) "__add__" = some (.function 7) := by decide +kernel
  rw [CreationSound, if_neg (by decide), if_neg (by decide)]
  exact
    { descriptors := fun _ => rfl
      hash := fun he => absurd he (by decide)
      wrapper := fun v hv t s he => by
        rw [List.tail_cons, hfound, he] at hv
        cases hv
      inherited := fun _ v hv => by
        rw [List.tail_cons, hfound] at hv
        cases hv
        refine ⟨by decide +kernel, Or.inr fun b hb => ?_⟩
        rw [List.tail_cons, show withA.firstFinder [1, 0] "__add__" = some 1 by decide +kernel] at hb
        cases hb
        decide +kernel }

theorem withB_reached : objectOnly.Reaches (fun _ => True) "__add__" withB := by
  refine .step (.step .start withA_eq ?_ createA_sound) withB_eq ?_ createB_sound
  · refine ⟨fun name v hv => ?_, fun name v hv => by cases hv⟩
    dsimp only at hv
    split at hv
    · cases hv
      trivial
    · cases hv
  · simp [Fits, createB]

/-- The `__add__` of `A` is called for a `B`. -/
theorem dispatch_faithful_derived :
    (∀ t ∈ withB.types, True → withB.Faithful t "__add__") ∧ withB.dispatch 2 "__add__" = some (.object (.function 7)) :=
  ⟨dispatch_faithful (by decide +kernel) objectOnly_wellFormed objectOnly_agrees withB_reached, by decide +kernel⟩

/-- An `__add__` that is assigned to a class is found and not called. -/
theorem assignedMethod_notCalled :
    (objectOnly.WellFormed 0 ∧ ∀ t ∈ objectOnly.types, True → objectOnly.Agrees t "__add__") ∧
    ∃ W W' : World Nat Nat Nat, objectOnly.step (.create 1 [0] (fun _ => none) fun _ => none) = some W ∧
      W.step (.assign 1 "__add__" (.function 7)) = some W' ∧ W'.lookup 1 "__add__" = some (.function 7) ∧
      W'.dispatch 1 "__add__" = none ∧ ¬ W'.Faithful 1 "__add__" := by
  refine ⟨⟨objectOnly_wellFormed, objectOnly_agrees⟩, ?_⟩
  have hrun : ((objectOnly.step (.create 1 [0] (fun _ => none) fun _ => none)).bind
      (·.step (.assign 1 "__add__" (.function 7)))).map (fun W => (W.lookup 1 "__add__", W.dispatch 1 "__add__")) =
      some (some (.function 7), none) := by
    decide +kernel
  obtain ⟨W', hboth, hvalues⟩ := Option.map_eq_some_iff.mp hrun
  obtain ⟨W, hW, hW'⟩ := Option.bind_eq_some_iff.mp hboth
  obtain ⟨hlookup, hdispatch⟩ := Prod.mk.inj hvalues
  refine ⟨W, W', hW, hW', hlookup, hdispatch, fun hfaithful => ?_⟩
  unfold Faithful at hfaithful
  rw [hlookup] at hfaithful
  obtain ⟨f, hf, -⟩ := hfaithful
  rw [hdispatch] at hf
  cases hf

end Pylang.Runtime.World
