/-
The attributes of one instance over its life: in the slots of its shape, and
from the first use of its `__dict__` on in that dictionary. Whichever way they
are stored, a name has the value last stored.
-/
import Pylang.Runtime.AttrCache
import Pylang.Runtime.ShapeTree

namespace Pylang.Runtime

/-- What becomes of a deletion: no deletion succeeds. -/
inductive DeleteResult (ο : Type)
  /-- The `__delete__` of the descriptor is called. -/
  | callDelete (descriptor : ο)
  | error (message : String)
  deriving DecidableEq

namespace AttrTypes

variable {ο : Type} [DecidableEq ο] (C : AttrTypes ο)

/-- `PyObject::__delattribute__`; `hasDelete` are the types whose slots have `__delete__`. -/
def delattribute (hasDelete : ο → Bool) (S : Store ο) (obj : ο) (name : String) : Store ο × DeleteResult ο :=
  match (C.lookup S (C.typeOf obj) name).filter (fun descriptor => hasDelete (C.typeOf descriptor)) with
  | some descriptor => (S, .callDelete descriptor)
  | none => (S, .error "can't delete attribute")

/-- The attributes of an instance are in its slots. -/
structure SlotMode (S : Store ο) (o : ο) (attrs : String → Option ο) : Prop where
  noDict : S.instanceDict o = none
  names : ∀ n, (S.offset? o n).isSome = (attrs n).isSome
  injective : ∀ n m k, S.offset? o n = some k → S.offset? o m = some k → n = m
  onto : ∀ k, k < ((S.shape o).map Shape.slotCount).getD 0 ↔ ∃ n, S.offset? o n = some k
  size : ((S.shape o).map Shape.slotCount).getD 0 ≤ (S.slots o).length
  values : ∀ n, attrs n = (S.offset? o n).bind ((S.slots o)[·]?)

/-- They are in its `__dict__`. -/
def DictMode (S : Store ο) (o : ο) (attrs : String → Option ο) : Prop :=
  ∃ d, S.instanceDict o = some d ∧ ∀ n, S.items d n = attrs n

/-- What keeps them there. -/
structure Holds (S : Store ο) (o : ο) (attrs : String → Option ο) : Prop where
  nodup : ∀ shape, S.shape o = some shape → shape.names.Nodup
  slots : S.instanceDict o = none → ∀ n, attrs n = (S.offset? o n).bind ((S.slots o)[·]?)
  items : ∀ d, S.instanceDict o = some d → S.items d = attrs

/-- A step that is not about the instance. -/
structure Untouched (S S' : Store ο) (o : ο) : Prop where
  shape : S'.shape o = S.shape o
  slots : S'.slots o = S.slots o
  instanceDict : S'.instanceDict o = S.instanceDict o
  items : ∀ d, S.instanceDict o = some d → S'.items d = S.items d

variable {ι : Type} [DecidableEq ι] (siteName : ι → String) (hasDelete : ο → Bool) (o : ο)

/-- The life of an instance, and the values last stored and not since deleted:
stores, deletions, the making of its `__dict__` and, between these, any steps
that are about something else. `SitesValid` is what holds in every state that a
program reaches (`Reachable.valid`). -/
inductive Lives : Sites ο ι → (String → Option ο) → Prop
  | created {P : Sites ο ι} : SitesValid C siteName P → P.store.shape o = none → P.store.instanceDict o = none →
      Lives P fun _ => none
  /-- `__setattribute__` -/
  | store {P : Sites ο ι} {attrs : String → Option ο} {S' : Store ο} {n : String} {v : ο} : Lives P attrs →
      n ≠ "__dict__" → P.store.setattribute o n v C.toClasses = (S', .ok) →
      Lives { P with store := S' } (Function.update attrs n (some v))
  /-- `rt_setattr_ic` -/
  | storeIc {P : Sites ο ι} {attrs : String → Option ο} {S' : Store ο} {v : ο} (i : ι) : Lives P attrs →
      siteName i ≠ "__dict__" → (C.rtSetattrIc P.store (P.writes i) o (siteName i) v).1 = some (S', .ok) →
      Lives (P.write C siteName i o v) (Function.update attrs (siteName i) (some v))
  /-- `__delattribute__` -/
  | delete {P : Sites ο ι} {attrs : String → Option ο} (n : String) : Lives P attrs →
      Lives { P with store := (C.delattribute hasDelete P.store o n).1 } attrs
  /-- `materialize_instance_dict` -/
  | materialize {P P' : Sites ο ι} {attrs : String → Option ο} {created : ο} : Lives P attrs → SitesValid C siteName P' →
      P.store.materialize o C.toClasses created = some P'.store → Lives P' attrs
  /-- An assignment to `__dict__` -/
  | setDict {P : Sites ο ι} {attrs : String → Option ο} {S' : Store ο} {d : ο} : Lives P attrs →
      P.store.setattribute o "__dict__" d C.toClasses = (S', .ok) → Lives { P with store := S' } (P.store.items d)
  /-- A store into the dictionary itself, or a deletion from it -/
  | item {P P' : Sites ο ι} {attrs : String → Option ο} {d : ο} (n : String) (v : Option ο) : Lives P attrs →
      P.store.instanceDict o = some d → SitesValid C siteName P' →
      P'.store = { P.store with items := Function.update P.store.items d (Function.update (P.store.items d) n v) } →
      Lives P' (Function.update attrs n v)
  | other {P P' : Sites ο ι} {attrs : String → Option ο} : Lives P attrs → SitesValid C siteName P' →
      Untouched P.store P'.store o → Lives P' attrs

variable {C} {siteName} {hasDelete} {o} {P : Sites ο ι} {S S' : Store ο} {attrs : String → Option ο} {n : String} {v : ο}

omit [DecidableEq ο] in
theorem Holds.untouched (h : Holds S o attrs) (hS : Untouched S S' o) : Holds S' o attrs := by
  refine ⟨fun shape hshape => h.nodup shape (hS.shape ▸ hshape), fun hdict m => ?_, fun d hdict => ?_⟩
  · rw [h.slots (hS.instanceDict ▸ hdict) m]
    unfold Store.offset?
    rw [hS.shape, hS.slots]
  · rw [hS.instanceDict] at hdict
    rw [hS.items d hdict]
    exact h.items d hdict

omit [DecidableEq ο] in
/-- The shape of an instance, or the root it starts from. -/
theorem offset?_eq {t : ο} : S.offset? o n = ((S.shape o).getD (Shape.root t)).lookup n := by
  unfold Store.offset?
  cases S.shape o with
  | none => simp [Shape.lookup, Shape.root]
  | some shape => rfl

theorem slotValues_push (hS : S.Sound) (hoffset : S.offset? o n = none) (t : ο) (m : String) :
    (((S.setShape o (((S.shape o).getD (Shape.root t)).transition n)).setSlots o (S.slots o ++ [v])).offset? o m).bind
        ((S.slots o ++ [v])[·]?) =
      Function.update (fun m => (S.offset? o m).bind ((S.slots o)[·]?)) n (some v) m := by
  have hlen : (S.slots o).length = ((S.shape o).getD (Shape.root t)).slotCount := (hS o).trans getD_slotCount.symm
  have hnew : ((S.setShape o (((S.shape o).getD (Shape.root t)).transition n)).setSlots o (S.slots o ++ [v])).offset? o m =
      (((S.shape o).getD (Shape.root t)).transition n).lookup m := by
    simp [Store.offset?, Store.setShape, Store.setSlots]
  rw [hnew, Shape.lookup_transition (getD_lookup hoffset)]
  by_cases hm : m = n
  · subst hm
    rw [if_pos rfl, Function.update_self, Option.bind_some, ← hlen]
    exact List.getElem?_concat_length
  · rw [if_neg hm, Function.update_of_ne hm, ← offset?_eq]
    cases hk : S.offset? o m with
    | none => rfl
    | some k => exact List.getElem?_append_left (hS.offset_lt hk)

omit [DecidableEq ο] in
/-- A slot that is written is the name's, and no other name has it. -/
theorem slotValues_set (hS : S.Sound) {k : Nat} (hoffset : S.offset? o n = some k) (m : String) :
    (S.offset? o m).bind (((S.slots o).set k v)[·]?) =
      Function.update (fun m => (S.offset? o m).bind ((S.slots o)[·]?)) n (some v) m := by
  by_cases hm : m = n
  · subst hm
    rw [hoffset, Function.update_self, Option.bind_some]
    exact List.getElem?_set_self (hS.offset_lt hoffset)
  · rw [Function.update_of_ne hm]
    cases hk' : S.offset? o m with
    | none => rfl
    | some k' =>
      have hne : k ≠ k' := by
        intro h
        obtain rfl := h
        rw [offset?_eq (t := o)] at hoffset hk'
        exact hm (Shape.lookup_inj hk' hoffset)
      exact List.getElem?_set_ne hne

/-- **A store into an instance**, wherever its attributes are. -/
theorem Holds.storeAttribute (h : Holds S o attrs) (hS : S.Sound) :
    Holds (S.storeAttribute o n v C.toClasses) o (Function.update attrs n (some v)) := by
  cases hdict : S.instanceDict o with
  | some d =>
    have hstore : S.storeAttribute o n v C.toClasses = S.setItem d n v := by simp [Store.storeAttribute, hdict]
    rw [hstore]
    refine ⟨h.nodup, fun hnone => ?_, fun d' hd' => ?_⟩
    · cases hdict.symm.trans hnone
    · obtain rfl := Option.some.inj (hdict.symm.trans hd')
      rw [← h.items d hdict]
      exact Function.update_self ..
  | none =>
    have hslots : attrs = fun m => (S.offset? o m).bind ((S.slots o)[·]?) := funext (h.slots hdict)
    cases hoffset : S.offset? o n with
    | some k =>
      rw [storeAttribute_of_set hdict hoffset]
      refine ⟨h.nodup, fun _ m => ?_, fun d hd => ?_⟩
      · rw [hslots, ← slotValues_set hS hoffset m]
        simp [Store.setSlots, Store.offset?]
      · cases hdict.symm.trans hd
    | none =>
      rw [storeAttribute_of_push hdict hoffset]
      refine ⟨fun shape hshape => ?_, fun _ m => ?_, fun d hd => ?_⟩
      · have hshape' : ((S.shape o).getD (Shape.root (C.typeOf o))).transition n = shape := by
          simpa [Store.setShape, Store.setSlots] using hshape
        subst hshape'
        have hlookup := getD_lookup (t := C.typeOf o) hoffset
        have hin : n ∉ ((S.shape o).getD (Shape.root (C.typeOf o))).names := by
          intro hin
          rw [Shape.lookup, if_pos hin] at hlookup
          cases hlookup
        refine List.nodup_append.mpr ⟨?_, List.nodup_singleton n, fun a ha b hb => ?_⟩
        · cases hs : S.shape o with
          | none => exact List.nodup_nil
          | some shape => exact h.nodup shape hs
        · intro h
          obtain rfl := h
          rw [List.mem_singleton] at hb
          exact hin (hb ▸ ha)
      · rw [hslots, ← slotValues_push hS hoffset (C.typeOf o) m]
        simp [Store.setSlots, Store.setShape, Store.offset?]
      · cases hdict.symm.trans hd

theorem setattribute_ok (htype : C.isType o = false) (hname : n ≠ "__dict__")
    (h : S.setattribute o n v C.toClasses = (S', .ok)) : S' = S.storeAttribute o n v C.toClasses := by
  unfold Store.setattribute at h
  rw [if_neg (by simp [htype])] at h
  split at h
  · cases h
  · rw [if_neg hname] at h
    cases h
    rfl

theorem setattrIc_ok {cache : AttrCache ο} (htype : C.isType o = false) (hname : n ≠ "__dict__") (hS : S.Sound)
    (hv : cache.kind = .write → WriteValid n cache) (h : (C.rtSetattrIc S cache o n v).1 = some (S', .ok)) :
    S' = S.storeAttribute o n v C.toClasses := by
  have huncached (h : C.setattribute S o n v = some (S', .ok)) : S' = S.storeAttribute o n v C.toClasses := by
    unfold setattribute at h
    split at h
    · exact setattribute_ok htype hname (Option.some.inj h)
    · cases h
  by_cases hset : (!C.usesDefaultSetattribute o || (S.instanceDict o).isSome) = true
  · unfold rtSetattrIc at h
    rw [if_pos hset] at h
    exact huncached h
  · have hcond := hset
    simp only [Bool.or_eq_true, Bool.not_eq_true', not_or, Bool.not_eq_false, Option.not_isSome_iff_eq_none] at hcond
    by_cases hdirect : (cache.kind = .write && C.writeHits S cache o) = true ∨
        (C.lookup S (C.typeOf o) n).filter (fun d => C.descriptorIsData (C.typeOf d)) = none
    · rw [setattrIc_store v hS hv hcond.1 hcond.2 htype hdirect] at h
      cases h
      rfl
    · rw [not_or] at hdirect
      obtain ⟨d, hd⟩ := Option.ne_none_iff_exists'.mp hdirect.2
      unfold rtSetattrIc at h
      rw [if_neg hset, if_neg (by simp [htype]), if_neg hdirect.1] at h
      simp only [hd] at h
      exact huncached h

/-- **The one way migration**: the new dictionary holds what the slots held. -/
theorem Holds.materialize (h : Holds S o attrs) {created : ο} (hm : S.materialize o C.toClasses created = some S') :
    Holds S' o attrs := by
  unfold Store.materialize at hm
  split at hm
  · cases hm
  · cases hdict : S.instanceDict o with
    | some d =>
      rw [hdict] at hm
      cases hm
      exact h
    | none =>
      rw [hdict] at hm
      cases hm
      refine ⟨h.nodup, fun hnone => ?_, fun d hd => ?_⟩
      · simp at hnone
      · obtain rfl : created = d := by simpa using hd
        rw [funext (h.slots hdict)]
        exact Function.update_self ..

theorem Holds.setDict (h : Holds S o attrs) (htype : C.isType o = false) {d : ο}
    (hset : S.setattribute o "__dict__" d C.toClasses = (S', .ok)) : Holds S' o (S.items d) := by
  unfold Store.setattribute at hset
  rw [if_neg (by simp [htype])] at hset
  split at hset
  · cases hset
  · rw [if_pos rfl] at hset
    split at hset
    · cases hset
      refine ⟨h.nodup, fun hnone => ?_, fun d' hd' => ?_⟩
      · simp [Store.setInstanceDict] at hnone
      · obtain rfl : d = d' := by simpa [Store.setInstanceDict] using hd'
        rfl
    · cases hset

omit [DecidableEq ο] in
theorem delattribute_store : (C.delattribute hasDelete S o n).1 = S := by
  unfold delattribute
  split <;> rfl

theorem Lives.holds (htype : C.isType o = false) (h : C.Lives siteName hasDelete o P attrs) :
    SitesValid C siteName P ∧ Holds P.store o attrs := by
  induction h with
  | created hP hshape hdict =>
    refine ⟨hP, fun shape hs => ?_, fun _ m => ?_, fun d hd => ?_⟩
    · cases hshape.symm.trans hs
    · simp [Store.offset?, hshape]
    · cases hdict.symm.trans hd
  | store _ hname hset ih =>
    have heq := setattribute_ok htype hname hset
    subst heq
    exact ⟨ih.1.change .of_storeAttribute, ih.2.storeAttribute ih.1.sound⟩
  | @storeIc P _ S' v i _ hname hset ih =>
    refine ⟨ih.1.write i o v, ?_⟩
    have hstore : (P.write C siteName i o v).store = S' := by simp [Sites.write, hset]
    rw [hstore, setattrIc_ok htype hname ih.1.sound (ih.1.writes i) hset]
    exact ih.2.storeAttribute ih.1.sound
  | delete n _ ih =>
    rw [delattribute_store]
    exact ih
  | materialize _ hP' hm ih => exact ⟨hP', ih.2.materialize hm⟩
  | @setDict P _ _ d _ hset ih =>
    have hchange : Change P.store (P.store.setattribute o "__dict__" d C.toClasses).1 := .of_setattribute
    rw [hset] at hchange
    exact ⟨ih.1.change hchange, ih.2.setDict htype hset⟩
  | item n v _ hdict hP' hstore ih =>
    refine ⟨hP', ?_⟩
    rw [hstore]
    refine ⟨ih.2.nodup, fun hnone => ?_, fun d' hd' => ?_⟩
    · cases hdict.symm.trans hnone
    · obtain rfl := Option.some.inj (hdict.symm.trans hd')
      rw [← ih.2.items _ hdict]
      exact Function.update_self ..
  | other _ hP' hsame ih => exact ⟨hP', ih.2.untouched hsame⟩

omit [DecidableEq ο] in
theorem Holds.slotMode (h : Holds S o attrs) (hS : S.Sound) (hdict : S.instanceDict o = none) : SlotMode S o attrs := by
  have hcount : ((S.shape o).map Shape.slotCount).getD 0 = ((S.shape o).getD (Shape.root o)).slotCount := getD_slotCount.symm
  refine ⟨hdict, fun m => ?_, fun m m' k hm hm' => ?_, fun k => ⟨fun hk => ?_, fun ⟨m, hm⟩ => ?_⟩, Nat.le_of_eq (hS o).symm,
    h.slots hdict⟩
  · rw [h.slots hdict m]
    cases hk : S.offset? o m with
    | none => rfl
    | some k => simp [hS.offset_lt hk]
  · rw [offset?_eq (t := o)] at hm hm'
    exact Shape.lookup_inj hm hm'
  · have hnodup : ((S.shape o).getD (Shape.root o)).names.Nodup := by
      cases hs : S.shape o with
      | none => exact List.nodup_nil
      | some shape => exact h.nodup shape hs
    obtain ⟨m, hm⟩ := Shape.lookup_onto hnodup (hcount ▸ hk)
    exact ⟨m, offset?_eq.trans hm⟩
  · rw [offset?_eq (t := o)] at hm
    exact hcount ▸ Shape.lookup_lt hm

omit [DecidableEq ο] in
/-- What an instance holds is what a read finds in it. -/
theorem Holds.instanceValue (h : Holds S o attrs) (hS : S.Sound) : instanceValue S o n = (attrs n).map .value := by
  unfold AttrTypes.instanceValue
  cases hdict : S.instanceDict o with
  | some d => rw [← h.items d hdict]
  | none =>
    rw [h.slots hdict n]
    cases hk : S.offset? o n with
    | none => rfl
    | some k => simp [slotValue, hS.offset_lt hk]

/-- **The attributes of an instance**, after whatever happened since it was
made: they are in the slots of its shape or in its `__dict__`, a read gives the
value last stored, and no deletion changes them; and a shape has one
transition for a name. -/
theorem instanceAttrs_faithful (htype : C.isType o = false) (h : C.Lives siteName hasDelete o P attrs) :
    (SlotMode P.store o attrs ∨ DictMode P.store o attrs) ∧
    (∀ n created, n ≠ "__dict__" → C.getSlot (C.typeOf o) = .object →
      (C.lookup P.store (C.typeOf o) n).filter C.getsFirst = none →
      (C.getattribute P.store created o n).1 = ((attrs n).map .value).getD (C.classValue P.store o n) ∧
      ∀ i, siteName i = n → (C.rtGetattrIc P.store (P.reads i) created o n).1 = (C.getattribute P.store created o n).1) ∧
    (∀ n, (C.delattribute hasDelete P.store o n).1 = P.store) ∧
    ∀ (H H' H'' : ShapeTree ο) (s next : Nat) (name : String), H.transition s name = some (H', next) → H'.Leads H'' →
      H''.transition s name = some (H'', next) := by
  obtain ⟨hP, hholds⟩ := h.holds htype
  refine ⟨?_, fun n created hname hget hfirst => ⟨?_, ?_⟩, fun n => delattribute_store,
    fun _ _ _ _ _ _ ht hlater => ShapeTree.transition_stable ht hlater⟩
  · cases hdict : P.store.instanceDict o with
    | none => exact Or.inl (hholds.slotMode hP.sound hdict)
    | some d => exact Or.inr ⟨d, hdict, fun n => congrFun (hholds.items d hdict) n⟩
  · unfold getattribute
    rw [hget]
    dsimp only
    unfold defaultGetattribute
    rw [hfirst]
    dsimp only
    rw [if_neg hname, hholds.instanceValue hP.sound]
  · intro i h
    obtain rfl := h
    exact (getattrIc_eq (hP.reads i) hname (Or.inl hget)).1

end AttrTypes

theorem property_lives :
    propertyTypes.Lives propertyNames (fun _ => false) 20 propertySites fun _ => none :=
  .created propertySites_reachable.valid rfl rfl

/-- An instance with the attribute `x`, of which the dictionary was made after the store. -/
theorem instanceAttrs_faithful_x :
    propertyTypes.isType 20 = false ∧ ∃ P : AttrTypes.Sites Nat Bool,
      (propertyTypes.getattribute P.store 50 20 "x").1 = .value 40 ∧ P.store.instanceDict 20 = some 60 := by
  have hstore : propertyTypes.Lives propertyNames (fun _ => false) 20 _ _ :=
    .storeIc (v := 40) false property_lives (by decide) rfl
  have hvalid := (hstore.holds rfl).1.change (@Change.of_materialize _ _ propertyTypes.toClasses _ _ 20 60 rfl)
  have hdict := hstore.materialize hvalid rfl
  have hread := ((AttrTypes.instanceAttrs_faithful rfl hdict).2.1 "x" 50 (by decide) rfl (by decide)).1
  exact ⟨rfl, _, hread, by decide⟩

/-- A store to a property calls its setter, and a read its getter. -/
theorem property_storeNotRead :
    propertyTypes.Lives propertyNames (fun _ => false) 20 propertySites (fun _ => none) ∧
    propertyTypes.setattribute propertyStore 20 "p" 40 = some (propertyStore, .callSet 30) ∧
    (propertyTypes.getattribute propertyStore 50 20 "p").1 = .get 30 (some 20) 10 ∧
    (propertyTypes.getattribute propertyStore 50 20 "p").1 ≠ .value 40 :=
  ⟨.created propertySites_reachable.valid rfl rfl, rfl, by decide, by decide⟩

end Pylang.Runtime
