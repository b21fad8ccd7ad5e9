/-
`PyDict::merge` and `PyDict::merge_from_seq_2`: the union of two mappings, and
the insertion of pairs in their order.

The loop over a mapping tests `override` the other way round: without it, a key
that is missing is an error, and the value of one that is there is replaced. The
loop over pairs asks for the first before it asks whether there is one.
-/
import Pylang.Tagged.DictVersion

namespace Pylang.Tagged

section

variable {W : KeyWorld} {K : Key → Prop} {m : Entries} {k : Key}

/-! ## The union -/

/-- The items of a mapping: of lawful keys, and with one value for keys that are equal. -/
structure Functional (W : KeyWorld) (K : Key → Prop) (items : Entries) : Prop where
  keys : ∀ e ∈ items, K e.1
  value : ∀ d ∈ items, ∀ e ∈ items, W.rtValueEq d.1 e.1 = true → d.2 = e.2

/-- The objects whose items these are. -/
inductive ItemsOf (items : Entries) : Source → Prop where
  | dict (exact : Bool) : ItemsOf items (.dict exact items)
  | mapping : ItemsOf items (.mapping (items.map fun e => (e.1, some e.2)) true)

/-- The value of a key in the union. -/
def unionValue (W : KeyWorld) (override : Bool) (m items : Entries) (k : Key) : Option Key :=
  if override then (valueOf W items k).or (valueOf W m k) else (valueOf W m k).or (valueOf W items k)

/-- Nothing is raised, the entries are the union, and those that the merge of a `dict` gives. -/
structure MergesRight (T : Table W) (K : Key → Prop) (m : Entries) (override : Bool) (items : Entries)
    (result : Entries × Bool) : Prop where
  ok : result.2 = true
  union : ∀ k, K k → valueOf W result.1 k = unionValue W override m items k
  same : result.1 = T.mergeDict override m items

theorem Sound.functional (h : Lawful W K) (hm : Sound W K m) : Functional W K m where
  keys := hm.keys
  value := by
    intro d hd e he heq
    obtain ⟨i, hi⟩ := List.mem_iff_getElem?.mp hd
    obtain ⟨j, hj⟩ := List.mem_iff_getElem?.mp he
    have hdk := hm.keys d hd
    have hrefl : W.rtValueEq d.1 d.1 = true := (h.forms hdk (by simp [Table.forms])).2
    obtain rfl := hm.unique h hdk hi hj hrefl heq
    rw [hi] at hj
    cases hj
    rfl

theorem Functional.tail {e : Key × Key} {items : Entries} (h : Functional W K (e :: items)) : Functional W K items where
  keys d hd := h.keys d (List.mem_cons_of_mem e hd)
  value d hd d' hd' := h.value d (List.mem_cons_of_mem e hd) d' (List.mem_cons_of_mem e hd')

theorem valueOf_cons (e : Key × Key) (m : Entries) (k : Key) :
    valueOf W (e :: m) k = if W.rtValueEq k e.1 then some e.2 else valueOf W m k := by
  unfold valueOf place
  rw [List.findIdx?_cons]
  split
  next => rfl
  next => cases m.findIdx? fun e => W.rtValueEq k e.1 <;> rfl

theorem valueOf_append (m : Entries) (key value k : Key) :
    valueOf W (m ++ [(key, value)]) k = (valueOf W m k).or (if W.rtValueEq k key then some value else none) := by
  induction m with
  | nil => rw [List.nil_append, valueOf_cons]; rfl
  | cons e m ih =>
    rw [List.cons_append, valueOf_cons, valueOf_cons, ih]
    split <;> rfl

theorem mem_of_valueOf {v : Key} (hv : valueOf W m k = some v) : ∃ e ∈ m, W.rtValueEq k e.1 = true ∧ e.2 = v := by
  induction m with
  | nil => cases hv
  | cons e m ih =>
    rw [valueOf_cons] at hv
    split at hv
    next heq =>
      cases hv
      exact ⟨e, List.mem_cons_self, heq, rfl⟩
    next =>
      obtain ⟨d, hd, heq, hval⟩ := ih hv
      exact ⟨d, List.mem_cons_of_mem e hd, heq, hval⟩

theorem valueOf_eq_none : valueOf W m k = none ↔ ∀ e ∈ m, W.rtValueEq k e.1 = false := by
  induction m with
  | nil => simp [valueOf, place]
  | cons e m ih =>
    rw [valueOf_cons, List.forall_mem_cons, ← ih]
    cases W.rtValueEq k e.1 <;> simp

theorem valueOf_congr (hm : ∀ e ∈ m, K e.1) (h : Lawful W K) {k' : Key} (hk : K k) (hk' : K k')
    (heq : W.rtValueEq k k' = true) : valueOf W m k' = valueOf W m k := by
  induction m with
  | nil => rfl
  | cons e m ih =>
    rw [valueOf_cons, valueOf_cons, ih fun d hd => hm d (List.mem_cons_of_mem e hd)]
    rw [h.eq_congr hk hk' (hm e List.mem_cons_self) heq]

theorem valueOf_of_mem (hm : Functional W K m) (h : Lawful W K) {e : Key × Key} (he : e ∈ m) :
    valueOf W m e.1 = some e.2 := by
  cases hv : valueOf W m e.1 with
  | some v =>
    obtain ⟨d, hd, heq, rfl⟩ := mem_of_valueOf hv
    rw [hm.value e he d hd heq]
  | none =>
    have hrefl : W.rtValueEq e.1 e.1 = true := (h.forms (hm.keys e he) (by simp [Table.forms])).2
    rw [valueOf_eq_none.mp hv e he] at hrefl
    cases hrefl

theorem valueOf_modify (hm : ∀ e ∈ m, K e.1) (h : Lawful W K) (hk : K k) {key value : Key} {i : Nat} (hkey : K key)
    (hp : place W m key = some i) :
    valueOf W (m.modify i fun e => (e.1, value)) k = if W.rtValueEq k key then some value else valueOf W m k := by
  induction m generalizing i with
  | nil => cases hp
  | cons e m ih =>
    have he : K e.1 := hm e List.mem_cons_self
    unfold place at hp
    rw [List.findIdx?_cons] at hp
    split at hp
    next heq =>
      cases hp
      rw [List.modify_zero_cons, valueOf_cons, valueOf_cons]
      rw [h.eq_comm hk he, h.eq_comm hk hkey, h.eq_congr hkey he hk heq]
      split <;> rfl
    next hne =>
      obtain ⟨i, hi, rfl⟩ := Option.map_eq_some_iff.mp hp
      rw [List.modify_succ_cons, valueOf_cons, valueOf_cons, ih (fun d hd => hm d (List.mem_cons_of_mem e hd)) hi]
      split
      next hke =>
        rw [if_neg fun hkk => hne (h.trans hkey hk he (h.symm hk hkey hkk) hke)]
      next => rfl

theorem valueOf_insertOrAssign (T : Table W) (hm : Sound W K m) (h : Lawful W K) {key value : Key} (hkey : K key)
    (hk : K k) : valueOf W (T.insertOrAssign m key value) k = if W.rtValueEq k key then some value else valueOf W m k := by
  unfold Table.insertOrAssign
  rw [find_eq_place T hm h hkey]
  cases hp : place W m key with
  | some i => exact valueOf_modify hm.keys h hk hkey hp
  | none =>
    have hnone : valueOf W m key = none := by unfold valueOf; rw [hp]; rfl
    dsimp only
    rw [valueOf_append]
    split
    next heq => rw [valueOf_congr hm.keys h hkey hk (h.symm hk hkey heq), hnone]; rfl
    next => exact Option.or_none

theorem valueOf_emplace (T : Table W) (hm : Sound W K m) (h : Lawful W K) {key value : Key} (hkey : K key)
    (hk : K k) : valueOf W (T.emplace m key value) k =
      (valueOf W m k).or (if W.rtValueEq k key then some value else none) := by
  unfold Table.emplace
  rw [find_eq_place T hm h hkey]
  cases hp : place W m key with
  | some i =>
    dsimp only
    split
    next heq =>
      have hsome : (valueOf W m k).isSome = true := by
        rw [valueOf_congr hm.keys h hkey hk (h.symm hk hkey heq), isSome_valueOf, hp]
        rfl
      cases hv : valueOf W m k with
      | some v => rfl
      | none => rw [hv] at hsome; cases hsome
    next => exact Option.or_none.symm
  | none => exact valueOf_append m key value k

theorem sound_put (T : Table W) (hm : Sound W K m) (h : Lawful W K) {key : Key} (hkey : K key) (override : Bool)
    (value : Key) : Sound W K (T.put override m key value) := by
  unfold Table.put
  split
  next => exact sound_insertOrAssign T hm h hkey value
  next => exact sound_step T hm h (show K (Table.Op.merge key value).key from hkey)

/-- The merge of a `dict` is the union. -/
theorem valueOf_mergeDict (T : Table W) (h : Lawful W K) (override : Bool) {items : Entries}
    (hitems : Functional W K items) (hm : Sound W K m) (hk : K k) :
    valueOf W (T.mergeDict override m items) k = unionValue W override m items k := by
  induction items generalizing m with
  | nil => cases override <;> simp [Table.mergeDict, unionValue, valueOf, place]
  | cons e items ih =>
    have hkey : K e.1 := hitems.keys e List.mem_cons_self
    have hfold : T.mergeDict override m (e :: items) = T.mergeDict override (T.put override m e.1 e.2) items := rfl
    rw [hfold, ih hitems.tail (sound_put T hm h hkey override e.2)]
    cases override with
    | false =>
      simp only [unionValue, Table.put, Bool.false_eq_true, if_false]
      rw [valueOf_emplace T hm h hkey hk, valueOf_cons, Option.or_assoc]
      split <;> rfl
    | true =>
      simp only [unionValue, Table.put, if_true]
      rw [valueOf_insertOrAssign T hm h hkey hk, valueOf_cons]
      split
      next heq =>
        cases hv : valueOf W items k with
        | none => rfl
        | some v =>
          obtain ⟨d, hd, hkd, rfl⟩ := mem_of_valueOf hv
          have hdk := hitems.keys d (List.mem_cons_of_mem e hd)
          have hed : W.rtValueEq e.1 d.1 = true := h.trans hkey hk hdk (h.symm hk hkey heq) hkd
          rw [hitems.value e List.mem_cons_self d (List.mem_cons_of_mem e hd) hed]
          rfl
      next => rfl

/-! ## The mapping path -/

def valued (e : Key × Key) : Key × Option Key := (e.1, some e.2)

theorem mergeMapping_override (T : Table W) (items : Entries) :
    T.mergeMapping true true m (items.map valued) = (T.mergeDict true m items, true) := by
  induction items generalizing m with
  | nil => rfl
  | cons e items ih => exact ih

/-- Without `override`, all the keys are there where nothing is raised, and get the mapping's values. -/
theorem mergeMapping_ok (T : Table W) (h : Lawful W K) (hm : Sound W K m) {items : Entries} (hitems : ∀ e ∈ items, K e.1)
    (hok : (T.mergeMapping false true m (items.map valued)).2 = true) :
    (T.mergeMapping false true m (items.map valued)).1 = T.mergeDict true m items ∧
      ∀ e ∈ items, (valueOf W m e.1).isSome = true := by
  induction items generalizing m with
  | nil => exact ⟨rfl, fun _ he => (nomatch he)⟩
  | cons e items ih =>
    have hkey : K e.1 := hitems e List.mem_cons_self
    have hfind : (valueOf W m e.1).isSome = true := by
      rw [isSome_valueOf, ← find_eq_place T hm h hkey]
      cases hf : T.find m e.1 with
      | some i => rfl
      | none => simp [valued, Table.mergeMapping, hf] at hok
    have hstep : T.mergeMapping false true m ((e :: items).map valued) =
        T.mergeMapping false true (T.insertOrAssign m e.1 e.2) (items.map valued) := by
      have hsome : (T.find m e.1).isNone = false := by
        rw [find_eq_place T hm h hkey]
        rw [isSome_valueOf] at hfind
        cases hp : place W m e.1 with
        | some i => rfl
        | none => rw [hp] at hfind; cases hfind
      simp [valued, Table.mergeMapping, hsome]
    rw [hstep] at hok ⊢
    obtain ⟨hmerge, hkeys⟩ := ih (sound_insertOrAssign T hm h hkey e.2) (fun d hd => hitems d (List.mem_cons_of_mem e hd)) hok
    refine ⟨hmerge, List.forall_mem_cons.mpr ⟨hfind, fun d hd => ?_⟩⟩
    have hd' := hkeys d hd
    rw [valueOf_insertOrAssign T hm h hkey (hitems d (List.mem_cons_of_mem e hd))] at hd'
    split at hd'
    next heq =>
      rw [valueOf_congr hm.keys h hkey (hitems d (List.mem_cons_of_mem e hd))
        (h.symm (hitems d (List.mem_cons_of_mem e hd)) hkey heq)]
      exact hfind
    next => exact hd'

theorem has_of_valueOf (T : Table W) (h : Lawful W K) (hm : Sound W K m) {key value : Key} (hkey : K key)
    (hv : valueOf W m key = some value) (override : Bool) : PyDict.Has T ⟨m, 0⟩ override key value := by
  obtain ⟨i, hp, hi⟩ := Option.bind_eq_some_iff.mp hv
  exact ⟨i, (find_eq_place T hm h hkey).trans hp, fun _ => hi⟩

theorem mergeMapping_same (T : Table W) (h : Lawful W K) (hm : Sound W K m) {items : Entries} (hitems : ∀ e ∈ items, K e.1)
    (hsame : ∀ e ∈ items, valueOf W m e.1 = some e.2) : T.mergeMapping false true m (items.map valued) = (m, true) := by
  induction items with
  | nil => rfl
  | cons e items ih =>
    have hhas := has_of_valueOf T h hm (hitems e List.mem_cons_self) (hsame e List.mem_cons_self) true
    have hput : T.insertOrAssign m e.1 e.2 = m := PyDict.put_of_has hhas
    obtain ⟨i, hfind, -⟩ := hhas
    have hfind : T.find m e.1 = some i := hfind
    have hstep : T.mergeMapping false true m ((e :: items).map valued) = T.mergeMapping false true m (items.map valued) := by
      simp [valued, Table.mergeMapping, hfind, hput]
    rw [hstep]
    exact ih (fun d hd => hitems d (List.mem_cons_of_mem e hd)) fun d hd => hsame d (List.mem_cons_of_mem e hd)

/-- **Merging** a mapping without `override` is right if its items are there already. -/
theorem mergesRight_iff (T : Table W) (h : Lawful W K) (hm : Sound W K m) {items : Entries}
    (hitems : Functional W K items) {other : Source} (hother : ItemsOf items other) (override : Bool) :
    MergesRight T K m override items (T.merge m override other) ↔
      (∃ exact, other = .dict exact items) ∨ override = true ∨ ∀ e ∈ items, valueOf W m e.1 = some e.2 := by
  have hdict {result : Entries × Bool} (hresult : result = (T.mergeDict override m items, true)) :
      MergesRight T K m override items result := by
    subst hresult
    exact ⟨rfl, fun k hk => valueOf_mergeDict T h override hitems hm hk, rfl⟩
  cases hother with
  | dict exact => exact ⟨fun _ => .inl ⟨exact, rfl⟩, fun _ => hdict rfl⟩
  | mapping =>
    have hmerge : T.merge m override (.mapping (items.map fun e => (e.1, some e.2)) true) =
        T.mergeMapping override true m (items.map valued) := rfl
    rw [hmerge]
    cases override with
    | true => exact ⟨fun _ => .inr (.inl rfl), fun _ => hdict (mergeMapping_override T items)⟩
    | false =>
      constructor
      · intro hright
        refine .inr (.inr fun e he => ?_)
        obtain ⟨hresult, hkeys⟩ := mergeMapping_ok T h hm hitems.keys hright.ok
        have hunion := hright.union e.1 (hitems.keys e he)
        have hassigned : unionValue W true m items e.1 = some e.2 := by
          simp [unionValue, valueOf_of_mem hitems h he]
        rw [hresult, valueOf_mergeDict T h true hitems hm (hitems.keys e he), hassigned] at hunion
        have hsome := hkeys e he
        cases hv : valueOf W m e.1 with
        | none => rw [hv] at hsome; cases hsome
        | some v => simpa [unionValue, hv] using hunion.symm
      · intro hcond
        have hsame : ∀ e ∈ items, valueOf W m e.1 = some e.2 := by
          rcases hcond with ⟨exact, hexact⟩ | hfalse | hsame
          · cases hexact
          · cases hfalse
          · exact hsame
        refine hdict ((mergeMapping_same T h hm hitems.keys hsame).trans ?_)
        have hall : T.mergeDict false m items = m := PyDict.mergeDict_of_has (d := ⟨m, 0⟩) fun e he =>
          has_of_valueOf T h hm (hitems.keys e he) (hsame e he) false
        rw [hall]

/-- `update` is the merge with `override`. -/
theorem update_mergesRight (T : Table W) (h : Lawful W K) (hm : Sound W K m) {items : Entries}
    (hitems : Functional W K items) {other : Source} (hother : ItemsOf items other) :
    MergesRight T K m true items (T.update m other) := by
  have hupdate : T.update m other = (T.mergeDict true m items, true) := by
    cases hother with
    | dict exact => cases exact <;> rfl
    | mapping => exact mergeMapping_override T items
  rw [hupdate]
  exact ⟨rfl, fun k hk => valueOf_mergeDict T h true hitems hm hk, rfl⟩

end

/-- `{1: 1}` and a mapping of the same item. -/
theorem mergesRight_one : MergesRight (firstTable plainWorld) (IntegerKey fun _ => 0) [(one, one)] false [(one, one)]
    ((firstTable plainWorld).merge [(one, one)] false (.mapping [(one, some one)] true)) := by
  have hlawful : Lawful plainWorld (IntegerKey fun _ => 0) := lawful_integers nofun
  have hsound : Sound plainWorld (IntegerKey fun _ => 0) [(one, one)] :=
    ⟨List.forall_mem_singleton.mpr trivial, List.pairwise_singleton ..⟩
  refine (mergesRight_iff _ hlawful hsound (hsound.functional hlawful) .mapping false).mpr (.inr (.inr ?_))
  exact fun e he => valueOf_of_mem (hsound.functional hlawful) hlawful he

theorem update_mergesRight_one : MergesRight (firstTable plainWorld) (IntegerKey fun _ => 0) [(one, one)] true [(one, one)]
    ((firstTable plainWorld).update [(one, one)] (.mapping [(one, some one)] true)) := by
  have hlawful : Lawful plainWorld (IntegerKey fun _ => 0) := lawful_integers nofun
  have hsound : Sound plainWorld (IntegerKey fun _ => 0) [(one, one)] :=
    ⟨List.forall_mem_singleton.mpr trivial, List.pairwise_singleton ..⟩
  exact update_mergesRight _ hlawful hsound (hsound.functional hlawful) .mapping

/-- Without `override`, the mapping `{1: 1}` is not merged into an empty dictionary, and replaces a value of 1. -/
theorem merge_mapping_inverted :
    ¬ MergesRight (firstTable plainWorld) (IntegerKey fun _ => 0) [] false [(one, one)]
        ((firstTable plainWorld).merge [] false (.mapping [(one, some one)] true)) ∧
    ∀ value, (firstTable plainWorld).merge PyDict.oneToOne.map false (.mapping [(one, some value)] true) =
      ([(one, value)], true) := by
  refine ⟨fun h => (nomatch h.ok), fun value => ?_⟩
  have hfind := PyDict.find_oneToOne
  simp [Table.merge, Table.mergeMapping, Table.insertOrAssign, hfind]
  rfl

/-! ## Pairs -/

/-- An element of the iterable; a tuple is one of a subclass too. -/
inductive PairElement where
  | tuple (items : List Key)
  /-- Its items, and whether they end with `StopIteration` and no other error. -/
  | iterable (items : List Key) (stops : Bool)
  | notIterable

inductive MergeStop where
  | stopIteration
  /-- Another error of an iteration. -/
  | raised
  | valueError (message : String)
  deriving DecidableEq

namespace PairElement

/-- The body of the loop, up to the insertion. -/
def unpack (index : Nat) : PairElement → Except MergeStop (Key × Key)
  | tuple [key, value] => .ok (key, value)
  | tuple items =>
    .error (.valueError s!"dictionary update sequence element #{index} has length {items.length}; 2 is required")
  | iterable (_ :: _ :: _ :: _) _ =>
    .error (.valueError s!"dictionary update sequence element #{index} does not have required length 2")
  | iterable [key, value] stops => if stops then .ok (key, value) else .error .raised
  -- what ends the items is returned as it is
  | iterable _ stops => .error (if stops then .stopIteration else .raised)
  | notIterable => .error .raised

/-- The two items of a pair. -/
def pair? : PairElement → Option (Key × Key)
  | tuple [key, value] | iterable [key, value] true => some (key, value)
  | _ => none

theorem unpack_eq_ok {index : Nat} {e : PairElement} {pair : Key × Key} :
    e.unpack index = .ok pair ↔ e.pair? = some pair := by
  unfold unpack pair?
  split <;> (try split) <;> simp_all

end PairElement

namespace Table

variable {W : KeyWorld} (T : Table W)

/-- The loop of `merge_from_seq_2`, with whether the iterable ends with `StopIteration`. -/
def mergePairs (override stops : Bool) : Nat → Entries → List PairElement → Entries × Except MergeStop Unit
  | _, m, [] => (m, if stops then .ok () else .error .raised)
  | index, m, e :: elements =>
    match e.unpack index with
    | .ok (key, value) => mergePairs override stops (index + 1) (T.put override m key value) elements
    | .error error => (m, .error error)

/-- `merge_from_seq_2`; the error of the first `next` is returned as it is. -/
def mergeSeq2 (override : Bool) (m : Entries) (elements : List PairElement) (stops : Bool) :
    Entries × Except MergeStop Unit :=
  match elements with
  | [] => (m, .error (if stops then .stopIteration else .raised))
  | e :: elements => T.mergePairs override stops 0 m (e :: elements)

/-- The pairs are inserted in their order, and no error is raised; an element that is no pair raises one. -/
structure PairsRight (override : Bool) (m : Entries) (elements : List PairElement) (stops : Bool) : Prop where
  pairs : ∀ pairs : List (Key × Key), elements.map (·.pair?) = pairs.map some → stops = true →
    T.mergeSeq2 override m elements stops = (pairs.foldl (fun m pair => T.put override m pair.1 pair.2) m, .ok ())
  others : (∃ e ∈ elements, e.pair? = none) → ∃ error, (T.mergeSeq2 override m elements stops).2 = .error error

variable {T} {override stops : Bool} {m : Entries}

theorem mergePairs_of_pairs : ∀ {index : Nat} {elements : List PairElement} {pairs : List (Key × Key)} {m : Entries},
    elements.map (·.pair?) = pairs.map some →
      T.mergePairs override true index m elements = (pairs.foldl (fun m pair => T.put override m pair.1 pair.2) m, .ok ())
  | _, [], pairs, _, h => by
    obtain rfl : pairs = [] := by simpa using h.symm
    rfl
  | _, e :: elements, [], _, h => nomatch h
  | index, e :: elements, pair :: pairs, _, h => by
    rw [List.map_cons, List.map_cons, List.cons.injEq] at h
    rw [mergePairs, PairElement.unpack_eq_ok.mpr h.1]
    exact mergePairs_of_pairs h.2

theorem mergePairs_of_others : ∀ {index : Nat} {elements : List PairElement} {m : Entries},
    (∃ e ∈ elements, e.pair? = none) → ∃ error, (T.mergePairs override stops index m elements).2 = .error error
  | _, [], _, h => by simp at h
  | index, e :: elements, m, h => by
    rw [mergePairs]
    cases hunpack : e.unpack index with
    | error error => exact ⟨error, rfl⟩
    | ok pair =>
      have hpair := PairElement.unpack_eq_ok.mp hunpack
      obtain ⟨d, hd, hnone⟩ := h
      rcases List.mem_cons.mp hd with rfl | hd
      · rw [hpair] at hnone
        cases hnone
      · exact mergePairs_of_others ⟨d, hd, hnone⟩

theorem mergeElements_eq : ∀ {index : Nat} {elements : List PairElement} {m : Entries},
    T.mergeElements override stops m (elements.map (·.pair?)) =
      ((T.mergePairs override stops index m elements).1, (T.mergePairs override stops index m elements).2.isOk)
  | _, [], m => by cases stops <;> rfl
  | index, e :: elements, m => by
    rw [List.map_cons, mergePairs]
    cases hunpack : e.unpack index with
    | ok pair =>
      rw [PairElement.unpack_eq_ok.mp hunpack]
      exact mergeElements_eq
    | error error =>
      have hnone : e.pair? = none := by
        cases hpair : e.pair? with
        | none => rfl
        | some pair => rw [PairElement.unpack_eq_ok.mpr hpair] at hunpack; cases hunpack
      rw [hnone]
      rfl

/-- The entries it leaves, and whether it raises, tell no more of an element than the pair it is. -/
theorem mergeFromSeq2_eq (override stops : Bool) (m : Entries) (elements : List PairElement) :
    T.mergeFromSeq2 override stops m (elements.map (·.pair?)) =
      ((T.mergeSeq2 override m elements stops).1, (T.mergeSeq2 override m elements stops).2.isOk) := by
  cases elements with
  | nil => cases stops <;> rfl
  | cons e elements => exact mergeElements_eq

/-- **Pairs.** The iterable is inserted as it should unless it is empty. -/
theorem pairsRight_iff (T : Table W) (override : Bool) (m : Entries) (elements : List PairElement) (stops : Bool) :
    T.PairsRight override m elements stops ↔ ¬ (elements = [] ∧ stops = true) := by
  constructor
  · intro h hempty
    obtain ⟨rfl, rfl⟩ := hempty
    have hresult := congrArg Prod.snd (h.pairs [] rfl rfl)
    cases hresult
  · intro hne
    cases elements with
    | nil => exact ⟨fun _ _ hstops => absurd ⟨rfl, hstops⟩ hne, fun h => by simp at h⟩
    | cons e elements =>
      refine ⟨fun pairs hpairs hstops => ?_, fun h => mergePairs_of_others h⟩
      rw [hstops]
      exact mergePairs_of_pairs hpairs

/-- `{}.update([])` raises `StopIteration`. -/
theorem mergeSeq2_empty : ¬ (firstTable plainWorld).PairsRight true [] [] true := fun h => by
  have hresult := congrArg Prod.snd (h.pairs [] rfl rfl)
  cases hresult

end Table

end Pylang.Tagged
