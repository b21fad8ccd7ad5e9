/-
`PyDict::version()`, by which the cache of global variables tells whether a
dictionary has changed. `insert`, `__setitem__`, `__delitem__`, `remove` and
`setdefault` count a change; `pop`, `merge` and `update` do not.
-/
import Pylang.Tagged.DictLookup

namespace Pylang.Tagged

/-- `m_map` and `m_version`. -/
structure PyDict where
  map : Entries
  version : BitVec 64

/-- What `merge` and `update` read of their argument. -/
inductive Source where
  /-- A `dict`, or an instance of a subclass that iterates as `dict` does. -/
  | dict (exact : Bool) (entries : Entries)
  /-- An object with `keys`: each key with what `getitem` returns for it, if it does not raise. The keys end with
  `StopIteration` or another error. -/
  | mapping (items : List (Key × Option Key)) (stops : Bool)
  /-- Another object: its elements, those that are pairs. -/
  | sequence (elements : List (Option (Key × Key))) (stops : Bool)

inductive DictOp where
  | insert (key value : Key)
  | setitem (key value : Key)
  | delitem (key : Key)
  | remove (key : Key)
  | pop (key : Key) (default : Option Key)
  | merge (other : Source) (override : Bool)
  | update (other : Source)
  | setdefault (key default : Key)

namespace Table

variable {W : KeyWorld} (T : Table W)

/-- `insert_or_assign`, or `insert`. -/
def put (override : Bool) (m : Entries) (key value : Key) : Entries :=
  if override then T.insertOrAssign m key value else T.emplace m key value

/-- `merge(PyDict *)`. -/
def mergeDict (override : Bool) (m : Entries) (other : Entries) : Entries :=
  other.foldl (fun m entry => T.put override m entry.1 entry.2) m

/-- The loop of `merge(PyObject *)`, with whether it raises nothing. -/
def mergeMapping (override stops : Bool) : Entries → List (Key × Option Key) → Entries × Bool
  | m, [] => (m, stops)
  | m, (key, value) :: items =>
    if !override && (T.find m key).isNone then (m, false)
    else
      match value with
      | none => (m, false)
      | some value => mergeMapping override stops (T.insertOrAssign m key value) items

/-- The loop of `merge_from_seq_2`. -/
def mergeElements (override stops : Bool) : Entries → List (Option (Key × Key)) → Entries × Bool
  | m, [] => (m, stops)
  | m, none :: _ => (m, false)
  | m, some (key, value) :: elements => mergeElements override stops (T.put override m key value) elements

/-- `merge_from_seq_2`, which raises for no elements. -/
def mergeFromSeq2 (override stops : Bool) (m : Entries) (elements : List (Option (Key × Key))) : Entries × Bool :=
  if elements.isEmpty then (m, false) else T.mergeElements override stops m elements

/-- `merge(PyObject *)`. -/
def merge (m : Entries) (override : Bool) : Source → Entries × Bool
  | .dict _ entries => (T.mergeDict override m entries, true)
  | .mapping items stops => T.mergeMapping override stops m items
  | .sequence _ _ => (m, false)

/-- `update(PyObject *)`. -/
def update (m : Entries) : Source → Entries × Bool
  | .dict true entries => (T.mergeDict true m entries, true)
  | .dict false entries => T.merge m true (.dict false entries)
  | .mapping items stops => T.merge m true (.mapping items stops)
  | .sequence elements stops => T.mergeFromSeq2 true stops m elements

end Table

namespace PyDict

variable {W : KeyWorld} (T : Table W) (d : PyDict)

/-- `m_version.fetch_add(1)`, after a change of the map. -/
def changed (map : Entries) : PyDict := ⟨map, d.version + 1⟩

/-- An operation, with whether it raises nothing. -/
def step : DictOp → PyDict × Bool
  | .insert key value => (d.changed (T.insertOrAssign d.map key value), true)
  | .setitem key value => (d.changed (T.insertOrAssign d.map key value), true)
  | .delitem key =>
    match T.delitem d.map key with
    | some map => (d.changed map, true)
    | none => (d, false)
  | .remove key => (d.changed (T.erase d.map key), true)
  | .pop key default =>
    match T.delitem d.map key with
    | some map => ({ d with map }, true)
    | none => (d, default.isSome)
  | .merge other override => ({ d with map := (T.merge d.map override other).1 }, (T.merge d.map override other).2)
  | .update other => ({ d with map := (T.update d.map other).1 }, (T.update d.map other).2)
  | .setdefault key default =>
    match T.find d.map key with
    | some _ => (d, true)
    | none => (d.changed (T.insertOrAssign d.map key default), true)

def run (ops : List DictOp) : PyDict := ops.foldl (fun d op => (d.step T op).1) d

/-- The mapping has the key already, and with this value where it would be assigned. -/
def Has (override : Bool) (key value : Key) : Prop :=
  ∃ i, T.find d.map key = some i ∧ (override = true → d.map[i]?.map Prod.snd = some value)

/-- Everything that would be merged is there. -/
def HasAll (override : Bool) : Source → Prop
  | .dict _ entries => ∀ entry ∈ entries, d.Has T override entry.1 entry.2
  | .mapping items _ => ∀ item ∈ items, ∀ value, item.2 = some value → d.Has T true item.1 value
  | .sequence elements _ => ∀ element ∈ elements, ∀ pair, element = some pair → d.Has T override pair.1 pair.2

/-- The count does not overflow, and what is not counted is no change. -/
def Counts : DictOp → Prop
  | .insert _ _ | .setitem _ _ | .remove _ => d.version ≠ BitVec.allOnes 64
  | .delitem key => (T.findDictKey d.map key).isSome → d.version ≠ BitVec.allOnes 64
  | .setdefault key _ => (T.find d.map key).isNone → d.version ≠ BitVec.allOnes 64
  | .pop key _ => T.findDictKey d.map key = none
  | .merge (.sequence _ _) _ => True
  | .merge other override => d.HasAll T override other
  | .update other => d.HasAll T true other

def AllCount : PyDict → List DictOp → Prop
  | _, [] => True
  | d, op :: ops => d.Counts T op ∧ AllCount (d.step T op).1 ops

/-- Nothing has changed, or the version is larger. -/
def Advances (d d' : PyDict) : Prop := d' = d ∨ d.version < d'.version

variable {T d} {d' d'' : PyDict}

theorem Advances.trans (h : Advances d d') (h' : Advances d' d'') : Advances d d'' := by
  rcases h with rfl | hlt
  · exact h'
  · rcases h' with rfl | hlt'
    · exact Or.inr hlt
    · exact Or.inr (BitVec.lt_trans hlt hlt')

theorem advances_changed {map : Entries} (h : d.version ≠ BitVec.allOnes 64) : Advances d (d.changed map) :=
  Or.inr (BitVec.lt_add_one h)

/-! ## Merging what is there -/

theorem put_of_has {override : Bool} {key value : Key} (h : d.Has T override key value) :
    T.put override d.map key value = d.map := by
  obtain ⟨i, hfind, hvalue⟩ := h
  unfold Table.put
  split
  next hover =>
    unfold Table.insertOrAssign
    rw [hfind]
    obtain ⟨e, he, rfl⟩ := Option.map_eq_some_iff.mp (hvalue hover)
    refine List.ext_getElem? fun j => ?_
    rw [List.getElem?_modify]
    split
    next hj =>
      subst hj
      rw [he]
      rfl
    next => exact Option.map_id' ..
  next =>
    unfold Table.emplace
    rw [hfind]

theorem mergeDict_of_has {override : Bool} : ∀ {entries : Entries}, (∀ e ∈ entries, d.Has T override e.1 e.2) →
    T.mergeDict override d.map entries = d.map
  | [], _ => rfl
  | e :: entries, h => by
    unfold Table.mergeDict
    rw [List.foldl_cons, put_of_has (h e List.mem_cons_self)]
    exact mergeDict_of_has fun e' he' => h e' (List.mem_cons_of_mem e he')

theorem mergeMapping_of_has {override stops : Bool} : ∀ {items : List (Key × Option Key)},
    (∀ item ∈ items, ∀ value, item.2 = some value → d.Has T true item.1 value) →
      (T.mergeMapping override stops d.map items).1 = d.map
  | [], _ => rfl
  | (key, value) :: items, h => by
    unfold Table.mergeMapping
    split
    · rfl
    · split
      next => rfl
      next value =>
        have hput : T.insertOrAssign d.map key value = d.map := put_of_has (h _ List.mem_cons_self value rfl)
        rw [hput]
        exact mergeMapping_of_has fun item hitem => h item (List.mem_cons_of_mem _ hitem)

theorem mergeElements_of_has {override stops : Bool} : ∀ {elements : List (Option (Key × Key))},
    (∀ element ∈ elements, ∀ pair, element = some pair → d.Has T override pair.1 pair.2) →
      (T.mergeElements override stops d.map elements).1 = d.map
  | [], _ => rfl
  | none :: _, _ => rfl
  | some (key, value) :: elements, h => by
    unfold Table.mergeElements
    rw [put_of_has (h _ List.mem_cons_self (key, value) rfl)]
    exact mergeElements_of_has fun element he => h element (List.mem_cons_of_mem _ he)

theorem mergeFromSeq2_of_has {override stops : Bool} {elements : List (Option (Key × Key))}
    (h : ∀ element ∈ elements, ∀ pair, element = some pair → d.Has T override pair.1 pair.2) :
    (T.mergeFromSeq2 override stops d.map elements).1 = d.map := by
  unfold Table.mergeFromSeq2
  split
  · rfl
  · exact mergeElements_of_has h

/-! ## Runs -/

theorem advances_step {op : DictOp} (h : d.Counts T op) : Advances d (d.step T op).1 := by
  cases op with
  | insert key value => exact advances_changed h
  | setitem key value => exact advances_changed h
  | remove key => exact advances_changed h
  | delitem key =>
    unfold step Table.delitem
    dsimp only
    cases hfind : T.findDictKey d.map key with
    | none => exact Or.inl rfl
    | some i => exact advances_changed (h (by rw [hfind]; rfl))
  | setdefault key default =>
    unfold step
    dsimp only
    cases hfind : T.find d.map key with
    | some i => exact Or.inl rfl
    | none => exact advances_changed (h (by rw [hfind]; rfl))
  | pop key default =>
    have hmissing : T.findDictKey d.map key = none := h
    refine Or.inl ?_
    unfold step Table.delitem
    dsimp only
    rw [hmissing]
    rfl
  | merge other override =>
    refine Or.inl ?_
    cases other with
    | dict exact entries => exact congrArg (PyDict.mk · d.version) (mergeDict_of_has h)
    | mapping items stops => exact congrArg (PyDict.mk · d.version) (mergeMapping_of_has h)
    | sequence elements stops => rfl
  | update other =>
    refine Or.inl ?_
    cases other with
    | dict exact entries => cases exact <;> exact congrArg (PyDict.mk · d.version) (mergeDict_of_has h)
    | mapping items stops => exact congrArg (PyDict.mk · d.version) (mergeMapping_of_has h)
    | sequence elements stops => exact congrArg (PyDict.mk · d.version) (mergeFromSeq2_of_has h)

theorem run_append (pre post : List DictOp) : d.run T (pre ++ post) = (d.run T pre).run T post := List.foldl_append ..

theorem advances_run : ∀ {ops : List DictOp} {d : PyDict}, AllCount T d ops → Advances d (d.run T ops)
  | [], _, _ => Or.inl rfl
  | _ :: _, _, ⟨hop, hops⟩ => (advances_step hop).trans (advances_run hops)

theorem AllCount.append : ∀ {pre post : List DictOp} {d : PyDict}, AllCount T d (pre ++ post) →
    AllCount T d pre ∧ AllCount T (d.run T pre) post
  | [], _, _, h => ⟨trivial, h⟩
  | _ :: _, _, _, ⟨hop, hops⟩ =>
    have ⟨hpre, hpost⟩ := hops.append
    ⟨⟨hop, hpre⟩, hpost⟩

/-- **The version tells every change**, in a run in which every change is counted. -/
theorem version_tells (T : Table W) (d : PyDict) {ops : List DictOp} (h : AllCount T d ops) :
    (∀ pre op post, ops = pre ++ op :: post → (((d.run T pre).step T op).1.map ≠ (d.run T pre).map) →
      (d.run T pre).version < ((d.run T pre).step T op).1.version) ∧
    ∀ pre mid post, ops = pre ++ mid ++ post → (d.run T pre).version = (d.run T (pre ++ mid)).version →
      (d.run T pre).map = (d.run T (pre ++ mid)).map := by
  refine ⟨fun pre op post hops hne => ?_, fun pre mid post hops heq => ?_⟩
  · rw [hops] at h
    rcases advances_step h.append.2.1 with heq | hlt
    · exact absurd (congrArg PyDict.map heq) hne
    · exact hlt
  · rw [hops] at h
    rw [run_append] at heq ⊢
    rcases advances_run h.append.1.append.2 with hsame | hlt
    · rw [hsame]
    · rw [← heq] at hlt
      exact absurd hlt (BitVec.lt_irrefl _)

/-- `d = {1: 1}`, stored and found. -/
def oneToOne : PyDict := ⟨[(one, one)], 1⟩

theorem find_oneToOne : (firstTable plainWorld).find oneToOne.map one = some 0 := by
  show List.findIdx? _ _ = _
  rw [oneToOne, List.findIdx?_singleton]
  rfl

/-- `d[1] = 1` on an empty dictionary. -/
theorem version_tells_one : (⟨[], 1⟩ : PyDict).version <
    ((⟨[], 1⟩ : PyDict).step (firstTable plainWorld) (.insert one one)).1.version := by
  have hversion : (⟨[], 1⟩ : PyDict).version ≠ BitVec.allOnes 64 := by decide
  have hcount : AllCount (firstTable plainWorld) ⟨[], 1⟩ [.insert one one] := ⟨hversion, trivial⟩
  refine (version_tells (firstTable plainWorld) ⟨[], 1⟩ hcount).1 [] _ [] rfl fun h => ?_
  cases h

/-- `d.pop(1)` leaves the version as it is. -/
theorem pop_uncounted : ¬ ((oneToOne.step (firstTable plainWorld) (.pop one none)).1.map ≠ oneToOne.map →
    oneToOne.version < (oneToOne.step (firstTable plainWorld) (.pop one none)).1.version) := by
  have hpop : (oneToOne.step (firstTable plainWorld) (.pop one none)).1 = ⟨[], 1⟩ := by
    unfold step Table.delitem Table.findDictKey
    dsimp only
    rw [find_oneToOne]
    rfl
  rw [hpop]
  intro h
  exact absurd (h (by simp [oneToOne])) (by decide)

end PyDict

end Pylang.Tagged
