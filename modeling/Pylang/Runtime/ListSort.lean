/-
`PyList::sort`, against the stable sort by key.

With a key the positions are sorted and the elements are then moved to their
places by swaps, one place after the other (`place`). `reverse` sorts the range
from its end, which keeps the order of equal elements; a list of tagged integers
is sorted forwards by `>` instead.
-/
import Pylang.Lib.ListFacts
import Pylang.Lib.StableSort
import Pylang.Runtime.ListStorage

namespace Pylang.Runtime

open Lib (OrderOn StableSorted Arranges leAt stableSort)

/-- What `sort` calls. -/
structure SortWorld (Obj E : Type) where
  /-- `RuntimeContext::has_current`. -/
  hasCurrent : Bool
  isNone : ListValue Obj → Bool
  /-- `as_int`, of a tagged integer. -/
  taggedInt : ListValue Obj → Option Int
  /-- `RuntimeContext::is_true`. -/
  isTrue : ListValue Obj → Bool
  isTruthy : ListValue Obj → Bool
  /-- The call of a function with one argument. -/
  call : ListValue Obj → ListValue Obj → Except E (ListValue Obj)
  /-- `richcompare` with `Py_LT`. -/
  richcompareLt : ListValue Obj → ListValue Obj → Except E (ListValue Obj)
  isTruthy_bool : ∀ b, isTruthy (.bool b) = b

/-- The arguments of `sort`. -/
structure SortArgs (Obj : Type) where
  args : List (ListValue Obj) := []
  key : Option (ListValue Obj) := none
  reverse : Option (ListValue Obj) := none

inductive SortStop (E : Type) where
  | typeError (message : String)
  | raised (e : E)
  | undefined
deriving DecidableEq

/-! ## The swaps -/

section

variable {α : Type}

/-- `std::iter_swap`. -/
def iterSwap (l : List α) (i j : Nat) : Option (List α) :=
  match l[i]?, l[j]? with
  | some a, some b => some ((l.set i b).set j a)
  | _, _ => none

/-- The swaps for the place `i`: of the element that comes there, and of the index that names `i`. -/
def place (i : Nat) (elements : List α) (indices : List Nat) : Option (List α × List Nat) :=
  match indices[i]? with
  | none => none
  | some source =>
    if source = i then some (elements, indices)
    else
      let o := i + 1 + (indices.drop (i + 1)).findIdx (· = i)
      match iterSwap elements i source, iterSwap indices i o with
      | some elements, some indices => some (elements, indices)
      | _, _ => none

/-- The loop over all places but the last. -/
def placeAll (elements : List α) (indices : List Nat) : Option (List α) :=
  ((List.range (indices.length - 1)).foldlM (fun s i => place i s.1 s.2) (elements, indices)).map Prod.fst

end

/-- `std::stable_sort` of the range, or of the range from its end. -/
def sortRange {α σ : Type} (lt : α → α → σ → Bool × σ) (reverse : Bool) (l : List α) (s : σ) : List α × σ :=
  if reverse then
    let (l, s) := stableSort lt l.reverse s
    (l.reverse, s)
  else stableSort lt l s

namespace SortWorld

variable {Obj E : Type} (W : SortWorld Obj E)

def lessThan (lhs rhs : ListValue Obj) : Except E (ListValue Obj) :=
  match W.taggedInt lhs, W.taggedInt rhs with
  | some a, some b => .ok (.bool (a < b))
  | _, _ => W.richcompareLt lhs rhs

def truthy (value : ListValue Obj) : Except E Bool := .ok (W.isTruthy value)

/-- The answer of a comparison. -/
def answer (lhs rhs : ListValue Obj) : Except E Bool :=
  match W.lessThan lhs rhs with
  | .error e => .error e
  | .ok result => W.truthy result

/-- The part that the two comparisons have in common: after an error the answer is `false`. -/
def compare (lhs rhs : ListValue Obj) (err : Option E) : Bool × Option E :=
  match err with
  | some e => (false, some e)
  | none =>
    if W.hasCurrent then
      match W.answer lhs rhs with
      | .error e => (false, some e)
      | .ok b => (b, none)
    else (false, none)

/-- The comparison of two indices, which are within the keys. -/
def compareIndices (cmpList : List (ListValue Obj)) (lhsIndex rhsIndex : Nat) (err : Option E) : Bool × Option E :=
  match cmpList[lhsIndex]?, cmpList[rhsIndex]? with
  | some lhs, some rhs => W.compare lhs rhs err
  | _, _ => (false, err)

/-- The comparison of two elements. -/
def compareElements (lhs rhs : ListValue Obj) (err : Option E) : Bool × Option E :=
  match W.taggedInt lhs, W.taggedInt rhs with
  | some a, some b => (decide (a < b), err)
  | _, _ => W.compare lhs rhs err

/-- `as_int`. -/
def asInt (value : ListValue Obj) : Int := (W.taggedInt value).getD 0

/-- The vector that a sort leaves, and how it ends. -/
abbrev Sorting (Obj E : Type) := List (ListValue Obj) × Except (SortStop E) Unit

def sortByKey (key : ListValue Obj) (reverse : Bool) (elements : List (ListValue Obj)) : Sorting Obj E :=
  match elements.mapM (W.call key) with
  | .error e => (elements, .error (.raised e))
  | .ok cmpList =>
    match sortRange (W.compareIndices cmpList) reverse (List.range cmpList.length) none with
    | (_, some e) => (elements, .error (.raised e))
    | (indices, none) =>
      match placeAll elements indices with
      | none => (elements, .error .undefined)
      | some elements => (elements, .ok ())

/-- The path for tagged integers. -/
def sortTagged (reverse : Bool) (elements : List (ListValue Obj)) : List (ListValue Obj) :=
  if reverse then (stableSort (fun lhs rhs s => (decide (W.asInt rhs < W.asInt lhs), s)) elements ()).1
  else (stableSort (fun lhs rhs s => (decide (W.asInt lhs < W.asInt rhs), s)) elements ()).1

/-- The path for all elements. -/
def sortGeneric (reverse : Bool) (elements : List (ListValue Obj)) : Sorting Obj E :=
  match sortRange W.compareElements reverse elements none with
  | (elements, some e) => (elements, .error (.raised e))
  | (elements, none) => (elements, .ok ())

def sortPlain (reverse : Bool) (elements : List (ListValue Obj)) : Sorting Obj E :=
  if elements.all fun el => (W.taggedInt el).isSome then (W.sortTagged reverse elements, .ok ())
  else W.sortGeneric reverse elements

/-- The flag is not read where there is no context. -/
def reverseOf (a : SortArgs Obj) : Bool :=
  match a.reverse with
  | some value => W.hasCurrent && W.isTrue value
  | none => false

def sortElements (a : SortArgs Obj) (elements : List (ListValue Obj)) : Sorting Obj E :=
  if a.args.isEmpty then
    if elements.isEmpty then (elements, .ok ())
    else
      match a.key with
      | some key => if W.isNone key then W.sortPlain (W.reverseOf a) elements else W.sortByKey key (W.reverseOf a) elements
      | none => W.sortPlain (W.reverseOf a) elements
  else (elements, .error (.typeError "sort() takes no positional arguments"))

/-! ## What is asked of a sort -/

/-- The key of an element. -/
def keyOf (a : SortArgs Obj) (el : ListValue Obj) : Except E (ListValue Obj) :=
  match a.key with
  | some key => if W.isNone key then .ok el else W.call key el
  | none => .ok el

/-- The comparison answers on these keys, as a total order does. -/
structure Orders (lt : ListValue Obj → ListValue Obj → Bool) (keys : List (ListValue Obj)) : Prop where
  answers : ∀ x ∈ keys, ∀ y ∈ keys, W.answer x y = .ok (lt x y)
  order : OrderOn (fun x y => !lt y x) keys

def wantsReverse (a : SortArgs Obj) : Bool := a.reverse.any W.isTrue

/-- The order of the elements that the sort is asked for. -/
def leBy {V : Type} (lt : V → V → Bool) (k : V → V) (reverse : Bool) (a b : V) : Bool :=
  if reverse then !lt (k a) (k b) else !lt (k b) (k a)

/-- The elements by their keys, stably, and by one path as by the other. -/
structure SortsRight (a : SortArgs Obj) (lt : ListValue Obj → ListValue Obj → Bool) (k : ListValue Obj → ListValue Obj)
    (elements : List (ListValue Obj)) (r : Sorting Obj E) : Prop where
  ok : r.2 = .ok ()
  perm : r.1.Perm elements
  ordered : r.1.Pairwise fun x y => leBy lt k (W.wantsReverse a) x y = true
  stable : StableSorted (leBy lt k (W.wantsReverse a)) elements r.1
  fast : (∀ el ∈ elements, (W.taggedInt el).isSome = true) →
    ∀ reverse, W.sortGeneric reverse elements = (W.sortTagged reverse elements, .ok ())

end SortWorld

/-- `PyList::sort`. -/
def PyList.sort {Obj E : Type} (W : SortWorld Obj E) (l : PyList Obj) (a : SortArgs Obj) :
    PyList Obj × Except (SortStop E) Unit :=
  let l := l.normalizeStorage
  let (elements, reply) := W.sortElements a l.elements
  ({ l with elements }, reply)

/-! ## The swaps move every element to its place -/

section

variable {α : Type} {l r target elements : List α} {indices : List Nat} {i j : Nat} {a b : α}

theorem iterSwap_eq (hi : l[i]? = some a) (hj : l[j]? = some b) : ∃ r, iterSwap l i j = some r ∧ r.Perm l ∧
    r[i]? = some b ∧ r[j]? = some a ∧ ∀ k, k ≠ i → k ≠ j → r[k]? = l[k]? := by
  obtain ⟨hilt, rfl⟩ := List.getElem?_eq_some_iff.mp hi
  obtain ⟨hjlt, rfl⟩ := List.getElem?_eq_some_iff.mp hj
  refine ⟨(l.set i l[j]).set j l[i], by rw [iterSwap, hi, hj], List.set_set_perm hilt hjlt, ?_, ?_, ?_⟩
  · rw [List.getElem?_set, List.getElem?_set]
    by_cases hij : j = i
    · subst hij
      simp [hilt]
    · simp [hij, hilt]
  · rw [List.getElem?_set, List.length_set, if_pos rfl, if_pos hjlt]
  · intro k hki hkj
    rw [List.getElem?_set, if_neg (Ne.symm hkj), List.getElem?_set, if_neg (Ne.symm hki)]

/-- Each place before `i` is done; the element for a place stands where the index there says. -/
structure Placed (target : List α) (i : Nat) (elements : List α) (indices : List Nat) : Prop where
  size : elements.length = target.length
  perm : indices.Perm (List.range target.length)
  done : ∀ k < i, indices[k]? = some k
  element : ∀ k j : Nat, indices[k]? = some j → elements[j]? = target[k]?

namespace Placed

theorem length (h : Placed target i elements indices) : indices.length = target.length := by
  rw [h.perm.length_eq, List.length_range]

theorem nodup (h : Placed target i elements indices) : indices.Nodup :=
  h.perm.nodup_iff.mpr List.nodup_range

theorem injective (h : Placed target i elements indices) {k k' : Nat} (hk : indices[k]? = some j)
    (hk' : indices[k']? = some j) : k = k' := by
  obtain ⟨hlt, -⟩ := List.getElem?_eq_some_iff.mp hk
  exact (List.getElem?_inj hlt h.nodup).mp (hk.trans hk'.symm)

theorem find (h : Placed target i elements indices) (hi : i < target.length) (hne : indices[i]? ≠ some i) :
    indices[i + 1 + (indices.drop (i + 1)).findIdx (· = i)]? = some i := by
  have hmem : i ∈ indices := h.perm.mem_iff.mpr (List.mem_range.mpr hi)
  obtain ⟨p, hp, hpi⟩ := List.mem_iff_getElem.mp hmem
  have hsome : indices[p]? = some i := by rw [List.getElem?_eq_getElem hp, hpi]
  have hafter : i < p := by
    rcases Nat.lt_trichotomy i p with hlt | heq | hgt
    · exact hlt
    · exact absurd (heq ▸ hsome) hne
    · have hdone := h.done p hgt
      rw [hsome] at hdone
      cases hdone
      exact absurd hgt (lt_irrefl _)
  have hdrop : i ∈ indices.drop (i + 1) := by
    refine List.mem_iff_getElem?.mpr ⟨p - (i + 1), ?_⟩
    rw [List.getElem?_drop, show i + 1 + (p - (i + 1)) = p by omega, hsome]
  have hfound : (indices.drop (i + 1)).findIdx (· = i) < (indices.drop (i + 1)).length :=
    List.findIdx_lt_length_of_exists ⟨i, hdrop, by simp⟩
  rw [← List.getElem?_drop, List.getElem?_eq_getElem hfound]
  have hat := List.findIdx_getElem (w := hfound)
  simpa using hat

theorem step (h : Placed target i elements indices) (hi : i < target.length) :
    ∃ elements' indices', place i elements indices = some (elements', indices') ∧
      Placed target (i + 1) elements' indices' := by
  have hlt : i < indices.length := h.length ▸ hi
  obtain ⟨source, hsource⟩ : ∃ source, indices[i]? = some source := ⟨_, List.getElem?_eq_getElem hlt⟩
  unfold place
  rw [hsource]
  by_cases heq : source = i
  · subst heq
    refine ⟨elements, indices, by simp, h.size, h.perm, fun k hk => ?_, h.element⟩
    rcases Nat.lt_succ_iff_lt_or_eq.mp hk with hk | rfl
    · exact h.done k hk
    · exact hsource
  · simp only [if_neg heq]
    have ho := h.find hi (by rw [hsource]; simpa using heq)
    set o := i + 1 + (indices.drop (i + 1)).findIdx (· = i) with hodef
    have hoi : o ≠ i := by omega
    -- the element for `i` stands at `source`, and the element for `o` at `i`
    have hpast : target[i]? = some target[i] := List.getElem?_eq_getElem hi
    have hthere : elements[source]? = some target[i] := (h.element i source hsource).trans hpast
    have hotarget : o < target.length := h.length ▸ (List.getElem?_eq_some_iff.mp ho).1
    have hhere : elements[i]? = some target[o] := (h.element o i ho).trans (List.getElem?_eq_getElem hotarget)
    obtain ⟨elements', hswap, hpermE, hi', hsource', hrest'⟩ := iterSwap_eq hhere hthere
    obtain ⟨indices', hswapI, hpermI, hiI, hoI, hrestI⟩ := iterSwap_eq hsource ho
    refine ⟨elements', indices', by rw [hswap, hswapI], hpermE.length_eq.trans h.size,
      hpermI.trans h.perm, fun k hk => ?_, fun k j hkj => ?_⟩
    · rcases Nat.lt_succ_iff_lt_or_eq.mp hk with hk | rfl
      · rw [hrestI k (by omega) (by omega)]
        exact h.done k hk
      · exact hiI
    · by_cases hki : k = i
      · subst hki
        obtain rfl : k = j := Option.some.inj (hiI.symm.trans hkj)
        exact hi'.trans hpast.symm
      · by_cases hko : k = o
        · subst hko
          obtain rfl : source = j := Option.some.inj (hoI.symm.trans hkj)
          rw [hsource', List.getElem?_eq_getElem hotarget]
        · rw [hrestI k hki hko] at hkj
          have hji : j ≠ i := fun he => hko (h.injective hkj (he ▸ ho))
          have hjs : j ≠ source := fun he => hki (h.injective hkj (he ▸ hsource))
          rw [hrest' j hji hjs]
          exact h.element k j hkj

theorem run (h : Placed target i elements indices) : ∀ m, i + m ≤ target.length →
    ∃ elements' indices', (List.range' i m).foldlM (fun s i => place i s.1 s.2) (elements, indices) =
      some (elements', indices') ∧ Placed target (i + m) elements' indices' := by
  intro m
  induction m generalizing i elements indices with
  | zero => exact fun _ => ⟨elements, indices, rfl, h⟩
  | succ m ih =>
    intro hm
    obtain ⟨elements₁, indices₁, hplace, h₁⟩ := h.step (by omega)
    obtain ⟨elements₂, indices₂, hrun, h₂⟩ := ih h₁ (by omega)
    refine ⟨elements₂, indices₂, ?_, ?_⟩
    · rw [List.range'_succ, List.foldlM_cons, hplace]
      exact hrun
    · rwa [show i + (m + 1) = i + 1 + m by omega]

theorem all_done (h : Placed target (target.length - 1) elements indices) : indices = List.range target.length := by
  refine List.ext_getElem? fun k => ?_
  rcases Nat.lt_or_ge k target.length with hk | hk
  · rw [List.getElem?_range hk]
    by_cases hlast : k < target.length - 1
    · exact h.done k hlast
    · by_contra hne
      have hk' : k = target.length - 1 := by omega
      have hfind := h.find (by omega) (hk' ▸ hne)
      have hlt := (List.getElem?_eq_some_iff.mp hfind).1
      rw [h.length] at hlt
      omega
  · rw [List.getElem?_eq_none (h.length ▸ hk), List.getElem?_eq_none (by simpa using hk)]

end Placed

theorem placeAll_eq (hlength : elements.length = target.length) (hperm : indices.Perm (List.range target.length))
    (helement : ∀ k j : Nat, indices[k]? = some j → elements[j]? = target[k]?) :
    placeAll elements indices = some target := by
  have hstart : Placed target 0 elements indices := ⟨hlength, hperm, fun k hk => absurd hk (Nat.not_lt_zero k), helement⟩
  obtain ⟨elements', indices', hrun, hend⟩ := hstart.run (indices.length - 1) (by rw [hstart.length]; omega)
  have hfold : (List.range (indices.length - 1)).foldlM (fun s i => place i s.1 s.2) (elements, indices) =
      some (elements', indices') := by
    rw [List.range_eq_range']
    exact hrun
  unfold placeAll
  rw [hfold]
  rw [Nat.zero_add, hstart.length] at hend
  have hindices := hend.all_done
  refine congrArg some (List.ext_getElem? fun k => ?_)
  rcases Nat.lt_or_ge k target.length with hk | hk
  · exact hend.element k k (by rw [hindices, List.getElem?_range hk])
  · rw [List.getElem?_eq_none hk, List.getElem?_eq_none (hend.size ▸ hk)]

end

/-! ## The paths -/

section

variable {α β σ : Type} {lt : α → α → σ → Bool × σ} {s : σ}

theorem sortRange_eq (le : α → α → Bool) {reverse : Bool} {l : List α} (h : ∀ a ∈ l, ∀ b ∈ l, lt a b s = (!le b a, s)) :
    sortRange lt reverse l s = (if reverse then (l.reverse.insertionSort fun a b => le a b = true).reverse
      else l.insertionSort fun a b => le a b = true, s) := by
  unfold sortRange
  cases reverse with
  | true =>
    have hsort := Lib.stableSort_eq le (l := l.reverse) fun a ha b hb =>
      h a (List.mem_reverse.mp ha) b (List.mem_reverse.mp hb)
    simp [hsort]
  | false => simp [Lib.stableSort_eq le h]

theorem sortRange_map (f : β → α) (reverse : Bool) (l : List β) : sortRange lt reverse (l.map f) s =
    Prod.map (List.map f) id (sortRange (fun a b => lt (f a) (f b)) reverse l s) := by
  unfold sortRange
  cases reverse with
  | true =>
    rw [if_pos rfl, if_pos rfl, ← List.map_reverse, Lib.stableSort_map]
    simp
  | false => exact Lib.stableSort_map lt f s l

end

namespace SortWorld

variable {Obj E : Type} {W : SortWorld Obj E} {lt : ListValue Obj → ListValue Obj → Bool}
  {k : ListValue Obj → ListValue Obj} {elements keys : List (ListValue Obj)}

theorem Orders.orderOn_leBy (h : W.Orders lt (elements.map k)) : OrderOn (leBy lt k false) elements := h.order.comap

theorem Orders.compare_eq (h : W.Orders lt keys) (hcontext : W.hasCurrent = true) {x y : ListValue Obj} (hx : x ∈ keys)
    (hy : y ∈ keys) : W.compare x y none = (lt x y, none) := by
  unfold compare
  rw [if_pos hcontext, h.answers x hx y hy]

theorem Orders.compareElements_eq (h : W.Orders lt keys) (hcontext : W.hasCurrent = true) {x y : ListValue Obj}
    (hx : x ∈ keys) (hy : y ∈ keys) : W.compareElements x y none = (lt x y, none) := by
  unfold compareElements
  split
  next a b ha hb =>
    -- `less_than` has the same test of the tags
    have hanswer := h.answers x hx y hy
    unfold answer lessThan truthy at hanswer
    rw [ha, hb] at hanswer
    simp only [W.isTruthy_bool] at hanswer
    rw [Except.ok.inj hanswer]
  next => exact h.compare_eq hcontext hx hy

theorem stableSorted_range {le : ListValue Obj → ListValue Obj → Bool} (h : OrderOn le elements) (reverse : Bool) :
    StableSorted (if reverse then fun a b => le b a else le) elements
      (if reverse then (elements.reverse.insertionSort fun a b => le a b = true).reverse
        else elements.insertionSort fun a b => le a b = true) := by
  cases reverse with
  | true => exact .backward h
  | false => exact .forward h

theorem sortGeneric_eq (h : W.Orders lt (elements.map id)) (hcontext : W.hasCurrent = true) (reverse : Bool) :
    ∃ r, W.sortGeneric reverse elements = (r, .ok ()) ∧ StableSorted (leBy lt id reverse) elements r := by
  rw [List.map_id] at h
  have hsort : sortRange W.compareElements reverse elements none = _ :=
    sortRange_eq (leBy lt id false) fun x hx y hy => by
      rw [h.compareElements_eq hcontext hx hy]
      simp [leBy]
  refine ⟨_, by rw [sortGeneric, hsort], ?_⟩
  have horder : OrderOn (leBy lt id false) elements := h.order
  have hstable := stableSorted_range horder reverse
  cases reverse with
  | true => exact hstable
  | false => exact hstable

theorem Orders.compareIndices_eq (h : W.Orders lt (elements.map k)) (hcontext : W.hasCurrent = true)
    (i j : Fin elements.length) :
    W.compareIndices (elements.map k) i j none = (!leAt (leBy lt k false) elements j i, none) := by
  unfold compareIndices
  rw [List.getElem?_map, List.getElem?_map, List.getElem?_eq_getElem i.isLt, List.getElem?_eq_getElem j.isLt]
  have hi : elements[i] ∈ elements := List.getElem_mem i.isLt
  have hj : elements[j] ∈ elements := List.getElem_mem j.isLt
  refine (h.compare_eq hcontext (List.mem_map_of_mem hi) (List.mem_map_of_mem hj)).trans ?_
  simp [leAt, leBy]

theorem indices_eq (h : W.Orders lt (elements.map k)) (hcontext : W.hasCurrent = true) (reverse : Bool) : ∃ positions,
    sortRange (W.compareIndices (elements.map k)) reverse (List.range (elements.map k).length) none =
      (positions.map Fin.val, none) ∧ Arranges (leBy lt k reverse) elements positions := by
  have hrange : List.range (elements.map k).length = (List.finRange elements.length).map Fin.val := by
    rw [List.length_map]
    exact List.map_coe_finRange_eq_range.symm
  rw [hrange, sortRange_map, sortRange_eq (leAt (leBy lt k false) elements) fun i _ j _ =>
    h.compareIndices_eq hcontext i j]
  refine ⟨_, rfl, ?_⟩
  cases reverse with
  | true => exact .backward h.orderOn_leBy
  | false => exact .forward h.orderOn_leBy

theorem placeAll_positions {positions : List (Fin elements.length)}
    (hperm : positions.Perm (List.finRange elements.length)) :
    placeAll elements (positions.map Fin.val) = some (positions.map elements.get) := by
  have hlength : positions.length = elements.length := by rw [hperm.length_eq, List.length_finRange]
  refine placeAll_eq (by rw [List.length_map, hlength]) ?_ fun i j hij => ?_
  · rw [List.length_map, hlength, ← List.map_coe_finRange_eq_range]
    exact hperm.map _
  · rw [List.getElem?_map] at hij ⊢
    obtain ⟨p, hp, rfl⟩ := Option.map_eq_some_iff.mp hij
    rw [hp, List.getElem?_eq_getElem p.isLt]
    rfl

theorem sortByKey_eq {key : ListValue Obj} (hk : ∀ el ∈ elements, W.call key el = .ok (k el))
    (h : W.Orders lt (elements.map k)) (hcontext : W.hasCurrent = true) (reverse : Bool) :
    ∃ r, W.sortByKey key reverse elements = (r, .ok ()) ∧ StableSorted (leBy lt k reverse) elements r := by
  obtain ⟨positions, hindices, harranges⟩ := indices_eq h hcontext reverse
  refine ⟨positions.map elements.get, ?_, positions, harranges, rfl⟩
  rw [sortByKey, Lib.mapM_eq_pure hk]
  simp only [pure, Except.pure, hindices, placeAll_positions harranges.perm]

/-! ## The path for tagged integers -/

/-- The order of the tagged integers. -/
def leInt (W : SortWorld Obj E) (a b : ListValue Obj) : Bool := !decide (W.asInt b < W.asInt a)

theorem orderOn_leInt : OrderOn W.leInt elements where
  total a _ b _ := by
    simp only [leInt, Bool.not_eq_true', decide_eq_false_iff_not]
    omega
  trans a _ b _ c _ := by
    simp only [leInt, Bool.not_eq_true', decide_eq_false_iff_not]
    omega

theorem sortTagged_stable (reverse : Bool) : StableSorted (if reverse then fun a b => W.leInt b a else W.leInt) elements
    (W.sortTagged reverse elements) := by
  unfold sortTagged
  cases reverse with
  | true =>
    simp only [if_true]
    rw [Lib.stableSort_eq (fun a b => W.leInt b a) fun a _ b _ => by simp [leInt]]
    exact .forward orderOn_leInt.flip
  | false =>
    simp only [Bool.false_eq_true, if_false]
    rw [Lib.stableSort_eq W.leInt fun a _ b _ => by simp [leInt]]
    exact .forward orderOn_leInt

/-- **The path for tagged integers** sorts forwards by `>` what the other sorts from the end by `<`. -/
theorem sortGeneric_tagged (h : ∀ el ∈ elements, (W.taggedInt el).isSome = true) (reverse : Bool) :
    W.sortGeneric reverse elements = (W.sortTagged reverse elements, .ok ()) := by
  have hcompare : ∀ a ∈ elements, ∀ b ∈ elements, W.compareElements a b none = (!W.leInt b a, none) := by
    intro a ha b hb
    obtain ⟨m, hm⟩ := Option.isSome_iff_exists.mp (h a ha)
    obtain ⟨n, hn⟩ := Option.isSome_iff_exists.mp (h b hb)
    simp [compareElements, leInt, asInt, hm, hn]
  have hgeneric := stableSorted_range (orderOn_leInt : OrderOn W.leInt elements) reverse
  rw [sortGeneric, sortRange_eq W.leInt hcompare, hgeneric.unique (sortTagged_stable reverse)]

theorem sortPlain_eq (h : W.Orders lt (elements.map id)) (hcontext : W.hasCurrent = true) (reverse : Bool) :
    ∃ r, W.sortPlain reverse elements = (r, .ok ()) ∧ StableSorted (leBy lt id reverse) elements r := by
  obtain ⟨r, hr, hstable⟩ := sortGeneric_eq h hcontext reverse
  refine ⟨r, ?_, hstable⟩
  unfold sortPlain
  split
  next hall => rw [← hr, sortGeneric_tagged (List.all_eq_true.mp hall)]
  next => exact hr

theorem reverseOf_eq (hcontext : W.hasCurrent = true) (a : SortArgs Obj) : W.reverseOf a = W.wantsReverse a := by
  unfold reverseOf wantsReverse
  cases a.reverse with
  | none => rfl
  | some value => simp [hcontext]

theorem sortPlain_keys (hk : ∀ el ∈ elements, (.ok el : Except E (ListValue Obj)) = .ok (k el))
    (h : W.Orders lt (elements.map k)) (hcontext : W.hasCurrent = true) (reverse : Bool) :
    ∃ r, W.sortPlain reverse elements = (r, .ok ()) ∧ StableSorted (leBy lt k reverse) elements r := by
  have hid : ∀ el ∈ elements, k el = id el := fun el hel => (Except.ok.inj (hk el hel)).symm
  rw [List.map_congr_left hid] at h
  obtain ⟨r, hr, hstable⟩ := sortPlain_eq h hcontext reverse
  refine ⟨r, hr, hstable.congr fun x hx y hy => ?_⟩
  unfold leBy
  rw [hid x hx, hid y hy]

theorem sortElements_eq {a : SortArgs Obj} (hargs : a.args = []) (hk : ∀ el ∈ elements, W.keyOf a el = .ok (k el))
    (h : W.Orders lt (elements.map k)) (hcontext : W.hasCurrent = true) :
    ∃ r, W.sortElements a elements = (r, .ok ()) ∧ StableSorted (leBy lt k (W.wantsReverse a)) elements r := by
  unfold sortElements
  rw [hargs, List.isEmpty_nil, if_pos rfl, reverseOf_eq hcontext]
  cases elements with
  | nil => exact ⟨[], rfl, [], ⟨.refl _, List.Pairwise.nil⟩, rfl⟩
  | cons el elements =>
    rw [List.isEmpty_cons, if_neg Bool.false_ne_true]
    unfold keyOf at hk
    cases hkey : a.key with
    | none =>
      rw [hkey] at hk
      exact sortPlain_keys hk h hcontext _
    | some key =>
      rw [hkey] at hk
      by_cases hnone : W.isNone key = true
      · simp only [if_pos hnone] at hk ⊢
        exact sortPlain_keys hk h hcontext _
      · simp only [if_neg hnone] at hk ⊢
        exact sortByKey_eq hk h hcontext _

end SortWorld

namespace PyList

variable {Obj E : Type} {W : SortWorld Obj E} {l : PyList Obj}

/-- **`sort` sorts stably by the keys**, in either direction, where the comparison answers on them as a total order does. -/
theorem sort_right (h : l.Inv) (hcontext : W.hasCurrent = true) {a : SortArgs Obj} (hargs : a.args = [])
    {k : ListValue Obj → ListValue Obj} (hk : ∀ el ∈ l.contents, W.keyOf a el = .ok (k el))
    {lt : ListValue Obj → ListValue Obj → Bool} (hlt : W.Orders lt (l.contents.map k)) :
    W.SortsRight a lt k l.contents ((l.sort W a).1.contents, (l.sort W a).2) := by
  obtain ⟨r, hr, hstable⟩ := SortWorld.sortElements_eq hargs hk hlt hcontext
  have hsort : ((l.sort W a).1.contents, (l.sort W a).2) = (r, .ok ()) := by
    have hnormal : l.sort W a = ({ create l.contents with elements := r }, .ok ()) := by
      unfold sort
      rw [normalizeStorage_eq h]
      exact congrArg (fun s : SortWorld.Sorting Obj E => ({ create l.contents with elements := s.1 }, s.2)) hr
    rw [hnormal]
    rfl
  rw [hsort]
  exact ⟨rfl, hstable.perm, hstable.ordered, hstable, SortWorld.sortGeneric_tagged⟩

end PyList

/-- The integers, each tagged; the one function is the parity. -/
def SortWorld.parity : SortWorld Int Empty where
  hasCurrent := true
  isNone _ := false
  taggedInt
    | .obj n => some n
    | _ => none
  isTrue value := decide (value = .bool true)
  isTruthy value := decide (value = .bool true)
  call _ value := .ok (match value with | .obj n => .obj (n % 2) | value => value)
  richcompareLt _ _ := .ok (.bool false)
  isTruthy_bool b := by cases b <;> rfl

/-- `[2, 1, 4, 3].sort(key=lambda n: n % 2, reverse=True)`. -/
theorem PyList.sort_parity : SortWorld.parity.SortsRight ⟨[], some (.obj 0), some (.bool true)⟩
    (fun x y => decide (SortWorld.parity.asInt x < SortWorld.parity.asInt y))
    (fun value => match value with | .obj n => .obj (n % 2) | value => value)
    [.obj 2, .obj 1, .obj 4, .obj 3]
    (((PyList.create [.obj 2, .obj 1, .obj 4, .obj 3]).sort SortWorld.parity
        ⟨[], some (.obj 0), some (.bool true)⟩).1.contents,
      ((PyList.create [.obj 2, .obj 1, .obj 4, .obj 3]).sort SortWorld.parity
        ⟨[], some (.obj 0), some (.bool true)⟩).2) := by
  refine PyList.sort_right (l := .create [.obj 2, .obj 1, .obj 4, .obj 3]) ((PyList.inv_vector _ 0).mpr (Nat.zero_le _))
    rfl rfl (fun _ _ => rfl) ⟨?_, SortWorld.orderOn_leInt⟩
  intro x hx y hy
  simp only [PyList.contents, PyList.create, List.drop_zero, Bool.false_eq_true, if_false, List.map_cons, List.map_nil,
    List.mem_cons, List.not_mem_nil, or_false] at hx hy
  rcases hx with rfl | rfl | rfl | rfl <;> rcases hy with rfl | rfl | rfl | rfl <;> rfl

end Pylang.Runtime
