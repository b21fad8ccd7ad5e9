/-
The targets that `generate_store_target` gets wrong: every one with a slice or
a star in it, in a runtime that counts the stores and the iterations. What is
dropped is not counted, and a star makes the lengths differ.
-/
import Mathlib
import Pylang.Aot.StoreTarget

namespace Pylang.Aot.Targets

/-- Code that returns. -/
def Returns {σ E α : Type} (x : Run σ E α) (s : σ) (a : α) (s' : σ) : Prop := x.run.run s = some (.ok a, s')

section Returns

variable {σ E α β : Type} {s s' s'' : σ} {a : α} {b : β}

theorem Returns.pure (a : α) (s : σ) : Returns (Pure.pure a : Run σ E α) s a s := rfl

theorem returns_bind {x : Run σ E α} {f : α → Run σ E β} :
    Returns (x >>= f) s b s'' ↔ ∃ a s', Returns x s a s' ∧ Returns (f a) s' b s'' := by
  unfold Returns
  rw [ExceptT.run_bind, StateT.run_bind]
  cases hx : x.run.run s with
  | none => simp
  | some r =>
    obtain ⟨r, s'⟩ := r
    cases r with
    | error e => simp [ExceptT.run, StateT.run, Pure.pure, StateT.pure]
    | ok a => simp

theorem Returns.bind {x : Run σ E α} {f : α → Run σ E β} (hx : Returns x s a s') (hf : Returns (f a) s' b s'') :
    Returns (x >>= f) s b s'' := returns_bind.mpr ⟨a, s', hx, hf⟩

theorem Returns.unique {x : Run σ E α} {a' : α} (h : Returns x s a s') (h' : Returns x s a' s'') : a = a' ∧ s' = s'' := by
  have heq := Option.some.inj (h.symm.trans h')
  exact ⟨Except.ok.inj (congrArg Prod.fst heq), congrArg Prod.snd heq⟩

end Returns

/-! ## A runtime that counts -/

/-- Values: an atom, or what may be unpacked. -/
inductive Item
  | atom
  | iterable (items : List Item)
  | list (items : List Item)
  | tuple (items : List Item)

inductive Err
  | stop
  | value (message : String)
  | type
  deriving DecidableEq

/-- The stores and iterations so far, and the items left of the last iteration. -/
abbrev Count := Nat × List Item

section Counting

variable {ε : Type}

/-- Anything may be stored, and anything but an atom is iterated over. -/
def counting (ε : Type) : Runtime Count Item Err ε where
  generate _ := pure .atom
  storeVariable _ _ := modify fun s => (s.1 + 1, s.2)
  setattr _ _ _ := modify fun s => (s.1 + 1, s.2)
  setitem _ _ _ := modify fun s => (s.1 + 1, s.2)
  none := .atom
  createSlice _ _ _ := .atom
  createTuple := .tuple
  createList := .list
  view v _ :=
    match v with
    | .tuple l => .tuple l
    | .list l => .list l
    | _ => .other
  iter v :=
    match v with
    | .atom => throw .type
    | .iterable l => do
      modify fun s => (s.1 + 1, l)
      return .atom
    | .list l => do
      modify fun s => (s.1, l)
      return .atom
    | .tuple l => do
      modify fun s => (s.1, l)
      return .atom
  next _ := do
    match (← get).2 with
    | [] => throw .stop
    | v :: l =>
      modify fun s => (s.1, l)
      return v
  dictItems _ := none
  valueError := .value
  stopsExactly e := e = .stop
  stops e := e = .stop
  view_createTuple _ _ := rfl

theorem counting_plain : (counting ε).Plain := fun _ => rfl

theorem iter_iterable (l : List Item) (n : Nat) (c : List Item) :
    Returns ((counting ε).iter (.iterable l)) (n, c) .atom (n + 1, l) := rfl

theorem iter_list (l : List Item) (n : Nat) (c : List Item) :
    Returns ((counting ε).iter (.list l)) (n, c) .atom (n, l) := rfl

theorem nextItem_cons (it v : Item) (n : Nat) (l : List Item) :
    Returns ((counting ε).nextItem (counting ε).stops it) (n, v :: l) (some v) (n, l) := rfl

theorem nextItem_nil (it : Item) (n : Nat) :
    Returns ((counting ε).nextItem (counting ε).stops it) (n, []) none (n, []) := rfl

theorem unpackRest_iff (it : Item) (count left n : Nat) (l vs : List Item) (s' : Count) :
    Returns ((counting ε).unpackRest (counting ε).stops it count left) (n, l) vs s' ↔
      l.length = left ∧ vs = l ∧ s' = (n, []) := by
  induction left generalizing l vs s' with
  | zero =>
    unfold Runtime.unpackRest
    rw [returns_bind]
    cases l with
    | nil =>
      constructor
      · intro h
        obtain ⟨o, s₁, hnext, hrest⟩ := h
        obtain ⟨rfl, rfl⟩ := (nextItem_nil it n).unique hnext
        obtain ⟨rfl, rfl⟩ := (Returns.pure _ _).unique hrest
        exact ⟨rfl, rfl, rfl⟩
      · intro h
        obtain ⟨-, rfl, rfl⟩ := h
        exact ⟨none, _, nextItem_nil it n, .pure _ _⟩
    | cons v l =>
      constructor
      · intro h
        obtain ⟨o, s₁, hnext, hrest⟩ := h
        obtain ⟨rfl, rfl⟩ := (nextItem_cons it v n l).unique hnext
        cases hrest
      · intro h
        obtain ⟨h, -⟩ := h
        cases h
  | succ left ih =>
    unfold Runtime.unpackRest
    rw [returns_bind]
    cases l with
    | nil =>
      constructor
      · intro h
        obtain ⟨o, s₁, hnext, hrest⟩ := h
        obtain ⟨rfl, rfl⟩ := (nextItem_nil it n).unique hnext
        cases hrest
      · intro h
        obtain ⟨h, -⟩ := h
        cases h
    | cons v l =>
      constructor
      · intro h
        obtain ⟨o, s₁, hnext, hrest⟩ := h
        obtain ⟨rfl, rfl⟩ := (nextItem_cons it v n l).unique hnext
        obtain ⟨ws, s₂, hws, hpure⟩ := returns_bind.mp hrest
        obtain ⟨hlen, rfl, rfl⟩ := (ih l ws s₂).mp hws
        obtain ⟨rfl, rfl⟩ := (Returns.pure _ _).unique hpure
        exact ⟨congrArg Nat.succ hlen, rfl, rfl⟩
      · intro h
        obtain ⟨hlen, rfl, rfl⟩ := h
        exact ⟨some v, _, nextItem_cons it v n l, .bind ((ih l l _).mpr ⟨Nat.succ.inj hlen, rfl, rfl⟩) (.pure _ _)⟩

theorem collect_returns (it : Item) (n : Nat) (l : List Item) : Returns ((counting ε)._collect it) (n, l) l (n, []) := by
  induction l with
  | nil =>
    rw [Runtime._collect]
    exact .bind (nextItem_nil it n) (.pure _ _)
  | cons v l ih =>
    rw [Runtime._collect]
    exact .bind (nextItem_cons it v n l) (.bind ih (.pure _ _))

/-! ## Values of the shape of a target -/

mutual

/-- A value that fits a target; a star takes no more than it needs. -/
def shape : Target ε → Item
  | .tuple elements => .iterable (items elements)
  | .list elements => .iterable (items elements)
  | .starred value => .list (inner value)
  | _ => .atom

def inner : Target ε → List Item
  | .tuple elements => items elements
  | .list elements => items elements
  | .starred value => inner value
  | _ => []

def items : List (Target ε) → List Item
  | [] => []
  | t :: ts => (if t.isStarred then inner t else [shape t]) ++ items ts

end

mutual

/-- How often Python counts, storing the value of its shape. -/
def events : Target ε → Nat
  | .tuple elements => 1 + eventsAll elements
  | .list elements => 1 + eventsAll elements
  | .starred value => innerEvents value
  | _ => 1

def innerEvents : Target ε → Nat
  | .tuple elements => eventsAll elements
  | .list elements => eventsAll elements
  | .starred value => innerEvents value
  | _ => 1

def eventsAll : List (Target ε) → Nat
  | [] => 0
  | t :: ts => events t + eventsAll ts

end

theorem items_of_unstarred : ∀ {ts : List (Target ε)}, (∀ t ∈ ts, t.isStarred = false) → items ts = ts.map shape
  | [], _ => by simp only [items, List.map_nil]
  | t :: ts, h => by
    simp only [items, h t List.mem_cons_self, Bool.false_eq_true, if_false, List.map_cons, List.singleton_append,
      items_of_unstarred fun t ht => h t (List.mem_cons_of_mem _ ht)]

theorem items_append (ts ts' : List (Target ε)) : items (ts ++ ts') = items ts ++ items ts' := by
  induction ts with
  | nil => simp only [List.nil_append, items]
  | cons t ts ih => simp only [List.cons_append, items, ih, List.append_assoc]

/-- Elements with one star. -/
structure OneStar (ts pre : List (Target ε)) (value : Target ε) (post : List (Target ε)) : Prop where
  eq : ts = pre ++ .starred value :: post
  pre : ∀ t ∈ pre, t.isStarred = false
  post : ∀ t ∈ post, t.isStarred = false

theorem star_split {ts : List (Target ε)} (h : (ts.filter Target.isStarred).length ≤ 1) :
    ts.findIdx? Target.isStarred = none ∧ (∀ t ∈ ts, t.isStarred = false) ∨
      ∃ pre value post, OneStar ts pre value post ∧ ts.findIdx? Target.isStarred = some pre.length := by
  induction ts with
  | nil => exact Or.inl ⟨rfl, fun _ ht => (by cases ht)⟩
  | cons t ts ih =>
    by_cases ht : t.isStarred = true
    · rw [List.filter_cons_of_pos ht, List.length_cons] at h
      have hnil : ts.filter Target.isStarred = [] := List.length_eq_zero_iff.mp (by omega)
      cases t with
      | starred value =>
        refine Or.inr ⟨[], value, ts, ⟨rfl, fun _ ht => (by cases ht), fun t ht => ?_⟩, by simp [List.findIdx?_cons, Target.isStarred]⟩
        simpa using List.filter_eq_nil_iff.mp hnil t ht
      | _ => cases ht
    · rw [List.filter_cons_of_neg ht] at h
      simp only [Bool.not_eq_true] at ht
      rcases ih h with ⟨hidx, hall⟩ | ⟨pre, value, post, hone, hidx⟩
      · refine Or.inl ⟨by simp [List.findIdx?_cons, ht, hidx], fun t' ht' => ?_⟩
        rcases List.mem_cons.mp ht' with rfl | ht'
        · exact ht
        · exact hall t' ht'
      · refine Or.inr ⟨t :: pre, value, post, ⟨by rw [hone.eq, List.cons_append], fun t' ht' => ?_, hone.post⟩,
          by simp [List.findIdx?_cons, ht, hidx]⟩
        rcases List.mem_cons.mp ht' with rfl | ht'
        · exact ht
        · exact hone.pre t' ht'

theorem OneStar.items {ts pre post : List (Target ε)} {value : Target ε} (h : OneStar ts pre value post) :
    items ts = pre.map shape ++ (inner value ++ post.map shape) := by
  have hstar : (Target.starred value).isStarred = true := rfl
  have hcons : Targets.items (.starred value :: post) = inner value ++ post.map shape := by
    simp only [Targets.items, hstar, if_true, inner, items_of_unstarred h.post]
  rw [h.eq, items_append, items_of_unstarred h.pre, hcons]

theorem OneStar.shapes {ts pre post : List (Target ε)} {value : Target ε} (h : OneStar ts pre value post) :
    ts.map shape = pre.map shape ++ .list (inner value) :: post.map shape := by
  rw [h.eq, List.map_append, List.map_cons]
  simp only [shape]

/-! ## Python stores them -/

/-- The parts of a value that fits are the shapes of the elements. -/
theorem pyParts_returns {elements : List (Target ε)} (h : (elements.filter Target.isStarred).length ≤ 1) {v : Item}
    {n k : Nat} {c : List Item}
    (hiter : Returns ((counting ε).iter v) (n, c) .atom (k, items elements))
    (hv : v = .iterable (items elements) ∨ v = .list (items elements)) :
    ∃ c', Returns ((counting ε).pyParts elements v) (n, c) (elements.map shape) (k, c') := by
  unfold Runtime.pyParts
  rcases star_split h with ⟨hidx, hall⟩ | ⟨pre, value, post, hone, hidx⟩
  · rw [hidx]
    have hitems := items_of_unstarred hall
    rcases hv with rfl | rfl
    · refine ⟨[], .bind (Returns.pure View.other _) (.bind hiter ?_)⟩
      exact (unpackRest_iff _ _ _ _ _ _ _).mpr ⟨by rw [hitems, List.length_map], hitems.symm, rfl⟩
    · obtain rfl : k = n := congrArg (·.1) (hiter.unique (iter_list _ n c)).2
      refine ⟨c, .bind (Returns.pure (View.list (items elements)) _) ?_⟩
      have hlen : (items elements).length = elements.length := by rw [hitems, List.length_map]
      show Returns ((counting ε).unpackElements (items elements) elements.length) _ _ _
      unfold Runtime.unpackElements
      rw [if_neg (not_not.mpr hlen), hitems]
      exact .pure _ _
  · rw [hidx]
    refine ⟨[], .bind hiter (.bind (collect_returns _ _ _) ?_)⟩
    have hlen : (items elements).length = pre.length + ((inner value).length + post.length) := by
      rw [hone.items, List.length_append, List.length_append, List.length_map, List.length_map]
    have hpost : elements.length - pre.length - 1 = post.length := by
      rw [hone.eq, List.length_append, List.length_cons]
      omega
    rw [hpost]
    dsimp only
    rw [if_neg (by omega), hone.shapes]
    have hmiddle : (items elements).length - pre.length - post.length = (inner value).length := by omega
    have htake : (items elements).take pre.length = pre.map shape := by
      rw [hone.items, List.take_append_of_le_length (by simp), List.take_of_length_le (by simp)]
    have hdrop : (items elements).drop pre.length = inner value ++ post.map shape := by
      rw [hone.items, List.drop_append_of_le_length (by simp), List.drop_of_length_le (by simp), List.nil_append]
    rw [hmiddle, htake, ← List.drop_drop, hdrop, List.take_left, List.drop_left]
    exact .pure _ _

mutual

theorem pyStore_shape : ∀ (t : Target ε), t.wf = true → ∀ n c,
    ∃ c', Returns ((counting ε).pyStore t (shape t)) (n, c) () (n + events t, c')
  | .name _, _, n, c => by
    simp only [Runtime.pyStore, events]
    exact ⟨c, rfl⟩
  | .attribute _ _, _, n, c => by
    simp only [Runtime.pyStore, events]
    exact ⟨c, rfl⟩
  | .index _ _, _, n, c => by
    simp only [Runtime.pyStore, events]
    exact ⟨c, rfl⟩
  | .slice _ lower upper step, _, n, c => by
    simp only [Runtime.pyStore, events]
    exact ⟨c, by cases lower <;> cases upper <;> cases step <;> rfl⟩
  | .tuple elements, hwf, n, c => by
    simp only [Target.wf, Bool.and_eq_true, decide_eq_true_eq] at hwf
    simp only [Runtime.pyStore, events, shape]
    obtain ⟨c₁, hparts⟩ := pyParts_returns hwf.1 (iter_iterable (items elements) n c) (Or.inl rfl)
    obtain ⟨c₂, hstores⟩ := pyStores_shape elements hwf.2 (n + 1) c₁
    exact ⟨c₂, Nat.add_assoc n 1 _ ▸ hparts.bind hstores⟩
  | .list elements, hwf, n, c => by
    simp only [Target.wf, Bool.and_eq_true, decide_eq_true_eq] at hwf
    simp only [Runtime.pyStore, events, shape]
    obtain ⟨c₁, hparts⟩ := pyParts_returns hwf.1 (iter_iterable (items elements) n c) (Or.inl rfl)
    obtain ⟨c₂, hstores⟩ := pyStores_shape elements hwf.2 (n + 1) c₁
    exact ⟨c₂, Nat.add_assoc n 1 _ ▸ hparts.bind hstores⟩
  | .starred value, hwf, n, c => by
    simp only [Target.wf, Bool.and_eq_true, Bool.not_eq_true'] at hwf
    simp only [Runtime.pyStore, events, shape]
    exact pyStore_inner value hwf.2 hwf.1 n c

/-- The list of a star is stored. -/
theorem pyStore_inner : ∀ (t : Target ε), t.wf = true → t.isStarred = false → ∀ n c,
    ∃ c', Returns ((counting ε).pyStore t (.list (inner t))) (n, c) () (n + innerEvents t, c')
  | .name _, _, _, n, c => by
    simp only [Runtime.pyStore, innerEvents]
    exact ⟨c, rfl⟩
  | .attribute _ _, _, _, n, c => by
    simp only [Runtime.pyStore, innerEvents]
    exact ⟨c, rfl⟩
  | .index _ _, _, _, n, c => by
    simp only [Runtime.pyStore, innerEvents]
    exact ⟨c, rfl⟩
  | .slice _ lower upper step, _, _, n, c => by
    simp only [Runtime.pyStore, innerEvents]
    exact ⟨c, by cases lower <;> cases upper <;> cases step <;> rfl⟩
  | .tuple elements, hwf, _, n, c => by
    simp only [Target.wf, Bool.and_eq_true, decide_eq_true_eq] at hwf
    simp only [Runtime.pyStore, innerEvents, inner]
    obtain ⟨c₁, hparts⟩ := pyParts_returns hwf.1 (iter_list (items elements) n c) (Or.inr rfl)
    obtain ⟨c₂, hstores⟩ := pyStores_shape elements hwf.2 n c₁
    exact ⟨c₂, hparts.bind hstores⟩
  | .list elements, hwf, _, n, c => by
    simp only [Target.wf, Bool.and_eq_true, decide_eq_true_eq] at hwf
    simp only [Runtime.pyStore, innerEvents, inner]
    obtain ⟨c₁, hparts⟩ := pyParts_returns hwf.1 (iter_list (items elements) n c) (Or.inr rfl)
    obtain ⟨c₂, hstores⟩ := pyStores_shape elements hwf.2 n c₁
    exact ⟨c₂, hparts.bind hstores⟩
  | .starred _, _, h, _, _ => by cases h

theorem pyStores_shape : ∀ (ts : List (Target ε)), wfAll ts = true → ∀ n c,
    ∃ c', Returns ((counting ε).pyStores ts (ts.map shape)) (n, c) () (n + eventsAll ts, c')
  | [], _, n, c => by
    simp only [Runtime.pyStores, eventsAll]
    exact ⟨c, rfl⟩
  | t :: ts, hwf, n, c => by
    simp only [wfAll, Bool.and_eq_true] at hwf
    simp only [Runtime.pyStores, eventsAll, List.map_cons]
    obtain ⟨c₁, hstore⟩ := pyStore_shape t hwf.1 n c
    obtain ⟨c₂, hstores⟩ := pyStores_shape ts hwf.2 (n + events t) c₁
    exact ⟨c₂, Nat.add_assoc n _ _ ▸ hstore.bind hstores⟩

end

/-! ## The code counts less, or fails -/

mutual

theorem events_pos : ∀ (t : Target ε), t.isStarred = false → 1 ≤ events t
  | .tuple _, _ => by simp only [events, Nat.le_add_right]
  | .list _, _ => by simp only [events, Nat.le_add_right]
  | .name _, _ => by simp only [events, Nat.le_refl]
  | .attribute _ _, _ => by simp only [events, Nat.le_refl]
  | .index _ _, _ => by simp only [events, Nat.le_refl]
  | .slice _ _ _ _, _ => by simp only [events, Nat.le_refl]
  | .starred _, h => by cases h

theorem innerEvents_pos : ∀ (t : Target ε), inner t ≠ [] → 1 ≤ innerEvents t
  | .tuple elements, h => by
    simp only [inner] at h
    simp only [innerEvents]
    exact eventsAll_pos elements h
  | .list elements, h => by
    simp only [inner] at h
    simp only [innerEvents]
    exact eventsAll_pos elements h
  | .starred value, h => by
    simp only [inner] at h
    simp only [innerEvents]
    exact innerEvents_pos value h
  | .name _, h => absurd (by simp only [inner]) h
  | .attribute _ _, h => absurd (by simp only [inner]) h
  | .index _ _, h => absurd (by simp only [inner]) h
  | .slice _ _ _ _, h => absurd (by simp only [inner]) h

theorem eventsAll_pos : ∀ (ts : List (Target ε)), items ts ≠ [] → 1 ≤ eventsAll ts
  | [], h => absurd (by simp only [items]) h
  | t :: ts, h => by
    simp only [eventsAll]
    by_cases hrest : items ts = []
    · have hfirst : 1 ≤ events t := by
        cases hstar : t.isStarred with
        | false => exact events_pos t hstar
        | true =>
          cases t with
          | starred value =>
            simp only [items, hstar, if_true, hrest, List.append_nil, inner] at h
            simp only [events]
            exact innerEvents_pos value h
          | _ => cases hstar
      omega
    · have hpos := eventsAll_pos ts hrest
      omega

end

/-- A value for each element: of its shape, or any value for a star. -/
def Fits (t : Target ε) (v : Item) : Prop := if t.isStarred then 1 ≤ events t else v = shape t

theorem fits_shapes {ts : List (Target ε)} (h : ∀ t ∈ ts, t.isStarred = false) : List.Forall₂ Fits ts (ts.map shape) := by
  induction ts with
  | nil => exact .nil
  | cons t ts ih =>
    refine .cons ?_ (ih fun t ht => h t (List.mem_cons_of_mem _ ht))
    simp only [Fits, h t List.mem_cons_self, Bool.false_eq_true, if_false]

/-- Where `unpack_sequence` does not fail, the values fit. -/
theorem unpackSequence_fits {elements : List (Target ε)} (h : (elements.filter Target.isStarred).length ≤ 1)
    {n n' : Nat} {c c' vs : List Item}
    (hreturns : Returns ((counting ε).unpackSequence (.iterable (items elements)) elements.length) (n, c) vs (n', c')) :
    n' = n + 1 ∧ List.Forall₂ Fits elements vs := by
  obtain ⟨view, s₁, hview, hreturns⟩ := returns_bind.mp hreturns
  obtain ⟨rfl, rfl⟩ := (show Returns ((counting ε).viewOf (.iterable (items elements))) (n, c) View.other (n, c) from rfl).unique
    hview
  obtain ⟨it, s₂, hiter, hreturns⟩ := returns_bind.mp hreturns
  obtain ⟨rfl, rfl⟩ := (iter_iterable (items elements) n c).unique hiter
  obtain ⟨hlen, rfl, hs⟩ := (unpackRest_iff _ _ _ _ _ _ _).mp hreturns
  refine ⟨congrArg (·.1) hs, ?_⟩
  rcases star_split h with ⟨-, hall⟩ | ⟨pre, value, post, hone, -⟩
  · rw [items_of_unstarred hall]
    exact fits_shapes hall
  · rw [hone.items, hone.eq, List.length_append, List.length_append, List.length_append, List.length_cons, List.length_map,
      List.length_map] at hlen
    obtain ⟨v, hv⟩ := List.length_eq_one_iff.mp (show (inner value).length = 1 by omega)
    rw [hone.items, hv]
    nth_rewrite 1 [hone.eq]
    refine List.rel_append (fits_shapes hone.pre) (.cons ?_ (fits_shapes hone.post))
    have hstar : (Target.starred value).isStarred = true := rfl
    simp only [Fits, hstar, if_true, events]
    exact innerEvents_pos value (by rw [hv]; exact List.cons_ne_nil _ _)

mutual

theorem generateStoreTarget_count : ∀ (t : Target ε), t.wf = true → t.isStarred = false → ∀ (n : Nat) (c : List Item) (n' : Nat)
    (c' : List Item), Returns ((counting ε).generateStoreTarget t (shape t)) (n, c) () (n', c') →
      n' ≤ n + events t ∧ (t.supported = false → n' < n + events t)
  | .name _, _, _, n, c, n', c', h => by
    simp only [Runtime.generateStoreTarget] at h
    obtain ⟨rfl, rfl⟩ := Prod.mk.inj (Prod.mk.inj (Option.some.inj h)).2
    simp only [events, Target.supported]
    exact ⟨Nat.le_refl _, fun h => by cases h⟩
  | .attribute _ _, _, _, n, c, n', c', h => by
    simp only [Runtime.generateStoreTarget] at h
    obtain ⟨rfl, rfl⟩ := Prod.mk.inj (Prod.mk.inj (Option.some.inj h)).2
    simp only [events, Target.supported]
    exact ⟨Nat.le_refl _, fun h => by cases h⟩
  | .index _ _, _, _, n, c, n', c', h => by
    simp only [Runtime.generateStoreTarget] at h
    obtain ⟨rfl, rfl⟩ := Prod.mk.inj (Prod.mk.inj (Option.some.inj h)).2
    simp only [events, Target.supported]
    exact ⟨Nat.le_refl _, fun h => by cases h⟩
  | .slice _ _ _ _, _, _, n, c, n', c', h => by
    simp only [Runtime.generateStoreTarget] at h
    obtain ⟨rfl, rfl⟩ := Prod.mk.inj (Prod.mk.inj (Option.some.inj h)).2
    simp only [events]
    exact ⟨Nat.le_succ _, fun _ => Nat.lt_succ_self _⟩
  | .tuple elements, hwf, _, n, c, n', c', h => by
    simp only [Target.wf, Bool.and_eq_true, decide_eq_true_eq] at hwf
    simp only [Runtime.generateStoreTarget, shape] at h
    obtain ⟨vs, ⟨n₁, c₁⟩, hunpack, hstores⟩ := returns_bind.mp h
    obtain ⟨rfl, hfits⟩ := unpackSequence_fits hwf.1 hunpack
    have hcount := generateStoreTargets_count elements hwf.2 vs hfits _ _ _ _ hstores
    simp only [events, Target.supported]
    rw [← Nat.add_assoc]
    exact hcount
  | .list elements, hwf, _, n, c, n', c', h => by
    simp only [Target.wf, Bool.and_eq_true, decide_eq_true_eq] at hwf
    simp only [Runtime.generateStoreTarget, shape] at h
    obtain ⟨vs, ⟨n₁, c₁⟩, hunpack, hstores⟩ := returns_bind.mp h
    obtain ⟨rfl, hfits⟩ := unpackSequence_fits hwf.1 hunpack
    have hcount := generateStoreTargets_count elements hwf.2 vs hfits _ _ _ _ hstores
    simp only [events, Target.supported]
    rw [← Nat.add_assoc]
    exact hcount
  | .starred _, _, h, _, _, _, _, _ => by cases h

theorem generateStoreTargets_count : ∀ (ts : List (Target ε)), wfAll ts = true → ∀ (vs : List Item), List.Forall₂ Fits ts vs →
    ∀ (n : Nat) (c : List Item) (n' : Nat) (c' : List Item),
      Returns ((counting ε).generateStoreTargets ts vs) (n, c) () (n', c') →
        n' ≤ n + eventsAll ts ∧ (supportedAll ts = false → n' < n + eventsAll ts)
  | [], _, _, _, n, c, n', c', h => by
    simp only [Runtime.generateStoreTargets] at h
    obtain ⟨rfl, rfl⟩ := Prod.mk.inj ((Returns.pure _ _).unique h).2
    simp only [eventsAll, supportedAll]
    exact ⟨Nat.le_refl _, fun h => by cases h⟩
  | t :: ts, hwf, vs, hfits, n, c, n', c', h => by
    simp only [wfAll, Bool.and_eq_true] at hwf
    obtain ⟨v, vs, hv, hvs, rfl⟩ := List.forall₂_cons_left_iff.mp hfits
    simp only [Runtime.generateStoreTargets] at h
    obtain ⟨u, ⟨n₁, c₁⟩, hfirst, hrest⟩ := returns_bind.mp h
    have hcounts := generateStoreTargets_count ts hwf.2 vs hvs _ _ _ _ hrest
    have hcount : n₁ ≤ n + events t ∧ (t.supported = false → n₁ < n + events t) := by
      cases hstar : t.isStarred with
      | false =>
        rw [Fits, hstar, if_neg Bool.false_ne_true] at hv
        rw [hv] at hfirst
        exact generateStoreTarget_count t hwf.1 hstar _ _ _ _ hfirst
      | true =>
        rw [Fits, if_pos hstar] at hv
        cases t with
        | starred value =>
          simp only [Runtime.generateStoreTarget] at hfirst
          obtain ⟨rfl, rfl⟩ := Prod.mk.inj ((Returns.pure _ _).unique hfirst).2
          exact ⟨Nat.le_add_right _ _, fun _ => by omega⟩
        | _ => cases hstar
    simp only [eventsAll, supportedAll, Bool.and_eq_false_iff]
    refine ⟨by omega, fun hunsupported => ?_⟩
    rcases hunsupported with hfirst | hrest
    · have hlt := hcount.2 hfirst
      omega
    · have hlt := hcounts.2 hrest
      omega

end

/-- **The targets that are stored right** by all three lowerings, in every runtime without a class derived from
`StopIteration`: exactly those without a slice or a star. -/
theorem storeTargets_iff {t : Target ε} (hwf : t.wf = true) (hstar : t.isStarred = false) :
    (∀ (σ V E : Type) (W : Runtime σ V E ε), W.Plain → (∀ v, W.generateStoreTarget t v = W.pyStore t v) ∧
      (∀ v, W.storeToTarget false t v = W.pyStore t v) ∧ ∀ it, W.forTarget t it = W.pyFor t it) ↔ t.supported = true := by
  constructor
  · intro h
    by_contra hunsupported
    obtain ⟨c', hpy⟩ := pyStore_shape t hwf 0 []
    rw [← (h _ _ _ (counting ε) counting_plain).1] at hpy
    have hlt := (generateStoreTarget_count t hwf hstar _ _ _ _ hpy).2 (by simpa using hunsupported)
    omega
  · intro h σ V E W hW
    exact ⟨Runtime.generateStoreTarget_eq hW t h, Runtime.storeToTarget_eq hW t false hwf (Or.inr hstar),
      Runtime.forTarget_eq hW h⟩

end Counting

/-- `a, b[0] = v` of a pair, with the expressions numbered. -/
theorem storeTargets_pair : (counting Nat).generateStoreTarget (.tuple [.name "a", .index 0 1]) (.tuple [.atom, .atom]) =
    (counting Nat).storeToTarget false (.tuple [.name "a", .index 0 1]) (.tuple [.atom, .atom]) := by
  have h := (storeTargets_iff (t := Target.tuple [.name "a", .index 0 1]) (by decide) rfl).mpr (by decide) _ _ _
    (counting Nat) counting_plain
  exact (h.1 _).trans (h.2.1 _).symm

/-- `a[:] = v` stores nothing, where `with m as a[:]` stores the value. -/
theorem slice_dropped : (counting Unit).Plain ∧
    Returns ((counting Unit).generateStoreTarget (.slice () none none none) .atom) (0, []) () (0, []) ∧
    Returns ((counting Unit).storeToTarget false (.slice () none none none) .atom) (0, []) () (1, []) ∧
    Returns ((counting Unit).pyStore (.slice () none none none) .atom) (0, []) () (1, []) := by
  refine ⟨counting_plain, ?_, ?_, ?_⟩
  · simp only [Runtime.generateStoreTarget]
    rfl
  · simp only [Runtime.storeToTarget]
    rfl
  · simp only [Runtime.pyStore]
    rfl

end Pylang.Aot.Targets
