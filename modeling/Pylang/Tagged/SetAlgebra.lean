/-
`intersection` and `union` of a `set`, of any number of iterables. There is no
`difference`.

`union` inserts what it iterates over. `intersection` asks each iterable whether
it contains an element, from the second iterable on: the arguments do not
include the set itself, so that the first is left out.
-/
import Pylang.Tagged.DictMerge

namespace Pylang.Tagged

inductive SetStop where
  | typeError (message : String)
  | attributeError (message : String)
  /-- An error of an argument. -/
  | raised
  deriving DecidableEq

/-- How an object that is no set finds whether it contains another. -/
inductive Search where
  /-- `__contains__` of its type. -/
  | slot (contains : Key → Except Unit Bool)
  /-- A new iteration each time. -/
  | iteration
  /-- It is an iterator, and what is searched is gone. -/
  | iterator

/-- An argument: a set, or another object with its items and whether they end with `StopIteration`. An object that is
not iterable has no items and does not end so. -/
inductive SetArg where
  | set (elements : List Key)
  | object (search : Search) (items : List Key) (stops : Bool)

namespace SetArg

variable {W : KeyWorld} (T : Table W)

/-- The elements as entries of the table, whose values nothing reads. -/
def entriesOf (elements : List Key) : Entries := elements.map fun key => (key, key)

def tableContains (elements : List Key) (key : Key) : Bool := (T.find (entriesOf elements) key).isSome

/-- The loop of `PyObject::contains`, and the items that are left. -/
def searchItems (W : KeyWorld) (stops : Bool) (value : Key) : List Key → Except Unit Bool × List Key
  | [] => (if stops then .ok false else .error (), [])
  | item :: items =>
    match W.eqObject (W.boxObject value) (W.boxObject item) with
    | .ok answer => if answer.isTrue then (.ok true, items) else searchItems W stops value items
    | .error e => (.error e, items)

/-- `PyObject::contains`, and the argument that it leaves. -/
def contains (value : Key) : SetArg → Except Unit Bool × SetArg
  | set elements => (.ok (tableContains T elements value), set elements)
  | object (.slot f) items stops => (f value, object (.slot f) items stops)
  | object .iteration items stops => ((searchItems W stops value items).1, object .iteration items stops)
  | object .iterator items stops =>
    ((searchItems W stops value items).1, object .iterator (searchItems W stops value items).2 stops)

/-- Its items; those of a set in the order of its table. -/
def items : SetArg → List Key
  | set elements => elements
  | object _ items _ => items

end SetArg

namespace PySet

open SetArg (entriesOf tableContains)

variable {W : KeyWorld} (T : Table W)

/-- `m_elements.insert`. -/
def insert (elements : List Key) (key : Key) : List Key :=
  if tableContains T elements key then elements else elements ++ [key]

/-- The loop over the arguments, for one element. -/
def containsAll (value : Key) : List SetArg → Except Unit Bool × List SetArg
  | [] => (.ok true, [])
  | arg :: args =>
    match arg.contains T value with
    | (.ok true, arg) => ((containsAll value args).1, arg :: (containsAll value args).2)
    | (.ok false, arg) => (.ok false, arg :: args)
    | (.error e, arg) => (.error e, arg :: args)

/-- The loop over the elements. -/
def intersect : List SetArg → List Key → List Key → Except SetStop (List Key)
  | _, result, [] => .ok result
  | args, result, el :: elements =>
    match containsAll T (W.box el) args with
    | (.ok true, args) => intersect args (insert T result el) elements
    | (.ok false, args) => intersect args result elements
    | (.error _, _) => .error .raised

/-- The loop begins with `args->elements()[1]`. -/
def intersection (elements : List Key) (args : List SetArg) (kwargs : Bool) : Except SetStop (List Key) :=
  if kwargs then .error (.typeError "intersection() takes no keyword arguments")
  else intersect T (args.drop 1) [] elements

/-- `union_helper`, if it is not strict. -/
def unionHelper (result : List Key) : SetArg → Except SetStop (List Key)
  | .set elements => .ok (elements.foldl (insert T) result)
  | .object _ items stops =>
    if stops then .ok ((items.map W.box).foldl (insert T) result) else .error .raised

def unionLoop : List Key → List SetArg → Except SetStop (List Key)
  | result, [] => .ok result
  | result, arg :: args =>
    match unionHelper T result arg with
    | .ok result => unionLoop result args
    | .error e => .error e

def union (elements : List Key) (args : List SetArg) (kwargs : Bool) : Except SetStop (List Key) :=
  if args.isEmpty then .ok elements
  else if kwargs then .error (.typeError "union() takes no keyword arguments")
  else unionLoop T elements args

inductive Algebra where
  | intersection
  | union
  | difference
  deriving DecidableEq

def Algebra.name : Algebra → String
  | intersection => "intersection"
  | union => "union"
  | difference => "difference"

/-- The method that the type has under the name; `difference` is not among those that `klass<PySet>` is given. -/
def method? : Algebra → Option (List Key → List SetArg → Bool → Except SetStop (List Key))
  | .intersection => some (intersection T)
  | .union => some (union T)
  | .difference => none

/-- A call of a method, with the elements that the set has then. -/
def call (elements : List Key) (method : Algebra) (args : List SetArg) (kwargs : Bool) :
    List Key × Except SetStop (List Key) :=
  match method? T method with
  | some f => (elements, f elements args kwargs)
  | none => (elements, .error (.attributeError s!"'set' object has no attribute '{method.name}'"))

/-! ## What is asked of it -/

/-- One of the keys is equal to it. -/
def Has (W : KeyWorld) (elements : List Key) (k : Key) : Prop := ∃ e ∈ elements, W.rtValueEq k e = true

/-- A set of lawful keys, no two of them equal. -/
def IsSet (W : KeyWorld) (K : Key → Prop) (elements : List Key) : Prop := Sound W K (entriesOf elements)

/-- What iterating over it gives: a set, or items of lawful keys that end. -/
def Iterates (W : KeyWorld) (K : Key → Prop) : SetArg → Prop
  | .set elements => IsSet W K elements
  | .object _ items stops => (∀ k ∈ items, K k) ∧ stops = true

/-- It is no iterator, and a `__contains__` of its own answers for its items. -/
def Answers (W : KeyWorld) (K : Key → Prop) : SetArg → Prop
  | .set _ | .object .iteration _ _ => True
  | .object (.slot f) items _ => ∀ k, K k → ∃ b, f (W.box k) = .ok b ∧ (b = true ↔ Has W items k)
  | .object .iterator _ _ => False

/-- What the first argument would leave out is left out by another. -/
def LeavesNothingOut (W : KeyWorld) (elements : List Key) (args : List SetArg) : Prop :=
  ∀ first ∈ args.head?, ∀ k ∈ elements, (∀ arg ∈ args.drop 1, Has W arg.items k) → Has W first.items k

/-- The set is as it was, and the result holds the keys that it should. -/
def Gives (W : KeyWorld) (K : Key → Prop) (elements : List Key) (wanted : Key → Prop)
    (result : List Key × Except SetStop (List Key)) : Prop :=
  result.1 = elements ∧ ∃ r, result.2 = .ok r ∧ IsSet W K r ∧ ∀ k, K k → (Has W r k ↔ wanted k)

section

variable {T} {K : Key → Prop} {elements items : List Key} {k key : Key} {arg : SetArg} {args : List SetArg}

/-! ## Elements -/

theorem has_iff : Has W elements k ↔ (place W (entriesOf elements) k).isSome = true := by
  cases hp : place W (entriesOf elements) k with
  | none =>
    have hnone := List.findIdx?_eq_none_iff.mp hp
    simp only [Option.isSome_none, Bool.false_eq_true, iff_false]
    intro h
    obtain ⟨e, he, heq⟩ := h
    rw [hnone (e, e) (List.mem_map.mpr ⟨e, he, rfl⟩)] at heq
    cases heq
  | some i =>
    obtain ⟨hlt, heq, -⟩ := List.findIdx?_eq_some_iff_getElem.mp hp
    obtain ⟨e, he, hentry⟩ := List.mem_map.mp (List.getElem_mem hlt)
    rw [← hentry] at heq
    simp only [Option.isSome_some, iff_true]
    exact ⟨e, he, heq⟩

theorem Has.append {items' : List Key} : Has W (items ++ items') k ↔ Has W items k ∨ Has W items' k := by
  simp only [Has, List.mem_append, or_and_right, exists_or]

theorem Has.congr (h : Lawful W K) (helements : ∀ e ∈ elements, K e) (hk : K k) (hkey : K key)
    (heq : W.rtValueEq k key = true) : Has W elements k ↔ Has W elements key := by
  unfold Has
  refine exists_congr fun e => and_congr_right fun he => ?_
  rw [h.eq_congr hk hkey (helements e he) heq]

theorem IsSet.keys (h : IsSet W K elements) : ∀ e ∈ elements, K e := fun e he =>
  Sound.keys h (e, e) (List.mem_map.mpr ⟨e, he, rfl⟩)

theorem tableContains_iff (h : Lawful W K) (hset : IsSet W K elements) (hk : K k) :
    tableContains T elements k = true ↔ Has W elements k := by
  rw [tableContains, find_eq_place T hset h hk, has_iff]

theorem IsSet.insert (h : Lawful W K) (hset : IsSet W K elements) (hkey : K key) :
    IsSet W K (insert T elements key) ∧
      ∀ k, K k → (Has W (PySet.insert T elements key) k ↔ Has W elements k ∨ W.rtValueEq k key = true) := by
  unfold PySet.insert
  by_cases hin : tableContains T elements key = true
  · rw [if_pos hin]
    refine ⟨hset, fun k hk => ⟨.inl, fun hor => hor.elim id fun heq => ?_⟩⟩
    exact (Has.congr h hset.keys hk hkey heq).mpr ((tableContains_iff h hset hkey).mp hin)
  · rw [if_neg hin]
    have hplace : place W (entriesOf elements) key = none := by
      have hnot := mt (tableContains_iff (T := T) h hset hkey).mpr hin
      rw [has_iff] at hnot
      simpa using hnot
    refine ⟨?_, fun k _ => Has.append.trans (or_congr_right ?_)⟩
    · unfold IsSet
      rw [SetArg.entriesOf, List.map_append]
      exact sound_append hset h hkey key hplace
    · simp [Has]

theorem IsSet.foldl_insert (h : Lawful W K) (hset : IsSet W K elements) (hitems : ∀ k ∈ items, K k) :
    IsSet W K (items.foldl (PySet.insert T) elements) ∧
      ∀ k, K k → (Has W (items.foldl (PySet.insert T) elements) k ↔ Has W elements k ∨ Has W items k) := by
  induction items generalizing elements with
  | nil => exact ⟨hset, fun k _ => by simp [Has]⟩
  | cons item items ih =>
    have hitem := hitems item List.mem_cons_self
    obtain ⟨hset', hhas⟩ := hset.insert (T := T) h hitem
    obtain ⟨hresult, hfold⟩ := ih hset' fun k hk => hitems k (List.mem_cons_of_mem item hk)
    refine ⟨hresult, fun k hk => (hfold k hk).trans ?_⟩
    rw [hhas k hk, or_assoc]
    simp [Has]

theorem has_box (h : Lawful W K) (hitems : ∀ k ∈ items, K k) (hk : K k) :
    Has W (items.map W.box) k ↔ Has W items k := by
  unfold Has
  simp only [List.mem_map, exists_exists_and_eq_and]
  refine exists_congr fun e => and_congr_right fun he => ?_
  obtain ⟨hbox, heq⟩ := h.box (hitems e he)
  rw [h.eq_comm hk hbox, h.eq_comm hk (hitems e he), h.eq_congr (hitems e he) hbox hk heq]

/-! ## `union` -/

theorem unionHelper_ok (h : Lawful W K) (hset : IsSet W K elements) (harg : Iterates W K arg) :
    ∃ r, unionHelper T elements arg = .ok r ∧ IsSet W K r ∧ ∀ k, K k → (Has W r k ↔ Has W elements k ∨ Has W arg.items k) := by
  cases arg with
  | set others => exact ⟨_, rfl, hset.foldl_insert h (IsSet.keys harg)⟩
  | object search items stops =>
    obtain ⟨hitems, rfl⟩ := harg
    have hboxed : ∀ k ∈ items.map W.box, K k := by
      intro k hk
      obtain ⟨item, hitem, rfl⟩ := List.mem_map.mp hk
      exact (h.box (hitems item hitem)).1
    obtain ⟨hresult, hhas⟩ := hset.foldl_insert (T := T) h hboxed
    exact ⟨_, rfl, hresult, fun k hk => (hhas k hk).trans (or_congr_right (has_box h hitems hk))⟩

theorem unionLoop_ok (h : Lawful W K) (hset : IsSet W K elements) (hargs : ∀ arg ∈ args, Iterates W K arg) :
    ∃ r, unionLoop T elements args = .ok r ∧ IsSet W K r ∧
      ∀ k, K k → (Has W r k ↔ Has W elements k ∨ ∃ arg ∈ args, Has W arg.items k) := by
  induction args generalizing elements with
  | nil => exact ⟨_, rfl, hset, fun k _ => by simp⟩
  | cons arg args ih =>
    obtain ⟨r, hr, hset', hhas⟩ := unionHelper_ok (T := T) h hset (hargs arg List.mem_cons_self)
    obtain ⟨r', hr', hresult, hloop⟩ := ih hset' fun a ha => hargs a (List.mem_cons_of_mem arg ha)
    refine ⟨r', by rw [unionLoop, hr]; exact hr', hresult, fun k hk => (hloop k hk).trans ?_⟩
    rw [hhas k hk, or_assoc]
    simp only [List.mem_cons, or_and_right, exists_or, exists_eq_left]

theorem union_gives (h : Lawful W K) (hset : IsSet W K elements) (hargs : ∀ arg ∈ args, Iterates W K arg) :
    Gives W K elements (fun k => Has W elements k ∨ ∃ arg ∈ args, Has W arg.items k)
      (call T elements .union args false) := by
  obtain ⟨r, hr, hresult⟩ := unionLoop_ok (T := T) h hset hargs
  refine ⟨rfl, r, ?_, hresult⟩
  show union T elements args false = .ok r
  unfold union
  cases args with
  | nil => exact hr
  | cons arg args => exact hr

/-! ## `intersection` -/

theorem Iterates.lawful (harg : Iterates W K arg) : ∀ k ∈ arg.items, K k := by
  cases arg with
  | set others => exact IsSet.keys harg
  | object search items stops => exact harg.1

theorem searchItems_ok (h : Lawful W K) (hitems : ∀ k ∈ items, K k) (hk : K k) :
    ∃ b, (SetArg.searchItems W true (W.box k) items).1 = .ok b ∧ (b = true ↔ Has W items k) := by
  induction items with
  | nil => exact ⟨false, rfl, by simp [Has]⟩
  | cons item items ih =>
    have hitem := hitems item List.mem_cons_self
    have hanswer : W.eqObject (W.boxObject (W.box k)) (W.boxObject item) = .ok (.bool (W.rtValueEq k item)) :=
      h.answers hk hitem
    rw [SetArg.searchItems, hanswer]
    cases heq : W.rtValueEq k item with
    | true => exact ⟨true, rfl, by simp [Has, heq]⟩
    | false =>
      obtain ⟨b, hb, hiff⟩ := ih fun e he => hitems e (List.mem_cons_of_mem item he)
      exact ⟨b, hb, hiff.trans (by simp [Has, heq])⟩

theorem contains_ok (h : Lawful W K) (harg : Iterates W K arg) (hanswers : Answers W K arg) (hk : K k) :
    ∃ b, arg.contains T (W.box k) = (.ok b, arg) ∧ (b = true ↔ Has W arg.items k) := by
  cases arg with
  | set others =>
    obtain ⟨hbox, heq⟩ := h.box hk
    refine ⟨_, rfl, (tableContains_iff h harg hbox).trans ?_⟩
    exact (Has.congr h (IsSet.keys harg) hk hbox heq).symm
  | object search items stops =>
    obtain ⟨hitems, rfl⟩ := harg
    cases search with
    | slot f =>
      obtain ⟨b, hb, hiff⟩ := hanswers k hk
      exact ⟨b, by rw [SetArg.contains, hb], hiff⟩
    | iteration =>
      obtain ⟨b, hb, hiff⟩ := searchItems_ok h hitems hk
      exact ⟨b, by rw [SetArg.contains, hb], hiff⟩
    | iterator => exact hanswers.elim

theorem containsAll_ok (h : Lawful W K) (hargs : ∀ arg ∈ args, Iterates W K arg ∧ Answers W K arg) (hk : K k) :
    ∃ b, containsAll T (W.box k) args = (.ok b, args) ∧ (b = true ↔ ∀ arg ∈ args, Has W arg.items k) := by
  induction args with
  | nil => exact ⟨true, rfl, by simp⟩
  | cons arg args ih =>
    obtain ⟨harg, hanswers⟩ := hargs arg List.mem_cons_self
    obtain ⟨b, hb, hiff⟩ := contains_ok (T := T) h harg hanswers hk
    obtain ⟨c, hc, hall⟩ := ih fun a ha => hargs a (List.mem_cons_of_mem arg ha)
    rw [containsAll, hb, List.forall_mem_cons, ← hiff, ← hall]
    cases b with
    | true => exact ⟨c, by rw [hc], by simp⟩
    | false => exact ⟨false, rfl, by simp⟩

theorem intersect_ok (h : Lawful W K) (hargs : ∀ arg ∈ args, Iterates W K arg ∧ Answers W K arg)
    (helements : ∀ k ∈ elements, K k) {result : List Key} (hresult : IsSet W K result) :
    ∃ r, intersect T args result elements = .ok r ∧ IsSet W K r ∧
      ∀ k, K k → (Has W r k ↔ Has W result k ∨ Has W elements k ∧ ∀ arg ∈ args, Has W arg.items k) := by
  induction elements generalizing result with
  | nil => exact ⟨_, rfl, hresult, fun k _ => by simp [Has]⟩
  | cons el elements ih =>
    have hel := helements el List.mem_cons_self
    have ih := @ih fun k hk => helements k (List.mem_cons_of_mem el hk)
    obtain ⟨b, hb, hiff⟩ := containsAll_ok (T := T) h hargs hel
    have hcons (k : Key) : Has W (el :: elements) k ↔ W.rtValueEq k el = true ∨ Has W elements k := by simp [Has]
    -- a key equal to `el` is in the same arguments
    have hsame (k : Key) (hk : K k) (heq : W.rtValueEq k el = true) :
        (∀ arg ∈ args, Has W arg.items k) ↔ b = true := by
      rw [hiff]
      exact forall₂_congr fun arg harg => Has.congr h (Iterates.lawful (hargs arg harg).1) hk hel heq
    rw [intersect, hb]
    cases b with
    | true =>
      obtain ⟨hset, hhas⟩ := hresult.insert (T := T) h hel
      obtain ⟨r, hr, hr', hfinal⟩ := ih hset
      refine ⟨r, hr, hr', fun k hk => (hfinal k hk).trans ?_⟩
      rw [hhas k hk, hcons, or_assoc, or_and_right]
      refine or_congr_right (or_congr_left ?_)
      exact ⟨fun heq => ⟨heq, (hsame k hk heq).mpr rfl⟩, And.left⟩
    | false =>
      obtain ⟨r, hr, hr', hfinal⟩ := ih hresult
      refine ⟨r, hr, hr', fun k hk => (hfinal k hk).trans (or_congr_right ?_)⟩
      rw [hcons, or_and_right]
      exact ⟨.inr, fun hor => hor.elim (fun heq => nomatch (hsame k hk heq.1).mp heq.2) id⟩

theorem intersection_gives (h : Lawful W K) (hset : IsSet W K elements) (hargs : ∀ arg ∈ args, Iterates W K arg)
    (hanswers : ∀ arg ∈ args.drop 1, Answers W K arg) (hfirst : LeavesNothingOut W elements args) :
    Gives W K elements (fun k => Has W elements k ∧ ∀ arg ∈ args, Has W arg.items k)
      (call T elements .intersection args false) := by
  have htail : ∀ arg ∈ args.drop 1, Iterates W K arg ∧ Answers W K arg := fun arg harg =>
    ⟨hargs arg (List.mem_of_mem_drop harg), hanswers arg harg⟩
  have hempty : IsSet W K [] := ⟨fun _ he => (nomatch he), .nil⟩
  obtain ⟨r, hr, hresult, hhas⟩ := intersect_ok (T := T) h htail hset.keys hempty
  refine ⟨rfl, r, hr, hresult, fun k hk => (hhas k hk).trans ?_⟩
  cases args with
  | nil => simp [Has]
  | cons arg args =>
    have hmem : Has W elements k → (∀ a ∈ args, Has W a.items k) → Has W arg.items k := by
      intro hhas hall
      obtain ⟨e, he, heq⟩ := hhas
      have hsame {a : SetArg} (ha : a ∈ arg :: args) : Has W a.items k ↔ Has W a.items e :=
        Has.congr h (Iterates.lawful (hargs a ha)) hk (hset.keys e he) heq
      refine (hsame List.mem_cons_self).mpr (hfirst arg rfl e he fun a ha => ?_)
      exact (hsame (List.mem_cons_of_mem arg ha)).mp (hall a ha)
    have hnil : ¬ Has W [] k := by simp [Has]
    simp only [List.drop_one, List.tail_cons, hnil, false_or, List.forall_mem_cons]
    exact ⟨fun hand => ⟨hand.1, hmem hand.1 hand.2, hand.2⟩, fun hand => ⟨hand.1, hand.2.2⟩⟩

/-- **The algebra of sets**: `union` is right, `intersection` where its first argument leaves nothing out, and there is
no `difference`. -/
theorem setAlgebra (T : Table W) (h : Lawful W K) (hset : IsSet W K elements)
    (hargs : ∀ arg ∈ args, Iterates W K arg) :
    Gives W K elements (fun k => Has W elements k ∨ ∃ arg ∈ args, Has W arg.items k)
      (call T elements .union args false) ∧
    ((∀ arg ∈ args.drop 1, Answers W K arg) → LeavesNothingOut W elements args →
      Gives W K elements (fun k => Has W elements k ∧ ∀ arg ∈ args, Has W arg.items k)
        (call T elements .intersection args false)) ∧
    call T elements .difference args false =
      (elements, .error (.attributeError "'set' object has no attribute 'difference'")) :=
  ⟨union_gives h hset hargs, intersection_gives h hset hargs, rfl⟩

end

/-- `{1}` with a list of 1. -/
theorem setAlgebra_one :
    Gives plainWorld (IntegerKey fun _ => 0) [one]
        (fun k => Has plainWorld [one] k ∨ ∃ arg ∈ [SetArg.object .iteration [one] true], Has plainWorld arg.items k)
        (call (firstTable plainWorld) [one] .union [.object .iteration [one] true] false) ∧
      Gives plainWorld (IntegerKey fun _ => 0) [one]
        (fun k => Has plainWorld [one] k ∧ ∀ arg ∈ [SetArg.object .iteration [one] true], Has plainWorld arg.items k)
        (call (firstTable plainWorld) [one] .intersection [.object .iteration [one] true] false) := by
  have hlawful : Lawful plainWorld (IntegerKey fun _ => 0) := lawful_integers nofun
  have hone : IntegerKey (fun _ => 0) one := trivial
  have hset : IsSet plainWorld (IntegerKey fun _ => 0) [one] :=
    ⟨List.forall_mem_singleton.mpr hone, List.pairwise_singleton ..⟩
  have hargs : ∀ arg ∈ [SetArg.object .iteration [one] true], Iterates plainWorld (IntegerKey fun _ => 0) arg :=
    List.forall_mem_singleton.mpr ⟨List.forall_mem_singleton.mpr hone, rfl⟩
  have halgebra := setAlgebra (firstTable plainWorld) hlawful hset hargs
  refine ⟨halgebra.1, halgebra.2.1 (fun arg harg => nomatch harg) fun arg harg k hk _ => ?_⟩
  cases harg
  exact ⟨one, List.mem_singleton_self one, by rw [List.mem_singleton.mp hk]; rfl⟩

/-- `{1}.difference()` is an error. -/
theorem difference_absent :
    (call (firstTable plainWorld) [one] .difference [] false).2 =
      .error (.attributeError "'set' object has no attribute 'difference'") ∧
    ¬ Gives plainWorld (IntegerKey fun _ => 0) [one] (Has plainWorld [one])
      (call (firstTable plainWorld) [one] .difference [] false) := by
  refine ⟨rfl, fun h => ?_⟩
  obtain ⟨-, r, hr, -⟩ := h
  cases hr

end PySet

end Pylang.Tagged
