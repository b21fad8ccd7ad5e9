/-
`PySuper`: an attribute of `super(C, o)` is the first entry after `C` in the
MRO that `check` picks for `o`, so methods that each call the next one run in
MRO order. `super()` reads the object from slot 0 of the frame, where only a
positional parameter that is not captured is kept.
-/
import Mathlib
import Pylang.Runtime.Mro
import Pylang.Calling.Slots

namespace Pylang.Runtime

open Pylang.Calling (Content Frame Function Code)

/-- The objects as `super` sees them; the types are objects too. -/
structure Heap (ο : Type) [DecidableEq ο] where
  /-- `types::object()`. -/
  object : ο
  hierarchy : Hierarchy ο
  built : Built object hierarchy
  typeOf : ο → ο
  typeOf_mem : ∀ o, typeOf o ∈ hierarchy.map (·.1)
  /-- The `__dict__` of a type. -/
  dict : ο → String → Option ο
  /-- The types with a `__get__`. -/
  hasGet : ο → Bool
  /-- `lookup_attribute` of `__class__`; `none` is an error. -/
  classAttribute : ο → Option ο
  /-- `RtValue::box`; `none` is a null pointer. -/
  box : Content → Option ο

inductive SuperError
  /-- "super(type, obj): obj must be an instance or subtype of type" -/
  | notAnInstance
  /-- "super(): caller takes no arguments" -/
  | noArguments
  /-- "super(): empty __class__ cell" -/
  | emptyClassCell
  /-- "super(): __class__ is not a type" -/
  | notAType
  /-- "super(): __class__ cell not found" -/
  | noClassCell
  /-- The error of the lookup of `__class__`. -/
  | lookup
  /-- A failed `ASSERT` or a `TODO()`. -/
  | abort
  deriving DecidableEq

/-- A `PySuper`. -/
structure Super (ο : Type) where
  type : ο
  object : Option ο
  objectType : Option ο
  deriving DecidableEq

/-- What `__getattribute__` of a `PySuper` returns. -/
inductive Lookup (ο : Type)
  /-- The entry itself. -/
  | entry (res : ο)
  /-- `res->get(instance, owner)`. -/
  | get (res : ο) (instance_ : Option ο) (owner : ο)
  /-- `PyObject::__getattribute__` on the `PySuper`. -/
  | generic
  deriving DecidableEq

namespace Heap

variable {ο : Type} [DecidableEq ο] (K : Heap ο)

/-- The objects `as<PyType>` accepts. -/
def isType (o : ο) : Bool := o ∈ K.hierarchy.map (·.1)

def mroOf (c : ο) : List ο := K.hierarchy.mroOf c

def issubclass (this other : ο) : Bool := this = other || other = K.object || other ∈ K.mroOf this

/-- The loop of `__getattribute__` over the later entries of the MRO. -/
def findEntry (S : Super ο) (objectType : ο) (name : String) : List ο → Lookup ο
  | [] => .generic
  | candidate :: mro =>
    match K.dict candidate name with
    | none => findEntry S objectType name mro
    | some res =>
      if K.hasGet (K.typeOf res) then
        .get res (if S.object = some objectType then none else S.object) objectType
      else .entry res

def getattribute (S : Super ο) (name : String) : Lookup ο :=
  match S.objectType with
  | none => .generic
  | some objectType =>
    if name = "__class__" then .generic
    else
      let mro := K.mroOf objectType
      -- `find_if` stops before the last entry
      let index := mro.dropLast.idxOf S.type
      if index = mro.dropLast.length then .generic
      else K.findEntry S objectType name (mro.drop (index + 1))

def check (type object : ο) : Except SuperError ο :=
  if K.isType object && K.issubclass object type then .ok object
  else if K.issubclass (K.typeOf object) type then .ok (K.typeOf object)
  else match K.classAttribute object with
    | none => .error .lookup
    | some c =>
      if K.isType c && c ≠ K.typeOf object && K.issubclass c type then .ok c else .error .notAnInstance

/-- `__init__` with a type. -/
def init (type : ο) (object : Option ο) : Except SuperError (Super ο) :=
  match object with
  | none => .ok ⟨type, none, none⟩
  | some obj => (K.check type obj).map fun objectType => ⟨type, some obj, some objectType⟩

def inferObject (fr : Frame) : Except SuperError (Option ο) :=
  let firstArg := fr.slots 0
  if firstArg.isHeapObject && firstArg.asPtrIsNull then .error .abort else .ok (K.box firstArg)

/-- The type in the `__class__` cell. -/
def cellType (content : Content) : Except SuperError ο :=
  if !content.isHeapObject then .error .abort
  else match K.box content with
    | none => .error .emptyClassCell
    | some type => if K.isType type then .ok type else .error .notAType

/-- The loop of `infer_type` over the free variables, from the cell `i` on. -/
def inferTypeFrom (fr : Frame) (i : Nat) : List String → Except SuperError ο
  | [] => .error .noClassCell
  | name :: freevars => if name = "__class__" then K.cellType (fr.cells i) else inferTypeFrom fr (i + 1) freevars

def inferType (fr : Frame) (code : Code) : Except SuperError ο :=
  K.inferTypeFrom fr code.cellvars.length code.freevars

/-- `__init__` without arguments. -/
def initNoArgs (fr : Frame) (code : Code) : Except SuperError (Super ο) :=
  if code.argCount = 0 then .error .noArguments
  else do
    let obj ← K.inferObject fr
    let type ← K.inferType fr code
    K.init type obj

/-! ### What `super` is for -/

/-- The type whose MRO `super(C, o)` follows: `o` itself for a subclass of `C`, else its type. -/
inductive Follows (c o : ο) : ο → Prop
  | subclass : K.isType o → c ∈ K.mroOf o → Follows c o o
  | instance_ : ¬ (K.isType o ∧ c ∈ K.mroOf o) → c ∈ K.mroOf (K.typeOf o) → Follows c o (K.typeOf o)

/-- The first entry for a name after a class of a list. -/
def FirstAfter (c : ο) (name : String) (mro : List ο) (res : ο) : Prop :=
  ∃ before between d rest, mro = before ++ c :: (between ++ d :: rest) ∧
    (∀ b ∈ between, K.dict b name = none) ∧ K.dict d name = some res

/-- The entry bound to `o` by the descriptor protocol, to `none` where `o` is the type itself. -/
def bind (o objectType res : ο) : Lookup ο :=
  if K.hasGet (K.typeOf res) then .get res (if o = objectType then none else some o) objectType else .entry res

/-- The type whose MRO every `super(C, o)` in a method of `o` follows. -/
def searched (o : ο) : ο := if K.isType o then o else K.typeOf o

/-- What a method that runs for `o` gets from `super(C, o).name`, with `C` the class in its cell. -/
def nextMethod (o : ο) (name : String) (cell : ο → ο) (f : ο) : Option ο :=
  match K.init (cell f) (some o) with
  | .error _ => none
  | .ok S =>
    match K.getattribute S name with
    | .get g _ _ => some g
    | _ => none

/-- The methods that run when `f` does, each of them calling the next. -/
inductive Runs (o : ο) (name : String) (cell : ο → ο) : ο → List ο → Prop
  | last {f : ο} : K.nextMethod o name cell f = none → Runs o name cell f [f]
  | next {f g : ο} {fs : List ο} : K.nextMethod o name cell f = some g → Runs o name cell g fs →
      Runs o name cell f (f :: fs)

/-- The entries for a name are methods, each with its class in its cell. -/
def Cooperative (name : String) (cell : ο → ο) (mro : List ο) : Prop :=
  ∀ c ∈ mro, ∀ f, K.dict c name = some f → cell f = c ∧ K.hasGet (K.typeOf f)

/-! ### The lookup -/

section Lookup

variable {K} {c o objectType : ο} {name : String} {S : Super ο}

theorem mroOf_spec {t : ο} (h : t ∈ K.hierarchy.map (·.1)) :
    (K.mroOf t).head? = some t ∧ K.object ∈ K.mroOf t ∧ (K.mroOf t).Nodup := by
  have hwf := K.built.wellFormed _ (mem_mroOf h)
  obtain ⟨p, hp, -⟩ := hwf.root
  refine ⟨hwf.head, ?_, (K.built.mro_nodup _ (mem_mroOf h)).1⟩
  have hmro : K.mroOf t = p ++ [K.object] := hp
  rw [hmro]
  simp

theorem isType_iff : K.isType o = true ↔ o ∈ K.hierarchy.map (·.1) := by simp [isType]

theorem issubclass_iff {t : ο} (h : t ∈ K.hierarchy.map (·.1)) : K.issubclass t c = true ↔ c ∈ K.mroOf t := by
  obtain ⟨hhead, hroot, -⟩ := mroOf_spec h
  constructor
  · intro hsub
    simp only [issubclass, Bool.or_eq_true, decide_eq_true_eq] at hsub
    rcases hsub with (rfl | rfl) | hin
    · exact List.mem_of_head? hhead
    · exact hroot
    · exact hin
  · intro hin
    simp [issubclass, hin]

theorem Follows.isClass {t : ο} (h : K.Follows c o t) : t ∈ K.hierarchy.map (·.1) := by
  cases h with
  | subclass ht _ => exact isType_iff.mp ht
  | instance_ => exact K.typeOf_mem o

theorem Follows.init {t : ο} (h : K.Follows c o t) : K.init c (some o) = .ok ⟨c, some o, some t⟩ := by
  have hcheck : K.check c o = .ok t := by
    unfold check
    cases h with
    | subclass ht hc =>
      have hsub := (issubclass_iff (isType_iff.mp ht)).mpr hc
      simp [ht, hsub]
    | instance_ hnot hc =>
      have hsub := (issubclass_iff (K.typeOf_mem o)).mpr hc
      by_cases ht : K.isType o = true
      · have hnsub : ¬ K.issubclass o c = true := fun hs => hnot ⟨ht, (issubclass_iff (isType_iff.mp ht)).mp hs⟩
        simp [hnsub, hsub]
      · simp [ht, hsub]
  have hinit : K.init c (some o) = (K.check c o).map fun objectType => ⟨c, some o, some objectType⟩ := rfl
  rw [hinit, hcheck]
  rfl

theorem findEntry_eq : ∀ mro : List ο, K.findEntry ⟨c, some o, some objectType⟩ objectType name mro =
    match mro.findSome? (K.dict · name) with
    | some res => K.bind o objectType res
    | none => .generic
  | [] => rfl
  | d :: mro => by
    have ih := findEntry_eq mro
    unfold findEntry
    cases hd : K.dict d name with
    | none =>
      rw [List.findSome?_cons, hd]
      exact ih
    | some res =>
      rw [List.findSome?_cons, hd]
      simp [bind]

/-- **The first entry after the class**, bound to the object. -/
theorem getattribute_eq {before rest : List ο} (hname : name ≠ "__class__")
    (hmro : K.mroOf objectType = before ++ c :: rest) (hnodup : (K.mroOf objectType).Nodup) :
    K.getattribute ⟨c, some o, some objectType⟩ name =
      match rest.findSome? (K.dict · name) with
      | some res => K.bind o objectType res
      | none => .generic := by
  have hbefore : c ∉ before := by
    rw [hmro] at hnodup
    intro hin
    exact (List.nodup_append.mp hnodup).2.2 c hin c List.mem_cons_self rfl
  unfold getattribute
  simp only [if_neg hname, hmro]
  by_cases hrest : rest = []
  · subst hrest
    have hidx : before.idxOf c = before.length := List.idxOf_eq_length_iff.mpr hbefore
    simp [hidx]
  · have hdrop : (before ++ c :: rest).dropLast = before ++ c :: rest.dropLast := by
      rw [List.dropLast_append_of_ne_nil (by simp), List.dropLast_cons_of_ne_nil hrest]
    have hidx : (before ++ c :: rest.dropLast).idxOf c = before.length := by
      rw [List.idxOf_append_of_notMem hbefore, List.idxOf_cons_self, Nat.add_zero]
    have hlt : before.length ≠ (before ++ c :: rest.dropLast).length := by
      simp only [List.length_append, List.length_cons]
      omega
    have htail : (before ++ c :: rest).drop (before.length + 1) = rest := by
      rw [← List.drop_drop, List.drop_left]
      rfl
    rw [hdrop, hidx, if_neg hlt, htail]
    exact findEntry_eq rest

theorem FirstAfter.getattribute {t res : ο} (h : K.FirstAfter c name (K.mroOf t) res) (ht : K.Follows c o t)
    (hname : name ≠ "__class__") : K.getattribute ⟨c, some o, some t⟩ name = K.bind o t res := by
  obtain ⟨-, -, hnodup⟩ := mroOf_spec ht.isClass
  obtain ⟨before, between, d, rest, hmro, hnone, hd⟩ := h
  have hfind : (between ++ d :: rest).findSome? (K.dict · name) = some res := by
    have hbetween : between.findSome? (K.dict · name) = none := List.findSome?_eq_none_iff.mpr hnone
    simp [List.findSome?_append, hbetween, hd]
  rw [getattribute_eq hname hmro hnodup, hfind]

end Lookup

/-! ### Cooperative methods -/

section Runs

variable {K} {o f : ο} {name : String} {cell : ο → ο} {fs : List ο}

theorem searched_mem : K.searched o ∈ K.hierarchy.map (·.1) := by
  unfold searched
  split
  · next h => exact isType_iff.mp h
  · exact K.typeOf_mem o

theorem follows_searched {c : ο} (hc : c ∈ K.mroOf (K.searched o)) : K.Follows c o (K.searched o) := by
  unfold searched at hc ⊢
  by_cases ho : K.isType o = true
  · rw [if_pos ho] at hc ⊢
    exact .subclass ho hc
  · rw [if_neg ho] at hc ⊢
    exact .instance_ (fun h => ho h.1) hc

theorem nextMethod_eq {before rest : List ο} {c : ο} (hname : name ≠ "__class__")
    (hmro : K.mroOf (K.searched o) = before ++ c :: rest)
    (hcoop : K.Cooperative name cell (K.mroOf (K.searched o))) (hf : K.dict c name = some f) :
    K.nextMethod o name cell f = rest.findSome? (K.dict · name) := by
  have hc : c ∈ K.mroOf (K.searched o) := by rw [hmro]; simp
  obtain ⟨-, -, hnodup⟩ := mroOf_spec (K := K) (searched_mem (o := o))
  unfold nextMethod
  rw [(hcoop c hc f hf).1, (follows_searched hc).init]
  dsimp only
  rw [getattribute_eq hname hmro hnodup]
  cases hfind : rest.findSome? (K.dict · name) with
  | none => rfl
  | some g =>
    obtain ⟨d, hd, hg⟩ := List.exists_of_findSome?_eq_some hfind
    have hget := (hcoop d (by rw [hmro]; simp [hd]) g hg).2
    simp [bind, hget]

theorem runs_from {before rest : List ο} {c : ο} (hname : name ≠ "__class__")
    (hmro : K.mroOf (K.searched o) = before ++ c :: rest)
    (hcoop : K.Cooperative name cell (K.mroOf (K.searched o))) (hf : K.dict c name = some f) :
    K.Runs o name cell f fs ↔ fs = f :: rest.filterMap (K.dict · name) := by
  have hnext := nextMethod_eq hname hmro hcoop hf
  induction hn : rest.length using Nat.strongRecOn generalizing before c rest f fs with
  | ind n ih =>
    cases hfind : rest.findSome? (K.dict · name) with
    | none =>
      have hnil : rest.filterMap (K.dict · name) = [] :=
        List.filterMap_eq_nil_iff.mpr (List.findSome?_eq_none_iff.mp hfind)
      rw [hnil]
      rw [hfind] at hnext
      constructor
      · intro hruns
        cases hruns with
        | last => rfl
        | next hg => rw [hnext] at hg; cases hg
      · intro h
        obtain rfl := h
        exact .last hnext
    | some g =>
      obtain ⟨between, d, rest', rfl, hd, hnone⟩ := List.findSome?_eq_some_iff.mp hfind
      have hbetween : between.filterMap (K.dict · name) = [] := List.filterMap_eq_nil_iff.mpr hnone
      have hmro' : K.mroOf (K.searched o) = (before ++ c :: between) ++ d :: rest' := by rw [hmro]; simp
      have hlen : rest'.length < n := by
        rw [← hn, List.length_append, List.length_cons]
        omega
      have hrest (gs : List ο) : K.Runs o name cell g gs ↔ gs = g :: rest'.filterMap (K.dict · name) :=
        ih _ hlen hmro' hd (nextMethod_eq hname hmro' hcoop hd) rfl
      rw [hfind] at hnext
      rw [List.filterMap_append, hbetween, List.nil_append, List.filterMap_cons, hd]
      constructor
      · intro hruns
        cases hruns with
        | last hg => rw [hnext] at hg; cases hg
        | next hg hgs =>
          rw [hnext] at hg
          cases hg
          rw [(hrest _).mp hgs]
      · intro h
        obtain rfl := h
        exact .next hnext ((hrest _).mpr rfl)

/-- **Methods that each call the next run** once for each class that has one, in MRO order. -/
theorem runs_iff (hname : name ≠ "__class__") (hcoop : K.Cooperative name cell (K.mroOf (K.searched o)))
    (hf : (K.mroOf (K.searched o)).findSome? (K.dict · name) = some f) :
    K.Runs o name cell f fs ↔ fs = (K.mroOf (K.searched o)).filterMap (K.dict · name) := by
  obtain ⟨before, c, rest, hmro, hc, hnone⟩ := List.findSome?_eq_some_iff.mp hf
  have hbefore : before.filterMap (K.dict · name) = [] := List.filterMap_eq_nil_iff.mpr hnone
  rw [runs_from hname hmro hcoop hc, hmro, List.filterMap_append, hbefore, List.nil_append, List.filterMap_cons, hc]

end Runs

/-! ### Without arguments -/

section NoArgs

variable {K} {f : Function} {fr : Frame}

theorem inferObject_eq : K.inferObject fr = .ok (K.box (fr.slots 0)) := by
  have hset := Content.testsUnset_eq (fr.slots 0)
  unfold Content.testsUnset at hset
  unfold inferObject
  simp [hset]

theorem inferTypeFrom_eq : ∀ {freevars : List String} {i : Nat}, "__class__" ∈ freevars →
    K.inferTypeFrom fr i freevars = K.cellType (fr.cells (freevars.idxOf "__class__" + i))
  | name :: freevars, i, h => by
    unfold inferTypeFrom
    by_cases hname : name = "__class__"
    · simp [hname]
    · have hin : "__class__" ∈ freevars := (List.mem_cons.mp h).resolve_left fun he => hname he.symm
      rw [if_neg hname, inferTypeFrom_eq hin, List.idxOf_cons_ne _ hname]
      congr 2
      omega

theorem inferType_eq (h : "__class__" ∈ f.freevars) :
    K.inferType fr f.code = K.cellType (fr.get (f.code.readPlace "__class__")) := by
  have hcell : "__class__" ∉ f.cellvars := (f.freevars_foreign _ h).1
  have hplace : f.code.readPlace "__class__" = .cell (f.freevars.idxOf "__class__" + f.cellvars.length) := by
    simp [Code.readPlace, Code.getCellIndex, h, hcell]
  rw [hplace]
  exact inferTypeFrom_eq h

theorem readPlace_first {self : String} (h : f.argumentNames.head? = some self) (hself : self ∉ f.cellvars) :
    f.code.readPlace self = .slot 0 := by
  have hat : f.At 0 self := Function.argument_at (by rwa [← List.head?_eq_getElem?])
  have hzero : f.slotsBefore 0 = 0 := by simp [Function.slotsBefore]
  rw [hat.readPlace hself, hzero]

theorem initNoArgs_eq {self : String} (h : f.argumentNames.head? = some self) (hself : self ∉ f.cellvars)
    (hclass : "__class__" ∈ f.freevars) {c : ο} (hc : K.cellType (fr.get (f.code.readPlace "__class__")) = .ok c) :
    K.initNoArgs fr f.code = K.init c (K.box (fr.get (f.code.readPlace self))) := by
  have hcount : f.code.argCount ≠ 0 := by
    intro hzero
    have hnil : f.argumentNames = [] := List.eq_nil_of_length_eq_zero hzero
    rw [hnil] at h
    cases h
  unfold initNoArgs
  rw [if_neg hcount, inferObject_eq, inferType_eq hclass, hc, readPlace_first h hself]
  rfl

theorem initNoArgs_of_noArguments (h : f.argumentNames = []) : K.initNoArgs fr f.code = .error .noArguments := by
  unfold initNoArgs
  rw [if_pos (by simp [h])]

end NoArgs

/-- **`super`**: the first entry after the class, so that cooperative methods
each run once in MRO order; and `super()` is `super(__class__, self)` where the
method has a positional parameter that no inner function captures. -/
theorem super_followsMro :
    (∀ c o t, K.Follows c o t → ∃ S, K.init c (some o) = .ok S ∧
      ∀ name res, name ≠ "__class__" → K.FirstAfter c name (K.mroOf t) res →
        K.getattribute S name = K.bind o t res) ∧
    (∀ o name cell f, name ≠ "__class__" → K.Cooperative name cell (K.mroOf (K.searched o)) →
      (K.mroOf (K.searched o)).findSome? (K.dict · name) = some f →
      (K.mroOf (K.searched o)).Nodup ∧
        ∀ fs, K.Runs o name cell f fs ↔ fs = (K.mroOf (K.searched o)).filterMap (K.dict · name)) ∧
    ∀ (f : Function) (fr : Frame) c, "__class__" ∈ f.freevars →
      K.cellType (fr.get (f.code.readPlace "__class__")) = .ok c →
      (∀ self, f.argumentNames.head? = some self → self ∉ f.cellvars →
        K.initNoArgs fr f.code = K.init c (K.box (fr.get (f.code.readPlace self)))) ∧
      (f.argumentNames = [] → K.initNoArgs fr f.code = .error .noArguments) := by
  refine ⟨fun c o t ht => ⟨_, ht.init, fun name res hname hres => hres.getattribute ht hname⟩, ?_, ?_⟩
  · intro o name cell f hname hcoop hf
    exact ⟨(mroOf_spec searched_mem).2.2, fun fs => runs_iff hname hcoop hf⟩
  · intro f fr c hclass hc
    exact ⟨fun self h hself => initNoArgs_eq h hself hclass hc, initNoArgs_of_noArguments⟩

end Heap

/-! ### A diamond -/

/-- `object` 0, `type` 1, `function` 6, `class A` 2, `B(A)` 3, `C(A)` 4 and
`D(B, C)` 5, each with a method `m`; object 10 is a `D`. -/
def diamondHierarchy : Hierarchy Nat :=
  [(5, [5, 3, 4, 2, 0]), (4, [4, 2, 0]), (3, [3, 2, 0]), (2, [2, 0]), (6, [6, 0]), (1, [1, 0]), (0, [0])]

theorem diamond_create {H : Hierarchy Nat} {type : Nat} {mro : List Nat} (bases : List Nat) (hH : Built 0 H)
    (hnew : type ∉ H.map (·.1)) (hbases : bases ≠ []) (hnodup : bases.Nodup) (hin : ∀ b ∈ bases, b ∈ H.map (·.1))
    (hmro : mro_ type (bases.map H.mroOf) = .order mro) : Built 0 ((type, mro) :: H) :=
  .create hH hnew hbases hnodup hin hmro

theorem diamondHierarchy_built : Built 0 diamondHierarchy := by
  have htype : Built 0 [(1, [1, 0]), (0, [0])] :=
    diamond_create [0] .object (by decide) (by decide) (by decide) (by decide) (by decide)
  have hfunction : Built 0 [(6, [6, 0]), (1, [1, 0]), (0, [0])] :=
    diamond_create [0] htype (by decide) (by decide) (by decide) (by decide) (by decide)
  have hA : Built 0 [(2, [2, 0]), (6, [6, 0]), (1, [1, 0]), (0, [0])] :=
    diamond_create [0] hfunction (by decide) (by decide) (by decide) (by decide) (by decide)
  have hB : Built 0 [(3, [3, 2, 0]), (2, [2, 0]), (6, [6, 0]), (1, [1, 0]), (0, [0])] :=
    diamond_create [2] hA (by decide) (by decide) (by decide) (by decide) (by decide)
  have hC : Built 0 [(4, [4, 2, 0]), (3, [3, 2, 0]), (2, [2, 0]), (6, [6, 0]), (1, [1, 0]), (0, [0])] :=
    diamond_create [2] hB (by decide) (by decide) (by decide) (by decide) (by decide)
  exact diamond_create [3, 4] hC (by decide) (by decide) (by decide) (by decide) (by decide)

def diamond : Heap Nat where
  object := 0
  hierarchy := diamondHierarchy
  built := diamondHierarchy_built
  typeOf := fun o => if o ≤ 6 then 1 else if o = 10 then 5 else 6
  typeOf_mem := by
    intro o
    split
    · decide
    · split <;> decide
  dict := fun c name => if name = "m" ∧ c ∈ [2, 3, 4, 5] then some (20 + c) else none
  hasGet := fun t => t = 6
  classAttribute := fun _ => none
  box := fun
    | .null => none
    | .value (.object id) => some id
    | _ => some 30

/-- `def m(self)` in a class body, with a use of `super()`. -/
def selfMethod : Function where
  posonlyargs := []
  args := ["self"]
  kwonlyargs := []
  vararg := none
  kwarg := none
  locals := []
  cellvars := []
  freevars := ["__class__"]
  isClass := false
  varnames_nodup := by decide
  cellvars_nodup := List.nodup_nil
  freevars_nodup := by decide
  locals_uncaptured := Calling.noLocals_uncaptured
  freevars_foreign := by decide

/-- `def m(*args)`. -/
def starMethod : Function :=
  { selfMethod with args := [], vararg := some "args", varnames_nodup := by decide, freevars_foreign := by decide }

/-- The frame of a call in class `B`, for the first slot. -/
def frameOfB (first : Content) : Frame := ⟨fun _ => first, fun _ => .value (.object 3)⟩

theorem super_followsMro_diamond :
    (∃ S, diamond.init 3 (some 10) = .ok S ∧ diamond.getattribute S "m" = .get 24 (some 10) 5) ∧
    (∀ fs, diamond.Runs 10 "m" (· - 20) 25 fs ↔ fs = [25, 23, 24, 22]) ∧
    diamond.initNoArgs (frameOfB (.value (.object 10))) selfMethod.code = diamond.init 3 (some 10) := by
  obtain ⟨hnext, hruns, hnoArgs⟩ := Heap.super_followsMro (K := diamond)
  refine ⟨?_, ?_, ?_⟩
  · obtain ⟨S, hS, hget⟩ := hnext 3 10 5 (.instance_ (by decide) (by decide))
    exact ⟨S, hS, hget "m" 24 (by decide) ⟨[5], [], 4, [2, 0], by decide, by simp, by decide⟩⟩
  · have hcoop : diamond.Cooperative "m" (· - 20) (diamond.mroOf (diamond.searched 10)) := by
      intro c _ f hf
      obtain ⟨-, rfl⟩ : c ∈ [2, 3, 4, 5] ∧ 20 + c = f := by simpa [diamond] using hf
      refine ⟨by simp, ?_⟩
      have htype : diamond.typeOf (20 + c) = 6 := by
        simp only [diamond]
        rw [if_neg (by omega), if_neg (by omega)]
      rw [htype]
      decide
    exact (hruns 10 "m" (· - 20) 25 (by decide) hcoop (by decide)).2
  · exact (hnoArgs selfMethod (frameOfB (.value (.object 10))) 3 (by decide) (by decide)).1 "self" (by decide) (by decide)

/-- `super()` in `def m(*args)` of `B`, called on the object 10. -/
theorem starMethod_noArguments :
    diamond.Follows 3 10 5 ∧
    (frameOfB (.tuple [.object 10])).get (starMethod.code.readPlace "args") = .tuple [.object 10] ∧
    diamond.cellType ((frameOfB (.tuple [.object 10])).get (starMethod.code.readPlace "__class__")) = .ok 3 ∧
    diamond.init 3 (some 10) = .ok ⟨3, some 10, some 5⟩ ∧
    diamond.initNoArgs (frameOfB (.tuple [.object 10])) starMethod.code = .error .noArguments := by
  refine ⟨.instance_ (by decide) (by decide), ?_, ?_, ?_, ?_⟩
  · decide
  · decide
  · decide
  · decide

end Pylang.Runtime
