/-
The three lowerings of an assignment target: `generate_store_target`,
`store_to_target` and the fused unpacking of two elements in a for loop,
against what Python stores. The code they emit is run as it is emitted, over a
runtime that is given. Subscripts are an index or a slice; an extended slice is
a subscript that both functions drop.

Sizes are natural numbers, where the code has an `int32_t`.
-/
import Mathlib

namespace Pylang.Aot.Targets

/-- A target; `ε` are the expressions in it. -/
inductive Target (ε : Type)
  | name (id : String)
  | attribute (value : ε) (attr : String)
  | index (value key : ε)
  | slice (value : ε) (lower upper step : Option ε)
  | tuple (elements : List (Target ε))
  | list (elements : List (Target ε))
  | starred (value : Target ε)

def Target.isStarred {ε : Type} : Target ε → Bool
  | .starred _ => true
  | _ => false

/-- Code that may raise, change the state of the program or not end. -/
abbrev Run (σ E : Type) := ExceptT E (StateT σ Option)

/-- What the fast paths look at: an exact tuple, an exact list, or another object. -/
inductive View (V : Type)
  | tuple (elements : List V)
  | list (elements : List V)
  | other

/-- The runtime. -/
structure Runtime (σ V E ε : Type) where
  generate : ε → Run σ E V
  storeVariable : String → V → Run σ E Unit
  setattr : V → String → V → Run σ E Unit
  setitem : V → V → V → Run σ E Unit
  none : V
  createSlice : V → V → V → V
  /-- New tuples and lists, by their elements. -/
  createTuple : List V → V
  createList : List V → V
  view : V → σ → View V
  iter : V → Run σ E V
  /-- The `__next__` of the type. -/
  next : V → Run σ E V
  /-- `next_kv_raw` of a `dict_items_iterator`. -/
  dictItems : V → Option (Run σ E (Option (V × V)))
  valueError : String → E
  /-- The type of an exception is `StopIteration`, or derived from it. -/
  stopsExactly : E → Bool
  stops : E → Bool
  view_createTuple : ∀ l s, view (createTuple l) s = .tuple l

namespace Runtime

variable {σ V E ε : Type} (W : Runtime σ V E ε)

def viewOf (v : V) : Run σ E (View V) := do return W.view v (← get)

/-- `next`, and whether it is the end. -/
def nextItem (stops : E → Bool) (it : V) : Run σ E (Option V) :=
  tryCatch (some <$> W.next it) fun e => if stops e then return Option.none else throw e

/-- The items that are left, of an iteration of `count`. -/
def unpackRest (stops : E → Bool) (it : V) (count : Nat) : Nat → Run σ E (List V)
  | 0 => do
    match ← W.nextItem stops it with
    | Option.none => return []
    | some _ => throw (W.valueError s!"too many values to unpack (expected {count})")
  | left + 1 => do
    match ← W.nextItem stops it with
    | Option.none => throw (W.valueError s!"not enough values to unpack (expected {count}, got {count - (left + 1)})")
    | some v => return v :: (← unpackRest stops it count left)

/-- The elements of a tuple or a list. -/
def unpackElements (elements : List V) (count : Nat) : Run σ E (List V) :=
  if elements.length ≠ count then
    if elements.length < count then
      throw (W.valueError s!"not enough values to unpack (expected {count}, got {elements.length})")
    else throw (W.valueError s!"too many values to unpack (expected {count})")
  else return elements

/-- `unpack_sequence`. -/
def unpackSequence (iterable : V) (count : Nat) : Run σ E (List V) := do
  match ← W.viewOf iterable with
  | .tuple elements => W.unpackElements elements count
  | .list elements => W.unpackElements elements count
  | .other => W.unpackRest W.stopsExactly (← W.iter iterable) count count

/-- The loop of `unpack_ex`. -/
def _collect (it : V) : Run σ E (List V) := do
  match ← W.nextItem W.stops it with
  | Option.none => return []
  | some v => return v :: (← _collect it)
partial_fixpoint

/-- `unpack_ex`. -/
def unpackEx (iterable : V) (before after : Nat) : Run σ E (List V) := do
  let elements ← W._collect (← W.iter iterable)
  if elements.length < before + after then
    throw (W.valueError s!"not enough values to unpack (expected at least {before + after}, got {elements.length})")
  let middle := elements.length - before - after
  return elements.take before ++ W.createList ((elements.drop before).take middle) :: elements.drop (before + middle)

def generateOr (e : Option ε) : Run σ E V :=
  match e with
  | some e => W.generate e
  | Option.none => return W.none

mutual

/-- `generate_store_target`; what it does not support is logged and dropped. -/
def generateStoreTarget : Target ε → V → Run σ E Unit
  | .name id, v => W.storeVariable id v
  | .tuple elements, v => do generateStoreTargets elements (← W.unpackSequence v elements.length)
  | .list elements, v => do generateStoreTargets elements (← W.unpackSequence v elements.length)
  | .index value key, v => do
    let obj ← W.generate value
    W.setitem obj (← W.generate key) v
  | .slice value _ _ _, _ => do
    let _ ← W.generate value
  | .attribute value attr, v => do W.setattr (← W.generate value) attr v
  | .starred _, _ => return

def generateStoreTargets : List (Target ε) → List V → Run σ E Unit
  | t :: ts, v :: vs => do
    generateStoreTarget t v
    generateStoreTargets ts vs
  | _, _ => return

end

mutual

/-- `store_to_target`, and as an element of `store_to_sequence_target`, which looks through a star. -/
def storeToTarget (element : Bool) : Target ε → V → Run σ E Unit
  | .name id, v => W.storeVariable id v
  | .attribute value attr, v => do W.setattr (← W.generate value) attr v
  | .index value key, v => do
    let obj ← W.generate value
    W.setitem obj (← W.generate key) v
  | .slice value lower upper step, v => do
    let obj ← W.generate value
    let start ← W.generateOr lower
    let stop ← W.generateOr upper
    let step ← W.generateOr step
    W.setitem obj (W.createSlice start stop step) v
  | .tuple elements, v => do
    if (elements.filter Target.isStarred).length ≤ 1 then
      storeToTargets elements (← match elements.findIdx? Target.isStarred with
        | Option.none => W.unpackSequence v elements.length
        | some starred => W.unpackEx v starred (elements.length - starred - 1))
  | .list elements, v => do
    if (elements.filter Target.isStarred).length ≤ 1 then
      storeToTargets elements (← match elements.findIdx? Target.isStarred with
        | Option.none => W.unpackSequence v elements.length
        | some starred => W.unpackEx v starred (elements.length - starred - 1))
  | .starred value, v => if element then storeToTarget false value v else return

def storeToTargets : List (Target ε) → List V → Run σ E Unit
  | t :: ts, v :: vs => do
    storeToTarget true t v
    storeToTargets ts vs
  | _, _ => return

end

/-- `rt_iter_next`. -/
def iterNext (stops : E → Bool) (it : V) : Run σ E (Option V) :=
  match W.dictItems it with
  | Option.none => W.nextItem stops it
  | some nextKv => do
    match ← nextKv with
    | Option.none => return Option.none
    | some (key, value) => return some (W.createTuple [key, value])

/-- `rt_iter_next_unpack2`. -/
def iterNextUnpack2 (it : V) : Run σ E (Option (List V)) :=
  match W.dictItems it with
  | some nextKv => do
    match ← nextKv with
    | Option.none => return Option.none
    | some (key, value) => return some [key, value]
  | Option.none => do
    match ← W.nextItem W.stopsExactly it with
    | Option.none => return Option.none
    | some item => return some (← W.unpackSequence item 2)

/-- The head of a for loop, up to its body: whether there is a value. -/
def forTarget (target : Target ε) (it : V) : Run σ E Bool :=
  match target with
  | .tuple [a, b] => do
    match ← W.iterNextUnpack2 it with
    | Option.none => return false
    | some out =>
      W.generateStoreTargets [a, b] out
      return true
  | t => do
    match ← W.iterNext W.stopsExactly it with
    | Option.none => return false
    | some item =>
      W.generateStoreTarget t item
      return true

/-! ### Python -/

/-- Unpacking into so many names. -/
def pyUnpack (v : V) (count : Nat) : Run σ E (List V) := do
  match ← W.viewOf v with
  | .tuple elements => W.unpackElements elements count
  | .list elements => W.unpackElements elements count
  | .other => W.unpackRest W.stops (← W.iter v) count count

def pyParts (elements : List (Target ε)) (v : V) : Run σ E (List V) :=
  match elements.findIdx? Target.isStarred with
  | Option.none => W.pyUnpack v elements.length
  | some starred => W.unpackEx v starred (elements.length - starred - 1)

mutual

/-- What Python does to store a value. A star takes the list of the middle part. -/
def pyStore : Target ε → V → Run σ E Unit
  | .name id, v => W.storeVariable id v
  | .attribute value attr, v => do W.setattr (← W.generate value) attr v
  | .index value key, v => do
    let obj ← W.generate value
    W.setitem obj (← W.generate key) v
  | .slice value lower upper step, v => do
    let obj ← W.generate value
    let start ← W.generateOr lower
    let stop ← W.generateOr upper
    let step ← W.generateOr step
    W.setitem obj (W.createSlice start stop step) v
  | .tuple elements, v => do pyStores elements (← W.pyParts elements v)
  | .list elements, v => do pyStores elements (← W.pyParts elements v)
  | .starred value, v => pyStore value v

def pyStores : List (Target ε) → List V → Run σ E Unit
  | t :: ts, v :: vs => do
    pyStore t v
    pyStores ts vs
  | _, _ => return

end

def pyFor (target : Target ε) (it : V) : Run σ E Bool := do
  match ← W.iterNext W.stops it with
  | Option.none => return false
  | some item =>
    W.pyStore target item
    return true

end Runtime

/-! ## The targets that are stored right -/

section Targets

variable {σ V E ε : Type}

mutual

/-- What the parser accepts: a star is an element, at most one of its tuple or list. -/
def Target.wf : Target ε → Bool
  | .tuple elements => (elements.filter Target.isStarred).length ≤ 1 && wfAll elements
  | .list elements => (elements.filter Target.isStarred).length ≤ 1 && wfAll elements
  | .starred value => !value.isStarred && value.wf
  | _ => true

def wfAll : List (Target ε) → Bool
  | [] => true
  | t :: ts => t.wf && wfAll ts

end

mutual

/-- No slice, and no star. -/
def Target.supported : Target ε → Bool
  | .tuple elements => supportedAll elements
  | .list elements => supportedAll elements
  | .slice .. => false
  | .starred _ => false
  | _ => true

def supportedAll : List (Target ε) → Bool
  | [] => true
  | t :: ts => t.supported && supportedAll ts

end

/-- No iteration ends with an exception of a class derived from `StopIteration`. -/
def Runtime.Plain (W : Runtime σ V E ε) : Prop := ∀ e, W.stopsExactly e = W.stops e

namespace Runtime

variable {W : Runtime σ V E ε}

theorem unpackSequence_eq (hW : W.Plain) (v : V) (count : Nat) : W.unpackSequence v count = W.pyUnpack v count := by
  unfold unpackSequence pyUnpack
  rw [show W.stopsExactly = W.stops from funext hW]

mutual

/-- **`store_to_target` is right** for every target. -/
theorem storeToTarget_eq (hW : W.Plain) : ∀ (t : Target ε) (element : Bool), t.wf = true → (element = true ∨ t.isStarred = false) →
    ∀ v, W.storeToTarget element t v = W.pyStore t v
  | .name _, _, _, _, _ => by simp only [storeToTarget, pyStore]
  | .attribute _ _, _, _, _, _ => by simp only [storeToTarget, pyStore]
  | .index _ _, _, _, _, _ => by simp only [storeToTarget, pyStore]
  | .slice _ _ _ _, _, _, _, _ => by simp only [storeToTarget, pyStore]
  | .tuple elements, _, hwf, _, v => by
    simp only [Target.wf, Bool.and_eq_true, decide_eq_true_eq] at hwf
    simp only [storeToTarget, pyStore, pyParts, if_pos hwf.1, unpackSequence_eq hW, storeToTargets_eq hW elements hwf.2]
    cases elements.findIdx? Target.isStarred <;> rfl
  | .list elements, _, hwf, _, v => by
    simp only [Target.wf, Bool.and_eq_true, decide_eq_true_eq] at hwf
    simp only [storeToTarget, pyStore, pyParts, if_pos hwf.1, unpackSequence_eq hW, storeToTargets_eq hW elements hwf.2]
    cases elements.findIdx? Target.isStarred <;> rfl
  | .starred value, element, hwf, helement, v => by
    simp only [Target.wf, Bool.and_eq_true, Bool.not_eq_true'] at hwf
    have htrue : element = true := helement.resolve_right (by simp [Target.isStarred])
    simp only [storeToTarget, pyStore, if_pos htrue]
    exact storeToTarget_eq hW value false hwf.2 (Or.inr hwf.1) v

theorem storeToTargets_eq (hW : W.Plain) : ∀ (ts : List (Target ε)), wfAll ts = true →
    ∀ vs, W.storeToTargets ts vs = W.pyStores ts vs
  | [], _, _ => by simp only [storeToTargets, pyStores]
  | t :: ts, hwf, [] => by simp only [storeToTargets, pyStores]
  | t :: ts, hwf, v :: vs => by
    simp only [wfAll, Bool.and_eq_true] at hwf
    simp only [storeToTargets, pyStores, storeToTarget_eq hW t true hwf.1 (Or.inl rfl), storeToTargets_eq hW ts hwf.2]

end

theorem findIdx_supported : ∀ {ts : List (Target ε)}, supportedAll ts = true → ts.findIdx? Target.isStarred = Option.none
  | [], _ => rfl
  | t :: ts, h => by
    simp only [supportedAll, Bool.and_eq_true] at h
    have hstar : t.isStarred = false := by
      cases t with
      | starred => simp [Target.supported] at h
      | _ => rfl
    rw [List.findIdx?_cons, hstar, findIdx_supported h.2]
    rfl

mutual

/-- `generate_store_target` is right where it supports all of the target. -/
theorem generateStoreTarget_eq (hW : W.Plain) : ∀ (t : Target ε), t.supported = true →
    ∀ v, W.generateStoreTarget t v = W.pyStore t v
  | .name _, _, _ => by simp only [generateStoreTarget, pyStore]
  | .attribute _ _, _, _ => by simp only [generateStoreTarget, pyStore]
  | .index _ _, _, _ => by simp only [generateStoreTarget, pyStore]
  | .slice _ _ _ _, h, _ => by simp [Target.supported] at h
  | .tuple elements, h, v => by
    simp only [Target.supported] at h
    simp only [generateStoreTarget, pyStore, pyParts, findIdx_supported h, unpackSequence_eq hW,
      generateStoreTargets_eq hW elements h]
  | .list elements, h, v => by
    simp only [Target.supported] at h
    simp only [generateStoreTarget, pyStore, pyParts, findIdx_supported h, unpackSequence_eq hW,
      generateStoreTargets_eq hW elements h]
  | .starred _, h, _ => by simp [Target.supported] at h

theorem generateStoreTargets_eq (hW : W.Plain) : ∀ (ts : List (Target ε)), supportedAll ts = true →
    ∀ vs, W.generateStoreTargets ts vs = W.pyStores ts vs
  | [], _, _ => by simp only [generateStoreTargets, pyStores]
  | t :: ts, _, [] => by simp only [generateStoreTargets, pyStores]
  | t :: ts, h, v :: vs => by
    simp only [supportedAll, Bool.and_eq_true] at h
    simp only [generateStoreTargets, pyStores, generateStoreTarget_eq hW t h.1, generateStoreTargets_eq hW ts h.2]

end

theorem pyUnpack_createTuple (l : List V) : W.pyUnpack (W.createTuple l) l.length = pure l := by
  have hview : W.viewOf (W.createTuple l) = pure (.tuple l) := by
    unfold viewOf
    refine ExceptT.ext (StateT.ext fun s => ?_)
    show some (Except.ok (W.view (W.createTuple l) s), s) = some (.ok (.tuple l), s)
    rw [W.view_createTuple]
  unfold pyUnpack
  rw [hview, pure_bind]
  simp [unpackElements]

/-- The loop is right where its target is supported, fused or not. -/
theorem forTarget_eq (hW : W.Plain) {t : Target ε} (h : t.supported = true) (it : V) : W.forTarget t it = W.pyFor t it := by
  have hstops : W.stopsExactly = W.stops := funext hW
  unfold forTarget pyFor
  split
  next a b =>
    have hall : supportedAll [a, b] = true := by simpa only [Target.supported] using h
    have hstore (v : V) : W.pyStore (.tuple [a, b]) v = W.pyUnpack v 2 >>= fun vs => W.pyStores [a, b] vs := by
      simp only [pyStore, pyParts, findIdx_supported hall]
      rfl
    simp only [hstore, generateStoreTargets_eq hW _ hall]
    unfold iterNextUnpack2 iterNext
    cases W.dictItems it with
    | some nextKv =>
      simp only [bind_assoc]
      refine congrArg _ (funext fun kv => ?_)
      cases kv with
      | none => simp
      | some kv => simp [show W.pyUnpack (W.createTuple [kv.1, kv.2]) 2 = pure [kv.1, kv.2] from pyUnpack_createTuple _]
    | none =>
      simp only [bind_assoc, hstops]
      refine congrArg _ (funext fun item => ?_)
      cases item with
      | none => simp
      | some item => simp [unpackSequence_eq hW]
  next => simp only [hstops, generateStoreTarget_eq hW t h]

end Runtime

end Targets

end Pylang.Aot.Targets
