/-
`generate_condition_as_bool` against `generate` and `is_true_fast`: the code
for a condition tests each operand of `and` and `or` once, where the code for
the object tests the operand that decides and then, as the result, again.
-/
import Mathlib
import Pylang.Lib.Refine

namespace Pylang.Aot.Condition

open Refine

inductive CompareOp
  | lt | ltE | gt | gtE | eq | notEq
  deriving DecidableEq

inductive BoolOpType
  | and
  | or
  deriving DecidableEq

/-- An expression. The comparisons are the single ones; `other` is any other
expression, a chain of comparisons too, which both ways evaluate with `generate`. -/
inductive Node (α υ : Type)
  | other (a : α)
  | not (operand : Node α υ)
  | unary (op : υ) (operand : Node α υ)
  | boolOp (op : BoolOpType) (first : Node α υ) (rest : List (Node α υ))
  | subscript (value index : Node α υ)
  | compare (op : CompareOp) (lhs rhs : Node α υ)
  | is (negated : Bool) (lhs rhs : Node α υ)
  | contains (negated : Bool) (lhs rhs : Node α υ)

/-- What the fast paths look at. -/
inductive Kind
  /-- A tagged integer. -/
  | tagged (n : Int)
  /-- A `PyInteger` that fits a tag. -/
  | small (n : Int)
  | bool (b : Bool)
  | none
  | str
  | list
  | dict
  | set
  | object
  deriving DecidableEq

inductive Halt (ε : Type)
  /-- A Python exception. -/
  | raised (e : ε)
  /-- A failed `ASSERT`. -/
  | aborted
  deriving DecidableEq

/-- What the compiled code calls, with the effects on the state and the exceptions of each. -/
structure World (ν σ ε α υ : Type) where
  kind : ν → Kind
  /-- `py_true()` and `py_false()`. -/
  pyBool : Bool → ν
  kind_pyBool : ∀ b, kind (pyBool b) = .bool b
  other : α → EStateM (Halt ε) σ ν
  unary : υ → ν → EStateM (Halt ε) σ ν
  /-- `PyObject::true_` of what is no integer, bool or None. -/
  objectTrue : ν → EStateM (Halt ε) σ Bool
  /-- `RtValue::compare_lt` and the others, of what are not both small integers. -/
  slowCompare : CompareOp → ν → ν → EStateM (Halt ε) σ ν
  /-- The item of a list at an index in its range, from the end for a negative one. -/
  listItem : σ → ν → Int → Option ν
  indexError : ε
  /-- "list indices must be integers or slices" -/
  typeError : ε
  /-- `PyObject::getitem` but for an integer or a bool in a list. -/
  objectGetitem : ν → ν → EStateM (Halt ε) σ ν
  /-- `map().find` in a dictionary. -/
  dictFind : ν → ν → EStateM (Halt ε) σ Bool
  /-- The loop over the elements of a list. -/
  listSearch : ν → ν → EStateM (Halt ε) σ Bool
  /-- `PyObject::contains`. -/
  contains : ν → ν → EStateM (Halt ε) σ Bool

/-- `as_int` of `RtValue::flatten`. -/
def Kind.asInt : Kind → Option Int
  | .tagged n => some n
  | .small n => some n
  | .bool b => some b.toInt
  | _ => Option.none

def CompareOp.holds : CompareOp → Int → Int → Bool
  | .lt, l, r => l < r
  | .ltE, l, r => l ≤ r
  | .gt, l, r => l > r
  | .gtE, l, r => l ≥ r
  | .eq, l, r => l = r
  | .notEq, l, r => l ≠ r

/-- `unwrap` of a result: an exception fails the `ASSERT`. -/
def unwrap {σ ε β : Type} (x : EStateM (Halt ε) σ β) : EStateM (Halt ε) σ β := fun s =>
  match x s with
  | .ok a s' => .ok a s'
  | .error _ s' => .error .aborted s'

namespace World

variable {ν σ ε α υ : Type} [DecidableEq ν] (W : World ν σ ε α υ)

/-- `PyObject::true_` of the boxed value. -/
def true_ (v : ν) : EStateM (Halt ε) σ Bool :=
  match W.kind v with
  | .tagged n | .small n => pure (n ≠ 0)
  | .bool b => pure b
  | .none => pure false
  | _ => W.objectTrue v

/-- `rt_is_true_fast`. -/
def isTrueFast (v : ν) : EStateM (Halt ε) σ Bool :=
  match (W.kind v).asInt with
  | some n => pure (n ≠ 0)
  | none => if W.kind v = .none then pure false else W.true_ v

/-- `RtValue::is_truthy`. -/
def isTruthy (v : ν) : EStateM (Halt ε) σ Bool :=
  match W.kind v with
  | .tagged n => pure (n ≠ 0)
  | _ => unwrap (W.true_ v)

/-- The two tests for integers, in the emitted code and in the runtime. -/
def compareInts (op : CompareOp) (l r : ν) : Option Bool :=
  match W.kind l, W.kind r with
  | .tagged a, .tagged b => some (op.holds a b)
  | kl, kr =>
    match kl.asInt, kr.asInt with
    | some a, some b => some (op.holds a b)
    | _, _ => none

/-- `emit_tagged_compare_object`. -/
def compareObject (op : CompareOp) (l r : ν) : EStateM (Halt ε) σ ν :=
  match W.compareInts op l r with
  | some b => pure (W.pyBool b)
  | none => W.slowCompare op l r

/-- `emit_tagged_compare_bool`. -/
def compareBool (op : CompareOp) (l r : ν) : EStateM (Halt ε) σ Bool :=
  match W.compareInts op l r with
  | some b => pure b
  | none => W.slowCompare op l r >>= W.isTruthy

/-- `exact_list_index_hit`. -/
def exactListIndexHit (s : σ) (list index : ν) : Option ν :=
  match W.kind list, W.kind index with
  | .list, .tagged n => W.listItem s list n
  | _, _ => none

/-- `exact_list_index`. -/
def exactListIndex (s : σ) (list index : ν) : Option ν :=
  match W.kind list, (W.kind index).asInt with
  | .list, some n => W.listItem s list n
  | _, _ => none

/-- `PyObject::getitem`, for a list `PyList::__getitem__`. -/
def getitem (obj key : ν) : EStateM (Halt ε) σ ν := do
  let s ← get
  match W.kind obj, W.kind key with
  | .list, .tagged n | .list, .small n =>
    match W.listItem s obj n with
    | some item => pure item
    | none => throw (.raised W.indexError)
  | .list, .bool _ => throw (.raised W.typeError)
  | _, _ => W.objectGetitem obj key

def rtListGetitemI64 (list index : ν) : EStateM (Halt ε) σ ν := do
  let s ← get
  match W.exactListIndexHit s list index with
  | some item => pure item
  | none =>
    match W.exactListIndex s list index with
    | some item => pure item
    | none => W.getitem list index

/-- `rt_list_getitem_i64_truthy`; `truthy_value` of an item is its truth. -/
def rtListGetitemI64Truthy (list index : ν) : EStateM (Halt ε) σ Bool := do
  let s ← get
  match W.exactListIndexHit s list index with
  | some item => W.isTrueFast item
  | none => W.getitem list index >>= W.isTrueFast

def rtListGetitemI64Not (list index : ν) : EStateM (Halt ε) σ ν := do
  let s ← get
  let truth ← match W.exactListIndexHit s list index with
    | some item => W.isTrueFast item
    | none => W.getitem list index >>= W.isTrueFast
  pure (W.pyBool !truth)

/-- `rt_compare_in` and `rt_compare_not_in`. -/
def rtCompareIn (negated : Bool) (value container : ν) : EStateM (Halt ε) σ ν :=
  match W.kind container with
  | .dict =>
    if W.kind value = .str then do
      let found ← W.dictFind container value
      pure (W.pyBool (found != negated))
    else do
      let found ← W.contains container value
      pure (W.pyBool (found != negated))
  | .list => do
    let found ← W.listSearch container value
    pure (W.pyBool (found != negated))
  | _ => do
    let found ← W.contains container value
    pure (W.pyBool (found != negated))

/-- `rt_compare_in_bool` and `rt_compare_not_in_bool`. -/
def rtCompareInBool (negated : Bool) (value container : ν) : EStateM (Halt ε) σ Bool :=
  match W.kind container with
  | .dict => do
    let found ← W.dictFind container value
    pure (found != negated)
  | .list => do
    let found ← W.listSearch container value
    pure (found != negated)
  | _ => do
    let found ← W.contains container value
    pure (found != negated)

mutual

/-- `generate`: the object. -/
def generate : Node α υ → EStateM (Halt ε) σ ν
  | .other a => W.other a
  | .not (.subscript value index) => do
    let obj ← generate value
    let key ← generate index
    W.rtListGetitemI64Not obj key
  | .not operand => do
    let v ← generate operand
    let truth ← W.isTrueFast v
    pure (W.pyBool !truth)
  | .unary op operand => do
    let v ← generate operand
    W.unary op v
  | .boolOp op first rest => do
    let v ← generate first
    generateRest op v rest
  | .subscript value index => do
    let obj ← generate value
    let key ← generate index
    W.rtListGetitemI64 obj key
  | .compare op lhs rhs => do
    let l ← generate lhs
    let r ← generate rhs
    W.compareObject op l r
  | .is negated lhs rhs => do
    let l ← generate lhs
    let r ← generate rhs
    pure (W.pyBool (decide (l = r) != negated))
  | .contains negated lhs rhs => do
    let l ← generate lhs
    let r ← generate rhs
    W.rtCompareIn negated l r

/-- The rest of the loop of `visit(BoolOp)`, after an operand's object. -/
def generateRest (op : BoolOpType) (val : ν) : List (Node α υ) → EStateM (Halt ε) σ ν
  | [] => pure val
  | next :: rest => do
    let isTrue ← W.isTrueFast val
    -- `and` goes on where the operand is true, `or` where it is false
    if isTrue = (op == .and) then do
      let v ← generate next
      generateRest op v rest
    else pure val

end

/-- `generate`, then `is_true_fast`. -/
def testObject (test : Node α υ) : EStateM (Halt ε) σ Bool := W.generate test >>= W.isTrueFast

mutual

/-- `generate_condition_as_bool`. -/
def generateConditionAsBool : Node α υ → EStateM (Halt ε) σ Bool
  | .not operand => do
    let truth ← generateConditionAsBool operand
    pure !truth
  | .boolOp op first rest => do
    let truth ← generateConditionAsBool first
    conditionRest op truth rest
  | .subscript value index => do
    let obj ← W.generate value
    let key ← W.generate index
    W.rtListGetitemI64Truthy obj key
  | .compare op lhs rhs => do
    let l ← W.generate lhs
    let r ← W.generate rhs
    W.compareBool op l r
  | .contains negated lhs rhs => do
    let l ← W.generate lhs
    let r ← W.generate rhs
    W.rtCompareInBool negated l r
  | .is negated lhs rhs => do
    -- the `switch` breaks after the operands are evaluated, and `generate` evaluates them again
    let _ ← W.generate lhs
    let _ ← W.generate rhs
    W.testObject (.is negated lhs rhs)
  | .other a => W.testObject (.other a)
  | .unary op operand => W.testObject (.unary op operand)

/-- The rest of the loop over the values, after the truth of one. -/
def conditionRest (op : BoolOpType) (truth : Bool) : List (Node α υ) → EStateM (Halt ε) σ Bool
  | [] => pure truth
  | next :: rest =>
    if truth = (op == .and) then do
      let t ← generateConditionAsBool next
      conditionRest op t rest
    else pure truth

end

/-! ### What a condition should do -/

/-- Both operands. -/
def operands (lhs rhs : Node α υ) : EStateM (Halt ε) σ (ν × ν) := do
  let l ← W.generate lhs
  let r ← W.generate rhs
  pure (l, r)

mutual

/-- The test of a condition with the calls for objects, each operand of `and`
and `or` tested once. It is open where a list is indexed by a bool, where a key
that is no string is searched in a dictionary, where the truth of the result of
a comparison fails, and where `is` has an operand that changes when it is
evaluated again. -/
noncomputable def reference : Node α υ → Open σ (Halt ε) Bool
  | .not operand => (reference operand).bind fun truth => .lift (pure !truth)
  | .boolOp op first rest => (reference first).bind fun truth => referenceRest op truth rest
  | .subscript value index =>
    (Open.lift (W.generate value)).bind fun obj => (Open.lift (W.generate index)).bind fun key =>
      Open.except (fun _ => W.kind obj = .list ∧ ∃ b, W.kind key = .bool b)
        (.lift (W.rtListGetitemI64 obj key >>= W.isTrueFast))
  | .compare op lhs rhs =>
    (Open.lift (W.generate lhs)).bind fun l => (Open.lift (W.generate rhs)).bind fun r =>
      (Open.lift (W.compareObject op l r)).bind fun v => .total (W.isTrueFast v)
  | .contains negated lhs rhs =>
    (Open.lift (W.generate lhs)).bind fun l => (Open.lift (W.generate rhs)).bind fun r =>
      Open.except (fun _ => W.kind r = .dict ∧ W.kind l ≠ .str) (.lift (W.rtCompareIn negated l r >>= W.isTrueFast))
  | .is negated lhs rhs =>
    Open.except (fun s => ∃ p s', W.operands lhs rhs s = .ok p s' ∧ W.operands lhs rhs s' ≠ .ok p s')
      (.lift (W.testObject (.is negated lhs rhs)))
  | .other a => .lift (W.testObject (.other a))
  | .unary op operand => .lift (W.testObject (.unary op operand))

noncomputable def referenceRest (op : BoolOpType) (truth : Bool) : List (Node α υ) → Open σ (Halt ε) Bool
  | [] => .lift (pure truth)
  | next :: rest =>
    if truth = (op == .and) then (reference next).bind fun t => referenceRest op t rest
    else .lift (pure truth)

end

/-- A truth test that has been made gives the same again, with no effect. -/
def Repeatable : Prop := ∀ v s b s', W.isTrueFast v s = .ok b s' → W.isTrueFast v s' = .ok b s'

/-! ### The runtime -/

section Runtime

omit [DecidableEq ν]

variable {W} {v l r : ν} {s s' : σ} {b : Bool}

theorem isTrueFast_eq : W.isTrueFast v = W.true_ v := by
  unfold isTrueFast true_ Kind.asInt
  cases W.kind v with
  | bool b => cases b <;> rfl
  | _ => rfl

@[simp] theorem isTrueFast_pyBool : W.isTrueFast (W.pyBool b) = pure b := by
  rw [isTrueFast_eq]
  unfold true_
  rw [W.kind_pyBool]

theorem isTruthy_of_true (h : W.isTrueFast v s = .ok b s') : W.isTruthy v s = .ok b s' := by
  rw [isTrueFast_eq] at h
  have hunwrap : unwrap (W.true_ v) s = .ok b s' := by
    unfold unwrap
    rw [h]
  unfold isTruthy
  cases hkind : W.kind v with
  | tagged n =>
    unfold true_ at h
    rw [hkind] at h
    exact h
  | small | bool | none | str | list | dict | set | object => exact hunwrap

theorem compare_refines {op : CompareOp} :
    Refines ((Open.lift (W.compareObject op l r)).bind fun v => .total (W.isTrueFast v)) (W.compareBool op l r) := by
  unfold compareObject compareBool
  cases W.compareInts op l r with
  | some b =>
    refine fun s out hout => ?_
    have htotal : Open.total (W.isTrueFast (W.pyBool b)) s = some out := hout
    rw [isTrueFast_pyBool] at htotal
    exact Option.some.inj htotal
  | none => exact .bind .lift fun v => .total fun _ _ _ h => isTruthy_of_true h

theorem getitem_int {n : Int} (hl : W.kind l = .list) (hr : W.kind r = .small n) {item : ν} (h : W.listItem s l n = some item) :
    W.getitem l r s = .ok item s := by
  unfold getitem
  show EStateM.bind get _ s = _
  simp only [EStateM.bind, get, getThe, MonadStateOf.get, EStateM.get, hl, hr, h]
  rfl

theorem getitem_truthy (h : ¬ (W.kind l = .list ∧ ∃ b, W.kind r = .bool b)) :
    (W.rtListGetitemI64 l r >>= W.isTrueFast) s = W.rtListGetitemI64Truthy l r s := by
  unfold rtListGetitemI64 rtListGetitemI64Truthy
  show EStateM.bind (EStateM.bind get _) _ s = EStateM.bind get _ s
  simp only [EStateM.bind, get, getThe, MonadStateOf.get, EStateM.get]
  cases hhit : W.exactListIndexHit s l r with
  | some item => rfl
  | none =>
    cases hindex : W.exactListIndex s l r with
    | none => rfl
    | some item =>
      unfold exactListIndex at hindex
      split at hindex
      · next n hlist hint =>
        cases hkind : W.kind r with
        | tagged m =>
          rw [hkind] at hint
          cases hint
          simp [exactListIndexHit, hlist, hkind, hindex] at hhit
        | small m =>
          rw [hkind] at hint
          cases hint
          have hget := getitem_int hlist hkind hindex
          show _ = EStateM.bind (W.getitem l r) W.isTrueFast s
          unfold EStateM.bind
          rw [hget]
          rfl
        | bool b => exact absurd ⟨hlist, b, hkind⟩ h
        | none | str | list | dict | set | object =>
          rw [hkind] at hint
          cases hint
      · cases hindex

theorem getitem_not : (W.rtListGetitemI64Not l r >>= W.isTrueFast) =
    (W.rtListGetitemI64Truthy l r >>= fun truth => pure !truth) := by
  unfold rtListGetitemI64Not rtListGetitemI64Truthy
  rw [bind_assoc, bind_assoc]
  congr 1
  funext s
  cases W.exactListIndexHit s l r with
  | some item => simp
  | none => simp

theorem compareIn_bool {negated : Bool} (h : ¬ (W.kind r = .dict ∧ W.kind l ≠ .str)) :
    (W.rtCompareIn negated l r >>= W.isTrueFast) = W.rtCompareInBool negated l r := by
  unfold rtCompareIn rtCompareInBool
  cases hkind : W.kind r with
  | dict =>
    have hstr : W.kind l = .str := Decidable.byContradiction fun hne => h ⟨hkind, hne⟩
    simp [hstr]
  | list => simp
  | tagged n => simp
  | small n => simp
  | bool b => simp
  | none => simp
  | str => simp
  | set => simp
  | object => simp

end Runtime

/-! ### The two ways -/

section Conditions

variable {W}

/-- Operands that change nothing when they are evaluated again. -/
theorem operands_again {negated : Bool} {lhs rhs : Node α υ} {s : σ}
    (h : ¬ ∃ p s', W.operands lhs rhs s = .ok p s' ∧ W.operands lhs rhs s' ≠ .ok p s') :
    (W.generate lhs >>= fun _ => W.generate rhs >>= fun _ => W.testObject (.is negated lhs rhs)) s =
      W.testObject (.is negated lhs rhs) s := by
  have htest : W.testObject (.is negated lhs rhs) =
      (W.operands lhs rhs >>= fun p => pure (decide (p.1 = p.2) != negated)) := by
    simp [testObject, generate, operands]
  have htwice : (W.generate lhs >>= fun _ => W.generate rhs >>= fun _ => W.testObject (.is negated lhs rhs)) =
      (W.operands lhs rhs >>= fun _ => W.testObject (.is negated lhs rhs)) := by
    simp [operands]
  rw [htwice]
  cases hp : W.operands lhs rhs s with
  | error e s' => rw [bind_error hp, htest, bind_error hp]
  | ok p s' =>
    have hagain : W.operands lhs rhs s' = .ok p s' := Classical.byContradiction fun hne => h ⟨p, s', hp, hne⟩
    rw [bind_ok hp, htest, bind_ok hagain, bind_ok hp]

mutual

/-- **The code for a condition** does what the reference determines. -/
theorem condition_refines : ∀ test : Node α υ, Refines (W.reference test) (W.generateConditionAsBool test)
  | .other a => by
    simp only [reference, generateConditionAsBool]
    exact .lift
  | .unary op operand => by
    simp only [reference, generateConditionAsBool]
    exact .lift
  | .not operand => by
    simp only [reference, generateConditionAsBool]
    exact .bind (condition_refines operand) fun _ => .lift
  | .boolOp op first rest => by
    simp only [reference, generateConditionAsBool]
    exact .bind (condition_refines first) fun truth => conditionRest_refines op truth rest
  | .subscript value index => by
    simp only [reference, generateConditionAsBool]
    refine .bind .lift fun obj => .bind .lift fun key => .except fun s out hlist hout => ?_
    rw [← getitem_truthy hlist]
    exact Option.some.inj hout
  | .compare op lhs rhs => by
    simp only [reference, generateConditionAsBool]
    exact .bind .lift fun l => .bind .lift fun r => compare_refines
  | .contains negated lhs rhs => by
    simp only [reference, generateConditionAsBool]
    refine .bind .lift fun l => .bind .lift fun r => .except fun s out hdict hout => ?_
    rw [← compareIn_bool hdict]
    exact Option.some.inj hout
  | .is negated lhs rhs => by
    simp only [reference, generateConditionAsBool]
    refine .except fun s out hsame hout => ?_
    rw [← Option.some.inj hout]
    exact operands_again hsame

theorem conditionRest_refines (op : BoolOpType) (truth : Bool) : ∀ rest : List (Node α υ),
    Refines (W.referenceRest op truth rest) (W.conditionRest op truth rest)
  | [] => by
    simp only [referenceRest, conditionRest]
    exact .lift
  | next :: rest => by
    simp only [referenceRest, conditionRest]
    split
    · exact .bind (condition_refines next) fun t => conditionRest_refines op t rest
    · exact .lift

end

theorem testObject_not {operand : Node α υ} (h : ∀ value index, operand ≠ .subscript value index) :
    W.testObject (.not operand) = (W.testObject operand >>= fun truth => pure !truth) := by
  have hgen : W.generate (.not operand) =
      (W.generate operand >>= fun v => W.isTrueFast v >>= fun truth => pure (W.pyBool !truth)) := by
    rw [generate]
    exact h
  unfold testObject
  rw [hgen]
  simp

theorem testObject_not_subscript {value index : Node α υ} :
    W.testObject (.not (.subscript value index)) = W.generateConditionAsBool (.not (.subscript value index)) := by
  unfold testObject
  simp only [generate, generateConditionAsBool, bind_assoc, getitem_not]

theorem generateRest_error {op : BoolOpType} {rest : List (Node α υ)} {v : ν} {s s' : σ} {e : Halt ε}
    (h : W.isTrueFast v s = .error e s') : (W.generateRest op v rest >>= W.isTrueFast) s = .error e s' := by
  cases rest with
  | nil =>
    simp only [generateRest, pure_bind]
    exact h
  | cons next rest =>
    simp only [generateRest, bind_assoc]
    exact bind_error h

/-- An operand fails, or has an object and a truth. -/
theorem first_cases {op : BoolOpType} {first : Node α υ} (rest : List (Node α υ)) {s : σ}
    {out : EStateM.Result (Halt ε) σ Bool} (hfirst : Refines (W.reference first) (W.testObject first))
    (hout : (W.reference first).bind (fun truth => W.referenceRest op truth rest) s = some out) :
    (W.generate first >>= fun v => W.generateRest op v rest >>= W.isTrueFast) s = out ∨
    ∃ v s₀ t s₁, W.generate first s = .ok v s₀ ∧ W.isTrueFast v s₀ = .ok t s₁ ∧
      W.referenceRest op t rest s₁ = some out := by
  unfold Open.bind at hout
  cases href : W.reference first s with
  | none =>
    rw [href] at hout
    cases hout
  | some res =>
    have htest := hfirst s res href
    rw [href] at hout
    unfold testObject at htest
    cases hgen : W.generate first s with
    | error e s₀ =>
      rw [bind_error hgen] at htest
      rw [← htest] at hout
      rw [bind_error hgen]
      exact Or.inl (Option.some.inj hout)
    | ok v s₀ =>
      rw [bind_ok hgen] at htest
      cases htrue : W.isTrueFast v s₀ with
      | error e s₁ =>
        rw [htrue] at htest
        rw [← htest] at hout
        rw [bind_ok hgen, generateRest_error htrue]
        exact Or.inl (Option.some.inj hout)
      | ok t s₁ =>
        rw [htrue] at htest
        rw [← htest] at hout
        exact Or.inr ⟨v, s₀, t, s₁, rfl, htrue, hout⟩

mutual

/-- The object, tested, does so where a truth test may be repeated. -/
theorem object_refines (hrep : W.Repeatable) : ∀ test : Node α υ, Refines (W.reference test) (W.testObject test)
  | .other a => by
    simp only [reference]
    exact .lift
  | .unary op operand => by
    simp only [reference]
    exact .lift
  | .not operand => by
    by_cases hsub : ∃ value index, operand = .subscript value index
    · obtain ⟨value, index, rfl⟩ := hsub
      rw [testObject_not_subscript]
      exact condition_refines _
    · rw [testObject_not fun value index he => hsub ⟨value, index, he⟩]
      simp only [reference]
      exact .bind (object_refines hrep operand) fun _ => .lift
  | .boolOp op first rest => by
    intro s out hout
    simp only [reference] at hout
    have htest : W.testObject (.boolOp op first rest) =
        (W.generate first >>= fun v => W.generateRest op v rest >>= W.isTrueFast) := by
      simp [testObject, generate]
    rw [htest]
    exact objectRest_refines hrep op rest first (object_refines hrep first) s out hout
  | .subscript value index => by
    have htest : W.testObject (.subscript value index) =
        (W.generate value >>= fun obj => W.generate index >>= fun key =>
          W.rtListGetitemI64 obj key >>= W.isTrueFast) := by
      simp [testObject, generate]
    rw [htest]
    simp only [reference]
    exact .bind .lift fun obj => .bind .lift fun key => .except fun s out _ hout => Option.some.inj hout
  | .compare op lhs rhs => by
    have htest : W.testObject (.compare op lhs rhs) =
        (W.generate lhs >>= fun l => W.generate rhs >>= fun r => W.compareObject op l r >>= W.isTrueFast) := by
      simp [testObject, generate]
    rw [htest]
    simp only [reference]
    exact .bind .lift fun l => .bind .lift fun r => .bind .lift fun v => .total fun _ _ _ h => h
  | .contains negated lhs rhs => by
    have htest : W.testObject (.contains negated lhs rhs) =
        (W.generate lhs >>= fun l => W.generate rhs >>= fun r => W.rtCompareIn negated l r >>= W.isTrueFast) := by
      simp [testObject, generate]
    rw [htest]
    simp only [reference]
    exact .bind .lift fun l => .bind .lift fun r => .except fun s out _ hout => Option.some.inj hout
  | .is negated lhs rhs => by
    simp only [reference]
    exact .except fun s out _ hout => Option.some.inj hout

/-- An operand and those after it. -/
theorem objectRest_refines (hrep : W.Repeatable) (op : BoolOpType) : ∀ (rest : List (Node α υ)) (first : Node α υ),
    Refines (W.reference first) (W.testObject first) →
    Refines ((W.reference first).bind fun truth => W.referenceRest op truth rest)
      (W.generate first >>= fun v => W.generateRest op v rest >>= W.isTrueFast)
  | [], first, hfirst => fun s out hout => by
    rcases first_cases [] hfirst hout with hstop | ⟨v, s₀, t, s₁, hgen, htrue, hrest⟩
    · exact hstop
    · simp only [referenceRest] at hrest
      simp only [generateRest, pure_bind]
      rw [bind_ok hgen, htrue]
      exact Option.some.inj hrest
  | next :: rest, first, hfirst => fun s out hout => by
    rcases first_cases (next :: rest) hfirst hout with hstop | ⟨v, s₀, t, s₁, hgen, htrue, hrest⟩
    · exact hstop
    · simp only [referenceRest] at hrest
      simp only [generateRest, bind_assoc]
      rw [bind_ok hgen, bind_ok htrue]
      by_cases hgo : t = (op == .and)
      · rw [if_pos hgo] at hrest ⊢
        simp only [bind_assoc]
        exact objectRest_refines hrep op rest next (object_refines hrep next) s₁ out hrest
      · -- the object that decided is tested again
        rw [if_neg hgo] at hrest ⊢
        rw [pure_bind, hrep v s₀ t s₁ htrue]
        exact Option.some.inj hrest

end

/-- **`generate_condition_as_bool`** takes the branch, raises the exceptions and
makes the calls of the reference; so does testing the object, where a truth test
that is repeated gives the same again. -/
theorem condition_faithful (test : Node α υ) (s : σ) (out : EStateM.Result (Halt ε) σ Bool)
    (h : W.reference test s = some out) :
    W.generateConditionAsBool test s = out ∧ (W.Repeatable → W.testObject test s = out) :=
  ⟨condition_refines test s out h, fun hrep => object_refines hrep test s out h⟩

end Conditions

end World

/-! ### An object that changes its truth -/

/-- The objects 0 and 3, other than the bools 1 and 2, are true at every second
test; the state is the objects tested. -/
def alternating : World Nat (List Nat) Unit Nat Unit where
  kind := fun v => if v = 1 then .bool true else if v = 2 then .bool false else .object
  pyBool := fun b => if b then 1 else 2
  kind_pyBool := by decide
  other := fun a s => .ok a s
  unary := fun _ v s => .ok v s
  objectTrue := fun v s => .ok (s.length % 2 == 1) (s ++ [v])
  slowCompare := fun _ _ _ s => .error .aborted s
  listItem := fun _ _ _ => none
  indexError := ()
  typeError := ()
  objectGetitem := fun _ _ s => .error .aborted s
  dictFind := fun _ _ s => .error .aborted s
  listSearch := fun _ _ s => .error .aborted s
  contains := fun _ _ s => .error .aborted s

/-- `x and y`. -/
def xAndY : Node Nat Unit := .boolOp .and (.other 0) [.other 3]

theorem condition_faithful_xAndY :
    alternating.generateConditionAsBool xAndY [] = .ok false [0] ∧
      (alternating.Repeatable → alternating.testObject xAndY [] = .ok false [0]) :=
  World.condition_faithful xAndY [] (.ok false [0]) rfl

/-- The object of `x and y` is `x`, which is tested a second time. -/
theorem xAndY_testedTwice :
    alternating.generateConditionAsBool xAndY [] = .ok false [0] ∧
    alternating.testObject xAndY [] = .ok true [0, 0] := by
  constructor
  · rfl
  · rfl

end Pylang.Aot.Condition
