/-
Augmented assignment: the `rt_inplace_*` functions, against Python's rule for
the in-place method of the left operand.

The helper that they share takes a failed lookup, an exception of the method and
`NotImplemented` for one thing, after which the binary operator is evaluated;
and it looks the method up as an attribute of the operand, not in its type.
-/
import Pylang.Tagged.Agree

namespace Pylang.Runtime

open Tagged

inductive InplaceOp where
  | add | sub | mul | truediv | floordiv | mod | pow | lshift | rshift | and_ | or_ | xor_
  deriving DecidableEq

namespace InplaceOp

def methodName : InplaceOp → String
  | .add => "__iadd__"
  | .sub => "__isub__"
  | .mul => "__imul__"
  | .truediv => "__itruediv__"
  | .floordiv => "__ifloordiv__"
  | .mod => "__imod__"
  | .pow => "__ipow__"
  | .lshift => "__ilshift__"
  | .rshift => "__irshift__"
  | .and_ => "__iand__"
  | .or_ => "__ior__"
  | .xor_ => "__ixor__"

/-- The operation on tagged integers, but for the two operators that have none. -/
def tagged? : InplaceOp → Option TaggedBinaryOp
  | .add => some .add
  | .sub => some .sub
  | .mul => some .mul
  | .truediv | .pow => none
  | .floordiv => some .floorDiv
  | .mod => some .mod
  | .lshift => some .lShift
  | .rshift => some .rShift
  | .and_ => some .bitAnd
  | .or_ => some .bitOr
  | .xor_ => some .bitXor

end InplaceOp

/-- How a call or an operator ends. -/
inductive Evaluated (V E : Type) where
  | value (v : V)
  | raised (e : E)
  | abort
  deriving DecidableEq

/-- The user's code that runs, with the state that it starts from. -/
inductive OpEvent (V σ : Type) where
  | method (m arg : V) (before : σ)
  | operator (op : InplaceOp) (a b : V) (before : σ)
  deriving DecidableEq

/-- An evaluation: the result, the state it leaves, and what ran. -/
structure Evaluation (V E σ : Type) where
  result : Evaluated V E
  after : σ
  events : List (OpEvent V σ)
  deriving DecidableEq

/-- The objects of an augmented assignment. What runs of the user's code may change the state. -/
structure InplaceObjects (V E σ : Type) where
  /-- The tagged word that `RtValue::flatten` gives, of a small integer or a `bool`. -/
  flatten : V → Option TaggedWord
  ofInt : Int → V
  notImplemented : V
  /-- `lookup_attribute`: an exception, nothing found, or the attribute. -/
  lookupAttribute : V → String → σ → Except E (Option V) × σ
  /-- The method that the type of an object has under a name, bound to the object. -/
  typeMethod : V → String → σ → Except E (Option V) × σ
  call : V → V → σ → Evaluated V E × σ
  /-- `add`, `subtract` and the others, of boxed operands. -/
  operator : InplaceOp → V → V → σ → Evaluated V E × σ
  /-- `int` and `bool` have no in-place methods. -/
  flatten_typeMethod : ∀ {a w}, flatten a = some w → ∀ (op : InplaceOp) (s : σ), typeMethod a op.methodName s = (.ok none, s)

namespace InplaceObjects

variable {V E σ : Type} (O : InplaceObjects V E σ)

/-- The words of two small integers, for the operators with an operation on them. -/
def words (op : InplaceOp) (a b : V) : Option (TaggedBinaryOp × TaggedWord × TaggedWord) := do
  let operation ← op.tagged?
  let l ← O.flatten a
  let r ← O.flatten b
  return (operation, l, r)

/-- What an operation on words comes to; without a result the process ends. -/
def ofWords (result : Option RtValue) (s : σ) : Evaluation V E σ :=
  match result with
  | some v => ⟨.value (O.ofInt v.box), s, []⟩
  | none => ⟨.abort, s, []⟩

def evalOperator (op : InplaceOp) (a b : V) (s : σ) : Evaluation V E σ :=
  ⟨(O.operator op a b s).1, (O.operator op a b s).2, [.operator op a b s]⟩

/-- An evaluation after an event. -/
def after (event : OpEvent V σ) (e : Evaluation V E σ) : Evaluation V E σ := { e with events := event :: e.events }

/-- `a op b`: of two small integers what `rt_binary_add` and the others give, else the operator. -/
def operate (op : InplaceOp) (a b : V) (s : σ) : Evaluation V E σ :=
  match O.words op a b with
  | some (operation, l, r) => O.ofWords (RtOp.binary operation (.tagged l) (.tagged r)) s
  | none => O.evalOperator op a b s

section

variable [DecidableEq V]

/-- `try_inplace_method`, and then the operator if that returns null. -/
def tryInplaceMethod (op : InplaceOp) (a b : V) (s : σ) : Evaluation V E σ :=
  match O.lookupAttribute a op.methodName s with
  | (.error _, s) => O.evalOperator op a b s
  | (.ok none, s) => O.evalOperator op a b s
  | (.ok (some m), s) =>
    match O.call m b s with
    | (.raised _, s') => after (.method m b s) (O.evalOperator op a b s')
    | (.abort, s') => ⟨.abort, s', [.method m b s]⟩
    | (.value r, s') =>
      if r = O.notImplemented then after (.method m b s) (O.evalOperator op a b s') else ⟨.value r, s', [.method m b s]⟩

/-- `rt_inplace_add` and the others. The first of them tries the addition once before it flattens, too. -/
def rtInplace (op : InplaceOp) (a b : V) (s : σ) : Evaluation V E σ :=
  match O.words op a b with
  | some (operation, l, r) => O.ofWords (RtValue.binary operation (.tagged l) (.tagged r)) s
  | none => O.tryInplaceMethod op a b s

/-- Python's rule. -/
def augmented (op : InplaceOp) (a b : V) (s : σ) : Evaluation V E σ :=
  match O.typeMethod a op.methodName s with
  | (.error e, s) => ⟨.raised e, s, []⟩
  | (.ok none, s) => O.operate op a b s
  | (.ok (some m), s) =>
    match O.call m b s with
    | (.value r, s') =>
      if r = O.notImplemented then after (.method m b s) (O.operate op a b s') else ⟨.value r, s', [.method m b s]⟩
    | (other, s') => ⟨other, s', [.method m b s]⟩

end

/-- Where the code follows the rule: for two small integers; where the type has no method, and none is found; and where the
method found is the type's, and does not raise. -/
def Follows (op : InplaceOp) (a b : V) (s : σ) : Prop :=
  (O.words op a b).isSome = true ∨
    match O.typeMethod a op.methodName s with
    | (.error _, _) => False
    | (.ok none, s') => ∃ found, O.lookupAttribute a op.methodName s = (found, s') ∧ ∀ m, found ≠ .ok (some m)
    | (.ok (some m), s') => O.lookupAttribute a op.methodName s = (.ok (some m), s') ∧
        ∀ e s'', O.call m b s' ≠ (.raised e, s'')

/-! ## Small integers -/

theorem box_binary_eq (operation : TaggedBinaryOp) (l r : TaggedWord) :
    (RtValue.binary operation (.tagged l) (.tagged r)).map RtValue.box =
      (RtOp.binary operation (.tagged l) (.tagged r)).map RtValue.box := by
  by_cases hop : operation = .lShift
  · have hpaths := @paths_agree operation (.tagged l) (.tagged r) (by rw [hop]; rfl)
    rw [hpaths (RtValue.binary operation) (by simp), hpaths (RtOp.binary operation) (by simp)]
  · unfold RtValue.binary RtOp.binary RtValue.binaryWith
    dsimp only [RtValue.flatten]
    rw [RtOp.fast_eq hop]
    cases RtValue.fast operation l.asInt r.asInt <;> rfl

theorem ofWords_congr {result result' : Option RtValue} (h : result.map RtValue.box = result'.map RtValue.box) (s : σ) :
    O.ofWords result s = O.ofWords result' s := by
  unfold ofWords
  cases result with
  | none => rw [Option.map_eq_none_iff.mp h.symm]
  | some v =>
    obtain ⟨v', rfl, hbox⟩ := Option.map_eq_some_iff.mp h.symm
    dsimp only
    rw [hbox]

theorem words_left {O : InplaceObjects V E σ} {op : InplaceOp} {a b : V} (h : (O.words op a b).isSome = true) :
    ∃ w, O.flatten a = some w := by
  obtain ⟨found, hfound⟩ := Option.isSome_iff_exists.mp h
  unfold words at hfound
  simp only [Option.bind_eq_bind, Option.bind_eq_some_iff] at hfound
  obtain ⟨-, -, l, hl, -⟩ := hfound
  exact ⟨l, hl⟩

theorem operate_of_none {op : InplaceOp} {a b : V} (s : σ) (h : O.words op a b = none) :
    O.operate op a b s = O.evalOperator op a b s := by
  unfold operate
  rw [h]

theorem found_cases (found : Except E (Option V)) : (∃ m, found = .ok (some m)) ∨ ∀ m, found ≠ .ok (some m) := by
  by_cases h : ∃ m, found = .ok (some m)
  · exact .inl h
  · exact .inr (not_exists.mp h)

variable [DecidableEq V]

theorem rtInplace_of_words {op : InplaceOp} {a b : V} (s : σ) (h : (O.words op a b).isSome = true) :
    O.rtInplace op a b s = O.augmented op a b s := by
  obtain ⟨w, hw⟩ := words_left h
  obtain ⟨⟨operation, l, r⟩, hfound⟩ := Option.isSome_iff_exists.mp h
  unfold rtInplace augmented operate
  rw [O.flatten_typeMethod hw op s, hfound]
  exact O.ofWords_congr (box_binary_eq operation l r) s

/-! ## Other operands -/

section

variable {O} {op : InplaceOp} {a b : V} {s s' : σ}

theorem tryInplaceMethod_of_not_found {found : Except E (Option V)} (h : O.lookupAttribute a op.methodName s = (found, s'))
    (hfound : ∀ m, found ≠ .ok (some m)) : O.tryInplaceMethod op a b s = O.evalOperator op a b s' := by
  unfold tryInplaceMethod
  rw [h]
  match found with
  | .error _ => rfl
  | .ok none => rfl
  | .ok (some m) => exact absurd rfl (hfound m)

theorem head_tryInplaceMethod {m : V} (h : O.lookupAttribute a op.methodName s = (.ok (some m), s')) :
    (O.tryInplaceMethod op a b s).events.head? = some (.method m b s') := by
  unfold tryInplaceMethod
  rw [h]
  dsimp only
  split
  · rfl
  · rfl
  · split <;> rfl

theorem head_augmented {m : V} (h : O.typeMethod a op.methodName s = (.ok (some m), s')) :
    (O.augmented op a b s).events.head? = some (.method m b s') := by
  unfold augmented
  rw [h]
  dsimp only
  split
  · split <;> rfl
  · rfl

theorem tryInplaceMethod_of_method {m : V} (hwords : O.words op a b = none)
    (hlookup : O.lookupAttribute a op.methodName s = (.ok (some m), s'))
    (htype : O.typeMethod a op.methodName s = (.ok (some m), s')) :
    O.tryInplaceMethod op a b s = O.augmented op a b s ↔ ∀ e s'', O.call m b s' ≠ (.raised e, s'') := by
  unfold tryInplaceMethod augmented
  rw [hlookup, htype]
  dsimp only
  rcases hcall : O.call m b s' with ⟨result, s''⟩
  cases result with
  | value r =>
    dsimp only
    rw [O.operate_of_none s'' hwords]
    exact ⟨fun _ e s₃ h => (by cases h), fun _ => rfl⟩
  | abort => exact ⟨fun _ e s₃ h => (by cases h), fun _ => rfl⟩
  | raised e =>
    constructor
    · intro h
      cases congrArg (fun evaluation => evaluation.events.length) h
    · exact fun h => absurd rfl (h e s'')

theorem tryInplaceMethod_of_error {e : E} (htype : O.typeMethod a op.methodName s = (.error e, s')) :
    O.tryInplaceMethod op a b s ≠ O.augmented op a b s := by
  intro h
  have hnil : (O.augmented op a b s).events = [] := by
    unfold augmented
    rw [htype]
  rw [← h] at hnil
  rcases hlookup : O.lookupAttribute a op.methodName s with ⟨found, s₁⟩
  rcases found_cases found with ⟨m, rfl⟩ | hfound
  · have hhead := head_tryInplaceMethod (b := b) hlookup
    rw [hnil] at hhead
    cases hhead
  · rw [tryInplaceMethod_of_not_found hlookup hfound] at hnil
    cases hnil

theorem tryInplaceMethod_of_none (hwords : O.words op a b = none)
    (htype : O.typeMethod a op.methodName s = (.ok none, s')) :
    O.tryInplaceMethod op a b s = O.augmented op a b s ↔
      ∃ found, O.lookupAttribute a op.methodName s = (found, s') ∧ ∀ m, found ≠ .ok (some m) := by
  have hrule : O.augmented op a b s = O.evalOperator op a b s' := by
    unfold augmented
    rw [htype]
    exact O.operate_of_none s' hwords
  rw [hrule]
  rcases hlookup : O.lookupAttribute a op.methodName s with ⟨found, s₁⟩
  rcases found_cases found with ⟨m, rfl⟩ | hfound
  · refine iff_of_false (fun h => ?_) fun ⟨found, heq, hfound⟩ => hfound m (congrArg Prod.fst heq).symm
    have hhead := head_tryInplaceMethod (b := b) hlookup
    rw [h] at hhead
    cases hhead
  · rw [tryInplaceMethod_of_not_found hlookup hfound]
    constructor
    · intro h
      have hevents := congrArg Evaluation.events h
      cases hevents
      exact ⟨found, rfl, hfound⟩
    · intro h
      obtain ⟨found', heq, -⟩ := h
      cases heq
      rfl

theorem tryInplaceMethod_of_some {m : V} (hwords : O.words op a b = none)
    (htype : O.typeMethod a op.methodName s = (.ok (some m), s')) :
    O.tryInplaceMethod op a b s = O.augmented op a b s ↔
      O.lookupAttribute a op.methodName s = (.ok (some m), s') ∧ ∀ e s'', O.call m b s' ≠ (.raised e, s'') := by
  have hrule := head_augmented (b := b) htype
  rcases hlookup : O.lookupAttribute a op.methodName s with ⟨found, s₁⟩
  rcases found_cases found with ⟨m', rfl⟩ | hfound
  · have hhead := head_tryInplaceMethod (b := b) hlookup
    constructor
    · intro h
      rw [h, hrule] at hhead
      cases hhead
      exact ⟨rfl, (tryInplaceMethod_of_method hwords hlookup htype).mp h⟩
    · intro h
      obtain ⟨heq, hcall⟩ := h
      cases heq
      exact (tryInplaceMethod_of_method hwords hlookup htype).mpr hcall
  · refine iff_of_false (fun h => ?_) fun ⟨heq, _⟩ => hfound m (congrArg Prod.fst heq)
    rw [← h, tryInplaceMethod_of_not_found hlookup hfound] at hrule
    cases hrule

end

theorem tryInplaceMethod_iff {op : InplaceOp} {a b : V} (s : σ) (hwords : O.words op a b = none) :
    O.tryInplaceMethod op a b s = O.augmented op a b s ↔ O.Follows op a b s := by
  have hno : ¬ (O.words op a b).isSome = true := by
    rw [hwords]
    exact Bool.false_ne_true
  unfold Follows
  rw [or_iff_right hno]
  rcases htype : O.typeMethod a op.methodName s with ⟨method, s'⟩
  match method with
  | .error _ => exact iff_of_false (tryInplaceMethod_of_error htype) id
  | .ok none => exact tryInplaceMethod_of_none hwords htype
  | .ok (some _) => exact tryInplaceMethod_of_some hwords htype

/-- **Augmented assignment follows the rule** unless the method raises, or is not the one that the lookup finds. -/
theorem rtInplace_iff (op : InplaceOp) (a b : V) (s : σ) :
    O.rtInplace op a b s = O.augmented op a b s ↔ O.Follows op a b s := by
  cases h : O.words op a b with
  | some found =>
    have hsome : (O.words op a b).isSome = true := by rw [h]; rfl
    exact ⟨fun _ => .inl hsome, fun _ => O.rtInplace_of_words s hsome⟩
  | none =>
    rw [← O.tryInplaceMethod_iff s h]
    unfold rtInplace
    rw [h]

/-- An object, 1, whose `__iadd__`, 3, raises, and whose `__add__` gives 4. -/
def failingAdd : InplaceObjects Nat String Unit where
  flatten _ := none
  ofInt _ := 0
  notImplemented := 0
  lookupAttribute _ name s := (.ok (if name = "__iadd__" then some 3 else none), s)
  typeMethod _ name s := (.ok (if name = "__iadd__" then some 3 else none), s)
  call _ _ s := (.raised "ValueError", s)
  operator _ _ _ s := (.value 4, s)
  flatten_typeMethod h := by cases h

/-- The exception is lost, and the sum is the result. -/
theorem exception_swallowed : (failingAdd.rtInplace .add 1 2 ()).result = .value 4 ∧
    (failingAdd.augmented .add 1 2 ()).result = .raised "ValueError" ∧
    failingAdd.rtInplace .add 1 2 () ≠ failingAdd.augmented .add 1 2 () := by
  decide

end InplaceObjects

end Pylang.Runtime
