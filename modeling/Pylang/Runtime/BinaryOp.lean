/-
The binary operators of `PyObject`, and Python's rule for them: which methods
are called, in which order, and what becomes of their answers. What a method
answers may depend on every call before it.
-/
import Mathlib.Data.List.Infix

namespace Pylang.Runtime

/-- A call of a method with its arguments. -/
structure Call (M V : Type) where
  method : M
  args : List V
  deriving DecidableEq

/-- A result of type `PyResult<PyObject *>`. -/
inductive Answer (V E : Type)
  | value (v : V)
  | notImplemented
  | raised (e : E)
  deriving DecidableEq

/-- What a method answers to a call, after the calls so far. -/
abbrev Answers (M V E : Type) := List (Call M V) → Call M V → Answer V E

/-- A slot: a native function or a Python callable. -/
inductive Slot (M : Type)
  | native (m : M)
  | object (m : M)
  deriving DecidableEq

def Slot.callable {M : Type} : Slot M → M
  | .native m | .object m => m

/-- What `lookup_attribute` finds: a method bound to the object, or a callable
that is not. -/
inductive Attribute (M : Type)
  | bound (m : M)
  | plain (m : M)
  deriving DecidableEq

/-- An operand and what there is for one operator. -/
structure Operand (M V : Type) where
  self : V
  /-- `type_prototype().__name__`. -/
  typeName : String
  /-- The slot of the type. -/
  slot : Option (Slot M)
  /-- What is found under the operator's name, if nothing is raised. -/
  named : Option (Attribute M)
  /-- The sequence protocol, if the type has one (as every Python class has), and its `concat` or `repeat`. -/
  sequence : Option (Option M)
  /-- The method the class or a base defines. -/
  method : Option (Slot M)
  /-- The reflected method the class or a base defines. -/
  reflected : Option M

inductive Operator
  | add | subtract | multiply | pow | truediv | floordiv | modulo | divmod | lshift | rshift | and_ | or_ | xor_
  deriving DecidableEq

inductive Outcome (V E : Type)
  | answered (a : Answer V E)
  /-- `TypeError: unsupported operand type(s) for ...`. -/
  | unsupported (symbol lhs rhs : String)
  deriving DecidableEq

namespace BinaryOp

variable {M V E : Type}

section Source

variable (answer : Answers M V E)

/-- The calls made, and what came of them. -/
abbrev Run (M V E : Type) := List (Call M V) × Outcome V E

def callSlot (s : Slot M) (args : List V) : Run M V E :=
  let c : Call M V := ⟨s.callable, args⟩
  ([c], .answered (answer [] c))

def unsupported (symbol : String) (a b : Operand M V) : Outcome V E := .unsupported symbol a.typeName b.typeName

def Attribute.call (a b : Operand M V) : Attribute M → Call M V
  | .bound m => ⟨m, [a.self, b.self]⟩
  | .plain m => ⟨m, [b.self]⟩

/-- `binary_op_fallback`. -/
def fallback (h : List (Call M V)) (a b : Operand M V) : List (Call M V) × Answer V E :=
  match a.named with
  | some found => (h ++ [Attribute.call a b found], answer h (Attribute.call a b found))
  | none => (h, .notImplemented)

/-- The end of most operators: the attribute, and `TypeError` unless it gives a value. -/
def orLookup (symbol : String) (a b : Operand M V) : Run M V E :=
  match fallback answer [] a b with
  | (h, .value v) => (h, .answered (.value v))
  | (h, _) => (h, unsupported symbol a b)

/-- The operators with a slot of the left operand. -/
def withSlot (symbol : String) (args : List V) (a b : Operand M V) : Run M V E :=
  match a.slot with
  | some s => callSlot answer s args
  | none => orLookup answer symbol a b

/-- The operators that take the slot of the right operand, too. -/
def withEitherSlot (symbol : String) (a b : Operand M V) : Run M V E :=
  match a.slot, b.slot with
  | some s, _ => callSlot answer s [a.self, b.self]
  | none, some s => callSlot answer s [b.self, a.self]
  | none, none => orLookup answer symbol a b

def add (a b : Operand M V) : Run M V E :=
  match a.slot, b.slot, a.sequence with
  | some s, _, _ => callSlot answer s [a.self, b.self]
  | none, some s, _ => callSlot answer s [b.self, a.self]
  | none, none, some (some concat) => callSlot answer (.native concat) [a.self, b.self]
  -- `PySequenceWrapper::concat` has nothing to call
  | none, none, some none => ([], unsupported "+" a b)
  | none, none, none => orLookup answer "+" a b

/-- `sequence.unwrap().repeat`, of the left operand or of the right. -/
def repeatEither (h : List (Call M V)) (a b : Operand M V) : Run M V E :=
  match a.sequence.join, b.sequence.join with
  | some m, _ => (h ++ [⟨m, [a.self, b.self]⟩], .answered (answer h ⟨m, [a.self, b.self]⟩))
  | none, some m => (h ++ [⟨m, [b.self, a.self]⟩], .answered (answer h ⟨m, [b.self, a.self]⟩))
  | none, none => (h, unsupported "*" a b)

/-- `multiply` from the slot of the right operand on. -/
def multiplyRight (h : List (Call M V)) (a b : Operand M V) : Run M V E :=
  match b.slot with
  | some s =>
    let c : Call M V := ⟨s.callable, [b.self, a.self]⟩
    match answer h c with
    | .notImplemented => repeatEither answer (h ++ [c]) a b
    | other => (h ++ [c], .answered other)
  | none => repeatEither answer h a b

/-- `multiply` from the lookup of `__mul__` on. -/
def multiplyLookup (h : List (Call M V)) (a b : Operand M V) : Run M V E :=
  match fallback answer h a b with
  | (h', .value v) => (h', .answered (.value v))
  | (h', _) => multiplyRight answer h' a b

def multiply (a b : Operand M V) : Run M V E :=
  match a.slot with
  | some s =>
    let c : Call M V := ⟨s.callable, [a.self, b.self]⟩
    match answer [] c with
    | .notImplemented => multiplyLookup answer [c] a b
    | other => ([c], .answered other)
  | none => multiplyLookup answer [] a b

def subtract (a b : Operand M V) : Run M V E := withSlot answer "-" [a.self, b.self] a b

/-- The slot is called with the modulus, which is `None` for `**`. -/
def pow (none : V) (a b : Operand M V) : Run M V E := withSlot answer "**" [a.self, b.self, none] a b

/-- The text names `//`. -/
def truediv (a b : Operand M V) : Run M V E := withSlot answer "//" [a.self, b.self] a b

def floordiv (a b : Operand M V) : Run M V E := withSlot answer "//" [a.self, b.self] a b

def lshift (a b : Operand M V) : Run M V E := withSlot answer "<<" [a.self, b.self] a b

def rshift (a b : Operand M V) : Run M V E := withSlot answer ">>" [a.self, b.self] a b

def modulo (a b : Operand M V) : Run M V E := withSlot answer "%" [a.self, b.self] a b

def divmod (a b : Operand M V) : Run M V E := withSlot answer "divmod()" [a.self, b.self] a b

def and_ (a b : Operand M V) : Run M V E := withEitherSlot answer "&" a b

def or_ (a b : Operand M V) : Run M V E := withEitherSlot answer "|" a b

def xor_ (a b : Operand M V) : Run M V E := withEitherSlot answer "^" a b

def operate (none : V) : Operator → Operand M V → Operand M V → Run M V E
  | .add => add answer
  | .subtract => subtract answer
  | .multiply => multiply answer
  | .pow => pow answer none
  | .truediv => truediv answer
  | .floordiv => floordiv answer
  | .modulo => modulo answer
  | .divmod => divmod answer
  | .lshift => lshift answer
  | .rshift => rshift answer
  | .and_ => and_ answer
  | .or_ => or_ answer
  | .xor_ => xor_ answer

end Source

/-! ### Python's rule -/

/-- The method of the left operand. A native power takes a modulus. -/
def forwardCall (none : V) (op : Operator) (a b : Operand M V) : List (Call M V) :=
  a.method.toList.map fun
    | .native m => ⟨m, if op = .pow then [a.self, b.self, none] else [a.self, b.self]⟩
    | .object m => ⟨m, [a.self, b.self]⟩

def reflectedCall (a b : Operand M V) : List (Call M V) := b.reflected.toList.map fun m => ⟨m, [b.self, a.self]⟩

/-- The calls in the order of Python's rule; `overrides` says that the right
operand is of a proper subclass that overrides the reflected method. -/
def candidates (none : V) (op : Operator) (overrides : Bool) (a b : Operand M V) : List (Call M V) :=
  if overrides then reflectedCall a b ++ forwardCall none op a b
  else forwardCall none op a b ++ reflectedCall a b

/-- The candidates in turn until one does not answer NotImplemented; `none` is
the operator's own TypeError. -/
def rule (answer : Answers M V E) : List (Call M V) → List (Call M V) → List (Call M V) × Option (Answer V E)
  | [], h => (h, none)
  | c :: rest, h =>
    match answer h c with
    | .notImplemented => rule answer rest (h ++ [c])
    | other => (h ++ [c], some other)

def Outcome.answer? : Outcome V E → Option (Answer V E)
  | .answered a => some a
  | .unsupported _ _ _ => none

/-- The calls of the rule, and its outcome. -/
def FollowsRule (answer : Answers M V E) (none : V) (op : Operator) (overrides : Bool) (a b : Operand M V) : Prop :=
  let run := operate answer none op a b
  (run.1, Outcome.answer? run.2) = rule answer (candidates none op overrides a b) []

/-! ### The operators as lists of attempts -/

/-- A call an operator makes: its answer is the result, whatever it is; is the
result unless it is NotImplemented; is the result if it is a value. -/
inductive Attempt (M V : Type)
  | last (c : Call M V)
  | offered (c : Call M V)
  | probed (c : Call M V)

variable (answer : Answers M V E) in
def attempt : List (Attempt M V) → List (Call M V) → List (Call M V) × Option (Answer V E)
  | [], h => (h, none)
  | .last c :: _, h => (h ++ [c], some (answer h c))
  | .offered c :: rest, h =>
    match answer h c with
    | .notImplemented => attempt rest (h ++ [c])
    | other => (h ++ [c], some other)
  | .probed c :: rest, h =>
    match answer h c with
    | .value v => (h ++ [c], some (.value v))
    | _ => attempt rest (h ++ [c])

def lookupAttempt (a b : Operand M V) : List (Attempt M V) :=
  a.named.toList.map fun found => .probed (Attribute.call a b found)

def slotAttempts (args : List V) (a b : Operand M V) : List (Attempt M V) :=
  match a.slot with
  | some s => [.last ⟨s.callable, args⟩]
  | none => lookupAttempt a b

def eitherAttempts (a b : Operand M V) : List (Attempt M V) :=
  match a.slot, b.slot with
  | some s, _ => [.last ⟨s.callable, [a.self, b.self]⟩]
  | none, some s => [.last ⟨s.callable, [b.self, a.self]⟩]
  | none, none => lookupAttempt a b

def addAttempts (a b : Operand M V) : List (Attempt M V) :=
  match a.slot, b.slot, a.sequence with
  | none, none, some concat => concat.toList.map fun m => .last ⟨m, [a.self, b.self]⟩
  | _, _, _ => eitherAttempts a b

def repeatAttempts (a b : Operand M V) : List (Attempt M V) :=
  match a.sequence.join, b.sequence.join with
  | some m, _ => [.last ⟨m, [a.self, b.self]⟩]
  | none, some m => [.last ⟨m, [b.self, a.self]⟩]
  | none, none => []

def multiplyAttempts (a b : Operand M V) : List (Attempt M V) :=
  a.slot.toList.map (fun s => .offered ⟨s.callable, [a.self, b.self]⟩) ++ (lookupAttempt a b ++
    (b.slot.toList.map (fun s => .offered ⟨s.callable, [b.self, a.self]⟩) ++ repeatAttempts a b))

/-- The calls an operator's function makes. -/
def attempts (none : V) (op : Operator) (a b : Operand M V) : List (Attempt M V) :=
  match op with
  | .add => addAttempts a b
  | .multiply => multiplyAttempts a b
  | .pow => slotAttempts [a.self, b.self, none] a b
  | .and_ | .or_ | .xor_ => eitherAttempts a b
  | .subtract | .truediv | .floordiv | .modulo | .divmod | .lshift | .rshift => slotAttempts [a.self, b.self] a b

/-- Attempts against candidates: each attempt is the next candidate, the last
one is not answered NotImplemented, a probed one does not raise, and what is
left of both agrees after NotImplemented. -/
def Agrees (answer : Answers M V E) : List (Attempt M V) → List (Call M V) → List (Call M V) → Prop
  | [], cs, _ => cs = []
  | .last c :: _, cs, h => cs.head? = some c ∧ answer h c ≠ .notImplemented
  | .offered c :: rest, cs, h =>
    cs.head? = some c ∧ (answer h c = .notImplemented → Agrees answer rest cs.tail (h ++ [c]))
  | .probed c :: rest, cs, h =>
    cs.head? = some c ∧ (∀ e, answer h c ≠ .raised e) ∧
      (answer h c = .notImplemented → Agrees answer rest cs.tail (h ++ [c]))

section Agreement

variable {answer : Answers M V E} {none : V} {op : Operator} {overrides : Bool} {a b : Operand M V}
  {h : List (Call M V)} {c : Call M V}

/-- The run of an operator, its text left out. -/
def answered (run : Run M V E) : List (Call M V) × Option (Answer V E) := (run.1, Outcome.answer? run.2)

theorem answered_orLookup (symbol : String) :
    answered (orLookup answer symbol a b) = attempt answer (lookupAttempt a b) [] := by
  unfold orLookup fallback lookupAttempt
  cases a.named with
  | none => rfl
  | some found =>
    simp only [Option.toList_some, List.map_cons, List.map_nil, attempt, List.nil_append]
    cases answer [] (Attribute.call a b found) <;> rfl

theorem answered_withSlot (symbol : String) (args : List V) :
    answered (withSlot answer symbol args a b) = attempt answer (slotAttempts args a b) [] := by
  unfold withSlot slotAttempts
  cases a.slot with
  | none => exact answered_orLookup symbol
  | some s => rfl

theorem answered_withEitherSlot (symbol : String) :
    answered (withEitherSlot answer symbol a b) = attempt answer (eitherAttempts a b) [] := by
  unfold withEitherSlot eitherAttempts
  cases a.slot with
  | some s => rfl
  | none =>
    cases b.slot with
    | some s => rfl
    | none => exact answered_orLookup symbol

theorem answered_add : answered (add answer a b) = attempt answer (addAttempts a b) [] := by
  unfold add addAttempts eitherAttempts
  cases a.slot with
  | some s => rfl
  | none =>
    cases b.slot with
    | some s => rfl
    | none =>
      cases a.sequence with
      | some concat => cases concat <;> rfl
      | none => exact answered_orLookup "+"

theorem answered_repeatEither (h : List (Call M V)) :
    answered (repeatEither answer h a b) = attempt answer (repeatAttempts a b) h := by
  unfold repeatEither repeatAttempts
  cases a.sequence.join with
  | some m => rfl
  | none => cases b.sequence.join <;> rfl

theorem answered_multiplyRight (h : List (Call M V)) : answered (multiplyRight answer h a b) =
    attempt answer (b.slot.toList.map (fun s => .offered ⟨s.callable, [b.self, a.self]⟩) ++ repeatAttempts a b) h := by
  unfold multiplyRight
  cases b.slot with
  | none => exact answered_repeatEither h
  | some s =>
    simp only [Option.toList_some, List.map_cons, List.map_nil, List.cons_append, List.nil_append, attempt]
    cases answer h ⟨s.callable, [b.self, a.self]⟩ with
    | notImplemented => exact answered_repeatEither _
    | value v => rfl
    | raised e => rfl

theorem answered_multiplyLookup (h : List (Call M V)) : answered (multiplyLookup answer h a b) =
    attempt answer (lookupAttempt a b ++
      (b.slot.toList.map (fun s => .offered ⟨s.callable, [b.self, a.self]⟩) ++ repeatAttempts a b)) h := by
  unfold multiplyLookup fallback lookupAttempt
  cases a.named with
  | none => exact answered_multiplyRight h
  | some found =>
    simp only [Option.toList_some, List.map_cons, List.map_nil, List.cons_append, List.nil_append, attempt]
    cases answer h (Attribute.call a b found) with
    | value v => rfl
    | notImplemented => exact answered_multiplyRight _
    | raised e => exact answered_multiplyRight _

theorem answered_multiply : answered (multiply answer a b) = attempt answer (multiplyAttempts a b) [] := by
  unfold multiply multiplyAttempts
  cases a.slot with
  | none => exact answered_multiplyLookup []
  | some s =>
    simp only [Option.toList_some, List.map_cons, List.map_nil, List.cons_append, List.nil_append, attempt]
    cases answer [] ⟨s.callable, [a.self, b.self]⟩ with
    | notImplemented => exact answered_multiplyLookup _
    | value v => rfl
    | raised e => rfl

theorem answered_operate : answered (operate answer none op a b) = attempt answer (attempts none op a b) [] := by
  cases op with
  | add => exact answered_add
  | multiply => exact answered_multiply
  | and_ => exact answered_withEitherSlot _
  | or_ => exact answered_withEitherSlot _
  | xor_ => exact answered_withEitherSlot _
  | subtract | pow | truediv | floordiv | modulo | divmod | lshift | rshift => exact answered_withSlot _ _

/-! ### Agreement -/

theorem prefix_rule : ∀ (cs h : List (Call M V)), h <+: (rule answer cs h).1
  | [], _ => List.prefix_rfl
  | c :: cs, h => by
    unfold rule
    split
    · exact (List.prefix_append h [c]).trans (prefix_rule cs _)
    · exact List.prefix_append h [c]

theorem prefix_rule_cons (cs : List (Call M V)) : h ++ [c] <+: (rule answer (c :: cs) h).1 := by
  unfold rule
  split
  · exact prefix_rule cs _
  · exact List.prefix_rfl

theorem prefix_attempt : ∀ (as : List (Attempt M V)) (h : List (Call M V)), h <+: (attempt answer as h).1
  | [], _ => List.prefix_rfl
  | .last c :: _, h => List.prefix_append h [c]
  | .offered c :: as, h => by
    unfold attempt
    split
    · exact (List.prefix_append h [c]).trans (prefix_attempt as _)
    · exact List.prefix_append h [c]
  | .probed c :: as, h => by
    unfold attempt
    split
    · exact List.prefix_append h [c]
    · exact (List.prefix_append h [c]).trans (prefix_attempt as _)

theorem prefix_attempt_cons {x : Attempt M V} (as : List (Attempt M V)) :
    ∃ c, h ++ [c] <+: (attempt answer (x :: as) h).1 := by
  cases x with
  | last c => exact ⟨c, List.prefix_rfl⟩
  | offered c =>
    refine ⟨c, ?_⟩
    unfold attempt
    split
    · exact prefix_attempt as _
    · exact List.prefix_rfl
  | probed c =>
    refine ⟨c, ?_⟩
    unfold attempt
    split
    · exact List.prefix_rfl
    · exact prefix_attempt as _

theorem attempt_of_no_call {as : List (Attempt M V)} (hno : (attempt answer as h).1 = h) :
    (attempt answer as h).2 = Option.none := by
  cases as with
  | nil => rfl
  | cons x as =>
    obtain ⟨c, hc⟩ := @prefix_attempt_cons M V E answer h x as
    have hlen := hc.length_le
    rw [hno, List.length_append, List.length_singleton] at hlen
    omega

theorem rule_ne_notImplemented : ∀ (cs h : List (Call M V)), (rule answer cs h).2 ≠ some .notImplemented
  | [], _ => by simp [rule]
  | c :: cs, h => by
    unfold rule
    split
    · exact rule_ne_notImplemented cs _
    · next hne =>
      intro heq
      exact hne (Option.some.inj heq)

/-- A run that begins with a call agrees with the rule only if the call is the
first candidate. -/
theorem head_of_eq {run : List (Call M V) × Option (Answer V E)} {cs : List (Call M V)}
    (hrun : h ++ [c] <+: run.1) (heq : run = rule answer cs h) : cs.head? = some c := by
  rw [heq] at hrun
  cases cs with
  | nil =>
    have hlen := hrun.length_le
    simp only [rule, List.length_append, List.length_singleton] at hlen
    omega
  | cons c' cs =>
    obtain ⟨t, ht⟩ := hrun
    obtain ⟨t', ht'⟩ := @prefix_rule_cons M V E answer h c' cs
    rw [← ht', List.append_assoc, List.append_assoc, List.append_cancel_left_eq] at ht
    cases ht
    rfl

theorem attempt_eq_rule_iff : ∀ (as : List (Attempt M V)) (cs h : List (Call M V)),
    attempt answer as h = rule answer cs h ↔ Agrees answer as cs h
  | [], cs, h => by
    cases cs with
    | nil => simp [attempt, rule, Agrees]
    | cons c cs =>
      refine ⟨fun heq => ?_, fun hag => by cases hag⟩
      obtain ⟨t, ht⟩ := @prefix_rule_cons M V E answer h c cs
      rw [← heq] at ht
      have hlen := congrArg List.length ht
      simp only [attempt, List.length_append, List.length_singleton] at hlen
      omega
  | .last c :: as, cs, h => by
    constructor
    · intro heq
      refine ⟨head_of_eq List.prefix_rfl heq, fun hni => ?_⟩
      have hne := @rule_ne_notImplemented M V E answer cs h
      rw [← heq] at hne
      exact hne (by simp [attempt, hni])
    · intro h
      obtain ⟨hhead, hne⟩ := h
      cases cs with
      | nil => cases hhead
      | cons c' cs =>
        cases hhead
        unfold attempt rule
        split
        · next hni => exact absurd hni hne
        · rfl
  | .offered c :: as, cs, h => by
    have hprefix : h ++ [c] <+: (attempt answer (.offered c :: as) h).1 := by
      unfold attempt
      split
      · exact prefix_attempt as _
      · exact List.prefix_rfl
    constructor
    · intro heq
      have hhead := head_of_eq hprefix heq
      refine ⟨hhead, fun hni => ?_⟩
      cases cs with
      | nil => cases hhead
      | cons c' cs =>
        cases hhead
        rw [attempt, rule, hni] at heq
        exact (attempt_eq_rule_iff as cs _).mp heq
    · intro h
      obtain ⟨hhead, hrest⟩ := h
      cases cs with
      | nil => cases hhead
      | cons c' cs =>
        cases hhead
        rw [attempt, rule]
        cases hc : answer h c with
        | notImplemented => exact (attempt_eq_rule_iff as cs _).mpr (hrest hc)
        | value v => rfl
        | raised e => rfl
  | .probed c :: as, cs, h => by
    have hprefix : h ++ [c] <+: (attempt answer (.probed c :: as) h).1 := by
      unfold attempt
      split
      · exact List.prefix_rfl
      · exact prefix_attempt as _
    constructor
    · intro heq
      have hhead := head_of_eq hprefix heq
      cases cs with
      | nil => cases hhead
      | cons c' cs =>
        cases hhead
        rw [attempt, rule] at heq
        refine ⟨rfl, fun e he => ?_, fun hni => ?_⟩
        · rw [he] at heq
          have hraised : attempt answer as (h ++ [c]) = (h ++ [c], some (.raised e)) := heq
          have hno : (attempt answer as (h ++ [c])).1 = h ++ [c] := by rw [hraised]
          have hnone := attempt_of_no_call hno
          rw [hraised] at hnone
          cases hnone
        · rw [hni] at heq
          exact (attempt_eq_rule_iff as cs _).mp heq
    · intro h
      obtain ⟨hhead, hne, hrest⟩ := h
      cases cs with
      | nil => cases hhead
      | cons c' cs =>
        cases hhead
        rw [attempt, rule]
        cases hc : answer h c with
        | notImplemented => exact (attempt_eq_rule_iff as cs _).mpr (hrest hc)
        | value v => rfl
        | raised e => exact absurd hc (hne e)

/-- **An operator follows Python's rule exactly when** its attempts are the
candidates of the rule, the last is not answered NotImplemented and no method
found by lookup raises. -/
theorem followsRule_iff (answer : Answers M V E) (none : V) (op : Operator) (overrides : Bool) (a b : Operand M V) :
    FollowsRule answer none op overrides a b ↔
      Agrees answer (attempts none op a b) (candidates none op overrides a b) [] := by
  rw [← attempt_eq_rule_iff, ← answered_operate]
  exact Iff.rfl

end Agreement

/-- An object whose class defines the operator's method, and an object that
defines nothing. -/
def defining : Operand Nat Nat := ⟨0, "A", some (.object 1), some (.bound 1), some none, some (.object 1), none⟩

def plain : Operand Nat Nat := ⟨2, "B", none, none, some none, none, none⟩

/-- `a - b` is NotImplemented if `A.__sub__` returns that. -/
theorem subtract_notImplemented :
    operate (fun _ _ => .notImplemented) 9 .subtract defining plain =
      ([⟨1, [0, 2]⟩], Outcome.answered (Answer.notImplemented : Answer Nat Nat)) ∧
    ¬ FollowsRule (fun _ _ => (Answer.notImplemented : Answer Nat Nat)) 9 .subtract false defining plain := by
  refine ⟨rfl, fun h => ?_⟩
  have hout : some (Answer.notImplemented : Answer Nat Nat) = Option.none := congrArg Prod.snd h
  cases hout

end BinaryOp

end Pylang.Runtime
