/-
The defaults of a function, from the definition to the call: `make_function`
evaluates the expressions, the bytecode pushes the values, `MAKE_FUNCTION` reads
them off the stack, and `PyCode::eval` gets them as two bare lists.

The lists are the values of the expressions, each aligned with its parameters;
but `eval` takes no parameter for unset, so it uses none of them.
-/
import Mathlib
import Pylang.Calling.Exact

namespace Pylang.Calling

/-- A function definition: the default expressions of the last positional parameters, and those of the keyword-only ones. -/
structure Definition (ε : Type) where
  f : Function
  defaults : List ε
  kwDefaults : List (Option ε)
  defaults_le : defaults.length ≤ f.argumentNames.length
  kwDefaults_length : kwDefaults.length = f.kwonlyargs.length

/-- The sizes that the instruction holds. -/
structure MakeFunction where
  defaultsSize : Nat
  kwDefaultsSize : Nat
  deriving DecidableEq

/-- `MakeFunction::execute`: the two lists of values, from the stack with its top last. -/
def MakeFunction.execute (instruction : MakeFunction) (stack : List Value) : List Value × List Value :=
  let start := stack.length - instruction.defaultsSize - instruction.kwDefaultsSize
  ((stack.drop start).take instruction.defaultsSize, stack.drop (stack.length - instruction.kwDefaultsSize))

section

variable {ε σ : Type} (evaluate : ε → σ → Value × σ)

/-- The values of expressions, one after the other. -/
def evaluateAll : List ε → σ → List Value × σ
  | [], s => ([], s)
  | e :: es, s =>
    let (v, s) := evaluate e s
    let (vs, s) := evaluateAll es s
    (v :: vs, s)

/-- The loop over `kw_defaults`, which leaves the missing ones out. -/
def codegenKwDefaults : List (Option ε) → σ → List Value × σ
  | [], s => ([], s)
  | none :: es, s => codegenKwDefaults es s
  | some e :: es, s =>
    let (v, s) := evaluate e s
    let (vs, s) := codegenKwDefaults es s
    (v :: vs, s)

/-- The value of each keyword-only parameter's own expression. -/
def evaluateKwDefaults : List (Option ε) → σ → List (Option Value) × σ
  | [], s => ([], s)
  | none :: es, s =>
    let (vs, s) := evaluateKwDefaults es s
    (none :: vs, s)
  | some e :: es, s =>
    let (v, s) := evaluate e s
    let (vs, s) := evaluateKwDefaults es s
    (some v :: vs, s)

/-! ## The lists -/

theorem length_evaluateAll : ∀ (es : List ε) (s : σ), (evaluateAll evaluate es s).1.length = es.length
  | [], _ => rfl
  | _ :: es, _ => congrArg Nat.succ (length_evaluateAll es _)

theorem codegenKwDefaults_eq : ∀ (es : List (Option ε)) (s : σ), codegenKwDefaults evaluate es s =
    ((evaluateKwDefaults evaluate es s).1.filterMap id, (evaluateKwDefaults evaluate es s).2)
  | [], _ => rfl
  | none :: es, s => codegenKwDefaults_eq es s
  | some e :: es, s => by
    have ih := codegenKwDefaults_eq es (evaluate e s).2
    simp only [codegenKwDefaults, evaluateKwDefaults, ih]
    rfl

theorem isSome_evaluateKwDefaults : ∀ (es : List (Option ε)) (s : σ),
    (evaluateKwDefaults evaluate es s).1.map Option.isSome = es.map Option.isSome
  | [], _ => rfl
  | none :: es, s => congrArg (false :: ·) (isSome_evaluateKwDefaults es s)
  | some e :: es, s => congrArg (true :: ·) (isSome_evaluateKwDefaults es (evaluate e s).2)

theorem mem_evaluateAll_const {w v : Value} : ∀ {es : List ε} {s : σ}, v ∈ (evaluateAll (fun _ s => (w, s)) es s).1 → v = w
  | [], _, h => by cases h
  | _ :: es, s, h => by
    rcases List.mem_cons.mp h with rfl | h
    · rfl
    · exact mem_evaluateAll_const h

theorem mem_evaluateKwDefaults_const {w v : Value} : ∀ {es : List (Option ε)} {s : σ},
    some v ∈ (evaluateKwDefaults (fun _ s => (w, s)) es s).1 → v = w
  | [], _, h => by cases h
  | none :: es, s, h => by
    rcases List.mem_cons.mp h with h | h
    · cases h
    · exact mem_evaluateKwDefaults_const h
  | some _ :: es, s, h => by
    rcases List.mem_cons.mp h with h | h
    · exact Option.some.inj h
    · exact mem_evaluateKwDefaults_const h

theorem MakeFunction.execute_pushed (stack defaults kwDefaults : List Value) :
    MakeFunction.execute ⟨defaults.length, kwDefaults.length⟩ (stack ++ defaults ++ kwDefaults) = (defaults, kwDefaults) := by
  have hlen : (stack ++ defaults ++ kwDefaults).length = stack.length + defaults.length + kwDefaults.length := by
    rw [List.length_append, List.length_append]
  unfold MakeFunction.execute
  dsimp only
  rw [hlen, show stack.length + defaults.length + kwDefaults.length - defaults.length - kwDefaults.length = stack.length by omega,
    show stack.length + defaults.length + kwDefaults.length - kwDefaults.length = (stack ++ defaults).length by
      rw [List.length_append]; omega,
    List.drop_left, List.append_assoc, List.drop_left, List.take_left]

end

namespace Definition

variable {ε σ : Type} (D : Definition ε) (evaluate : ε → σ → Value × σ) (s : σ) (stack : List Value)

/-- The code of a definition: the lists of the function object, and the stack and the state afterwards. -/
def execute : (List Value × List Value) × List Value × σ :=
  let (defaults, s) := evaluateAll evaluate D.defaults s
  let (kwDefaults, s) := codegenKwDefaults evaluate D.kwDefaults s
  let stack := stack ++ defaults ++ kwDefaults
  let values := MakeFunction.execute ⟨defaults.length, kwDefaults.length⟩ stack
  (values, stack.take (stack.length - (defaults.length + kwDefaults.length)), s)

/-- A call of the function object. -/
def call (c : Call) : Except Stop Frame :=
  let (defaults, kwDefaults) := (D.execute evaluate s stack).1
  D.f.code.eval c.args c.kwargs defaults kwDefaults

/-- The function with the value that each default expression has when the definition is executed. -/
def callable : Callable where
  f := D.f
  defaults := (evaluateAll evaluate D.defaults s).1
  kwDefaults := (evaluateKwDefaults evaluate D.kwDefaults (evaluateAll evaluate D.defaults s).2).1
  defaults_le := by
    rw [length_evaluateAll]
    exact D.defaults_le
  kwDefaults_length := by
    have h := congrArg List.length (isSome_evaluateKwDefaults evaluate D.kwDefaults (evaluateAll evaluate D.defaults s).2)
    rw [List.length_map, List.length_map] at h
    exact h.trans D.kwDefaults_length

/-- **A definition** gives the function object its values, and leaves the stack as it was. -/
theorem execute_eq : (D.execute evaluate s stack).1 =
      ((D.callable evaluate s).defaults, (D.callable evaluate s).kwDefaults.filterMap id) ∧
    (D.execute evaluate s stack).2.1 = stack := by
  unfold execute callable
  dsimp only
  rw [codegenKwDefaults_eq, MakeFunction.execute_pushed]
  refine ⟨rfl, ?_⟩
  rw [List.append_assoc, List.length_append, List.length_append, Nat.add_sub_cancel, List.take_left]

theorem call_eq (c : Call) : D.call evaluate s stack c = (D.callable evaluate s).eval c := by
  unfold call
  rw [(D.execute_eq evaluate s stack).1]
  rfl

/-- What is asked of a call that omits parameters: each has the value of its own expression if the rule binds the call, and
one without an expression is a TypeError. -/
structure OmitsRight (c : Call) : Prop where
  bound : (D.callable evaluate s).Binds c → ∀ i n v, i < D.f.named.length → D.f.At i n →
    (D.callable evaluate s).given c i n = none → (D.callable evaluate s).default i = some v →
      ∃ fr, D.call evaluate s stack c = .ok fr ∧ fr.get (D.f.code.readPlace n) = .value v
  missing : ∀ i n, i < D.f.named.length → D.f.At i n → (D.callable evaluate s).given c i n = none →
    (D.callable evaluate s).default i = none → ∃ e, D.call evaluate s stack c = .error (.typeError e)

end Definition

/-- Two calls that differ in their values only. -/
structure Call.SameKeys (c c' : Call) : Prop where
  args : c'.args.length = c.args.length
  keys : c'.kwargs.map Prod.fst = c.kwargs.map Prod.fst

namespace Callable

/-- The rule's binding, if it has one, omits no parameter; and a call that misses one is stopped for another reason. -/
structure OmitsNothing (g : Callable) (c : Call) : Prop where
  given : g.Binds c → ∀ i n, i < g.f.named.length → g.f.At i n → (g.given c i n).isSome = true
  missing : ∀ i n, i < g.f.named.length → g.f.At i n → g.given c i n = none → g.default i = none → g.Stopped c

end Callable

namespace Definition

variable {ε σ : Type} (D : Definition ε) {evaluate evaluate' : ε → σ → Value × σ} {s s' : σ} {c c' : Call}

theorem sameShape (evaluate evaluate' : ε → σ → Value × σ) (s s' : σ) (h : c.SameKeys c') :
    Callable.SameShape (D.callable evaluate s) c (D.callable evaluate' s') c' where
  f := rfl
  defaults := (length_evaluateAll ..).trans (length_evaluateAll ..).symm
  kwDefaults := (isSome_evaluateKwDefaults ..).trans (isSome_evaluateKwDefaults ..).symm
  args := h.args
  keys := h.keys

theorem sameKeys_withValues (c : Call) (arg : Nat → Value) (key : String → Value) : c.SameKeys (c.withValues arg key) where
  args := by simp [Call.withValues]
  keys := by simp [Call.withValues, Function.comp_def]

theorem default_const {w v : Value} {i : Nat} (h : (D.callable (fun _ s => (w, s)) s).default i = some v) : v = w := by
  unfold Callable.default at h
  split at h
  next =>
    split at h
    next => exact mem_evaluateAll_const (List.mem_of_getElem? h)
    next => cases h
  next =>
    obtain ⟨d, hd, rfl⟩ : ∃ d, (D.callable (fun _ s => (w, s)) s).kwDefaults[
        i - (D.callable (fun _ s => (w, s)) s).f.argumentNames.length]? = some d ∧ d = some v := by
      simpa [Option.join_eq_some_iff] using h
    exact mem_evaluateKwDefaults_const (List.mem_of_getElem? hd)

theorem not_default {fr : Frame} {p : Place} {z : Int} (h : (D.callable evaluate s).eval c.distinct = .ok fr) :
    fr.get p ≠ .value (.int z) := by
  have hdistinct := Callable.distinct_spec (D.callable evaluate s) c
  intro hget
  rcases Callable.eval_value h hget with ⟨k, kv, hk, -, hv⟩ | hmem
  · obtain ⟨id, hid⟩ := hdistinct.keys kv (Callable.mem_recognised.mp (List.mem_of_getElem? hk)).1
    rw [hid] at hv
    cases hv
  · obtain ⟨id, hid⟩ := hdistinct.args _ hmem
    cases hid

theorem isSome_of_omitsRight (h : ∀ (evaluate' : ε → σ → Value × σ) (s' : σ) stack' c', c.SameKeys c' →
    D.OmitsRight evaluate' s' stack' c') (hb : (D.callable evaluate s).Binds c) {i : Nat} {n : String}
    (hi : i < D.f.named.length) (hat : D.f.At i n) : ((D.callable evaluate s).given c i n).isSome = true := by
  -- the defaults are integers, and the call's values are not
  have hkeys : c.SameKeys c.distinct := sameKeys_withValues c _ _
  have hshape := D.sameShape evaluate (fun _ s => (.int 0, s)) s s hkeys
  have hb' := hshape.binds hb
  rw [← hshape.given]
  rcases hb'.2.2 i hi n hat with hgiven | hdefault
  · exact hgiven
  · by_contra hnone
    obtain ⟨v, hv⟩ := Option.isSome_iff_exists.mp hdefault
    obtain rfl := D.default_const hv
    obtain ⟨fr, hfr, hget⟩ := (h (fun _ s => (.int 0, s)) s [] _ hkeys).bound hb' i n _ hi hat
      (Option.not_isSome_iff_eq_none.mp hnone) hv
    rw [call_eq] at hfr
    exact D.not_default hfr hget

theorem stopped_of_omitsRight (h : ∀ (evaluate' : ε → σ → Value × σ) (s' : σ) stack' c', c.SameKeys c' →
    D.OmitsRight evaluate' s' stack' c') {i : Nat} {n : String} (hi : i < D.f.named.length) (hat : D.f.At i n)
    (hgiven : (D.callable evaluate s).given c i n = none) (hdefault : (D.callable evaluate s).default i = none) :
    (D.callable evaluate s).Stopped c := by
  have hkeys := sameKeys_withValues c (fun _ => .int 0) fun _ => .int 0
  have hshape := D.sameShape evaluate evaluate s s hkeys
  have hgiven' := hshape.given i n
  rw [hgiven] at hgiven'
  obtain ⟨e, he⟩ := (h evaluate s [] _ hkeys).missing i n hi hat
    (Option.isNone_iff_eq_none.mp (Option.isSome_eq_false_iff.mp hgiven')) hdefault
  rw [call_eq] at he
  by_contra hs
  refine Callable.not_typeError_of_int (fun v hv => ?_) (fun hs' => hs (hshape.symm.stopped hs')) e he
  obtain ⟨k, -, rfl⟩ := List.mem_map.mp hv
  exact ⟨0, rfl⟩

/-- **An omitted parameter gets its default**, whatever the values are, only where none is omitted. -/
theorem omitsRight_iff (D : Definition ε) (evaluate : ε → σ → Value × σ) (s : σ) (c : Call) :
    (∀ (evaluate' : ε → σ → Value × σ) (s' : σ) stack' c', c.SameKeys c' → D.OmitsRight evaluate' s' stack' c') ↔
      (D.callable evaluate s).OmitsNothing c := by
  constructor
  · intro h
    exact
      { given := fun hb _ _ hi hat => D.isSome_of_omitsRight h hb hi hat
        missing := fun _ _ hi hat hgiven hdefault => D.stopped_of_omitsRight h hi hat hgiven hdefault }
  · intro h evaluate' s' stack' c' hkeys
    have hshape := D.sameShape evaluate evaluate' s s' hkeys
    constructor
    · intro hb i n v hi hat hgiven
      have hsome := h.given (hshape.symm.binds hb) i n hi hat
      rw [← hshape.given, hgiven] at hsome
      cases hsome
    · intro i n hi hat hgiven hdefault
      have hgiven' := hshape.given i n
      have hdefault' := hshape.default i
      rw [hgiven] at hgiven'
      rw [hdefault] at hdefault'
      have hstopped := h.missing i n hi hat (Option.isNone_iff_eq_none.mp (Option.isSome_eq_false_iff.mp hgiven'.symm))
        (Option.isNone_iff_eq_none.mp (Option.isSome_eq_false_iff.mp hdefault'.symm))
      rw [call_eq]
      exact (hshape.stopped hstopped).typeError

/-- `def f(a, b=2)`, its default by its value. -/
def secondDefault : Definition Value where
  f := Callable.withDefault.f
  defaults := [.int 2]
  kwDefaults := []
  defaults_le := Callable.withDefault.defaults_le
  kwDefaults_length := Callable.withDefault.kwDefaults_length

/-- In the call `f(1)` the slot of `b` stays null; and `f()` is no TypeError. -/
theorem secondDefault_unbound : (∃ fr, secondDefault.call (fun v s => (v, s)) () [] ⟨[.int 1], [], .nil⟩ = .ok fr ∧
      fr.get (secondDefault.f.code.readPlace "b") = .null) ∧
    (∃ fr, secondDefault.call (fun v s => (v, s)) () [] ⟨[], [], .nil⟩ = .ok fr) ∧
    ¬ secondDefault.OmitsRight (fun v s => (v, s)) () [] ⟨[], [], .nil⟩ := by
  refine ⟨⟨_, rfl, by decide⟩, ⟨_, rfl⟩, fun h => ?_⟩
  obtain ⟨e, he⟩ := h.missing 0 "a" (by decide) rfl rfl rfl
  cases he

end Definition

end Pylang.Calling
