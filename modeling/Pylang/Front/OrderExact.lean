/-
Where the emitted order is Python's. An expression is evaluated in another
order, or a part of it twice or not at all, at the places `ordered` and
`headOrdered` name and at no others.
-/
import Pylang.Front.Order
import Mathlib.Tactic.Tauto

namespace Pylang.Front

open Pylang.Lib Pylang.Lib.PathTrace

/-- A literal: evaluating it takes no step. -/
def silent : Expr → Bool
  | .constant _ => true
  | _ => false

/-- For a node in each of its roles, whether its code keeps Python's order. -/
structure Ordered where
  value : Bool
  argument : Bool
  cond : Bool
  store : Bool
  storeTo : Bool
  del : Bool
  load : Bool

def Ordered.plain (v : Bool) : Ordered :=
  { value := v, argument := v, cond := v, store := false, storeTo := false, del := false, load := false }

/-- The keys and values of a dict display can be told apart by no step. -/
def turnsSilent : List Expr → List Expr → Bool
  | _ :: ks, v :: vs => (silent v || ks.all silent) && turnsSilent ks vs
  | _, _ => true

mutual

def ordered : Expr → Ordered
  | .constant _ => .plain true
  | .name _ =>
    { value := true, argument := true, cond := true, store := true, storeTo := true, del := true, load := true }
  | .binary lhs rhs => .plain ((ordered lhs).value && (ordered rhs).value)
  | .unary not operand =>
    { Ordered.plain (ordered operand).value with
      cond := if not then (ordered operand).cond else (ordered operand).value }
  | .compare lhs ops comparators =>
    let operands := (ordered lhs).value && (ordereds comparators).all (·.value)
    { Ordered.plain operands with
      -- the operands of a fused `is` are evaluated twice
      cond := operands && (!identityTest ops comparators || (silent lhs && comparators.all silent)) }
  | .boolOp _ values =>
    { Ordered.plain ((ordereds values).all (·.value)) with cond := (ordereds values).all (·.cond) }
  | .call function args _ keywords =>
    let arguments := (ordereds args).all (·.argument) && (ordereds keywords).all (·.value)
    .plain <| match function with
    | .attribute owner _ =>
      -- a method is looked up after the arguments
      (ordered owner).value && arguments && (args.any isStarred || (args.all silent && keywords.all silent))
    | f => (ordered f).value && arguments
  | .attribute value _ =>
    let v := (ordered value).value
    { value := v, argument := v, cond := v, store := v, storeTo := v, del := v, load := v }
  | .subscript value key =>
    let v := (ordered value).value && (ordered key).value
    { value := v, argument := v, cond := v, store := v, storeTo := v, del := v, load := v }
  | .slice value lower upper step =>
    let v := (ordered value).value && (ordered lower).value && (ordered upper).value && (ordered step).value
    -- as a target of an assignment or `del`, the slice is dropped
    { value := v, argument := v, cond := v, store := false, storeTo := v, del := false, load := v }
  | .ifExpr test body orelse =>
    .plain ((ordered test).cond && (ordered body).value && (ordered orelse).value)
  | .list elements | .tuple elements =>
    { Ordered.plain ((ordereds elements).all (·.value)) with
      store := (ordereds elements).all (·.store), storeTo := (ordereds elements).all (·.storeTo)
      del := elements.isEmpty }
  | .set elements => .plain ((ordereds elements).all (·.value))
  | .dict keys values =>
    .plain ((ordereds keys).all (·.value) && (ordereds values).all (·.value) && turnsSilent keys values)
  -- in a display it is not unpacked
  | .starred value =>
    { Ordered.plain false with argument := (ordered value).value, storeTo := (ordered value).storeTo }
  | .namedExpr _ value => .plain (ordered value).value
  | .lambda _ _ defaults kwDefaults body =>
    .plain ((ordereds defaults).all (·.value) && (ordereds kwDefaults).all (·.value) && (ordered body).value)
  | .comp .generatorExp _ _ _ => .plain false
  | .comp _ _ elts generators => .plain (generatorsOrdered generators && (ordereds elts).all (·.value))
  | .unsupported _ => .plain false

def ordereds : List Expr → List Ordered
  | [] => []
  | e :: es => ordered e :: ordereds es

def generatorOrdered : Generator → Bool
  | .mk target iter ifs =>
    (ordered iter).value && (ordered target).storeTo && (ordereds ifs).all (·.value)

def generatorsOrdered : List Generator → Bool
  | [] => true
  | g :: gs => generatorOrdered g && generatorsOrdered gs

end

/-- The same for the head of a statement. -/
def headOrdered : Stmt → Bool
  | .expression value => (ordered value).value
  | .assign targets value => (ordered value).value && targets.all fun t => (ordered t).store
  -- the right-hand side is evaluated before the target is loaded
  | .augAssign target value => (ordered target).load && (ordered value).value && silent value
  | .return value => value.toList.all fun v => (ordered v).value
  | .delete targets => targets.all fun t => (ordered t).del
  | .if test _ _ | .while test _ _ => (ordered test).cond
  | .for target iter _ _ => (ordered iter).value && (ordered target).store
  -- decorators are evaluated after everything else, annotations not at all
  | .functionDef _ _ _ annotations returns defaults kwDefaults _ decorators =>
    (defaults.all fun v => (ordered v).value) && (kwDefaults.all fun v => (ordered v).value) &&
      decorators.all silent && (annotations ++ returns.toList).all silent
  | .classDef _ _ bases _ keywords _ decorators =>
    (bases.all fun v => (ordered v).value) && (keywords.all fun v => (ordered v).value) &&
      decorators.all silent
  -- the cause is not evaluated
  | .raise exception cause => (exception.toList.all fun v => (ordered v).value) && cause.toList.all silent
  | .assert test msg => (ordered test).value && msg.toList.all fun v => (ordered v).value
  | .with items _ =>
    items.all fun i => (ordered i.1).value && i.2.toList.all fun t => (ordered t).storeTo
  | .try _ handlers _ _ =>
    handlers.all fun | .mk type _ _ => type.toList.all fun v => (ordered v).value
  | .break | .continue | .pass | .import _ | .importFrom _ | .global _ | .nonlocal _ => true

/-! ### Lists of nodes -/

theorem emissions_eq_map (es : List Expr) : emissions es = es.map emission := by
  induction es with
  | nil => rfl
  | cons e es ih => simp [emissions, ih]

theorem references_eq_map (es : List Expr) : references es = es.map reference := by
  induction es with
  | nil => rfl
  | cons e es ih => simp [references, ih]

theorem ordereds_eq_map (es : List Expr) : ordereds es = es.map ordered := by
  induction es with
  | nil => rfl
  | cons e es ih => simp [ordereds, ih]

theorem part_links_of_lt {i : Nat} : ∀ {n : Nat} (ts : List Trace), i < n → part i (links n ts) = []
  | _, [], _ => rfl
  | n, [t], h => by
    have hne : n ≠ i := by omega
    simp [links, hne]
  | n, t :: t' :: ts, h => by
    have hne : n ≠ i := by omega
    simp [links, hne, part_links_of_lt (t' :: ts) (show i < n + 1 by omega)]

theorem links_inj : ∀ {n : Nat} {ss ts : List Trace}, ss.length = ts.length →
    (links n ss = links n ts ↔ ss = ts)
  | _, [], [], _ => by simp
  | n, [s], [t], _ => by simp [links, child_inj]
  | n, s :: s' :: ss, t :: t' :: ts, hlen => by
    constructor
    · intro h
      have hst : s = t := by
        simpa [links, part_links_of_lt] using congrArg (part n) h
      subst hst
      simp only [links, List.append_assoc, List.append_cancel_left_eq] at h
      rw [(links_inj (by simpa using hlen)).mp h]
    · rintro ⟨⟩
      rfl

/-! ### Nodes put together from their children -/

theorem unary_inj {a a' : Trace} {x : Act} : child 0 a ++ own x = child 0 a' ++ own x ↔ a = a' := by
  rw [List.append_cancel_right_eq, child_inj]

theorem two_inj {a b d e : Trace} : child 0 a ++ child 1 b = child 0 d ++ child 1 e ↔ a = d ∧ b = e := by
  constructor
  · intro h
    exact ⟨by simpa using congrArg (part 0) h, by simpa using congrArg (part 1) h⟩
  · intro h
    obtain ⟨rfl, rfl⟩ := h
    rfl

theorem binary_inj {a b a' b' : Trace} {x : Act} :
    child 0 a ++ child 1 b ++ own x = child 0 a' ++ child 1 b' ++ own x ↔ a = a' ∧ b = b' := by
  rw [List.append_cancel_right_eq, two_inj]

theorem ternary_inj {a b c a' b' c' : Trace} {x : Act} :
    child 0 a ++ child 1 b ++ child 2 c ++ own x = child 0 a' ++ child 1 b' ++ child 2 c' ++ own x ↔
      a = a' ∧ b = b' ∧ c = c' := by
  constructor
  · intro h
    exact ⟨by simpa using congrArg (part 0) h, by simpa using congrArg (part 1) h,
      by simpa using congrArg (part 2) h⟩
  · intro h
    obtain ⟨rfl, rfl, rfl⟩ := h
    rfl

theorem slice_inj {a b c d a' b' c' d' : Trace} {x : Act} :
    child 0 a ++ (child 1 b ++ child 2 c ++ child 3 d) ++ own x =
      child 0 a' ++ child 1 b' ++ child 2 c' ++ child 3 d' ++ own x ↔
      a = a' ∧ b = b' ∧ c = c' ∧ d = d' := by
  constructor
  · intro h
    exact ⟨by simpa using congrArg (part 0) h, by simpa using congrArg (part 1) h,
      by simpa using congrArg (part 2) h, by simpa using congrArg (part 3) h⟩
  · intro h
    obtain ⟨rfl, rfl, rfl, rfl⟩ := h
    simp only [List.append_assoc]

theorem branches_inj {a b c d e f : Trace} {x y z : Act} :
    child 0 a ++ own x ++ child 1 b ++ own y ++ child 2 c ++ own z =
      child 0 d ++ own x ++ child 1 e ++ own y ++ child 2 f ++ own z ↔ a = d ∧ b = e ∧ c = f := by
  constructor
  · intro h
    exact ⟨by simpa using congrArg (part 0) h, by simpa using congrArg (part 1) h,
      by simpa using congrArg (part 2) h⟩
  · intro h
    obtain ⟨rfl, rfl, rfl⟩ := h
    rfl

theorem lambda_inj {a b c a' b' c' : Trace} {x y z : Act} :
    child 0 a ++ child 1 b ++ own x ++ child 2 c ++ own y ++ own z =
      child 0 a' ++ child 1 b' ++ own x ++ child 2 c' ++ own y ++ own z ↔ a = a' ∧ b = b' ∧ c = c' := by
  constructor
  · intro h
    exact ⟨by simpa using congrArg (part 0) h, by simpa using congrArg (part 1) h,
      by simpa using congrArg (part 2) h⟩
  · intro h
    obtain ⟨rfl, rfl, rfl⟩ := h
    rfl

theorem generator_inj {a b c d e f : Trace} {x : Act} :
    child 0 a ++ own x ++ child 1 b ++ child 2 c = child 0 d ++ own x ++ child 1 e ++ child 2 f ↔
      a = d ∧ b = e ∧ c = f := by
  constructor
  · intro h
    exact ⟨by simpa using congrArg (part 0) h, by simpa using congrArg (part 1) h,
      by simpa using congrArg (part 2) h⟩
  · intro h
    obtain ⟨rfl, rfl, rfl⟩ := h
    rfl

theorem comp_inj {a b a' b' : Trace} {x y : Act} :
    child 1 a ++ child 0 b ++ own x ++ own y = child 1 a' ++ child 0 b' ++ own x ++ own y ↔
      a = a' ∧ b = b' := by
  constructor
  · intro h
    exact ⟨by simpa using congrArg (part 1) h, by simpa using congrArg (part 0) h⟩
  · intro h
    obtain ⟨rfl, rfl⟩ := h
    rfl

/-- A method call whose method is looked up last. -/
theorem lateLookup_iff {o as ks o' as' ks' : Trace} :
    child 0 (child 0 o) ++ (child 1 as ++ child 2 ks ++ child 0 (own Act.eval)) ++ own Act.eval =
      child 0 (child 0 o' ++ own .eval) ++ child 1 as' ++ child 2 ks' ++ own .eval ↔
      o = o' ∧ as = as' ∧ ks = ks' ∧ as' = [] ∧ ks' = [] := by
  constructor
  · intro h
    have ho : o = o' := by simpa [child_inj] using congrArg (part 0) h
    have has : as = as' := by simpa using congrArg (part 1) h
    have hks : ks = ks' := by simpa using congrArg (part 2) h
    subst ho has hks
    simp only [child_append, List.append_assoc, List.append_cancel_left_eq] at h
    have hnil : as = [] := (child_append_comm (by decide) h).resolve_right (by simp [own])
    subst hnil
    rw [child_nil, List.nil_append] at h
    have hnil : ks = [] := (child_append_comm (by decide) h).resolve_right (by simp [own])
    exact ⟨rfl, rfl, rfl, rfl, hnil⟩
  · intro h
    obtain ⟨rfl, rfl, rfl, rfl, rfl⟩ := h
    simp

/-! ### Steps of Python's order -/

theorem reference_value_count (e : Expr) :
    ownCount .eval (reference e).value = if silent e then 0 else 1 := by
  cases e with
  | dict keys values =>
    have hpairs : ∀ (n : Nat) (ss ts : List Trace), ownCount Act.eval (pairs n ss ts) = 0 := by
      intro n ss ts
      induction ss generalizing n ts with
      | nil => cases ts <;> simp [pairs]
      | cons s ss ih => cases ts <;> simp [pairs, ih]
    simp [reference, Reference.plain, silent, hpairs]
  | _ => simp [reference, Reference.plain, silent]

theorem reference_value_eq_nil {e : Expr} : (reference e).value = [] ↔ silent e = true := by
  constructor
  · intro h
    have hcount := reference_value_count e
    rw [h] at hcount
    by_contra hs
    simp [hs] at hcount
  · intro hs
    cases e with
    | constant _ => rfl
    | _ => cases hs

theorem emission_value_of_silent {e : Expr} (h : silent e = true) : (emission e).value = [] := by
  cases e with
  | constant _ => rfl
  | _ => cases h

theorem reference_load_ne_nil (e : Expr) : (reference e).load ≠ [] := by
  cases e <;> simp [reference, Reference.plain, own]

theorem listed_reference_eq_nil {n : Nat} {es : List Expr} :
    listed n (es.map fun e => (reference e).value) = [] ↔ es.all silent = true := by
  rw [listed_eq_nil, List.all_eq_true]
  simp only [List.forall_mem_map, reference_value_eq_nil]

theorem twice_iff {e : Expr} : (emission e).value ++ (emission e).value = (reference e).value ↔ silent e = true := by
  constructor
  · intro h
    have hcount := congrArg (ownCount .eval) h
    rw [ownCount_append, reference_value_count] at hcount
    by_contra hs
    rw [if_neg hs] at hcount
    omega
  · intro hs
    rw [emission_value_of_silent hs, reference_value_eq_nil.mpr hs]
    rfl

theorem turnsIdle_iff : ∀ (ks vs : List Expr),
    turnsIdle (ks.map fun e => (reference e).value) (vs.map fun e => (reference e).value) ↔
      turnsSilent ks vs = true
  | [], _ => by simp [turnsIdle, turnsSilent]
  | _ :: _, [] => by simp [turnsIdle, turnsSilent]
  | k :: ks, v :: vs => by
    simp [turnsIdle, turnsSilent, turnsIdle_iff ks vs, reference_value_eq_nil]

/-! ### Expressions -/

/-- `ordered` is exact at a node, in each of its roles. -/
structure Exact (e : Expr) : Prop where
  value : (emission e).value = (reference e).value ↔ (ordered e).value = true
  argument : (emission e).argument = (reference e).value ↔ (ordered e).argument = true
  cond : (emission e).cond = (reference e).value ↔ (ordered e).cond = true
  store : (emission e).store = (reference e).store ↔ (ordered e).store = true
  storeTo : (emission e).storeTo = (reference e).store ↔ (ordered e).storeTo = true
  del : (emission e).del = (reference e).del ↔ (ordered e).del = true
  load : (emission e).load = (reference e).load ↔ (ordered e).load = true

theorem Exact.of_plain {e : Expr} {t t' : Trace} {o : Bool} (he : emission e = .plain t)
    (hr : reference e = .plain t') (ho : ordered e = .plain o) (h : t = t' ↔ o = true) : Exact e := by
  have hown : ∀ a : Act, ([] : Trace) ≠ own a := fun a => (List.cons_ne_nil _ _).symm
  constructor <;> simp [he, hr, ho, Emission.plain, Reference.plain, Ordered.plain, h, hown]

section Lists

variable {es : List Expr} {f : Emission → Trace} {g : Reference → Trace} {o : Ordered → Bool} {n : Nat}

theorem map_iff (h : ∀ e ∈ es, f (emission e) = g (reference e) ↔ o (ordered e) = true) :
    (emissions es).map f = (references es).map g ↔ (ordereds es).all o = true := by
  rw [emissions_eq_map, references_eq_map, ordereds_eq_map, List.map_map, List.map_map, List.map_inj_left,
    List.all_map, List.all_eq_true]
  exact forall₂_congr h

theorem listed_map_iff (h : ∀ e ∈ es, f (emission e) = g (reference e) ↔ o (ordered e) = true) :
    listed n ((emissions es).map f) = listed n ((references es).map g) ↔ (ordereds es).all o = true := by
  rw [listed_inj (by simp [emissions_eq_map, references_eq_map]), map_iff h]

theorem links_map_iff (h : ∀ e ∈ es, f (emission e) = g (reference e) ↔ o (ordered e) = true) :
    links n ((emissions es).map f) = links n ((references es).map g) ↔ (ordereds es).all o = true := by
  rw [links_inj (by simp [emissions_eq_map, references_eq_map]), map_iff h]

theorem listed_references_eq_nil :
    listed n ((references es).map (·.value)) = [] ↔ es.all silent = true := by
  rw [references_eq_map, List.map_map]
  exact listed_reference_eq_nil

end Lists

theorem Exact.compare {lhs : Expr} {ops : List CmpOp} {comparators : List Expr} (hl : Exact lhs)
    (hcs : ∀ e ∈ comparators, Exact e) : Exact (.compare lhs ops comparators) := by
  have hlinks := links_map_iff (n := 0) fun e he => (hcs e he).value
  have hvalue : child 0 (emission lhs).value ++ child 1 (links 0 ((emissions comparators).map (·.value))) ++
      own .eval = child 0 (reference lhs).value ++
        child 1 (links 0 ((references comparators).map (·.value))) ++ own .eval ↔
      ((ordered lhs).value && (ordereds comparators).all (·.value)) = true := by
    rw [binary_inj, hl.value, hlinks, Bool.and_eq_true]
  have hown : ∀ a : Act, ([] : Trace) ≠ own a := fun a => (List.cons_ne_nil _ _).symm
  refine ⟨hvalue, hvalue, ?_, ?_, ?_, ?_, ?_⟩
  · show (if identityTest ops comparators then _ else _) = (reference (.compare lhs ops comparators)).value ↔
      (((ordered lhs).value && (ordereds comparators).all (·.value)) &&
        (!identityTest ops comparators || (silent lhs && comparators.all silent))) = true
    by_cases hid : identityTest ops comparators = true
    · obtain ⟨r, rfl⟩ : ∃ r, comparators = [r] := by
        have hlen : comparators.length = 1 := by simpa [identityTest] using (Bool.and_eq_true_iff.mp hid).1
        exact List.length_eq_one_iff.mp hlen
      rw [if_pos hid, hid]
      constructor
      · intro h
        have hsl : silent lhs = true := by
          rw [← twice_iff]
          simpa [reference, Reference.plain] using congrArg (part 0) h
        have hsr : silent r = true := by
          rw [← twice_iff]
          simpa [reference, references, Reference.plain, emissions, links] using
            congrArg (part 0) (congrArg (part 1) h)
        have hol : (ordered lhs).value = true :=
          hl.value.mp (by rw [emission_value_of_silent hsl, reference_value_eq_nil.mpr hsl])
        have hor : (ordered r).value = true :=
          (hcs r (by simp)).value.mp (by rw [emission_value_of_silent hsr, reference_value_eq_nil.mpr hsr])
        simp [hsl, hsr, hol, hor, ordereds]
      · intro h
        simp only [Bool.and_eq_true, Bool.not_true, Bool.false_or, List.all_cons, List.all_nil, and_true] at h
        obtain ⟨-, hsl, hsr⟩ := h
        simp [emission_value_of_silent hsl, emission_value_of_silent hsr, reference_value_eq_nil.mpr hsl,
          reference_value_eq_nil.mpr hsr, reference, references, Reference.plain, emissions, links]
    · have hid' : identityTest ops comparators = false := by simpa using hid
      rw [hid']
      simp only [Bool.false_eq_true, if_false, Bool.not_false, Bool.true_or, Bool.and_true]
      exact hvalue
  all_goals simp [emission, reference, ordered, Emission.plain, Reference.plain, Ordered.plain, hown]

theorem call_iff {f as ks f' as' ks' : Trace} {of oas oks : Bool} (hf : f = f' ↔ of = true)
    (has : as = as' ↔ oas = true) (hks : ks = ks' ↔ oks = true) :
    child 0 f ++ (child 1 as ++ child 2 ks) ++ own Act.eval =
      child 0 f' ++ child 1 as' ++ child 2 ks' ++ own .eval ↔ (of && (oas && oks)) = true := by
  rw [← List.append_assoc (child 0 f), ternary_inj, hf, has, hks]
  simp only [Bool.and_eq_true]

theorem earlyLookup_eq (o rest : Trace) :
    child 0 (child 0 o) ++ (child 0 (own Act.eval) ++ rest) ++ own Act.eval =
      child 0 (child 0 o ++ own .eval) ++ rest ++ own .eval := by
  simp only [child_append, List.append_assoc]

/-- A method is found first if there are starred arguments, else last. -/
theorem Exact.methodCall {owner : Expr} {attr : String} {args keywords : List Expr} {names : List (Option String)}
    (hf : Exact (.attribute owner attr)) (has : ∀ e ∈ args, Exact e) (hks : ∀ e ∈ keywords, Exact e) :
    Exact (.call (.attribute owner attr) args names keywords) := by
  have ho : (emission owner).value = (reference owner).value ↔ (ordered owner).value = true :=
    (unary_inj (x := .eval)).symm.trans hf.value
  have hargs := listed_map_iff (n := 0) fun e he => (has e he).argument
  have hkws := listed_map_iff (n := 0) fun e he => (hks e he).value
  refine .of_plain rfl rfl rfl ?_
  by_cases hstar : args.any isStarred = true
  · simp only [hstar, if_true, Bool.true_or, Bool.and_true]
    exact (Eq.congr_left (earlyLookup_eq _ _)).trans (call_iff hf.value hargs hkws)
  · simp only [hstar, Bool.false_eq_true, if_false, Bool.false_or]
    have hlate := @lateLookup_iff (emission owner).value (listed 0 ((emissions args).map (·.argument)))
      (listed 0 ((emissions keywords).map (·.value))) (reference owner).value
      (listed 0 ((references args).map (·.value))) (listed 0 ((references keywords).map (·.value)))
    rw [ho, hargs, hkws, listed_references_eq_nil, listed_references_eq_nil] at hlate
    refine hlate.trans ?_
    simp only [Bool.and_eq_true]
    tauto

theorem Exact.call {function : Expr} {args keywords : List Expr} {names : List (Option String)}
    (hf : Exact function) (has : ∀ e ∈ args, Exact e) (hks : ∀ e ∈ keywords, Exact e) :
    Exact (.call function args names keywords) := by
  have hargs := listed_map_iff (n := 0) fun e he => (has e he).argument
  have hkws := listed_map_iff (n := 0) fun e he => (hks e he).value
  cases function with
  | «attribute» owner attr => exact hf.methodCall has hks
  | _ => exact .of_plain rfl rfl rfl (call_iff hf.value hargs hkws)

theorem Exact.sequence {elements : List Expr} (h : ∀ e ∈ elements, Exact e) : Exact (.tuple elements) := by
  have hvalue := listed_map_iff (n := 0) fun e he => (h e he).value
  have hown : ∀ a : Act, ([] : Trace) ≠ own a := fun a => (List.cons_ne_nil _ _).symm
  have hplain : child 0 (listed 0 ((emissions elements).map (·.value))) ++ own .eval =
      child 0 (listed 0 ((references elements).map (·.value))) ++ own .eval ↔
      (ordereds elements).all (·.value) = true := by
    rw [unary_inj, hvalue]
  constructor
  · exact hplain
  · exact hplain
  · exact hplain
  · show own Act.store ++ child 0 _ = own Act.store ++ child 0 _ ↔ (ordereds elements).all (·.store) = true
    rw [List.append_cancel_left_eq, child_inj, listed_map_iff fun e he => (h e he).store]
  · show own Act.store ++ child 0 _ = own Act.store ++ child 0 _ ↔ (ordereds elements).all (·.storeTo) = true
    rw [List.append_cancel_left_eq, child_inj, listed_map_iff fun e he => (h e he).storeTo]
  · show [] = (if elements.isEmpty then [] else own Act.del) ++ child 0 _ ↔ elements.isEmpty = true
    cases elements with
    | nil => simp [references, listed]
    | cons e es => simp [own]
  · simp [emission, reference, ordered, Emission.plain, Reference.plain, Ordered.plain, hown]

theorem Exact.dict {keys values : List Expr} (hk : ∀ e ∈ keys, Exact e) (hv : ∀ e ∈ values, Exact e) :
    Exact (.dict keys values) := by
  have hks := listed_map_iff (n := 0) fun e he => (hk e he).value
  have hvs := listed_map_iff (n := 0) fun e he => (hv e he).value
  have hmap : ∀ es, (references es).map (·.value) = es.map fun e => (reference e).value := by
    intro es
    rw [references_eq_map, List.map_map]
    rfl
  have hidle := turnsIdle_iff keys values
  rw [← hmap, ← hmap] at hidle
  refine .of_plain rfl rfl rfl ?_
  rw [List.append_cancel_right_eq, Bool.and_eq_true, Bool.and_eq_true, ← hidle, ← hks, ← hvs]
  constructor
  · intro h
    have hkeys : listed 0 ((emissions keys).map (·.value)) = listed 0 ((references keys).map (·.value)) := by
      simpa [part_zero_pairs] using congrArg (part 0) h
    have hvals : listed 0 ((emissions values).map (·.value)) = listed 0 ((references values).map (·.value)) := by
      simpa [part_one_pairs] using congrArg (part 1) h
    rw [hkeys, hvals] at h
    exact ⟨⟨hkeys, hvals⟩, (listed_append_eq_pairs 0 _ _).mp h⟩
  · intro h
    obtain ⟨⟨hkeys, hvals⟩, hidle⟩ := h
    rw [hkeys, hvals]
    exact (listed_append_eq_pairs 0 _ _).mpr hidle

theorem generators_length (gs : List Generator) :
    (generatorEmissions gs).length = (generatorReferences gs).length := by
  induction gs with
  | nil => rfl
  | cons g gs ih => simp [generatorEmissions, generatorReferences, ih]

theorem target_iff {t t' : Trace} {o : Bool} (h : t = t' ↔ o = true) (a : Act) :
    t ++ own a = t' ++ own a ↔ o = true := by
  rw [List.append_cancel_right_eq, h]

mutual

theorem exact_expr : ∀ e : Expr, Exact e
  | .constant _ => .of_plain rfl rfl rfl (by simp)
  | .name _ => by constructor <;> exact iff_of_true rfl rfl
  | .binary lhs rhs => .of_plain rfl rfl rfl (by
      rw [binary_inj, (exact_expr lhs).value, (exact_expr rhs).value, Bool.and_eq_true])
  | .unary not operand => by
    have ho := exact_expr operand
    have hown : ∀ a : Act, ([] : Trace) ≠ own a := fun a => (List.cons_ne_nil _ _).symm
    have hvalue : child 0 (emission operand).value ++ own .eval = child 0 (reference operand).value ++ own .eval ↔
        (ordered operand).value = true := unary_inj.trans ho.value
    refine ⟨hvalue, hvalue, ?_, ?_, ?_, ?_, ?_⟩
    · cases not with
      | true => exact unary_inj.trans ho.cond
      | false => exact hvalue
    all_goals simp [emission, reference, ordered, Emission.plain, Reference.plain, Ordered.plain, hown]
  | .compare lhs _ comparators => (exact_expr lhs).compare (exact_exprs comparators)
  | .boolOp _ values => by
    have hvs := exact_exprs values
    have hown : ∀ a : Act, ([] : Trace) ≠ own a := fun a => (List.cons_ne_nil _ _).symm
    have hvalue := unary_inj (x := Act.eval).trans (links_map_iff (n := 0) fun e he => (hvs e he).value)
    refine ⟨hvalue, hvalue, unary_inj.trans (links_map_iff fun e he => (hvs e he).cond), ?_, ?_, ?_, ?_⟩
    all_goals simp [emission, reference, ordered, Emission.plain, Reference.plain, Ordered.plain, hown]
  | .call function args _ keywords =>
    (exact_expr function).call (exact_exprs args) (exact_exprs keywords)
  | .attribute value _ => by
    have h : child 0 (emission value).value = child 0 (reference value).value ↔ (ordered value).value = true :=
      child_inj.trans (exact_expr value).value
    exact ⟨target_iff h _, target_iff h _, target_iff h _, target_iff h _, target_iff h _, target_iff h _, target_iff h _⟩
  | .subscript value key => by
    have h : child 0 (emission value).value ++ child 1 (emission key).value =
        child 0 (reference value).value ++ child 1 (reference key).value ↔
        ((ordered value).value && (ordered key).value) = true := by
      rw [two_inj, (exact_expr value).value, (exact_expr key).value, Bool.and_eq_true]
    exact ⟨target_iff h _, target_iff h _, target_iff h _, target_iff h _, target_iff h _, target_iff h _, target_iff h _⟩
  | .slice value lower upper step => by
    have hkeep : ∀ a : Act,
        child 0 (emission value).value ++ (child 1 (emission lower).value ++ child 2 (emission upper).value ++
          child 3 (emission step).value) ++ own a =
        child 0 (reference value).value ++ child 1 (reference lower).value ++ child 2 (reference upper).value ++
          child 3 (reference step).value ++ own a ↔
        ((ordered value).value && (ordered lower).value && (ordered upper).value && (ordered step).value) = true := by
      intro a
      rw [slice_inj, (exact_expr value).value, (exact_expr lower).value, (exact_expr upper).value,
        (exact_expr step).value]
      simp only [Bool.and_eq_true, and_assoc]
    have hdrop : ∀ {a : Act}, child 0 (emission value).value ≠
        child 0 (reference value).value ++ child 1 (reference lower).value ++ child 2 (reference upper).value ++
          child 3 (reference step).value ++ own a := by
      intro a h
      have hcount := congrArg (ownCount a) h
      simp at hcount
    exact ⟨hkeep _, hkeep _, hkeep _, iff_of_false hdrop (by simp [ordered]), hkeep _,
      iff_of_false hdrop (by simp [ordered]), hkeep _⟩
  | .ifExpr test body orelse => .of_plain rfl rfl rfl (by
      rw [branches_inj, (exact_expr test).cond, (exact_expr body).value, (exact_expr orelse).value]
      simp only [Bool.and_eq_true, and_assoc])
  | .list elements => by
    obtain ⟨hvalue, hargument, hcond, hstore, hstoreTo, hdel, hload⟩ := Exact.sequence (exact_exprs elements)
    exact ⟨hvalue, hargument, hcond, hstore, hstoreTo, hdel, hload⟩
  | .tuple elements => .sequence (exact_exprs elements)
  | .set elements => .of_plain rfl rfl rfl
      (unary_inj.trans (listed_map_iff fun e he => (exact_exprs elements e he).value))
  | .dict keys values => .dict (exact_exprs keys) (exact_exprs values)
  | .starred value => by
    have hv := exact_expr value
    have hown : ∀ a : Act, ([] : Trace) ≠ own a := fun a => (List.cons_ne_nil _ _).symm
    have hnot : child 0 (emission value).value ≠ child 0 (reference value).value ++ own Act.eval := by
      intro h
      have hcount := congrArg (ownCount .eval) h
      simp at hcount
    refine ⟨iff_of_false hnot (by simp [ordered, Ordered.plain]), unary_inj.trans hv.value,
      iff_of_false hnot (by simp [ordered, Ordered.plain]), ?_, unary_inj.trans hv.storeTo, ?_, ?_⟩
    all_goals simp [emission, reference, ordered, Emission.plain, Reference.plain, Ordered.plain, own]
  | .namedExpr _ value => .of_plain rfl rfl rfl (by
      rw [List.append_cancel_right_eq, unary_inj, (exact_expr value).value])
  | .lambda _ _ defaults kwDefaults body => .of_plain rfl rfl rfl (by
      rw [lambda_inj, listed_map_iff fun e he => (exact_exprs defaults e he).value,
        listed_map_iff fun e he => (exact_exprs kwDefaults e he).value, (exact_expr body).value]
      simp only [Bool.and_eq_true, and_assoc])
  | .comp kind loc elts generators => by
    have hcomp : child 1 (listed 0 (generatorEmissions generators)) ++
        child 0 (listed 0 ((emissions elts).map (·.value))) ++ own Act.leave ++ own Act.eval =
        child 1 (listed 0 (generatorReferences generators)) ++
          child 0 (listed 0 ((references elts).map (·.value))) ++ own .leave ++ own .eval ↔
        (generatorsOrdered generators && (ordereds elts).all (·.value)) = true := by
      rw [comp_inj, listed_inj (generators_length generators), exact_generators generators,
        listed_map_iff fun e he => (exact_exprs elts e he).value, Bool.and_eq_true]
    cases kind with
    | generatorExp => exact .of_plain rfl rfl rfl (by simp [own])
    | _ => exact .of_plain rfl rfl rfl hcomp
  | .unsupported _ => .of_plain rfl rfl rfl (by simp [own])

theorem exact_exprs : ∀ es : List Expr, ∀ e ∈ es, Exact e
  | [] => by simp
  | e :: es => List.forall_mem_cons.mpr ⟨exact_expr e, exact_exprs es⟩

theorem exact_generator : ∀ g : Generator,
    generatorEmission g = generatorReference g ↔ generatorOrdered g = true
  | .mk target iter ifs => by
    unfold generatorEmission generatorReference generatorOrdered
    rw [generator_inj, (exact_expr iter).value, (exact_expr target).storeTo,
      links_map_iff fun e he => (exact_exprs ifs e he).value]
    simp only [Bool.and_eq_true, and_assoc]

theorem exact_generators : ∀ gs : List Generator,
    generatorEmissions gs = generatorReferences gs ↔ generatorsOrdered gs = true
  | [] => by simp [generatorEmissions, generatorReferences, generatorsOrdered]
  | g :: gs => by
    unfold generatorEmissions generatorReferences generatorsOrdered
    rw [List.cons.injEq, exact_generator g, exact_generators gs, Bool.and_eq_true]

end

/-! ### Statements -/

theorem exprs_iff {f : Emission → Trace} {g : Reference → Trace} {o : Ordered → Bool} {n : Nat}
    (h : ∀ e, f (emission e) = g (reference e) ↔ o (ordered e) = true) (es : List Expr) :
    listed n (es.map fun e => f (emission e)) = listed n (es.map fun e => g (reference e)) ↔
      (es.all fun e => o (ordered e)) = true := by
  rw [listed_inj (by simp), List.map_inj_left, List.all_eq_true]
  exact forall₂_congr fun e _ => h e

theorem values_iff {n : Nat} (es : List Expr) :
    listed n (es.map fun e => (emission e).value) = listed n (es.map fun e => (reference e).value) ↔
      (es.all fun e => (ordered e).value) = true :=
  exprs_iff (fun e => (exact_expr e).value) es

/-- Loading the target after the right-hand side agrees with loading it before
only if the right-hand side takes no steps. -/
theorem augmented_iff {v l v' l' t : Trace} (hl : l' ≠ []) :
    child 0 v ++ child 1 l ++ t = child 1 l' ++ child 0 v' ++ t ↔ v = v' ∧ l = l' ∧ v' = [] := by
  constructor
  · intro h
    rw [List.append_cancel_right_eq] at h
    have hv : v = v' := by simpa using congrArg (part 0) h
    have hll : l = l' := by simpa using congrArg (part 1) h
    subst hv hll
    exact ⟨rfl, rfl, (child_append_comm (by decide) h).resolve_right hl⟩
  · intro h
    obtain ⟨rfl, rfl, rfl⟩ := h
    simp

theorem decorateEmission_of_nil : ∀ (n : Nat) {ds : List Trace}, (∀ d ∈ ds, d = []) →
    decorateEmission n ds = ds.flatMap fun _ => own .eval
  | _, [], _ => rfl
  | n, d :: ds, h => by
    obtain ⟨rfl, hds⟩ := List.forall_mem_cons.mp h
    have hcomm : ∀ ds : List Trace, (ds.flatMap fun _ => own Act.eval) ++ own .eval =
        own .eval ++ ds.flatMap fun _ => own .eval := by
      intro ds
      induction ds with
      | nil => rfl
      | cons _ ds ih => rw [List.flatMap_cons, List.append_assoc, ih]
    rw [decorateEmission, decorateEmission_of_nil (n + 1) hds, child_nil, child_nil, List.append_nil, hcomm]
    rfl

theorem decorateEmission_eq_nil {n : Nat} : ∀ {ds : List Trace}, part 2 (decorateEmission n ds) = [] →
    ∀ d ∈ ds, d = [] := by
  intro ds
  induction ds generalizing n with
  | nil => simp
  | cons d ds ih =>
    intro h
    have hparts : part 2 (decorateEmission (n + 1) ds) = [] ∧ d = [] := by simpa [decorateEmission] using h
    exact List.forall_mem_cons.mpr ⟨hparts.2, ih hparts.1⟩

theorem part_calls {α : Type} (i : Nat) (ts : List α) : part i (ts.flatMap fun _ => own Act.eval) = [] := by
  induction ts with
  | nil => rfl
  | cons _ ts ih => rw [List.flatMap_cons, part_append, part_own, ih]; rfl

theorem part_three_decorateEmission (n : Nat) (ds : List Trace) : part 3 (decorateEmission n ds) = [] := by
  induction ds generalizing n with
  | nil => rfl
  | cons d ds ih => simp [decorateEmission, ih]

/-- Decorators evaluated last agree with decorators evaluated first only if
they take no steps. -/
theorem decorated_iff {a b a' b' : Trace} {ds ds' : List Trace} (hlen : ds.length = ds'.length) :
    child 0 a ++ child 1 b ++ own Act.eval ++ decorateEmission 0 ds ++ own Act.store =
      child 2 (listed 0 ds') ++ child 0 a' ++ child 1 b' ++ own .eval ++
        ds'.flatMap (fun _ => own .eval) ++ own .store ↔
      a = a' ∧ b = b' ∧ (∀ d ∈ ds, d = []) ∧ ∀ d ∈ ds', d = [] := by
  constructor
  · intro h
    have hlisted : listed 0 ds' = [] := by
      simp only [List.append_assoc] at h
      cases ha : a with
      | cons s t =>
        subst ha
        exact (child_append_comm (by decide) h.symm).resolve_right (List.cons_ne_nil _ _)
      | nil =>
        subst ha
        rw [child_nil, List.nil_append] at h
        cases hb : b with
        | cons s t =>
          subst hb
          exact (child_append_comm (by decide) h.symm).resolve_right (List.cons_ne_nil _ _)
        | nil =>
          subst hb
          cases hd : listed 0 ds' with
          | nil => rfl
          | cons s t =>
            rw [hd] at h
            have hhead : [] = 2 :: s.path := congrArg PathStep.path (List.cons.inj h).1
            cases hhead
    have hds' : ∀ d ∈ ds', d = [] := listed_eq_nil.mp hlisted
    have hpart := congrArg (part 2) h
    have hds : ∀ d ∈ ds, d = [] := decorateEmission_eq_nil (by simpa [hlisted, part_calls] using hpart)
    have hdec := decorateEmission_of_nil 0 hds
    refine ⟨?_, ?_, hds, hds'⟩
    · simpa [hdec, part_calls] using congrArg (part 0) h
    · simpa [hdec, part_calls] using congrArg (part 1) h
  · intro h
    obtain ⟨rfl, rfl, hds, hds'⟩ := h
    have hcount : ∀ ts : List Trace, (ts.flatMap fun _ => own Act.eval) =
        List.replicate ts.length (⟨[], .eval⟩ : PathStep Act) := by
      intro ts
      induction ts with
      | nil => rfl
      | cons _ ts ih => rw [List.flatMap_cons, ih]; rfl
    rw [decorateEmission_of_nil 0 hds, listed_eq_nil.mpr hds', hcount, hcount, hlen]
    rfl

/-- The head of a definition, whose decorators come last. -/
theorem definition_iff (as bs decorators : List Expr) :
    child 0 (listed 0 (as.map fun v => (emission v).value)) ++
        child 1 (listed 0 (bs.map fun v => (emission v).value)) ++ own .eval ++
        decorateEmission 0 (decorators.map fun v => (emission v).value) ++ own .store =
      child 2 (listed 0 (decorators.map fun v => (reference v).value)) ++
        child 0 (listed 0 (as.map fun v => (reference v).value)) ++
        child 1 (listed 0 (bs.map fun v => (reference v).value)) ++ own .eval ++
        decorators.flatMap (fun _ => own .eval) ++ own .store ↔
      ((as.all fun v => (ordered v).value) && (bs.all fun v => (ordered v).value) && decorators.all silent) = true := by
  have hcalls : decorators.flatMap (fun _ => own Act.eval) =
      (decorators.map fun v => (reference v).value).flatMap fun _ => own .eval := by
    rw [List.flatMap_map]
  rw [hcalls, decorated_iff (by simp), values_iff, values_iff]
  simp only [List.forall_mem_map, reference_value_eq_nil, Bool.and_eq_true, List.all_eq_true]
  constructor
  · intro h
    obtain ⟨has, hbs, -, hds⟩ := h
    exact ⟨⟨has, hbs⟩, hds⟩
  · intro h
    obtain ⟨⟨has, hbs⟩, hds⟩ := h
    exact ⟨has, hbs, fun d hd => emission_value_of_silent (hds d hd), hds⟩

/-- The head of a function definition: its annotations are not evaluated. -/
theorem function_iff (as bs annotations decorators : List Expr) :
    child 0 (listed 0 (as.map fun v => (emission v).value)) ++
        child 1 (listed 0 (bs.map fun v => (emission v).value)) ++ own .eval ++
        decorateEmission 0 (decorators.map fun v => (emission v).value) ++ own .store =
      child 2 (listed 0 (decorators.map fun v => (reference v).value)) ++
        child 0 (listed 0 (as.map fun v => (reference v).value)) ++
        child 1 (listed 0 (bs.map fun v => (reference v).value)) ++
        child 3 (listed 0 (annotations.map fun v => (reference v).value)) ++ own .eval ++
        decorators.flatMap (fun _ => own .eval) ++ own .store ↔
      ((as.all fun v => (ordered v).value) && (bs.all fun v => (ordered v).value) && decorators.all silent &&
        annotations.all silent) = true := by
  rw [Bool.and_eq_true, ← definition_iff, ← listed_reference_eq_nil (n := 0)]
  constructor
  · intro h
    have hnone : listed 0 (annotations.map fun v => (reference v).value) = [] := by
      simpa [part_calls, part_three_decorateEmission] using (congrArg (part 3) h).symm
    rw [hnone, child_nil, List.append_nil] at h
    exact ⟨h, hnone⟩
  · intro h
    obtain ⟨h, hnone⟩ := h
    rw [hnone, child_nil, List.append_nil]
    exact h

/-- **The sub-expressions of a statement are evaluated once each and in Python's
order exactly if** no fused `is` test has an operand with steps, no augmented
assignment a right-hand side with steps, no dict display a value with steps
before a later key with steps, no display a starred element, no method call
without `*args` an argument with steps, no definition a decorator or an
annotation with steps, no `raise` a cause with steps, and no slice, starred or
nested target is one that the visitor drops. -/
theorem headEmission_eq_iff (s : Stmt) : headEmission s = headReference s ↔ headOrdered s = true := by
  cases s with
  | expression value => exact child_inj.trans (exact_expr value).value
  | assign targets value =>
    show child 0 _ ++ child 1 _ = child 0 _ ++ child 1 _ ↔ _
    rw [two_inj, (exact_expr value).value, exprs_iff (fun e => (exact_expr e).store) targets, headOrdered,
      Bool.and_eq_true]
  | augAssign target value =>
    show child 0 _ ++ child 1 _ ++ own Act.eval ++ own Act.store =
      child 1 _ ++ child 0 _ ++ own Act.eval ++ own Act.store ↔ _
    rw [List.append_assoc, List.append_assoc, List.append_assoc, List.append_assoc, ← List.append_assoc,
      ← List.append_assoc (child 1 _), augmented_iff (reference_load_ne_nil target), (exact_expr value).value,
      (exact_expr target).load, reference_value_eq_nil, headOrdered, Bool.and_eq_true, Bool.and_eq_true]
    tauto
  | «return» value => exact child_inj.trans (values_iff value.toList)
  | delete targets => exact child_inj.trans (exprs_iff (fun e => (exact_expr e).del) targets)
  | «if» test _ _ => exact child_inj.trans (exact_expr test).cond
  | «while» test _ _ => exact child_inj.trans (exact_expr test).cond
  | «for» target iter _ _ =>
    have h := generator_inj (x := .enter) (a := (emission iter).value) (d := (reference iter).value)
      (b := (emission target).store) (e := (reference target).store) (c := []) (f := [])
    rw [child_nil, List.append_nil, List.append_nil, (exact_expr iter).value, (exact_expr target).store] at h
    rw [headOrdered, Bool.and_eq_true]
    exact h.trans (by tauto)
  | functionDef _ _ _ annotations returns defaults kwDefaults _ decorators =>
    exact function_iff defaults kwDefaults (annotations ++ returns.toList) decorators
  | classDef _ _ bases _ keywords _ decorators => exact definition_iff bases keywords decorators
  | raise exception cause =>
    have h := two_inj (a := listed 0 (exception.toList.map fun v => (emission v).value))
      (d := listed 0 (exception.toList.map fun v => (reference v).value)) (b := [])
      (e := listed 0 (cause.toList.map fun v => (reference v).value))
    rw [child_nil, List.append_nil, values_iff, eq_comm (a := []), listed_reference_eq_nil] at h
    rw [headOrdered, Bool.and_eq_true]
    exact h
  | assert test msg =>
    have h := branches_inj (x := .branch 0) (y := .eval) (z := .eval) (a := (emission test).value)
      (d := (reference test).value) (b := listed 0 (msg.toList.map fun v => (emission v).value))
      (e := listed 0 (msg.toList.map fun v => (reference v).value)) (c := []) (f := [])
    rw [child_nil, List.append_nil, List.append_nil, List.append_cancel_right_eq, (exact_expr test).value,
      values_iff] at h
    rw [headOrdered, Bool.and_eq_true]
    exact h.trans (by tauto)
  | «with» items _ =>
    show listed 0 _ = listed 0 _ ↔ _
    rw [listed_inj (by simp), List.map_inj_left, headOrdered, List.all_eq_true]
    refine forall₂_congr fun i _ => ?_
    have h := generator_inj (x := .enter) (a := (emission i.1).value) (d := (reference i.1).value)
      (b := listed 0 (i.2.toList.map fun t => (emission t).storeTo))
      (e := listed 0 (i.2.toList.map fun t => (reference t).store)) (c := []) (f := [])
    rw [child_nil, List.append_nil, List.append_nil, (exact_expr i.1).value,
      exprs_iff (fun e => (exact_expr e).storeTo) i.2.toList] at h
    rw [Bool.and_eq_true]
    exact h.trans (by tauto)
  | «try» _ handlers _ _ =>
    show listed 0 _ = listed 0 _ ↔ _
    rw [listed_inj (by simp), List.map_inj_left, headOrdered, List.all_eq_true]
    refine forall₂_congr fun handler _ => ?_
    cases handler with
    | mk type _ _ => exact values_iff type.toList
  | _ => exact iff_of_true rfl rfl

/-- `if a is b:` evaluates both operands twice. -/
theorem fusedIs_evaluates_twice :
    headEmission (.if (.compare (.name "a") [.is] [.name "b"]) [.pass] []) ≠
      headReference (.if (.compare (.name "a") [.is] [.name "b"]) [.pass] []) := by
  decide

end Pylang.Front
