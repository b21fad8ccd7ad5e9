/-
The order in which the code of an expression or of the head of a statement
evaluates its sub-expressions: as `PylangCodegen` emits it, and as Python
prescribes it. A step is an operation at a node of the syntax; literals have
none, and short-circuiting shows as a branch step between the operands.
-/
import Pylang.Front.Ast
import Pylang.Lib.PathTrace

namespace Pylang.Front

open Pylang.Lib Pylang.Lib.PathTrace

/-- What happens at a node. -/
inductive Act
  /-- The node's own operation, after its operands. -/
  | eval
  | store
  | del
  /-- Which way to go is decided after the operand of this number. -/
  | branch (i : Nat)
  /-- Entering and leaving the body of a lambda or the loops of a comprehension. -/
  | enter
  | leave
  deriving DecidableEq

abbrev Trace := PathTrace Act

/-- Operands with a decision after each but the last. -/
def links : Nat → List Trace → Trace
  | _, [] => []
  | n, [t] => child n t
  | n, t :: ts => child n t ++ own (.branch n) ++ links (n + 1) ts

/-- The emitted code of a node in each of its roles. -/
structure Emission where
  /-- `generate`. -/
  value : Trace
  /-- The node as a positional argument of a call. -/
  argument : Trace
  /-- `generate_condition_as_bool`. -/
  cond : Trace
  /-- `generate_store_target`. -/
  store : Trace
  /-- `store_to_target`. -/
  storeTo : Trace
  /-- The node as a target of `Delete`. -/
  del : Trace
  /-- The load of an `AugAssign` target. -/
  load : Trace

/-- A node with no fused condition that is no target. -/
def Emission.plain (v : Trace) : Emission :=
  { value := v, argument := v, cond := v, store := [], storeTo := [], del := [], load := [] }

def isStarred : Expr → Bool
  | .starred _ => true
  | _ => false

/-- One comparison by `is` or `is not`. -/
def identityTest (ops : List CmpOp) (comparators : List Expr) : Bool :=
  comparators.length = 1 && ops.any fun o => o == .is || o == .isNot

mutual

/-- The code `PylangCodegen` emits. The runtime does for the fused forms
`x.insert(0, (a, b))` and `not x[i]` what the plain ones do in order. -/
def emission : Expr → Emission
  | .constant _ => .plain []
  | .name _ =>
    { value := own .eval, argument := own .eval, cond := own .eval, store := own .store, storeTo := own .store
      del := own .del, load := own .eval }
  | .binary lhs rhs => .plain (child 0 (emission lhs).value ++ child 1 (emission rhs).value ++ own .eval)
  | .unary not operand =>
    let value := child 0 (emission operand).value ++ own .eval
    { Emission.plain value with
      cond := if not then child 0 (emission operand).cond ++ own .eval else value }
  | .compare lhs ops comparators =>
    let operands := child 0 (emission lhs).value ++ child 1 (links 0 ((emissions comparators).map (·.value)))
    { Emission.plain (operands ++ own .eval) with
      -- the operands are emitted, then the fallback emits the comparison as a value
      cond := if identityTest ops comparators then operands ++ (operands ++ own .eval)
        else operands ++ own .eval }
  | .boolOp _ values =>
    { Emission.plain (child 0 (links 0 ((emissions values).map (·.value))) ++ own .eval) with
      cond := child 0 (links 0 ((emissions values).map (·.cond))) ++ own .eval }
  | .call function args _ keywords =>
    let arguments := child 1 (listed 0 ((emissions args).map (·.argument))) ++
      child 2 (listed 0 ((emissions keywords).map (·.value)))
    .plain <| match function with
    | .attribute owner _ =>
      -- without `*args` the method is looked up by the call itself
      let found : Trace := child 0 (own .eval)
      child 0 (child 0 (emission owner).value) ++
        (if args.any isStarred then found ++ arguments else arguments ++ found) ++ own .eval
    | f => child 0 (emission f).value ++ arguments ++ own .eval
  | .attribute value _ =>
    let v := child 0 (emission value).value
    { Emission.plain (v ++ own .eval) with
      store := v ++ own .store, storeTo := v ++ own .store, del := v ++ own .del, load := v ++ own .eval }
  | .subscript value key =>
    let operands := child 0 (emission value).value ++ child 1 (emission key).value
    { Emission.plain (operands ++ own .eval) with
      store := operands ++ own .store, storeTo := operands ++ own .store
      del := operands ++ own .del, load := operands ++ own .eval }
  | .slice value lower upper step =>
    let v := child 0 (emission value).value
    let bounds := child 1 (emission lower).value ++ child 2 (emission upper).value ++
      child 3 (emission step).value
    { Emission.plain (v ++ bounds ++ own .eval) with
      -- `Assign` and `Delete` know subscripts by an index only
      store := v, storeTo := v ++ bounds ++ own .store, del := v, load := v ++ bounds ++ own .eval }
  | .ifExpr test body orelse =>
    .plain (child 0 (emission test).cond ++ own (.branch 0) ++ child 1 (emission body).value ++
      own (.branch 1) ++ child 2 (emission orelse).value ++ own .eval)
  | .list elements | .tuple elements =>
    let es := emissions elements
    { Emission.plain (child 0 (listed 0 (es.map (·.value))) ++ own .eval) with
      store := own .store ++ child 0 (listed 0 (es.map (·.store)))
      storeTo := own .store ++ child 0 (listed 0 (es.map (·.storeTo))) }
  | .set elements => .plain (child 0 (listed 0 ((emissions elements).map (·.value))) ++ own .eval)
  | .dict keys values =>
    .plain (child 0 (listed 0 ((emissions keys).map (·.value))) ++
      child 1 (listed 0 ((emissions values).map (·.value))) ++ own .eval)
  | .starred value =>
    -- only calls unpack it
    { Emission.plain (child 0 (emission value).value) with
      argument := child 0 (emission value).value ++ own .eval
      storeTo := child 0 (emission value).storeTo ++ own .store }
  | .namedExpr _ value => .plain (child 0 (emission value).value ++ own .store ++ own .eval)
  | .lambda _ _ defaults kwDefaults body =>
    .plain (child 0 (listed 0 ((emissions defaults).map (·.value))) ++
      child 1 (listed 0 ((emissions kwDefaults).map (·.value))) ++
      own .enter ++ child 2 (emission body).value ++ own .leave ++ own .eval)
  | .comp .generatorExp _ _ _ => .plain []
  | .comp _ _ elts generators =>
    .plain (child 1 (listed 0 (generatorEmissions generators)) ++
      child 0 (listed 0 ((emissions elts).map (·.value))) ++ own .leave ++ own .eval)
  | .unsupported _ => .plain []

def emissions : List Expr → List Emission
  | [] => []
  | e :: es => emission e :: emissions es

/-- The iterator, then for each element the target and the conditions. -/
def generatorEmission : Generator → Trace
  | .mk target iter ifs =>
    child 0 (emission iter).value ++ own .enter ++ child 1 (emission target).storeTo ++
      child 2 (links 0 ((emissions ifs).map (·.value)))

def generatorEmissions : List Generator → List Trace
  | [] => []
  | g :: gs => generatorEmission g :: generatorEmissions gs

end

/-- A node as Python evaluates it. -/
structure Reference where
  value : Trace
  store : Trace
  del : Trace
  load : Trace

/-- A node that is no target. -/
def Reference.plain (v : Trace) : Reference :=
  { value := v, store := own .store, del := own .del, load := own .eval }

mutual

/-- The order of evaluation of the language: operands from left to right, the
pairs of a dict display in turn. -/
def reference : Expr → Reference
  | .constant _ => .plain []
  | .name _ => .plain (own .eval)
  | .binary lhs rhs => .plain (child 0 (reference lhs).value ++ child 1 (reference rhs).value ++ own .eval)
  | .unary _ operand => .plain (child 0 (reference operand).value ++ own .eval)
  | .compare lhs _ comparators =>
    .plain (child 0 (reference lhs).value ++ child 1 (links 0 ((references comparators).map (·.value))) ++
      own .eval)
  | .boolOp _ values => .plain (child 0 (links 0 ((references values).map (·.value))) ++ own .eval)
  | .call function args _ keywords =>
    .plain (child 0 (reference function).value ++ child 1 (listed 0 ((references args).map (·.value))) ++
      child 2 (listed 0 ((references keywords).map (·.value))) ++ own .eval)
  | .attribute value _ =>
    let v := child 0 (reference value).value
    { value := v ++ own .eval, store := v ++ own .store, del := v ++ own .del, load := v ++ own .eval }
  | .subscript value key =>
    let operands := child 0 (reference value).value ++ child 1 (reference key).value
    { value := operands ++ own .eval, store := operands ++ own .store, del := operands ++ own .del
      load := operands ++ own .eval }
  | .slice value lower upper step =>
    let operands := child 0 (reference value).value ++ child 1 (reference lower).value ++
      child 2 (reference upper).value ++ child 3 (reference step).value
    { value := operands ++ own .eval, store := operands ++ own .store, del := operands ++ own .del
      load := operands ++ own .eval }
  | .ifExpr test body orelse =>
    .plain (child 0 (reference test).value ++ own (.branch 0) ++ child 1 (reference body).value ++
      own (.branch 1) ++ child 2 (reference orelse).value ++ own .eval)
  | .list elements | .tuple elements =>
    let es := references elements
    { Reference.plain (child 0 (listed 0 (es.map (·.value))) ++ own .eval) with
      store := own .store ++ child 0 (listed 0 (es.map (·.store)))
      del := (if elements.isEmpty then [] else own .del) ++ child 0 (listed 0 (es.map (·.del))) }
  | .set elements => .plain (child 0 (listed 0 ((references elements).map (·.value))) ++ own .eval)
  | .dict keys values =>
    .plain (pairs 0 ((references keys).map (·.value)) ((references values).map (·.value)) ++ own .eval)
  | .starred value =>
    { Reference.plain (child 0 (reference value).value ++ own .eval) with
      store := child 0 (reference value).store ++ own .store }
  | .namedExpr _ value => .plain (child 0 (reference value).value ++ own .store ++ own .eval)
  | .lambda _ _ defaults kwDefaults body =>
    .plain (child 0 (listed 0 ((references defaults).map (·.value))) ++
      child 1 (listed 0 ((references kwDefaults).map (·.value))) ++
      own .enter ++ child 2 (reference body).value ++ own .leave ++ own .eval)
  | .comp _ _ elts generators =>
    .plain (child 1 (listed 0 (generatorReferences generators)) ++
      child 0 (listed 0 ((references elts).map (·.value))) ++ own .leave ++ own .eval)
  | .unsupported operands => .plain (child 0 (listed 0 ((references operands).map (·.value))) ++ own .eval)

def references : List Expr → List Reference
  | [] => []
  | e :: es => reference e :: references es

def generatorReference : Generator → Trace
  | .mk target iter ifs =>
    child 0 (reference iter).value ++ own .enter ++ child 1 (reference target).store ++
      child 2 (links 0 ((references ifs).map (·.value)))

def generatorReferences : List Generator → List Trace
  | [] => []
  | g :: gs => generatorReference g :: generatorReferences gs

end

/-- The decorators of a definition are evaluated and called from the last to the first. -/
def decorateEmission (n : Nat) : List Trace → Trace
  | [] => []
  | d :: ds => decorateEmission (n + 1) ds ++ child 2 (child n d) ++ own .eval


/-- The expressions of a statement that are not in statements inside it, as
emitted. -/
def headEmission : Stmt → Trace
  | .expression value => child 0 (emission value).value
  | .assign targets value =>
    child 0 (emission value).value ++ child 1 (listed 0 (targets.map fun t => (emission t).store))
  | .augAssign target value =>
    child 0 (emission value).value ++ child 1 (emission target).load ++ own .eval ++ own .store
  | .return value => child 0 (listed 0 (value.toList.map fun v => (emission v).value))
  | .delete targets => child 0 (listed 0 (targets.map fun t => (emission t).del))
  | .if test _ _ | .while test _ _ => child 0 (emission test).cond
  | .for target iter _ _ => child 0 (emission iter).value ++ own .enter ++ child 1 (emission target).store
  | .functionDef _ _ _ _ _ defaults kwDefaults _ decorators =>
    child 0 (listed 0 (defaults.map fun v => (emission v).value)) ++
      child 1 (listed 0 (kwDefaults.map fun v => (emission v).value)) ++ own .eval ++
      decorateEmission 0 (decorators.map fun v => (emission v).value) ++ own .store
  | .classDef _ _ bases _ keywords _ decorators =>
    child 0 (listed 0 (bases.map fun v => (emission v).value)) ++
      child 1 (listed 0 (keywords.map fun v => (emission v).value)) ++ own .eval ++
      decorateEmission 0 (decorators.map fun v => (emission v).value) ++ own .store
  | .raise exception _ => child 0 (listed 0 (exception.toList.map fun v => (emission v).value))
  | .assert test msg =>
    child 0 (emission test).value ++ own (.branch 0) ++
      child 1 (listed 0 (msg.toList.map fun v => (emission v).value)) ++ own .eval
  | .with items _ =>
    listed 0 (items.map fun i => child 0 (emission i.1).value ++ own .enter ++
      child 1 (listed 0 (i.2.toList.map fun t => (emission t).storeTo)))
  | .try _ handlers _ _ =>
    listed 0 (handlers.map fun | .mk type _ _ => listed 0 (type.toList.map fun v => (emission v).value))
  | .break | .continue | .pass | .import _ | .importFrom _ | .global _ | .nonlocal _ => []

/-- The same as Python evaluates it. -/
def headReference : Stmt → Trace
  | .expression value => child 0 (reference value).value
  | .assign targets value =>
    child 0 (reference value).value ++ child 1 (listed 0 (targets.map fun t => (reference t).store))
  | .augAssign target value =>
    child 1 (reference target).load ++ child 0 (reference value).value ++ own .eval ++ own .store
  | .return value => child 0 (listed 0 (value.toList.map fun v => (reference v).value))
  | .delete targets => child 0 (listed 0 (targets.map fun t => (reference t).del))
  | .if test _ _ | .while test _ _ => child 0 (reference test).value
  | .for target iter _ _ => child 0 (reference iter).value ++ own .enter ++ child 1 (reference target).store
  | .functionDef _ _ _ annotations returns defaults kwDefaults _ decorators =>
    child 2 (listed 0 (decorators.map fun v => (reference v).value)) ++
      child 0 (listed 0 (defaults.map fun v => (reference v).value)) ++
      child 1 (listed 0 (kwDefaults.map fun v => (reference v).value)) ++
      child 3 (listed 0 ((annotations ++ returns.toList).map fun v => (reference v).value)) ++ own .eval ++
      decorators.flatMap (fun _ => own .eval) ++ own .store
  | .classDef _ _ bases _ keywords _ decorators =>
    child 2 (listed 0 (decorators.map fun v => (reference v).value)) ++
      child 0 (listed 0 (bases.map fun v => (reference v).value)) ++
      child 1 (listed 0 (keywords.map fun v => (reference v).value)) ++ own .eval ++
      decorators.flatMap (fun _ => own .eval) ++ own .store
  | .raise exception cause =>
    child 0 (listed 0 (exception.toList.map fun v => (reference v).value)) ++
      child 1 (listed 0 (cause.toList.map fun v => (reference v).value))
  | .assert test msg =>
    child 0 (reference test).value ++ own (.branch 0) ++
      child 1 (listed 0 (msg.toList.map fun v => (reference v).value)) ++ own .eval
  | .with items _ =>
    listed 0 (items.map fun i => child 0 (reference i.1).value ++ own .enter ++
      child 1 (listed 0 (i.2.toList.map fun t => (reference t).store)))
  | .try _ handlers _ _ =>
    listed 0 (handlers.map fun | .mk type _ _ => listed 0 (type.toList.map fun v => (reference v).value))
  | .break | .continue | .pass | .import _ | .importFrom _ | .global _ | .nonlocal _ => []


end Pylang.Front
