/-
What the visitors of `PylangCodegen` ask of the state the code generator keeps
for the whole module, in order: runtime calls, accesses to names, leaving the
body, the bodies of `try`, `with` and loops, and the bodies that become LLVM
functions of their own. Blocks, allocas and values a visitor creates and uses
itself are in the function being compiled and are left out.
-/
import Pylang.Front.Ast

namespace Pylang.Front

/-- `VariablesResolver::Visibility`. -/
inductive Visibility
  | implicitGlobal | explicitGlobal | name | «local» | cell | free | hidden
  deriving DecidableEq

/-- `VariablesResolver::SymbolMap`. -/
abbrev SymbolMap := List (String × Visibility)

/-- `SymbolMap::get_visible_symbol`. -/
def SymbolMap.visible (m : SymbolMap) (n : String) : Option Visibility :=
  (m.find? fun s => s.1 == n && s.2 != .hidden).map (·.2)

def SymbolMap.having (m : SymbolMap) (v : Visibility) : List String :=
  (m.filter (·.2 == v)).map (·.1)

/-- The three places that start a new LLVM function. -/
inductive BodyKind
  | function | «class» | comprehension
  deriving DecidableEq

inductive Skeleton
  | skip
  | seq (a b : Skeleton)
  /-- `emit_runtime_call`. -/
  | call
  | createLocal (n : String)
  | registerCell (n : String)
  | registerFree (n : String)
  | load (n : String)
  | store (n : String)
  | delete (n : String)
  /-- The cell of `n`, put into the closure of an inner function. -/
  | capture (n : String)
  /-- What `Return` emits after its value. -/
  | ret
  /-- `Break` and `Continue`. -/
  | loopExit
  /-- A bare `raise`. -/
  | reraise
  /-- `emit_finally_dispatch`. -/
  | dispatch
  | tryBody (hasFinally : Bool) (body : Skeleton)
  | loopBody (body : Skeleton)
  | enter (kind : BodyKind) (scope : Option SymbolMap) (body : Skeleton)

namespace Skeleton

def seqAll : List Skeleton → Skeleton
  | [] => .skip
  | a :: as => .seq a (seqAll as)

def callIf (b : Bool) : Skeleton := if b then .call else .skip

def optional (o : Option Skeleton) : Skeleton := o.getD .skip

end Skeleton

open Skeleton

/-- The ways an expression node is visited. -/
structure Visited where
  /-- `generate`. -/
  value : Skeleton
  /-- `generate_condition_as_bool`. -/
  cond : Skeleton
  /-- `generate_store_target`. -/
  store : Skeleton
  /-- `store_to_target`. -/
  storeTo : Skeleton
  /-- The node as a target of `Delete`. -/
  del : Skeleton
  /-- The node as the target of `AugAssign`, from loading it to storing it. -/
  aug : Skeleton

/-- A node that is no target and has no fused condition. -/
def Visited.plain (v : Skeleton) : Visited :=
  { value := v, cond := .seq v .call, store := .skip, storeTo := .skip, del := .skip, aug := .skip }

/-- A chained comparison after its first operand. -/
def chainedCompare : List Skeleton → Skeleton
  | [] => .skip
  | [rhs] => .seq rhs .call
  | rhs :: rest => seqAll [rhs, .call, .call, chainedCompare rest]

def boolOpValues : List Skeleton → Skeleton
  | [] => .skip
  | [v] => v
  | v :: rest => seqAll [v, .call, boolOpValues rest]

/-- Keyword values; the dict is created after the first of them. -/
def keywordValues (keywords : List Skeleton) : Skeleton :=
  .seq (seqAll (keywords.map fun v => .seq v .call)) (callIf !keywords.isEmpty)

def Constant.visit : Constant → Skeleton
  | .int _ => .skip
  | _ => .call

/-- `m_func_first_args.back()` once the function's parameters are pushed. -/
def Parameters.first (p : Parameters) : String :=
  match p.posonlyargs, p.args with
  | n :: _, _ => n
  | [], n :: _ => n
  | [], [] => ""

/-- Steps 6 and 7 of `compile_function_body`. -/
def cellPrologue (scope : Option SymbolMap) : Skeleton :=
  seqAll (((scope.getD []).having .cell).map fun n => .seq .call (.registerCell n))

def freePrologue (scope : Option SymbolMap) : Skeleton :=
  seqAll (((scope.getD []).having .free).map fun n => .seq .call (.registerFree n))

/-- The binding of one parameter in step 8: a second call reads the default. -/
def bindParameter (scope : Option SymbolMap) (hasDefault : Bool) (n : String) : Skeleton :=
  seqAll [.call, callIf hasDefault,
    if (scope.bind (·.visible n)) = some .cell then .call else .createLocal n]

/-- Step 13: the closure tuple. -/
def closureTuple (scope : Option SymbolMap) (hasDefaults : Bool) : Skeleton :=
  let frees := (scope.getD []).having .free
  .seq (seqAll (frees.map .capture)) (callIf (!frees.isEmpty || hasDefaults))

def decorate (decorators : List Skeleton) : Skeleton :=
  seqAll (decorators.reverse.map fun d => seqAll [d, .call, .call])

/-- `compile_function_body`. -/
def compileFunctionBody (scope : Option SymbolMap) (params : Parameters) (defaults kwDefaults : List Skeleton)
    (body : Skeleton) (fallsThrough : Bool) (decorators : List Skeleton) : Skeleton :=
  let hasDefaults := !defaults.isEmpty
  let start := params.args.length - defaults.length
  seqAll [
    seqAll defaults, callIf hasDefaults,
    .enter .function scope (seqAll [
      cellPrologue scope, freePrologue scope, callIf hasDefaults,
      seqAll (params.args.mapIdx fun i n => bindParameter scope (hasDefaults && start ≤ i) n),
      body, callIf fallsThrough]),
    closureTuple scope hasDefaults,
    seqAll (kwDefaults.map fun v => .seq v .call), callIf !kwDefaults.isEmpty,
    .call, decorate decorators]

/-- `compile_class_body`. -/
def compileClassBody (scope : Option SymbolMap) (body : Skeleton) (fallsThrough : Bool) : Skeleton :=
  .seq
    (.enter .class scope (seqAll [
      .call, cellPrologue scope, body,
      callIf ("__class__" ∈ (scope.getD []).having .cell), callIf fallsThrough]))
    .call

/-- `compile_comprehension_impl`, between the iterator and the call. -/
def compileComprehension (scope : Option SymbolMap) (loops : Skeleton) : Skeleton :=
  seqAll [
    .enter .comprehension scope (seqAll [
      cellPrologue scope, freePrologue scope, .call, .call, loops]),
    closureTuple scope false, .call, .call, .call]

/-- One generator of a comprehension, as its parts are visited. -/
structure VisitedGenerator where
  storeTo : Skeleton
  iter : Skeleton
  ifs : List Skeleton

/-- `emit_comprehension_loops`. -/
def comprehensionLoops (elts : List Skeleton) : List VisitedGenerator → Skeleton
  | [] => .seq (seqAll elts) .call
  | g :: gens =>
    seqAll [
      .createLocal "comp_has_value", .call, g.storeTo,
      seqAll (g.ifs.map fun c => .seq c .call),
      match gens with
      | [] => .skip
      | g' :: _ => .seq g'.iter .call,
      comprehensionLoops elts gens]

section Expressions

variable (attach : Loc → Option SymbolMap)

mutual

/-- An expression; `self` is `m_func_first_args.back()`. -/
def visitExpr (self : String) : Expr → Visited
  | .constant c => .plain c.visit
  | .name id =>
    { value := .load id, cond := .seq (.load id) .call, store := .store id, storeTo := .store id,
      del := .delete id, aug := seqAll [.load id, .call, .store id] }
  | .binary lhs rhs => .plain (seqAll [(visitExpr self lhs).value, (visitExpr self rhs).value, .call])
  | .unary not operand =>
    let o := visitExpr self operand
    let value := match not, operand with
      | true, .subscript _ _ => o.value
      | _, _ => .seq o.value .call
    { Visited.plain value with cond := if not then o.cond else .seq value .call }
  | .compare lhs ops comparators =>
    let l := (visitExpr self lhs).value
    let rs := (visitExprs self comparators).map (·.value)
    match rs with
    | [] => .plain l
    | [r] =>
      let value := seqAll [l, r, .call]
      -- `is` and `is not` fall back after their operands were emitted
      { Visited.plain value with
        cond := if ops.any (fun o => o == .is || o == .isNot) then seqAll [l, r, value, .call] else value }
    | _ => .plain (seqAll [l, .createLocal ".cmp_result", .call, chainedCompare rs])
  | .boolOp _ values =>
    let vs := visitExprs self values
    { Visited.plain (.seq (.createLocal ".bool_result") (boolOpValues (vs.map (·.value)))) with
      cond := seqAll (vs.map (·.cond)) }
  | .call function args _ keywords =>
    let as := (visitExprs self args).map (·.value)
    let ks := (visitExprs self keywords).map (·.value)
    let superCall := self ≠ "" ∧ args.isEmpty ∧ keywords.isEmpty
    let hasStarred := args.any fun | .starred _ => true | _ => false
    let arguments :=
      if hasStarred then seqAll [.call, seqAll (as.map fun v => .seq v .call), .call] else seqAll as
    .plain <| match function with
    | .name "super" =>
      if superCall then seqAll [.load "super", .load "__class__", .load self, .call, .call]
      else seqAll [.load "super", arguments, keywordValues ks, .call]
    | .attribute owner _ =>
      seqAll [(visitExpr self owner).value, callIf hasStarred, arguments, keywordValues ks, .call]
    | f => seqAll [(visitExpr self f).value, arguments, keywordValues ks, .call]
  | .attribute value _ =>
    let v := (visitExpr self value).value
    { Visited.plain (.seq v .call) with
      store := .seq v .call, storeTo := .seq v .call, del := .seq v .call
      aug := seqAll [v, .call, .call, .call] }
  | .subscript value key =>
    let v := (visitExpr self value).value
    let k := (visitExpr self key).value
    let access := seqAll [v, k, .call]
    { value := access, cond := access, store := access, storeTo := access, del := access
      aug := seqAll [v, k, .call, .call, .call] }
  | .slice value lower upper step =>
    let v := (visitExpr self value).value
    let key := seqAll [(visitExpr self lower).value, (visitExpr self upper).value,
      (visitExpr self step).value, .call]
    { Visited.plain (seqAll [v, key, .call]) with
      store := v, storeTo := seqAll [v, key, .call], del := v
      aug := seqAll [v, key, .call, .call, .call] }
  | .ifExpr test body orelse =>
    .plain (seqAll [(visitExpr self test).cond, (visitExpr self body).value, (visitExpr self orelse).value])
  | .list elements | .tuple elements =>
    let es := visitExprs self elements
    { Visited.plain (.seq (seqAll (es.map (·.value))) .call) with
      store := .seq .call (seqAll (es.map (·.store)))
      storeTo := .seq .call (seqAll (es.map (·.storeTo))) }
  | .set elements => .plain (.seq (seqAll ((visitExprs self elements).map (·.value))) .call)
  | .dict keys values =>
    .plain (seqAll [seqAll ((visitExprs self keys).map (·.value)),
      seqAll ((visitExprs self values).map (·.value)), .call])
  | .starred value =>
    let v := visitExpr self value
    { Visited.plain v.value with storeTo := v.storeTo }
  | .namedExpr target value => .plain (.seq (visitExpr self value).value (.store target))
  | .lambda loc params defaults kwDefaults body =>
    let ds := (visitExprs params.first defaults).map (·.value)
    let ks := (visitExprs self kwDefaults).map (·.value)
    let b := (visitExpr params.first body).value
    .plain (compileFunctionBody (attach loc) params ds ks (.seq b .ret) false [])
  | .comp .generatorExp _ _ _ => .plain .call
  | .comp _ loc elts generators =>
    let es := (visitExprs self elts).map (·.value)
    let gs := visitGenerators self generators
    .plain (seqAll [
      match gs with
      | [] => .skip
      | g :: _ => .seq g.iter .call,
      compileComprehension (attach loc) (comprehensionLoops es gs)])
  | .unsupported _ => .plain .call

def visitExprs (self : String) : List Expr → List Visited
  | [] => []
  | e :: es => visitExpr self e :: visitExprs self es

def visitGenerator (self : String) : Generator → VisitedGenerator
  | .mk target iter ifs =>
    { storeTo := (visitExpr self target).storeTo, iter := (visitExpr self iter).value
      ifs := (visitExprs self ifs).map (·.value) }

def visitGenerators (self : String) : List Generator → List VisitedGenerator
  | [] => []
  | g :: gs => visitGenerator self g :: visitGenerators self gs

end

/-- One item of a `with`: the manager, `__exit__`, `__enter__` and the target. -/
def enterItem (self : String) (item : Expr × Option Expr) : Skeleton :=
  seqAll [
    (visitExpr attach self item.1).value, .call,
    .createLocal "__with_exit", .createLocal "__with_exc", .call, .call, .call,
    optional (item.2.map fun t => (visitExpr attach self t).storeTo)]

/-- The iterator of a `for`; `x.items()` leaves the view out. -/
def iterator (self : String) : Expr → Skeleton
  | .call (.attribute owner "items") [] _ [] => .seq (visitExpr attach self owner).value .call
  | iter => .seq (visitExpr attach self iter).value .call

/-- The head of a `for` and its target stores, which are in the loop's body. -/
def forHead (self : String) : Expr → Skeleton × Skeleton
  | .tuple [a, b] =>
    (seqAll [.createLocal "unpack2_a", .createLocal "unpack2_b", .call],
      .seq (visitExpr attach self a).store (visitExpr attach self b).store)
  | target => (.seq (.createLocal "for_has_value") .call, (visitExpr attach self target).store)

mutual

def visitStmt (self : String) : Stmt → Skeleton
  | .expression value => (visitExpr attach self value).value
  | .assign targets value =>
    .seq (visitExpr attach self value).value (seqAll (targets.map fun t => (visitExpr attach self t).store))
  | .augAssign target value =>
    .seq (visitExpr attach self value).value (visitExpr attach self target).aug
  | .return value =>
    .seq (match value with | some e => (visitExpr attach self e).value | none => .call) .ret
  | .delete targets => seqAll (targets.map fun t => (visitExpr attach self t).del)
  | .if test body orelse =>
    seqAll [(visitExpr attach self test).cond, generateBody self body, generateBody self orelse]
  | .while test body orelse =>
    seqAll [(visitExpr attach self test).cond, .loopBody (generateBody self body), generateBody self orelse]
  | .for target iter body orelse =>
    let head := forHead attach self target
    seqAll [iterator attach self iter, head.1, .loopBody (.seq head.2 (generateBody self body)),
      generateBody self orelse]
  | .break | .continue => .loopExit
  | .pass | .global _ | .nonlocal _ => .skip
  | .functionDef name loc params _ _ defaults kwDefaults body decorators =>
    let ds := defaults.map fun e => (visitExpr attach params.first e).value
    let ks := kwDefaults.map fun e => (visitExpr attach self e).value
    let decs := decorators.map fun e => (visitExpr attach self e).value
    .seq (compileFunctionBody (attach loc) params ds ks (generateBody params.first body)
      (bodyFallsThrough body) decs) (.store name)
  | .classDef name loc bases _ keywords body decorators =>
    let decs := decorators.map fun e => (visitExpr attach self e).value
    seqAll [
      compileClassBody (attach loc) (generateBody self body) (bodyFallsThrough body),
      seqAll (bases.map fun e => (visitExpr attach self e).value), .call,
      keywordValues (keywords.map fun e => (visitExpr attach self e).value), .call,
      decorate decs, .store name]
  | .import stored => seqAll (stored.map fun n => .seq .call (.store n))
  | .importFrom stored => .seq .call (seqAll (stored.map fun n => .seq .call (.store n)))
  | .raise (some e) _ => .seq (visitExpr attach self e).value .call
  | .raise none _ => .reraise
  | .assert test msg =>
    seqAll [(visitExpr attach self test).value, .call, .call,
      optional (msg.map fun e => (visitExpr attach self e).value), .call, .call, .call]
  | .try body handlers orelse finalbody =>
    let untyped := handlers.any fun | .mk none _ _ => true | _ => false
    seqAll [
      .createLocal "__try_state", .createLocal "__try_retval", .createLocal "__try_exc",
      .tryBody (!finalbody.isEmpty) (generateBody self body),
      .call, callIf handlers.isEmpty,
      visitHandlers self handlers, callIf (!handlers.isEmpty && !untyped),
      generateBody self orelse, generateBody self finalbody,
      if !finalbody.isEmpty && bodyFallsThrough finalbody then .dispatch else .skip]
  | .with items body =>
    let perItem (calls : Nat) := seqAll (items.map fun _ => seqAll (List.replicate calls .call))
    seqAll [
      seqAll (items.map (enterItem attach self)),
      .createLocal "__with_state", .createLocal "__with_retval", .createLocal "__with_exc_obj",
      .tryBody false (generateBody self body),
      -- the landing pad with its `__exit__` calls, then those of the normal exit
      .call, perItem 7, perItem 5]

/-- `generate_body`: statements after a terminator are not visited. -/
def generateBody (self : String) : List Stmt → Skeleton
  | [] => .skip
  | s :: rest => if s.terminates then visitStmt self s else .seq (visitStmt self s) (generateBody self rest)

def visitHandler (self : String) : Handler → Skeleton
  | .mk type name body =>
    seqAll [
      optional (type.map fun e => .seq (visitExpr attach self e).value .call),
      optional (name.map .store),
      generateBody self body, callIf (bodyFallsThrough body)]

def visitHandlers (self : String) : List Handler → Skeleton
  | [] => .skip
  | h :: hs => .seq (visitHandler self h) (visitHandlers self hs)

end

end Expressions

end Pylang.Front
