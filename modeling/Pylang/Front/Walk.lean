/-
What `VariablesResolver` does with a module, in order: the operations on the
symbols of the scope it is in, and the scopes it creates. Bodies are queued, so
a scope's whole body is visited before any body inside it.
-/
import Pylang.Front.Ast
import Mathlib.Tactic.Tauto

namespace Pylang.Front

/-- `VariablesResolver::Scope::Type`. -/
inductive ScopeType
  | module | function | «class» | closure
  deriving DecidableEq

inductive NodeKind
  | function | lambda | «class» | comp (kind : CompKind)
  deriving DecidableEq

/-- The node a scope is created for. -/
structure Node where
  kind : NodeKind
  name : String
  loc : Loc
  deriving DecidableEq

/-- An operation on the current scope. -/
inductive Op
  /-- `visit(Argument)`. -/
  | param (n : String)
  /-- A target of a comprehension. -/
  | target (n : String)
  /-- `store`: a name that is assigned, defined or imported. -/
  | store (n : String)
  /-- `store` of the name of a comprehension's function. -/
  | storeAnonymous (n : String)
  /-- `delete_`. -/
  | delete (n : String)
  | load (n : String)
  /-- The name of an `except` clause, which `visit(ExceptHandler)` loads. -/
  | handlerName (n : String)
  /-- The `__class__` cell of a new class scope. -/
  | classCell
  | «global» (n : String)
  | nonlocal (n : String)
  /-- A failed assertion, or a node that is not supported. -/
  | abort
  deriving DecidableEq

inductive Event
  | op (o : Op)
  /-- A scope is created: `eager` is done at once, `body` is queued. -/
  | scope (node : Node) (type : ScopeType) (eager : List Op) (body : List Event)

/-- The type of the scope of a function inside a scope of the given type. -/
def functionType : ScopeType → ScopeType
  | .function | .closure | .class => .closure
  | .module => .function

/-- The same for lambdas and comprehensions. -/
def anonymousType : ScopeType → ScopeType
  | .function | .closure => .closure
  | .class | .module => .function

def CompKind.name : CompKind → String
  | .listComp => "<listcomp>"
  | .setComp => "<setcomp>"
  | .dictComp => "<dictcomp>"
  | .generatorExp => "<genexpr>"

/-- `visit(Arguments)`. -/
def Parameters.events (p : Parameters) : List Event :=
  (p.posonlyargs ++ p.args ++ p.kwonlyargs ++ p.vararg.toList ++ p.kwarg.toList).map fun n => .op (.param n)

/-- A node that is visited twice: a scope that is created again fails the
assertion that its key is new. -/
def visitTwice (events : List Event) : List Event :=
  events ++ if events.any (fun | .scope .. => true | .op _ => false) then [.op .abort] else events

/-- The events of an expression in LOAD context, and as a target. -/
structure Walked where
  load : List Event
  target : (String → Op) → List Event

/-- `visit(Comprehension)` on its target. -/
def compTarget : Expr → List Event
  | .name n => [.op (.target n)]
  | .tuple elements => elements.map fun
    | .name n => .op (.target n)
    | _ => .op .abort
  | _ => [.op .abort]

/-- `visit(Keyword)`: a name is loaded for the keyword itself. -/
def keywordEvents : Option String → Expr → List Event → List Event
  | some arg, _, value => .op (.load arg) :: value
  | none, .name n, value => .op (.load n) :: value
  -- of an attribute only the object is visited first, which has all its events
  | none, _, value => visitTwice value

def keywordsEvents : List (Option String) → List Expr → List (List Event) → List Event
  | arg :: args, e :: es, v :: vs => keywordEvents arg e v ++ keywordsEvents args es vs
  | _, _, _ => []

def interleave : List (List Event) → List (List Event) → List Event
  | k :: ks, v :: vs => k ++ v ++ interleave ks vs
  | _, _ => []

mutual

/-- An expression visited in a scope of type `caller`. -/
def walkExpr (caller : ScopeType) : Expr → Walked
  | .constant _ => plain []
  | .name n => { load := [.op (.load n)], target := fun mk => [.op (mk n)] }
  | .binary lhs rhs => plain ((walkExpr caller lhs).load ++ (walkExpr caller rhs).load)
  | .unary _ operand => plain (walkExpr caller operand).load
  | .compare lhs _ comparators => plain ((walkExpr caller lhs).load ++ (walkExprs caller comparators).flatten)
  | .boolOp _ values => plain (walkExprs caller values).flatten
  | .call function args names keywords =>
    plain ((walkExpr caller function).load ++ (walkExprs caller args).flatten ++
      keywordsEvents names keywords (walkExprs caller keywords))
  | .attribute value _ => plain (walkExpr caller value).load
  | .subscript value key => plain ((walkExpr caller key).load ++ (walkExpr caller value).load)
  | .slice value lower upper step =>
    plain ((walkExpr caller lower).load ++ (walkExpr caller upper).load ++ (walkExpr caller step).load ++
      (walkExpr caller value).load)
  | .ifExpr test body orelse =>
    plain ((walkExpr caller test).load ++ (walkExpr caller body).load ++ (walkExpr caller orelse).load)
  | .list elements | .tuple elements =>
    { load := (walkExprs caller elements).flatten, target := fun mk => walkTargets caller elements mk }
  | .set elements => plain (walkExprs caller elements).flatten
  | .dict keys values => plain (interleave (walkExprs caller keys) (walkExprs caller values))
  | .starred value => { load := (walkExpr caller value).load, target := (walkExpr caller value).target }
  | .namedExpr target value => plain ((walkExpr caller value).load ++ [.op (.store target)])
  | .lambda loc params defaults kwDefaults body =>
    let type := anonymousType caller
    plain ((walkExprs caller defaults).flatten ++ (walkExprs caller kwDefaults).flatten ++
      [.scope ⟨.lambda, "<lambda>", loc⟩ type [] (params.events ++ (walkExpr type body).load)])
  | .comp kind loc elts generators =>
    let type := anonymousType caller
    plain (.op (.storeAnonymous kind.name) :: walkIters caller generators ++
      [.scope ⟨.comp kind, kind.name, loc⟩ type []
        (walkGenerators type generators ++ (walkExprs type elts).flatten)])
  | .unsupported operands => plain (walkExprs caller operands).flatten
where
  plain (events : List Event) : Walked := { load := events, target := fun _ => events }

def walkExprs (caller : ScopeType) : List Expr → List (List Event)
  | [] => []
  | e :: es => (walkExpr caller e).load :: walkExprs caller es

def walkTargets (caller : ScopeType) : List Expr → (String → Op) → List Event
  | [], _ => []
  | e :: es, mk => (walkExpr caller e).target mk ++ walkTargets caller es mk

/-- The iterables of all generators, in the scope around the comprehension. -/
def walkIters (caller : ScopeType) : List Generator → List Event
  | [] => []
  | .mk _ iter _ :: gs => (walkExpr caller iter).load ++ walkIters caller gs

/-- `visit(Comprehension)`. -/
def walkGenerators (caller : ScopeType) : List Generator → List Event
  | [] => []
  | .mk target _ ifs :: gs => compTarget target ++ (walkExprs caller ifs).flatten ++ walkGenerators caller gs

end

def walkAll (caller : ScopeType) (es : List Expr) : List Event := (walkExprs caller es).flatten

def walkStores (caller : ScopeType) (targets : List Expr) : List Event := walkTargets caller targets .store

mutual

/-- A statement visited in a scope of type `caller`. -/
def walkStmt (caller : ScopeType) : Stmt → List Event
  | .expression value => (walkExpr caller value).load
  | .assign targets value => (walkExpr caller value).load ++ walkStores caller targets
  | .augAssign target value => (walkExpr caller target).target .store ++ (walkExpr caller value).load
  | .return value => walkAll caller value.toList
  | .delete targets => walkTargets caller targets .delete
  | .if test body orelse | .while test body orelse =>
    (walkExpr caller test).load ++ walkStmts caller body ++ walkStmts caller orelse
  | .for target iter body orelse =>
    (walkExpr caller iter).load ++ (walkExpr caller target).target .store ++
      walkStmts caller body ++ walkStmts caller orelse
  | .break | .continue | .pass => []
  | .functionDef name loc params _ returns defaults kwDefaults body decorators =>
    let type := functionType caller
    walkAll caller decorators ++ [.op (.store name)] ++ walkAll caller returns.toList ++
      walkAll caller defaults ++ walkAll caller kwDefaults ++
      [.scope ⟨.function, name, loc⟩ type [] (params.events ++ walkStmts type body)]
  | .classDef name loc bases names keywords body decorators =>
    walkAll caller decorators ++ [.op (.store name)] ++ walkAll caller bases ++
      keywordsEvents names keywords (walkExprs caller keywords) ++
      [.scope ⟨.class, name, loc⟩ .class
        [.classCell, .load "__name__", .store "__module__", .store "__qualname__"]
        (walkStmts .class body)]
  | .import stored | .importFrom stored => stored.map fun n => .op (.store n)
  | .raise exception cause => walkAll caller exception.toList ++ walkAll caller cause.toList
  | .assert test msg => (walkExpr caller test).load ++ walkAll caller msg.toList
  | .global names => names.map fun n => .op (.global n)
  | .nonlocal names => names.map fun n => .op (.nonlocal n)
  | .try body handlers orelse finalbody =>
    walkStmts caller body ++ walkHandlers caller handlers ++ walkStmts caller finalbody ++
      walkStmts caller orelse
  | .with items body =>
    items.flatMap (fun i => (walkExpr caller i.1).load ++ walkStores caller i.2.toList) ++
      walkStmts caller body

def walkStmts (caller : ScopeType) : List Stmt → List Event
  | [] => []
  | s :: ss => walkStmt caller s ++ walkStmts caller ss

def walkHandler (caller : ScopeType) : Handler → List Event
  | .mk type name body =>
    (name.toList.map fun n => .op (.handlerName n)) ++ walkAll caller type.toList ++ walkStmts caller body

def walkHandlers (caller : ScopeType) : List Handler → List Event
  | [] => []
  | h :: hs => walkHandler caller h ++ walkHandlers caller hs

end

/-- The events of a module, in its own scope. -/
def walkModule (body : List Stmt) : List Event := .op (.store "__name__") :: walkStmts .module body

/-! ### The order of the visit -/

/-- A scope: its position among the scopes of its parent and its type, and the
same of the scopes around it, the module last. -/
abbrev ScopeId := List (Nat × ScopeType)

def moduleId : ScopeId := [(0, .module)]

/-- What happens while the queue holds the bodies of one depth, merged with
what happens at the depths below. -/
def mergeLevels {α : Type} : List (List α) → List (List α) → List (List α)
  | a :: as, b :: bs => (a ++ b) :: mergeLevels as bs
  | as, [] => as
  | [], bs => bs

/-- The number of scopes an event creates. -/
def Event.scopes : Event → Nat
  | .op _ => 0
  | .scope .. => 1

mutual

/-- The operations of an event by depth; a scope it creates is the `k`-th. -/
def eventLevels (id : ScopeId) (k : Nat) : Event → List (List (ScopeId × Op))
  | .op o => [[(id, o)]]
  | .scope _ type eager body =>
    let inner := (k, type) :: id
    eager.map (inner, ·) :: levels inner 0 body

def levels (id : ScopeId) (k : Nat) : List Event → List (List (ScopeId × Op))
  | [] => [[]]
  | e :: rest => mergeLevels (eventLevels id k e) (levels id (k + e.scopes) rest)

end

/-- The operations of the whole visit. -/
def resolverRun (body : List Stmt) : List (ScopeId × Op) := (levels moduleId 0 (walkModule body)).flatten

theorem mem_flatten_mergeLevels {α : Type} {x : α} : ∀ {as bs : List (List α)},
    x ∈ (mergeLevels as bs).flatten ↔ x ∈ as.flatten ∨ x ∈ bs.flatten
  | [], [] => by simp [mergeLevels]
  | [], b :: bs => by simp [mergeLevels]
  | a :: as, [] => by simp [mergeLevels]
  | a :: as, b :: bs => by
    simp only [mergeLevels, List.flatten_cons, List.mem_append, mem_flatten_mergeLevels]
    tauto

end Pylang.Front
