/-
Emission with the state `PylangCodegen` keeps for the whole module: the stacks
of tries, loops and scopes and the emitter's unwind destination. Every block
and alloca is known by the LLVM function it belongs to, and an instruction that
takes one from this state records it against the function it is emitted into.
-/
import Pylang.Front.Skeleton

namespace Pylang.Front

inductive ScopeKind
  | module | function | «class»
  deriving DecidableEq

/-- A `comprehension` is pushed as a FUNCTION scope. -/
def BodyKind.scopeKind : BodyKind → ScopeKind
  | .class => .class
  | .function | .comprehension => .function

/-- An enclosing `ScopeContext`, as `find_local` reads it. LLVM functions are
numbered as they are created; 0 is the module's. -/
structure OuterScope where
  fn : Nat
  kind : ScopeKind
  locals : List String

/-- Where a node is emitted. -/
structure Env where
  fn : Nat
  kind : ScopeKind
  scope : Option SymbolMap
  outer : List OuterScope
  /-- The function of each `TryContext`, innermost first, and whether it has a `finally_bb`. -/
  tries : List (Nat × Bool)
  loops : List Nat
  /-- The function of the emitter's `m_unwind_dest`. -/
  unwind : Option Nat

/-- What emission changes: the current `ScopeContext` and the instructions so far. -/
structure Emitted where
  next : Nat
  locals : List String
  cells : List String
  frees : List String
  /-- The function an instruction is in, and the function of the block or alloca it refers to. -/
  refs : List (Nat × Nat)

namespace Env

def nearestFinallyTry (E : Env) : Option Nat := (E.tries.find? (·.2)).map (·.1)
def currentTry (E : Env) : Option Nat := E.tries.head?.map (·.1)
def currentLoop (E : Env) : Option Nat := E.loops.head?

/-- The scopes after the current one in `find_local`. -/
def findOuter (n : String) : List OuterScope → Option Nat
  | [] => none
  | s :: rest => if n ∈ s.locals then some s.fn else if s.kind = .function then none else findOuter n rest

/-- `find_local`: the search ends at the first FUNCTION scope. -/
def findLocal (E : Env) (locals : List String) (n : String) : Option Nat :=
  if n ∈ locals then some E.fn else if E.kind = .function then none else findOuter n E.outer

def visibility (E : Env) (n : String) : Option Visibility := E.scope.bind (·.visible n)

/-- The environment of a new body. Only `compile_comprehension_impl` resets the
unwind destination, and none of the three the stacks. -/
def enter (E : Env) (kind : BodyKind) (scope : Option SymbolMap) (σ : Emitted) : Env :=
  { fn := σ.next, kind := kind.scopeKind, scope := scope
    outer := ⟨E.fn, E.kind, σ.locals⟩ :: E.outer
    tries := E.tries, loops := E.loops
    unwind := if kind = .comprehension then none else E.unwind }

end Env

namespace Emitted

/-- An instruction in `E`'s function that refers to a block or alloca of `owner`. -/
def ref (σ : Emitted) (E : Env) (owner : Option Nat) : Emitted :=
  { σ with refs := owner.toList.map (E.fn, ·) ++ σ.refs }

/-- `emit_runtime_call`: an invoke when there is an unwind destination. -/
def runtimeCall (E : Env) (σ : Emitted) : Emitted := σ.ref E E.unwind

/-- `create_local`. -/
def createLocal (E : Env) (n : String) (σ : Emitted) : Emitted :=
  { σ.ref E (some E.fn) with locals := n :: σ.locals }

/-- `load_variable`. -/
def loadVariable (E : Env) (n : String) (σ : Emitted) : Emitted :=
  match E.visibility n, E.findLocal σ.locals n with
  | none, some o | some .local, some o => σ.ref E (some o)
  | some .cell, _ => if n ∈ σ.cells then (σ.ref E (some E.fn)).runtimeCall E else σ.runtimeCall E
  | some .free, _ => if n ∈ σ.frees then (σ.ref E (some E.fn)).runtimeCall E else σ.runtimeCall E
  | _, _ => σ.runtimeCall E

/-- `store_variable`. -/
def storeVariable (E : Env) (n : String) (σ : Emitted) : Emitted :=
  match E.visibility n, E.findLocal σ.locals n with
  | none, some o | some .local, some o => σ.ref E (some o)
  | some .local, none => (σ.createLocal E n).ref E (some E.fn)
  | some .cell, _ => if n ∈ σ.cells then (σ.ref E (some E.fn)).runtimeCall E else σ
  | some .free, _ => if n ∈ σ.frees then (σ.ref E (some E.fn)).runtimeCall E else σ
  | _, _ => σ.runtimeCall E

/-- `delete_variable`. -/
def deleteVariable (E : Env) (n : String) (σ : Emitted) : Emitted :=
  match (E.visibility n).getD .implicitGlobal, E.findLocal σ.locals n with
  | .local, some o => σ.ref E (some o)
  | .local, none | .cell, _ | .free, _ => σ
  | _, _ => σ.runtimeCall E

/-- The cell of a captured name: `find_cell`, `find_free_var` or `get_none`. -/
def captureVariable (E : Env) (n : String) (σ : Emitted) : Emitted :=
  if n ∈ σ.cells ++ σ.frees then σ.ref E (some E.fn) else σ.runtimeCall E

end Emitted

open Emitted

/-- The instructions emitted for a skeleton. -/
def emit (E : Env) : Skeleton → Emitted → Emitted
  | .skip, σ => σ
  | .seq a b, σ => emit E b (emit E a σ)
  | .call, σ => σ.runtimeCall E
  | .createLocal n, σ => σ.createLocal E n
  | .registerCell n, σ => { σ.createLocal E (n ++ ".cell") with cells := n :: σ.cells }
  | .registerFree n, σ => { σ.createLocal E (n ++ ".free") with frees := n :: σ.frees }
  | .load n, σ => σ.loadVariable E n
  | .store n, σ => σ.storeVariable E n
  | .delete n, σ => σ.deleteVariable E n
  | .capture n, σ => σ.captureVariable E n
  | .ret, σ => σ.ref E E.nearestFinallyTry
  | .loopExit, σ => match E.nearestFinallyTry with
    | some o => σ.ref E (some o)
    | none => σ.ref E E.currentLoop
  | .reraise, σ => (σ.ref E E.currentTry).runtimeCall E
  | .dispatch, σ => σ.ref E E.currentLoop
  | .tryBody hasFinally body, σ =>
    emit { E with tries := (E.fn, hasFinally) :: E.tries, unwind := some E.fn } body σ
  | .loopBody body, σ => emit { E with loops := E.fn :: E.loops } body σ
  | .enter kind scope body, σ =>
    let inner := emit (E.enter kind scope σ) body
      { next := σ.next + 1, locals := [], cells := [], frees := [], refs := σ.refs }
    { σ with next := inner.next, refs := inner.refs }

/-- `PylangCodegen::compile` up to the verifier: the module's function and all
that are created in it. -/
def compileModule (attach : Loc → Option SymbolMap) (scope : Option SymbolMap) (body : List Stmt) :
    List (Nat × Nat) :=
  (emit { fn := 0, kind := .module, scope := scope, outer := [], tries := [], loops := [], unwind := none }
    (.seq .call (generateBody attach "" body))
    { next := 1, locals := [], cells := [], frees := [], refs := [] }).refs

/-- Every instruction refers to blocks and allocas of the function it is in. -/
def StaysInFunction (refs : List (Nat × Nat)) : Prop := ∀ r ∈ refs, r.1 = r.2

instance (refs : List (Nat × Nat)) : Decidable (StaysInFunction refs) :=
  inferInstanceAs (Decidable (∀ r ∈ refs, r.1 = r.2))

end Pylang.Front
