/-
The AOT code generator: `PylangCodegen`'s visitors for the statements that
decide control flow, with the two stacks of `CodegenContext` they consult and
the unwind destination of `IREmitter`.

A basic block is a number and a list of instructions; a block number is
reserved for an `else` or `finally` block that the source creates only when
there is one. The allocas of one `try` (`__try_state`, `__try_retval`,
`__try_lp`) are the fields of one slot; `exc_alloca`, read only to find the
operand of a runtime call, is left out, as are all operands. A `with` keeps its
`__with_exc` in the state field of its own slot.
-/
import Pylang.Aot.Ast
import Mathlib.Logic.Function.Basic

namespace Pylang.Aot

/-- The runtime functions called: one that works for the program, the one that gives `None`, `rt_raise`, and the two of
the C++ ABI. -/
inductive Rt where
  | call (c : Call)
  | none
  | raise (c : Call)
  | catchBegin (slot : Nat)
  | catchEnd
deriving DecidableEq

/-- `condBr` tests the last value, `condState` and `switch` the state word of a slot; `resume` loads the saved
landing-pad token first. -/
inductive Instr where
  | const (v : Value)
  | call (f : Rt)
  | invoke (f : Rt) (normal unwind : Nat)
  | storeState (slot : Nat) (n : Nat)
  | storeRet (slot : Nat)
  | loadRet (slot : Nat)
  | storeLp (slot : Nat)
  | br (b : Nat)
  | condBr (ifTrue ifFalse : Nat)
  | condState (slot : Nat) (ifNonzero ifZero : Nat)
  | switch (slot : Nat) (default : Nat) (cases : List (Nat × Nat))
  | ret
  | resume (slot : Nat)
  | unreachable
deriving DecidableEq

def Instr.isTerminator : Instr → Bool
  | .const _ | .call _ | .storeState _ _ | .storeRet _ | .loadRet _ | .storeLp _ => false
  | .invoke _ _ _ | .br _ | .condBr _ _ | .condState _ _ _ | .switch _ _ _ | .ret | .resume _ | .unreachable => true

/-- `finallyBb` is null for a `try` without `finally` and for a `with`. -/
structure TryContext where
  finallyBb : Option Nat
  slot : Nat
deriving DecidableEq

structure LoopContext where
  breakBb : Nat
  continueBb : Nat
deriving DecidableEq

/-- `m_tries` and `m_loops`, innermost first, and `m_unwind_dest`. -/
structure Ctx where
  tries : List TryContext
  loops : List LoopContext
  unwindDest : Option Nat
deriving DecidableEq

namespace Ctx

def top : Ctx := ⟨[], [], none⟩

def pushLoop (ctx : Ctx) (l : LoopContext) : Ctx := { ctx with loops := l :: ctx.loops }

/-- `push_try`, with the emitter's unwind destination set to the landing pad. -/
def pushTry (ctx : Ctx) (t : TryContext) (landingpad : Nat) : Ctx :=
  { ctx with tries := t :: ctx.tries, unwindDest := some landingpad }

def currentLoop (ctx : Ctx) : Option LoopContext := ctx.loops.head?

/-- The block and the slot of the nearest `try` with a `finally`, whatever loops lie between. -/
def nearestFinallyTry (ctx : Ctx) : Option (Nat × Nat) :=
  ctx.tries.findSome? fun t => t.finallyBb.map (·, t.slot)

end Ctx

/-! ## The builder -/

structure Builder where
  next : Nat
  slots : Nat
  cur : Nat
  code : Nat → List Instr

namespace Builder

def entry : Builder := ⟨1, 0, 0, fun _ => []⟩

def emit (B : Builder) (i : Instr) : Builder :=
  { B with code := Function.update B.code B.cur (B.code B.cur ++ [i]) }

def createBlocks (B : Builder) (k : Nat) : Builder := { B with next := B.next + k }

def createSlot (B : Builder) : Builder := { B with slots := B.slots + 1 }

def setInsertPoint (B : Builder) (b : Nat) : Builder := { B with cur := b }

/-- `GetInsertBlock()->getTerminator()`. -/
def terminated (B : Builder) : Bool := (B.code B.cur).getLast?.any Instr.isTerminator

def brIfOpen (B : Builder) (b : Nat) : Builder := if B.terminated then B else B.emit (.br b)

end Builder

/-- `emit_runtime_call`: an `invoke` and its continuation block wherever an unwind destination is set. -/
def emitRuntimeCall (ctx : Ctx) (f : Rt) (B : Builder) : Builder :=
  match ctx.unwindDest with
  | some u => ((B.createBlocks 1).emit (.invoke f B.next u)).setInsertPoint B.next
  | none => B.emit (.call f)

def genCalls (ctx : Ctx) : List Call → Builder → Builder
  | [], B => B
  | c :: cs, B => genCalls ctx cs (emitRuntimeCall ctx (.call c) B)

def genExpr (ctx : Ctx) (e : Expr) (B : Builder) : Builder := genCalls ctx e.calls (B.emit (.const e.const))

/-! ## The visitors

`gen` stands for the code of a part: the recursion is tied below. -/

/-- A block of its own that goes on to `after`. -/
def genBlock (gen : Builder → Option Builder) (bb after : Nat) (B : Builder) : Option Builder :=
  (gen (B.setInsertPoint bb)).map (·.brIfOpen after)

/-- An `else` block, where there is one. -/
def genOrelse (present : Bool) (gen : Builder → Option Builder) (bb after : Nat) (B : Builder) : Option Builder :=
  if present then genBlock gen bb after B else some B

def genReturn (ctx : Ctx) (e : Expr) (B : Builder) : Builder :=
  let B := genExpr ctx e B
  match ctx.nearestFinallyTry with
  | some (finallyBb, slot) => ((B.emit (.storeRet slot)).emit (.storeState slot 2)).emit (.br finallyBb)
  | none => B.emit .ret

/-- What `break` and `continue` share: the state word, and which of the loop's blocks. `ASSERT(loop)` fails as `none`. -/
def genLoopExit (state : Nat) (target : LoopContext → Nat) (ctx : Ctx) (B : Builder) : Option Builder :=
  match ctx.nearestFinallyTry with
  | some (finallyBb, slot) => some ((B.emit (.storeState slot state)).emit (.br finallyBb))
  | none => ctx.currentLoop.map fun l => B.emit (.br (target l))

def genBreak (ctx : Ctx) (B : Builder) : Option Builder := genLoopExit 3 LoopContext.breakBb ctx B

def genContinue (ctx : Ctx) (B : Builder) : Option Builder := genLoopExit 4 LoopContext.continueBb ctx B

def genRaise (ctx : Ctx) (e : Expr) (c : Call) (B : Builder) : Builder :=
  let B := emitRuntimeCall ctx (.raise c) (genExpr ctx e B)
  let B := B.emit .unreachable
  (B.createBlocks 1).setInsertPoint B.next

def genIf (ctx : Ctx) (test : Expr) (genThen : Builder → Option Builder) (hasElse : Bool)
    (genElse : Builder → Option Builder) (B : Builder) : Option Builder := do
  let B := genExpr ctx test B
  let thenBb := B.next
  let elseBb := B.next + 1
  let mergeBb := B.next + 2
  let B := (B.createBlocks 3).emit (.condBr thenBb (bif hasElse then elseBb else mergeBb))
  let B ← genBlock genThen thenBb mergeBb B
  let B ← genOrelse hasElse genElse elseBb mergeBb B
  some (B.setInsertPoint mergeBb)

/-- A loop: `test` in the condition block, then the stores to the target and the body inside the loop's context. -/
def genLoop (ctx : Ctx) (test : Expr) (target : List Call) (genBody : Ctx → Builder → Option Builder) (hasElse : Bool)
    (genElse : Builder → Option Builder) (B : Builder) : Option Builder := do
  let condBb := B.next
  let bodyBb := B.next + 1
  let elseBb := B.next + 2
  let mergeBb := B.next + 3
  let B := ((B.createBlocks 4).emit (.br condBb)).setInsertPoint condBb
  let B := (genExpr ctx test B).emit (.condBr bodyBb (bif hasElse then elseBb else mergeBb))
  let inner := ctx.pushLoop ⟨mergeBb, condBb⟩
  let B ← genBlock (fun B => genBody inner (genExpr inner ⟨target, 0⟩ B)) bodyBb condBb B
  let B ← genOrelse hasElse genElse elseBb mergeBb B
  some (B.setInsertPoint mergeBb)

def genWhile (ctx : Ctx) (test : Expr) (genBody : Ctx → Builder → Option Builder) (hasElse : Bool)
    (genElse : Builder → Option Builder) (B : Builder) : Option Builder :=
  genLoop ctx test [] genBody hasElse genElse B

def genFor (ctx : Ctx) (iter : Expr) (next : Call) (target : List Call) (genBody : Ctx → Builder → Option Builder)
    (hasElse : Bool) (genElse : Builder → Option Builder) (B : Builder) : Option Builder :=
  genLoop ctx ⟨[next], 0⟩ target genBody hasElse genElse (genExpr ctx iter B)

/-- The cases of the switch after a `finally` body: 3 and 4 only where there is a current loop. -/
def dispatchCases (ctx : Ctx) (mergeBb reraiseBb returnBb : Nat) : List (Nat × Nat) :=
  [(0, mergeBb), (1, reraiseBb), (2, returnBb)] ++
    match ctx.currentLoop with
    | some _ => [(3, returnBb + 1), (4, returnBb + 2)]
    | none => []

/-- `emit_finally_dispatch`, in the context of the `try` statement itself. -/
def emitFinallyDispatch (ctx : Ctx) (slot : Nat) (mergeBb reraiseBb : Nat) (B : Builder) : Builder :=
  let returnBb := B.next
  let breakBb := B.next + 1
  let continueBb := B.next + 2
  let B := (B.createBlocks 3).emit (.switch slot mergeBb (dispatchCases ctx mergeBb reraiseBb returnBb))
  let B := ((B.setInsertPoint returnBb).emit (.loadRet slot)).emit .ret
  match ctx.currentLoop with
  | some l =>
    let B := (B.setInsertPoint breakBb).emit (.br l.breakBb)
    (B.setInsertPoint continueBb).emit (.br l.continueBb)
  | none => B

/-- The landing pad up to the dispatch: the token is saved, the exception caught, the state set to 1. -/
def genLandingPad (ctx : Ctx) (slot : Nat) (B : Builder) : Builder :=
  (emitRuntimeCall ctx (.catchBegin slot) (B.emit (.storeLp slot))).emit (.storeState slot 1)

/-- No handler matched: on to the `finally` with state 1, or re-raise the token. -/
def genNoMatch (ctx : Ctx) (finallyBb : Option Nat) (slot : Nat) (B : Builder) : Builder :=
  let B := emitRuntimeCall ctx .catchEnd B
  match finallyBb with
  | some f => B.emit (.br f)
  | none => B.emit (.resume slot)

/-- A handler's body; falling off its end ends the catch and clears the state. -/
def genHandlerBody (ctx : Ctx) (slot : Nat) (after : Nat) (bind : List Call) (gen : Builder → Option Builder)
    (bb : Nat) (B : Builder) : Option Builder :=
  (gen (genExpr ctx ⟨bind, 0⟩ (B.setInsertPoint bb))).map fun B =>
    if B.terminated then B
    else ((emitRuntimeCall ctx .catchEnd B).emit (.storeState slot 0)).emit (.br after)

/-- The `finally` block; falling off its end dispatches on the state. -/
def genFinally (ctx : Ctx) (present : Bool) (slot : Nat) (gen : Builder → Option Builder)
    (finallyBb mergeBb reraiseBb : Nat) (B : Builder) : Option Builder :=
  if present then
    (gen (B.setInsertPoint finallyBb)).map fun B =>
      if B.terminated then B else emitFinallyDispatch ctx slot mergeBb reraiseBb B
  else some B

/-- The body of a `try`, the only part generated with the `try` on the stacks. -/
def genTryBody (ctx : Ctx) (T : TryContext) (landingpadBb : Nat) (gen : Ctx → Builder → Option Builder)
    (after : Nat) (B : Builder) : Option Builder :=
  (gen (ctx.pushTry T landingpadBb) B).map fun B =>
    if B.terminated then B else (B.emit (.storeState T.slot 0)).emit (.br after)

/-- `genHandlers` starts at the end of the block that dispatches. -/
def genTry (ctx : Ctx) (genBody : Ctx → Builder → Option Builder) (hasHandlers : Bool)
    (genHandlers : Nat → Option Nat → Nat → Builder → Option Builder) (hasElse : Bool)
    (genElse : Builder → Option Builder) (hasFinally : Bool) (genFinal : Builder → Option Builder) (B : Builder) :
    Option Builder := do
  let slot := B.slots
  let bodyBb := B.next
  let landingpadBb := B.next + 1
  let dispatchBb := B.next + 2
  let elseBb := B.next + 3
  let finallyBb := B.next + 4
  let reraiseBb := B.next + 5
  let mergeBb := B.next + 6
  let finally? := bif hasFinally then some finallyBb else none
  let after := finally?.getD mergeBb
  let B := (B.createBlocks 7).createSlot.emit (.storeState slot 0)
  let B := (B.emit (.br bodyBb)).setInsertPoint bodyBb
  let B ← genTryBody ctx ⟨finally?, slot⟩ landingpadBb genBody (bif hasElse then elseBb else after) B
  let B := genLandingPad ctx slot (B.setInsertPoint landingpadBb)
  let B := bif hasHandlers then (B.emit (.br dispatchBb)).setInsertPoint dispatchBb else B
  let B ← genHandlers slot finally? after B
  let B ← genOrelse hasElse genElse elseBb after B
  let B ← genFinally ctx hasFinally slot genFinal finallyBb mergeBb reraiseBb B
  let B := (B.setInsertPoint reraiseBb).emit (.resume slot)
  some (B.setInsertPoint mergeBb)

/-- The landing pad of a `with`: `__exit__` with the exception, then on if it was suppressed, else re-raised. -/
def genWithLandingPad (ctx : Ctx) (slot mergeBb : Nat) (onExc : Expr) (B : Builder) : Builder :=
  let B := genExpr ctx onExc (genLandingPad ctx slot B)
  let reraiseBb := B.next
  let suppressedBb := B.next + 1
  let B := (B.createBlocks 2).emit (.condBr suppressedBb reraiseBb)
  let B := (emitRuntimeCall ctx .catchEnd (B.setInsertPoint suppressedBb)).emit (.br mergeBb)
  (emitRuntimeCall ctx .catchEnd (B.setInsertPoint reraiseBb)).emit (.resume slot)

/-- `__exit__(None, None, None)`, unless `__with_exc` is set. -/
def genWithNormalExit (ctx : Ctx) (slot mergeBb : Nat) (onExit : Expr) (B : Builder) : Builder :=
  let callExitBb := B.next
  let skipExitBb := B.next + 1
  let B := (B.createBlocks 2).emit (.condState slot skipExitBb callExitBb)
  let B := (genExpr ctx onExit (B.setInsertPoint callExitBb)).emit (.br skipExitBb)
  (B.setInsertPoint skipExitBb).emit (.br mergeBb)

/-- One item; `m_unwind_dest` is the landing pad only while the body is generated. -/
def genWith (ctx : Ctx) (enter : Expr) (genBody : Ctx → Builder → Option Builder) (onExc onExit : Expr) (B : Builder) :
    Option Builder := do
  let B := genExpr ctx enter B
  let slot := B.slots
  let bodyBb := B.next
  let landingpadBb := B.next + 1
  let normalExitBb := B.next + 2
  let mergeBb := B.next + 3
  let B := ((B.createBlocks 4).createSlot.emit (.storeState slot 0)).emit (.br bodyBb)
  let B ← genBlock (genBody (ctx.pushTry ⟨none, slot⟩ landingpadBb)) bodyBb normalExitBb B
  let B := genWithLandingPad ctx slot mergeBb onExc (B.setInsertPoint landingpadBb)
  let B := genWithNormalExit ctx slot mergeBb onExit (B.setInsertPoint normalExitBb)
  some (B.setInsertPoint mergeBb)

/-- `compile_function_body`, and `compile_class_body`: a function of its own, whose entry is the next block. The two stacks
and the unwind destination stay those of the code around the definition. -/
def compileFunctionBody (ctx : Ctx) (gen : Ctx → Builder → Option Builder) (B : Builder) : Option Builder :=
  (gen ctx ((B.createBlocks 1).setInsertPoint B.next)).map fun B =>
    if B.terminated then B else (emitRuntimeCall ctx .none B).emit .ret

/-- The defaults are evaluated where the definition is; behind its function the insertion point is restored. -/
def genDef (ctx : Ctx) (defaults : Expr) (gen : Ctx → Builder → Option Builder) (make : Expr) (B : Builder) :
    Option Builder :=
  let B := genExpr ctx defaults B
  (compileFunctionBody ctx gen B).map fun B' => genExpr ctx make (B'.setInsertPoint B.cur)

mutual

def Stmt.gen (ctx : Ctx) : Stmt → Builder → Option Builder
  | .expr e, B => some (genExpr ctx e B)
  | .ret e, B => some (genReturn ctx e B)
  | .raise e c, B => some (genRaise ctx e c B)
  | .brk, B => genBreak ctx B
  | .cont, B => genContinue ctx B
  | .ifS test body orelse, B => genIf ctx test (body.gen ctx) (!orelse.isEmpty) (orelse.gen ctx) B
  | .whileS test body orelse, B => genWhile ctx test (fun c => body.gen c) (!orelse.isEmpty) (orelse.gen ctx) B
  | .forS iter next target body orelse, B =>
    genFor ctx iter next target (fun c => body.gen c) (!orelse.isEmpty) (orelse.gen ctx) B
  | .tryS body handlers orelse final, B =>
    genTry ctx (fun c => body.gen c) (!handlers.isEmpty) (fun slot f after => handlers.gen ctx slot f after)
      (!orelse.isEmpty) (orelse.gen ctx) (!final.isEmpty) (final.gen ctx) B
  | .withS enter body onExc onExit, B => genWith ctx enter (fun c => body.gen c) onExc onExit B
  | .defS defaults body make, B => genDef ctx defaults (fun c => body.gen c) make B

/-- `generate_body` stops at the first statement that left the block terminated. -/
def Body.gen (ctx : Ctx) : Body → Builder → Option Builder
  | .nil, B => some B
  | .cons s rest, B => if B.terminated then some B else (s.gen ctx B).bind (rest.gen ctx)

/-- The chain of type tests, each in the block the one before falls through to. -/
def Handlers.gen (ctx : Ctx) (slot : Nat) (finally? : Option Nat) (after : Nat) :
    Handlers → Builder → Option Builder
  | .nil, B => some (genNoMatch ctx finally? slot B)
  | .bare body, B => genHandlerBody ctx slot after [] (body.gen ctx) B.next ((B.createBlocks 1).emit (.br B.next))
  | .typed type bind body rest, B =>
    let bodyBb := B.next
    let nextBb := B.next + 1
    let B := (genExpr ctx type (B.createBlocks 2)).emit (.condBr bodyBb nextBb)
    (genHandlerBody ctx slot after bind (body.gen ctx) bodyBb B).bind fun B =>
      rest.gen ctx slot finally? after (B.setInsertPoint nextBb)

end

/-- A function whose definition stands in the context `ctx`. -/
def genFunction (ctx : Ctx) (f : Body) (B : Builder) : Option Builder := compileFunctionBody ctx (fun c => f.gen c) B

end Pylang.Aot
