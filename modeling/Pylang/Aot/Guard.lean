/-
When the compiled code does what Python prescribes, as a condition on the
Python run: how each statement that is executed lies in the loops and `try`
bodies around it, and how the parts of a `try` end.
-/
import Pylang.Aot.Ast

namespace Pylang.Aot

/-- Where a statement lies: in a loop body, in the body of a `try` with `finally`, in such a body inside the innermost
loop, and in a loop body or the body of any `try` or `with`. -/
structure Nest where
  inLoop : Bool
  inFinally : Bool
  inFinallyInLoop : Bool
  enclosed : Bool
deriving DecidableEq

namespace Nest

def top : Nest := ⟨false, false, false, false⟩

def loopBody (K : Nest) : Nest := ⟨true, K.inFinally, false, true⟩

def withBody (K : Nest) : Nest := { K with enclosed := true }

def tryBody (K : Nest) (hasFinally : Bool) : Nest := if hasFinally then ⟨K.inLoop, true, true, true⟩ else K.withBody

/-- A `break` or `continue` here finds its own loop: no `try` body with `finally` is around the loop, unless another
one inside the loop is nearer. -/
def loopExit (K : Nest) : Bool := K.inLoop && (!K.inFinally || K.inFinallyInLoop)

/-- A `finally` here may dispatch on the completion: none is pending, or no other `finally` lies on the way. -/
def dispatches (K : Nest) : Completion → Bool
  | .normal => true
  | .ret _ => !K.inFinally
  | .brk | .cont => K.inLoop && !K.inFinallyInLoop
  | .raise _ => false

end Nest

def Result.endsNormally (r : Result) : Bool :=
  match r with
  | (some .normal, _) => true
  | _ => false

/-- No part was left by an exception, `return`, `break` or `continue`. -/
def Result.stays (r : Result) : Bool := r.1.isNone || r.endsNormally

section
variable (ω : Env)

/-- What has to hold once the expression has a value. -/
def Expr.all (e : Expr) (t : Trace) (k : Value → Trace → Bool) : Bool :=
  match e.run ω t with
  | (.ok v, t) => k v t
  | (.raise _, _) => true

def loopGuarded (test : Expr) (body : Trace → Result) (bodyOk orelseOk : Trace → Bool) : Nat → Trace → Bool
  | 0, _ => true
  | n + 1, t => test.all ω t fun v t =>
    if truthy v then
      bodyOk t &&
        match body t with
        | (some .normal, t) | (some .cont, t) => loopGuarded test body bodyOk orelseOk n t
        | _ => true
    else orelseOk t

mutual

def Stmt.guarded (n : Nat) (K : Nest) : Stmt → Trace → Bool
  | .expr _, _ | .ret _, _ | .raise _ _, _ => true
  | .brk, _ | .cont, _ => K.loopExit
  | .ifS test body orelse, t => test.all ω t fun v t =>
    if truthy v then body.guarded n K t else orelse.guarded n K t
  | .whileS test body orelse, t =>
    loopGuarded ω test (body.eval ω n) (body.guarded n K.loopBody) (orelse.guarded n K) n t
  | .forS iter next target body orelse, t => iter.all ω t fun _ t =>
    loopGuarded ω ⟨[next], 0⟩ (fun t => (Expr.mk target 0).bind ω t fun _ t => body.eval ω n t)
      (fun t => (Expr.mk target 0).all ω t fun _ t => body.guarded n K.loopBody t) (orelse.guarded n K) n t
  | .tryS body handlers orelse final, t =>
    let hasFinally := !final.isEmpty
    body.guarded n (K.tryBody hasFinally) t &&
      (match body.eval ω n t with
      | (some .normal, t) => orelse.guarded n K t && (!hasFinally || (orelse.eval ω n t).stays)
      | (some (.raise x), t) => handlers.guarded n K hasFinally x t
      | _ => true) &&
      match tryParts (body.eval ω n) (orelse.eval ω n) (fun x => handlers.eval ω n x) t with
      | (some c, t) => !hasFinally || final.guarded n K t && (!(final.eval ω n t).endsNormally || K.dispatches c)
      | (none, _) => true
  | .withS enter body onExc _, t => enter.all ω t fun _ t =>
    body.guarded n K.withBody t &&
      match body.eval ω n t with
      | (some (.raise _), t) => onExc.all ω t fun v _ => truthy v
      | _ => true
  | .defS _ _ _, _ => !K.enclosed

def Body.guarded (n : Nat) (K : Nest) : Body → Trace → Bool
  | .nil, _ => true
  | .cons s rest, t =>
    s.guarded n K t &&
      match s.eval ω n t with
      | (some .normal, t) => rest.guarded n K t
      | _ => true

/-- Without `finally` a handler has to match; with it neither a type test nor a handler may be left. -/
def Handlers.guarded (n : Nat) (K : Nest) (hasFinally : Bool) : Handlers → Value → Trace → Bool
  | .nil, _, _ => hasFinally
  | .bare body, _, t => body.guarded n K t && (!hasFinally || (body.eval ω n t).stays)
  | .typed type bind body rest, x, t =>
    (!hasFinally || match type.run ω t with | (.raise _, _) => false | _ => true) &&
    type.all ω t fun v t =>
      if truthy v then
        (!hasFinally || ((Expr.mk bind 0).bind ω t fun _ t => body.eval ω n t).stays) &&
          (Expr.mk bind 0).all ω t fun _ t => body.guarded n K t
      else rest.guarded n K hasFinally x t

end

end

end Pylang.Aot
