/-
The statements the AOT code generator compiles, as far as its control flow
depends on them, and what Python prescribes for them.

An expression is the runtime calls it makes, in order, and whatever its value
is. What the calls return or raise is the environment's to say, from
everything that was called before; so the list of calls made is all there is
to observe of a run, and two runs with the same list got the same answers.

`return`, `break` and `continue` leave a `with` body here without calling
`__exit__`, as the compiled code has it: the statement of this development is
about `finally`.
-/
import Mathlib.Tactic.Common

namespace Pylang.Aot

abbrev Value := Nat
abbrev Call := Nat

/-- The runtime calls made so far, the last one first. -/
abbrev Trace := List Call

inductive Outcome where
  | ok (v : Value)
  | raise (e : Value)
deriving DecidableEq

/-- What the runtime answers. `thrown` is the exception a `raise` statement ends in. -/
structure Env where
  outcome : Trace → Call → Outcome
  thrown : Trace → Call → Value

/-- `const` is the value of an expression that calls nothing. -/
structure Expr where
  calls : List Call
  const : Value := 0
deriving DecidableEq

def truthy (v : Value) : Bool := v != 0

mutual

inductive Stmt where
  | expr (e : Expr)
  | ret (e : Expr)
  | raise (e : Expr) (c : Call)
  | brk
  | cont
  | ifS (test : Expr) (body orelse : Body)
  | whileS (test : Expr) (body orelse : Body)
  /-- `next` is the call that advances the iterator and says whether there was an item. -/
  | forS (iter : Expr) (next : Call) (target : List Call) (body orelse : Body)
  | tryS (body : Body) (handlers : Handlers) (orelse final : Body)
  /-- `onExc` is `__exit__` with the exception, its truth value included; `onExit` is `__exit__(None, None, None)`. -/
  | withS (enter : Expr) (body : Body) (onExc onExit : Expr)
  /-- The definition of a function or a class; a lambda stands in front of the statement it is part of. `body` is another
  function, which starts with the calls that bind its parameters; `make` makes the object from it and stores it. -/
  | defS (defaults : Expr) (body : Body) (make : Expr)

inductive Body where
  | nil
  | cons (s : Stmt) (rest : Body)

/-- A bare `except:` can only come last. `bind` is the store to the handler's name. -/
inductive Handlers where
  | nil
  | bare (body : Body)
  | typed (type : Expr) (bind : List Call) (body : Body) (rest : Handlers)

end

def Body.isEmpty : Body → Bool
  | .nil => true
  | .cons _ _ => false

def Handlers.isEmpty : Handlers → Bool
  | .nil => true
  | _ => false

/-- How a statement ends. -/
inductive Completion where
  | normal
  | ret (v : Value)
  | brk
  | cont
  | raise (e : Value)
deriving DecidableEq

/-- An end, or none within the fuel, and the calls made by then. -/
abbrev Result := Option Completion × Trace

/-- The rest of a list of statements runs after the first ends normally. -/
def Result.andThen (r : Result) (k : Trace → Result) : Result :=
  match r with
  | (some .normal, t) => k t
  | r => r

/-! ## What Python prescribes -/

section
variable (ω : Env)

def runCalls (v : Value) : List Call → Trace → Outcome × Trace
  | [], t => (.ok v, t)
  | c :: cs, t =>
    match ω.outcome t c with
    | .ok w => runCalls w cs (c :: t)
    | .raise e => (.raise e, c :: t)

def Expr.run (e : Expr) (t : Trace) : Outcome × Trace := runCalls ω e.const e.calls t

/-- The value of an expression, handed on. -/
def Expr.bind (e : Expr) (t : Trace) (k : Value → Trace → Result) : Result :=
  match e.run ω t with
  | (.ok v, t) => k v t
  | (.raise x, t) => (some (.raise x), t)

/-- A `while` or `for` loop that may go round `n` times. `orelse` runs when the test fails. -/
def loop (test : Expr) (body orelse : Trace → Result) : Nat → Trace → Result
  | 0, t => (none, t)
  | n + 1, t => test.bind ω t fun v t =>
    if truthy v then
      match body t with
      | (some .normal, t) | (some .cont, t) => loop test body orelse n t
      | (some .brk, t) => (some .normal, t)
      | r => r
    else orelse t

/-- `finally`: its body runs once, whichever way the rest ended, and that way is then taken again. -/
def finish (final : Trace → Result) (r : Result) : Result :=
  match r with
  | (none, t) => (none, t)
  | (some c, t) => (final t).andThen fun t => (some c, t)

/-- The body, then `else` or the handlers. -/
def tryParts (body orelse : Trace → Result) (handlers : Value → Trace → Result) (t : Trace) : Result :=
  match body t with
  | (some .normal, t) => orelse t
  | (some (.raise x), t) => handlers x t
  | r => r

/-- The body of a `with`, then `__exit__`. -/
def withParts (body : Trace → Result) (onExc onExit : Expr) (t : Trace) : Result :=
  match body t with
  | (some .normal, t) => onExit.bind ω t fun _ t => (some .normal, t)
  | (some (.raise x), t) => onExc.bind ω t fun v t => if truthy v then (some .normal, t) else (some (.raise x), t)
  | r => r

mutual

/-- Every loop may go round `n` times each time it is entered. -/
def Stmt.eval (n : Nat) : Stmt → Trace → Result
  | .expr e, t => e.bind ω t fun _ t => (some .normal, t)
  | .ret e, t => e.bind ω t fun v t => (some (.ret v), t)
  | .raise e c, t => e.bind ω t fun _ t => (some (.raise (ω.thrown t c)), c :: t)
  | .brk, t => (some .brk, t)
  | .cont, t => (some .cont, t)
  | .ifS test body orelse, t => test.bind ω t fun v t =>
    if truthy v then body.eval n t else orelse.eval n t
  | .whileS test body orelse, t => loop ω test (body.eval n) (orelse.eval n) n t
  | .forS iter next target body orelse, t => iter.bind ω t fun _ t =>
    loop ω ⟨[next], 0⟩ (fun t => (Expr.mk target 0).bind ω t fun _ t => body.eval n t) (orelse.eval n) n t
  | .tryS body handlers orelse final, t =>
    finish (final.eval n) (tryParts (body.eval n) (orelse.eval n) (fun x => handlers.eval n x) t)
  | .withS enter body onExc onExit, t => enter.bind ω t fun _ t => withParts ω (body.eval n) onExc onExit t
  | .defS defaults _ make, t => defaults.bind ω t fun _ t => make.bind ω t fun _ t => (some .normal, t)

def Body.eval (n : Nat) : Body → Trace → Result
  | .nil, t => (some .normal, t)
  | .cons s rest, t => (s.eval n t).andThen (rest.eval n)

/-- The first handler whose type matches; without one the exception `x` goes on. -/
def Handlers.eval (n : Nat) : Handlers → Value → Trace → Result
  | .nil, x, t => (some (.raise x), t)
  | .bare body, _, t => body.eval n t
  | .typed type bind body rest, x, t => type.bind ω t fun v t =>
    if truthy v then (Expr.mk bind 0).bind ω t fun _ t => body.eval n t else rest.eval n x t

end

/-- A function body that falls off its end returns `None`, which is 0 here. -/
def callFunction (n : Nat) (f : Body) : Result :=
  match f.eval ω n [] with
  | (some .normal, t) => (some (.ret 0), t)
  | r => r

end

end Pylang.Aot
