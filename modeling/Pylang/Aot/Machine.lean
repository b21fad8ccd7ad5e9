/-
What the generated blocks do.

A thrown exception is an object with an identity of its own, as in the C++ ABI:
`catch_begin` puts it on the stack of caught exceptions, `catch_end` takes the
top one off and, since it was the only reference, destroys it. `resume` hands a
saved token back to the unwinder, which leaves the function; with an exception
that was destroyed meanwhile its behaviour is undefined.

The calls a program makes are taken to leave the stack of caught exceptions as
they found it.
-/
import Pylang.Aot.Codegen
import Pylang.Lib.Steps

namespace Pylang.Aot

/-- A thrown exception: the C++ object and the Python exception it carries. -/
structure Exn where
  id : Nat
  value : Value
deriving DecidableEq

/-- The allocas of a `try`. -/
structure SlotState where
  state : Nat
  retval : Value
  lp : Exn
deriving DecidableEq

/-- `acc` is the value of the last expression, `flight` the exception on its way to a landing pad. -/
structure State where
  block : Nat
  pc : Nat
  acc : Value
  slots : Nat → SlotState
  flight : Exn
  thrown : Nat
  caught : List Nat
  destroyed : List Nat
  trace : Trace

inductive Halt where
  | returned (v : Value) (t : Trace)
  | raised (e : Value) (t : Trace)
  | undefined
deriving DecidableEq

namespace State

def start : State := ⟨0, 0, 0, fun _ => ⟨0, 0, ⟨0, 0⟩⟩, ⟨0, 0⟩, 0, [], [], []⟩

def goto (S : State) (b : Nat) : State := { S with block := b, pc := 0 }

def advance (S : State) : State := { S with pc := S.pc + 1 }

def setSlot (S : State) (k : Nat) (s : SlotState) : State := { S with slots := Function.update S.slots k s }

/-- A new C++ exception object with the Python exception `e`. -/
def throw (S : State) (e : Value) : State := { S with flight := ⟨S.thrown, e⟩, thrown := S.thrown + 1 }

end State

section
variable (ω : Env)

/-- A runtime function, and whether it threw. -/
def Rt.exec (f : Rt) (S : State) : State × Bool :=
  match f with
  | .call c =>
    match ω.outcome S.trace c with
    | .ok v => ({ S with acc := v, trace := c :: S.trace }, false)
    | .raise e => ({ S with trace := c :: S.trace }.throw e, true)
  | .none => ({ S with acc := 0 }, false)
  | .raise c => ({ S with trace := c :: S.trace }.throw (ω.thrown S.trace c), true)
  | .catchBegin slot => ({ S with caught := (S.slots slot).lp.id :: S.caught }, false)
  | .catchEnd => ({ S with caught := S.caught.tail, destroyed := S.caught.take 1 ++ S.destroyed }, false)

def Instr.exec (S : State) : Instr → State ⊕ Halt
  | .const v => .inl { S with acc := v }.advance
  | .call f =>
    match f.exec ω S with
    | (S, false) => .inl S.advance
    | (S, true) => .inr (.raised S.flight.value S.trace)
  | .invoke f normal unwind =>
    match f.exec ω S with
    | (S, false) => .inl (S.goto normal)
    | (S, true) => .inl (S.goto unwind)
  | .storeState k n => .inl (S.setSlot k { S.slots k with state := n }).advance
  | .storeRet k => .inl (S.setSlot k { S.slots k with retval := S.acc }).advance
  | .loadRet k => .inl { S with acc := (S.slots k).retval }.advance
  | .storeLp k => .inl (S.setSlot k { S.slots k with lp := S.flight }).advance
  | .br b => .inl (S.goto b)
  | .condBr t f => .inl (S.goto (bif truthy S.acc then t else f))
  | .condState k nz z => .inl (S.goto (bif (S.slots k).state != 0 then nz else z))
  | .switch k dflt cases => .inl (S.goto ((cases.lookup (S.slots k).state).getD dflt))
  | .ret => .inr (.returned S.acc S.trace)
  | .resume k =>
    let x := (S.slots k).lp
    .inr (if x.id ∈ S.destroyed then .undefined else .raised x.value S.trace)
  | .unreachable => .inr .undefined

/-- A block that ends without a terminator is not valid code. -/
def step (P : Nat → List Instr) (S : State) : State ⊕ Halt :=
  match (P S.block)[S.pc]? with
  | some i => i.exec ω S
  | none => .inr .undefined

end

end Pylang.Aot
