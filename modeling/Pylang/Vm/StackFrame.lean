/-
The interpreter's value stack: `StackFrame`, the frame operations of
`VirtualMachine`, and what `ScopedStack` and the generators do with them.

The locals of a called frame lie on the value stack; popping the frame copies
them to `locals_storage`, and the span of the locals stays there. The stack and
base pointers of a frame are absolute positions: a generator resumes where it
lay when it was suspended.

A frame object is a number. Instruction pointers and `m_stack_objects` are left
out; of `State::cleanup` the bottom element is.
-/
import Mathlib.Logic.Function.Basic

namespace Pylang.Vm

abbrev Value := Nat

/-- `nullptr` in a slot. -/
def null : Value := 0

/-- `m_stack` has 10'000 slots. -/
def capacity : Nat := 10000

/-- What the span of the locals covers: slots of the value stack, or all of `locals_storage`. -/
inductive Span where
  | stack (start size : Nat)
  | storage
deriving DecidableEq

/-- `localsCount` is that of the frame's function. -/
structure StackFrame where
  registers : List Value
  locals : Span
  localsStorage : List Value
  basePointer : Nat
  stackPointer : Nat
  cleanup : List Nat
  localsCount : Nat
deriving DecidableEq

/-- `frames` holds every frame object, `next` is the first that does not exist; `stackFrames` is `m_stack_frames`, the
top first. The frames in `suspended` belong to generators that can be resumed. -/
structure VirtualMachine where
  stack : Nat → Value
  stackFrames : List Nat
  stackPointer : Nat
  basePointer : Nat
  frames : Nat → StackFrame
  next : Nat
  suspended : List Nat

/-- `pointerOrder` is an assertion on the order of two pointers, `overflow` the one on the end of the stack or an
access behind it, `assertion` any other. -/
inductive Fault where
  | pointerOrder
  | overflow
  | assertion
deriving DecidableEq

namespace VirtualMachine

def start : VirtualMachine := ⟨fun _ => null, [], 0, 0, fun _ => ⟨[], .storage, [], 0, 0, [], 0⟩, 0, []⟩

def setFrame (vm : VirtualMachine) (f : Nat) (frame : StackFrame) : VirtualMachine :=
  { vm with frames := Function.update vm.frames f frame }

/-- The values from `a` on. -/
def writeAll (stack : Nat → Value) (a : Nat) (vs : List Value) : Nat → Value :=
  fun b => if a ≤ b then vs.getD (b - a) (stack b) else stack b

def locals (vm : VirtualMachine) (f : Nat) : List Value :=
  match (vm.frames f).locals with
  | .stack start size => (List.range size).map fun i => vm.stack (start + i)
  | .storage => (vm.frames f).localsStorage

/-! ## Frames -/

/-- The stack pointer is stashed in the frame that was on top. -/
def stash (vm : VirtualMachine) : VirtualMachine :=
  match vm.stackFrames with
  | [] => vm
  | c :: _ => vm.setFrame c { vm.frames c with stackPointer := vm.stackPointer }

def pushFrame (f : Nat) (vm : VirtualMachine) : Except Fault VirtualMachine :=
  let vm := vm.stash
  let frame := vm.frames f
  if frame.stackPointer < vm.stackPointer then .error .pointerOrder
  else if frame.basePointer < vm.basePointer then .error .pointerOrder
  else if capacity ≤ frame.stackPointer then .error .overflow
  else .ok { vm with
    stackFrames := f :: vm.stackFrames, stackPointer := frame.stackPointer, basePointer := frame.basePointer }

/-- The constructor of `StackFrame`. -/
def newFrame (vm : VirtualMachine) (registerCount localsCount stackSize : Nat) : StackFrame :=
  { registers := List.replicate registerCount null
    locals := .stack vm.stackPointer stackSize
    localsStorage := []
    basePointer := vm.stackPointer + localsCount
    stackPointer := vm.stackPointer + localsCount
    cleanup := []
    localsCount := localsCount }

/-- `setup_call_stack`: a new frame, its slots wiped. -/
def setupCallStack (registerCount localsCount stackSize : Nat) (vm : VirtualMachine) : Except Fault VirtualMachine :=
  if capacity < vm.stackPointer + stackSize then .error .overflow
  else pushFrame vm.next { vm with
    stack := writeAll vm.stack vm.stackPointer (List.replicate stackSize null)
    frames := Function.update vm.frames vm.next (vm.newFrame registerCount localsCount stackSize)
    next := vm.next + 1 }

/-- The frame as `pop_frame` leaves it: its locals are copied to the storage. -/
def popped (vm : VirtualMachine) (f : Nat) : StackFrame :=
  { vm.frames f with stackPointer := vm.stackPointer, localsStorage := vm.locals f, locals := .storage }

def popFrame (shouldReturnValue : Bool) (vm : VirtualMachine) : Except Fault VirtualMachine :=
  match vm.stackFrames with
  | [] => .error .assertion
  | [_] => .ok { vm with stackFrames := [] }
  | f :: c :: rest =>
    let caller := vm.frames c
    let registers := bif shouldReturnValue then caller.registers.set 0 ((vm.frames f).registers.getD 0 null)
      else caller.registers
    if vm.stackPointer < caller.stackPointer then .error .pointerOrder
    else if vm.basePointer < caller.basePointer then .error .pointerOrder
    else .ok { (vm.setFrame c { caller with registers := registers }).setFrame f (vm.popped f) with
      stackFrames := c :: rest, stackPointer := caller.stackPointer, basePointer := caller.basePointer }

/-- `StackFrame::clone`. -/
def clone (vm : VirtualMachine) (f : Nat) : StackFrame :=
  { vm.frames f with localsStorage := vm.locals f, locals := .storage }

/-- `ScopedStack::release`: the frame just set up is popped, and a clone of it kept for the generator. -/
def release (vm : VirtualMachine) : Except Fault VirtualMachine :=
  match vm.stackFrames with
  | [] => .error .assertion
  | f :: _ => (popFrame true vm).map fun vm =>
    { vm.setFrame vm.next (vm.clone f) with next := vm.next + 1, suspended := vm.next :: vm.suspended }

/-- `StackFrame::restore`: the storage is written from the frame's stack pointer on, and the frame pushed. -/
def restore (g : Nat) (vm : VirtualMachine) : Except Fault VirtualMachine :=
  let frame := vm.frames g
  if capacity < frame.stackPointer + frame.localsStorage.length then .error .overflow
  else pushFrame g { vm with stack := writeAll vm.stack frame.stackPointer frame.localsStorage }

/-! ## Instructions -/

/-- What the running frame does to itself. -/
def onTop (vm : VirtualMachine) (k : Nat → StackFrame → Except Fault VirtualMachine) : Except Fault VirtualMachine :=
  match vm.stackFrames with
  | [] => .error .assertion
  | f :: _ => k f (vm.frames f)

def setReg (dst : Nat) (v : Value) (vm : VirtualMachine) : Except Fault VirtualMachine :=
  vm.onTop fun f frame =>
    if dst < frame.registers.length then .ok (vm.setFrame f { frame with registers := frame.registers.set dst v })
    else .error .assertion

def setStackLocal (idx : Nat) (v : Value) (vm : VirtualMachine) : Except Fault VirtualMachine :=
  vm.onTop fun f frame =>
    if idx < (vm.locals f).length then
      match frame.locals with
      | .stack start _ => .ok { vm with stack := Function.update vm.stack (start + idx) v }
      | .storage => .ok (vm.setFrame f { frame with localsStorage := frame.localsStorage.set idx v })
    else .error .assertion

def push (v : Value) (vm : VirtualMachine) : Except Fault VirtualMachine :=
  if capacity ≤ vm.stackPointer then .error .overflow
  else .ok { vm with stack := Function.update vm.stack vm.stackPointer v, stackPointer := vm.stackPointer + 1 }

/-- `Pop` leaves `nullptr` behind. -/
def pop (vm : VirtualMachine) : VirtualMachine :=
  { vm with stack := Function.update vm.stack (vm.stackPointer - 1) null, stackPointer := vm.stackPointer - 1 }

def setCleanup (exit : Nat) (vm : VirtualMachine) : Except Fault VirtualMachine :=
  vm.onTop fun f frame => .ok (vm.setFrame f { frame with cleanup := exit :: frame.cleanup })

def leaveCleanupHandling (vm : VirtualMachine) : Except Fault VirtualMachine :=
  vm.onTop fun f frame =>
    if frame.cleanup = [] then .error .assertion else .ok (vm.setFrame f { frame with cleanup := frame.cleanup.tail })

end VirtualMachine

/-- `call` sets up a frame and `release` makes the generator of it; `resume` is `next` or `send` on a suspended one.
`ret` pops the frame, whose handlers go with it; `raise` is an exception that leaves the frame. -/
inductive Action where
  | call (registerCount localsCount stackSize : Nat)
  | release
  | resume (g : Nat)
  | yieldValue (src : Nat)
  | ret
  | raise
  | setReg (dst : Nat) (v : Value)
  | storeFast (idx : Nat) (v : Value)
  | push (src : Nat)
  | pop (dst : Option Nat)
  | setCleanup (exit : Nat)
  | leaveCleanup
deriving DecidableEq

namespace VirtualMachine

/-- `YieldValue`, and what becomes of the generator's frame. -/
def yieldValue (src : Nat) (vm : VirtualMachine) : Except Fault VirtualMachine :=
  vm.onTop fun f frame => do
    let vm ← vm.setReg 0 (frame.registers.getD src null)
    let vm ← vm.popFrame true
    .ok { vm with suspended := f :: vm.suspended }

def step (vm : VirtualMachine) : Action → Except Fault VirtualMachine
  | .call registerCount localsCount stackSize => vm.setupCallStack registerCount localsCount stackSize
  | .release => vm.release
  | .resume g => { vm with suspended := vm.suspended.erase g }.restore g
  | .yieldValue src => vm.yieldValue src
  | .ret => vm.popFrame true
  | .raise => vm.popFrame false
  | .setReg dst v => vm.setReg dst v
  | .storeFast idx v => vm.setStackLocal idx v
  | .push src => vm.onTop fun _ frame => vm.push (frame.registers.getD src null)
  | .pop none => .ok vm.pop
  | .pop (some dst) => vm.pop.setReg dst (vm.stack (vm.stackPointer - 1))
  | .setCleanup exit => vm.setCleanup exit
  | .leaveCleanup => vm.leaveCleanupHandling

end VirtualMachine

end Pylang.Vm
