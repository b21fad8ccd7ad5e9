/-
What the emitted instructions do to the registers of a frame, and the execution
paths of a function.

Values are left out: the `k`-th operation executed on a path leaves `some k` in
the registers it writes, and `none` stands for anything else that reaches a
register. An operation is executed as the bundle the emitter makes of it, the
allocator's `Push`, the instruction, `Move` and `Pop`; when it raises, the rest
of the bundle is skipped.

Register 0 needs care. A function call leaves its result there; `YIELD_VALUE`
and `YIELD_FROM` leave the yielded value there; and whenever a Python frame
returns into this one, `pop_frame` copies its register 0 into this one's. Most
instructions save register 0 around the calls they make; `WITH_EXCEPT_START`,
the `unguarded` ones, `RAISE_VARARGS` of an exception type it calls, and a
function call that raises after its callee ran Python code do not.
-/
import Pylang.Regalloc.Emitter.LinearScan

namespace Pylang.Regalloc.Emitter

/-- `exhausted`: `FOR_ITER` at the end of its iterator, `YIELD_FROM` of an iterator that never yields. -/
inductive Outcome where
  | completed | exhausted | raised
deriving DecidableEq

/-- One execution of an operation, and whether a Python frame returned into this frame meanwhile. -/
structure Event where
  outcome : Outcome
  python : Bool
deriving DecidableEq

/-- A timestep and what happened there. -/
abbrev Step := Nat × Event

abbrev Cell := Option Nat

/-- The registers of the frame and its part of the VM stack. -/
structure RegFile where
  regs : Reg → Cell
  stack : List Cell

def setReg (regs : Reg → Cell) (r : Reg) (c : Cell) : Reg → Cell := fun r' => if r' = r then c else regs r'

/-- The values an execution of an operation writes. `INPLACE_OP` writes its first operand, its own result is never
written; an operation that raises writes nothing. -/
def writes (o : Operation) (ev : Event) : List Var :=
  match ev.outcome, o.kind with
  | .completed, .inplaceOp => (o.operands.take 1).map .value
  | .completed, .forIter => [.forwarded o.id 0]
  | .completed, _ => o.results.map .value
  | .exhausted, .yieldFrom => o.results.map .value
  | .exhausted, _ => []
  | .raised, _ => []

section
variable (fn : Func) (a : Allocation)

/-- `Push`. -/
def push (s : RegFile) (f : Fixup) : RegFile := { s with stack := s.regs f.curReg :: s.stack }

end

/-! ## Execution paths -/

/-- Where control goes after a step, and what is handed to the block arguments there. -/
inductive Edge (fn : Func) : Step → Nat → List (Var × Value) → Prop where
  | next {t ev o} : fn.ops[t]? = some o → o.kind.isTerminator = false →
      ev.outcome = .completed ∨ (ev.outcome = .exhausted ∧ o.kind = .yieldFrom) → Edge fn (t, ev) (t + 1) []
  | jump {t ev o b vs blk} : fn.ops[t]? = some o →
      o.kind = .jumpIfFalse ∨ o.kind = .branch ∨ o.kind = .jumpIfNotException → ev.outcome = .completed →
      (b, vs) ∈ o.successors → fn.blocks[b]? = some blk → Edge fn (t, ev) (fn.start b) ((vs.map .value).zip blk.args)
  | body {t ev o b vs rest blk arg} : fn.ops[t]? = some o → o.kind = .forIter → ev.outcome = .completed →
      o.successors = (b, vs) :: rest → fn.blocks[b]? = some blk → blk.args = [arg] →
      Edge fn (t, ev) (fn.start b) [(.forwarded o.id 0, arg)]
  | exit {t ev o first b vs} : fn.ops[t]? = some o → o.kind = .forIter → ev.outcome = .exhausted →
      o.successors = [first, (b, vs)] → Edge fn (t, ev) (fn.start b) []
  | enter {t ev o b vs rest} : fn.ops[t]? = some o → o.kind = .setup → ev.outcome = .completed →
      o.successors = (b, vs) :: rest → Edge fn (t, ev) (fn.start b) []
  | handler {t ev o setup first b vs} : fn.ops[t]? = some o → ev.outcome = .raised → setup ∈ fn.ops →
      setup.kind = .setup → setup.successors = [first, (b, vs)] → Edge fn (t, ev) (fn.start b) []

/-- A value goes along an edge under its own name, or as the block argument it is forwarded to. -/
inductive Carry (σ : List (Var × Value)) : Var → Var → List (Var × Value) → Prop where
  | stay {x} : Carry σ x x []
  | forward {x arg} : (x, arg) ∈ σ → Carry σ x (.value arg) [(x, arg)]

/-- A path from the definition of `v`: control is at the timestep, the steps are those taken, the definition first,
and `v` is known there under the second name, after the listed forwardings. -/
inductive Flow (fn : Func) (v : Var) : Var → Nat → List Step → List (Var × Value) → Prop where
  | define {t ev o t' σ u f} : fn.ops[t]? = some o → v ∈ writes o ev → Edge fn (t, ev) t' σ → Carry σ v u f →
      Flow fn v u t' [(t, ev)] f
  | step {x t steps f ev t' σ u g} : Flow fn v x t steps f → Edge fn (t, ev) t' σ → Carry σ x u g →
      Flow fn v u t' (steps ++ [(t, ev)]) (f ++ g)

/-- The operation at `t` reads `u`. -/
def Reads (fn : Func) (t : Nat) (u : Var) : Prop := ∃ o, fn.ops[t]? = some o ∧ u ∈ o.operands.map Var.value

end Pylang.Regalloc.Emitter
