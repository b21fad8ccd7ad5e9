/-
The VM stack pointer of a frame along the paths of a function.

The emitter pushes operands before five kinds of instructions and pops as many
after them, and the allocator puts a `Push` before and a `Move` and a `Pop`
after an operation whose result it moves. So the stack pointer is the same
before and after each operation that lets execution go on to the next
instruction, and nothing is pushed around a terminator. `eval_loop` takes a
raised exception to its handler without restoring the stack pointer: what the
raising operation had pushed stays (`stackPointer_kept`), and a loop that
handles such an exception leaves it once per iteration (`stackPointer_loop`).
-/
import Pylang.Regalloc.Emitter.NoClobber

namespace Pylang.Regalloc.Emitter

/-- What the emitter pushes for an operation: `build` is a list, a tuple, a set or a string. -/
inductive Shape where
  | makeFunction (defaults kwDefaults : List Value)
  | buildDict (keys values : List Value)
  | build (elements : List Value)
  | functionCall (args : List Value)
  | other
deriving DecidableEq

namespace Shape

def pushed : Shape → List Value
  | makeFunction defaults kwDefaults => defaults ++ kwDefaults
  | buildDict keys values => keys ++ values
  | build elements => elements
  | functionCall args => args
  | other => []

/-- How often the emitter pops after the instruction. -/
def popped : Shape → Nat
  | makeFunction defaults kwDefaults => defaults.length + kwDefaults.length
  | buildDict keys values => keys.length + values.length
  | build elements => elements.length
  | functionCall args => args.length
  | other => 0

@[simp] theorem popped_eq : ∀ s : Shape, s.popped = s.pushed.length
  | makeFunction .. | buildDict .. => by simp [popped, pushed]
  | build .. | functionCall .. | other => rfl

end Shape

/-- A function with its allocation, as the emitter finds it. -/
structure Emission where
  fn : Func
  start : StartSort
  a : Allocation
  allocated : LinearScanRegisterAllocation.analyse start fn = some a
  shape : OpId → Shape
  pushed : ∀ o ∈ fn.ops, ∀ v ∈ (shape o.id).pushed, v ∈ o.operands
  call : ∀ o ∈ fn.ops, o.kind = .functionCall → ∃ callee args, o.operands = callee :: args ∧
    shape o.id = .functionCall args
  terminator : ∀ o ∈ fn.ops, o.kind.isTerminator = true → shape o.id = .other

inductive Instr where
  | push (src : Reg)
  /-- `Push` of the register of a value. -/
  | pushValue (v : Value)
  | execute (o : Operation)
  | pop (dst : Option Reg)
  | move (dst src : Reg)

/-- The stack pointer after a bundle, counted from the end of the locals; `none` when a `Pop` finds nothing there.
`leaves`: the operation's own instruction jumps or raises, and what follows it is not executed. -/
def runSp (leaves : Bool) : List Instr → Nat → Option Nat
  | [], sp => some sp
  | .push _ :: is, sp | .pushValue _ :: is, sp => runSp leaves is (sp + 1)
  | .execute _ :: is, sp => if leaves then some sp else runSp leaves is sp
  | .pop _ :: _, 0 => none
  | .pop _ :: is, sp + 1 => runSp leaves is sp
  | .move _ _ :: is, sp => runSp leaves is sp

namespace Emission
variable (e : Emission)

/-- `emitOperation`, with the allocator's fix-ups around it. -/
def emitOperation (o : Operation) : List Instr :=
  (e.a.fixupsOf o).map (.push ·.curReg) ++
    ((e.shape o.id).pushed.map .pushValue ++
      .execute o :: (List.replicate (e.shape o.id).popped (.pop none) ++
        (e.a.fixupsOf o).reverse.flatMap fun f => [.move f.scratch f.curReg, .pop (some f.curReg)]))

def leaves (o : Operation) (ev : Event) : Bool := ev.outcome = .raised || o.kind.isTerminator

/-- The stack pointer after a path. -/
def pathSp : List Step → Nat → Option Nat
  | [], sp => some sp
  | (t, ev) :: p, sp => do
    let o ← e.fn.ops[t]?
    let sp ← runSp (leaves o ev) (e.emitOperation o) sp
    pathSp p sp

/-- How much is pushed while the instruction at `t` is executed. -/
def outstanding (t : Nat) : Nat :=
  match e.fn.ops[t]? with
  | some o => (e.a.fixupsOf o).length + (e.shape o.id).pushed.length
  | none => 0

/-- What the exceptions raised on a path leave on the stack. -/
def left : List Step → Nat
  | [] => 0
  | (t, ev) :: p => (if ev.outcome = .raised then e.outstanding t else 0) + left p

end Emission

/-- A path from one timestep to another. -/
inductive Path (fn : Func) : Nat → List Step → Nat → Prop where
  | refl {t} : Path fn t [] t
  | step {t ev t' σ steps u} : Edge fn (t, ev) t' σ → Path fn t' steps u → Path fn t ((t, ev) :: steps) u

/-! ## One bundle -/

theorem runSp_push {leaves : Bool} : ∀ (fs : List Fixup) (is : List Instr) (sp : Nat),
    runSp leaves (fs.map (.push ·.curReg) ++ is) sp = runSp leaves is (sp + fs.length)
  | [], _, _ => rfl
  | f :: fs, is, sp => by
    rw [List.map_cons, List.cons_append, runSp, runSp_push fs is (sp + 1), List.length_cons]
    congr 1
    omega

theorem runSp_pushValue {leaves : Bool} : ∀ (vs : List Value) (is : List Instr) (sp : Nat),
    runSp leaves (vs.map .pushValue ++ is) sp = runSp leaves is (sp + vs.length)
  | [], _, _ => rfl
  | v :: vs, is, sp => by
    rw [List.map_cons, List.cons_append, runSp, runSp_pushValue vs is (sp + 1), List.length_cons]
    congr 1
    omega

theorem runSp_pop {leaves : Bool} : ∀ (n : Nat) (is : List Instr) (sp : Nat),
    runSp leaves (List.replicate n (.pop none) ++ is) (sp + n) = runSp leaves is sp
  | 0, _, _ => rfl
  | n + 1, is, sp => by
    rw [List.replicate_succ, List.cons_append, ← Nat.add_assoc, runSp]
    exact runSp_pop n is sp

theorem runSp_movePop {leaves : Bool} : ∀ (fs : List Fixup) (sp : Nat),
    runSp leaves (fs.flatMap fun f => [.move f.scratch f.curReg, .pop (some f.curReg)]) (sp + fs.length) = some sp
  | [], _ => rfl
  | f :: fs, sp => by
    rw [List.flatMap_cons, List.length_cons, ← Nat.add_assoc, List.cons_append, List.cons_append, List.nil_append,
      runSp, runSp]
    exact runSp_movePop fs sp

section
variable {e : Emission} {o : Operation}

theorem runSp_completes (sp : Nat) : runSp false (e.emitOperation o) sp = some sp := by
  have hlen : (e.a.fixupsOf o).length = (e.a.fixupsOf o).reverse.length := by simp
  rw [Emission.emitOperation, runSp_push, runSp_pushValue, runSp, if_neg (by simp), Shape.popped_eq, runSp_pop, hlen]
  exact runSp_movePop _ sp

theorem runSp_leaves (sp : Nat) : runSp true (e.emitOperation o) sp =
    some (sp + ((e.a.fixupsOf o).length + (e.shape o.id).pushed.length)) := by
  rw [Emission.emitOperation, runSp_push, runSp_pushValue, runSp, if_pos rfl, Nat.add_assoc]

/-- **The scan saves registers around nothing but the operations that leave their result in register 0.** -/
theorem fixupsOf_eq_nil {S : StartSort} {fn : Func} {a : Allocation}
    (h : LinearScanRegisterAllocation.analyse S fn = some a) (ho : o ∈ fn.ops) (hk : o.kind.clobbersR0 = false) :
    a.fixupsOf o = [] := by
  simp only [LinearScanRegisterAllocation.analyse, Option.bind_eq_bind, Option.bind_eq_some_iff, Option.some.injEq] at h
  obtain ⟨lia, hlia, s, hscan, rfl⟩ := h
  simp only [LiveIntervalAnalysis.analyse, Option.bind_eq_bind, Option.bind_eq_some_iff, Option.some.injEq] at hlia
  obtain ⟨la, hla, rfl⟩ := hlia
  have hL := LiveAnalysis.analyse_resolves hla
  have hI := hL.intervals S
  have hinv := ScanInv.run (fun _ => True) hI.nodup hI.sorted (fun x l hx => find_invert_value hx) _ [] .init (by simp)
    hscan fun _ _ _ => trivial
  have harg : ∀ x arg, Linked fn x arg → fn.isBlockArgument arg = true := by
    intro x arg h
    obtain ⟨_, b, hb, _⟩ := h
    simp [Func.isBlockArgument, hb]
  simp only [Allocation.fixupsOf, List.filter_eq_nil_iff, decide_eq_true_eq]
  intro fx hfx he
  obtain ⟨c, hc, -, -, hcc⟩ := hinv.scanned.fixup_at hL hI harg ho hfx he
  rw [Func.clobbersR0_iff ho hc, hk] at hcc
  cases hcc

theorem Emission.outstanding_terminator {t : Nat} (ho : e.fn.ops[t]? = some o) (hk : o.kind.isTerminator = true) :
    e.outstanding t = 0 := by
  have hmem := List.mem_of_getElem? ho
  have hclobbers : o.kind.clobbersR0 = false := by
    obtain ⟨id, kind, results, operands, successors⟩ := o
    cases kind <;> simp_all [OpKind.isTerminator, OpKind.clobbersR0, OpKind.isFunctionCall]
  simp only [outstanding, ho, fixupsOf_eq_nil e.allocated hmem hclobbers, e.terminator o hmem hk, Shape.pushed,
    List.length_nil]

/-- **One step.** The stack pointer is as before, unless the step raises what it has pushed something for. -/
theorem Emission.runSp_step {t : Nat} {ev : Event} (ho : e.fn.ops[t]? = some o) (sp : Nat) :
    runSp (leaves o ev) (e.emitOperation o) sp =
      some (sp + if ev.outcome = .raised then e.outstanding t else 0) := by
  have hout : e.outstanding t = (e.a.fixupsOf o).length + (e.shape o.id).pushed.length := by
    simp only [outstanding, ho]
  by_cases hraised : ev.outcome = .raised
  · have hleaves : leaves o ev = true := by simp [leaves, hraised]
    rw [hleaves, runSp_leaves, if_pos hraised, hout]
  · rw [if_neg hraised, Nat.add_zero]
    cases hk : o.kind.isTerminator with
    | false =>
      have hleaves : leaves o ev = false := by simp [leaves, hraised, hk]
      rw [hleaves, runSp_completes]
    | true =>
      have hleaves : leaves o ev = true := by simp [leaves, hk]
      rw [hleaves, runSp_leaves, ← hout, outstanding_terminator ho hk, Nat.add_zero]

end

/-! ## Paths -/

theorem Path.append {fn : Func} {t u v : Nat} {p q : List Step} (hp : Path fn t p u) (hq : Path fn u q v) :
    Path fn t (p ++ q) v := by
  induction hp with
  | refl => exact hq
  | step hedge _ ih => exact .step hedge (ih hq)

theorem Path.operation {fn : Func} {t u : Nat} {p : List Step} (h : Path fn t p u) :
    ∀ st ∈ p, ∃ o, fn.ops[st.1]? = some o := by
  induction h with
  | refl => simp
  | step hedge _ ih =>
    intro st hst
    cases List.mem_cons.mp hst with
    | inl heq =>
      obtain ⟨o, ho, -⟩ := hedge.possible
      exact ⟨o, heq ▸ ho⟩
    | inr hmem => exact ih st hmem

namespace Emission
variable {e : Emission}

/-- **A whole path** adds what its exceptions leave. -/
theorem pathSp_eq : ∀ (p : List Step), (∀ st ∈ p, ∃ o, e.fn.ops[st.1]? = some o) → ∀ sp,
    e.pathSp p sp = some (sp + e.left p)
  | [], _, _ => rfl
  | (t, ev) :: p, h, sp => by
    obtain ⟨o, ho⟩ := h (t, ev) List.mem_cons_self
    have ih := pathSp_eq p fun st hst => h st (List.mem_cons_of_mem _ hst)
    simp only [pathSp, ho, Option.bind_eq_bind, Option.bind_some, runSp_step ho, ih, left]
    congr 1
    omega

theorem left_append (p q : List Step) : e.left (p ++ q) = e.left p + e.left q := by
  induction p with
  | nil => simp [left]
  | cons st p ih => simp only [List.cons_append, left, ih, Nat.add_assoc]

theorem left_eq_zero {p : List Step} : e.left p = 0 ↔ ∀ st ∈ p, st.2.outcome = .raised → e.outstanding st.1 = 0 := by
  induction p with
  | nil => simp [left]
  | cons st p ih =>
    rw [left, Nat.add_eq_zero_iff, ih, List.forall_mem_cons]
    refine and_congr_left fun _ => ?_
    split
    next h => exact ⟨fun hz _ => hz, fun hz => hz h⟩
    next h => exact ⟨fun _ hr => absurd hr h, fun _ => rfl⟩

theorem stackPointer_loop {t : Nat} {p : List Step} (h : Path e.fn t p t) (n sp : Nat) :
    e.pathSp (List.replicate n p).flatten sp = some (sp + n * e.left p) := by
  have hops : ∀ st ∈ (List.replicate n p).flatten, ∃ o, e.fn.ops[st.1]? = some o := fun st hst => by
    obtain ⟨q, hq, hst⟩ := List.mem_flatten.mp hst
    rw [List.eq_of_mem_replicate hq] at hst
    exact h.operation st hst
  have hleft : ∀ n, e.left (List.replicate n p).flatten = n * e.left p := by
    intro n
    induction n with
    | zero => simp [left]
    | succ n ih => rw [List.replicate_succ, List.flatten_cons, left_append, ih, Nat.succ_mul, Nat.add_comm]
  rw [pathSp_eq _ hops, hleft]

/-- **A path keeps the stack pointer exactly when every exception handled on it is raised with nothing pushed**, be
it a path from a `SETUP` to its handler or from an instruction back to it. -/
theorem stackPointer_kept (e : Emission) {t t' : Nat} {p : List Step} (h : Path e.fn t p t') :
    (∀ sp, e.pathSp p sp = some sp) ↔ ∀ st ∈ p, st.2.outcome = .raised → e.outstanding st.1 = 0 := by
  rw [← left_eq_zero]
  simp only [pathSp_eq p h.operation, Option.some.injEq]
  exact ⟨fun hsp => by simpa using hsp 0, fun hz sp => by rw [hz, Nat.add_zero]⟩

end Emission

/-! ## A loop that handles what a call raises -/

/-- `while True: try: f(x)`, `except: pass`. -/
def retry : Func where
  blocks := [
    ⟨[], [⟨0, .setup, [], [], [(1, []), (2, [])]⟩]⟩,
    ⟨[], [⟨1, .guarded, [100], [], []⟩, ⟨2, .guarded, [101], [], []⟩, ⟨3, .functionCall, [102], [100, 101], []⟩,
      ⟨4, .guarded, [], [], []⟩, ⟨5, .branch, [], [], [(0, [])]⟩]⟩,
    ⟨[], [⟨6, .guarded, [], [], []⟩, ⟨7, .branch, [], [], [(0, [])]⟩]⟩]
  results_nodup := by decide
  ids_nodup := by decide
  single := by decide

theorem retry_allocated : (LinearScanRegisterAllocation.analyse .stable retry).isSome = true := by decide +kernel

/-- The emission of `retry`: its call pushes one argument. -/
def retryEmission : Emission where
  fn := retry
  start := .stable
  a := (LinearScanRegisterAllocation.analyse .stable retry).get retry_allocated
  allocated := (Option.some_get retry_allocated).symm
  shape := fun id => if id = 3 then .functionCall [101] else .other
  pushed := by decide
  call := by
    have hcall : ∀ o ∈ retry.ops, o.kind = .functionCall → o.operands = [100, 101] ∧ o.id = 3 := by decide
    intro o ho hk
    obtain ⟨hoperands, hid⟩ := hcall o ho hk
    exact ⟨100, [101], hoperands, if_pos hid⟩
  terminator := by decide

/-- An exception raised where `x` is loaded leaves nothing. -/
theorem retry_load_keeps : retryEmission.pathSp [(0, ran), (1, ran), (2, ⟨.raised, false⟩)] 3 = some 3 := by
  have hpath : Path retry 0 [(0, ran), (1, ran), (2, ⟨.raised, false⟩)] (retry.start 2) :=
    .step (.enter (b := 1) rfl rfl rfl rfl) (.step (.next rfl rfl (.inl rfl))
      (.step (.handler rfl rfl List.mem_cons_self rfl rfl) .refl))
  have hload : retryEmission.outstanding 2 = 0 := by decide +kernel
  refine (Emission.stackPointer_kept retryEmission hpath).mpr (fun st hst hraised => ?_) 3
  simp only [List.mem_cons, List.not_mem_nil, or_false] at hst
  rcases hst with rfl | rfl | rfl
  · cases hraised
  · cases hraised
  · exact hload

/-- `f(x)` raises. -/
def attempt : List Step := [(0, ran), (1, ran), (2, ran), (3, ⟨.raised, false⟩)]

/-- From the `SETUP` to its handler, where the argument of the call is still on the stack; and after `n` exceptions
there are `n`. -/
theorem retry_grows : ∃ caught, Path retry 0 attempt (retry.start 2) ∧ retryEmission.pathSp attempt 0 = some 1 ∧
    Path retry 0 (attempt ++ caught) 0 ∧
    ∀ n, retryEmission.pathSp (List.replicate n (attempt ++ caught)).flatten 0 = some n := by
  have hattempt : Path retry 0 attempt (retry.start 2) :=
    .step (.enter (b := 1) rfl rfl rfl rfl) (.step (.next rfl rfl (.inl rfl)) (.step (.next rfl rfl (.inl rfl))
      (.step (.handler rfl rfl List.mem_cons_self rfl rfl) .refl)))
  have hcaught : Path retry (retry.start 2) [(6, ran), (7, ran)] 0 :=
    .step (.next rfl rfl (.inl rfl)) (.step (.jump (b := 0) rfl (.inr (.inl rfl)) rfl List.mem_cons_self rfl) .refl)
  have houtstanding : retryEmission.outstanding 3 = 1 := by decide +kernel
  refine ⟨_, hattempt, ?_, hattempt.append hcaught, fun n => ?_⟩
  · rw [Emission.pathSp_eq _ hattempt.operation]
    simp [Emission.left, attempt, ran, houtstanding]
  · rw [Emission.stackPointer_loop (hattempt.append hcaught)]
    simp [Emission.left, attempt, ran, houtstanding]

end Pylang.Regalloc.Emitter
