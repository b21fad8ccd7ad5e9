/-
Running generated code: a machine standing at the end of what a builder has
emitted, the single steps from there, and the runtime calls of an expression.
-/
import Pylang.Aot.Layout
import Pylang.Aot.Machine

namespace Pylang.Aot

open Builder

/-- The program continues what the builder has. -/
def Placed (B : Builder) (P : Nat → List Instr) : Prop := ∀ b, B.code b <+: P b

theorem Builder.Grew.placed {B B' : Builder} {P : Nat → List Instr} (h : Grew B B') (hP : Placed B' P) : Placed B P :=
  fun b => (h.code_prefix b).trans (hP b)

theorem Builder.Grows.placed {gen : Builder → Option Builder} (hgen : Grows gen) {B B' : Builder}
    {P : Nat → List Instr} (hwf : B.WF) {bb : Nat} (hlt : bb < B.next) (h : gen (B.setInsertPoint bb) = some B')
    (hP : Placed B' P) : Placed B P :=
  (hgen _ _ (hwf.enter hlt) h).placed hP

theorem genBlock_placed {gen : Builder → Option Builder} (hgen : Grows gen) {B B' : Builder} {P : Nat → List Instr}
    (hwf : B.WF) {bb after : Nat} (hlt : bb < B.next) (h : genBlock gen bb after B = some B') (hP : Placed B' P) :
    Placed B P := by
  unfold genBlock at h
  obtain ⟨B₁, h₁, rfl⟩ := Option.map_eq_some_iff.mp h
  exact hgen.placed hwf hlt h₁ (((Grew.refl (hgen _ _ (hwf.enter hlt) h₁).wf).brIfOpen after).placed hP)

theorem genOrelse_placed {present : Bool} {gen : Builder → Option Builder} (hgen : Grows gen) {B B' : Builder}
    {P : Nat → List Instr} (hwf : B.WF) {bb after : Nat} (hlt : bb < B.next)
    (h : genOrelse present gen bb after B = some B') (hP : Placed B' P) : Placed B P := by
  unfold genOrelse at h
  split at h
  · exact genBlock_placed hgen hwf hlt h hP
  · cases h
    exact hP

theorem genHandlerBody_placed {ctx : Ctx} {slot after : Nat} {bind : List Call} {gen : Builder → Option Builder}
    (hgen : Grows gen) {B B' : Builder} {P : Nat → List Instr} (hwf : B.WF) {bb : Nat} (hlt : bb < B.next)
    (h : genHandlerBody ctx slot after bind gen bb B = some B') (hP : Placed B' P) : Placed B P := by
  unfold genHandlerBody at h
  obtain ⟨B₁, h₁, rfl⟩ := Option.map_eq_some_iff.mp h
  have hg₁ := hgen.step ((Grew.refl (hwf.enter hlt)).expr ctx ⟨bind, 0⟩) h₁
  split at hP
  · exact hg₁.placed hP
  · exact (((hg₁.runtimeCall ctx .catchEnd).emit _).emit _).placed hP

theorem genFinally_placed {ctx : Ctx} {present : Bool} {slot : Nat} {gen : Builder → Option Builder} (hgen : Grows gen)
    {B B' : Builder} {P : Nat → List Instr} (hwf : B.WF) {finallyBb mergeBb reraiseBb : Nat} (hlt : finallyBb < B.next)
    (h : genFinally ctx present slot gen finallyBb mergeBb reraiseBb B = some B') (hP : Placed B' P) : Placed B P := by
  unfold genFinally at h
  split at h
  · obtain ⟨B₁, h₁, rfl⟩ := Option.map_eq_some_iff.mp h
    have hg₁ := hgen _ _ (hwf.enter hlt) h₁
    split at hP
    · exact hg₁.placed hP
    · exact (emitFinallyDispatch_grew hg₁ ..).placed hP
  · cases h
    exact hP

/-- Standing at the end of what has been emitted. -/
def State.at (S : State) (B : Builder) : State := { S with block := B.cur, pc := (B.code B.cur).length }

/-- `S'` differs from `S` only in slots from `n` on, and in what is no part of a slot. -/
def Frame (n : Nat) (S S' : State) : Prop := ∀ k, k < n → S'.slots k = S.slots k

theorem Frame.refl {n : Nat} {S : State} : Frame n S S := fun _ _ => rfl

theorem Frame.trans {n : Nat} {S S' S'' : State} (h : Frame n S S') (h' : Frame n S' S'') : Frame n S S'' :=
  fun k hk => (h' k hk).trans (h k hk)

theorem Frame.mono {n m : Nat} {S S' : State} (h : Frame m S S') (hle : n ≤ m) : Frame n S S' :=
  fun k hk => h k (Nat.lt_of_lt_of_le hk hle)

theorem Frame.setSlot {n : Nat} {S S' : State} (h : Frame n S S') {k : Nat} (hk : n ≤ k) (s : SlotState) :
    Frame n S (S'.setSlot k s) := by
  intro j hj
  have hne : j ≠ k := by omega
  show Function.update S'.slots k s j = _
  rw [Function.update_of_ne hne]
  exact h j hj

@[simp] theorem State.setSlot_self (S : State) (k : Nat) (s : SlotState) : (S.setSlot k s).slots k = s :=
  Function.update_self ..

section
variable {ω : Env} {P : Nat → List Instr}

theorem step_at {B : Builder} {i : Instr} (hP : Placed (B.emit i) P) (S : State) :
    step ω P (S.at B) = i.exec ω (S.at B) := by
  have hcode := hP B.cur
  rw [emit_code_cur] at hcode
  obtain ⟨rest, hrest⟩ := hcode
  have hget : (P (S.at B).block)[(S.at B).pc]? = some i := by
    show (P B.cur)[(B.code B.cur).length]? = some i
    rw [← hrest]
    simp
  rw [step, hget]

theorem advance_at (S : State) (B : Builder) (i : Instr) : (S.at B).advance = S.at (B.emit i) := by
  unfold State.advance State.at
  simp [emit_code_cur]

theorem goto_at {B : Builder} {b : Nat} (h : B.code b = []) (S : State) : S.goto b = S.at (B.setInsertPoint b) := by
  unfold State.goto State.at
  simp [h]

theorem Placed.br {B : Builder} {b : Nat} (hP : Placed (B.emit (.br b)) P) (S : State) :
    Star (step ω P) (S.at B) (S.goto b) :=
  .one (step_at hP S)

theorem Placed.condBr {B : Builder} {t f : Nat} (hP : Placed (B.emit (.condBr t f)) P) (S : State) :
    Star (step ω P) (S.at B) (S.goto (bif truthy S.acc then t else f)) :=
  .one (step_at hP S)

theorem Placed.brIfOpen {B : Builder} {b : Nat} (hP : Placed (B.brIfOpen b) P) (hB : B.terminated = false) (S : State) :
    Star (step ω P) (S.at B) (S.goto b) := by
  unfold Builder.brIfOpen at hP
  rw [hB] at hP
  exact Placed.br hP S

theorem Placed.next {B : Builder} {i : Instr} (hP : Placed (B.emit i) P) {S S' : State}
    (h : i.exec ω (S.at B) = .inl (S'.at B).advance) : Star (step ω P) (S.at B) (S'.at (B.emit i)) := by
  rw [← advance_at]
  exact .one ((step_at hP S).trans h)

theorem Placed.storeState {B : Builder} {k m : Nat} (hP : Placed (B.emit (.storeState k m)) P) (S : State) :
    Star (step ω P) (S.at B) ((S.setSlot k { S.slots k with state := m }).at (B.emit (.storeState k m))) :=
  hP.next rfl

/-! ## Runtime calls -/

/-- `S` after calls that ended in the value `v`. -/
def State.after (S : State) (v : Value) (t : Trace) : State := { S with acc := v, trace := t }

/-- `S` after calls the last of which threw `e`. -/
def State.raising (S : State) (e : Value) (t : Trace) : State := { S with trace := t }.throw e

theorem Rt.exec_ok {S : State} {c : Call} {v : Value} (h : ω.outcome S.trace c = .ok v) :
    (Rt.call c).exec ω S = (S.after v (c :: S.trace), false) := by
  simp only [Rt.exec, h, State.after]

theorem Rt.exec_raise {S : State} {c : Call} {e : Value} (h : ω.outcome S.trace c = .raise e) :
    (Rt.call c).exec ω S = (S.raising e (c :: S.trace), true) := by
  simp only [Rt.exec, h, State.raising]

/-- A runtime function looks at neither the position nor the blocks. -/
theorem Rt.exec_at {f : Rt} {S S' : State} {b : Bool} (h : f.exec ω S = (S', b)) (B : Builder) :
    f.exec ω (S.at B) = (S'.at B, b) := by
  cases f with
  | call c =>
    cases ho : ω.outcome S.trace c with
    | ok v =>
      rw [Rt.exec_ok ho] at h
      cases h
      exact Rt.exec_ok (S := S.at B) ho
    | raise e =>
      rw [Rt.exec_raise ho] at h
      cases h
      exact Rt.exec_raise (S := S.at B) ho
  | none =>
    cases h
    rfl
  | raise c =>
    cases h
    rfl
  | catchBegin slot =>
    cases h
    rfl
  | catchEnd =>
    cases h
    rfl

/-- The exception in flight reaches the landing pad of the context, or leaves the function. -/
def Unwinds (ω : Env) (P : Nat → List Instr) (ctx : Ctx) (X S : State) : Prop :=
  match ctx.unwindDest with
  | some u => Star (step ω P) X (S.goto u)
  | none => HaltsWith (step ω P) X (.raised S.flight.value S.trace)

theorem Unwinds.of_star {ctx : Ctx} {X Y S : State} (h : Star (step ω P) X Y) (h' : Unwinds ω P ctx Y S) :
    Unwinds ω P ctx X S := by
  unfold Unwinds at *
  split at h'
  next => exact h.trans h'
  next => exact .of_star h h'

theorem run_runtimeCall {ctx : Ctx} {f : Rt} {B : Builder} (hwf : B.WF) (hP : Placed (emitRuntimeCall ctx f B) P)
    {S S' : State} (h : f.exec ω S = (S', false)) : Star (step ω P) (S.at B) (S'.at (emitRuntimeCall ctx f B)) := by
  unfold emitRuntimeCall at hP ⊢
  cases hu : ctx.unwindDest with
  | some u =>
    simp only [hu] at hP ⊢
    have hempty : ((B.createBlocks 1).emit (.invoke f B.next u)).code B.next = [] := by
      have := hwf.cur_lt
      rw [emit_code_ne _ _ (by simp only [createBlocks_cur]; omega)]
      exact hwf.fresh _ (Nat.le_refl _)
    refine .one ((step_at (B := B.createBlocks 1) hP S).trans ?_)
    rw [← goto_at hempty]
    simp only [Instr.exec, Rt.exec_at h]
    rfl
  | none =>
    simp only [hu] at hP ⊢
    refine hP.next ?_
    simp only [Instr.exec, Rt.exec_at h]

theorem run_throw {ctx : Ctx} {f : Rt} {B : Builder} (hP : Placed (emitRuntimeCall ctx f B) P)
    {S S' : State} (h : f.exec ω S = (S', true)) : Unwinds ω P ctx (S.at B) S' := by
  unfold emitRuntimeCall at hP
  unfold Unwinds
  cases hu : ctx.unwindDest with
  | some u =>
    simp only [hu] at hP ⊢
    refine .one ((step_at (B := B.createBlocks 1) hP S).trans ?_)
    simp only [Instr.exec, Rt.exec_at h]
    rfl
  | none =>
    simp only [hu] at hP ⊢
    refine ⟨_, .refl, (step_at hP S).trans ?_⟩
    simp only [Instr.exec, Rt.exec_at h]
    rfl

/-- The code of an expression's calls makes them in order, and raises where one does. -/
theorem run_calls {ctx : Ctx} : ∀ (cs : List Call) {B : Builder} (_ : B.WF) (_ : Placed (genCalls ctx cs B) P) (S : State),
    match runCalls ω S.acc cs S.trace with
    | (.ok v, t) => Star (step ω P) (S.at B) ((S.after v t).at (genCalls ctx cs B))
    | (.raise e, t) => ∃ S', S'.slots = S.slots ∧ S'.trace = t ∧ S'.flight.value = e ∧ Unwinds ω P ctx (S.at B) S' := by
  intro cs
  induction cs with
  | nil =>
    intro B _ _ S
    exact .refl
  | cons c cs ih =>
    intro B hwf hP S
    have hg := (Grew.refl hwf).runtimeCall ctx (.call c)
    have hP' := ((Grew.refl hg.wf).calls ctx cs).placed hP
    simp only [runCalls]
    cases ho : ω.outcome S.trace c with
    | ok w =>
      have hstar := run_runtimeCall hwf hP' (Rt.exec_ok ho)
      have hrest := ih hg.wf hP (S.after w (c :: S.trace))
      simp only
      split
      next v t heq =>
        rw [show runCalls ω (S.after w (c :: S.trace)).acc cs (S.after w (c :: S.trace)).trace = (.ok v, t) from heq] at hrest
        exact hstar.trans hrest
      next e t heq =>
        rw [show runCalls ω (S.after w (c :: S.trace)).acc cs (S.after w (c :: S.trace)).trace = (.raise e, t) from heq] at hrest
        obtain ⟨S', hs, ht, he, hun⟩ := hrest
        exact ⟨S', hs, ht, he, hun.of_star hstar⟩
    | raise e => exact ⟨S.raising e (c :: S.trace), rfl, rfl, rfl, run_throw hP' (Rt.exec_raise ho)⟩

theorem run_expr {ctx : Ctx} {e : Expr} {B : Builder} (hwf : B.WF) (hP : Placed (genExpr ctx e B) P) (S : State) :
    match e.run ω S.trace with
    | (.ok v, t) => Star (step ω P) (S.at B) ((S.after v t).at (genExpr ctx e B))
    | (.raise x, t) => ∃ S', S'.slots = S.slots ∧ S'.trace = t ∧ S'.flight.value = x ∧ Unwinds ω P ctx (S.at B) S' := by
  have hg := (Grew.refl hwf).emit (.const e.const)
  have hP' := ((Grew.refl hg.wf).calls ctx e.calls).placed hP
  have hconst : Star (step ω P) (S.at B) ((S.after e.const S.trace).at (B.emit (.const e.const))) := hP'.next rfl
  have hrest := run_calls (ω := ω) e.calls hg.wf hP (S.after e.const S.trace)
  unfold Expr.run
  split
  next v t heq =>
    rw [show runCalls ω (S.after e.const S.trace).acc e.calls (S.after e.const S.trace).trace = (.ok v, t) from heq] at hrest
    exact hconst.trans hrest
  next x t heq =>
    rw [show runCalls ω (S.after e.const S.trace).acc e.calls (S.after e.const S.trace).trace = (.raise x, t) from heq] at hrest
    obtain ⟨S', hs, ht, he, hun⟩ := hrest
    exact ⟨S', hs, ht, he, hun.of_star hconst⟩

theorem runtimeCall_open {B : Builder} (hwf : B.WF) (ctx : Ctx) (f : Rt) :
    (emitRuntimeCall ctx f B).terminated = false := by
  unfold emitRuntimeCall
  split
  · apply open_of_empty
    have := hwf.cur_lt
    show ((B.createBlocks 1).emit _).code B.next = []
    rw [emit_code_ne _ _ (by simp only [createBlocks_cur]; omega)]
    exact hwf.fresh _ (Nat.le_refl _)
  · simp [Instr.isTerminator]

theorem genCalls_open (ctx : Ctx) : ∀ (cs : List Call) {B : Builder}, B.WF → B.terminated = false →
    (genCalls ctx cs B).terminated = false
  | [], _, _, h => h
  | _ :: cs, _, hwf, _ => genCalls_open ctx cs ((Grew.refl hwf).runtimeCall ctx _).wf (runtimeCall_open hwf ctx _)

theorem genExpr_open {B : Builder} (hwf : B.WF) (ctx : Ctx) (e : Expr) : (genExpr ctx e B).terminated = false :=
  genCalls_open ctx e.calls ((Grew.refl hwf).emit _).wf (by simp [Instr.isTerminator])

end

end Pylang.Aot
