/-
The simulation between a statement and its code.

`Ends` says where the machine is when a statement has ended: after its code,
at the `finally` block of the nearest `try` with the state word set, at a block
of the loop, at a landing pad, or halted. Each visitor has a lemma about what it
is given for its parts (`Sim`): here those of the simple statements, of branches
and of loops.
-/
import Pylang.Aot.Parts
import Pylang.Aot.Guard

namespace Pylang.Aot

open Builder

/-- The guard's view of the context agrees with the generator's stacks. -/
structure Matches (ctx : Ctx) (K : Nest) : Prop where
  loops : K.inLoop = ctx.currentLoop.isSome
  finally_ : K.inFinally = ctx.nearestFinallyTry.isSome
  inner : K.inFinallyInLoop = true → K.inFinally = true
  free : K.enclosed = false → ctx = .top

section
variable (ω : Env) (P : Nat → List Instr)

/-- From `X` to the `finally` block `f` with the slot `k` as `p` says, the slots below `n` otherwise as in `S`. -/
def Pends (n : Nat) (S X : State) (f k : Nat) (p : SlotState → Prop) (t : Trace) : Prop :=
  ∃ S' : State, (∀ j, j < n → j ≠ k → S'.slots j = S.slots j) ∧ S'.trace = t ∧ p (S'.slots k) ∧ Star (step ω P) X (S'.goto f)

/-- From `X` to the block `b`. -/
def Goes (n : Nat) (S X : State) (b : Nat) (t : Trace) : Prop :=
  ∃ S', Frame n S S' ∧ S'.trace = t ∧ Star (step ω P) X (S'.goto b)

def LeavesLoop (ctx : Ctx) (K : Nest) (n : Nat) (S X : State) (state : Nat) (target : LoopContext → Nat) (t : Trace) :
    Prop :=
  if K.inFinallyInLoop then
    ∃ f k, ctx.nearestFinallyTry = some (f, k) ∧ Pends ω P n S X f k (fun s => s.state = state) t
  else ∃ l, ctx.currentLoop = some l ∧ Goes ω P n S X (target l) t

def LeavesFunction (ctx : Ctx) (n : Nat) (S X : State) (v : Value) (t : Trace) : Prop :=
  match ctx.nearestFinallyTry with
  | some (f, k) => Pends ω P n S X f k (fun s => s.state = 2 ∧ s.retval = v) t
  | none => HaltsWith (step ω P) X (.returned v t)

/-- Where a completion other than the normal one leads. -/
def Leaves (ctx : Ctx) (K : Nest) (n : Nat) (S X : State) : Completion → Trace → Prop
  | .normal, _ => False
  | .ret v, t => LeavesFunction ω P ctx n S X v t
  | .brk, t => LeavesLoop ω P ctx K n S X 3 LoopContext.breakBb t
  | .cont, t => LeavesLoop ω P ctx K n S X 4 LoopContext.continueBb t
  | .raise e, t => ∃ S', Frame n S S' ∧ S'.trace = t ∧ S'.flight.value = e ∧ Unwinds ω P ctx X S'

/-- The machine is somewhere with these calls made. -/
def Gets (X : State) (t : Trace) : Prop := ∃ S' : State, Star (step ω P) X S' ∧ S'.trace = t

/-- From `X`, where the slots are those of `S`, the code up to `B'` ends as the result says. -/
def Ends (ctx : Ctx) (K : Nest) (n : Nat) (S X : State) (B' : Builder) : Result → Prop
  | (none, t) => Gets ω P X t
  | (some .normal, t) =>
    ∃ S', Frame n S S' ∧ S'.trace = t ∧ B'.terminated = false ∧ Star (step ω P) X (S'.at B')
  | (some c, t) => Leaves ω P ctx K n S X c t

/-- The code `gen` emits does what `eval` says in every run that meets the guard. -/
def Sim (gen : Ctx → Builder → Option Builder) (eval : Trace → Result) (guard : Nest → Trace → Bool) : Prop :=
  ∀ ⦃ctx : Ctx⦄ ⦃K : Nest⦄ ⦃B B' : Builder⦄ ⦃S : State⦄, gen ctx B = some B' → B.WF → B.terminated = false →
    Matches ctx K → Placed B' P → guard K S.trace = true → Ends ω P ctx K B.slots S (S.at B) B' (eval S.trace)

end

section
variable {ω : Env} {P : Nat → List Instr}

theorem Pends.weaken {n m : Nat} {S S' X X' : State} {f k : Nat} {p : SlotState → Prop} {t : Trace}
    (h : Pends ω P m S' X' f k p t) (hX : Star (step ω P) X X') (hS : Frame n S S') (hle : n ≤ m) :
    Pends ω P n S X f k p t := by
  obtain ⟨T, hT, ht, hp, hs⟩ := h
  exact ⟨T, fun j hj hne => (hT j (Nat.lt_of_lt_of_le hj hle) hne).trans (hS j hj), ht, hp, hX.trans hs⟩

theorem Goes.weaken {n m : Nat} {S S' X X' : State} {b : Nat} {t : Trace} (h : Goes ω P m S' X' b t)
    (hX : Star (step ω P) X X') (hS : Frame n S S') (hle : n ≤ m) : Goes ω P n S X b t := by
  obtain ⟨T, hT, ht, hs⟩ := h
  exact ⟨T, hS.trans (hT.mono hle), ht, hX.trans hs⟩

theorem Gets.of_star {X X' : State} {t : Trace} (h : Gets ω P X' t) (hX : Star (step ω P) X X') : Gets ω P X t := by
  obtain ⟨T, hs, ht⟩ := h
  exact ⟨T, hX.trans hs, ht⟩

theorem LeavesLoop.weaken {c ctx' : Ctx} {K : Nest} {n m : Nat} {S S' X X' : State} {state : Nat}
    {target : LoopContext → Nat} {t : Trace} (h : LeavesLoop ω P ctx' K m S' X' state target t)
    (hX : Star (step ω P) X X') (hS : Frame n S S') (hle : n ≤ m)
    (hf : ctx'.nearestFinallyTry = c.nearestFinallyTry) (hl : ctx'.currentLoop = c.currentLoop) :
    LeavesLoop ω P c K n S X state target t := by
  unfold LeavesLoop at *
  rw [hf, hl] at h
  split at h
  · obtain ⟨f, k, hfk, hp⟩ := h
    rw [if_pos ‹_›]
    exact ⟨f, k, hfk, hp.weaken hX hS hle⟩
  · obtain ⟨l, hcl, hg⟩ := h
    rw [if_neg ‹_›]
    exact ⟨l, hcl, hg.weaken hX hS hle⟩

theorem LeavesFunction.weaken {c ctx' : Ctx} {n m : Nat} {S S' X X' : State} {v : Value} {t : Trace}
    (h : LeavesFunction ω P ctx' m S' X' v t) (hX : Star (step ω P) X X') (hS : Frame n S S') (hle : n ≤ m)
    (hf : ctx'.nearestFinallyTry = c.nearestFinallyTry) : LeavesFunction ω P c n S X v t := by
  unfold LeavesFunction at *
  rw [hf] at h
  split at h
  next => exact Pends.weaken h hX hS hle
  next => exact .of_star hX h

/-- A completion that leads out of a part leads out of the whole, in a context with the same stacks. -/
theorem Leaves.weaken {ctx ctx' : Ctx} {K : Nest} {n m : Nat} {S S' X X' : State} {c : Completion} {t : Trace}
    (h : Leaves ω P ctx' K m S' X' c t) (hX : Star (step ω P) X X') (hS : Frame n S S') (hle : n ≤ m)
    (hf : ctx'.nearestFinallyTry = ctx.nearestFinallyTry) (hl : ctx'.currentLoop = ctx.currentLoop)
    (hu : ∀ e, c = .raise e → ctx'.unwindDest = ctx.unwindDest) : Leaves ω P ctx K n S X c t := by
  cases c with
  | normal => exact h
  | ret v => exact LeavesFunction.weaken h hX hS hle hf
  | brk => exact LeavesLoop.weaken h hX hS hle hf hl
  | cont => exact LeavesLoop.weaken h hX hS hle hf hl
  | raise e =>
    obtain ⟨T, hT, ht, he, hun⟩ := h
    refine ⟨T, hS.trans (hT.mono hle), ht, he, ?_⟩
    unfold Unwinds at *
    rw [← hu e rfl]
    split at hun
    next => exact hX.trans hun
    next => exact .of_star hX hun

theorem Leaves.of_star {ctx : Ctx} {K : Nest} {n m : Nat} {S S' X X' : State} {c : Completion} {t : Trace}
    (h : Leaves ω P ctx K m S' X' c t) (hX : Star (step ω P) X X') (hS : Frame n S S') (hle : n ≤ m) :
    Leaves ω P ctx K n S X c t :=
  h.weaken hX hS hle rfl rfl fun _ _ => rfl

theorem Leaves.ends {ctx : Ctx} {K : Nest} {n : Nat} {S X : State} {c : Completion} {t : Trace}
    (h : Leaves ω P ctx K n S X c t) (B' : Builder) : Ends ω P ctx K n S X B' (some c, t) := by
  cases c with
  | normal => exact h.elim
  | ret v => exact h
  | brk => exact h
  | cont => exact h
  | raise e => exact h

theorem Ends.leaves {ctx : Ctx} {K : Nest} {n : Nat} {S X : State} {B' : Builder} {c : Completion} {t : Trace}
    (h : Ends ω P ctx K n S X B' (some c, t)) (hc : c ≠ .normal) : Leaves ω P ctx K n S X c t := by
  cases c with
  | normal => exact absurd rfl hc
  | ret v => exact h
  | brk => exact h
  | cont => exact h
  | raise e => exact h

theorem Ends.of_star {ctx : Ctx} {K : Nest} {n m : Nat} {S S' X X' : State} {B' : Builder} {r : Result}
    (h : Ends ω P ctx K m S' X' B' r) (hX : Star (step ω P) X X') (hS : Frame n S S') (hle : n ≤ m) :
    Ends ω P ctx K n S X B' r := by
  obtain ⟨c, t⟩ := r
  cases c with
  | none => exact Gets.of_star h hX
  | some c =>
    by_cases hc : c = .normal
    · subst hc
      obtain ⟨T, hT, ht, hopen, hs⟩ := h
      exact ⟨T, hS.trans (hT.mono hle), ht, hopen, hX.trans hs⟩
    · exact ((h.leaves hc).of_star hX hS hle).ends B'

theorem bind_cases {e : Expr} {t : Trace} {k : Value → Trace → Result} {Q : Result → Prop}
    (hok : ∀ v t', e.run ω t = (.ok v, t') → Q (k v t'))
    (hraise : ∀ x t', e.run ω t = (.raise x, t') → Q (some (.raise x), t')) : Q (e.bind ω t k) := by
  unfold Expr.bind
  split
  next v t' heq => exact hok v t' heq
  next x t' heq => exact hraise x t' heq

theorem run_ok {ctx : Ctx} {S : State} {B : Builder} {e : Expr} {v : Value} {t : Trace} (hwf : B.WF)
    (hP : Placed (genExpr ctx e B) P) (h : e.run ω S.trace = (.ok v, t)) :
    Star (step ω P) (S.at B) ((S.after v t).at (genExpr ctx e B)) := by
  have hrun := run_expr (ω := ω) hwf hP S
  rw [h] at hrun
  exact hrun

theorem run_raise {ctx : Ctx} {K : Nest} {n : Nat} {S : State} {B : Builder} {e : Expr} {x : Value} {t : Trace}
    (hwf : B.WF) (hP : Placed (genExpr ctx e B) P) (h : e.run ω S.trace = (.raise x, t)) :
    Leaves ω P ctx K n S (S.at B) (.raise x) t := by
  have hrun := run_expr (ω := ω) hwf hP S
  rw [h] at hrun
  obtain ⟨S', hs, ht, hx, hun⟩ := hrun
  exact ⟨S', fun j _ => congrFun hs j, ht, hx, hun⟩

theorem Ends.bind {ctx : Ctx} {K : Nest} {n : Nat} {S : State} {B B' : Builder} {e : Expr} {k : Value → Trace → Result}
    (hwf : B.WF) (hP : Placed (genExpr ctx e B) P)
    (hk : ∀ v t, e.run ω S.trace = (.ok v, t) →
      Ends ω P ctx K n S ((S.after v t).at (genExpr ctx e B)) B' (k v t)) :
    Ends ω P ctx K n S (S.at B) B' (e.bind ω S.trace k) :=
  bind_cases (fun v t h => (hk v t h).of_star (run_ok hwf hP h) .refl (Nat.le_refl _))
    fun _ _ h => (run_raise hwf hP h).ends B'

theorem Expr.all_ok {e : Expr} {t t' : Trace} {v : Value} {k : Value → Trace → Bool} (h : e.all ω t k = true)
    (hrun : e.run ω t = (.ok v, t')) : k v t' = true := by
  unfold Expr.all at h
  rw [hrun] at h
  exact h

theorem Expr.all_true (e : Expr) (t : Trace) : (e.all ω t fun _ _ => true) = true := by
  unfold Expr.all
  split <;> rfl

/-! ## Statements without parts -/

theorem sim_expr (e : Expr) :
    Sim ω P (fun ctx B => some (genExpr ctx e B)) (fun t => e.bind ω t fun _ t => (some .normal, t))
      (fun _ _ => true) := by
  intro ctx K B B' S h hwf _ _ hP _
  cases h
  refine Ends.bind hwf hP fun v t hrun => ?_
  exact ⟨S.after v t, .refl, rfl, genExpr_open hwf ctx e, .refl⟩

theorem sim_return (e : Expr) :
    Sim ω P (fun ctx B => some (genReturn ctx e B)) (fun t => e.bind ω t fun v t => (some (.ret v), t))
      (fun _ _ => true) := by
  intro ctx K B B' S h hwf _ _ hP _
  cases h
  have hg := (Grew.refl hwf).expr ctx e
  have hP₀ : Placed (genExpr ctx e B) P := by
    have hret : Grew (genExpr ctx e B) (genReturn ctx e B) := by
      unfold genReturn
      simp only
      split
      · exact (((Grew.refl hg.wf).emit _).emit _).emit _
      · exact (Grew.refl hg.wf).emit _
    exact hret.placed hP
  refine Ends.bind hwf hP₀ fun v t hrun => ?_
  unfold genReturn at hP
  unfold Ends Leaves LeavesFunction
  simp only at hP ⊢
  split
  next f k hf =>
    simp only [hf] at hP
    have hP₂ := ((Grew.refl ((hg.emit (.storeRet k)).emit (.storeState k 2)).wf).emit (.br f)).placed hP
    have hP₁ := ((Grew.refl (hg.emit (.storeRet k)).wf).emit (.storeState k 2)).placed hP₂
    have s₁ : Star (step ω P) ((S.after v t).at (genExpr ctx e B))
        (((S.after v t).setSlot k { S.slots k with retval := v }).at _) := hP₁.next rfl
    have s₂ := s₁.trans (hP₂.storeState _)
    refine ⟨_, ?_, ?_, ?_, s₂.trans (hP.br _)⟩
    · intro j _ hne
      simp [State.setSlot, Function.update_of_ne hne, State.after]
    · rfl
    · simp [State.setSlot]
  next hf =>
    simp only [hf] at hP
    exact ⟨_, .refl, (step_at hP _)⟩

theorem sim_raise (e : Expr) (c : Call) :
    Sim ω P (fun ctx B => some (genRaise ctx e c B))
      (fun t => e.bind ω t fun _ t => (some (.raise (ω.thrown t c)), c :: t)) (fun _ _ => true) := by
  intro ctx K B B' S h hwf _ _ hP _
  cases h
  have hg := (Grew.refl hwf).expr ctx e
  have hg₁ := (Grew.refl hg.wf).runtimeCall ctx (.raise c)
  have hg₂ := (Grew.refl hg₁.wf).emit .unreachable
  have hP₁ : Placed (emitRuntimeCall ctx (.raise c) (genExpr ctx e B)) P := hg₂.placed hP
  refine Ends.bind hwf (hg₁.placed hP₁) fun v t hrun => ?_
  exact ⟨(S.after v t).raising (ω.thrown t c) (c :: t), .refl, rfl, rfl, run_throw hP₁ rfl⟩

/-- Under the guard a `break` or `continue` goes where it should. -/
theorem loopExit_leaves {state : Nat} {target : LoopContext → Nat} {ctx : Ctx} {K : Nest} {B B' : Builder} {n : Nat}
    {S : State} (h : genLoopExit state target ctx B = some B') (hwf : B.WF) (hm : Matches ctx K) (hP : Placed B' P)
    (hguard : K.loopExit = true) : LeavesLoop ω P ctx K n S (S.at B) state target S.trace := by
  simp only [Nest.loopExit, Bool.and_eq_true, Bool.or_eq_true, Bool.not_eq_true'] at hguard
  unfold genLoopExit at h
  unfold LeavesLoop
  split at h
  next f k hf =>
    cases h
    have hin : K.inFinally = true := by simp [hm.finally_, hf]
    have hinner : K.inFinallyInLoop = true := by simpa [hin] using hguard.2
    rw [if_pos hinner]
    have hP₁ := ((Grew.refl ((Grew.refl hwf).emit (.storeState k state)).wf).emit (.br f)).placed hP
    refine ⟨f, k, hf, S.setSlot k { S.slots k with state }, ?_, rfl, ?_, (hP₁.storeState S).trans (hP.br _)⟩
    · intro j _ hne
      simp [State.setSlot, Function.update_of_ne hne]
    · simp
  next hf =>
    obtain ⟨l, hl, rfl⟩ := Option.map_eq_some_iff.mp h
    have hin : K.inFinally = false := by simp [hm.finally_, hf]
    have hinner : ¬K.inFinallyInLoop = true := fun hi => by simp [hm.inner hi] at hin
    rw [if_neg hinner]
    exact ⟨l, hl, S, .refl, rfl, hP.br S⟩

theorem sim_break : Sim ω P genBreak (fun t => (some .brk, t)) (fun K _ => K.loopExit) := by
  intro ctx K B B' S h hwf _ hm hP hguard
  exact loopExit_leaves h hwf hm hP hguard

theorem sim_continue : Sim ω P genContinue (fun t => (some .cont, t)) (fun K _ => K.loopExit) := by
  intro ctx K B B' S h hwf _ hm hP hguard
  exact loopExit_leaves h hwf hm hP hguard

/-! ## Blocks -/

/-- As `Ends`, with the normal completion at the start of a block. -/
def EndsAt (ω : Env) (P : Nat → List Instr) (ctx : Ctx) (K : Nest) (n : Nat) (S X : State) (b : Nat) : Result → Prop
  | (none, t) => Gets ω P X t
  | (some .normal, t) => Goes ω P n S X b t
  | (some c, t) => Leaves ω P ctx K n S X c t

theorem Leaves.endsAt {ctx : Ctx} {K : Nest} {n : Nat} {S X : State} {c : Completion} {t : Trace}
    (h : Leaves ω P ctx K n S X c t) (b : Nat) : EndsAt ω P ctx K n S X b (some c, t) := by
  cases c with
  | normal => exact h.elim
  | ret v => exact h
  | brk => exact h
  | cont => exact h
  | raise e => exact h

theorem EndsAt.leaves {ctx : Ctx} {K : Nest} {n : Nat} {S X : State} {b : Nat} {c : Completion} {t : Trace}
    (h : EndsAt ω P ctx K n S X b (some c, t)) (hc : c ≠ .normal) : Leaves ω P ctx K n S X c t := by
  cases c with
  | normal => exact absurd rfl hc
  | ret v => exact h
  | brk => exact h
  | cont => exact h
  | raise e => exact h

theorem EndsAt.of_star {ctx : Ctx} {K : Nest} {n m : Nat} {S S' X X' : State} {b : Nat} {r : Result}
    (h : EndsAt ω P ctx K m S' X' b r) (hX : Star (step ω P) X X') (hS : Frame n S S') (hle : n ≤ m) :
    EndsAt ω P ctx K n S X b r := by
  obtain ⟨c, t⟩ := r
  cases c with
  | none => exact Gets.of_star h hX
  | some c =>
    by_cases hc : c = .normal
    · subst hc
      exact Goes.weaken h hX hS hle
    · exact ((h.leaves hc).of_star hX hS hle).endsAt b

theorem EndsAt.bind {ctx : Ctx} {K : Nest} {n : Nat} {S : State} {B : Builder} {b : Nat} {e : Expr}
    {k : Value → Trace → Result} (hwf : B.WF) (hP : Placed (genExpr ctx e B) P)
    (hk : ∀ v t, e.run ω S.trace = (.ok v, t) →
      EndsAt ω P ctx K n S ((S.after v t).at (genExpr ctx e B)) b (k v t)) :
    EndsAt ω P ctx K n S (S.at B) b (e.bind ω S.trace k) :=
  bind_cases (fun v t h => (hk v t h).of_star (run_ok hwf hP h) .refl (Nat.le_refl _))
    fun _ _ h => (run_raise hwf hP h).endsAt b

theorem Ends.br {ctx : Ctx} {K : Nest} {n : Nat} {S X : State} {B : Builder} {b : Nat} {r : Result}
    (h : Ends ω P ctx K n S X B r) (hP : Placed (B.brIfOpen b) P) : EndsAt ω P ctx K n S X b r := by
  obtain ⟨c, t⟩ := r
  cases c with
  | none => exact h
  | some c =>
    by_cases hc : c = .normal
    · subst hc
      obtain ⟨T, hT, ht, hopen, hs⟩ := h
      exact ⟨T, hT, ht, hs.trans (hP.brIfOpen hopen T)⟩
    · exact (h.leaves hc).endsAt b

/-- The insertion point moves on to the block reached. -/
theorem EndsAt.enter {ctx : Ctx} {K : Nest} {n : Nat} {S X : State} {B : Builder} {b : Nat} {r : Result}
    (h : EndsAt ω P ctx K n S X b r) (hempty : B.code b = []) : Ends ω P ctx K n S X (B.setInsertPoint b) r := by
  obtain ⟨c, t⟩ := r
  cases c with
  | none => exact h
  | some c =>
    by_cases hc : c = .normal
    · subst hc
      obtain ⟨T, hT, ht, hs⟩ := h
      refine ⟨T, hT, ht, open_of_empty hempty, ?_⟩
      rw [← goto_at hempty]
      exact hs
    · exact (h.leaves hc).ends _

section
variable {gen : Ctx → Builder → Option Builder} {eval : Trace → Result} {guard : Nest → Trace → Bool}

theorem run_block (hs : Sim ω P gen eval guard) {ctx : Ctx} {K : Nest} {B B' : Builder} {S : State} {bb after : Nat}
    (h : genBlock (gen ctx) bb after B = some B') (hgen : Grows (gen ctx)) (hwf : B.WF) (hlt : bb < B.next)
    (hempty : B.code bb = []) (hm : Matches ctx K) (hP : Placed B' P) (hguard : guard K S.trace = true) :
    EndsAt ω P ctx K B.slots S (S.goto bb) after (eval S.trace) := by
  unfold genBlock at h
  obtain ⟨B₁, h₁, rfl⟩ := Option.map_eq_some_iff.mp h
  have hwf₁ := hwf.enter hlt
  have hP₁ := ((Grew.refl (hgen _ _ hwf₁ h₁).wf).brIfOpen after).placed hP
  rw [goto_at hempty]
  exact (hs h₁ hwf₁ (open_of_empty hempty) hm hP₁ hguard).br hP

theorem run_orelse (hs : Sim ω P gen eval guard) {present : Bool}
    (habsent : present = false → ∀ t, eval t = (some .normal, t)) {ctx : Ctx} {K : Nest} {B B' : Builder} {S : State}
    {bb after : Nat} (h : genOrelse present (gen ctx) bb after B = some B') (hgen : Grows (gen ctx)) (hwf : B.WF)
    (hlt : bb < B.next) (hempty : B.code bb = []) (hm : Matches ctx K) (hP : Placed B' P)
    (hguard : guard K S.trace = true) :
    EndsAt ω P ctx K B.slots S (S.goto (bif present then bb else after)) after (eval S.trace) := by
  unfold genOrelse at h
  cases present with
  | true => exact run_block hs h hgen hwf hlt hempty hm hP hguard
  | false =>
    rw [habsent rfl]
    exact ⟨S, .refl, rfl, .refl⟩

end

/-! ## Branches and loops -/

section
variable {genThen genBody genElse : Ctx → Builder → Option Builder} {evalThen evalBody evalElse : Trace → Result}
  {guardThen guardBody guardElse : Nest → Trace → Bool} {hasElse : Bool}

/-- An expression first, its value dropped. -/
theorem sim_afterExpr (e : Expr) (hs : Sim ω P genBody evalBody guardBody) (hg : ∀ ctx, Grows (genBody ctx)) :
    Sim ω P (fun ctx B => genBody ctx (genExpr ctx e B)) (fun t => e.bind ω t fun _ t => evalBody t)
      (fun K t => e.all ω t fun _ t => guardBody K t) := by
  intro ctx K B B' S h hwf _ hm hP hguard
  have hge := (Grew.refl hwf).expr ctx e
  refine Ends.bind hwf ((hg ctx _ _ hge.wf h).placed hP) fun v t hrun => ?_
  have hrest := hs (S := S.after v t) h hge.wf (genExpr_open hwf ctx e) hm hP (Expr.all_ok hguard hrun)
  exact hrest.of_star .refl .refl hge.slots_le

theorem sim_if (test : Expr) (hthen : Sim ω P genThen evalThen guardThen) (helse : Sim ω P genElse evalElse guardElse)
    (gthen : ∀ ctx, Grows (genThen ctx)) (gelse : ∀ ctx, Grows (genElse ctx))
    (habsent : hasElse = false → ∀ t, evalElse t = (some .normal, t)) :
    Sim ω P (fun ctx B => genIf ctx test (genThen ctx) hasElse (genElse ctx) B)
      (fun t => test.bind ω t fun v t => if truthy v then evalThen t else evalElse t)
      (fun K t => test.all ω t fun v t => if truthy v then guardThen K t else guardElse K t) := by
  intro ctx K B B' S h hwf _ hm hP hguard
  obtain ⟨Be, Bc, B₁, B₂, L, rfl⟩ := genIf_layout (gthen ctx) (gelse ctx) hwf h hP
  refine Ends.bind hwf (L.test_eq ▸ L.test_placed) fun v t hrun => ?_
  rw [L.test_eq]
  have hguard' := Expr.all_ok hguard hrun
  have hbr : Star (step ω P) ((S.after v t).at Be)
      ((S.after v t).goto (bif truthy v then Be.next else bif hasElse then Be.next + 1 else Be.next + 2)) :=
    Placed.condBr (B := Be.createBlocks 3) (L.branch_eq ▸ L.branch_placed) (S.after v t)
  cases hv : truthy v with
  | true =>
    simp only [hv, if_true] at hguard' ⊢
    rw [hv, cond_true] at hbr
    have hrun := run_block hthen (S := S.after v t) L.then_eq (gthen ctx) L.then_at.grew.wf L.then_at.lt L.then_at.empty
      hm L.then_placed hguard'
    exact (hrun.of_star hbr .refl L.then_at.grew.slots_le).enter L.merge_at.empty
  | false =>
    simp only [hv] at hguard' ⊢
    rw [hv, cond_false] at hbr
    have hrun := run_orelse helse (S := S.after v t) habsent L.else_eq (gelse ctx) L.else_at.grew.wf L.else_at.lt
      L.else_at.empty hm L.else_placed hguard'
    exact (hrun.of_star hbr .refl L.else_at.grew.slots_le).enter L.merge_at.empty

/-- Inside the loop's context `break` and `continue` lead to its blocks and everything else leads on. -/
theorem leaves_loopBody {ctx : Ctx} {K : Nest} {l : LoopContext} {n : Nat} {S X : State} {c : Completion} {t : Trace}
    (h : Leaves ω P (ctx.pushLoop l) K.loopBody n S X c t) :
    match c with
    | .brk => Goes ω P n S X l.breakBb t
    | .cont => Goes ω P n S X l.continueBb t
    | c => Leaves ω P ctx K n S X c t := by
  cases c with
  | normal => exact h
  | brk => simpa [Leaves, LeavesLoop, Nest.loopBody, Ctx.pushLoop, Ctx.currentLoop] using h
  | cont => simpa [Leaves, LeavesLoop, Nest.loopBody, Ctx.pushLoop, Ctx.currentLoop] using h
  | ret v => exact h
  | raise e => exact h

/-- The loop, from its condition block: `m` bounds the rounds. -/
theorem run_loop {test : Expr} {ctx : Ctx} {K : Nest} {n : Nat} {l : LoopContext} {p q : Nat} {B' : Builder}
    {guardBody guardElse : Trace → Bool}
    (htest : ∀ (S : State) (k : Value → Trace → Result), (∀ v t, test.run ω S.trace = (.ok v, t) →
      Ends ω P ctx K n S ((S.after v t).goto (bif truthy v then p else q)) B' (k v t)) →
      Ends ω P ctx K n S (S.goto l.continueBb) B' (test.bind ω S.trace k))
    (hbody : ∀ S : State, guardBody S.trace = true →
      EndsAt ω P (ctx.pushLoop l) K.loopBody n S (S.goto p) l.continueBb (evalBody S.trace))
    (helse : ∀ S : State, guardElse S.trace = true → Ends ω P ctx K n S (S.goto q) B' (evalElse S.trace))
    (hbreak : ∀ (S X : State) (t : Trace), Goes ω P n S X l.breakBb t → Ends ω P ctx K n S X B' (some .normal, t)) :
    ∀ (m : Nat) (S : State), loopGuarded ω test evalBody guardBody guardElse m S.trace = true →
      Ends ω P ctx K n S (S.goto l.continueBb) B' (loop ω test evalBody evalElse m S.trace) := by
  intro m
  induction m with
  | zero =>
    intro S _
    exact ⟨_, .refl, rfl⟩
  | succ m ih =>
    intro S hguard
    refine htest S _ fun v t hrun => ?_
    have hguard' := Expr.all_ok hguard hrun
    have hframe : Frame n S (S.after v t) := .refl
    cases hv : truthy v with
    | false =>
      simp only [hv] at hguard' ⊢
      exact (helse (S.after v t) hguard').of_star .refl hframe (Nat.le_refl _)
    | true =>
      simp only [hv, if_true, Bool.and_eq_true] at hguard' ⊢
      obtain ⟨hok, hnext⟩ := hguard'
      have hends := hbody (S.after v t) hok
      -- another round from wherever this one got back to the condition
      have hround : ∀ t', loopGuarded ω test evalBody guardBody guardElse m t' = true →
          Goes ω P n (S.after v t) ((S.after v t).goto p) l.continueBb t' →
          Ends ω P ctx K n S ((S.after v t).goto p) B' (loop ω test evalBody evalElse m t') := by
        intro t' hg hgoes
        obtain ⟨T, hT, rfl, hs⟩ := hgoes
        exact (ih T hg).of_star hs (hframe.trans hT) (Nat.le_refl _)
      rw [show (S.after v t).trace = t from rfl] at hends
      split
      next t' heq =>
        rw [heq] at hends hnext
        exact hround t' hnext hends
      next t' heq =>
        rw [heq] at hends hnext
        exact hround t' hnext (leaves_loopBody (K := K) (c := .cont) hends)
      next t' heq =>
        rw [heq] at hends
        exact hbreak _ _ t' (leaves_loopBody (K := K) (c := .brk) hends)
      next r hnormal hcont hbrk =>
        generalize evalBody t = r at hends hnormal hcont hbrk ⊢
        obtain ⟨c, t'⟩ := r
        cases c with
        | none => exact hends
        | some c =>
          cases c with
          | normal => exact (hnormal t' rfl).elim
          | brk => exact (hbrk t' rfl).elim
          | cont => exact (hcont t' rfl).elim
          | ret w => exact leaves_loopBody (K := K) (c := .ret w) hends
          | raise e => exact leaves_loopBody (K := K) (c := .raise e) hends

/-- A loop with `target` stored to at the start of its body. -/
theorem sim_loop (test : Expr) (target : List Call) (hbody : Sim ω P genBody evalBody guardBody)
    (helse : Sim ω P genElse evalElse guardElse) (gbody : ∀ ctx, Grows (genBody ctx))
    (gelse : ∀ ctx, Grows (genElse ctx)) (habsent : hasElse = false → ∀ t, evalElse t = (some .normal, t)) (m : Nat) :
    Sim ω P (fun ctx B => genLoop ctx test target genBody hasElse (genElse ctx) B)
      (loop ω test (fun t => (Expr.mk target 0).bind ω t fun _ t => evalBody t) evalElse m)
      (fun K => loopGuarded ω test (fun t => (Expr.mk target 0).bind ω t fun _ t => evalBody t)
        (fun t => (Expr.mk target 0).all ω t fun _ t => guardBody K.loopBody t) (guardElse K) m) := by
  intro ctx K B B' S h hwf _ hm hP hguard
  obtain ⟨Bj, Be, Bt, B₁, B₂, L, rfl⟩ := genLoop_layout gbody (gelse ctx) hwf h hP
  have htarget := sim_afterExpr ⟨target, 0⟩ hbody gbody
  have gtarget : ∀ inner, Grows ((fun ctx B => genBody ctx (genExpr ctx ⟨target, 0⟩ B)) inner) :=
    fun inner _ _ hwf h => (gbody inner).step ((Grew.refl hwf).expr inner _) h
  have hm' : Matches (ctx.pushLoop ⟨B.next + 3, B.next⟩) K.loopBody :=
    ⟨rfl, hm.finally_, fun hi => by simp [Nest.loopBody] at hi, fun he => by cases he⟩
  have henter : Star (step ω P) (S.at B) (S.goto B.next) :=
    Placed.br (B := B.createBlocks 4) (L.jump_eq ▸ L.jump_placed) S
  refine Ends.of_star ?_ henter .refl (Nat.le_refl _)
  refine run_loop (l := ⟨B.next + 3, B.next⟩) (p := B.next + 1)
    (q := bif hasElse then B.next + 2 else B.next + 3) ?_ ?_ ?_ ?_ m S hguard
  · intro S k hk
    rw [goto_at L.cond_at.empty]
    refine Ends.bind L.cond_at.wf (L.test_eq ▸ L.test_placed) fun v t hrun => ?_
    rw [L.test_eq]
    exact (hk v t hrun).of_star (Placed.condBr (L.branch_eq ▸ L.branch_placed) (S.after v t)) .refl (Nat.le_refl _)
  · intro S hok
    have hrun := run_block htarget (S := S) L.body_eq (gtarget _) L.body_at.grew.wf L.body_at.lt L.body_at.empty hm'
      L.body_placed hok
    exact hrun.of_star .refl .refl L.body_at.grew.slots_le
  · intro S hok
    have hrun := run_orelse helse (S := S) habsent L.else_eq (gelse ctx) L.else_at.grew.wf L.else_at.lt L.else_at.empty hm
      L.else_placed hok
    exact (hrun.of_star .refl .refl L.else_at.grew.slots_le).enter L.merge_at.empty
  · intro S X t hgoes
    exact EndsAt.enter (r := (some .normal, t)) hgoes L.merge_at.empty

theorem sim_while (test : Expr) (hbody : Sim ω P genBody evalBody guardBody)
    (helse : Sim ω P genElse evalElse guardElse) (gbody : ∀ ctx, Grows (genBody ctx))
    (gelse : ∀ ctx, Grows (genElse ctx)) (habsent : hasElse = false → ∀ t, evalElse t = (some .normal, t)) (m : Nat) :
    Sim ω P (fun ctx B => genWhile ctx test genBody hasElse (genElse ctx) B) (loop ω test evalBody evalElse m)
      (fun K => loopGuarded ω test evalBody (guardBody K.loopBody) (guardElse K) m) :=
  sim_loop test [] hbody helse gbody gelse habsent m

theorem sim_for (iter : Expr) (next : Call) (target : List Call) (hbody : Sim ω P genBody evalBody guardBody)
    (helse : Sim ω P genElse evalElse guardElse) (gbody : ∀ ctx, Grows (genBody ctx))
    (gelse : ∀ ctx, Grows (genElse ctx)) (habsent : hasElse = false → ∀ t, evalElse t = (some .normal, t)) (m : Nat) :
    Sim ω P (fun ctx B => genFor ctx iter next target genBody hasElse (genElse ctx) B)
      (fun t => iter.bind ω t fun _ t =>
        loop ω ⟨[next], 0⟩ (fun t => (Expr.mk target 0).bind ω t fun _ t => evalBody t) evalElse m t)
      (fun K t => iter.all ω t fun _ t =>
        loopGuarded ω ⟨[next], 0⟩ (fun t => (Expr.mk target 0).bind ω t fun _ t => evalBody t)
          (fun t => (Expr.mk target 0).all ω t fun _ t => guardBody K.loopBody t) (guardElse K) m t) :=
  sim_afterExpr iter (sim_loop ⟨[next], 0⟩ target hbody helse gbody gelse habsent m)
    fun ctx _ _ hwf h => genLoop_grew gbody (gelse ctx) (.refl hwf) h

end

/-! ## Definitions -/

/-- The code of the function itself is somewhere else: the run goes past it. -/
theorem sim_def {gen : Ctx → Builder → Option Builder} (defaults make : Expr) (hgen : ∀ ctx, Grows (gen ctx)) :
    Sim ω P (fun ctx B => genDef ctx defaults gen make B)
      (fun t => defaults.bind ω t fun _ t => make.bind ω t fun _ t => (some .normal, t)) (fun K _ => !K.enclosed) := by
  have hmake : Sim ω P (fun ctx B => (compileFunctionBody ctx gen B).map fun B' => genExpr ctx make (B'.setInsertPoint B.cur))
      (fun t => make.bind ω t fun _ t => (some .normal, t)) (fun _ _ => true) := by
    intro ctx K B B' S h hwf hopen hm hP _
    obtain ⟨B₁, h₁, rfl⟩ := Option.map_eq_some_iff.mp h
    obtain ⟨hg, hcode⟩ := compileFunctionBody_back hgen hwf h₁
    have hback : S.at B = S.at (B₁.setInsertPoint B.cur) := by
      simp only [State.at, setInsertPoint_cur, setInsertPoint_code, hcode]
    rw [hback]
    have hends : Ends ω P ctx K (B₁.setInsertPoint B.cur).slots S (S.at (B₁.setInsertPoint B.cur))
        (genExpr ctx make (B₁.setInsertPoint B.cur)) (make.bind ω S.trace fun _ t => (some .normal, t)) :=
      Ends.bind hg.wf hP fun v t hrun => ⟨S.after v t, .refl, rfl, genExpr_open hg.wf ctx make, .refl⟩
    exact hends.of_star .refl .refl hg.slots_le
  intro ctx K B B' S h hwf hopen hm hP _
  refine sim_afterExpr defaults hmake (fun ctx B B' hwf h => ?_) h hwf hopen hm hP (defaults.all_true _)
  obtain ⟨B₁, h₁, rfl⟩ := Option.map_eq_some_iff.mp h
  exact (compileFunctionBody_back hgen hwf h₁).1.expr ctx make

end

end Pylang.Aot
