/-
The generated code does what Python prescribes, in every run that meets the
guard: it makes the same runtime calls in the same order, so every `finally`
body runs exactly once, and it ends the same way.
-/
import Mathlib
import Pylang.Aot.Simulation

namespace Pylang.Aot

open Builder

section
variable {ω : Env} {P : Nat → List Instr}

/-! ## Landing pads -/

/-- `S'` is `S` but for one slot. -/
def OnlySlot (k : Nat) (S S' : State) : Prop := (∀ j, j ≠ k → S'.slots j = S.slots j) ∧ S'.trace = S.trace

theorem OnlySlot.frame {n k : Nat} {S S' : State} (h : OnlySlot k S S') (hle : n ≤ k) : Frame n S S' :=
  fun j hj => h.1 j (by omega)

theorem exec_catchBegin (slot : Nat) (S : State) :
    ∃ S', (Rt.catchBegin slot).exec ω S = (S', false) ∧ S'.slots = S.slots ∧ S'.trace = S.trace := ⟨_, rfl, rfl, rfl⟩

theorem exec_catchEnd (S : State) :
    ∃ S', Rt.catchEnd.exec ω S = (S', false) ∧ S'.slots = S.slots ∧ S'.trace = S.trace := ⟨_, rfl, rfl, rfl⟩

theorem run_catchEnd {ctx : Ctx} {B : Builder} (hwf : B.WF) (hP : Placed (emitRuntimeCall ctx .catchEnd B) P)
    (S : State) : ∃ S' : State, S'.slots = S.slots ∧ S'.trace = S.trace ∧
      Star (step ω P) (S.at B) (S'.at (emitRuntimeCall ctx .catchEnd B)) := by
  obtain ⟨S', hexec, hslots, htrace⟩ := exec_catchEnd (ω := ω) S
  exact ⟨S', hslots, htrace, run_runtimeCall hwf hP hexec⟩

theorem run_landingPad {ctx : Ctx} {slot : Nat} {B : Builder} (hwf : B.WF) (hP : Placed (genLandingPad ctx slot B) P)
    (S : State) : ∃ S', OnlySlot slot S S' ∧ (S'.slots slot).state = 1 ∧
      Star (step ω P) (S.at B) (S'.at (genLandingPad ctx slot B)) := by
  have hg₁ := (Grew.refl hwf).emit (.storeLp slot)
  have hg₂ := (Grew.refl hg₁.wf).runtimeCall ctx (.catchBegin slot)
  have hP₂ := ((Grew.refl hg₂.wf).emit (.storeState slot 1)).placed hP
  have hP₁ := hg₂.placed hP₂
  have s₁ : Star (step ω P) (S.at B) ((S.setSlot slot { S.slots slot with lp := S.flight }).at (B.emit (.storeLp slot))) :=
    hP₁.next rfl
  obtain ⟨S₂, hexec, hslots, htrace⟩ :=
    exec_catchBegin (ω := ω) slot (S.setSlot slot { S.slots slot with lp := S.flight })
  have s₂ := s₁.trans (run_runtimeCall hg₁.wf hP₂ hexec)
  refine ⟨S₂.setSlot slot { S₂.slots slot with state := 1 }, ⟨fun j hj => ?_, htrace⟩, ?_,
    s₂.trans (Placed.storeState hP S₂)⟩
  · show Function.update S₂.slots slot _ j = _
    rw [Function.update_of_ne hj, hslots]
    exact Function.update_of_ne hj ..
  · rw [State.setSlot_self]

/-! ## `with` -/

/-- Where the code of the landing pad of a `with` is: `Be` ends with the call of `__exit__`, `Bt` with the test of its
answer and `Bm` with the way to `mergeBb`. -/
structure PadLayout (P : Nat → List Instr) (ctx : Ctx) (slot mergeBb : Nat) (onExc : Expr) (B Be Bt Bm : Builder) :
    Prop where
  exit_eq : genExpr ctx onExc (genLandingPad ctx slot B) = Be
  test_eq : (Be.createBlocks 2).emit (.condBr (Be.next + 1) Be.next) = Bt
  out_eq : (emitRuntimeCall ctx .catchEnd (Bt.setInsertPoint (Be.next + 1))).emit (.br mergeBb) = Bm
  pad_wf : (genLandingPad ctx slot B).WF
  pad_placed : Placed (genLandingPad ctx slot B) P
  exit_placed : Placed (genExpr ctx onExc (genLandingPad ctx slot B)) P
  test_placed : Placed Bt P
  suppressed_wf : (Bt.setInsertPoint (Be.next + 1)).WF
  suppressed_empty : Bt.code (Be.next + 1) = []
  suppressed_placed : Placed (emitRuntimeCall ctx .catchEnd (Bt.setInsertPoint (Be.next + 1))) P
  out_placed : Placed Bm P
  reraise_wf : (Bm.setInsertPoint Be.next).WF
  reraise_empty : Bm.code Be.next = []
  reraise_placed : Placed (emitRuntimeCall ctx .catchEnd (Bm.setInsertPoint Be.next)) P
  resume_placed : Placed ((emitRuntimeCall ctx .catchEnd (Bm.setInsertPoint Be.next)).emit (.resume slot)) P

theorem genWithLandingPad_layout {ctx : Ctx} {slot mergeBb : Nat} {onExc : Expr} {B : Builder} (hwf : B.WF)
    (hP : Placed (genWithLandingPad ctx slot mergeBb onExc B) P) :
    ∃ Be Bt Bm, PadLayout P ctx slot mergeBb onExc B Be Bt Bm := by
  have hgl := genLandingPad_grew (.refl hwf) ctx slot
  have hge := hgl.expr ctx onExc
  unfold genWithLandingPad at hP
  obtain ⟨Be, hBe⟩ : ∃ Be, genExpr ctx onExc (genLandingPad ctx slot B) = Be := ⟨_, rfl⟩
  rw [hBe] at hge hP
  have hR := (hge.wf.reserved (k := 2) (R := [Be.next, Be.next + 1]) (by simp)).grew
    ((Grew.refl (hge.createBlocks 2).wf).emit (.condBr (Be.next + 1) Be.next))
  have hgt := ((Grew.refl hge.wf).createBlocks 2).emit (.condBr (Be.next + 1) Be.next)
  have hws := hgt.wf.enter (b := Be.next + 1) (by simp)
  have hgs := (Grew.refl hws).runtimeCall ctx .catchEnd
  have hgm := hgs.emit (.br mergeBb)
  have hRm := (hR.enter (Q := [Be.next]) (Be.next + 1) (by simp)).grew hgm
  have hlt := hgs.next_le
  simp only [setInsertPoint_next, emit_next, createBlocks_next] at hlt
  have hwr := hgm.wf.enter (b := Be.next) (by simp only [emit_next]; omega)
  have hgr := (Grew.refl hwr).runtimeCall ctx .catchEnd
  have hPr := ((Grew.refl hgr.wf).emit (.resume slot)).placed hP
  have hPm := hgr.placed hPr
  have hPs := ((Grew.refl hgs.wf).emit (.br mergeBb)).placed hPm
  have hPt := hgs.placed hPs
  have hPe : Placed (genExpr ctx onExc (genLandingPad ctx slot B)) P := by
    rw [hBe]
    exact hgt.placed hPt
  exact ⟨Be, _, _, {
    exit_eq := hBe
    test_eq := rfl
    out_eq := rfl
    pad_wf := hgl.wf
    pad_placed := ((Grew.refl hgl.wf).expr ctx onExc).placed hPe
    exit_placed := hPe
    test_placed := hPt
    suppressed_wf := hws
    suppressed_empty := (hR (Be.next + 1) (by simp)).2.2
    suppressed_placed := hPs
    out_placed := hPm
    reraise_wf := hwr
    reraise_empty := (hRm Be.next (by simp)).2.2
    reraise_placed := hPr
    resume_placed := hP }⟩

/-- The landing pad of a `with` whose `__exit__` suppresses the exception. -/
theorem run_withLandingPad {ctx : Ctx} {K : Nest} {slot mergeBb : Nat} {onExc : Expr} {B : Builder} {S : State}
    {x : Value} (hwf : B.WF) (hP : Placed (genWithLandingPad ctx slot mergeBb onExc B) P)
    (hguard : (onExc.all ω S.trace fun v _ => truthy v) = true) :
    EndsAt ω P ctx K slot S (S.at B) mergeBb
      (onExc.bind ω S.trace fun v t => if truthy v then (some .normal, t) else (some (.raise x), t)) := by
  obtain ⟨Be, Bt, Bm, L⟩ := genWithLandingPad_layout hwf hP
  obtain ⟨S₁, honly, -, hs₁⟩ := run_landingPad (ω := ω) hwf L.pad_placed S
  rw [← honly.2] at hguard ⊢
  refine EndsAt.of_star ?_ hs₁ (honly.frame (Nat.le_refl _)) (Nat.le_refl _)
  refine EndsAt.bind L.pad_wf L.exit_placed fun v t hrun => ?_
  have hv : truthy v = true := Expr.all_ok hguard hrun
  rw [if_pos hv, L.exit_eq]
  have hs₂ := Placed.condBr (ω := ω) (B := Be.createBlocks 2) (L.test_eq ▸ L.test_placed) (S₁.after v t)
  rw [show (S₁.after v t).acc = v from rfl, hv, cond_true, goto_at L.suppressed_empty] at hs₂
  obtain ⟨S₃, hslots, htrace, hs₃⟩ := run_catchEnd (ω := ω) L.suppressed_wf L.suppressed_placed (S₁.after v t)
  exact ⟨S₃, fun j _ => congrFun hslots j, htrace, (hs₂.trans hs₃).trans (Placed.br (L.out_eq ▸ L.out_placed) S₃)⟩

/-- `__exit__` is called with the slot's `__with_exc` clear. -/
theorem run_withNormalExit {ctx : Ctx} {K : Nest} {n slot mergeBb : Nat} {onExit : Expr} {B : Builder} {S : State}
    (hwf : B.WF) (hP : Placed (genWithNormalExit ctx slot mergeBb onExit B) P) (hstate : (S.slots slot).state = 0) :
    EndsAt ω P ctx K n S (S.at B) mergeBb (onExit.bind ω S.trace fun _ t => (some .normal, t)) := by
  unfold genWithNormalExit at hP
  have hR := (hwf.reserved (k := 2) (R := [B.next, B.next + 1]) (by simp)).grew
    ((Grew.refl ((Grew.refl hwf).createBlocks 2).wf).emit (.condState slot (B.next + 1) B.next))
  have hwc := (((Grew.refl hwf).createBlocks 2).emit (.condState slot (B.next + 1) B.next)).wf
  have hwe := hwc.enter (b := B.next) (by simp)
  have hge := ((Grew.refl hwe).expr ctx onExit).emit (.br (B.next + 1))
  have hRe := (hR.enter (Q := [B.next + 1]) B.next (by simp)).grew hge
  have hlt := hge.next_le
  simp only [setInsertPoint_next, emit_next, createBlocks_next] at hlt
  have hwk := hge.wf.enter (b := B.next + 1) (by simp only [emit_next]; omega)
  have hPb : Placed _ P := ((Grew.refl hwk).emit (.br mergeBb)).placed hP
  have hPe : Placed _ P := ((Grew.refl ((Grew.refl hwe).expr ctx onExit).wf).emit (.br (B.next + 1))).placed hPb
  have hPc : Placed _ P := ((Grew.refl hwe).expr ctx onExit).placed hPe
  have hcall : Star (step ω P) (S.at B) (S.goto B.next) := by
    refine .one ((step_at (B := B.createBlocks 2) hPc S).trans ?_)
    show Sum.inl ((S.at _).goto (bif (S.slots slot).state != 0 then _ else _)) = _
    rw [hstate]
    rfl
  refine EndsAt.of_star ?_ hcall .refl (Nat.le_refl _)
  rw [goto_at (hR B.next (by simp)).2.2]
  refine EndsAt.bind hwe hPe fun v t hrun => ?_
  have hskip := Placed.br (ω := ω) hPb (S.after v t)
  rw [goto_at (hRe (B.next + 1) (by simp)).2.2] at hskip
  exact ⟨S.after v t, .refl, rfl, hskip.trans (Placed.br hP _)⟩

theorem Matches.top : Matches .top .top := ⟨rfl, rfl, fun h => (by cases h), fun _ => rfl⟩

theorem Matches.withBody {ctx : Ctx} {K : Nest} (hm : Matches ctx K) (slot landingpadBb : Nat) :
    Matches (ctx.pushTry ⟨none, slot⟩ landingpadBb) K.withBody :=
  ⟨hm.loops, hm.finally_, hm.inner, fun he => by cases he⟩

theorem sim_with {genBody : Ctx → Builder → Option Builder} {evalBody : Trace → Result}
    {guardBody : Nest → Trace → Bool} (enter onExc onExit : Expr) (hbody : Sim ω P genBody evalBody guardBody)
    (gbody : ∀ ctx, Grows (genBody ctx)) :
    Sim ω P (fun ctx B => genWith ctx enter genBody onExc onExit B)
      (fun t => enter.bind ω t fun _ t => withParts ω evalBody onExc onExit t)
      (fun K t => enter.all ω t fun _ t => guardBody K.withBody t &&
        match evalBody t with
        | (some (.raise _), t) => onExc.all ω t fun v _ => truthy v
        | _ => true) := by
  intro ctx K B B' S h hwf _ hm hP hguard
  obtain ⟨Be, Bs, Ba, B₁, Bl, Bn, L, rfl⟩ := genWith_layout gbody hwf h hP
  refine Ends.bind hwf (L.enter_eq ▸ L.enter_placed) fun v t hrun => ?_
  have hguard' := Expr.all_ok hguard hrun
  rw [Bool.and_eq_true] at hguard'
  obtain ⟨hok, hexc⟩ := hguard'
  rw [L.enter_eq]
  -- the slot is cleared, and the body entered
  obtain ⟨S₀, hS₀⟩ : ∃ S₀, (S.after v t).setSlot Be.slots { S.slots Be.slots with state := 0 } = S₀ := ⟨_, rfl⟩
  have hstart : Star (step ω P) ((S.after v t).at Be) (S₀.goto Be.next) := by
    have hstore := Placed.storeState (ω := ω) (B := (Be.createBlocks 4).createSlot) (L.store_eq ▸ L.store_placed)
      (S.after v t)
    rw [L.store_eq] at hstore
    rw [← hS₀]
    exact hstore.trans (Placed.br (L.jump_eq ▸ L.jump_placed) _)
  have hframe : Frame Be.slots S S₀ := by
    rw [← hS₀]
    have hafter : Frame Be.slots S (S.after v t) := .refl
    exact hafter.setSlot (Nat.le_refl _) _
  have hclear : (S₀.slots Be.slots).state = 0 := by
    rw [← hS₀]
    simp
  have htrace : S₀.trace = t := by
    rw [← hS₀]
    rfl
  have hm' := hm.withBody Be.slots (Be.next + 1)
  have hends := run_block (S := S₀) hbody L.body_eq (gbody _) L.body_at.grew.wf L.body_at.lt L.body_at.empty hm'
    L.body_placed (by rw [htrace]; exact hok)
  rw [htrace] at hends
  refine EndsAt.enter ?_ L.merge_at.empty
  refine EndsAt.of_star (n := B.slots) (m := Be.slots) ?_ hstart (hframe.mono L.enter_grew.slots_le)
    L.enter_grew.slots_le
  have hslots : Be.slots < Ba.slots := by
    rw [← L.jump_eq, ← L.store_eq]
    exact Nat.lt_succ_self _
  unfold withParts
  generalize evalBody t = r at hends hexc ⊢
  obtain ⟨c, t₁⟩ := r
  cases c with
  | none => exact hends
  | some c =>
    by_cases hn : c = .normal
    · subst hn
      obtain ⟨S₁, hf₁, rfl, hs₁⟩ := hends
      rw [goto_at L.exit_at.empty] at hs₁
      have hstate : (S₁.slots Be.slots).state = 0 := by rw [hf₁ _ hslots, hclear]
      have hexit := run_withNormalExit (ω := ω) (K := K) (n := Be.slots) L.exit_at.wf (L.exit_eq ▸ L.exit_placed) hstate
      exact hexit.of_star hs₁ (hf₁.mono (Nat.le_of_lt hslots)) (Nat.le_refl _)
    · have hleaves := hends.leaves hn
      have hout : (∀ x, c ≠ .raise x) → EndsAt ω P ctx K Be.slots S₀ (S₀.goto Be.next) (Be.next + 3) (some c, t₁) :=
        fun hne =>
          have hctx : Leaves ω P ctx K Be.slots _ _ c t₁ :=
            hleaves.weaken .refl .refl (Nat.le_of_lt hslots) rfl rfl fun x hx => (hne x hx).elim
          hctx.endsAt _
      cases c with
      | normal => exact (hn rfl).elim
      | ret w => exact hout (by simp)
      | brk => exact hout (by simp)
      | cont => exact hout (by simp)
      | raise x =>
        obtain ⟨S₁, hf₁, rfl, -, hun⟩ := hleaves
        have hs₁ : Star (step ω P) (S₀.goto Be.next) (S₁.goto (Be.next + 1)) := hun
        rw [goto_at L.pad_at.empty] at hs₁
        have hpad := run_withLandingPad (K := K) (x := x) L.pad_at.wf (L.pad_eq ▸ L.pad_placed) hexc
        exact hpad.of_star hs₁ (hf₁.mono (Nat.le_of_lt hslots)) (Nat.le_refl _)

/-! ## `finally` -/

/-- The state word and the return value with which the `finally` block is entered. -/
def SlotState.pending (s : SlotState) : Completion → Prop
  | .normal => s.state = 0
  | .raise _ => s.state = 1
  | .ret v => s.state = 2 ∧ s.retval = v
  | .brk => s.state = 3
  | .cont => s.state = 4

/-- Where the parts before `finally` lead: to its block with the completion pending, or, without one, on or out. -/
def Parts (ω : Env) (P : Nat → List Instr) (ctx : Ctx) (K : Nest) (slot : Nat) (finally? : Option Nat) (mergeBb : Nat)
    (S X : State) : Result → Prop
  | (none, t) => Gets ω P X t
  | (some c, t) =>
    match finally? with
    | some f => ∃ S', Frame slot S S' ∧ S'.trace = t ∧ (S'.slots slot).pending c ∧ Star (step ω P) X (S'.goto f)
    | none => EndsAt ω P ctx K slot S X mergeBb (some c, t)

theorem Parts.of_star {ctx : Ctx} {K : Nest} {slot : Nat} {finally? : Option Nat} {mergeBb : Nat} {S S' X X' : State}
    {r : Result} (h : Parts ω P ctx K slot finally? mergeBb S' X' r) (hX : Star (step ω P) X X')
    (hS : Frame slot S S') : Parts ω P ctx K slot finally? mergeBb S X r := by
  obtain ⟨c, t⟩ := r
  cases c with
  | none => exact Gets.of_star h hX
  | some c =>
    cases finally? with
    | none => exact EndsAt.of_star h hX hS (Nat.le_refl _)
    | some f =>
      obtain ⟨T, hT, ht, hp, hs⟩ := h
      exact ⟨T, hS.trans hT, ht, hp, hX.trans hs⟩

/-- A part that stays when there is a `finally` to run. -/
theorem EndsAt.parts {ctx : Ctx} {K : Nest} {n slot : Nat} {finally? : Option Nat} {mergeBb : Nat} {S X : State}
    {r : Result} (h : EndsAt ω P ctx K n S X (finally?.getD mergeBb) r) (hslot : slot < n)
    (hstate : (S.slots slot).state = 0) (hstays : finally?.isSome = true → r.stays = true) :
    Parts ω P ctx K slot finally? mergeBb S X r := by
  obtain ⟨c, t⟩ := r
  cases c with
  | none => exact h
  | some c =>
    cases finally? with
    | none => exact h.of_star .refl .refl (Nat.le_of_lt hslot)
    | some f =>
      have hc : c = .normal := by
        have := hstays rfl
        cases c <;> simp_all [Result.stays, Result.endsNormally]
      subst hc
      obtain ⟨T, hT, ht, hs⟩ := h
      exact ⟨T, hT.mono (Nat.le_of_lt hslot), ht, by rw [hT slot hslot]; exact hstate, hs⟩

theorem run_switch {slot dflt : Nat} {cases : List (Nat × Nat)} {B : Builder}
    (hP : Placed (B.emit (.switch slot dflt cases)) P) {S : State} {m : Nat} (hstate : (S.slots slot).state = m) :
    Star (step ω P) (S.at B) (S.goto ((cases.lookup m).getD dflt)) := by
  refine .one ((step_at hP S).trans ?_)
  show Sum.inl ((S.at B).goto ((cases.lookup (S.slots slot).state).getD dflt)) = _
  rw [hstate]
  rfl

/-- The blocks behind the switch: the saved value is returned, and the loop's blocks are branched to. -/
theorem run_dispatchBlocks {ctx : Ctx} {slot mergeBb reraiseBb : Nat} {B : Builder} (hwf : B.WF)
    (hP : Placed (emitFinallyDispatch ctx slot mergeBb reraiseBb B) P) (S : State) :
    Placed ((B.createBlocks 3).emit (.switch slot mergeBb (dispatchCases ctx mergeBb reraiseBb B.next))) P ∧
    HaltsWith (step ω P) (S.goto B.next) (.returned (S.slots slot).retval S.trace) ∧
    ∀ l, ctx.currentLoop = some l →
      Star (step ω P) (S.goto (B.next + 1)) (S.goto l.breakBb) ∧
      Star (step ω P) (S.goto (B.next + 2)) (S.goto l.continueBb) := by
  obtain ⟨B₁, hB₁⟩ : ∃ B₁, (B.createBlocks 3).emit (.switch slot mergeBb (dispatchCases ctx mergeBb reraiseBb B.next)) = B₁ :=
    ⟨_, rfl⟩
  have hw₁ : B₁.WF := hB₁ ▸ (((Grew.refl hwf).createBlocks 3).emit _).wf
  have hn₁ : B₁.next = B.next + 3 := by rw [← hB₁, emit_next, createBlocks_next]
  have hR₁ : Reserved [B.next, B.next + 1, B.next + 2] B₁ := by
    rw [← hB₁]
    exact (hwf.reserved (k := 3) (by simp)).grew ((Grew.refl ((Grew.refl hwf).createBlocks 3).wf).emit _)
  have hwr := hw₁.enter (b := B.next) (by omega)
  have hgl := (Grew.refl hwr).emit (.loadRet slot)
  have hgr := hgl.emit .ret
  have hR₂ := (hR₁.enter (Q := [B.next + 1, B.next + 2]) B.next (by simp)).grew hgr
  have hwb := hgr.wf.enter (b := B.next + 1) (by simp only [emit_next, setInsertPoint_next]; omega)
  simp only [emitFinallyDispatch] at hP
  rw [hB₁] at hP ⊢
  have hreturn : Placed (((B₁.setInsertPoint B.next).emit (.loadRet slot)).emit .ret) P → Placed B₁ P ∧
      HaltsWith (step ω P) (S.goto B.next) (.returned (S.slots slot).retval S.trace) := by
    intro hPr
    have hPl := ((Grew.refl hgl.wf).emit .ret).placed hPr
    refine ⟨hgl.placed hPl, ?_⟩
    rw [goto_at (hR₁ B.next (by simp)).2.2]
    have hload : Star (step ω P) (S.at (B₁.setInsertPoint B.next))
        ({ S with acc := (S.slots slot).retval }.at ((B₁.setInsertPoint B.next).emit (.loadRet slot))) := hPl.next rfl
    exact .of_star hload ⟨_, .refl, step_at hPr _⟩
  cases hl : ctx.currentLoop with
  | none =>
    simp only [hl] at hP
    obtain ⟨hP₁, hret⟩ := hreturn hP
    exact ⟨hP₁, hret, fun l h => by cases h⟩
  | some l =>
    simp only [hl] at hP
    have hgb := (Grew.refl hwb).emit (.br l.breakBb)
    have hR₃ := (hR₂.enter (Q := [B.next + 2]) (B.next + 1) (by simp)).grew hgb
    have hwc := hgb.wf.enter (b := B.next + 2) (by simp only [emit_next, setInsertPoint_next]; omega)
    have hPb : Placed _ P := ((Grew.refl hwc).emit (.br l.continueBb)).placed hP
    obtain ⟨hP₁, hret⟩ := hreturn (hgb.placed hPb)
    refine ⟨hP₁, hret, fun l' h => ?_⟩
    cases h
    rw [goto_at (hR₂ (B.next + 1) (by simp)).2.2, goto_at (hR₃ (B.next + 2) (by simp)).2.2]
    exact ⟨Placed.br hPb S, Placed.br hP S⟩

/-- The switch after a `finally` body takes the pending completion up again. -/
theorem run_dispatch {ctx : Ctx} {K : Nest} {slot mergeBb reraiseBb : Nat} {B : Builder} (hwf : B.WF)
    (hP : Placed (emitFinallyDispatch ctx slot mergeBb reraiseBb B) P) (hm : Matches ctx K) {S : State} {c : Completion}
    (hpending : (S.slots slot).pending c) (hdispatch : K.dispatches c = true) :
    EndsAt ω P ctx K slot S (S.at B) mergeBb (some c, S.trace) := by
  obtain ⟨hP₁, hreturn, hloop⟩ := run_dispatchBlocks (ω := ω) hwf hP S
  have hswitch : ∀ m, (S.slots slot).state = m → Star (step ω P) (S.at B)
      (S.goto (((dispatchCases ctx mergeBb reraiseBb B.next).lookup m).getD mergeBb)) :=
    fun _ => run_switch (B := B.createBlocks 3) hP₁
  -- a loop exit: the case is there, and no other `finally` was to run before it
  have hexit : K.inLoop = true ∧ K.inFinallyInLoop = false → ∃ l, ctx.currentLoop = some l ∧
      dispatchCases ctx mergeBb reraiseBb B.next =
        [(0, mergeBb), (1, reraiseBb), (2, B.next), (3, B.next + 1), (4, B.next + 2)] := by
    intro ⟨hin, _⟩
    rw [hm.loops] at hin
    obtain ⟨l, hl⟩ := Option.isSome_iff_exists.mp hin
    exact ⟨l, hl, by simp [dispatchCases, hl]⟩
  cases c with
  | normal =>
    have hs := hswitch 0 hpending
    exact ⟨S, .refl, rfl, by simpa [dispatchCases] using hs⟩
  | raise e => simp [Nest.dispatches] at hdispatch
  | ret v =>
    obtain ⟨hstate, rfl⟩ := hpending
    have hs := hswitch 2 hstate
    have hnone : ctx.nearestFinallyTry = none := by
      rw [← Option.not_isSome_iff_eq_none, ← hm.finally_]
      simpa [Nest.dispatches] using hdispatch
    show LeavesFunction ω P ctx slot S _ _ _
    unfold LeavesFunction
    rw [hnone]
    exact .of_star (by simpa [dispatchCases, List.lookup] using hs) hreturn
  | brk =>
    have hd : K.inLoop = true ∧ K.inFinallyInLoop = false := by simpa [Nest.dispatches] using hdispatch
    obtain ⟨l, hl, hcases⟩ := hexit hd
    have hs := hswitch 3 hpending
    rw [hcases] at hs
    show LeavesLoop ω P ctx K slot S _ _ _ _
    unfold LeavesLoop
    rw [if_neg (by simp [hd.2])]
    exact ⟨l, hl, S, .refl, rfl, .trans (by simpa [List.lookup] using hs) (hloop l hl).1⟩
  | cont =>
    have hd : K.inLoop = true ∧ K.inFinallyInLoop = false := by simpa [Nest.dispatches] using hdispatch
    obtain ⟨l, hl, hcases⟩ := hexit hd
    have hs := hswitch 4 hpending
    rw [hcases] at hs
    show LeavesLoop ω P ctx K slot S _ _ _ _
    unfold LeavesLoop
    rw [if_neg (by simp [hd.2])]
    exact ⟨l, hl, S, .refl, rfl, .trans (by simpa [List.lookup] using hs) (hloop l hl).2⟩

/-- The `finally` body, and what it does with the completion of the parts before it. -/
theorem run_finally {gen : Ctx → Builder → Option Builder} {eval : Trace → Result} {guard : Nest → Trace → Bool}
    (hs : Sim ω P gen eval guard) {present : Bool} (habsent : present = false → ∀ t, eval t = (some .normal, t))
    {ctx : Ctx} {K : Nest} {slot finallyBb mergeBb reraiseBb : Nat} {B B' : Builder} {S X : State} {r : Result}
    (h : genFinally ctx present slot (gen ctx) finallyBb mergeBb reraiseBb B = some B') (hgen : Grows (gen ctx))
    (hwf : B.WF) (hlt : finallyBb < B.next) (hempty : B.code finallyBb = []) (hslot : slot < B.slots)
    (hm : Matches ctx K) (hP : Placed B' P)
    (hguard : ∀ c t, present = true → r = (some c, t) →
      guard K t = true ∧ (!(eval t).endsNormally || K.dispatches c) = true)
    (hparts : Parts ω P ctx K slot (bif present then some finallyBb else none) mergeBb S X r) :
    EndsAt ω P ctx K slot S X mergeBb (finish eval r) := by
  unfold genFinally at h
  obtain ⟨c, t⟩ := r
  cases c with
  | none => exact hparts
  | some c =>
    cases present with
    | false =>
      simp only [finish, habsent rfl, Result.andThen]
      exact hparts
    | true =>
      rw [if_pos rfl] at h
      obtain ⟨Bf, hf, hB'⟩ := Option.map_eq_some_iff.mp h
      obtain ⟨hok, hdisp⟩ := hguard c t rfl rfl
      obtain ⟨S₁, hframe, rfl, hpending, hs₁⟩ := hparts
      have hgf := hgen _ _ (hwf.enter hlt) hf
      have hPf : Placed Bf P := by
        subst hB'
        split at hP
        next => exact hP
        next => exact (emitFinallyDispatch_grew (.refl hgf.wf) ..).placed hP
      have hends := hs hf (hwf.enter hlt) (open_of_empty hempty) hm hPf hok
      rw [goto_at hempty] at hs₁
      simp only [finish]
      generalize eval S₁.trace = rf at hends hdisp ⊢
      obtain ⟨cf, tf⟩ := rf
      cases cf with
      | none => exact Gets.of_star hends hs₁
      | some cf =>
        by_cases hn : cf = .normal
        · subst hn
          obtain ⟨S₂, hframe₂, rfl, hopen, hs₂⟩ := hends
          rw [hopen] at hB'
          subst hB'
          have hp₂ : (S₂.slots slot).pending c := by
            rw [hframe₂ slot hslot]
            exact hpending
          have hrun := run_dispatch (ω := ω) hgf.wf hP hm hp₂ (by simpa [Result.endsNormally] using hdisp)
          exact hrun.of_star (hs₁.trans hs₂) (hframe.trans (hframe₂.mono (Nat.le_of_lt hslot))) (Nat.le_refl _)
        · have hout := ((hends.leaves hn).of_star hs₁ hframe (Nat.le_of_lt hslot)).endsAt mergeBb
          cases cf with
          | normal => exact (hn rfl).elim
          | ret v => exact hout
          | brk => exact hout
          | cont => exact hout
          | raise e => exact hout

/-! ## `try` -/

/-- The code of the handlers, from the block that dispatches, where the state word is 1. -/
def SimHandlers (ω : Env) (P : Nat → List Instr)
    (gen : Ctx → Nat → Option Nat → Nat → Builder → Option Builder) (eval : Value → Trace → Result)
    (guard : Nest → Bool → Value → Trace → Bool) : Prop :=
  ∀ ⦃ctx : Ctx⦄ ⦃K : Nest⦄ ⦃slot : Nat⦄ ⦃finally? : Option Nat⦄ ⦃mergeBb : Nat⦄ ⦃B B' : Builder⦄ ⦃S : State⦄ ⦃x : Value⦄,
    gen ctx slot finally? (finally?.getD mergeBb) B = some B' → B.WF → slot < B.slots → Matches ctx K →
    Placed B' P → guard K finally?.isSome x S.trace = true → (S.slots slot).state = 1 →
    Parts ω P ctx K slot finally? mergeBb S (S.at B) (eval x S.trace)

theorem run_noMatch {ctx : Ctx} {K : Nest} {slot f mergeBb : Nat} {B : Builder} {S : State} {x : Value} (hwf : B.WF)
    (hP : Placed (genNoMatch ctx (some f) slot B) P) (hstate : (S.slots slot).state = 1) :
    Parts ω P ctx K slot (some f) mergeBb S (S.at B) (some (.raise x), S.trace) := by
  have hP' : Placed ((emitRuntimeCall ctx .catchEnd B).emit (.br f)) P := hP
  have hg := (Grew.refl hwf).runtimeCall ctx .catchEnd
  obtain ⟨S', hslots, htrace, hs⟩ := run_catchEnd (ω := ω) hwf (((Grew.refl hg.wf).emit _).placed hP') S
  refine ⟨S', fun j _ => congrFun hslots j, htrace, ?_, hs.trans (Placed.br hP' S')⟩
  show (S'.slots slot).state = 1
  rw [hslots]
  exact hstate

/-- A handler's body, and after it the end of the catch. -/
theorem run_handlerBody {gen : Ctx → Builder → Option Builder} {eval : Trace → Result} {guard : Nest → Trace → Bool}
    (hs : Sim ω P gen eval guard) {ctx : Ctx} {K : Nest} {slot : Nat} {finally? : Option Nat} {mergeBb bb : Nat}
    {bind : List Call} {B B' : Builder} {S : State}
    (h : genHandlerBody ctx slot (finally?.getD mergeBb) bind (gen ctx) bb B = some B') (hgen : ∀ ctx, Grows (gen ctx))
    (hwf : B.WF) (hlt : bb < B.next) (hempty : B.code bb = []) (hslot : slot < B.slots) (hm : Matches ctx K)
    (hP : Placed B' P)
    (hguard : ((Expr.mk bind 0).all ω S.trace fun _ t => guard K t) = true)
    (hstays : finally?.isSome = true → ((Expr.mk bind 0).bind ω S.trace fun _ t => eval t).stays = true) :
    Parts ω P ctx K slot finally? mergeBb S (S.goto bb) ((Expr.mk bind 0).bind ω S.trace fun _ t => eval t) := by
  obtain ⟨B₁, h₁, hB'⟩ := Option.map_eq_some_iff.mp h
  have hafter := sim_afterExpr ⟨bind, 0⟩ hs hgen
  have hwb := hwf.enter hlt
  have hg₁ := (hgen ctx).step ((Grew.refl hwb).expr ctx ⟨bind, 0⟩) h₁
  have hge := (Grew.refl hg₁.wf).runtimeCall ctx .catchEnd
  have hgs := (Grew.refl hge.wf).emit (.storeState slot 0)
  have hgb := (Grew.refl hgs.wf).emit (.br (finally?.getD mergeBb))
  have hP₁ : Placed B₁ P := by
    subst hB'
    split at hP
    next => exact hP
    next => exact ((hge.trans hgs).trans hgb).placed hP
  have hends : Ends ω P ctx K B.slots S (S.at (B.setInsertPoint bb)) B₁
      ((Expr.mk bind 0).bind ω S.trace fun _ t => eval t) := hafter h₁ hwb (open_of_empty hempty) hm hP₁ hguard
  rw [goto_at hempty]
  generalize ((Expr.mk bind 0).bind ω S.trace fun _ t => eval t) = r at hends hstays ⊢
  obtain ⟨c, t⟩ := r
  cases c with
  | none => exact hends
  | some c =>
    by_cases hn : c = .normal
    · subst hn
      obtain ⟨S₁, hframe, rfl, hopen, hs₁⟩ := hends
      rw [hopen] at hB'
      subst hB'
      have hPs : Placed _ P := hgb.placed hP
      obtain ⟨S₂, hslots, htrace, hs₂⟩ := run_catchEnd (ω := ω) hg₁.wf (hgs.placed hPs) S₁
      have hs₃ := ((hs₁.trans hs₂).trans (Placed.storeState hPs S₂)).trans (Placed.br hP _)
      have hframe₃ : Frame slot S (S₂.setSlot slot { S₂.slots slot with state := 0 }) :=
        (hframe.mono (Nat.le_of_lt hslot)).trans (Frame.setSlot (fun j _ => congrFun hslots j) (Nat.le_refl _) _)
      cases finally? with
      | none => exact ⟨_, hframe₃, htrace, hs₃⟩
      | some f => exact ⟨_, hframe₃, htrace, by simp [SlotState.pending], hs₃⟩
    · cases finally? with
      | none => exact ((hends.leaves hn).of_star .refl .refl (Nat.le_of_lt hslot)).endsAt mergeBb
      | some f =>
        have := hstays rfl
        cases c <;> simp_all [Result.stays, Result.endsNormally]

theorem simHandlers_nil :
    SimHandlers ω P (fun ctx slot f after => Handlers.nil.gen ctx slot f after) (fun x t => (some (.raise x), t))
      (fun _ hasFinally _ _ => hasFinally) := by
  intro ctx K slot finally? mergeBb B B' S x h hwf _ _ hP hguard hstate
  cases h
  obtain ⟨f, rfl⟩ := Option.isSome_iff_exists.mp hguard
  exact run_noMatch hwf hP hstate

section
variable {gen : Ctx → Builder → Option Builder} {eval : Trace → Result} {guard : Nest → Trace → Bool}

theorem simHandlers_bare (hs : Sim ω P gen eval guard) (hgen : ∀ ctx, Grows (gen ctx)) :
    SimHandlers ω P
      (fun ctx slot _ after B => genHandlerBody ctx slot after [] (gen ctx) B.next ((B.createBlocks 1).emit (.br B.next)))
      (fun _ t => eval t) (fun K hasFinally _ t => guard K t && (!hasFinally || (eval t).stays)) := by
  intro ctx K slot finally? mergeBb B B' S x h hwf hslot hm hP hguard hstate
  rw [Bool.and_eq_true] at hguard
  obtain ⟨hok, hstays⟩ := hguard
  have hg := ((Grew.refl hwf).createBlocks 1).emit (.br B.next)
  have hR := (hwf.reserved (k := 1) (R := [B.next]) (by simp)).grew
    ((Grew.refl ((Grew.refl hwf).createBlocks 1).wf).emit (.br B.next))
  have hPb : Placed _ P := genHandlerBody_placed (hgen ctx) hg.wf (by simp) h hP
  have hrun := run_handlerBody hs h hgen hg.wf (by simp) (hR B.next (by simp)).2.2 hslot hm hP (S := S) hok
    fun hf => by
      rw [hf] at hstays
      show (eval S.trace).stays = true
      simpa using hstays
  exact hrun.of_star (Placed.br (B := B.createBlocks 1) hPb S) .refl

theorem simHandlers_typed {rest : Ctx → Nat → Option Nat → Nat → Builder → Option Builder}
    {evalRest : Value → Trace → Result} {guardRest : Nest → Bool → Value → Trace → Bool} (type : Expr) (bind : List Call)
    (hs : Sim ω P gen eval guard) (hrest : SimHandlers ω P rest evalRest guardRest) (hgen : ∀ ctx, Grows (gen ctx))
    (grest : ∀ ctx slot f after, Grows (rest ctx slot f after)) :
    SimHandlers ω P
      (fun ctx slot finally? after B =>
        (genHandlerBody ctx slot after bind (gen ctx) B.next
          ((genExpr ctx type (B.createBlocks 2)).emit (.condBr B.next (B.next + 1)))).bind fun B₁ =>
            rest ctx slot finally? after (B₁.setInsertPoint (B.next + 1)))
      (fun x t => type.bind ω t fun v t =>
        if truthy v then (Expr.mk bind 0).bind ω t fun _ t => eval t else evalRest x t)
      (fun K hasFinally x t => (!hasFinally || match type.run ω t with | (.raise _, _) => false | _ => true) &&
        type.all ω t fun v t =>
          if truthy v then
            (!hasFinally || ((Expr.mk bind 0).bind ω t fun _ t => eval t).stays) &&
              (Expr.mk bind 0).all ω t fun _ t => guard K t
          else guardRest K hasFinally x t) := by
  intro ctx K slot finally? mergeBb B B' S x h hwf hslot hm hP hguard hstate
  obtain ⟨Be, Bb, B₁, L, h₂⟩ := typedHandler_layout (hgen ctx) (grest ctx slot finally? _) hwf h hP
  rw [Bool.and_eq_true] at hguard
  obtain ⟨htype, hguard⟩ := hguard
  have hwc := ((Grew.refl hwf).createBlocks 2).wf
  have hPe := L.test_eq ▸ L.test_placed
  refine bind_cases (Q := Parts ω P ctx K slot finally? mergeBb S (S.at B)) (fun v t hrun => ?_) fun y t hrun => ?_
  · have hv := Expr.all_ok hguard hrun
    have htest : Star (step ω P) (S.at B) ((S.after v t).at Be) := L.test_eq ▸ run_ok (B := B.createBlocks 2) hwc hPe hrun
    have hs₁ := htest.trans (Placed.condBr (L.branch_eq ▸ L.branch_placed) (S.after v t))
    have hframe : Frame slot S (S.after v t) := .refl
    cases ht : truthy v with
    | true =>
      rw [show (S.after v t).acc = v from rfl, ht, cond_true] at hs₁
      rw [ht, if_pos rfl, Bool.and_eq_true] at hv
      obtain ⟨hstays, hok⟩ := hv
      rw [if_pos rfl]
      have hbody := run_handlerBody hs L.body_eq hgen L.body_at.grew.wf L.body_at.lt L.body_at.empty
        (Nat.lt_of_lt_of_le hslot L.body_at.grew.slots_le) hm L.body_placed (S := S.after v t) hok fun hf => by
          rw [hf] at hstays
          show ((Expr.mk bind 0).bind ω t fun _ t => eval t).stays = true
          simpa using hstays
      exact hbody.of_star hs₁ hframe
    | false =>
      rw [show (S.after v t).acc = v from rfl, ht, cond_false, goto_at L.next_at.empty] at hs₁
      rw [ht] at hv
      have hnext := hrest (S := S.after v t) h₂ L.next_at.wf (Nat.lt_of_lt_of_le hslot L.next_at.grew.slots_le) hm hP hv
        hstate
      exact hnext.of_star hs₁ hframe
  · have hnone : finally? = none := by
      rw [hrun] at htype
      simpa using htype
    subst hnone
    exact (run_raise (K := K) (B := B.createBlocks 2) hwc hPe hrun).endsAt mergeBb

end

theorem Matches.tryBody {ctx : Ctx} {K : Nest} (hm : Matches ctx K) (finally? : Option Nat) (slot landingpadBb : Nat) :
    Matches (ctx.pushTry ⟨finally?, slot⟩ landingpadBb) (K.tryBody finally?.isSome) := by
  cases finally? with
  | none => exact hm.withBody slot landingpadBb
  | some f => exact ⟨hm.loops, rfl, fun _ => rfl, fun he => by cases he⟩

/-- The body of a `try`: on to the next part, to the landing pad, or to `finally` with the completion pending. -/
theorem run_tryBody {gen : Ctx → Builder → Option Builder} {eval : Trace → Result} {guard : Nest → Trace → Bool}
    (hs : Sim ω P gen eval guard) (hgen : ∀ ctx, Grows (gen ctx)) {ctx : Ctx} {K : Nest} {finally? : Option Nat}
    {slot landingpadBb next m : Nat} {B B' : Builder} {S : State}
    (h : genTryBody ctx ⟨finally?, slot⟩ landingpadBb gen next B = some B') (hwf : B.WF) (hopen : B.terminated = false)
    (hslot : slot < B.slots) (hm : Matches ctx K) (hP : Placed B' P)
    (hguard : guard (K.tryBody finally?.isSome) S.trace = true) :
    match eval S.trace with
    | (some .normal, t) =>
      ∃ S', Frame slot S S' ∧ S'.trace = t ∧ (S'.slots slot).state = 0 ∧ Star (step ω P) (S.at B) (S'.goto next)
    | (some (.raise _), t) => Goes ω P slot S (S.at B) landingpadBb t
    | r => Parts ω P ctx K slot finally? m S (S.at B) r := by
  obtain ⟨B₁, h₁, hB'⟩ := Option.map_eq_some_iff.mp h
  have hg₁ := hgen _ _ _ hwf h₁
  have hgs := (Grew.refl hg₁.wf).emit (.storeState slot 0)
  have hgb := (Grew.refl hgs.wf).emit (.br next)
  have hP₁ : Placed B₁ P := by
    subst hB'
    split at hP
    next => exact hP
    next => exact (hgs.trans hgb).placed hP
  have hends := hs h₁ hwf hopen (hm.tryBody finally? slot landingpadBb) hP₁ hguard
  have hle := Nat.le_of_lt hslot
  generalize eval S.trace = r at hends ⊢
  obtain ⟨c, t⟩ := r
  cases c with
  | none => exact hends
  | some c =>
    cases c with
    | normal =>
      obtain ⟨S₁, hframe, rfl, hopen₁, hs₁⟩ := hends
      rw [hopen₁] at hB'
      subst hB'
      have hPs : Placed _ P := hgb.placed hP
      refine ⟨S₁.setSlot slot { S₁.slots slot with state := 0 },
        (hframe.mono hle).trans (Frame.setSlot .refl (Nat.le_refl _) _), rfl, by simp, ?_⟩
      exact (hs₁.trans (Placed.storeState hPs S₁)).trans (Placed.br hP _)
    | raise x =>
      obtain ⟨S₁, hframe, ht, -, hun⟩ := hends
      exact ⟨S₁, hframe.mono hle, ht, hun⟩
    | ret v =>
      cases finally? with
      | none => exact LeavesFunction.weaken (c := ctx) hends .refl .refl hle rfl
      | some f =>
        obtain ⟨S₁, hframe, ht, hp, hs₁⟩ := hends
        exact ⟨S₁, fun j hj => hframe j (by omega) (Nat.ne_of_lt hj), ht, hp, hs₁⟩
    | brk =>
      cases finally? with
      | none => exact LeavesLoop.weaken (c := ctx) hends .refl .refl hle rfl rfl
      | some f =>
        obtain ⟨_, _, hfk, S₁, hframe, ht, hp, hs₁⟩ := hends
        cases hfk
        exact ⟨S₁, fun j hj => hframe j (by omega) (Nat.ne_of_lt hj), ht, hp, hs₁⟩
    | cont =>
      cases finally? with
      | none => exact LeavesLoop.weaken (c := ctx) hends .refl .refl hle rfl rfl
      | some f =>
        obtain ⟨_, _, hfk, S₁, hframe, ht, hp, hs₁⟩ := hends
        cases hfk
        exact ⟨S₁, fun j hj => hframe j (by omega) (Nat.ne_of_lt hj), ht, hp, hs₁⟩

theorem run_toHandlers {ctx : Ctx} {genBody : Ctx → Builder → Option Builder}
    {genHandlers genElse genFinal : Builder → Option Builder} {hasHandlers hasElse hasFinally : Bool}
    {finally? : Option Nat} {B Bs Bj B₁ Bl Bh B₂ B₃ B₄ B₅ : Builder}
    (L : TryLayout P ctx genBody hasHandlers genHandlers hasElse genElse hasFinally genFinal finally?
      B Bs Bj B₁ Bl Bh B₂ B₃ B₄ B₅) (S : State) : Star (step ω P) (S.at Bl) (S.at Bh) := by
  have hP := L.dispatch_placed
  rw [← L.dispatch_eq] at hP ⊢
  cases hasHandlers with
  | false => exact .refl
  | true =>
    rw [cond_true, ← goto_at L.dispatch_at.empty]
    exact Placed.br hP S

theorem sim_try {genBody genElse genFinal : Ctx → Builder → Option Builder}
    {genHandlers : Ctx → Nat → Option Nat → Nat → Builder → Option Builder} {evalBody evalElse evalFinal : Trace → Result}
    {evalHandlers : Value → Trace → Result} {guardBody guardElse guardFinal : Nest → Trace → Bool}
    {guardHandlers : Nest → Bool → Value → Trace → Bool} (hasHandlers : Bool) {hasElse hasFinally : Bool}
    (hbody : Sim ω P genBody evalBody guardBody) (hhandlers : SimHandlers ω P genHandlers evalHandlers guardHandlers)
    (helse : Sim ω P genElse evalElse guardElse) (hfinal : Sim ω P genFinal evalFinal guardFinal)
    (gbody : ∀ ctx, Grows (genBody ctx)) (ghandlers : ∀ ctx slot f after, Grows (genHandlers ctx slot f after))
    (gelse : ∀ ctx, Grows (genElse ctx)) (gfinal : ∀ ctx, Grows (genFinal ctx))
    (hnoElse : hasElse = false → ∀ t, evalElse t = (some .normal, t))
    (hnoFinal : hasFinally = false → ∀ t, evalFinal t = (some .normal, t)) :
    Sim ω P (fun ctx B => genTry ctx genBody hasHandlers (genHandlers ctx) hasElse (genElse ctx) hasFinally
        (genFinal ctx) B)
      (fun t => finish evalFinal (tryParts evalBody evalElse evalHandlers t))
      (fun K t => guardBody (K.tryBody hasFinally) t &&
        (match evalBody t with
        | (some .normal, t) => guardElse K t && (!hasFinally || (evalElse t).stays)
        | (some (.raise x), t) => guardHandlers K hasFinally x t
        | _ => true) &&
        match tryParts evalBody evalElse evalHandlers t with
        | (some c, t) => !hasFinally || guardFinal K t && (!(evalFinal t).endsNormally || K.dispatches c)
        | (none, _) => true) := by
  intro ctx K B B' S h hwf _ hm hP hguard
  obtain ⟨finally?, Bs, Bj, B₁, Bl, Bh, B₂, B₃, B₄, B₅, L, rfl⟩ :=
    genTry_layout gbody (ghandlers ctx) (gelse ctx) (gfinal ctx) hwf h hP
  rw [Bool.and_eq_true, Bool.and_eq_true] at hguard
  obtain ⟨⟨hok, hparts⟩, hfin⟩ := hguard
  have hsome : finally?.isSome = hasFinally := by
    rw [← L.finally_eq]
    cases hasFinally <;> rfl
  obtain ⟨S₀, hS₀⟩ : ∃ S₀, S.setSlot B.slots { S.slots B.slots with state := 0 } = S₀ := ⟨_, rfl⟩
  have hstart : Star (step ω P) (S.at B) (S₀.goto B.next) := by
    have hstore := Placed.storeState (ω := ω) (B := (B.createBlocks 7).createSlot) (L.store_eq ▸ L.store_placed) S
    rw [L.store_eq] at hstore
    rw [← hS₀]
    exact hstore.trans (Placed.br (L.jump_eq ▸ L.jump_placed) _)
  have hframe : Frame B.slots S S₀ := hS₀ ▸ Frame.setSlot .refl (Nat.le_refl _) _
  have htrace : S₀.trace = S.trace := hS₀ ▸ rfl
  rw [← htrace] at hok hparts hfin ⊢
  rw [goto_at L.body_at.empty] at hstart
  have hends := run_tryBody hbody gbody (S := S₀) (m := B.next + 6) L.body_eq L.body_at.wf
    (open_of_empty L.body_at.empty) L.slot_body hm L.body_placed (by rw [hsome]; exact hok)
  -- the body, then `else` or the handlers
  have hlead : Parts ω P ctx K B.slots finally? (B.next + 6) S (S.at B)
      (tryParts evalBody evalElse evalHandlers S₀.trace) := by
    refine Parts.of_star ?_ hstart hframe
    unfold tryParts
    generalize evalBody S₀.trace = r at hends hparts ⊢
    obtain ⟨c, t⟩ := r
    cases c with
    | none => exact hends
    | some c =>
      cases c with
      | normal =>
        obtain ⟨S₁, hframe₁, rfl, hstate, hs₁⟩ := hends
        rw [Bool.and_eq_true] at hparts
        have hrun := run_orelse helse hnoElse (S := S₁) L.else_eq (gelse ctx) L.else_at.grew.wf L.else_at.lt
          L.else_at.empty hm L.else_placed hparts.1
        exact (hrun.parts L.slot_else hstate fun hf => by simpa [← hsome, hf] using hparts.2).of_star hs₁ hframe₁
      | raise x =>
        obtain ⟨S₁, hframe₁, rfl, hs₁⟩ := hends
        rw [goto_at L.pad_at.empty] at hs₁
        obtain ⟨S₂, honly, hstate, hs₂⟩ := run_landingPad (ω := ω) L.pad_at.wf (L.pad_eq ▸ L.pad_placed) S₁
        rw [L.pad_eq] at hs₂
        have hs₃ := run_toHandlers (ω := ω) L S₂
        rw [← honly.2] at hparts ⊢
        have hrun := hhandlers (S := S₂) L.handlers_eq L.handlers_grew.wf L.slot_handlers hm L.handlers_placed
          (by rw [hsome]; exact hparts) hstate
        exact hrun.of_star ((hs₁.trans hs₂).trans hs₃) (hframe₁.trans (honly.frame (Nat.le_refl _)))
      | ret v => exact hends
      | brk => exact hends
      | cont => exact hends
  have hrun := run_finally hfinal hnoFinal L.final_eq (gfinal ctx) L.final_at.grew.wf L.final_at.lt L.final_at.empty
    L.slot_final hm L.final_placed (fun c t hp hr => by
      rw [hr, hp] at hfin
      simpa [Bool.and_eq_true] using hfin) (L.finally_eq ▸ hlead)
  exact hrun.enter L.merge_at.empty

/-! ## The recursion -/

theorem Body.eval_empty {n : Nat} {b : Body} (h : (!b.isEmpty) = false) (t : Trace) : b.eval ω n t = (some .normal, t) := by
  cases b with
  | nil => rfl
  | cons s rest => simp [Body.isEmpty] at h

end

mutual

theorem Stmt.sim (ω : Env) (P : Nat → List Instr) (n : Nat) :
    ∀ s : Stmt, Sim ω P (fun ctx => s.gen ctx) (s.eval ω n) (s.guarded ω n) := by
  intro s
  cases s with
  | expr e => exact sim_expr e
  | ret e => exact sim_return e
  | raise e c => exact sim_raise e c
  | brk => exact sim_break
  | cont => exact sim_continue
  | ifS test body orelse =>
    exact sim_if test (body.sim ω P n) (orelse.sim ω P n) body.gen_grows orelse.gen_grows orelse.eval_empty
  | whileS test body orelse =>
    exact sim_while test (body.sim ω P n) (orelse.sim ω P n) (fun ctx => body.gen_grows ctx)
      (fun ctx => orelse.gen_grows ctx) Body.eval_empty n
  | forS iter next target body orelse =>
    exact sim_for iter next target (body.sim ω P n) (orelse.sim ω P n) (fun ctx => body.gen_grows ctx)
      (fun ctx => orelse.gen_grows ctx) Body.eval_empty n
  | tryS body handlers orelse final =>
    exact sim_try _ (body.sim ω P n) (handlers.sim ω P n) (orelse.sim ω P n) (final.sim ω P n)
      (fun ctx => body.gen_grows ctx) (fun ctx slot f after => handlers.gen_grows ctx slot f after)
      (fun ctx => orelse.gen_grows ctx) (fun ctx => final.gen_grows ctx) Body.eval_empty Body.eval_empty
  | withS enter body onExc onExit =>
    exact sim_with enter onExc onExit (body.sim ω P n) fun ctx => body.gen_grows ctx
  | defS defaults body make => exact sim_def defaults make fun ctx => body.gen_grows ctx

theorem Body.sim (ω : Env) (P : Nat → List Instr) (n : Nat) :
    ∀ b : Body, Sim ω P (fun ctx => b.gen ctx) (b.eval ω n) (b.guarded ω n) := by
  intro b ctx K B B' S h hwf hopen hm hP hguard
  cases b with
  | nil =>
    cases h
    exact ⟨S, .refl, rfl, hopen, .refl⟩
  | cons s rest =>
    simp only [Body.gen, hopen] at h
    obtain ⟨B₁, h₁, h₂⟩ := Option.bind_eq_some_iff.mp h
    simp only [Body.guarded, Bool.and_eq_true] at hguard
    obtain ⟨hok, hrest⟩ := hguard
    have hg₁ := s.gen_grows ctx _ _ hwf h₁
    have hends := s.sim ω P n h₁ hwf hopen hm ((rest.gen_grows ctx _ _ hg₁.wf h₂).placed hP) hok
    simp only [Body.eval]
    generalize s.eval ω n S.trace = r at hends hrest ⊢
    obtain ⟨c, t⟩ := r
    cases c with
    | none => exact hends
    | some c =>
      cases c with
      | normal =>
        obtain ⟨S₁, hframe, rfl, hopen₁, hs₁⟩ := hends
        exact (rest.sim ω P n h₂ hg₁.wf hopen₁ hm hP hrest).of_star hs₁ hframe hg₁.slots_le
      | ret v => exact hends
      | brk => exact hends
      | cont => exact hends
      | raise e => exact hends

theorem Handlers.sim (ω : Env) (P : Nat → List Instr) (n : Nat) :
    ∀ hs : Handlers, SimHandlers ω P (fun ctx slot f after => hs.gen ctx slot f after) (hs.eval ω n) (hs.guarded ω n) := by
  intro hs
  cases hs with
  | nil => exact simHandlers_nil
  | bare body => exact simHandlers_bare (body.sim ω P n) fun ctx => body.gen_grows ctx
  | typed type bind body rest =>
    exact simHandlers_typed type bind (body.sim ω P n) (rest.sim ω P n) (fun ctx => body.gen_grows ctx)
      fun ctx slot f after => rest.gen_grows ctx slot f after

end

/-! ## The function -/

/-- The run of a compiled function, from its entry, is the one Python prescribes: the same calls, and the same end, if it
ends. -/
def Meets (ω : Env) (P : Nat → List Instr) (entry : Nat) : Result → Prop
  | (some (.ret v), t) => HaltsWith (step ω P) (State.start.goto entry) (.returned v t)
  | (some (.raise e), t) => HaltsWith (step ω P) (State.start.goto entry) (.raised e t)
  | (none, t) => Gets ω P (State.start.goto entry) t
  | _ => False

/-- **Every `finally` body runs exactly once on the way out, and the completion is then taken up again**, in every run
that meets the guard of a function defined outside of loops and of the bodies of `try` and `with`: what the code calls, in
order, and how it ends is what Python prescribes. -/
theorem finally_runs (ω : Env) (n : Nat) (f : Body) {P : Nat → List Instr} {B B' : Builder} (hwf : B.WF)
    (h : genFunction .top f B = some B') (hP : Placed B' P) (hguard : f.guarded ω n .top [] = true) :
    Meets ω P B.next (callFunction ω n f) := by
  obtain ⟨B₁, h₁, rfl⟩ := Option.map_eq_some_iff.mp h
  have hg := f.gen_grows .top _ _ hwf.enterNew h₁
  have hempty : ((B.createBlocks 1).setInsertPoint B.next).code B.next = [] := hwf.fresh _ (Nat.le_refl _)
  have hgr := ((Grew.refl hg.wf).runtimeCall .top .none).emit .ret
  have hP₁ : Placed B₁ P := by
    split at hP
    next => exact hP
    next => exact hgr.placed hP
  have hends := f.sim ω P n (S := .start) h₁ hwf.enterNew (open_of_empty hempty) .top hP₁ hguard
  rw [← goto_at (B := B.createBlocks 1) (hwf.fresh _ (Nat.le_refl _))] at hends
  unfold callFunction
  rw [show State.start.trace = [] from rfl] at hends
  generalize f.eval ω n [] = r at hends ⊢
  obtain ⟨c, t⟩ := r
  cases c with
  | none => exact hends
  | some c =>
    cases c with
    | normal =>
      obtain ⟨S, -, rfl, hopen, hs⟩ := hends
      rw [hopen] at hP
      have hnone := run_runtimeCall (ω := ω) hg.wf
        (((Grew.refl ((Grew.refl hg.wf).runtimeCall .top .none).wf).emit .ret).placed hP)
        (show Rt.none.exec ω S = ({ S with acc := 0 }, false) from rfl)
      exact .of_star (hs.trans hnone) ⟨_, .refl, step_at hP _⟩
    | ret v => exact hends
    | brk =>
      obtain ⟨l, hl, -⟩ : ∃ l, Ctx.top.currentLoop = some l ∧ Goes ω _ _ _ _ l.breakBb t := hends
      cases hl
    | cont =>
      obtain ⟨l, hl, -⟩ : ∃ l, Ctx.top.currentLoop = some l ∧ Goes ω _ _ _ _ l.continueBb t := hends
      cases hl
    | raise e =>
      obtain ⟨S, -, rfl, rfl, hun⟩ := hends
      exact hun

/-- Every call returns its own number, but for those that raise it. -/
def raising (bad : List Call) : Env :=
  ⟨fun _ c => if c ∈ bad then .raise c else .ok c, fun _ c => c⟩

def callS (c : Call) : Stmt := .expr ⟨[c], 0⟩

/-- `while 1(): try: 2(); break` with a handler for what 2 raises, that continues, and `finally: 5()`; then `return 6()`. -/
def breakThroughFinally : Body :=
  .cons (.whileS ⟨[1], 0⟩
    (.cons (.tryS (.cons (callS 2) (.cons .brk .nil)) (.typed ⟨[3], 0⟩ [] (.cons (callS 4) .nil) .nil) .nil
      (.cons (callS 5) .nil)) .nil) .nil)
    (.cons (.ret ⟨[6], 0⟩) .nil)

theorem breakThroughFinally_runs : ∃ B, genFunction .top breakThroughFinally .entry = some B ∧
    Meets (raising []) B.code 1 (some (.ret 6), [6, 5, 2, 1]) := by
  obtain ⟨B, hB⟩ := Option.isSome_iff_exists.mp
    (show (genFunction .top breakThroughFinally .entry).isSome = true by decide +kernel)
  exact ⟨B, hB, finally_runs (raising []) 2 breakThroughFinally entry_wf hB (fun _ => List.prefix_refl _) (by decide +kernel)⟩

/-- `try: 1()`, `except 2(): 3()`, `finally: 4()`. -/
def raisingHandler : Body :=
  .cons (.tryS (.cons (callS 1) .nil) (.typed ⟨[2], 0⟩ [] (.cons (callS 3) .nil) .nil) .nil (.cons (callS 4) .nil)) .nil

/-- An exception raised in the handler leaves the function without running the `finally` body. -/
theorem raisingHandler_skips_finally : ∃ B, genFunction .top raisingHandler .entry = some B ∧
    HaltsWith (step (raising [1, 3]) B.code) (State.start.goto 1) (.raised 3 [3, 2, 1]) ∧
    callFunction (raising [1, 3]) 1 raisingHandler = (some (.raise 3), [4, 3, 2, 1]) ∧
    ¬Meets (raising [1, 3]) B.code 1 (callFunction (raising [1, 3]) 1 raisingHandler) := by
  obtain ⟨B, hB⟩ := Option.isSome_iff_exists.mp
    (show (genFunction .top raisingHandler .entry).isSome = true by decide +kernel)
  have hrun : ((genFunction .top raisingHandler .entry).map fun B =>
      (runFor (step (raising [1, 3]) B.code) 100 (State.start.goto 1)).getRight?) = some (some (.raised 3 [3, 2, 1])) := by
    decide +kernel
  rw [hB, Option.map_some, Option.some.injEq, Sum.getRight?_eq_some_iff] at hrun
  have hhalts := HaltsWith.of_runFor hrun
  have hpython : callFunction (raising [1, 3]) 1 raisingHandler = (some (.raise 3), [4, 3, 2, 1]) := by decide
  refine ⟨B, hB, hhalts, hpython, fun hmeets => ?_⟩
  rw [hpython] at hmeets
  cases HaltsWith.unique hhalts hmeets

end Pylang.Aot
