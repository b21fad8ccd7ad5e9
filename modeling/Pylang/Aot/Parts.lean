/-
Where the code of a statement's parts is: for each statement with parts, the
builders the generator passes through, that each is contained in the program,
and that each block is still empty when it is entered.
-/
import Pylang.Aot.Exec

namespace Pylang.Aot

open Builder

/-- The block `bb` is entered, still empty, at `B`. -/
structure EntersBlock (B₀ B : Builder) (bb : Nat) : Prop where
  grew : Grew B₀ B
  lt : bb < B.next
  empty : B.code bb = []

theorem EntersBlock.wf {B₀ B : Builder} {bb : Nat} (h : EntersBlock B₀ B bb) : (B.setInsertPoint bb).WF :=
  h.grew.wf.enter h.lt

/-- The stages of `genIf`: the condition at `Be`, its branch at `Bc`, the two parts ending at `B₁` and `B₂`. -/
structure IfLayout (P : Nat → List Instr) (ctx : Ctx) (test : Expr) (genThen : Builder → Option Builder) (hasElse : Bool)
    (genElse : Builder → Option Builder) (B Be Bc B₁ B₂ : Builder) : Prop where
  test_eq : genExpr ctx test B = Be
  branch_eq : (Be.createBlocks 3).emit (.condBr Be.next (bif hasElse then Be.next + 1 else Be.next + 2)) = Bc
  then_eq : genBlock genThen Be.next (Be.next + 2) Bc = some B₁
  else_eq : genOrelse hasElse genElse (Be.next + 1) (Be.next + 2) B₁ = some B₂
  test_grew : Grew B Be
  then_at : EntersBlock B Bc Be.next
  else_at : EntersBlock B B₁ (Be.next + 1)
  merge_at : EntersBlock B B₂ (Be.next + 2)
  test_placed : Placed Be P
  branch_placed : Placed Bc P
  then_placed : Placed B₁ P
  else_placed : Placed B₂ P

theorem genIf_layout {P : Nat → List Instr} {ctx : Ctx} {test : Expr} {genThen genElse : Builder → Option Builder}
    {hasElse : Bool} {B B' : Builder} (gthen : Grows genThen) (gelse : Grows genElse) (hwf : B.WF)
    (h : genIf ctx test genThen hasElse genElse B = some B') (hP : Placed B' P) :
    ∃ Be Bc B₁ B₂, IfLayout P ctx test genThen hasElse genElse B Be Bc B₁ B₂ ∧ B' = B₂.setInsertPoint (Be.next + 2) := by
  simp only [genIf, Option.bind_eq_bind, Option.bind_eq_some_iff] at h
  obtain ⟨B₁, h₁, B₂, h₂, h⟩ := h
  cases h
  have hg := (Grew.refl hwf).expr ctx test
  obtain ⟨Be, hBe⟩ : ∃ Be, genExpr ctx test B = Be := ⟨_, rfl⟩
  rw [hBe] at hg h₁ h₂ hP ⊢
  obtain ⟨Bc, hBc⟩ : ∃ Bc, (Be.createBlocks 3).emit (.condBr Be.next (bif hasElse then Be.next + 1 else Be.next + 2)) = Bc :=
    ⟨_, rfl⟩
  rw [hBc] at h₁
  have hle := hg.next_le
  have hgc : Grew B Bc := hBc ▸ (hg.createBlocks 3).emit _
  have hnc : Bc.next = Be.next + 3 := by rw [← hBc, emit_next, createBlocks_next]
  have hR : Reserved [Be.next, Be.next + 1, Be.next + 2] Bc := by
    rw [← hBc]
    exact (hg.wf.reserved (k := 3) (by simp)).grew ((Grew.refl (hg.createBlocks 3).wf).emit _)
  obtain ⟨hg₁, hn₁⟩ := genBlock_grew gthen hgc hle (by omega) h₁
  have hR₁ := genBlock_reserved (R := [Be.next + 1, Be.next + 2]) gthen (hR.mono (by simp)) hgc.wf (by omega) (by simp) h₁
  obtain ⟨hg₂, hn₂⟩ := genOrelse_grew gelse hg₁ (by omega) (by omega) h₂
  have hR₂ := genOrelse_reserved (R := [Be.next + 2]) gelse (hR₁.mono (by simp)) hg₁.wf (by omega) (by simp) h₂
  have hP₁ := genOrelse_placed gelse hg₁.wf (by omega) h₂ hP
  have hPc := genBlock_placed gthen hgc.wf (by omega) h₁ hP₁
  have hPe : Placed Be P := ((Grew.refl hg.wf).createBlocks 3).emit _ |>.placed (hBc ▸ hPc)
  exact ⟨Be, Bc, B₁, B₂,
    { test_eq := hBe
      branch_eq := hBc
      then_eq := h₁
      else_eq := h₂
      test_grew := hg
      then_at := ⟨hgc, by omega, (hR _ (by simp)).2.2⟩
      else_at := ⟨hg₁, by omega, (hR₁ _ (by simp)).2.2⟩
      merge_at := ⟨hg₂, by omega, (hR₂ _ (by simp)).2.2⟩
      test_placed := hPe
      branch_placed := hPc
      then_placed := hP₁
      else_placed := hP }, rfl⟩

/-- The stages of `genLoop`: the condition block entered at `Bc`, the test ending at `Be` and its branch at `Bt`, the
parts ending at `B₁` and `B₂`. -/
structure LoopLayout (P : Nat → List Instr) (ctx : Ctx) (test : Expr) (genBody : Builder → Option Builder)
    (hasElse : Bool) (genElse : Builder → Option Builder) (B Bj Be Bt B₁ B₂ : Builder) : Prop where
  jump_eq : (B.createBlocks 4).emit (.br B.next) = Bj
  test_eq : genExpr ctx test (Bj.setInsertPoint B.next) = Be
  branch_eq : Be.emit (.condBr (B.next + 1) (bif hasElse then B.next + 2 else B.next + 3)) = Bt
  body_eq : genBlock genBody (B.next + 1) B.next Bt = some B₁
  else_eq : genOrelse hasElse genElse (B.next + 2) (B.next + 3) B₁ = some B₂
  cond_at : EntersBlock B Bj B.next
  body_at : EntersBlock B Bt (B.next + 1)
  else_at : EntersBlock B B₁ (B.next + 2)
  merge_at : EntersBlock B B₂ (B.next + 3)
  jump_placed : Placed Bj P
  test_placed : Placed Be P
  branch_placed : Placed Bt P
  body_placed : Placed B₁ P
  else_placed : Placed B₂ P

theorem genLoop_layout {P : Nat → List Instr} {ctx : Ctx} {test : Expr} {target : List Call}
    {genBody : Ctx → Builder → Option Builder} {genElse : Builder → Option Builder} {hasElse : Bool} {B B' : Builder}
    (gbody : ∀ ctx, Grows (genBody ctx)) (gelse : Grows genElse) (hwf : B.WF)
    (h : genLoop ctx test target genBody hasElse genElse B = some B') (hP : Placed B' P) :
    ∃ Bj Be Bt B₁ B₂,
      LoopLayout P ctx test (fun B₀ => genBody (ctx.pushLoop ⟨B.next + 3, B.next⟩)
        (genExpr (ctx.pushLoop ⟨B.next + 3, B.next⟩) ⟨target, 0⟩ B₀)) hasElse genElse B Bj Be Bt B₁ B₂ ∧
      B' = B₂.setInsertPoint (B.next + 3) := by
  simp only [genLoop, Option.bind_eq_bind, Option.bind_eq_some_iff] at h
  obtain ⟨B₁, h₁, B₂, h₂, h⟩ := h
  cases h
  have gtarget : ∀ inner, Grows fun B => genBody inner (genExpr inner ⟨target, 0⟩ B) :=
    fun inner _ _ hwf h => (gbody inner).step ((Grew.refl hwf).expr inner _) h
  obtain ⟨Bj, hBj⟩ : ∃ Bj, (B.createBlocks 4).emit (.br B.next) = Bj := ⟨_, rfl⟩
  rw [hBj] at h₁
  obtain ⟨Be, hBe⟩ : ∃ Be, genExpr ctx test (Bj.setInsertPoint B.next) = Be := ⟨_, rfl⟩
  rw [hBe] at h₁
  obtain ⟨Bt, hBt⟩ : ∃ Bt, Be.emit (.condBr (B.next + 1) (bif hasElse then B.next + 2 else B.next + 3)) = Bt := ⟨_, rfl⟩
  rw [hBt] at h₁
  have hgj : Grew B Bj := hBj ▸ ((Grew.refl hwf).createBlocks 4).emit _
  have hnj : Bj.next = B.next + 4 := by rw [← hBj, emit_next, createBlocks_next]
  have hRj : Reserved [B.next, B.next + 1, B.next + 2, B.next + 3] Bj := by
    rw [← hBj]
    exact (hwf.reserved (k := 4) (by simp)).grew ((Grew.refl ((Grew.refl hwf).createBlocks 4).wf).emit _)
  have hgc := hgj.setInsertPoint (Nat.le_refl _) (b := B.next) (by omega)
  have hge : Grew B Be := hBe ▸ hgc.expr ctx test
  have hgt : Grew B Bt := hBt ▸ hge.emit _
  have hRt : Reserved [B.next + 1, B.next + 2, B.next + 3] Bt := by
    rw [← hBt, ← hBe]
    exact (hRj.enter B.next (by simp)).grew (((Grew.refl hgc.wf).expr ctx test).emit _)
  have hnt : B.next + 4 ≤ Bt.next := by
    have := genExpr_next ctx test (Bj.setInsertPoint B.next)
    rw [hBe, setInsertPoint_next] at this
    rw [← hBt, emit_next]
    omega
  obtain ⟨hg₁, hn₁⟩ := genBlock_grew (gtarget _) hgt (by omega) (by omega) h₁
  have hR₁ := genBlock_reserved (R := [B.next + 2, B.next + 3]) (gtarget _) (hRt.mono (by simp)) hgt.wf (by omega)
    (by simp) h₁
  obtain ⟨hg₂, hn₂⟩ := genOrelse_grew gelse hg₁ (by omega) (by omega) h₂
  have hR₂ := genOrelse_reserved (R := [B.next + 3]) gelse (hR₁.mono (by simp)) hg₁.wf (by omega) (by simp) h₂
  have hP₁ := genOrelse_placed gelse hg₁.wf (by omega) h₂ hP
  have hPt := genBlock_placed (gtarget _) hgt.wf (by omega) h₁ hP₁
  have hPe : Placed Be P := ((Grew.refl hge.wf).emit _).placed (hBt ▸ hPt)
  have hPc : Placed (Bj.setInsertPoint B.next) P := ((Grew.refl hgc.wf).expr ctx test).placed (hBe ▸ hPe)
  exact ⟨Bj, Be, Bt, B₁, B₂,
    { jump_eq := hBj
      test_eq := hBe
      branch_eq := hBt
      body_eq := h₁
      else_eq := h₂
      cond_at := ⟨hgj, by omega, (hRj _ (by simp)).2.2⟩
      body_at := ⟨hgt, by omega, (hRt _ (by simp)).2.2⟩
      else_at := ⟨hg₁, by omega, (hR₁ _ (by simp)).2.2⟩
      merge_at := ⟨hg₂, by omega, (hR₂ _ (by simp)).2.2⟩
      jump_placed := hPc
      test_placed := hPe
      branch_placed := hPt
      body_placed := hP₁
      else_placed := hP }, rfl⟩

/-- The stages of `genWith`: the enter calls end at `Be`, the body starts from `Ba` and ends at `B₁`, the landing pad
ends at `Bl` and the normal exit at `Bn`. -/
structure WithLayout (P : Nat → List Instr) (ctx : Ctx) (enter onExc onExit : Expr) (genBody : Builder → Option Builder)
    (B Be Bs Ba B₁ Bl Bn : Builder) : Prop where
  enter_eq : genExpr ctx enter B = Be
  store_eq : (Be.createBlocks 4).createSlot.emit (.storeState Be.slots 0) = Bs
  jump_eq : Bs.emit (.br Be.next) = Ba
  body_eq : genBlock genBody Be.next (Be.next + 2) Ba = some B₁
  pad_eq : genWithLandingPad ctx Be.slots (Be.next + 3) onExc (B₁.setInsertPoint (Be.next + 1)) = Bl
  exit_eq : genWithNormalExit ctx Be.slots (Be.next + 3) onExit (Bl.setInsertPoint (Be.next + 2)) = Bn
  enter_grew : Grew B Be
  body_at : EntersBlock B Ba Be.next
  pad_at : EntersBlock B B₁ (Be.next + 1)
  exit_at : EntersBlock B Bl (Be.next + 2)
  merge_at : EntersBlock B Bn (Be.next + 3)
  enter_placed : Placed Be P
  store_placed : Placed Bs P
  jump_placed : Placed Ba P
  body_placed : Placed B₁ P
  pad_placed : Placed Bl P
  exit_placed : Placed Bn P

theorem genWith_layout {P : Nat → List Instr} {ctx : Ctx} {enter onExc onExit : Expr}
    {genBody : Ctx → Builder → Option Builder} {B B' : Builder} (gbody : ∀ ctx, Grows (genBody ctx)) (hwf : B.WF)
    (h : genWith ctx enter genBody onExc onExit B = some B') (hP : Placed B' P) :
    ∃ Be Bs Ba B₁ Bl Bn,
      WithLayout P ctx enter onExc onExit (genBody (ctx.pushTry ⟨none, Be.slots⟩ (Be.next + 1))) B Be Bs Ba B₁ Bl Bn ∧
      B' = Bn.setInsertPoint (Be.next + 3) := by
  simp only [genWith, Option.bind_eq_bind, Option.bind_eq_some_iff] at h
  obtain ⟨B₁, h₁, h⟩ := h
  cases h
  have hg := (Grew.refl hwf).expr ctx enter
  obtain ⟨Be, hBe⟩ : ∃ Be, genExpr ctx enter B = Be := ⟨_, rfl⟩
  rw [hBe] at hg h₁ hP ⊢
  obtain ⟨Bs, hBs⟩ : ∃ Bs, (Be.createBlocks 4).createSlot.emit (.storeState Be.slots 0) = Bs := ⟨_, rfl⟩
  rw [hBs] at h₁
  obtain ⟨Ba, hBa⟩ : ∃ Ba, Bs.emit (.br Be.next) = Ba := ⟨_, rfl⟩
  rw [hBa] at h₁
  have hle := hg.next_le
  have hgs : Grew B Bs := hBs ▸ ((hg.createBlocks 4).createSlot).emit _
  have hga : Grew B Ba := hBa ▸ hgs.emit _
  have hna : Ba.next = Be.next + 4 := by rw [← hBa, ← hBs, emit_next, emit_next, createSlot_next, createBlocks_next]
  have hRa : Reserved [Be.next, Be.next + 1, Be.next + 2, Be.next + 3] Ba := by
    rw [← hBa, ← hBs]
    exact (hg.wf.reserved (k := 4) (by simp)).grew (((Grew.refl (hg.createBlocks 4).wf).createSlot.emit _).emit _)
  obtain ⟨hg₁, hn₁⟩ := genBlock_grew (gbody _) hga hle (by omega) h₁
  have hR₁ := genBlock_reserved (R := [Be.next + 1, Be.next + 2, Be.next + 3]) (gbody _) (hRa.mono (by simp)) hga.wf
    (by omega) (by simp) h₁
  obtain ⟨Bl, hBl⟩ : ∃ Bl, genWithLandingPad ctx Be.slots (Be.next + 3) onExc (B₁.setInsertPoint (Be.next + 1)) = Bl :=
    ⟨_, rfl⟩
  have hwl := hg₁.wf.enter (b := Be.next + 1) (by omega)
  have hpad : Grew (B₁.setInsertPoint (Be.next + 1)) Bl := hBl ▸ (genWithLandingPad_grew (.refl hwl) ..).1
  have hgl : Grew B Bl := hBl ▸ (genWithLandingPad_grew (hg₁.setInsertPoint (by omega) (by omega)) ..).1
  have hRl := (hR₁.enter (Q := [Be.next + 2, Be.next + 3]) (Be.next + 1) (by simp)).grew hpad
  have hnl := hpad.next_le
  rw [setInsertPoint_next] at hnl
  rw [hBl] at hP ⊢
  obtain ⟨Bn, hBn⟩ : ∃ Bn, genWithNormalExit ctx Be.slots (Be.next + 3) onExit (Bl.setInsertPoint (Be.next + 2)) = Bn :=
    ⟨_, rfl⟩
  have hwn := hgl.wf.enter (b := Be.next + 2) (by omega)
  have hexit : Grew (Bl.setInsertPoint (Be.next + 2)) Bn := hBn ▸ (genWithNormalExit_grew (.refl hwn) ..).1
  have hgn : Grew B Bn := hBn ▸ (genWithNormalExit_grew (hgl.setInsertPoint (by omega) (by omega)) ..).1
  have hRn := (hRl.enter (Q := [Be.next + 3]) (Be.next + 2) (by simp)).grew hexit
  have hnn := hexit.next_le
  rw [setInsertPoint_next] at hnn
  rw [hBn] at hP ⊢
  have hPl : Placed Bl P := hexit.placed hP
  have hP₁ : Placed B₁ P := hpad.placed hPl
  have hPa := genBlock_placed (gbody _) hga.wf (by omega) h₁ hP₁
  have hPs : Placed Bs P := ((Grew.refl hgs.wf).emit _).placed (hBa ▸ hPa)
  have hPe : Placed Be P := (((Grew.refl hg.wf).createBlocks 4).createSlot.emit _).placed (hBs ▸ hPs)
  exact ⟨Be, Bs, Ba, B₁, Bl, Bn,
    { enter_eq := hBe
      store_eq := hBs
      jump_eq := hBa
      body_eq := h₁
      pad_eq := hBl
      exit_eq := hBn
      enter_grew := hg
      body_at := ⟨hga, by omega, (hRa _ (by simp)).2.2⟩
      pad_at := ⟨hg₁, by omega, (hR₁ _ (by simp)).2.2⟩
      exit_at := ⟨hgl, by omega, (hRl _ (by simp)).2.2⟩
      merge_at := ⟨hgn, by omega, (hRn _ (by simp)).2.2⟩
      enter_placed := hPe
      store_placed := hPs
      jump_placed := hPa
      body_placed := hP₁
      pad_placed := hPl
      exit_placed := hP }, rfl⟩

/-- The stages of `genTry`: the body starts in `Bj` and ends at `B₁`, the landing pad ends at `Bl` and the handlers are
generated from `Bh` to `B₂`; the other parts end at `B₃` and `B₄`, and the block that re-raises at `B₅`. -/
structure TryLayout (P : Nat → List Instr) (ctx : Ctx) (genBody : Ctx → Builder → Option Builder) (hasHandlers : Bool)
    (genHandlers : Builder → Option Builder) (hasElse : Bool) (genElse : Builder → Option Builder) (hasFinally : Bool)
    (genFinal : Builder → Option Builder) (finally? : Option Nat) (B Bs Bj B₁ Bl Bh B₂ B₃ B₄ B₅ : Builder) : Prop where
  finally_eq : (bif hasFinally then some (B.next + 4) else none) = finally?
  store_eq : (B.createBlocks 7).createSlot.emit (.storeState B.slots 0) = Bs
  jump_eq : Bs.emit (.br B.next) = Bj
  body_eq : genTryBody ctx ⟨finally?, B.slots⟩ (B.next + 1) genBody
    (bif hasElse then B.next + 3 else finally?.getD (B.next + 6)) (Bj.setInsertPoint B.next) = some B₁
  pad_eq : genLandingPad ctx B.slots (B₁.setInsertPoint (B.next + 1)) = Bl
  dispatch_eq : (bif hasHandlers then (Bl.emit (.br (B.next + 2))).setInsertPoint (B.next + 2) else Bl) = Bh
  handlers_eq : genHandlers Bh = some B₂
  else_eq : genOrelse hasElse genElse (B.next + 3) (finally?.getD (B.next + 6)) B₂ = some B₃
  final_eq : genFinally ctx hasFinally B.slots genFinal (B.next + 4) (B.next + 6) (B.next + 5) B₃ = some B₄
  body_at : EntersBlock B Bj B.next
  pad_at : EntersBlock B B₁ (B.next + 1)
  dispatch_at : EntersBlock B (Bl.emit (.br (B.next + 2))) (B.next + 2)
  handlers_grew : Grew B Bh
  else_at : EntersBlock B B₂ (B.next + 3)
  final_at : EntersBlock B B₃ (B.next + 4)
  merge_at : EntersBlock B B₅ (B.next + 6)
  next_body : B.next + 7 ≤ Bj.next
  next_handlers : B.next + 7 ≤ Bh.next
  next_else : B.next + 7 ≤ B₂.next
  slot_body : B.slots < Bj.slots
  slot_handlers : B.slots < Bh.slots
  slot_else : B.slots < B₂.slots
  slot_final : B.slots < B₃.slots
  store_placed : Placed Bs P
  jump_placed : Placed Bj P
  body_placed : Placed B₁ P
  pad_placed : Placed Bl P
  dispatch_placed : Placed Bh P
  handlers_placed : Placed B₂ P
  else_placed : Placed B₃ P
  final_placed : Placed B₄ P

theorem genTry_layout {P : Nat → List Instr} {ctx : Ctx} {genBody : Ctx → Builder → Option Builder}
    {genHandlers : Nat → Option Nat → Nat → Builder → Option Builder} {genElse genFinal : Builder → Option Builder}
    {hasHandlers hasElse hasFinally : Bool} {B B' : Builder} (gbody : ∀ ctx, Grows (genBody ctx))
    (ghandlers : ∀ slot f after, Grows (genHandlers slot f after)) (gelse : Grows genElse) (gfinal : Grows genFinal)
    (hwf : B.WF) (h : genTry ctx genBody hasHandlers genHandlers hasElse genElse hasFinally genFinal B = some B')
    (hP : Placed B' P) :
    ∃ finally? Bs Bj B₁ Bl Bh B₂ B₃ B₄ B₅,
      TryLayout P ctx genBody hasHandlers (genHandlers B.slots finally? (finally?.getD (B.next + 6))) hasElse genElse
        hasFinally genFinal finally? B Bs Bj B₁ Bl Bh B₂ B₃ B₄ B₅ ∧
      B' = B₅.setInsertPoint (B.next + 6) := by
  simp only [genTry, Option.bind_eq_bind, Option.bind_eq_some_iff] at h
  obtain ⟨B₁, h₁, B₂, h₂, B₃, h₃, B₄, h₄, h⟩ := h
  cases h
  obtain ⟨finally?, hfinally⟩ : ∃ f, (bif hasFinally then some (B.next + 4) else none) = f := ⟨_, rfl⟩
  rw [hfinally] at h₁ h₂ h₃
  obtain ⟨Bs, hBs⟩ : ∃ Bs, (B.createBlocks 7).createSlot.emit (.storeState B.slots 0) = Bs := ⟨_, rfl⟩
  rw [hBs] at h₁
  obtain ⟨Bj, hBj⟩ : ∃ Bj, Bs.emit (.br B.next) = Bj := ⟨_, rfl⟩
  rw [hBj] at h₁
  have hgs : Grew B Bs := hBs ▸ ((Grew.refl hwf).createBlocks 7).createSlot.emit _
  have hgj : Grew B Bj := hBj ▸ hgs.emit _
  have hnj : Bj.next = B.next + 7 := by rw [← hBj, ← hBs, emit_next, emit_next, createSlot_next, createBlocks_next]
  have hsj : Bj.slots = B.slots + 1 := by
    rw [← hBj, ← hBs, emit_slots, emit_slots, createSlot_slots, createBlocks_slots]
  -- the blocks that are still reserved at each stage
  have hRj : Reserved [B.next, B.next + 1, B.next + 2, B.next + 3, B.next + 4, B.next + 5, B.next + 6] Bj := by
    rw [← hBj, ← hBs]
    exact (hwf.reserved (k := 7) (by simp)).grew
      ((((Grew.refl ((Grew.refl hwf).createBlocks 7).wf).createSlot).emit _).emit _)
  have hga := hgj.setInsertPoint (b := B.next) (Nat.le_refl _) (by omega)
  have hbody := genTryBody_grew gbody hga.wf h₁
  have hg₁ := hga.trans hbody
  have hR₁ := (hRj.enter (Q := [B.next + 1, B.next + 2, B.next + 3, B.next + 4, B.next + 5, B.next + 6]) B.next
    (by simp)).grew hbody
  have hn₁ := hbody.next_le
  have hs₁ := hbody.slots_le
  rw [setInsertPoint_next] at hn₁
  rw [setInsertPoint_slots] at hs₁
  obtain ⟨Bl, hBl⟩ : ∃ Bl, genLandingPad ctx B.slots (B₁.setInsertPoint (B.next + 1)) = Bl := ⟨_, rfl⟩
  rw [hBl] at h₂
  have hwl := hg₁.wf.enter (b := B.next + 1) (by omega)
  have hpad : Grew (B₁.setInsertPoint (B.next + 1)) Bl := hBl ▸ genLandingPad_grew (.refl hwl) ctx B.slots
  have hgl : Grew B Bl :=
    hBl ▸ genLandingPad_grew (hg₁.setInsertPoint (b := B.next + 1) (by omega) (by omega)) ctx B.slots
  have hRl := (hR₁.enter (Q := [B.next + 2, B.next + 3, B.next + 4, B.next + 5, B.next + 6]) (B.next + 1)
    (by simp)).grew hpad
  have hnl := hpad.next_le
  have hsl := hpad.slots_le
  rw [setInsertPoint_next] at hnl
  rw [setInsertPoint_slots] at hsl
  have hge := (Grew.refl hgl.wf).emit (.br (B.next + 2))
  have hRe := hRl.grew hge
  obtain ⟨Bh, hBh⟩ : ∃ Bh, (bif hasHandlers then (Bl.emit (.br (B.next + 2))).setInsertPoint (B.next + 2) else Bl) = Bh :=
    ⟨_, rfl⟩
  rw [hBh] at h₂
  obtain ⟨hgh, hnh, hsh, hRh, hdispatch⟩ : Grew B Bh ∧ Bh.next = Bl.next ∧ Bh.slots = Bl.slots ∧
      Reserved [B.next + 3, B.next + 4, B.next + 5, B.next + 6] Bh ∧ (Placed Bh P → Placed Bl P) := by
    subst hBh
    cases hasHandlers with
    | false => exact ⟨hgl, rfl, rfl, hRl.mono (by simp), id⟩
    | true =>
      exact ⟨(hgl.emit _).setInsertPoint (by omega) (by simp only [emit_next]; omega), rfl, rfl, hRe.enter _ (by simp),
        hge.placed⟩
  have hgr := ghandlers B.slots finally? _ _ _ hgh.wf h₂
  have hR₂ := hRh.grew hgr
  have hn₂ := hgr.next_le
  have hs₂ := hgr.slots_le
  have hg₂ := hgh.trans hgr
  obtain ⟨hg₃, hn₃⟩ := genOrelse_grew gelse hg₂ (by omega) (by omega) h₃
  have hs₃ := genOrelse_slots gelse hg₂.wf (by omega) h₃
  have hR₃ := genOrelse_reserved (R := [B.next + 4, B.next + 5, B.next + 6]) gelse (hR₂.mono (by simp)) hg₂.wf
    (by omega) (by simp) h₃
  obtain ⟨hg₄, hn₄⟩ := genFinally_grew gfinal hg₃ (by omega) (by omega) h₄
  have hR₄ := genFinally_reserved (R := [B.next + 5, B.next + 6]) gfinal (hR₃.mono (by simp)) hg₃.wf (by omega)
    (by simp) h₄
  have hraise := (Grew.refl (hg₄.wf.enter (b := B.next + 5) (by omega))).emit (.resume B.slots)
  have hg₅ := (hg₄.setInsertPoint (b := B.next + 5) (by omega) (by omega)).emit (.resume B.slots)
  have hR₅ := (hR₄.enter (Q := [B.next + 6]) (B.next + 5) (by simp)).grew hraise
  have hP₄ : Placed B₄ P := hraise.placed hP
  have hP₃ := genFinally_placed gfinal hg₃.wf (by omega) h₄ hP₄
  have hP₂ := genOrelse_placed gelse hg₂.wf (by omega) h₃ hP₃
  have hPh := hgr.placed hP₂
  have hPl := hdispatch hPh
  have hP₁ : Placed B₁ P := hpad.placed hPl
  have hPj : Placed Bj P := hbody.placed hP₁
  have hPs : Placed Bs P := ((Grew.refl hgs.wf).emit (.br B.next)).placed (hBj ▸ hPj)
  exact ⟨finally?, Bs, Bj, B₁, Bl, Bh, B₂, B₃, B₄, _,
    { finally_eq := hfinally
      store_eq := hBs
      jump_eq := hBj
      body_eq := h₁
      pad_eq := hBl
      dispatch_eq := hBh
      handlers_eq := h₂
      else_eq := h₃
      final_eq := h₄
      body_at := ⟨hgj, by omega, (hRj _ (by simp)).2.2⟩
      pad_at := ⟨hg₁, by omega, (hR₁ _ (by simp)).2.2⟩
      dispatch_at := ⟨hgl.emit _, by simp only [emit_next]; omega, (hRe _ (by simp)).2.2⟩
      handlers_grew := hgh
      else_at := ⟨hg₂, by omega, (hR₂ _ (by simp)).2.2⟩
      final_at := ⟨hg₃, by omega, (hR₃ _ (by simp)).2.2⟩
      merge_at := ⟨hg₅, by simp only [emit_next, setInsertPoint_next]; omega, (hR₅ _ (by simp)).2.2⟩
      next_body := by omega
      next_handlers := by omega
      next_else := by omega
      slot_body := by omega
      slot_handlers := by omega
      slot_else := by omega
      slot_final := by omega
      store_placed := hPs
      jump_placed := hPj
      body_placed := hP₁
      pad_placed := hPl
      dispatch_placed := hPh
      handlers_placed := hP₂
      else_placed := hP₃
      final_placed := hP₄ }, rfl⟩

/-- The stages of a typed handler: the test ends at `Be` and branches at `Bb`, the body ends at `B₁`. -/
structure HandlerLayout (P : Nat → List Instr) (ctx : Ctx) (slot after : Nat) (type : Expr) (bind : List Call)
    (gen : Builder → Option Builder) (B Be Bb B₁ : Builder) : Prop where
  test_eq : genExpr ctx type (B.createBlocks 2) = Be
  branch_eq : Be.emit (.condBr B.next (B.next + 1)) = Bb
  body_eq : genHandlerBody ctx slot after bind gen B.next Bb = some B₁
  test_grew : Grew B Be
  body_at : EntersBlock B Bb B.next
  next_at : EntersBlock B B₁ (B.next + 1)
  test_placed : Placed Be P
  branch_placed : Placed Bb P
  body_placed : Placed B₁ P

theorem typedHandler_layout {P : Nat → List Instr} {ctx : Ctx} {slot after : Nat} {type : Expr} {bind : List Call}
    {gen : Builder → Option Builder} {rest : Builder → Option Builder} {B B' : Builder} (hgen : Grows gen)
    (hrest : Grows rest) (hwf : B.WF)
    (h : ((genHandlerBody ctx slot after bind gen B.next
      ((genExpr ctx type (B.createBlocks 2)).emit (.condBr B.next (B.next + 1)))).bind fun B₁ =>
        rest (B₁.setInsertPoint (B.next + 1))) = some B') (hP : Placed B' P) :
    ∃ Be Bb B₁, HandlerLayout P ctx slot after type bind gen B Be Bb B₁ ∧
      rest (B₁.setInsertPoint (B.next + 1)) = some B' := by
  obtain ⟨B₁, h₁, h₂⟩ := Option.bind_eq_some_iff.mp h
  obtain ⟨Be, hBe⟩ : ∃ Be, genExpr ctx type (B.createBlocks 2) = Be := ⟨_, rfl⟩
  rw [hBe] at h₁
  obtain ⟨Bb, hBb⟩ : ∃ Bb, Be.emit (.condBr B.next (B.next + 1)) = Bb := ⟨_, rfl⟩
  rw [hBb] at h₁
  have hgc := (Grew.refl hwf).createBlocks 2
  have hge : Grew B Be := hBe ▸ hgc.expr ctx type
  have hgb : Grew B Bb := hBb ▸ hge.emit _
  have hRb : Reserved [B.next, B.next + 1] Bb := by
    rw [← hBb, ← hBe]
    exact (hwf.reserved (k := 2) (by simp)).grew (((Grew.refl hgc.wf).expr ctx type).emit _)
  have hlt : B.next + 2 ≤ Bb.next := by
    have := genExpr_next ctx type (B.createBlocks 2)
    rw [hBe, createBlocks_next] at this
    rw [← hBb, emit_next]
    exact this
  obtain ⟨hg₁, hn₁⟩ := genHandlerBody_grew hgen hgb (Nat.le_refl _) (by omega) h₁
  have hR₁ := genHandlerBody_reserved (R := [B.next + 1]) hgen (hRb.mono (by simp)) hgb.wf (by omega) (by simp) h₁
  have hP₁ := hrest.placed hg₁.wf (by omega) h₂ hP
  have hPb := genHandlerBody_placed hgen hgb.wf (by omega) h₁ hP₁
  have hPe : Placed Be P := ((Grew.refl hge.wf).emit _).placed (hBb ▸ hPb)
  exact ⟨Be, Bb, B₁,
    { test_eq := hBe
      branch_eq := hBb
      body_eq := h₁
      test_grew := hge
      body_at := ⟨hgb, by omega, (hRb _ (by simp)).2.2⟩
      next_at := ⟨hg₁, by omega, (hR₁ _ (by simp)).2.2⟩
      test_placed := hPe
      branch_placed := hPb
      body_placed := hP₁ }, h₂⟩

end Pylang.Aot
