/-
What generating code does to the builder: it only appends, and it only touches
the block it was started in and blocks it creates itself. So a block that was
created and not entered yet is still empty when the generator gets to it.
-/
import Pylang.Aot.Codegen

namespace Pylang.Aot

namespace Builder

/-- The insertion point is a block that exists, and blocks that do not are empty. -/
structure WF (B : Builder) : Prop where
  cur_lt : B.cur < B.next
  fresh : ∀ b, B.next ≤ b → B.code b = []

/-- `B'` comes from `B` by generating code. -/
structure Grew (B B' : Builder) : Prop where
  wf : B'.WF
  next_le : B.next ≤ B'.next
  slots_le : B.slots ≤ B'.slots
  code_prefix : ∀ b, B.code b <+: B'.code b
  away : ∀ b, b < B.next → b ≠ B.cur → b ≠ B'.cur ∧ B'.code b = B.code b

theorem WF.enter {B : Builder} (h : B.WF) {b : Nat} (hlt : b < B.next) : (B.setInsertPoint b).WF := ⟨hlt, h.fresh⟩

theorem entry_wf : entry.WF := ⟨by decide, fun _ _ => rfl⟩

@[simp] theorem emit_next (B : Builder) (i : Instr) : (B.emit i).next = B.next := rfl
@[simp] theorem emit_slots (B : Builder) (i : Instr) : (B.emit i).slots = B.slots := rfl
@[simp] theorem emit_cur (B : Builder) (i : Instr) : (B.emit i).cur = B.cur := rfl
@[simp] theorem createBlocks_next (B : Builder) (k : Nat) : (B.createBlocks k).next = B.next + k := rfl
@[simp] theorem createBlocks_slots (B : Builder) (k : Nat) : (B.createBlocks k).slots = B.slots := rfl
@[simp] theorem createBlocks_cur (B : Builder) (k : Nat) : (B.createBlocks k).cur = B.cur := rfl
@[simp] theorem createBlocks_code (B : Builder) (k : Nat) : (B.createBlocks k).code = B.code := rfl
@[simp] theorem createSlot_next (B : Builder) : B.createSlot.next = B.next := rfl
@[simp] theorem createSlot_slots (B : Builder) : B.createSlot.slots = B.slots + 1 := rfl
@[simp] theorem createSlot_cur (B : Builder) : B.createSlot.cur = B.cur := rfl
@[simp] theorem createSlot_code (B : Builder) : B.createSlot.code = B.code := rfl
@[simp] theorem setInsertPoint_next (B : Builder) (b : Nat) : (B.setInsertPoint b).next = B.next := rfl
@[simp] theorem setInsertPoint_slots (B : Builder) (b : Nat) : (B.setInsertPoint b).slots = B.slots := rfl
@[simp] theorem setInsertPoint_cur (B : Builder) (b : Nat) : (B.setInsertPoint b).cur = b := rfl
@[simp] theorem setInsertPoint_code (B : Builder) (b : Nat) : (B.setInsertPoint b).code = B.code := rfl

theorem emit_code_cur (B : Builder) (i : Instr) : (B.emit i).code B.cur = B.code B.cur ++ [i] := by
  unfold emit
  simp

theorem emit_code_ne (B : Builder) (i : Instr) {b : Nat} (h : b ≠ B.cur) : (B.emit i).code b = B.code b := by
  unfold emit
  simp [h]

@[simp] theorem emit_terminated (B : Builder) (i : Instr) : (B.emit i).terminated = i.isTerminator := by
  unfold terminated
  simp [emit_code_cur]

theorem open_of_empty {B : Builder} (h : B.code B.cur = []) : B.terminated = false := by
  unfold terminated
  simp [h]

/-! ## Growing -/

namespace Grew

theorem refl {B : Builder} (h : B.WF) : Grew B B :=
  ⟨h, Nat.le_refl _, Nat.le_refl _, fun _ => List.prefix_refl _, fun _ _ hne => ⟨hne, rfl⟩⟩

theorem trans {B B' B'' : Builder} (h : Grew B B') (h' : Grew B' B'') : Grew B B'' where
  wf := h'.wf
  next_le := Nat.le_trans h.next_le h'.next_le
  slots_le := Nat.le_trans h.slots_le h'.slots_le
  code_prefix b := (h.code_prefix b).trans (h'.code_prefix b)
  away b hb hne := by
    obtain ⟨hne', hcode⟩ := h.away b hb hne
    obtain ⟨hne'', hcode'⟩ := h'.away b (Nat.lt_of_lt_of_le hb h.next_le) hne'
    exact ⟨hne'', hcode'.trans hcode⟩

theorem emit {B B' : Builder} (h : Grew B B') (i : Instr) : Grew B (B'.emit i) where
  wf := by
    refine ⟨h.wf.cur_lt, fun b hb => ?_⟩
    have hne : b ≠ B'.cur := by
      have := h.wf.cur_lt
      have : B'.next ≤ b := hb
      omega
    rw [emit_code_ne _ _ hne]
    exact h.wf.fresh b hb
  next_le := h.next_le
  slots_le := h.slots_le
  code_prefix b := by
    by_cases hb : b = B'.cur
    · subst hb
      rw [emit_code_cur]
      exact (h.code_prefix _).trans (List.prefix_append _ _)
    · rw [emit_code_ne _ _ hb]
      exact h.code_prefix b
  away b hb hne := by
    obtain ⟨hne', hcode⟩ := h.away b hb hne
    exact ⟨hne', by rw [emit_code_ne _ _ hne', hcode]⟩

theorem createBlocks {B B' : Builder} (h : Grew B B') (k : Nat) : Grew B (B'.createBlocks k) where
  wf := by
    have := h.wf.cur_lt
    refine ⟨?_, fun b hb => h.wf.fresh b ?_⟩
    · show B'.cur < B'.next + k
      omega
    · have : B'.next + k ≤ b := hb
      omega
  next_le := by
    have := h.next_le
    show B.next ≤ B'.next + k
    omega
  slots_le := h.slots_le
  code_prefix := h.code_prefix
  away := h.away

theorem createSlot {B B' : Builder} (h : Grew B B') : Grew B B'.createSlot where
  wf := ⟨h.wf.cur_lt, h.wf.fresh⟩
  next_le := h.next_le
  slots_le := Nat.le_succ_of_le h.slots_le
  code_prefix := h.code_prefix
  away := h.away

theorem setInsertPoint {B B' : Builder} (h : Grew B B') {b : Nat} (hb : B.next ≤ b) (hb' : b < B'.next) :
    Grew B (B'.setInsertPoint b) where
  wf := ⟨hb', h.wf.fresh⟩
  next_le := h.next_le
  slots_le := h.slots_le
  code_prefix := h.code_prefix
  away c hc hne := by
    refine ⟨?_, (h.away c hc hne).2⟩
    show c ≠ b
    omega

theorem brIfOpen {B B' : Builder} (h : Grew B B') (b : Nat) : Grew B (B'.brIfOpen b) := by
  unfold Builder.brIfOpen
  split
  · exact h
  · exact h.emit _

theorem runtimeCall {B B' : Builder} (h : Grew B B') (ctx : Ctx) (f : Rt) : Grew B (emitRuntimeCall ctx f B') := by
  unfold emitRuntimeCall
  split
  · have hn := h.next_le
    refine ((h.createBlocks 1).emit _).setInsertPoint hn ?_
    simp
  · exact h.emit _

theorem calls {B : Builder} (ctx : Ctx) : ∀ (cs : List Call) {B' : Builder}, Grew B B' → Grew B (genCalls ctx cs B')
  | [], _, h => h
  | c :: cs, _, h => calls ctx cs (h.runtimeCall ctx (.call c))

theorem expr {B B' : Builder} (h : Grew B B') (ctx : Ctx) (e : Expr) : Grew B (genExpr ctx e B') :=
  calls ctx e.calls (h.emit _)

end Grew

/-- A visitor grows the builder. -/
def Grows (gen : Builder → Option Builder) : Prop := ∀ B B', B.WF → gen B = some B' → Grew B B'

theorem Grows.step {gen : Builder → Option Builder} (hg : Grows gen) {B B' B'' : Builder} (h : Grew B B')
    (heq : gen B' = some B'') : Grew B B'' := h.trans (hg _ _ h.wf heq)

/-! ## Blocks created and not entered -/

/-- The blocks of `R` exist, are empty and are not where code is inserted. -/
def Reserved (R : List Nat) (B : Builder) : Prop := ∀ b ∈ R, b < B.next ∧ b ≠ B.cur ∧ B.code b = []

theorem Reserved.grew {R : List Nat} {B B' : Builder} (h : Reserved R B) (hg : Grew B B') : Reserved R B' := by
  intro b hb
  obtain ⟨hlt, hne, hempty⟩ := h b hb
  obtain ⟨hne', hcode⟩ := hg.away b hlt hne
  exact ⟨Nat.lt_of_lt_of_le hlt hg.next_le, hne', hcode.trans hempty⟩

theorem WF.reserved {B : Builder} (h : B.WF) {k : Nat} {R : List Nat}
    (hR : ∀ b ∈ R, B.next ≤ b ∧ b < B.next + k) : Reserved R (B.createBlocks k) := by
  intro b hb
  obtain ⟨hle, hlt⟩ := hR b hb
  have := h.cur_lt
  refine ⟨hlt, ?_, h.fresh b hle⟩
  show b ≠ B.cur
  omega

theorem Reserved.enter {R Q : List Nat} {B : Builder} (h : Reserved R B) (b : Nat)
    (hR : ∀ c ∈ Q, c ∈ R ∧ c ≠ b) : Reserved Q (B.setInsertPoint b) := by
  intro c hc
  obtain ⟨hmem, hne⟩ := hR c hc
  obtain ⟨hlt, -, hempty⟩ := h c hmem
  exact ⟨hlt, hne, hempty⟩

theorem Reserved.mono {R R' : List Nat} {B : Builder} (h : Reserved R B) (hR : ∀ c ∈ R', c ∈ R) : Reserved R' B :=
  fun c hc => h c (hR c hc)

end Builder

open Builder

/-! ## The visitors grow the builder

Each lemma is relative to a builder `B₀` the visitor's parts were not yet
created in, and also says that no block is forgotten on the way. -/

section
variable {B₀ B B' : Builder}

theorem Builder.Grows.at {gen : Builder → Option Builder} (hgen : Grows gen) (hg : Grew B₀ B) {bb : Nat} (hle : B₀.next ≤ bb)
    (hlt : bb < B.next) (h : gen (B.setInsertPoint bb) = some B') : Grew B₀ B' ∧ B.next ≤ B'.next :=
  have hat := hg.setInsertPoint hle hlt
  ⟨hgen.step hat h, (hgen _ _ hat.wf h).next_le⟩

theorem brIfOpen_next (B : Builder) (b : Nat) : (B.brIfOpen b).next = B.next := by
  unfold brIfOpen
  split <;> rfl

theorem genBlock_grew {gen : Builder → Option Builder} (hgen : Grows gen) (hg : Grew B₀ B) {bb after : Nat}
    (hle : B₀.next ≤ bb) (hlt : bb < B.next) (h : genBlock gen bb after B = some B') :
    Grew B₀ B' ∧ B.next ≤ B'.next := by
  unfold genBlock at h
  obtain ⟨B₁, h₁, rfl⟩ := Option.map_eq_some_iff.mp h
  obtain ⟨hg₁, hn⟩ := hgen.at hg hle hlt h₁
  refine ⟨hg₁.brIfOpen _, ?_⟩
  rw [brIfOpen_next]
  exact hn

theorem genOrelse_grew {present : Bool} {gen : Builder → Option Builder} (hgen : Grows gen) (hg : Grew B₀ B)
    {bb after : Nat} (hle : B₀.next ≤ bb) (hlt : bb < B.next) (h : genOrelse present gen bb after B = some B') :
    Grew B₀ B' ∧ B.next ≤ B'.next := by
  unfold genOrelse at h
  split at h
  · exact genBlock_grew hgen hg hle hlt h
  · cases h
    exact ⟨hg, Nat.le_refl _⟩

theorem genOrelse_slots {present : Bool} {gen : Builder → Option Builder} (hgen : Grows gen) (hwf : B.WF)
    {bb after : Nat} (hlt : bb < B.next) (h : genOrelse present gen bb after B = some B') : B.slots ≤ B'.slots := by
  unfold genOrelse genBlock at h
  split at h
  · obtain ⟨B₁, h₁, rfl⟩ := Option.map_eq_some_iff.mp h
    have hg := hgen _ _ (hwf.enter hlt) h₁
    exact ((hg.brIfOpen after).slots_le)
  · cases h
    exact Nat.le_refl _

theorem Builder.Reserved.at {gen : Builder → Option Builder} (hgen : Grows gen) {R : List Nat} (hR : Reserved R B)
    (hwf : B.WF) {bb : Nat} (hlt : bb < B.next) (hbb : bb ∉ R) (h : gen (B.setInsertPoint bb) = some B') :
    Reserved R B' :=
  (hR.enter bb fun _ hc => ⟨hc, fun heq => hbb (heq ▸ hc)⟩).grew (hgen _ _ (hwf.enter hlt) h)

theorem Builder.Reserved.brIfOpen {R : List Nat} (hR : Reserved R B) (hwf : B.WF) (b : Nat) : Reserved R (B.brIfOpen b) :=
  hR.grew ((Grew.refl hwf).brIfOpen b)

theorem genBlock_reserved {gen : Builder → Option Builder} (hgen : Grows gen) {R : List Nat} (hR : Reserved R B)
    (hwf : B.WF) {bb after : Nat} (hlt : bb < B.next) (hbb : bb ∉ R) (h : genBlock gen bb after B = some B') :
    Reserved R B' := by
  unfold genBlock at h
  obtain ⟨B₁, h₁, rfl⟩ := Option.map_eq_some_iff.mp h
  exact (Reserved.at hgen hR hwf hlt hbb h₁).brIfOpen (hgen _ _ (hwf.enter hlt) h₁).wf _

theorem genOrelse_reserved {present : Bool} {gen : Builder → Option Builder} (hgen : Grows gen) {R : List Nat}
    (hR : Reserved R B) (hwf : B.WF) {bb after : Nat} (hlt : bb < B.next) (hbb : bb ∉ R)
    (h : genOrelse present gen bb after B = some B') : Reserved R B' := by
  unfold genOrelse at h
  split at h
  · exact genBlock_reserved hgen hR hwf hlt hbb h
  · cases h
    exact hR

theorem genReturn_grew (hg : Grew B₀ B) (ctx : Ctx) (e : Expr) : Grew B₀ (genReturn ctx e B) := by
  unfold genReturn
  simp only
  split
  · exact (((hg.expr ctx e).emit _).emit _).emit _
  · exact (hg.expr ctx e).emit _

theorem genLoopExit_grew (hg : Grew B₀ B) {state : Nat} {target : LoopContext → Nat} {ctx : Ctx}
    (h : genLoopExit state target ctx B = some B') : Grew B₀ B' := by
  unfold genLoopExit at h
  split at h
  · cases h
    exact (hg.emit _).emit _
  · obtain ⟨l, -, rfl⟩ := Option.map_eq_some_iff.mp h
    exact hg.emit _

theorem genRaise_grew (hg : Grew B₀ B) (ctx : Ctx) (e : Expr) (c : Call) : Grew B₀ (genRaise ctx e c B) := by
  have h₁ := ((hg.expr ctx e).runtimeCall ctx (.raise c)).emit .unreachable
  unfold genRaise
  refine (h₁.createBlocks 1).setInsertPoint h₁.next_le ?_
  simp

theorem genIf_grew {ctx : Ctx} {test : Expr} {genThen genElse : Builder → Option Builder} {hasElse : Bool}
    (ht : Grows genThen) (he : Grows genElse) (hg : Grew B₀ B)
    (h : genIf ctx test genThen hasElse genElse B = some B') : Grew B₀ B' := by
  simp only [genIf, Option.bind_eq_bind, Option.bind_eq_some_iff] at h
  obtain ⟨B₁, h₁, B₂, h₂, h⟩ := h
  cases h
  have g := hg.expr ctx test
  have hn := g.next_le
  obtain ⟨g₁, hn₁⟩ := genBlock_grew ht ((g.createBlocks 3).emit _) hn (by simp) h₁
  simp only [emit_next, createBlocks_next] at hn₁
  obtain ⟨g₂, hn₂⟩ := genOrelse_grew he g₁ (by omega) (by omega) h₂
  exact g₂.setInsertPoint (by omega) (by omega)

theorem runtimeCall_next (ctx : Ctx) (f : Rt) (B : Builder) : B.next ≤ (emitRuntimeCall ctx f B).next := by
  unfold emitRuntimeCall
  split <;> simp

theorem genCalls_next (ctx : Ctx) : ∀ (cs : List Call) (B : Builder), B.next ≤ (genCalls ctx cs B).next
  | [], _ => Nat.le_refl _
  | _ :: cs, B => Nat.le_trans (runtimeCall_next ctx _ B) (genCalls_next ctx cs _)

theorem genExpr_next (ctx : Ctx) (e : Expr) (B : Builder) : B.next ≤ (genExpr ctx e B).next :=
  genCalls_next ctx e.calls (B.emit _)

theorem genLandingPad_next (ctx : Ctx) (slot : Nat) (B : Builder) : B.next ≤ (genLandingPad ctx slot B).next :=
  runtimeCall_next ctx _ (B.emit _)

theorem genLoop_grew {ctx : Ctx} {test : Expr} {target : List Call} {genBody : Ctx → Builder → Option Builder}
    {genElse : Builder → Option Builder} {hasElse : Bool} (hb : ∀ ctx, Grows (genBody ctx)) (he : Grows genElse)
    (hg : Grew B₀ B) (h : genLoop ctx test target genBody hasElse genElse B = some B') : Grew B₀ B' := by
  simp only [genLoop, Option.bind_eq_bind, Option.bind_eq_some_iff] at h
  obtain ⟨B₁, h₁, B₂, h₂, h⟩ := h
  cases h
  have hn := hg.next_le
  have g₀ := ((hg.createBlocks 4).emit (.br B.next)).setInsertPoint hn (by simp)
  have hn₀ := genExpr_next ctx test (((B.createBlocks 4).emit (.br B.next)).setInsertPoint B.next)
  simp only [setInsertPoint_next, emit_next, createBlocks_next] at hn₀
  have hbody : ∀ inner, Grows fun B => genBody inner (genExpr inner ⟨target, 0⟩ B) :=
    fun inner B B' hwf h => (hb inner).step ((Grew.refl hwf).expr inner _) h
  obtain ⟨g₁, hn₁⟩ := genBlock_grew (hbody _) ((g₀.expr ctx test).emit _) (by omega) (by simp only [emit_next]; omega) h₁
  simp only [emit_next] at hn₁
  obtain ⟨g₂, hn₂⟩ := genOrelse_grew he g₁ (by omega) (by omega) h₂
  exact g₂.setInsertPoint (by omega) (by omega)

theorem emitFinallyDispatch_grew (hg : Grew B₀ B) (ctx : Ctx) (slot mergeBb reraiseBb : Nat) :
    Grew B₀ (emitFinallyDispatch ctx slot mergeBb reraiseBb B) := by
  have hn := hg.next_le
  have g := ((((hg.createBlocks 3).emit (.switch slot mergeBb (dispatchCases ctx mergeBb reraiseBb B.next))).setInsertPoint
    hn (by simp)).emit (.loadRet slot)).emit .ret
  unfold emitFinallyDispatch
  cases ctx.currentLoop with
  | none => exact g
  | some l =>
    have g₁ := (g.setInsertPoint (b := B.next + 1) (by omega) (by simp)).emit (.br l.breakBb)
    exact (g₁.setInsertPoint (b := B.next + 2) (by omega) (by simp)).emit _

theorem emitFinallyDispatch_next (ctx : Ctx) (slot mergeBb reraiseBb : Nat) (B : Builder) :
    (emitFinallyDispatch ctx slot mergeBb reraiseBb B).next = B.next + 3 := by
  unfold emitFinallyDispatch
  simp only
  split <;> rfl

theorem genLandingPad_grew (hg : Grew B₀ B) (ctx : Ctx) (slot : Nat) : Grew B₀ (genLandingPad ctx slot B) :=
  ((hg.emit _).runtimeCall ctx _).emit _

theorem genNoMatch_grew (hg : Grew B₀ B) (ctx : Ctx) (finally? : Option Nat) (slot : Nat) :
    Grew B₀ (genNoMatch ctx finally? slot B) := by
  unfold genNoMatch
  simp only
  split
  · exact (hg.runtimeCall ctx _).emit _
  · exact (hg.runtimeCall ctx _).emit _

theorem genHandlerBody_grew {ctx : Ctx} {slot after : Nat} {bind : List Call} {gen : Builder → Option Builder}
    (hgen : Grows gen) (hg : Grew B₀ B) {bb : Nat} (hle : B₀.next ≤ bb) (hlt : bb < B.next)
    (h : genHandlerBody ctx slot after bind gen bb B = some B') : Grew B₀ B' ∧ B.next ≤ B'.next := by
  unfold genHandlerBody at h
  obtain ⟨B₁, h₁, rfl⟩ := Option.map_eq_some_iff.mp h
  have hat := (hg.setInsertPoint hle hlt).expr ctx ⟨bind, 0⟩
  have hn := genExpr_next ctx ⟨bind, 0⟩ (B.setInsertPoint bb)
  have hn₁ := (hgen _ _ hat.wf h₁).next_le
  split
  · exact ⟨hgen.step hat h₁, Nat.le_trans hn hn₁⟩
  · exact ⟨(((hgen.step hat h₁).runtimeCall ctx _).emit _).emit _,
      Nat.le_trans (Nat.le_trans hn hn₁) (runtimeCall_next ctx _ B₁)⟩

theorem genHandlerBody_reserved {ctx : Ctx} {slot after : Nat} {bind : List Call} {gen : Builder → Option Builder}
    (hgen : Grows gen) {R : List Nat} (hR : Reserved R B) (hwf : B.WF) {bb : Nat} (hlt : bb < B.next) (hbb : bb ∉ R)
    (h : genHandlerBody ctx slot after bind gen bb B = some B') : Reserved R B' := by
  unfold genHandlerBody at h
  obtain ⟨B₁, h₁, rfl⟩ := Option.map_eq_some_iff.mp h
  have hR₁ := hR.enter bb (Q := R) fun _ hc => ⟨hc, fun heq => hbb (heq ▸ hc)⟩
  have hg₁ := hgen.step ((Grew.refl (hwf.enter hlt)).expr ctx ⟨bind, 0⟩) h₁
  split
  · exact hR₁.grew hg₁
  · exact hR₁.grew (((hg₁.runtimeCall ctx .catchEnd).emit _).emit _)

theorem genFinally_grew {ctx : Ctx} {present : Bool} {slot : Nat} {gen : Builder → Option Builder} (hgen : Grows gen)
    (hg : Grew B₀ B) {finallyBb mergeBb reraiseBb : Nat} (hle : B₀.next ≤ finallyBb) (hlt : finallyBb < B.next)
    (h : genFinally ctx present slot gen finallyBb mergeBb reraiseBb B = some B') :
    Grew B₀ B' ∧ B.next ≤ B'.next := by
  unfold genFinally at h
  split at h
  · obtain ⟨B₁, h₁, rfl⟩ := Option.map_eq_some_iff.mp h
    obtain ⟨g₁, hn₁⟩ := hgen.at hg hle hlt h₁
    split
    · exact ⟨g₁, hn₁⟩
    · refine ⟨emitFinallyDispatch_grew g₁ .., ?_⟩
      rw [emitFinallyDispatch_next]
      omega
  · cases h
    exact ⟨hg, Nat.le_refl _⟩

theorem genFinally_reserved {ctx : Ctx} {present : Bool} {slot : Nat} {gen : Builder → Option Builder}
    (hgen : Grows gen) {R : List Nat} (hR : Reserved R B) (hwf : B.WF) {finallyBb mergeBb reraiseBb : Nat}
    (hlt : finallyBb < B.next) (hbb : finallyBb ∉ R)
    (h : genFinally ctx present slot gen finallyBb mergeBb reraiseBb B = some B') : Reserved R B' := by
  unfold genFinally at h
  split at h
  · obtain ⟨B₁, h₁, rfl⟩ := Option.map_eq_some_iff.mp h
    have hR₁ := Reserved.at hgen hR hwf hlt hbb h₁
    split
    · exact hR₁
    · exact hR₁.grew (emitFinallyDispatch_grew (.refl (hgen _ _ (hwf.enter hlt) h₁).wf) ..)
  · cases h
    exact hR

theorem genTryBody_grew {ctx : Ctx} {T : TryContext} {landingpadBb after : Nat}
    {gen : Ctx → Builder → Option Builder} (hgen : ∀ ctx, Grows (gen ctx)) (hwf : B.WF)
    (h : genTryBody ctx T landingpadBb gen after B = some B') : Grew B B' := by
  unfold genTryBody at h
  obtain ⟨B₁, h₁, rfl⟩ := Option.map_eq_some_iff.mp h
  have g₁ := hgen _ _ _ hwf h₁
  split
  · exact g₁
  · exact (g₁.emit _).emit _

theorem genTry_grew {ctx : Ctx} {genBody : Ctx → Builder → Option Builder} {hasHandlers hasElse hasFinally : Bool}
    {genHandlers : Nat → Option Nat → Nat → Builder → Option Builder} {genElse genFinal : Builder → Option Builder}
    (hb : ∀ ctx, Grows (genBody ctx)) (hh : ∀ slot f after, Grows (genHandlers slot f after)) (he : Grows genElse)
    (hf : Grows genFinal) (hg : Grew B₀ B)
    (h : genTry ctx genBody hasHandlers genHandlers hasElse genElse hasFinally genFinal B = some B') : Grew B₀ B' := by
  simp only [genTry, Option.bind_eq_bind, Option.bind_eq_some_iff] at h
  obtain ⟨B₁, h₁, B₂, h₂, B₃, h₃, B₄, h₄, h⟩ := h
  cases h
  have hn := hg.next_le
  have g₀ := ((((hg.createBlocks 7).createSlot).emit (.storeState B.slots 0)).emit (.br B.next)).setInsertPoint hn
    (by simp)
  have hgrow := genTryBody_grew hb g₀.wf h₁
  have hn₁ := hgrow.next_le
  simp only [setInsertPoint_next, emit_next, createSlot_next, createBlocks_next] at hn₁
  have g₁ := genLandingPad_grew ((g₀.trans hgrow).setInsertPoint (b := B.next + 1) (by omega) (by omega)) ctx B.slots
  have hnp := genLandingPad_next ctx B.slots (B₁.setInsertPoint (B.next + 1))
  simp only [setInsertPoint_next] at hnp
  have g₂ : Grew B₀ B₂ ∧ B₁.next ≤ B₂.next := by
    cases hasHandlers with
    | false => exact ⟨(hh _ _ _).step g₁ h₂, Nat.le_trans hnp ((hh _ _ _) _ _ g₁.wf h₂).next_le⟩
    | true =>
      obtain ⟨g, hn⟩ := (hh _ _ _).at (g₁.emit _) (by omega) (by simp only [emit_next]; omega) h₂
      exact ⟨g, Nat.le_trans hnp hn⟩
  obtain ⟨g₂, hn₂⟩ := g₂
  obtain ⟨g₃, hn₃⟩ := genOrelse_grew he g₂ (by omega) (by omega) h₃
  obtain ⟨g₄, hn₄⟩ := genFinally_grew hf g₃ (by omega) (by omega) h₄
  have g₅ := (g₄.setInsertPoint (b := B.next + 5) (by omega) (by omega)).emit (.resume B.slots)
  exact g₅.setInsertPoint (by omega) (by simp only [emit_next, setInsertPoint_next]; omega)

theorem genWithLandingPad_grew (hg : Grew B₀ B) (ctx : Ctx) (slot mergeBb : Nat) (onExc : Expr) :
    Grew B₀ (genWithLandingPad ctx slot mergeBb onExc B) ∧
      B.next ≤ (genWithLandingPad ctx slot mergeBb onExc B).next := by
  have g := (genLandingPad_grew hg ctx slot).expr ctx onExc
  have hn := Nat.le_trans (genLandingPad_next ctx slot B) (genExpr_next ctx onExc (genLandingPad ctx slot B))
  unfold genWithLandingPad
  simp only
  generalize genExpr ctx onExc (genLandingPad ctx slot B) = B₁ at g hn
  have hle := g.next_le
  have g₁ := ((g.createBlocks 2).emit (.condBr (B₁.next + 1) B₁.next)).setInsertPoint (b := B₁.next + 1) (by omega)
    (by simp)
  have g₂ := (g₁.runtimeCall ctx .catchEnd).emit (.br mergeBb)
  have hn₂ := runtimeCall_next ctx .catchEnd
    (((B₁.createBlocks 2).emit (.condBr (B₁.next + 1) B₁.next)).setInsertPoint (B₁.next + 1))
  simp only [setInsertPoint_next, emit_next, createBlocks_next] at hn₂
  have g₃ := g₂.setInsertPoint hle (by simp only [emit_next]; omega)
  refine ⟨(g₃.runtimeCall ctx .catchEnd).emit _, Nat.le_trans ?_ (runtimeCall_next ctx .catchEnd _)⟩
  simp only [setInsertPoint_next, emit_next]
  omega

theorem genWithNormalExit_grew (hg : Grew B₀ B) (ctx : Ctx) (slot mergeBb : Nat) (onExit : Expr) :
    Grew B₀ (genWithNormalExit ctx slot mergeBb onExit B) ∧
      B.next ≤ (genWithNormalExit ctx slot mergeBb onExit B).next := by
  have hle := hg.next_le
  unfold genWithNormalExit
  simp only
  have g₁ := ((hg.createBlocks 2).emit (.condState slot (B.next + 1) B.next)).setInsertPoint hle (by simp)
  have hn₁ := genExpr_next ctx onExit
    (((B.createBlocks 2).emit (.condState slot (B.next + 1) B.next)).setInsertPoint B.next)
  simp only [setInsertPoint_next, emit_next, createBlocks_next] at hn₁
  have g₂ := ((g₁.expr ctx onExit).emit (.br (B.next + 1))).setInsertPoint (b := B.next + 1) (by omega)
    (by simp only [emit_next]; omega)
  exact ⟨g₂.emit _, by simp only [setInsertPoint_next, emit_next]; omega⟩

theorem genWith_grew {ctx : Ctx} {enter onExc onExit : Expr} {genBody : Ctx → Builder → Option Builder}
    (hb : ∀ ctx, Grows (genBody ctx)) (hg : Grew B₀ B) (h : genWith ctx enter genBody onExc onExit B = some B') :
    Grew B₀ B' := by
  simp only [genWith, Option.bind_eq_bind, Option.bind_eq_some_iff] at h
  obtain ⟨B₁, h₁, h⟩ := h
  cases h
  have g := hg.expr ctx enter
  have hn := g.next_le
  obtain ⟨g₁, hn₁⟩ := genBlock_grew (hb _) ((((g.createBlocks 4).createSlot).emit _).emit _) hn (by simp) h₁
  simp only [emit_next, createSlot_next, createBlocks_next] at hn₁
  obtain ⟨g₂, hn₂⟩ := genWithLandingPad_grew (g₁.setInsertPoint (b := (genExpr ctx enter B).next + 1) (by omega)
    (by omega)) ctx (genExpr ctx enter B).slots ((genExpr ctx enter B).next + 3) onExc
  simp only [setInsertPoint_next] at hn₂
  obtain ⟨g₃, hn₃⟩ := genWithNormalExit_grew (g₂.setInsertPoint (b := (genExpr ctx enter B).next + 2) (by omega)
    (by omega)) ctx (genExpr ctx enter B).slots ((genExpr ctx enter B).next + 3) onExit
  simp only [setInsertPoint_next] at hn₃
  exact g₃.setInsertPoint (by omega) (by omega)

end

section
variable {gen : Ctx → Builder → Option Builder} {ctx : Ctx} {B B' : Builder}

theorem Builder.WF.enterNew (hwf : B.WF) : ((B.createBlocks 1).setInsertPoint B.next).WF :=
  ((Grew.refl hwf).createBlocks 1).wf.enter (by simp)

theorem compileFunctionBody_grew (hgen : ∀ ctx, Grows (gen ctx)) (hwf : B.WF)
    (h : compileFunctionBody ctx gen B = some B') : Grew ((B.createBlocks 1).setInsertPoint B.next) B' := by
  obtain ⟨B₁, h₁, rfl⟩ := Option.map_eq_some_iff.mp h
  have hg := hgen _ _ _ hwf.enterNew h₁
  split
  · exact hg
  · exact (hg.runtimeCall ctx .none).emit .ret

/-- The block of the definition is as it was when the insertion point comes back to it. -/
theorem compileFunctionBody_back (hgen : ∀ ctx, Grows (gen ctx)) (hwf : B.WF)
    (h : compileFunctionBody ctx gen B = some B') : Grew B (B'.setInsertPoint B.cur) ∧ B'.code B.cur = B.code B.cur := by
  have hg := compileFunctionBody_grew hgen hwf h
  have hcur := hwf.cur_lt
  have hnext : B.next + 1 ≤ B'.next := hg.next_le
  refine ⟨⟨hg.wf.enter (by omega), by rw [setInsertPoint_next]; omega, hg.slots_le, hg.code_prefix, ?_⟩, ?_⟩
  · intro b hb hne
    refine ⟨hne, (hg.away b ?_ ?_).2⟩
    · show b < B.next + 1
      omega
    · show b ≠ B.next
      omega
  · refine (hg.away B.cur ?_ ?_).2
    · show B.cur < B.next + 1
      omega
    · show B.cur ≠ B.next
      omega

theorem genDef_grew {B₀ : Builder} {defaults make : Expr} (hgen : ∀ ctx, Grows (gen ctx)) (hg : Grew B₀ B)
    (h : genDef ctx defaults gen make B = some B') : Grew B₀ B' := by
  obtain ⟨B₁, h₁, rfl⟩ := Option.map_eq_some_iff.mp h
  have hgd := hg.expr ctx defaults
  exact (hgd.trans (compileFunctionBody_back hgen hgd.wf h₁).1).expr ctx make

end

mutual

theorem Stmt.gen_grows (ctx : Ctx) : ∀ s : Stmt, Grows (s.gen ctx) := by
  intro s B B' hwf h
  have hg := Grew.refl hwf
  cases s with
  | expr e =>
    cases h
    exact hg.expr ctx e
  | ret e =>
    cases h
    exact genReturn_grew hg ctx e
  | raise e c =>
    cases h
    exact genRaise_grew hg ctx e c
  | brk => exact genLoopExit_grew hg h
  | cont => exact genLoopExit_grew hg h
  | ifS test body orelse => exact genIf_grew (body.gen_grows ctx) (orelse.gen_grows ctx) hg h
  | whileS test body orelse => exact genLoop_grew (fun c => body.gen_grows c) (orelse.gen_grows ctx) hg h
  | forS iter next target body orelse =>
    exact genLoop_grew (fun c => body.gen_grows c) (orelse.gen_grows ctx) (hg.expr ctx iter) h
  | tryS body handlers orelse final =>
    exact genTry_grew (fun c => body.gen_grows c) (fun slot f after => handlers.gen_grows ctx slot f after)
      (orelse.gen_grows ctx) (final.gen_grows ctx) hg h
  | withS enter body onExc onExit => exact genWith_grew (fun c => body.gen_grows c) hg h
  | defS defaults body make => exact genDef_grew (fun c => body.gen_grows c) hg h

theorem Body.gen_grows (ctx : Ctx) : ∀ b : Body, Grows (b.gen ctx) := by
  intro b B B' hwf h
  cases b with
  | nil =>
    cases h
    exact .refl hwf
  | cons s rest =>
    simp only [Body.gen] at h
    split at h
    · cases h
      exact .refl hwf
    · obtain ⟨B₁, h₁, h₂⟩ := Option.bind_eq_some_iff.mp h
      exact (rest.gen_grows ctx).step (s.gen_grows ctx _ _ hwf h₁) h₂

theorem Handlers.gen_grows (ctx : Ctx) (slot : Nat) (finally? : Option Nat) (after : Nat) :
    ∀ hs : Handlers, Grows (hs.gen ctx slot finally? after) := by
  intro hs B B' hwf h
  have hg := Grew.refl hwf
  cases hs with
  | nil =>
    cases h
    exact genNoMatch_grew hg ctx finally? slot
  | bare body =>
    exact (genHandlerBody_grew (body.gen_grows ctx) ((hg.createBlocks 1).emit _) (Nat.le_refl _) (by simp) h).1
  | typed type bind body rest =>
    obtain ⟨B₁, h₁, h₂⟩ := Option.bind_eq_some_iff.mp h
    have hn := genExpr_next ctx type (B.createBlocks 2)
    simp only [createBlocks_next] at hn
    obtain ⟨g₁, hn₁⟩ := genHandlerBody_grew (body.gen_grows ctx) (((hg.createBlocks 2).expr ctx type).emit _)
      (Nat.le_refl _) (by simp only [emit_next]; omega) h₁
    simp only [emit_next] at hn₁
    exact ((rest.gen_grows ctx slot finally? after).at g₁ (by omega) (by omega) h₂).1

end

end Pylang.Aot
