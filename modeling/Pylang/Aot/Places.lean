/-
Where the `break` and `continue` statements of a function lie, as the list of
the loop bodies and `try` parts around them, and the contexts the generator has
when it gets to them.
-/
import Pylang.Aot.Parts

namespace Pylang.Aot

open Builder

inductive LoopExit where
  | brk | cont
deriving DecidableEq

namespace LoopExit

/-- The state word that stands for the exit. -/
def state : LoopExit → Nat
  | brk => 3
  | cont => 4

def target : LoopExit → LoopContext → Nat
  | brk => LoopContext.breakBb
  | cont => LoopContext.continueBb

end LoopExit

/-- What lies around a statement. `tryBody` and `tryPart` are the body and the handlers and `else` of a `try` with
`finally`; `falls` says that its `finally` body can be left at the end. Everything else is `other`. -/
inductive Part where
  | other
  | loopBody
  | tryBody (falls : Bool)
  | tryPart
deriving DecidableEq

/-- The block is terminated behind these. -/
def Stmt.isJump : Stmt → Bool
  | .ret _ | .brk | .cont => true
  | _ => false

/-- No jump ends the list early. -/
def Body.falls : Body → Bool
  | .nil => true
  | .cons s rest => !s.isJump && rest.falls

mutual

/-- Where the generated exits of the kind `e` lie, outermost part first. -/
def Stmt.places (e : LoopExit) : Stmt → List (List Part)
  | .expr _ | .ret _ | .raise _ _ => []
  | .brk => if e = .brk then [[]] else []
  | .cont => if e = .cont then [[]] else []
  | .ifS _ body orelse => (body.places e ++ orelse.places e).map (.other :: ·)
  | .whileS _ body orelse | .forS _ _ _ body orelse =>
    (body.places e).map (.loopBody :: ·) ++ (orelse.places e).map (.other :: ·)
  | .tryS body handlers orelse final =>
    if final.isEmpty then (body.places e ++ handlers.places e ++ orelse.places e).map (.other :: ·)
    else (body.places e).map (.tryBody final.falls :: ·) ++
      (handlers.places e ++ orelse.places e).map (.tryPart :: ·) ++ (final.places e).map (.other :: ·)
  | .withS _ body _ _ => (body.places e).map (.other :: ·)
  | .defS _ _ _ => []

def Body.places (e : LoopExit) : Body → List (List Part)
  | .nil => []
  | .cons s rest => s.places e ++ if s.isJump then [] else rest.places e

def Handlers.places (e : LoopExit) : Handlers → List (List Part)
  | .nil => []
  | .bare body => body.places e
  | .typed _ _ body rest => body.places e ++ rest.places e

end

/-! ## Which statements terminate their block -/

theorem genReturn_terminated (ctx : Ctx) (e : Expr) (B : Builder) : (genReturn ctx e B).terminated = true := by
  unfold genReturn
  simp only
  split <;> simp [Instr.isTerminator]

theorem genLoopExit_terminated {state : Nat} {target : LoopContext → Nat} {ctx : Ctx} {B B' : Builder}
    (h : genLoopExit state target ctx B = some B') : B'.terminated = true := by
  unfold genLoopExit at h
  split at h
  · cases h
    simp [Instr.isTerminator]
  · obtain ⟨l, -, rfl⟩ := Option.map_eq_some_iff.mp h
    simp [Instr.isTerminator]

theorem Stmt.gen_terminated {ctx : Ctx} {s : Stmt} {B B' : Builder} (hwf : B.WF) (h : s.gen ctx B = some B') :
    B'.terminated = s.isJump := by
  have hP : Placed B' B'.code := fun _ => List.prefix_refl _
  cases s with
  | expr e =>
    cases h
    exact genExpr_open hwf ctx e
  | ret e =>
    cases h
    exact genReturn_terminated ctx e B
  | raise e c =>
    cases h
    have hg := ((Grew.refl hwf).expr ctx e).runtimeCall ctx (.raise c) |>.emit .unreachable
    exact open_of_empty (hg.wf.fresh _ (Nat.le_refl _))
  | brk => exact genLoopExit_terminated h
  | cont => exact genLoopExit_terminated h
  | ifS test body orelse =>
    obtain ⟨_, _, _, _, L, rfl⟩ := genIf_layout (body.gen_grows ctx) (orelse.gen_grows ctx) hwf h hP
    exact open_of_empty L.merge_at.empty
  | whileS test body orelse =>
    obtain ⟨_, _, _, _, _, L, rfl⟩ := genLoop_layout (fun c => body.gen_grows c) (orelse.gen_grows ctx) hwf h hP
    exact open_of_empty L.merge_at.empty
  | forS iter next target body orelse =>
    obtain ⟨_, _, _, _, _, L, rfl⟩ := genLoop_layout (fun c => body.gen_grows c) (orelse.gen_grows ctx)
      ((Grew.refl hwf).expr ctx iter).wf h hP
    exact open_of_empty L.merge_at.empty
  | tryS body handlers orelse final =>
    obtain ⟨_, _, _, _, _, _, _, _, _, _, L, rfl⟩ := genTry_layout (fun c => body.gen_grows c)
      (fun slot f after => handlers.gen_grows ctx slot f after) (orelse.gen_grows ctx) (final.gen_grows ctx) hwf h hP
    exact open_of_empty L.merge_at.empty
  | withS enter body onExc onExit =>
    obtain ⟨_, _, _, _, _, _, L, rfl⟩ := genWith_layout (fun c => body.gen_grows c) hwf h hP
    exact open_of_empty L.merge_at.empty
  | defS defaults body make =>
    obtain ⟨B₁, h₁, rfl⟩ := Option.map_eq_some_iff.mp h
    have hgd := (Grew.refl hwf).expr ctx defaults
    exact genExpr_open (compileFunctionBody_back (fun c => body.gen_grows c) hgd.wf h₁).1.wf ctx make

theorem Body.gen_terminated {ctx : Ctx} : ∀ (b : Body) {B B' : Builder}, B.WF → B.terminated = false →
    b.gen ctx B = some B' → B'.terminated = !b.falls
  | .nil, _, _, _, hopen, h => by
    cases h
    exact hopen
  | .cons s rest, B, B', hwf, hopen, h => by
    simp only [Body.gen, hopen] at h
    obtain ⟨B₁, h₁, h₂⟩ := Option.bind_eq_some_iff.mp h
    have hjump := s.gen_terminated hwf h₁
    have hwf₁ := (s.gen_grows ctx _ _ hwf h₁).wf
    cases hs : s.isJump with
    | false =>
      rw [hs] at hjump
      simp [Body.falls, hs, rest.gen_terminated hwf₁ hjump h₂]
    | true =>
      rw [hs] at hjump
      have hB : B' = B₁ := by
        cases rest with
        | nil =>
          cases h₂
          rfl
        | cons s' rest =>
          simp only [Body.gen, hjump, if_true] at h₂
          cases h₂
          rfl
      simp [Body.falls, hs, hB, hjump]

/-! ## Sites -/

/-- A block and an index in it. -/
abbrev Point := Nat × Nat

def Builder.point (B : Builder) : Point := (B.cur, (B.code B.cur).length)

/-- A part with the blocks the generator made for it: `finallyBb` and `slot` of the `try`, and where its `finally` body
ends, if it can be left there. -/
inductive Site where
  | other
  | loopBody (l : LoopContext)
  | tryBody (finallyBb slot : Nat) (finallyEnd : Option Point)
  | tryPart (finallyBb : Nat)
deriving DecidableEq

def Site.part : Site → Part
  | .other => .other
  | .loopBody _ => .loopBody
  | .tryBody _ _ finallyEnd => .tryBody finallyEnd.isSome
  | .tryPart _ => .tryPart

/-- The contexts agree in what exits consult. -/
def Ctx.Agrees (ctx ctx' : Ctx) : Prop :=
  ctx'.nearestFinallyTry = ctx.nearestFinallyTry ∧ ctx'.currentLoop = ctx.currentLoop

/-- The generator goes from the context `ctx` into `ctx'` through the sites; their blocks are new from `n` on, and the
program has the dispatch of each `try` at the end of its `finally` body. -/
def Sited (P : Nat → List Instr) : Nat → Ctx → List Site → Ctx → Prop
  | _, ctx, [], ctx' => ctx' = ctx
  | n, ctx, .other :: ss, ctx' => ∃ ctx₁, ctx.Agrees ctx₁ ∧ Sited P n ctx₁ ss ctx'
  | n, ctx, .loopBody l :: ss, ctx' => Sited P n (ctx.pushLoop l) ss ctx'
  | n, ctx, .tryBody f k finallyEnd :: ss, ctx' =>
    n ≤ f ∧ (∀ p, finallyEnd = some p → ∃ B mergeBb reraiseBb, p = B.point ∧ B.WF ∧
      Placed (emitFinallyDispatch ctx k mergeBb reraiseBb B) P) ∧
    ∃ landingpadBb, Sited P (f + 1) (ctx.pushTry ⟨some f, k⟩ landingpadBb) ss ctx'
  | n, ctx, .tryPart f :: ss, ctx' => n ≤ f ∧ ∃ ctx₁, ctx.Agrees ctx₁ ∧ Sited P (f + 1) ctx₁ ss ctx'

theorem Ctx.Agrees.refl (ctx : Ctx) : ctx.Agrees ctx := ⟨rfl, rfl⟩

theorem Sited.mono {P : Nat → List Instr} {n m : Nat} {ctx ctx' : Ctx} {ss : List Site} (h : Sited P m ctx ss ctx')
    (hle : n ≤ m) : Sited P n ctx ss ctx' := by
  induction ss generalizing ctx with
  | nil => exact h
  | cons s ss ih =>
    cases s with
    | other =>
      obtain ⟨ctx₁, hagrees, h⟩ := h
      exact ⟨ctx₁, hagrees, ih h⟩
    | loopBody l =>
      have h : Sited P m (ctx.pushLoop l) ss ctx' := h
      exact ih h
    | tryBody f k finallyEnd => exact ⟨Nat.le_trans hle h.1, h.2⟩
    | tryPart f => exact ⟨Nat.le_trans hle h.1, h.2⟩

/-- The code of an exit at `path`, made from the context `ctx` and builders from `n` on. -/
def ExitAt (e : LoopExit) (P : Nat → List Instr) (n : Nat) (ctx : Ctx) (path : List Part) : Prop :=
  ∃ sites ctx' B B', sites.map Site.part = path ∧ Sited P n ctx sites ctx' ∧ B.WF ∧
    genLoopExit e.state e.target ctx' B = some B' ∧ Placed B' P

section
variable {e : LoopExit} {P : Nat → List Instr} {n m : Nat} {ctx ctx₁ : Ctx} {path : List Part}

theorem ExitAt.other (h : ExitAt e P m ctx₁ path) (hctx : ctx.Agrees ctx₁) (hle : n ≤ m) :
    ExitAt e P n ctx (.other :: path) := by
  obtain ⟨sites, ctx', B, B', rfl, hs, hB⟩ := h
  exact ⟨.other :: sites, ctx', B, B', rfl, ⟨ctx₁, hctx, hs.mono hle⟩, hB⟩

theorem ExitAt.loopBody {l : LoopContext} (h : ExitAt e P m (ctx.pushLoop l) path) (hle : n ≤ m) :
    ExitAt e P n ctx (.loopBody :: path) := by
  obtain ⟨sites, ctx', B, B', rfl, hs, hB⟩ := h
  exact ⟨.loopBody l :: sites, ctx', B, B', rfl, hs.mono hle, hB⟩

theorem ExitAt.tryPart {f : Nat} (h : ExitAt e P m ctx path) (hf : n ≤ f) (hle : f < m) :
    ExitAt e P n ctx (.tryPart :: path) := by
  obtain ⟨sites, ctx', B, B', rfl, hs, hB⟩ := h
  exact ⟨.tryPart f :: sites, ctx', B, B', rfl, ⟨hf, ctx, .refl ctx, hs.mono hle⟩, hB⟩

theorem ExitAt.tryBody {f k landingpadBb : Nat} {q : Option Point}
    (h : ExitAt e P m (ctx.pushTry ⟨some f, k⟩ landingpadBb) path) (hf : n ≤ f) (hle : f < m)
    (hend : ∀ p, q = some p → ∃ B mergeBb reraiseBb, p = B.point ∧ B.WF ∧
      Placed (emitFinallyDispatch ctx k mergeBb reraiseBb B) P) :
    ExitAt e P n ctx (.tryBody q.isSome :: path) := by
  obtain ⟨sites, ctx', B, B', rfl, hs, hB⟩ := h
  exact ⟨.tryBody f k q :: sites, ctx', B, B', rfl, ⟨hf, hend, landingpadBb, hs.mono hle⟩, hB⟩

theorem ExitAt.mono (h : ExitAt e P m ctx path) (hle : n ≤ m) : ExitAt e P n ctx path := by
  obtain ⟨sites, ctx', B, B', hpath, hs, hB⟩ := h
  exact ⟨sites, ctx', B, B', hpath, hs.mono hle, hB⟩

/-- The exits of a part are there wherever it is generated. -/
def HasExits (e : LoopExit) (P : Nat → List Instr) (gen : Ctx → Builder → Option Builder) (places : List (List Part)) :
    Prop :=
  ∀ ⦃ctx : Ctx⦄ ⦃B B' : Builder⦄ ⦃path : List Part⦄, gen ctx B = some B' → B.WF → B.terminated = false →
    Placed B' P → path ∈ places → ExitAt e P B.next ctx path

theorem HasExits.block {gen : Ctx → Builder → Option Builder} {places : List (List Part)} (hs : HasExits e P gen places)
    {B₀ B B' : Builder} {bb after : Nat} (hat : EntersBlock B₀ B bb) (h : genBlock (gen ctx) bb after B = some B')
    (hgen : Grows (gen ctx)) (hP : Placed B' P) (hmem : path ∈ places) : ExitAt e P B.next ctx path := by
  obtain ⟨B₁, h₁, rfl⟩ := Option.map_eq_some_iff.mp h
  have hP₁ := ((Grew.refl (hgen _ _ hat.wf h₁).wf).brIfOpen after).placed hP
  have hexit := hs h₁ hat.wf (open_of_empty hat.empty) hP₁ hmem
  exact hexit

theorem HasExits.orelse {gen : Ctx → Builder → Option Builder} {places : List (List Part)}
    (hs : HasExits e P gen places) {present : Bool} (habsent : present = false → places = []) {B₀ B B' : Builder}
    {bb after : Nat} (hat : EntersBlock B₀ B bb) (h : genOrelse present (gen ctx) bb after B = some B')
    (hgen : Grows (gen ctx)) (hP : Placed B' P) (hmem : path ∈ places) : ExitAt e P B.next ctx path := by
  cases present with
  | true => exact hs.block hat h hgen hP hmem
  | false =>
    rw [habsent rfl] at hmem
    cases hmem

theorem HasExits.afterExpr {gen : Ctx → Builder → Option Builder} {places : List (List Part)}
    (hs : HasExits e P gen places) (ex : Expr) :
    HasExits e P (fun ctx B => gen ctx (genExpr ctx ex B)) places := by
  intro ctx B B' path h hwf _ hP hmem
  have hexit := hs h ((Grew.refl hwf).expr ctx ex).wf (genExpr_open hwf ctx ex) hP hmem
  exact hexit.mono (genExpr_next ctx ex B)

theorem HasExits.handlerBody {gen : Ctx → Builder → Option Builder} {places : List (List Part)}
    (hs : HasExits e P gen places) {B₀ B B' : Builder} {slot after bb : Nat} {bind : List Call}
    (hat : EntersBlock B₀ B bb) (h : genHandlerBody ctx slot after bind (gen ctx) bb B = some B')
    (hgen : Grows (gen ctx)) (hP : Placed B' P) (hmem : path ∈ places) : ExitAt e P B.next ctx path := by
  obtain ⟨B₁, h₁, rfl⟩ := Option.map_eq_some_iff.mp h
  have hg₁ := hgen.step ((Grew.refl hat.wf).expr ctx ⟨bind, 0⟩) h₁
  have hP₁ : Placed B₁ P := by
    split at hP
    next => exact hP
    next => exact ((((Grew.refl hg₁.wf).runtimeCall ctx .catchEnd).emit _).emit _).placed hP
  have hexit := hs.afterExpr ⟨bind, 0⟩ h₁ hat.wf (open_of_empty hat.empty) hP₁ hmem
  exact hexit

theorem Body.places_empty {b : Body} (h : (!b.isEmpty) = false) : b.places e = [] := by
  cases b with
  | nil => rfl
  | cons s rest => simp [Body.isEmpty] at h

end

section
variable {e : LoopExit} {P : Nat → List Instr}

theorem hasExits_if {test : Expr} {body orelse : Body} (hbody : HasExits e P (fun ctx => body.gen ctx) (body.places e))
    (helse : HasExits e P (fun ctx => orelse.gen ctx) (orelse.places e)) :
    HasExits e P (fun ctx => (Stmt.ifS test body orelse).gen ctx) ((Stmt.ifS test body orelse).places e) := by
  intro ctx B B' path h hwf _ hP hmem
  obtain ⟨_, _, _, _, L, rfl⟩ := genIf_layout (body.gen_grows ctx) (orelse.gen_grows ctx) hwf h hP
  obtain ⟨inner, hin, rfl⟩ := List.mem_map.mp hmem
  rcases List.mem_append.mp hin with hin | hin
  · have hexit := hbody.block L.then_at L.then_eq (body.gen_grows ctx) L.then_placed hin
    exact hexit.other (.refl ctx) L.then_at.grew.next_le
  · have hexit := helse.orelse Body.places_empty L.else_at L.else_eq (orelse.gen_grows ctx) L.else_placed hin
    exact hexit.other (.refl ctx) L.else_at.grew.next_le

theorem hasExits_loop {test : Expr} {target : List Call} {body orelse : Body}
    (hbody : HasExits e P (fun ctx => body.gen ctx) (body.places e))
    (helse : HasExits e P (fun ctx => orelse.gen ctx) (orelse.places e)) :
    HasExits e P (fun ctx B => genLoop ctx test target (fun c => body.gen c) (!orelse.isEmpty) (orelse.gen ctx) B)
      ((body.places e).map (.loopBody :: ·) ++ (orelse.places e).map (.other :: ·)) := by
  intro ctx B B' path h hwf _ hP hmem
  obtain ⟨_, _, _, _, _, L, rfl⟩ := genLoop_layout (fun c => body.gen_grows c) (orelse.gen_grows ctx) hwf h hP
  have htarget : ∀ inner, Grows ((fun c B => body.gen c (genExpr c ⟨target, 0⟩ B)) inner) :=
    fun inner _ _ hwf h => (body.gen_grows inner).step ((Grew.refl hwf).expr inner _) h
  rcases List.mem_append.mp hmem with hmem | hmem
  · obtain ⟨inner, hin, rfl⟩ := List.mem_map.mp hmem
    have hexit := (hbody.afterExpr ⟨target, 0⟩).block L.body_at L.body_eq (htarget _) L.body_placed hin
    exact hexit.loopBody L.body_at.grew.next_le
  · obtain ⟨inner, hin, rfl⟩ := List.mem_map.mp hmem
    have hexit := helse.orelse Body.places_empty L.else_at L.else_eq (orelse.gen_grows ctx) L.else_placed hin
    exact hexit.other (.refl ctx) L.else_at.grew.next_le

theorem hasExits_with {enter onExc onExit : Expr} {body : Body}
    (hbody : HasExits e P (fun ctx => body.gen ctx) (body.places e)) :
    HasExits e P (fun ctx => (Stmt.withS enter body onExc onExit).gen ctx)
      ((Stmt.withS enter body onExc onExit).places e) := by
  intro ctx B B' path h hwf _ hP hmem
  obtain ⟨_, _, _, _, _, _, L, rfl⟩ := genWith_layout (fun c => body.gen_grows c) hwf h hP
  obtain ⟨inner, hin, rfl⟩ := List.mem_map.mp hmem
  have hexit := hbody.block L.body_at L.body_eq (body.gen_grows _) L.body_placed hin
  exact hexit.other ⟨rfl, rfl⟩ L.body_at.grew.next_le

/-- The body of a `try`, in the context it is generated in. -/
theorem HasExits.tryBody {gen : Ctx → Builder → Option Builder} {places : List (List Part)}
    (hs : HasExits e P gen places) {ctx : Ctx} {T : TryContext} {landingpadBb next bb : Nat} {B₀ B B' : Builder}
    {path : List Part} (hat : EntersBlock B₀ B bb)
    (h : genTryBody ctx T landingpadBb gen next (B.setInsertPoint bb) = some B') (hgen : ∀ ctx, Grows (gen ctx))
    (hP : Placed B' P) (hmem : path ∈ places) : ExitAt e P B.next (ctx.pushTry T landingpadBb) path := by
  obtain ⟨B₁, h₁, rfl⟩ := Option.map_eq_some_iff.mp h
  have hg₁ := hgen _ _ _ hat.wf h₁
  have hP₁ : Placed B₁ P := by
    split at hP
    next => exact hP
    next => exact (((Grew.refl hg₁.wf).emit _).emit _).placed hP
  have hexit := hs h₁ hat.wf (open_of_empty hat.empty) hP₁ hmem
  exact hexit

/-- The `finally` body, and the dispatch at its end where it has one. -/
theorem finally_end {final : Body} {ctx : Ctx} {slot finallyBb mergeBb reraiseBb : Nat} {B₀ B B' : Builder}
    (hat : EntersBlock B₀ B finallyBb)
    (h : genFinally ctx true slot (final.gen ctx) finallyBb mergeBb reraiseBb B = some B') (hP : Placed B' P) :
    ∃ Bf, final.gen ctx (B.setInsertPoint finallyBb) = some Bf ∧ Placed Bf P ∧
      (final.falls = true → Bf.WF ∧ Placed (emitFinallyDispatch ctx slot mergeBb reraiseBb Bf) P) := by
  obtain ⟨Bf, hf, rfl⟩ := Option.map_eq_some_iff.mp h
  have hgf := final.gen_grows ctx _ _ hat.wf hf
  have hopen := final.gen_terminated hat.wf (open_of_empty hat.empty) hf
  refine ⟨Bf, hf, ?_, fun hfalls => ⟨hgf.wf, ?_⟩⟩
  · split at hP
    next => exact hP
    next => exact (emitFinallyDispatch_grew (.refl hgf.wf) ..).placed hP
  · rw [hfalls] at hopen
    rw [hopen] at hP
    exact hP

theorem hasExits_try {body orelse final : Body} {handlers : Handlers}
    (hbody : HasExits e P (fun ctx => body.gen ctx) (body.places e))
    (hhandlers : ∀ ctx slot f after B B' path, handlers.gen ctx slot f after B = some B' → B.WF → Placed B' P →
      path ∈ handlers.places e → ExitAt e P B.next ctx path)
    (helse : HasExits e P (fun ctx => orelse.gen ctx) (orelse.places e))
    (hfinal : HasExits e P (fun ctx => final.gen ctx) (final.places e)) :
    HasExits e P (fun ctx => (Stmt.tryS body handlers orelse final).gen ctx)
      ((Stmt.tryS body handlers orelse final).places e) := by
  intro ctx B B' path h hwf _ hP hmem
  obtain ⟨finally?, _, Bj, B₁, _, Bh, B₂, B₃, B₄, _, L, rfl⟩ := genTry_layout (fun c => body.gen_grows c)
    (fun slot f after => handlers.gen_grows ctx slot f after) (orelse.gen_grows ctx) (final.gen_grows ctx) hwf h hP
  have hfin := L.finally_eq
  have inBody : ∀ inner ∈ body.places e, ExitAt e P Bj.next (ctx.pushTry ⟨finally?, B.slots⟩ (B.next + 1)) inner :=
    fun _ => hbody.tryBody L.body_at L.body_eq (fun c => body.gen_grows c) L.body_placed
  have inHandlers : ∀ inner ∈ handlers.places e, ExitAt e P Bh.next ctx inner :=
    fun _ => hhandlers _ _ _ _ _ _ _ L.handlers_eq L.handlers_grew.wf L.handlers_placed
  have inElse : ∀ inner ∈ orelse.places e, ExitAt e P B₂.next ctx inner :=
    fun _ => helse.orelse Body.places_empty L.else_at L.else_eq (orelse.gen_grows ctx) L.else_placed
  unfold Stmt.places at hmem
  cases hempty : final.isEmpty with
  | true =>
    rw [hempty] at hfin hmem
    subst hfin
    obtain ⟨inner, hin, rfl⟩ := List.mem_map.mp hmem
    rw [List.mem_append, List.mem_append] at hin
    rcases hin with (hin | hin) | hin
    · exact (inBody _ hin).other ⟨rfl, rfl⟩ L.body_at.grew.next_le
    · exact (inHandlers _ hin).other (.refl ctx) L.handlers_grew.next_le
    · exact (inElse _ hin).other (.refl ctx) L.else_at.grew.next_le
  | false =>
    have hfinal_eq := L.final_eq
    rw [hempty] at hfin hmem hfinal_eq
    subst hfin
    obtain ⟨Bf, hf, hPf, hend⟩ := finally_end L.final_at hfinal_eq L.final_placed
    have hn₁ := L.next_body
    have hn₂ := L.next_handlers
    have hn₃ := L.next_else
    rw [if_neg (by simp), List.mem_append, List.mem_append] at hmem
    rcases hmem with (hmem | hmem) | hmem
    · obtain ⟨inner, hin, rfl⟩ := List.mem_map.mp hmem
      have hexit := (inBody _ hin).tryBody (n := B.next) (q := if final.falls then some Bf.point else none)
        (by omega) (by omega) fun p hp => by
          cases hfalls : final.falls with
          | false => simp [hfalls] at hp
          | true =>
            rw [hfalls] at hp
            cases hp
            exact ⟨Bf, B.next + 6, B.next + 5, rfl, hend hfalls⟩
      have hsome : (if final.falls then some Bf.point else none).isSome = final.falls := by
        cases final.falls <;> rfl
      rw [hsome] at hexit
      exact hexit
    · obtain ⟨inner, hin, rfl⟩ := List.mem_map.mp hmem
      rcases List.mem_append.mp hin with hin | hin
      · exact (inHandlers _ hin).tryPart (f := B.next + 4) (by omega) (by omega)
      · exact (inElse _ hin).tryPart (f := B.next + 4) (by omega) (by omega)
    · obtain ⟨inner, hin, rfl⟩ := List.mem_map.mp hmem
      have hexit := hfinal hf L.final_at.wf (open_of_empty L.final_at.empty) hPf hin
      exact hexit.other (.refl ctx) L.final_at.grew.next_le

end

mutual

theorem Stmt.hasExits (e : LoopExit) (P : Nat → List Instr) :
    ∀ s : Stmt, HasExits e P (fun ctx => s.gen ctx) (s.places e) := by
  intro s
  cases s with
  | expr ex => exact fun _ _ _ _ _ _ _ _ hmem => by cases hmem
  | ret ex => exact fun _ _ _ _ _ _ _ _ hmem => by cases hmem
  | raise ex c => exact fun _ _ _ _ _ _ _ _ hmem => by cases hmem
  | brk =>
    intro ctx B B' path h hwf _ hP hmem
    cases e with
    | brk =>
      cases List.mem_singleton.mp hmem
      exact ⟨[], ctx, B, B', rfl, rfl, hwf, h, hP⟩
    | cont => cases hmem
  | cont =>
    intro ctx B B' path h hwf _ hP hmem
    cases e with
    | brk => cases hmem
    | cont =>
      cases List.mem_singleton.mp hmem
      exact ⟨[], ctx, B, B', rfl, rfl, hwf, h, hP⟩
  | ifS test body orelse => exact hasExits_if (body.hasExits e P) (orelse.hasExits e P)
  | whileS test body orelse => exact hasExits_loop (body.hasExits e P) (orelse.hasExits e P)
  | forS iter next target body orelse =>
    exact (hasExits_loop (body.hasExits e P) (orelse.hasExits e P)).afterExpr iter
  | tryS body handlers orelse final =>
    exact hasExits_try (body.hasExits e P) (handlers.exitAt e P) (orelse.hasExits e P) (final.hasExits e P)
  | withS enter body onExc onExit => exact hasExits_with (body.hasExits e P)
  | defS defaults body make => exact fun _ _ _ _ _ _ _ _ hmem => by cases hmem

theorem Body.hasExits (e : LoopExit) (P : Nat → List Instr) :
    ∀ b : Body, HasExits e P (fun ctx => b.gen ctx) (b.places e) := by
  intro b ctx B B' path h hwf hopen hP hmem
  cases b with
  | nil => cases hmem
  | cons s rest =>
    simp only [Body.gen, hopen] at h
    obtain ⟨B₁, h₁, h₂⟩ := Option.bind_eq_some_iff.mp h
    have hg₁ := s.gen_grows ctx _ _ hwf h₁
    have hP₁ := (rest.gen_grows ctx _ _ hg₁.wf h₂).placed hP
    rcases List.mem_append.mp hmem with hmem | hmem
    · exact s.hasExits e P h₁ hwf hopen hP₁ hmem
    · cases hjump : s.isJump with
      | true =>
        rw [hjump] at hmem
        cases hmem
      | false =>
        rw [hjump] at hmem
        have hopen₁ := s.gen_terminated hwf h₁
        rw [hjump] at hopen₁
        exact (rest.hasExits e P h₂ hg₁.wf hopen₁ hP hmem).mono hg₁.next_le

theorem Handlers.exitAt (e : LoopExit) (P : Nat → List Instr) :
    ∀ (hs : Handlers) (ctx : Ctx) (slot : Nat) (f : Option Nat) (after : Nat) (B B' : Builder) (path : List Part),
      hs.gen ctx slot f after B = some B' → B.WF → Placed B' P → path ∈ hs.places e → ExitAt e P B.next ctx path := by
  intro hs ctx slot f after B B' path h hwf hP hmem
  cases hs with
  | nil => cases hmem
  | bare body =>
    have hg := ((Grew.refl hwf).createBlocks 1).emit (.br B.next)
    have hR := (hwf.reserved (k := 1) (R := [B.next]) (by simp)).grew
      ((Grew.refl ((Grew.refl hwf).createBlocks 1).wf).emit (.br B.next))
    have hat : EntersBlock B ((B.createBlocks 1).emit (.br B.next)) B.next := ⟨hg, by simp, (hR _ (by simp)).2.2⟩
    have hexit := (body.hasExits e P).handlerBody hat h (body.gen_grows ctx) hP hmem
    exact hexit.mono hg.next_le
  | typed type bind body rest =>
    obtain ⟨Be, Bb, B₁, L, h₂⟩ := typedHandler_layout (body.gen_grows ctx) (rest.gen_grows ctx slot f after) hwf h hP
    rcases List.mem_append.mp hmem with hmem | hmem
    · have hexit := (body.hasExits e P).handlerBody L.body_at L.body_eq (body.gen_grows ctx) L.body_placed hmem
      exact hexit.mono L.body_at.grew.next_le
    · have hexit := rest.exitAt e P ctx slot f after _ B' path h₂ L.next_at.wf hP hmem
      exact hexit.mono L.next_at.grew.next_le

end

end Pylang.Aot
