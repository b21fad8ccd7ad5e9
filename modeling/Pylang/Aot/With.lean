/-
`with` of any number of items: `PylangCodegen::visit(const ast::With *)`, and
what Python prescribes for it.

The items are entered one after the other in front of the body. They share the
body and one landing pad, whose loop over the items closes the block it emits
to with `resume` in each round: from the second round on the instructions stand
behind a terminator, and `verifyModule` refuses the module.

The slot of an item holds its `__with_exc` as the state; `__with_lp` is the
token of the first item's slot. `__with_state` and `__with_retval`, which
nothing reads, are left out.
-/
import Pylang.Aot.Finally

namespace Pylang.Aot

open Builder

/-- `manager` is the context expression and the lookup of `__exit__`, `enter` the lookup of `__enter__` and its call,
`target` the stores after `as`. `onExc` is `__exit__` with the exception, its truth value included, and `onExit` is
`__exit__(None, None, None)`. -/
structure WithItem where
  manager : Expr
  enter : Expr
  target : List Call
  onExc : Expr
  onExit : Expr
  onExc_calls : onExc.calls ≠ []
  onExit_calls : onExit.calls ≠ []

/-! ## The code -/

/-- `exit = getattr(mgr, "__exit__")`, the flag cleared, `__enter__` called, its value stored. -/
def genEnterItem (ctx : Ctx) (i : WithItem) (slot : Nat) (B : Builder) : Builder :=
  let B := (genExpr ctx i.manager B).emit (.storeState slot 0)
  genExpr ctx ⟨i.target, 0⟩ (genExpr ctx i.enter B)

def genEnterItems (ctx : Ctx) : List WithItem → Builder → Builder
  | [], B => B
  | i :: is, B => genEnterItems ctx is (genEnterItem ctx i B.slots B.createSlot)

/-- The start of the landing pad: the token is saved and the exception caught. -/
def genCatch (ctx : Ctx) (slot : Nat) (B : Builder) : Builder :=
  emitRuntimeCall ctx (.catchBegin slot) (B.emit (.storeLp slot))

/-- One round of the loop in the landing pad. -/
def genExitOnExc (ctx : Ctx) (lp mergeBb : Nat) (i : WithItem) (slot : Nat) (B : Builder) : Builder :=
  let B := genExpr ctx i.onExc (B.emit (.storeState slot 1))
  let reraiseBb := B.next
  let suppressedBb := B.next + 1
  let B := (B.createBlocks 2).emit (.condBr suppressedBb reraiseBb)
  let B := (emitRuntimeCall ctx .catchEnd (B.setInsertPoint suppressedBb)).emit (.br mergeBb)
  (emitRuntimeCall ctx .catchEnd (B.setInsertPoint reraiseBb)).emit (.resume lp)

def genExitsOnExc (ctx : Ctx) (lp mergeBb : Nat) : List (WithItem × Nat) → Builder → Builder
  | [], B => B
  | (i, slot) :: cs, B => genExitsOnExc ctx lp mergeBb cs (genExitOnExc ctx lp mergeBb i slot B)

/-- One round of the loop after a normal end. -/
def genExit (ctx : Ctx) (i : WithItem) (slot : Nat) (B : Builder) : Builder :=
  let callExitBb := B.next
  let skipExitBb := B.next + 1
  let B := (B.createBlocks 2).emit (.condState slot skipExitBb callExitBb)
  let B := (genExpr ctx i.onExit (B.setInsertPoint callExitBb)).emit (.br skipExitBb)
  B.setInsertPoint skipExitBb

def genExits (ctx : Ctx) : List (WithItem × Nat) → Builder → Builder
  | [], B => B
  | (i, slot) :: cs, B => genExits ctx cs (genExit ctx i slot B)

/-- The body and the two ways on from it; `cleanups` has the item entered last first. -/
def genWithBody (ctx : Ctx) (lp : Nat) (cleanups : List (WithItem × Nat)) (genBody : Ctx → Builder → Option Builder)
    (B : Builder) : Option Builder := do
  let bodyBb := B.next
  let landingpadBb := B.next + 1
  let normalExitBb := B.next + 2
  let mergeBb := B.next + 3
  let B := (B.createBlocks 4).emit (.br bodyBb)
  let B ← genBlock (genBody (ctx.pushTry ⟨none, lp⟩ landingpadBb)) bodyBb normalExitBb B
  let B := genExitsOnExc ctx lp mergeBb cleanups (genCatch ctx lp (B.setInsertPoint landingpadBb))
  let B := (genExits ctx cleanups (B.setInsertPoint normalExitBb)).emit (.br mergeBb)
  some (B.setInsertPoint mergeBb)

def genWithItems (ctx : Ctx) (items : List WithItem) (genBody : Ctx → Builder → Option Builder) (B : Builder) :
    Option Builder :=
  genWithBody ctx B.slots (items.zipIdx B.slots).reverse genBody (genEnterItems ctx items B)

/-- What `verifyModule` asks of the blocks: a terminator ends its block. -/
def Valid (P : Nat → List Instr) : Prop :=
  ∀ b k i, (P b)[k]? = some i → i.isTerminator = true → k + 1 = (P b).length

/-! ## What Python prescribes, and what the code does -/

section
variable (ω : Env)

/-- `__exit__` is called whatever the completion; an exception it is called with is gone if it returns a true value. -/
def exitWith (i : WithItem) (r : Result) : Result :=
  match r with
  | (none, t) => (none, t)
  | (some (.raise x), t) => i.onExc.bind ω t fun v t => if truthy v then (some .normal, t) else (some (.raise x), t)
  | (some c, t) => i.onExit.bind ω t fun _ t => (some c, t)

/-- Once an item is entered, its `__exit__` is called on every way out of its target, the later items and the body. -/
def withItems (body : Trace → Result) : List WithItem → Trace → Result
  | [], t => body t
  | i :: is, t => i.manager.bind ω t fun _ t => i.enter.bind ω t fun _ t =>
    exitWith ω i ((Expr.mk i.target 0).bind ω t fun _ t => withItems body is t)

namespace WithItem
variable (i : WithItem)

/-- Entering an item: the context expression, `__enter__`, and the target. -/
def enterRun (t : Trace) : Outcome × Trace :=
  match i.manager.run ω t with
  | (.ok _, t) =>
    match i.enter.run ω t with
    | (.ok _, t) => (Expr.mk i.target 0).run ω t
    | r => r
  | r => r

/-- What has to hold where the body is entered. -/
def entered (t : Trace) (k : Trace → Bool) : Bool :=
  match i.enterRun ω t with
  | (.ok _, t) => k t
  | _ => true

/-- How the code of one item ends; `none` is undefined behaviour. -/
def code (body : Trace → Result) (t : Trace) : Option Result :=
  match i.enterRun ω t with
  | (.raise x, t) => some (some (.raise x), t)
  | (.ok _, t) =>
    match body t with
    | (some .normal, t) => some (i.onExit.bind ω t fun _ t => (some .normal, t))
    | (some (.raise _), t) =>
      match i.onExc.run ω t with
      | (.ok v, t) => if truthy v then some (some .normal, t) else none
      | (.raise y, t) => some (some (.raise y), t)
    | r => some r

/-- The target does not raise once `__enter__` is done, `return`, `break` and `continue` do not leave the body, and
`__exit__` does not let an exception through. -/
def faithful (body : Trace → Result) (t : Trace) : Bool :=
  i.manager.all ω t fun _ t => i.enter.all ω t fun _ t =>
    match (Expr.mk i.target 0).run ω t with
    | (.raise _, _) => false
    | (.ok _, t) =>
      match body t with
      | (none, _) | (some .normal, _) => true
      | (some (.raise _), t) => i.onExc.all ω t fun v _ => truthy v
      | _ => false

end WithItem

/-! ### The two agree exactly there -/

variable {ω}

theorem runCalls_length : ∀ (cs : List Call) (v : Value) (t : Trace), t.length ≤ (runCalls ω v cs t).2.length := by
  intro cs
  induction cs with
  | nil => exact fun _ _ => Nat.le_refl _
  | cons c cs ih =>
    intro v t
    unfold runCalls
    split
    next w _ =>
      have := ih w (c :: t)
      rw [List.length_cons] at this
      omega
    next => exact Nat.le_succ _

theorem Expr.run_length {e : Expr} (h : e.calls ≠ []) (t : Trace) : t.length < (e.run ω t).2.length := by
  obtain ⟨c, cs, hcs⟩ := List.exists_cons_of_ne_nil h
  unfold Expr.run
  rw [hcs]
  unfold runCalls
  split
  next w _ =>
    have := runCalls_length (ω := ω) cs w (c :: t)
    rw [List.length_cons] at this
    omega
  next => exact Nat.lt_succ_self _

theorem Expr.bind_ne {e : Expr} (h : e.calls ≠ []) {t : Trace} {k : Value → Trace → Result}
    (hk : ∀ v t, (k v t).2 = t) (c : Option Completion) : e.bind ω t k ≠ (c, t) := by
  intro heq
  have hlt := Expr.run_length (ω := ω) h t
  have htrace : (e.bind ω t k).2 = (e.run ω t).2 := by
    unfold Expr.bind
    split
    next v t' hrun => rw [hk, hrun]
    next x t' hrun => rw [hrun]
  rw [heq] at htrace
  rw [← htrace] at hlt
  exact Nat.lt_irrefl _ hlt

theorem WithItem.code_body_iff (i : WithItem) {r : Result} :
    (match r with
    | (some .normal, t) => some (i.onExit.bind ω t fun _ t => (some .normal, t))
    | (some (.raise _), t) =>
      match i.onExc.run ω t with
      | (.ok v, t) => if truthy v then some (some .normal, t) else none
      | (.raise y, t) => some (some (.raise y), t)
    | r => some r) = some (exitWith ω i r) ↔
    (match r with
    | (none, _) | (some .normal, _) => true
    | (some (.raise _), t) => i.onExc.all ω t fun v _ => truthy v
    | _ => false) = true := by
  have hleft : ∀ (c : Completion) (t : Trace), some (some c, t) ≠ some (i.onExit.bind ω t fun _ t => (some c, t)) :=
    fun c t h => Expr.bind_ne i.onExit_calls (fun _ _ => rfl) (some c) (Option.some.inj h).symm
  obtain ⟨c, t⟩ := r
  cases c with
  | none => exact ⟨fun _ => rfl, fun _ => rfl⟩
  | some c =>
    cases c with
    | normal => exact ⟨fun _ => rfl, fun _ => rfl⟩
    | raise x =>
      simp only [exitWith, Expr.bind, Expr.all]
      cases hrun : i.onExc.run ω t with
      | mk o t' =>
        cases o with
        | ok v => cases hv : truthy v <;> simp [hv]
        | raise y => simp
    | ret v => exact ⟨fun h => absurd h (hleft _ t), fun h => by cases h⟩
    | brk => exact ⟨fun h => absurd h (hleft _ t), fun h => by cases h⟩
    | cont => exact ⟨fun h => absurd h (hleft _ t), fun h => by cases h⟩

/-- The code of one item ends as Python prescribes exactly in the runs that are `faithful`. -/
theorem WithItem.code_iff (i : WithItem) (body : Trace → Result) (t : Trace) :
    i.code ω body t = some (withItems ω body [i] t) ↔ i.faithful ω body t = true := by
  simp only [code, enterRun, withItems, faithful, Expr.all, Expr.bind]
  cases hm : i.manager.run ω t with
  | mk o t₁ =>
    cases o with
    | raise x => simp
    | ok v =>
      cases he : i.enter.run ω t₁ with
      | mk o t₂ =>
        cases o with
        | raise x => simp only [he]
        | ok w =>
          simp only [he]
          cases hr : (Expr.mk i.target 0).run ω t₂ with
          | mk o t₃ =>
            cases o with
            | ok u => exact i.code_body_iff
            | raise x =>
              simp only [Bool.false_eq_true, iff_false, Option.some.injEq]
              exact fun h => Expr.bind_ne i.onExc_calls (fun v _ => by cases truthy v <;> rfl) _ h.symm

/-! ## The code grows the builder -/

section
variable {B₀ B B' : Builder}

theorem genEnterItem_grew (hg : Grew B₀ B) (ctx : Ctx) (i : WithItem) (slot : Nat) :
    Grew B₀ (genEnterItem ctx i slot B) :=
  (((hg.expr ctx i.manager).emit _).expr ctx i.enter).expr ctx _

theorem genEnterItems_grew (ctx : Ctx) : ∀ (items : List WithItem) {B : Builder}, Grew B₀ B →
    Grew B₀ (genEnterItems ctx items B) := by
  intro items
  induction items with
  | nil => exact fun hg => hg
  | cons i is ih => exact fun hg => ih (genEnterItem_grew hg.createSlot ctx i _)

theorem genCatch_grew (hg : Grew B₀ B) (ctx : Ctx) (slot : Nat) : Grew B₀ (genCatch ctx slot B) :=
  (hg.emit _).runtimeCall ctx _

theorem genExitOnExc_grew {slot : Nat} (hg : Grew B₀ (B.emit (.storeState slot 1))) (ctx : Ctx) (lp mergeBb : Nat)
    (i : WithItem) : Grew B₀ (genExitOnExc ctx lp mergeBb i slot B) := by
  unfold genExitOnExc
  have g := hg.expr ctx i.onExc
  simp only
  generalize genExpr ctx i.onExc (B.emit (.storeState slot 1)) = B₁ at g
  have hle := g.next_le
  have g₁ := ((g.createBlocks 2).emit (.condBr (B₁.next + 1) B₁.next)).setInsertPoint (b := B₁.next + 1) (by omega)
    (by simp)
  have g₂ := (g₁.runtimeCall ctx .catchEnd).emit (.br mergeBb)
  have hn₂ := runtimeCall_next ctx .catchEnd
    (((B₁.createBlocks 2).emit (.condBr (B₁.next + 1) B₁.next)).setInsertPoint (B₁.next + 1))
  simp only [setInsertPoint_next, emit_next, createBlocks_next] at hn₂
  have g₃ := g₂.setInsertPoint hle (by simp only [emit_next]; omega)
  exact (g₃.runtimeCall ctx .catchEnd).emit _

theorem genExitsOnExc_grew (ctx : Ctx) (lp mergeBb : Nat) : ∀ (cs : List (WithItem × Nat)) {B : Builder}, Grew B₀ B →
    Grew B₀ (genExitsOnExc ctx lp mergeBb cs B) := by
  intro cs
  induction cs with
  | nil => exact fun hg => hg
  | cons c cs ih => exact fun hg => ih (genExitOnExc_grew (hg.emit _) ctx lp mergeBb c.1)

theorem genExit_grew (hg : Grew B₀ B) (ctx : Ctx) (i : WithItem) (slot : Nat) : Grew B₀ (genExit ctx i slot B) := by
  have hle := hg.next_le
  unfold genExit
  simp only
  have g₁ := ((hg.createBlocks 2).emit (.condState slot (B.next + 1) B.next)).setInsertPoint hle (by simp)
  have hn₁ := genExpr_next ctx i.onExit
    (((B.createBlocks 2).emit (.condState slot (B.next + 1) B.next)).setInsertPoint B.next)
  simp only [setInsertPoint_next, emit_next, createBlocks_next] at hn₁
  exact ((g₁.expr ctx i.onExit).emit (.br (B.next + 1))).setInsertPoint (b := B.next + 1) (by omega)
    (by simp only [emit_next]; omega)

theorem genExits_grew (ctx : Ctx) : ∀ (cs : List (WithItem × Nat)) {B : Builder}, Grew B₀ B →
    Grew B₀ (genExits ctx cs B) := by
  intro cs
  induction cs with
  | nil => exact fun hg => hg
  | cons c cs ih => exact fun hg => ih (genExit_grew hg ctx c.1 c.2)

end

/-- The stages of `genWithBody`: the body starts from `Ba` and ends at `B₁`, the landing pad ends at `Bl` and the normal
exit at `Bn`. -/
structure WithBodyLayout (P : Nat → List Instr) (ctx : Ctx) (lp : Nat) (cleanups : List (WithItem × Nat))
    (genBody : Builder → Option Builder) (B Be Ba B₁ Bl Bn : Builder) : Prop where
  jump_eq : (Be.createBlocks 4).emit (.br Be.next) = Ba
  body_eq : genBlock genBody Be.next (Be.next + 2) Ba = some B₁
  pad_eq : genExitsOnExc ctx lp (Be.next + 3) cleanups (genCatch ctx lp (B₁.setInsertPoint (Be.next + 1))) = Bl
  exit_eq : (genExits ctx cleanups (Bl.setInsertPoint (Be.next + 2))).emit (.br (Be.next + 3)) = Bn
  body_at : EntersBlock B Ba Be.next
  pad_at : EntersBlock B B₁ (Be.next + 1)
  exit_at : EntersBlock B Bl (Be.next + 2)
  merge_at : EntersBlock B Bn (Be.next + 3)
  jump_placed : Placed Ba P
  body_placed : Placed B₁ P
  pad_placed : Placed Bl P
  exit_placed : Placed Bn P

theorem genWithBody_layout {P : Nat → List Instr} {ctx : Ctx} {lp : Nat} {cleanups : List (WithItem × Nat)}
    {genBody : Ctx → Builder → Option Builder} {B Be B' : Builder} (gbody : ∀ ctx, Grows (genBody ctx))
    (hg : Grew B Be) (h : genWithBody ctx lp cleanups genBody Be = some B') (hP : Placed B' P) :
    ∃ Ba B₁ Bl Bn,
      WithBodyLayout P ctx lp cleanups (genBody (ctx.pushTry ⟨none, lp⟩ (Be.next + 1))) B Be Ba B₁ Bl Bn ∧
      B' = Bn.setInsertPoint (Be.next + 3) := by
  simp only [genWithBody, Option.bind_eq_bind, Option.bind_eq_some_iff] at h
  obtain ⟨B₁, h₁, h⟩ := h
  cases h
  obtain ⟨Ba, hBa⟩ : ∃ Ba, (Be.createBlocks 4).emit (.br Be.next) = Ba := ⟨_, rfl⟩
  rw [hBa] at h₁
  have hle := hg.next_le
  have hga : Grew B Ba := hBa ▸ (hg.createBlocks 4).emit _
  have hna : Ba.next = Be.next + 4 := by rw [← hBa, emit_next, createBlocks_next]
  have hRa : Reserved [Be.next, Be.next + 1, Be.next + 2, Be.next + 3] Ba := by
    rw [← hBa]
    exact (hg.wf.reserved (k := 4) (by simp)).grew ((Grew.refl (hg.createBlocks 4).wf).emit _)
  obtain ⟨hg₁, hn₁⟩ := genBlock_grew (gbody _) hga hle (by omega) h₁
  have hR₁ := genBlock_reserved (R := [Be.next + 1, Be.next + 2, Be.next + 3]) (gbody _) (hRa.mono (by simp)) hga.wf
    (by omega) (by simp) h₁
  obtain ⟨Bl, hBl⟩ : ∃ Bl,
      genExitsOnExc ctx lp (Be.next + 3) cleanups (genCatch ctx lp (B₁.setInsertPoint (Be.next + 1))) = Bl := ⟨_, rfl⟩
  have hwl := hg₁.wf.enter (b := Be.next + 1) (by omega)
  have hpad : Grew (B₁.setInsertPoint (Be.next + 1)) Bl :=
    hBl ▸ genExitsOnExc_grew ctx lp _ cleanups (genCatch_grew (.refl hwl) ctx lp)
  have hgl : Grew B Bl := (hg₁.setInsertPoint (by omega) (by omega)).trans hpad
  have hRl := (hR₁.enter (Q := [Be.next + 2, Be.next + 3]) (Be.next + 1) (by simp)).grew hpad
  have hnl := hpad.next_le
  rw [setInsertPoint_next] at hnl
  rw [hBl] at hP ⊢
  obtain ⟨Bn, hBn⟩ : ∃ Bn, (genExits ctx cleanups (Bl.setInsertPoint (Be.next + 2))).emit (.br (Be.next + 3)) = Bn :=
    ⟨_, rfl⟩
  have hwn := hgl.wf.enter (b := Be.next + 2) (by omega)
  have hexit : Grew (Bl.setInsertPoint (Be.next + 2)) Bn := hBn ▸ (genExits_grew ctx cleanups (.refl hwn)).emit _
  have hgn : Grew B Bn := (hgl.setInsertPoint (by omega) (by omega)).trans hexit
  have hRn := (hRl.enter (Q := [Be.next + 3]) (Be.next + 2) (by simp)).grew hexit
  have hnn := hexit.next_le
  rw [setInsertPoint_next] at hnn
  rw [hBn] at hP ⊢
  have hPl : Placed Bl P := hexit.placed hP
  have hP₁ : Placed B₁ P := hpad.placed hPl
  exact ⟨Ba, B₁, Bl, Bn,
    { jump_eq := hBa
      body_eq := h₁
      pad_eq := hBl
      exit_eq := hBn
      body_at := ⟨hga, by omega, (hRa _ (by simp)).2.2⟩
      pad_at := ⟨hg₁, by omega, (hR₁ _ (by simp)).2.2⟩
      exit_at := ⟨hgl, by omega, (hRl _ (by simp)).2.2⟩
      merge_at := ⟨hgn, by omega, (hRn _ (by simp)).2.2⟩
      jump_placed := genBlock_placed (gbody _) hga.wf (by omega) h₁ hP₁
      body_placed := hP₁
      pad_placed := hPl
      exit_placed := hP }, rfl⟩

/-! ## Several items -/

/-- Each round leaves the insertion point behind its `resume`. -/
theorem genExitOnExc_last (ctx : Ctx) (lp mergeBb : Nat) (i : WithItem) (slot : Nat) (B : Builder) :
    ∃ B₁ : Builder, genExitOnExc ctx lp mergeBb i slot B = B₁.emit (.resume lp) := ⟨_, rfl⟩

/-- The second round of the landing pad emits behind the terminator of the first. -/
theorem not_valid_of_exits {P : Nat → List Instr} {ctx : Ctx} {lp mergeBb : Nat} {c c' : WithItem × Nat}
    {cs : List (WithItem × Nat)} {B : Builder} (hwf : B.WF)
    (hP : Placed (genExitsOnExc ctx lp mergeBb (c :: c' :: cs) B) P) : ¬Valid P := by
  obtain ⟨B₁, hB₁⟩ := genExitOnExc_last ctx lp mergeBb c.1 c.2 B
  have hw₁ : (B₁.emit (.resume lp)).WF := hB₁ ▸ (genExitOnExc_grew ((Grew.refl hwf).emit _) ctx lp mergeBb c.1).wf
  have hP₂ : Placed (genExitsOnExc ctx lp mergeBb (c' :: cs) (B₁.emit (.resume lp))) P := hB₁ ▸ hP
  have hstore := (Grew.refl hw₁).emit (.storeState c'.2 1)
  have hround := genExitOnExc_grew (.refl hstore.wf) ctx lp mergeBb c'.1
  have hcode := (genExitsOnExc_grew ctx lp mergeBb cs hround).placed hP₂ B₁.cur
  rw [show B₁.cur = (B₁.emit (.resume lp)).cur from rfl, emit_code_cur, emit_cur, emit_code_cur] at hcode
  obtain ⟨after, hafter⟩ := hcode
  intro hvalid
  have hlast := hvalid B₁.cur (B₁.code B₁.cur).length (.resume lp) (by simp [← hafter]) rfl
  rw [← hafter] at hlast
  simp only [List.length_append, List.length_cons, List.length_nil] at hlast
  omega

/-- **Code for several items is refused.** -/
theorem not_valid_of_items {P : Nat → List Instr} {ctx : Ctx} {first second : WithItem} {rest : List WithItem}
    {genBody : Ctx → Builder → Option Builder} {B B' : Builder} (gbody : ∀ ctx, Grows (genBody ctx)) (hwf : B.WF)
    (h : genWithItems ctx (first :: second :: rest) genBody B = some B') (hP : Placed B' P) : ¬Valid P := by
  have hge := genEnterItems_grew ctx (first :: second :: rest) (.refl hwf)
  obtain ⟨_, B₁, Bl, _, L, rfl⟩ := genWithBody_layout gbody hge h hP
  obtain ⟨c, c', cs, hcs⟩ : ∃ c c' cs, ((first :: second :: rest).zipIdx B.slots).reverse = c :: c' :: cs := by
    have hlength : ((first :: second :: rest).zipIdx B.slots).reverse.length = rest.length + 2 := by simp
    match ((first :: second :: rest).zipIdx B.slots).reverse, hlength with
    | c :: c' :: cs, _ => exact ⟨c, c', cs, rfl⟩
  have hpad : Placed (genExitsOnExc ctx _ _ (c :: c' :: cs) _) P := hcs ▸ L.pad_eq ▸ L.pad_placed
  exact not_valid_of_exits (genCatch_grew (.refl L.pad_at.wf) ctx _).wf hpad

/-! ## One item -/

variable {P : Nat → List Instr}

theorem run_enterItem {ctx : Ctx} {K : Nest} {i : WithItem} {slot : Nat} {B : Builder} (hwf : B.WF)
    (hP : Placed (genEnterItem ctx i slot B) P) (S : State) :
    match i.enterRun ω S.trace with
    | (.ok _, t) => ∃ S', Frame slot S S' ∧ S'.trace = t ∧ (S'.slots slot).state = 0 ∧
        Star (step ω P) (S.at B) (S'.at (genEnterItem ctx i slot B))
    | (.raise x, t) => Leaves ω P ctx K slot S (S.at B) (.raise x) t := by
  have g₁ := (Grew.refl hwf).expr ctx i.manager
  have g₂ := (Grew.refl g₁.wf).emit (.storeState slot 0)
  have g₃ := (Grew.refl g₂.wf).expr ctx i.enter
  have hP₃ : Placed (genExpr ctx i.enter ((genExpr ctx i.manager B).emit (.storeState slot 0))) P :=
    ((Grew.refl g₃.wf).expr ctx ⟨i.target, 0⟩).placed hP
  have hP₂ := g₃.placed hP₃
  have hP₁ := g₂.placed hP₂
  unfold WithItem.enterRun
  cases hm : i.manager.run ω S.trace with
  | mk o t₁ =>
    cases o with
    | raise x => exact run_raise hwf hP₁ hm
    | ok v =>
      have hs₁ := (run_ok hwf hP₁ hm).trans (Placed.storeState hP₂ (S.after v t₁))
      obtain ⟨S₁, hS₁⟩ : ∃ S₁, (S.after v t₁).setSlot slot { S.slots slot with state := 0 } = S₁ := ⟨_, rfl⟩
      rw [show (S.after v t₁).slots slot = S.slots slot from rfl, hS₁] at hs₁
      have hafter : Frame slot S (S.after v t₁) := .refl
      have hframe : Frame slot S S₁ := hS₁ ▸ hafter.setSlot (Nat.le_refl _) _
      have htrace : S₁.trace = t₁ := hS₁ ▸ rfl
      have hclear : (S₁.slots slot).state = 0 := by rw [← hS₁, State.setSlot_self]
      simp only
      rw [← htrace]
      cases he : i.enter.run ω S₁.trace with
      | mk o t₂ =>
        cases o with
        | raise x => exact (run_raise g₂.wf hP₃ he).of_star hs₁ hframe (Nat.le_refl _)
        | ok w =>
          have hs₂ := hs₁.trans (run_ok g₂.wf hP₃ he)
          simp only
          cases hr : (Expr.mk i.target 0).run ω t₂ with
          | mk o t₃ =>
            cases o with
            | ok u => exact ⟨(S₁.after w t₂).after u t₃, hframe, rfl, hclear,
                hs₂.trans (run_ok (S := S₁.after w t₂) g₃.wf hP hr)⟩
            | raise x =>
              exact (run_raise (S := S₁.after w t₂) g₃.wf hP hr).of_star hs₂ hframe (Nat.le_refl _)

/-- As `Ends`, with `none` for undefined behaviour. -/
def Does (ω : Env) (P : Nat → List Instr) (ctx : Ctx) (K : Nest) (n : Nat) (S X : State) (B' : Builder) :
    Option Result → Prop
  | some r => Ends ω P ctx K n S X B' r
  | none => HaltsWith (step ω P) X .undefined

/-- The landing pad of an item whose `__exit__` lets the exception through: `catch_end` destroys the exception, and
`resume` is left with it. -/
theorem run_padReraise {ctx : Ctx} {slot mergeBb : Nat} {onExc : Expr} {B : Builder} {S : State} {v : Value} {t : Trace}
    (hwf : B.WF) (hP : Placed (genWithLandingPad ctx slot mergeBb onExc B) P)
    (hrun : onExc.run ω S.trace = (.ok v, t)) (hv : truthy v = false) : HaltsWith (step ω P) (S.at B) .undefined := by
  have g₁ := (Grew.refl hwf).emit (.storeLp slot)
  have g₂ := (Grew.refl g₁.wf).runtimeCall ctx (.catchBegin slot)
  obtain ⟨Be, Bt, Bm, L⟩ := genWithLandingPad_layout hwf hP
  have hPb := ((Grew.refl g₂.wf).emit (.storeState slot 1)).placed L.pad_placed
  -- the exception is caught, its token saved
  obtain ⟨S₁, hS₁⟩ : ∃ S₁, S.setSlot slot { S.slots slot with lp := S.flight } = S₁ := ⟨_, rfl⟩
  have hs₁ : Star (step ω P) (S.at B) (S₁.at (B.emit (.storeLp slot))) := hS₁ ▸ (g₂.placed hPb).next rfl
  obtain ⟨S₂, hS₂⟩ : ∃ S₂, ({ S₁ with caught := (S₁.slots slot).lp.id :: S₁.caught } : State) = S₂ := ⟨_, rfl⟩
  have hcatch : (Rt.catchBegin slot).exec ω S₁ = (S₂, false) := by rw [← hS₂]; rfl
  have hs₂ := hs₁.trans (run_runtimeCall g₁.wf hPb hcatch)
  obtain ⟨S₃, hS₃⟩ : ∃ S₃, S₂.setSlot slot { S₂.slots slot with state := 1 } = S₃ := ⟨_, rfl⟩
  have hs₃ : Star (step ω P) (S.at B) (S₃.at (genLandingPad ctx slot B)) :=
    hS₃ ▸ hs₂.trans (Placed.storeState L.pad_placed S₂)
  have htrace : S₃.trace = S.trace := by rw [← hS₃, ← hS₂, ← hS₁]; rfl
  have hcaught : S₃.caught = (S₃.slots slot).lp.id :: S₁.caught := by
    rw [← hS₃, State.setSlot_self, ← hS₂]
    rfl
  -- `__exit__`, and the way to the block that re-raises
  have hs₄ := hs₃.trans (run_ok L.pad_wf L.exit_placed (htrace ▸ hrun))
  rw [L.exit_eq] at hs₄
  have hs₅ := hs₄.trans (Placed.condBr (ω := ω) (B := Be.createBlocks 2) (L.test_eq ▸ L.test_placed) (S₃.after v t))
  rw [show (S₃.after v t).acc = v from rfl, hv, cond_false] at hs₅
  obtain ⟨S₆, hS₆⟩ : ∃ S₆, ({ S₃.after v t with
      caught := S₃.caught.tail, destroyed := S₃.caught.take 1 ++ S₃.destroyed } : State) = S₆ := ⟨_, rfl⟩
  rw [goto_at L.reraise_empty] at hs₅
  have hdestroy : Rt.catchEnd.exec ω (S₃.after v t) = (S₆, false) := by rw [← hS₆]; rfl
  have hs₆ := hs₅.trans (run_runtimeCall L.reraise_wf L.reraise_placed hdestroy)
  refine .of_star hs₆ ⟨_, .refl, (step_at L.resume_placed S₆).trans ?_⟩
  have hgone : (S₆.slots slot).lp.id ∈ S₆.destroyed := by
    rw [← hS₆, hcaught]
    exact List.mem_cons_self
  show Sum.inr (if (S₆.slots slot).lp.id ∈ S₆.destroyed then _ else _) = _
  rw [if_pos hgone]

section
variable {genBody : Ctx → Builder → Option Builder} {evalBody : Trace → Result} {guardBody : Nest → Trace → Bool}

/-- The code for one item does what `WithItem.code` says, however the body is left. -/
theorem run_withItem (hbody : Sim ω P genBody evalBody guardBody) (gbody : ∀ ctx, Grows (genBody ctx)) {ctx : Ctx}
    {K : Nest} {i : WithItem} {B B' : Builder} {S : State} (h : genWithItems ctx [i] genBody B = some B')
    (hwf : B.WF) (hm : Matches ctx K) (hP : Placed B' P)
    (hguard : i.entered ω S.trace (guardBody K.withBody) = true) :
    Does ω P ctx K B.slots S (S.at B) B' (i.code ω evalBody S.trace) := by
  have hgs := (Grew.refl hwf).createSlot
  have hge : Grew B (genEnterItem ctx i B.slots B.createSlot) := genEnterItem_grew hgs ctx i B.slots
  have hslots : B.slots < (genEnterItem ctx i B.slots B.createSlot).slots :=
    Nat.lt_of_lt_of_le (Nat.lt_succ_self _) (genEnterItem_grew (.refl hgs.wf) ctx i B.slots).slots_le
  obtain ⟨Be, hBe⟩ : ∃ Be, genEnterItem ctx i B.slots B.createSlot = Be := ⟨_, rfl⟩
  obtain ⟨Ba, B₁, Bl, Bn, L, rfl⟩ := genWithBody_layout gbody hge h hP
  rw [hBe] at L hge hslots ⊢
  have hPe : Placed (genEnterItem ctx i B.slots B.createSlot) P := by
    rw [hBe]
    exact (((Grew.refl hge.wf).createBlocks 4).emit _).placed (L.jump_eq ▸ L.jump_placed)
  have henter := run_enterItem (ω := ω) (K := K) hgs.wf hPe S
  unfold WithItem.entered at hguard
  unfold WithItem.code
  generalize i.enterRun ω S.trace = r at henter hguard ⊢
  obtain ⟨o, t⟩ := r
  cases o with
  | raise x => exact Leaves.ends (S := S) (X := S.at B) henter (Bn.setInsertPoint (Be.next + 3))
  | ok u =>
    obtain ⟨S₀, hframe, rfl, hclear, hs₀⟩ := henter
    rw [hBe] at hs₀
    have hstart : Star (step ω P) (S.at B) (S₀.goto Be.next) :=
      hs₀.trans (Placed.br (B := Be.createBlocks 4) (L.jump_eq ▸ L.jump_placed) S₀)
    have hm' := hm.withBody B.slots (Be.next + 1)
    have hends := run_block (S := S₀) hbody L.body_eq (gbody _) L.body_at.grew.wf L.body_at.lt L.body_at.empty hm'
      L.body_placed hguard
    have hle : B.slots < Ba.slots := L.jump_eq ▸ hslots
    have hbase : ∀ {r : Result}, EndsAt ω P ctx K B.slots S₀ (S₀.goto Be.next) (Be.next + 3) r →
        Ends ω P ctx K B.slots S (S.at B) (Bn.setInsertPoint (Be.next + 3)) r :=
      fun hr => (hr.enter L.merge_at.empty).of_star hstart hframe (Nat.le_refl _)
    simp only
    generalize evalBody S₀.trace = r at hends ⊢
    obtain ⟨c, t₁⟩ := r
    cases c with
    | none => exact hbase (r := (none, t₁)) hends
    | some c =>
      have hout : ∀ {c : Completion}, EndsAt ω P (ctx.pushTry ⟨none, B.slots⟩ (Be.next + 1)) K.withBody
          Ba.slots S₀ (S₀.goto Be.next) (Be.next + 2) (some c, t₁) → c ≠ .normal → (∀ x, c ≠ .raise x) →
          EndsAt ω P ctx K B.slots S₀ (S₀.goto Be.next) (Be.next + 3) (some c, t₁) := by
        intro c hc hn hne
        have hctx : Leaves ω P ctx K B.slots S₀ (S₀.goto Be.next) c t₁ :=
          (hc.leaves hn).weaken .refl .refl (Nat.le_of_lt hle) rfl rfl fun x hx => (hne x hx).elim
        exact hctx.endsAt _
      cases c with
      | ret w => exact hbase (hout hends (by simp) (by simp))
      | brk => exact hbase (hout hends (by simp) (by simp))
      | cont => exact hbase (hout hends (by simp) (by simp))
      | normal =>
        obtain ⟨S₁, hf₁, rfl, hs₁⟩ := hends
        rw [goto_at L.exit_at.empty] at hs₁
        have hstate : (S₁.slots B.slots).state = 0 := by rw [hf₁ _ hle, hclear]
        have hPexit : Placed (genWithNormalExit ctx B.slots (Be.next + 3) i.onExit (Bl.setInsertPoint (Be.next + 2))) P := by
          have hexit := L.exit_placed
          rw [← L.exit_eq] at hexit
          exact hexit
        have hexit := run_withNormalExit (ω := ω) (K := K) (n := B.slots) L.exit_at.wf hPexit hstate
        exact hbase (hexit.of_star hs₁ (hf₁.mono (Nat.le_of_lt hle)) (Nat.le_refl _))
      | raise x =>
        obtain ⟨S₁, hf₁, rfl, -, hun⟩ := hends.leaves (by simp)
        have hs₁ : Star (step ω P) (S₀.goto Be.next) (S₁.goto (Be.next + 1)) := hun
        rw [goto_at L.pad_at.empty] at hs₁
        have hPpad : Placed (genWithLandingPad ctx B.slots (Be.next + 3) i.onExc (B₁.setInsertPoint (Be.next + 1))) P := by
          have hpad := L.pad_placed
          rw [← L.pad_eq] at hpad
          exact hpad
        have hthrough : (i.onExc.all ω S₁.trace fun v _ => truthy v) = true →
            Ends ω P ctx K B.slots S (S.at B) (Bn.setInsertPoint (Be.next + 3)) (i.onExc.bind ω S₁.trace fun v t =>
              if truthy v then (some .normal, t) else (some (.raise x), t)) :=
          fun hexc => hbase ((run_withLandingPad (K := K) (x := x) L.pad_at.wf hPpad hexc).of_star hs₁
            (hf₁.mono (Nat.le_of_lt hle)) (Nat.le_refl _))
        unfold Expr.all Expr.bind at hthrough
        cases hrun : i.onExc.run ω S₁.trace with
        | mk o t₂ =>
          simp only [hrun] at hthrough ⊢
          cases o with
          | raise y => exact hthrough rfl
          | ok v =>
            cases hv : truthy v with
            | true =>
              have hends := hthrough hv
              simp only [hv, if_true] at hends ⊢
              exact hends
            | false =>
              simp only [hv, Bool.false_eq_true, if_false]
              exact HaltsWith.of_star (hstart.trans hs₁) (run_padReraise L.pad_at.wf hPpad hrun hv)

/-- In the runs that are `faithful` a `with` is a body like any other, of another `with` among them. -/
theorem sim_withItem (hbody : Sim ω P genBody evalBody guardBody) (gbody : ∀ ctx, Grows (genBody ctx)) (i : WithItem) :
    Sim ω P (fun ctx => genWithItems ctx [i] genBody) (withItems ω evalBody [i])
      (fun K t => i.entered ω t (guardBody K.withBody) && i.faithful ω evalBody t) := by
  intro ctx K B B' S h hwf _ hm hP hguard
  rw [Bool.and_eq_true] at hguard
  have hdoes := run_withItem hbody gbody h hwf hm hP hguard.1
  rw [(i.code_iff evalBody S.trace).mpr hguard.2] at hdoes
  exact hdoes

/-- **When the code of a `with` statement does what Python prescribes.** Several items make no valid code. The code of
one item ends as `WithItem.code` says, on every way of leaving its body; and that is what Python prescribes, `__exit__`
called once `__enter__` is done and the exception raised again unless `__exit__` returned a true value, exactly in the
runs that are `faithful`. -/
theorem with_faithful (hbody : Sim ω P genBody evalBody guardBody) (gbody : ∀ ctx, Grows (genBody ctx)) {ctx : Ctx}
    {K : Nest} {first : WithItem} {rest : List WithItem} {B B' : Builder} {S : State}
    (h : genWithItems ctx (first :: rest) genBody B = some B') (hwf : B.WF) (hm : Matches ctx K) (hP : Placed B' P)
    (hguard : rest = [] → first.entered ω S.trace (guardBody K.withBody) = true) :
    (rest ≠ [] → ¬Valid P) ∧
    (rest = [] → Does ω P ctx K B.slots S (S.at B) B' (first.code ω evalBody S.trace) ∧
      (first.code ω evalBody S.trace = some (withItems ω evalBody (first :: rest) S.trace) ↔
        first.faithful ω evalBody S.trace = true)) := by
  cases rest with
  | nil => exact ⟨fun hr => absurd rfl hr, fun _ => ⟨run_withItem hbody gbody h hwf hm hP (hguard rfl), first.code_iff _ _⟩⟩
  | cons second rest => exact ⟨fun _ => not_valid_of_items gbody hwf h hP, fun hr => by cases hr⟩

end

/-- `with 1(): …`, with `__enter__` called by 3 and `__exit__` by 8, with the exception, and 9. -/
def oneManager : WithItem := ⟨⟨[1, 2], 0⟩, ⟨[3], 0⟩, [], ⟨[8], 0⟩, ⟨[9], 0⟩, by decide, by decide⟩

theorem with_faithful_normalEnd : ∃ B',
    genWithItems .top [oneManager] (fun c => (Body.cons (callS 4) .nil).gen c) .entry = some B' ∧
    Does (raising []) B'.code .top .top 0 .start (State.start.at .entry) B' (some (some .normal, [9, 4, 3, 2, 1])) ∧
    withItems (raising []) ((Body.cons (callS 4) .nil).eval (raising []) 1) [oneManager] [] =
      (some .normal, [9, 4, 3, 2, 1]) := by
  obtain ⟨B', hB'⟩ := Option.isSome_iff_exists.mp (show
    (genWithItems .top [oneManager] (fun c => (Body.cons (callS 4) .nil).gen c) .entry).isSome = true by decide +kernel)
  have hrun := ((with_faithful (ω := raising []) (S := .start) ((Body.cons (callS 4) .nil).sim (raising []) B'.code 1)
    (fun c => Body.gen_grows c _) hB' entry_wf .top (fun _ => List.prefix_refl _) (fun _ => by decide +kernel)).2 rfl)
  have hcode : oneManager.code (raising []) ((Body.cons (callS 4) .nil).eval (raising []) 1) [] =
      some (some .normal, [9, 4, 3, 2, 1]) := by decide +kernel
  refine ⟨B', hB', hcode ▸ hrun.1, ?_⟩
  have hsame := hrun.2.mpr (by decide +kernel)
  exact Option.some.inj (hsame.symm.trans hcode)

/-- A function that is one `with` statement. -/
def genWithFunction (items : List WithItem) (body : Body) : Option Builder :=
  compileFunctionBody .top (fun ctx => genWithItems ctx items fun c => body.gen c) .entry

/-- `with 1(): return 4()` returns without a call of `__exit__`. -/
theorem returnInWith_skips_exit : ∃ B, genWithFunction [oneManager] (.cons (.ret ⟨[4], 0⟩) .nil) = some B ∧
    HaltsWith (step (raising []) B.code) (State.start.goto 1) (.returned 4 [4, 3, 2, 1]) ∧
    withItems (raising []) ((Body.cons (.ret ⟨[4], 0⟩) .nil).eval (raising []) 1) [oneManager] [] =
      (some (.ret 4), [9, 4, 3, 2, 1]) ∧
    ¬HaltsWith (step (raising []) B.code) (State.start.goto 1) (.returned 4 [9, 4, 3, 2, 1]) := by
  obtain ⟨B, hB⟩ := Option.isSome_iff_exists.mp
    (show (genWithFunction [oneManager] (.cons (.ret ⟨[4], 0⟩) .nil)).isSome = true by decide +kernel)
  have hrun : ((genWithFunction [oneManager] (.cons (.ret ⟨[4], 0⟩) .nil)).map fun B =>
      (runFor (step (raising []) B.code) 100 (State.start.goto 1)).getRight?) = some (some (.returned 4 [4, 3, 2, 1])) := by
    decide +kernel
  rw [hB, Option.map_some, Option.some.injEq, Sum.getRight?_eq_some_iff] at hrun
  have hhalts := HaltsWith.of_runFor hrun
  exact ⟨B, hB, hhalts, by decide, fun h => by cases HaltsWith.unique hhalts h⟩

end

end Pylang.Aot
