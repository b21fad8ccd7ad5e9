/-
Where `break` and `continue` lead: the route the generated code takes, through
`finally` blocks or straight to a block of a loop, against the loop and the
`finally` bodies between it and the statement.
-/
import Pylang.Aot.Places
import Pylang.Aot.Finally

namespace Pylang.Aot

open Builder

/-! ## The route -/

/-- The code at a point goes to the block `t` with the state word set, through these `finally` bodies: each is entered
at its block and left where `ends` says it ends, by its switch. -/
inductive Through (P : Nat → List Instr) (state : Nat) (ends : List (Nat × Point)) : Point → List Nat → Nat → Prop where
  | br {b i t : Nat} (h : (P b)[i]? = some (.br t)) : Through P state ends (b, i) [] t
  | finally_ {b i k f dflt t' t : Nat} {p : Point} {cases : List (Nat × Nat)} {fs : List Nat}
      (hstore : (P b)[i]? = some (.storeState k state)) (hbr : (P b)[i + 1]? = some (.br f))
      (hend : ends.lookup f = some p) (hswitch : (P p.1)[p.2]? = some (.switch k dflt cases))
      (hcase : cases.lookup state = some t') (h : Through P state ends (t', 0) fs t) :
      Through P state ends (b, i) (f :: fs) t

def State.atPoint (S : State) (p : Point) : State := { S with block := p.1, pc := p.2 }

theorem step_atPoint {ω : Env} {P : Nat → List Instr} {p : Point} {i : Instr} (h : (P p.1)[p.2]? = some i) (S : State) :
    step ω P (S.atPoint p) = i.exec ω (S.atPoint p) := by
  have hget : (P (S.atPoint p).block)[(S.atPoint p).pc]? = some i := h
  rw [step, hget]

/-- The machine takes the route, if each `finally` body on it ends where it should with the state words kept. -/
theorem Through.runs {ω : Env} {P : Nat → List Instr} {state : Nat} {ends : List (Nat × Point)} {p : Point}
    {fs : List Nat} {t : Nat} (h : Through P state ends p fs t)
    (hfinally : ∀ f ∈ fs, ∀ q, ends.lookup f = some q → ∀ S : State, ∃ S' : State,
      Star (step ω P) (S.goto f) (S'.atPoint q) ∧ ∀ k, (S'.slots k).state = (S.slots k).state) (S : State) :
    ∃ S' : State, Star (step ω P) (S.atPoint p) (S'.goto t) := by
  induction h generalizing S with
  | br h => exact ⟨S, .one (step_atPoint (p := (_, _)) h S)⟩
  | @finally_ b i k f dflt t' t q cases fs hstore hbr hend hswitch hcase h ih =>
    obtain ⟨S₁, hS₁⟩ : ∃ S₁, S.setSlot k { S.slots k with state := state } = S₁ := ⟨_, rfl⟩
    have s₁ : Star (step ω P) (S.atPoint (b, i)) (S₁.atPoint (b, i + 1)) := by
      rw [← hS₁]
      exact .one (step_atPoint (p := (b, i)) hstore S)
    have s₂ : Star (step ω P) (S₁.atPoint (b, i + 1)) (S₁.goto f) := .one (step_atPoint (p := (b, i + 1)) hbr S₁)
    obtain ⟨S₂, s₃, hkeep⟩ := hfinally f (by simp) q hend S₁
    have hstate : (S₂.slots k).state = state := by
      rw [hkeep, ← hS₁]
      simp
    have s₄ : Star (step ω P) (S₂.atPoint q) (S₂.atPoint (t', 0)) := by
      refine .one ((step_atPoint hswitch S₂).trans ?_)
      show Sum.inl (S₂.goto ((cases.lookup (S₂.slots k).state).getD dflt)) = _
      rw [hstate, hcase]
      rfl
    obtain ⟨S', s₅⟩ := ih (fun g hg => hfinally g (by simp [hg])) S₂
    exact ⟨S', (((s₁.trans s₂).trans s₃).trans s₄).trans s₅⟩

/-! ## The parts around the statement, innermost first -/

def Part.isLoop : Part → Bool
  | .loopBody => true
  | _ => false

def Part.isTryBody : Part → Bool
  | .tryBody _ => true
  | _ => false

def Part.isFinally : Part → Bool
  | .tryBody _ | .tryPart => true
  | _ => false

/-- Between the innermost loop and the statement there is no `try` with `finally`, and none has the loop in its body, nor,
`outside` of the function, the definition; or there is one, the statement is in its body, and its `finally` body can be left
at its end. -/
def exitOk (outside : Bool) (path : List Part) : Bool :=
  path.any Part.isLoop &&
    match (path.reverse.takeWhile (!·.isLoop)).filter Part.isFinally with
    | [] => !path.any Part.isTryBody && !outside
    | [.tryBody falls] => falls
    | _ => false

namespace Site

def loop? : Site → Option LoopContext
  | .loopBody l => some l
  | _ => none

def entry? : Site → Option (Nat × Nat)
  | .tryBody f k _ => some (f, k)
  | _ => none

def finally? : Site → Option Nat
  | .tryBody f _ _ => some f
  | .tryPart f => some f
  | _ => none

def ending? : Site → Option (Nat × Point)
  | .tryBody f _ finallyEnd => finallyEnd.map (f, ·)
  | _ => none

end Site

/-- The innermost loop. -/
def loopOf (sites : List Site) : Option LoopContext := sites.reverse.findSome? Site.loop?

/-- The `finally` blocks of the statements between that loop and the innermost site, innermost first. -/
def between (sites : List Site) : List Nat := (sites.reverse.takeWhile (!·.part.isLoop)).filterMap Site.finally?

/-- Where each `finally` body ends. -/
def ends (sites : List Site) : List (Nat × Point) := sites.filterMap Site.ending?

/-! ## What the contexts hold -/

section
variable {P : Nat → List Instr} {n : Nat} {ctx ctx' : Ctx} {sites : List Site}

/-- The contexts in front of and inside of a site in the middle. -/
theorem Sited.split {post : List Site} : ∀ {pre : List Site} {n : Nat} {ctx : Ctx}, Sited P n ctx (pre ++ post) ctx' →
    ∃ m ctx₁, Sited P n ctx pre ctx₁ ∧ Sited P m ctx₁ post ctx'
  | [], n, ctx, h => ⟨n, ctx, rfl, h⟩
  | .other :: _, _, _, ⟨ctx₀, hagrees, h⟩ =>
    have ⟨m, ctx₁, hpre, hpost⟩ := Sited.split h
    ⟨m, ctx₁, ⟨ctx₀, hagrees, hpre⟩, hpost⟩
  | .loopBody l :: pre, n, ctx, h =>
    have h : Sited P n (ctx.pushLoop l) (pre ++ post) ctx' := h
    have ⟨m, ctx₁, hpre, hpost⟩ := Sited.split h
    ⟨m, ctx₁, hpre, hpost⟩
  | .tryBody _ _ _ :: _, _, _, ⟨hle, hend, pad, h⟩ =>
    have ⟨m, ctx₁, hpre, hpost⟩ := Sited.split h
    ⟨m, ctx₁, ⟨hle, hend, pad, hpre⟩, hpost⟩
  | .tryPart _ :: _, _, _, ⟨hle, ctx₀, hagrees, h⟩ =>
    have ⟨m, ctx₁, hpre, hpost⟩ := Sited.split h
    ⟨m, ctx₁, ⟨hle, ctx₀, hagrees, hpre⟩, hpost⟩

theorem Sited.currentLoop (h : Sited P n ctx sites ctx') :
    ctx'.currentLoop = (loopOf sites).or ctx.currentLoop := by
  unfold loopOf
  induction sites generalizing n ctx with
  | nil =>
    cases h
    rfl
  | cons s sites ih =>
    rw [List.reverse_cons, List.findSome?_append, Option.or_assoc]
    cases s with
    | other =>
      obtain ⟨ctx₁, hagrees, h⟩ := h
      rw [ih h, hagrees.2]
      rfl
    | loopBody l =>
      have h : Sited P n (ctx.pushLoop l) sites ctx' := h
      rw [ih h]
      rfl
    | tryBody f k finallyEnd =>
      obtain ⟨-, -, pad, h⟩ := h
      rw [ih h]
      rfl
    | tryPart f =>
      obtain ⟨-, ctx₁, hagrees, h⟩ := h
      rw [ih h, hagrees.2]
      rfl

theorem Sited.nearestFinallyTry (h : Sited P n ctx sites ctx') :
    ctx'.nearestFinallyTry = (sites.reverse.findSome? Site.entry?).or ctx.nearestFinallyTry := by
  induction sites generalizing n ctx with
  | nil =>
    cases h
    rfl
  | cons s sites ih =>
    rw [List.reverse_cons, List.findSome?_append, Option.or_assoc]
    cases s with
    | other =>
      obtain ⟨ctx₁, hagrees, h⟩ := h
      rw [ih h, hagrees.1]
      rfl
    | loopBody l =>
      have h : Sited P n (ctx.pushLoop l) sites ctx' := h
      rw [ih h]
      rfl
    | tryBody f k finallyEnd =>
      obtain ⟨-, -, pad, h⟩ := h
      rw [ih h]
      rfl
    | tryPart f =>
      obtain ⟨-, ctx₁, hagrees, h⟩ := h
      rw [ih h, hagrees.1]
      rfl

/-- Different `try` statements have different `finally` blocks. -/
theorem Sited.sorted (h : Sited P n ctx sites ctx') :
    (sites.filterMap Site.finally?).Pairwise (· < ·) ∧ ∀ f ∈ sites.filterMap Site.finally?, n ≤ f := by
  induction sites generalizing n ctx with
  | nil => exact ⟨.nil, fun f hf => by cases hf⟩
  | cons s sites ih =>
    cases s with
    | other =>
      obtain ⟨ctx₁, -, h⟩ := h
      exact ih h
    | loopBody l =>
      have h : Sited P n (ctx.pushLoop l) sites ctx' := h
      exact ih h
    | tryBody f k finallyEnd =>
      obtain ⟨hle, -, pad, h⟩ := h
      obtain ⟨hpair, hge⟩ := ih h
      refine ⟨List.pairwise_cons.mpr ⟨fun g hg => hge g hg, hpair⟩, ?_⟩
      intro g hg
      rcases List.mem_cons.mp hg with rfl | hg
      · exact hle
      · exact Nat.le_trans hle (Nat.le_of_lt (hge g hg))
    | tryPart f =>
      obtain ⟨hle, ctx₁, -, h⟩ := h
      obtain ⟨hpair, hge⟩ := ih h
      refine ⟨List.pairwise_cons.mpr ⟨fun g hg => hge g hg, hpair⟩, ?_⟩
      intro g hg
      rcases List.mem_cons.mp hg with rfl | hg
      · exact hle
      · exact Nat.le_trans hle (Nat.le_of_lt (hge g hg))

/-- A `finally` block belongs to one site. -/
theorem site_unique : ∀ {sites : List Site} {s s' : Site} {f : Nat}, (sites.filterMap Site.finally?).Pairwise (· < ·) →
    s ∈ sites → s' ∈ sites → s.finally? = some f → s'.finally? = some f → s = s'
  | x :: sites, s, s', f, hpair, hs, hs', hf, hf' => by
    have hrest : (sites.filterMap Site.finally?).Pairwise (· < ·) := by
      rw [List.filterMap_cons] at hpair
      split at hpair
      next => exact hpair
      next => exact (List.pairwise_cons.mp hpair).2
    -- a site that shares the block of the first one
    have hfirst : ∀ y ∈ sites, y.finally? = some f → x.finally? = some f → False := by
      intro y hy hyf hxf
      rw [List.filterMap_cons, hxf] at hpair
      have hlt := (List.pairwise_cons.mp hpair).1 f (List.mem_filterMap.mpr ⟨y, hy, hyf⟩)
      omega
    rcases List.mem_cons.mp hs with rfl | hin
    · rcases List.mem_cons.mp hs' with rfl | hin'
      · rfl
      · exact (hfirst s' hin' hf' hf).elim
    · rcases List.mem_cons.mp hs' with rfl | hin'
      · exact (hfirst s hin hf hf').elim
      · exact site_unique hrest hin hin' hf hf'

theorem ending_finally {s : Site} {f : Nat} {p : Point} (h : s.ending? = some (f, p)) :
    s.finally? = some f ∧ ∃ k, s = .tryBody f k (some p) := by
  cases s with
  | tryBody f' k e =>
    cases e with
    | none => cases h
    | some q =>
      cases h
      exact ⟨rfl, k, rfl⟩
  | other => cases h
  | loopBody l => cases h
  | tryPart f' => cases h

theorem mem_of_lookup {α : Type} : ∀ {l : List (Nat × α)} {k : Nat} {v : α}, l.lookup k = some v → (k, v) ∈ l
  | (k', v') :: l, k, v, h => by
    rw [List.lookup_cons] at h
    split at h
    next heq =>
      cases h
      rw [beq_iff_eq.mp heq]
      exact List.mem_cons_self
    next => exact List.mem_cons_of_mem _ (mem_of_lookup h)

theorem lookup_isSome_of_mem {α : Type} : ∀ {l : List (Nat × α)} {k : Nat} {v : α}, (k, v) ∈ l →
    ∃ v', l.lookup k = some v'
  | (k', v') :: l, k, v, h => by
    rw [List.lookup_cons]
    split
    next => exact ⟨v', rfl⟩
    next hne =>
      rcases List.mem_cons.mp h with h | h
      · cases h
        simp at hne
      · exact lookup_isSome_of_mem h

/-- A `finally` block is looked up to the end of its own body. -/
theorem lookup_ends {f k : Nat} {finallyEnd : Option Point} (hpair : (sites.filterMap Site.finally?).Pairwise (· < ·))
    (hmem : .tryBody f k finallyEnd ∈ sites) : (ends sites).lookup f = finallyEnd := by
  have hfound : ∀ p, (ends sites).lookup f = some p → finallyEnd = some p := by
    intro p hp
    obtain ⟨s, hs, hend⟩ := List.mem_filterMap.mp (mem_of_lookup hp)
    obtain ⟨hf, k', rfl⟩ := ending_finally hend
    cases site_unique hpair hmem hs rfl hf
    rfl
  cases hlookup : (ends sites).lookup f with
  | some p => exact (hfound p hlookup).symm
  | none =>
    cases finallyEnd with
    | none => rfl
    | some p =>
      obtain ⟨q, hq⟩ := lookup_isSome_of_mem (l := ends sites) (k := f) (v := p)
        (List.mem_filterMap.mpr ⟨_, hmem, rfl⟩)
      rw [hq] at hlookup
      cases hlookup

end

/-! ## The code at a point -/

section
variable {P : Nat → List Instr}

theorem Placed.get {B : Builder} {i : Instr} (hP : Placed (B.emit i) P) : (P B.point.1)[B.point.2]? = some i := by
  obtain ⟨rest, hrest⟩ := hP B.cur
  rw [emit_code_cur] at hrest
  show (P B.cur)[(B.code B.cur).length]? = _
  rw [← hrest]
  simp

theorem emit_point (B : Builder) (i : Instr) : (B.emit i).point = (B.point.1, B.point.2 + 1) := by
  show (B.cur, ((B.emit i).code B.cur).length) = _
  rw [emit_code_cur, List.length_append]
  rfl

/-- The switch at the end of a `finally` body, and the branches to the blocks of the loop. -/
theorem dispatch_code {ctx : Ctx} {slot mergeBb reraiseBb : Nat} {B : Builder} (hwf : B.WF)
    (hP : Placed (emitFinallyDispatch ctx slot mergeBb reraiseBb B) P) :
    (P B.point.1)[B.point.2]? = some (.switch slot mergeBb (dispatchCases ctx mergeBb reraiseBb B.next)) ∧
    ∀ l, ctx.currentLoop = some l →
      (P (B.next + 1))[0]? = some (.br l.breakBb) ∧ (P (B.next + 2))[0]? = some (.br l.continueBb) := by
  obtain ⟨hswitch, -, -⟩ := run_dispatchBlocks (ω := ⟨fun _ _ => .ok 0, fun _ _ => 0⟩) hwf hP .start
  refine ⟨hswitch.get, fun l hl => ?_⟩
  have hg := ((Grew.refl hwf).createBlocks 3).emit (.switch slot mergeBb (dispatchCases ctx mergeBb reraiseBb B.next))
  have hR := (hwf.reserved (k := 3) (R := [B.next, B.next + 1, B.next + 2]) (by simp)).grew
    ((Grew.refl ((Grew.refl hwf).createBlocks 3).wf).emit
      (.switch slot mergeBb (dispatchCases ctx mergeBb reraiseBb B.next)))
  simp only [emitFinallyDispatch, hl] at hP
  obtain ⟨B₁, hB₁⟩ : ∃ B₁, (B.createBlocks 3).emit (.switch slot mergeBb (dispatchCases ctx mergeBb reraiseBb B.next)) = B₁ :=
    ⟨_, rfl⟩
  have hn₁ : B₁.next = B.next + 3 := by rw [← hB₁, emit_next, createBlocks_next]
  rw [hB₁] at hP hg hR
  have hgr := ((Grew.refl (hg.wf.enter (b := B.next) (by omega))).emit (.loadRet slot)).emit .ret
  have hR₂ := (hR.enter (Q := [B.next + 1, B.next + 2]) B.next (by simp)).grew hgr
  have hwb := hgr.wf.enter (b := B.next + 1) (by simp only [emit_next, setInsertPoint_next]; omega)
  have hgb := (Grew.refl hwb).emit (.br l.breakBb)
  have hR₃ := (hR₂.enter (Q := [B.next + 2]) (B.next + 1) (by simp)).grew hgb
  have hwc := hgb.wf.enter (b := B.next + 2) (by simp only [emit_next, setInsertPoint_next]; omega)
  have hPb : Placed _ P := ((Grew.refl hwc).emit (.br l.continueBb)).placed hP
  have hbreak := hPb.get
  have hcontinue := hP.get
  simp only [Builder.point, setInsertPoint_cur, setInsertPoint_code] at hbreak hcontinue
  rw [(hR₂ (B.next + 1) (by simp)).2.2] at hbreak
  rw [(hR₃ (B.next + 2) (by simp)).2.2] at hcontinue
  exact ⟨hbreak, hcontinue⟩

theorem dispatchCases_lookup (e : LoopExit) (ctx : Ctx) (mergeBb reraiseBb returnBb : Nat) :
    (dispatchCases ctx mergeBb reraiseBb returnBb).lookup e.state =
      ctx.currentLoop.map fun _ => returnBb + (e.state - 2) := by
  unfold dispatchCases
  cases ctx.currentLoop with
  | none => cases e <;> rfl
  | some l => cases e <;> rfl

end

/-! ## The condition -/

theorem filterMap_finally (l : List Site) :
    l.filterMap Site.finally? = (l.filter (·.part.isFinally)).filterMap Site.finally? := by
  induction l with
  | nil => rfl
  | cons s l ih =>
    cases s with
    | other => exact ih
    | loopBody l' => exact ih
    | tryBody f k e => exact congrArg (f :: ·) ih
    | tryPart f => exact congrArg (f :: ·) ih

theorem reverse_takeWhile_part (sites : List Site) :
    ((sites.map Site.part).reverse.takeWhile (!·.isLoop)).filter Part.isFinally =
      ((sites.reverse.takeWhile (!·.part.isLoop)).filter (·.part.isFinally)).map Site.part := by
  rw [← List.map_reverse, List.takeWhile_map, List.filter_map]
  rfl

theorem any_isLoop (sites : List Site) : (sites.map Site.part).any Part.isLoop = (loopOf sites).isSome := by
  unfold loopOf
  rw [List.any_map, Bool.eq_iff_iff, List.any_eq_true, List.findSome?_isSome_iff]
  constructor
  · intro h
    obtain ⟨s, hs, hloop⟩ := h
    refine ⟨s, List.mem_reverse.mpr hs, ?_⟩
    cases s <;> simp_all [Site.part, Part.isLoop, Site.loop?]
  · intro h
    obtain ⟨s, hs, hloop⟩ := h
    refine ⟨s, List.mem_reverse.mp hs, ?_⟩
    cases s <;> simp_all [Site.part, Part.isLoop, Site.loop?]

theorem any_isTryBody (sites : List Site) :
    (sites.map Site.part).any Part.isTryBody = (sites.reverse.findSome? Site.entry?).isSome := by
  rw [List.any_map, Bool.eq_iff_iff, List.any_eq_true, List.findSome?_isSome_iff]
  constructor
  · intro h
    obtain ⟨s, hs, htry⟩ := h
    refine ⟨s, List.mem_reverse.mpr hs, ?_⟩
    cases s <;> simp_all [Site.part, Part.isTryBody, Site.entry?]
  · intro h
    obtain ⟨s, hs, htry⟩ := h
    refine ⟨s, List.mem_reverse.mp hs, ?_⟩
    cases s <;> simp_all [Site.part, Part.isTryBody, Site.entry?]

section
variable {e : LoopExit} {P : Nat → List Instr} {ctx₀ ctx : Ctx} {B B' : Builder}

theorem loopExit_direct (h : genLoopExit e.state e.target ctx B = some B') (hP : Placed B' P)
    (hnone : ctx.nearestFinallyTry = none) :
    ∃ l, ctx.currentLoop = some l ∧ (P B.point.1)[B.point.2]? = some (.br (e.target l)) := by
  unfold genLoopExit at h
  rw [hnone] at h
  obtain ⟨l, hl, rfl⟩ := Option.map_eq_some_iff.mp h
  exact ⟨l, hl, hP.get⟩

theorem loopExit_finally (hwf : B.WF) (h : genLoopExit e.state e.target ctx B = some B') (hP : Placed B' P) {f k : Nat}
    (hsome : ctx.nearestFinallyTry = some (f, k)) :
    (P B.point.1)[B.point.2]? = some (.storeState k e.state) ∧ (P B.point.1)[B.point.2 + 1]? = some (.br f) := by
  unfold genLoopExit at h
  rw [hsome] at h
  cases h
  have hstore := (((Grew.refl ((Grew.refl hwf).emit (.storeState k e.state)).wf).emit (.br f)).placed hP).get
  have hbr := hP.get
  rw [emit_point] at hbr
  exact ⟨hstore, hbr⟩

theorem Through.of_br {state : Nat} {ends : List (Nat × Point)} {p : Point} {fs : List Nat} {t t' : Nat}
    (h : Through P state ends p fs t) (hbr : (P p.1)[p.2]? = some (.br t')) : fs = [] ∧ t = t' := by
  cases h with
  | br h =>
    rw [hbr] at h
    cases h
    exact ⟨rfl, rfl⟩
  | finally_ hstore =>
    rw [hbr] at hstore
    cases hstore

/-- One step of a route that starts with a store. -/
theorem Through.of_store {state : Nat} {ends : List (Nat × Point)} {p : Point} {fs : List Nat} {t k f : Nat}
    (h : Through P state ends p fs t) (hstore : (P p.1)[p.2]? = some (.storeState k state))
    (hbr : (P p.1)[p.2 + 1]? = some (.br f)) :
    ∃ fs' q k' dflt cases t', fs = f :: fs' ∧ ends.lookup f = some q ∧
      (P q.1)[q.2]? = some (.switch k' dflt cases) ∧ cases.lookup state = some t' ∧
      Through P state ends (t', 0) fs' t := by
  cases h with
  | br h =>
    rw [hstore] at h
    cases h
  | finally_ hstore' hbr' hend hswitch hcase hrest =>
    rw [hbr] at hbr'
    cases hbr'
    exact ⟨_, _, _, _, _, _, rfl, hend, hswitch, hcase, hrest⟩

/-- The statement takes the way it should: to the innermost loop, through the `finally` bodies between. -/
def Reaches (e : LoopExit) (P : Nat → List Instr) (sites : List Site) (p : Point) : Prop :=
  ∃ l, loopOf sites = some l ∧ Through P e.state (ends sites) p (between sites) (e.target l)

/-- No `finally` between: right if and only if no `try` at all is around, of an enclosing function either. -/
theorem reaches_of_none {sites : List Site} {n : Nat} (hs : Sited P n ctx₀ sites ctx) (hwf : B.WF)
    (h : genLoopExit e.state e.target ctx B = some B') (hP : Placed B' P) (hbetween : between sites = []) :
    Reaches e P sites B.point ↔ (loopOf sites).isSome = true ∧
      (sites.reverse.findSome? Site.entry?).isSome = false ∧ ctx₀.nearestFinallyTry.isSome = false := by
  have hnear := congrArg Option.isSome hs.nearestFinallyTry
  have hloop := hs.currentLoop
  rw [Option.isSome_or] at hnear
  unfold Reaches
  rw [hbetween, ← Bool.or_eq_false_iff, ← hnear]
  cases hn : ctx.nearestFinallyTry with
  | none =>
    obtain ⟨l, hl, hcode⟩ := loopExit_direct h hP hn
    cases hown : loopOf sites with
    | none =>
      constructor
      · intro h
        obtain ⟨l', hl', -⟩ := h
        cases hl'
      · intro h
        cases h.1
    | some l' =>
      rw [hown, Option.some_or, hl] at hloop
      cases hloop
      exact ⟨fun _ => ⟨rfl, rfl⟩, fun _ => ⟨l, rfl, .br hcode⟩⟩
  | some fk =>
    obtain ⟨hstore, hbr⟩ := loopExit_finally hwf h hP hn
    constructor
    · intro h
      obtain ⟨l, -, hthrough⟩ := h
      obtain ⟨_, _, _, _, _, _, heq, -⟩ := hthrough.of_store hstore hbr
      cases heq
    · intro h
      obtain ⟨-, hfalse⟩ := h
      cases hfalse

theorem findSome?_none_of_part {α : Type} {g : Site → Option α} {l : List Site} (h : ∀ s ∈ l, g s = none) :
    l.findSome? g = none := List.findSome?_eq_none_iff.mpr h

/-- The innermost `try` between has the statement in its body: right if and only if it is the only one and its
`finally` body has an end. -/
theorem reaches_of_tryBody {pre post : List Site} {n f k : Nat} {finallyEnd : Option Point}
    (hs : Sited P n ctx₀ (pre ++ .tryBody f k finallyEnd :: post) ctx) (hwf : B.WF)
    (h : genLoopExit e.state e.target ctx B = some B') (hP : Placed B' P) {fs : List Nat}
    (hloops : ∀ s ∈ post, s.loop? = none) (htries : ∀ s ∈ post, s.entry? = none)
    (hbetween : between (pre ++ .tryBody f k finallyEnd :: post) = f :: fs) :
    Reaches e P (pre ++ .tryBody f k finallyEnd :: post) B.point ↔
      (loopOf (pre ++ .tryBody f k finallyEnd :: post)).isSome = true ∧ fs = [] ∧ finallyEnd.isSome = true := by
  have hnear := hs.nearestFinallyTry
  have hsorted := hs.sorted.1
  have hlookup := @lookup_ends _ f k finallyEnd hsorted (by simp)
  have hloop : loopOf (pre ++ .tryBody f k finallyEnd :: post) = loopOf pre := by
    unfold loopOf
    rw [List.reverse_append, List.reverse_cons, List.append_assoc, List.findSome?_append,
      findSome?_none_of_part fun s hs => hloops s (List.mem_reverse.mp hs)]
    rfl
  rw [List.reverse_append, List.reverse_cons, List.append_assoc, List.findSome?_append,
    findSome?_none_of_part fun s hs => htries s (List.mem_reverse.mp hs)] at hnear
  obtain ⟨hstore, hbr⟩ := loopExit_finally (f := f) (k := k) hwf h hP hnear
  -- the context of the `try`, in which its dispatch was emitted
  obtain ⟨m, ctx₁, hpre, hpost⟩ := hs.split
  obtain ⟨-, hend, -⟩ := hpost
  have hloop₁ (l : LoopContext) (hl : loopOf pre = some l) : ctx₁.currentLoop = some l := by
    rw [hpre.currentLoop, hl, Option.some_or]
  unfold Reaches
  rw [hbetween, hloop]
  constructor
  · intro h
    obtain ⟨l, hown, hthrough⟩ := h
    have hl := hloop₁ l hown
    obtain ⟨fs', q, k', dflt, cases, t', heq, hq, hswitch, hcase, hrest⟩ := hthrough.of_store hstore hbr
    cases heq
    rw [hlookup] at hq
    obtain ⟨Bf, mergeBb, reraiseBb, rfl, hwff, hPf⟩ := hend q hq
    obtain ⟨hcode, hblocks⟩ := dispatch_code hwff hPf
    rw [hcode] at hswitch
    cases hswitch
    rw [dispatchCases_lookup, hl] at hcase
    cases hcase
    have hfs : fs = [] := by
      cases e with
      | brk => exact (hrest.of_br (hblocks l hl).1).1
      | cont => exact (hrest.of_br (hblocks l hl).2).1
    exact ⟨by rw [hown]; rfl, hfs, by rw [hq]; rfl⟩
  · intro h
    obtain ⟨hown, rfl, hsome⟩ := h
    obtain ⟨l, hown⟩ := Option.isSome_iff_exists.mp hown
    have hl := hloop₁ l hown
    obtain ⟨q, hq⟩ := Option.isSome_iff_exists.mp hsome
    obtain ⟨Bf, mergeBb, reraiseBb, rfl, hwff, hPf⟩ := hend q hq
    obtain ⟨hcode, hblocks⟩ := dispatch_code hwff hPf
    have hcase : (dispatchCases ctx₁ mergeBb reraiseBb Bf.next).lookup e.state = some (Bf.next + (e.state - 2)) := by
      rw [dispatchCases_lookup, hl]
      rfl
    refine ⟨l, hown, .finally_ hstore hbr (hlookup.trans hq) hcode hcase ?_⟩
    cases e with
    | brk => exact .br (hblocks l hl).1
    | cont => exact .br (hblocks l hl).2

/-- The innermost `try` between has the statement in a handler or its `else`: its `finally` body is left out. -/
theorem not_reaches_of_tryPart {sites : List Site} {n f : Nat} (hs : Sited P n ctx₀ sites ctx) (hwf : B.WF)
    (h : genLoopExit e.state e.target ctx B = some B') (hP : Placed B' P) (hmem : .tryPart f ∈ sites) {fs : List Nat}
    (hbetween : between sites = f :: fs) : ¬Reaches e P sites B.point := by
  intro h
  obtain ⟨l, -, hthrough⟩ := h
  rw [hbetween] at hthrough
  cases hn : ctx.nearestFinallyTry with
  | none =>
    obtain ⟨l', -, hcode⟩ := loopExit_direct h hP hn
    cases (hthrough.of_br hcode).1
  | some fk =>
    obtain ⟨hstore, hbr⟩ := loopExit_finally hwf h hP hn
    obtain ⟨_, q, _, _, _, _, heq, hend, -⟩ := hthrough.of_store hstore hbr
    cases heq
    -- the `finally` body that is entered would be that of a `try` with the same block
    obtain ⟨s, hsmem, hs'⟩ := List.mem_filterMap.mp (mem_of_lookup hend)
    obtain ⟨hf, k, rfl⟩ := ending_finally hs'
    cases site_unique hs.sorted.1 hmem hsmem rfl hf

end

/-- **`break` and `continue` reach the innermost loop through exactly the `finally` bodies between if and only if the
parts around them are as `exitOk` says**, in a function whose definition stands in any context. -/
theorem loopExit_reaches_iff (e : LoopExit) (f : Body) {ctx₀ : Ctx} {B₀ B₁ : Builder} {P : Nat → List Instr} (hwf₀ : B₀.WF)
    (h : genFunction ctx₀ f B₀ = some B₁) (hP₁ : Placed B₁ P) :
    ∀ path ∈ f.places e, ∃ sites ctx B B', sites.map Site.part = path ∧ Sited P (B₀.next + 1) ctx₀ sites ctx ∧
      genLoopExit e.state e.target ctx B = some B' ∧ Placed B' P ∧
      (Reaches e P sites B.point ↔ exitOk ctx₀.nearestFinallyTry.isSome path = true) := by
  intro path hmem
  obtain ⟨Bf, hf, rfl⟩ := Option.map_eq_some_iff.mp h
  have hg := f.gen_grows ctx₀ _ _ hwf₀.enterNew hf
  have hPf : Placed Bf P := by
    split at hP₁
    next => exact hP₁
    next => exact (((Grew.refl hg.wf).runtimeCall ctx₀ .none).emit .ret).placed hP₁
  have hempty : ((B₀.createBlocks 1).setInsertPoint B₀.next).code B₀.next = [] := hwf₀.fresh _ (Nat.le_refl _)
  obtain ⟨sites, ctx, B, B', rfl, hs, hwf, hgen, hP⟩ := f.hasExits e P hf hwf₀.enterNew (open_of_empty hempty) hPf hmem
  refine ⟨sites, ctx, B, B', rfl, hs, hgen, hP, ?_⟩
  unfold exitOk
  rw [reverse_takeWhile_part, any_isLoop, any_isTryBody]
  have hbetween : between sites = _ := filterMap_finally _
  cases hG : (sites.reverse.takeWhile (!·.part.isLoop)).filter (·.part.isFinally) with
  | nil =>
    rw [hG] at hbetween
    rw [reaches_of_none hs hwf hgen hP hbetween]
    simp
  | cons s G =>
    rw [hG] at hbetween
    obtain ⟨l₁, l₂, hinner, hl₁, hfin, hrest⟩ := List.filter_eq_cons_iff.mp hG
    cases s with
    | other => cases hfin
    | loopBody l => cases hfin
    | tryPart f' =>
      have hmem' : .tryPart f' ∈ sites := by
        have hin : Site.tryPart f' ∈ sites.reverse.takeWhile (!·.part.isLoop) := by simp [hinner]
        exact List.mem_reverse.mp (List.takeWhile_subset _ hin)
      have hnot := not_reaches_of_tryPart hs hwf hgen hP hmem' hbetween
      simp [hnot, Site.part]
    | tryBody f' k finallyEnd =>
      obtain ⟨outer, hsites⟩ : ∃ outer, sites = outer ++ .tryBody f' k finallyEnd :: l₁.reverse := by
        have hall := List.takeWhile_append_dropWhile (p := (!·.part.isLoop)) (l := sites.reverse)
        rw [hinner] at hall
        generalize sites.reverse.dropWhile (!·.part.isLoop) = D at hall
        refine ⟨(l₂ ++ D).reverse, ?_⟩
        rw [← List.reverse_reverse sites, ← hall]
        simp
      have hnoLoop : ∀ s ∈ l₁.reverse, s.loop? = none := by
        intro s hsmem
        have hin : s ∈ sites.reverse.takeWhile (!·.part.isLoop) := by
          rw [hinner]
          exact List.mem_append_left _ (List.mem_reverse.mp hsmem)
        have hnot := List.all_eq_true.mp List.all_takeWhile s hin
        cases s <;> simp_all [Site.part, Part.isLoop, Site.loop?]
      have hnoTry : ∀ s ∈ l₁.reverse, s.entry? = none := by
        intro s hsmem
        have hnot := hl₁ s (List.mem_reverse.mp hsmem)
        cases s <;> simp_all [Site.part, Part.isFinally, Site.entry?]
      rw [hsites] at hs hbetween ⊢
      rw [reaches_of_tryBody hs hwf hgen hP hnoLoop hnoTry hbetween]
      cases G with
      | nil => simp [Site.part]
      | cons x G =>
        -- a second `finally` body between
        have hx : x.part.isFinally = true := by
          have hin : x ∈ l₂.filter (·.part.isFinally) := by simp [hrest]
          exact (List.mem_filter.mp hin).2
        cases x with
        | other => cases hx
        | loopBody l => cases hx
        | tryBody f'' k' e' => simp [Site.part, Site.finally?]
        | tryPart f'' => simp [Site.part, Site.finally?]

/-- In `breakThroughFinally`, the `break` goes through its `finally` body to the loop. -/
theorem loopExit_reaches_iff_breakThroughFinally :
    ∃ B₁ sites ctx B B', genFunction .top breakThroughFinally .entry = some B₁ ∧
      sites.map Site.part = [.loopBody, .tryBody true] ∧ Sited B₁.code 2 .top sites ctx ∧
      genLoopExit LoopExit.brk.state LoopExit.brk.target ctx B = some B' ∧ Placed B' B₁.code ∧
      Reaches .brk B₁.code sites B.point := by
  obtain ⟨B₁, hB₁⟩ := Option.isSome_iff_exists.mp
    (show (genFunction .top breakThroughFinally .entry).isSome = true by decide +kernel)
  obtain ⟨sites, ctx, B, B', hpath, hs, hgen, hplaced, hiff⟩ :=
    loopExit_reaches_iff .brk breakThroughFinally entry_wf hB₁ (fun _ => List.prefix_refl _) [.loopBody, .tryBody true]
      (by decide)
  exact ⟨B₁, sites, ctx, B, B', hB₁, hpath, hs, hgen, hplaced, hiff.mpr (by decide)⟩

/-- `try: (while 1(): break); 2()`, `finally: 3()`, then `return 4()`. -/
def loopInTry : Body :=
  .cons (.tryS (.cons (.whileS ⟨[1], 0⟩ (.cons .brk .nil) .nil) (.cons (callS 2) .nil)) .nil .nil
    (.cons (callS 3) .nil)) (.cons (.ret ⟨[4], 0⟩) .nil)

/-- The `break` runs the `finally` body around the loop and goes on behind the `try`: 2 is not called. -/
theorem loopInTry_break_leaves_try : ∃ B, genFunction .top loopInTry .entry = some B ∧
    HaltsWith (step (raising []) B.code) (State.start.goto 1) (.returned 4 [4, 3, 1]) ∧
    callFunction (raising []) 1 loopInTry = (some (.ret 4), [4, 3, 2, 1]) ∧
    loopInTry.places .brk = [[.tryBody true, .loopBody]] ∧ exitOk false [.tryBody true, .loopBody] = false ∧
    ¬Meets (raising []) B.code 1 (callFunction (raising []) 1 loopInTry) := by
  obtain ⟨B, hB⟩ := Option.isSome_iff_exists.mp (show (genFunction .top loopInTry .entry).isSome = true by decide +kernel)
  have hrun : ((genFunction .top loopInTry .entry).map fun B =>
      (runFor (step (raising []) B.code) 100 (State.start.goto 1)).getRight?) = some (some (.returned 4 [4, 3, 1])) := by
    decide +kernel
  rw [hB, Option.map_some, Option.some.injEq, Sum.getRight?_eq_some_iff] at hrun
  have hhalts := HaltsWith.of_runFor hrun
  have hpython : callFunction (raising []) 1 loopInTry = (some (.ret 4), [4, 3, 2, 1]) := by decide
  refine ⟨B, hB, hhalts, hpython, by decide, by decide, fun hmeets => ?_⟩
  rw [hpython] at hmeets
  cases HaltsWith.unique hhalts hmeets

end Pylang.Aot
