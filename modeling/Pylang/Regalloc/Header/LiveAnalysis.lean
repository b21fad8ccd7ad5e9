/-
`LiveAnalysis.hpp`: liveness by backward dataflow over the blocks. A block's
`live_in` is what it uses before defining it, what its successors need and it
does not define, and the outputs its terminator forwards; the blocks are gone
through last first until nothing changes. A timestep then lists what is alive
before its operation, and the operation's results (no operation of the dialect
that has results is pure).
-/
import Pylang.Regalloc.BlockArguments

namespace Pylang.Regalloc.Header

/-- `BlockInfo`, as `build_block_info` leaves it. -/
structure BlockInfo where
  use : List Var
  defs : List Var
  operations : List Operation
  forwardedOutputs : List Var
  successors : List BlockId

/-- One operation's operands and results, for `use` and `def`. -/
def useDef (s : List Var × List Var) (o : Operation) : List Var × List Var :=
  (Lib.setUnion s.1 ((o.allOperands.map Var.value).filter (· ∉ s.2)), Lib.setUnion s.2 (o.results.map .value))

/-- `handle_terminator`: the output a `FOR_ITER` forwards. -/
def forwardedOutputs (blk : Block) : List Var :=
  match blk.ops.getLast? with
  | some o => if o.kind = .forIter then [.forwarded o.id 0] else []
  | none => []

def buildBlockInfo (blk : Block) : BlockInfo :=
  let (use, defs) := blk.ops.foldl useDef ([], [])
  ⟨use, defs, blk.ops, forwardedOutputs blk, (blk.ops.getLast?.map (·.successors.map Prod.fst)).getD []⟩

/-- `llvm::zip` of forwarded operands and block arguments, as long as the shorter. -/
def zipArguments (fn : Func) (b : BlockId) (vs : List Value) : List (Var × Value) :=
  (vs.map .value).zip ((fn.blocks[b]?.map (·.args)).getD [])

/-- `handle_terminator`: the entries it adds to `block_parameters_to_args`. -/
def handleTerminator (fn : Func) (blk : Block) : Option (List (Var × Value)) :=
  match blk.ops.getLast? with
  | none => some []
  | some o =>
    match o.kind, o.successors with
    | .jumpIfFalse, [(t, ts), (f, fs)] => some (zipArguments fn t ts ++ zipArguments fn f fs)
    | .branch, [(b, vs)] => some (zipArguments fn b vs)
    | .forIter, (body, _) :: _ =>
      match fn.blocks[body]? with
      | some ⟨arg :: _, _⟩ => some [(.forwarded o.id 0, arg)]
      | _ => none
    | .jumpIfFalse, _ | .branch, _ | .forIter, _ => none
    | _, _ => some []

def blockParametersToArgs (fn : Func) : Option (List (Var × Value)) :=
  (fn.blocks.mapM (handleTerminator fn)).map List.flatten

/-- `live_in` and `live_out` of every block. -/
structure Liveness where
  liveIn : List (List Var)
  liveOut : List (List Var)

/-- `LiveOut[B]` from the `LiveIn` of the successors. -/
def BlockInfo.liveOut (i : BlockInfo) (liveIn : List (List Var)) : List Var :=
  i.successors.foldl (fun acc b => Lib.setUnion acc (liveIn[b]?.getD [])) []

/-- `LiveIn[B]` from `LiveOut[B]`. -/
def BlockInfo.liveIn (i : BlockInfo) (liveOut : List Var) : List Var :=
  Lib.setUnion (Lib.setUnion i.use (liveOut.filter (· ∉ i.defs))) i.forwardedOutputs

/-- One block of one iteration. -/
def updateBlock (s : Liveness) (i : BlockInfo × BlockId) : Liveness :=
  let out := i.1.liveOut s.liveIn
  ⟨s.liveIn.set i.2 (i.1.liveIn out), s.liveOut.set i.2 out⟩

/-- One iteration: the blocks, last first. -/
def iteration (infos : List BlockInfo) (s : Liveness) : Liveness := infos.zipIdx.reverse.foldl updateBlock s

/-- `while (changed)`. -/
def computeLiveness (infos : List BlockInfo) : Nat → Liveness → Option Liveness
  | 0, _ => none
  | fuel + 1, s =>
    let s' := iteration infos s
    if s'.liveIn = s.liveIn then some s' else computeLiveness infos fuel s'

/-- Every block's sets are empty before the first iteration. -/
def Liveness.init (fn : Func) : Liveness := ⟨fn.blocks.map fun _ => [], fn.blocks.map fun _ => []⟩

/-- As many iterations as values can be added to the sets, and one that adds none. -/
def livenessFuel (fn : Func) : Nat := fn.blocks.length * (fn.ops.flatMap (·.mentions)).length + 1

/-- `alive_before_op`, from the last operation to the first. -/
def aliveBefore (liveOut : List Var) : List Operation → List (List Var)
  | [] => []
  | o :: ops =>
    let later := aliveBefore liveOut ops
    let aliveAfter := (later.head?).getD liveOut
    Lib.setUnion (aliveAfter.filter (· ∉ o.results.map Var.value)) (o.allOperands.map .value) :: later

/-- `alive_before_op` with the results of the operations added. -/
def withResults (ops : List Operation) (alive : List (List Var)) : List (List Var) :=
  ops.zipWith (fun o xs => Lib.setUnion xs (o.results.map .value)) alive

/-- The forwarded outputs, at the first operation. -/
def withForwarded (liveIn fwds : List Var) : List (List Var) → List (List Var)
  | [] => []
  | xs :: l => Lib.setUnion xs (fwds.filter (· ∈ liveIn)) :: l

/-- One block of `build_timesteps`. -/
def blockTimesteps (i : BlockInfo) (liveIn liveOut : List Var) : List (List Var) :=
  withForwarded liveIn i.forwardedOutputs (withResults i.operations (aliveBefore liveOut i.operations))

def buildTimesteps (fn : Func) (s : Liveness) : List (List Var) :=
  fn.blocks.zipIdx.flatMap fun (blk, b) =>
    blockTimesteps (buildBlockInfo blk) (s.liveIn[b]?.getD []) (s.liveOut[b]?.getD [])

/-- The timesteps, before block arguments are propagated. -/
def timesteps (fn : Func) : Option (List (List Var)) :=
  (computeLiveness (fn.blocks.map buildBlockInfo) (livenessFuel fn) (.init fn)).map (buildTimesteps fn)

def LiveAnalysis.analyse (fn : Func) : Option LiveAnalysis := do
  let params ← blockParametersToArgs fn
  let base ← timesteps fn
  LiveAnalysis.ofTimesteps fn base params

/-! ## What a timestep lists -/

/-- A timestep lists its operation's operands and results. -/
def ListsOperation (o : Operation) (xs : List Var) : Prop :=
  (∀ v ∈ o.allOperands, Var.value v ∈ xs) ∧ ∀ v ∈ o.results, Var.value v ∈ xs

theorem aliveBefore_operands (liveOut : List Var) : ∀ ops : List Operation,
    List.Forall₂ (fun o xs => ∀ v ∈ o.allOperands, Var.value v ∈ xs) ops (aliveBefore liveOut ops)
  | [] => .nil
  | _ :: ops =>
    .cons (fun _ hv => Lib.mem_setUnion.mpr (.inr (List.mem_map_of_mem hv))) (aliveBefore_operands liveOut ops)

theorem withResults_lists {ops : List Operation} {alive : List (List Var)}
    (h : List.Forall₂ (fun o xs => ∀ v ∈ o.allOperands, Var.value v ∈ xs) ops alive) :
    List.Forall₂ ListsOperation ops (withResults ops alive) := by
  induction h with
  | nil => exact .nil
  | cons h _ ih =>
    exact .cons ⟨fun v hv => Lib.mem_setUnion.mpr (.inl (h v hv)),
      fun v hv => Lib.mem_setUnion.mpr (.inr (List.mem_map_of_mem hv))⟩ ih

theorem withForwarded_lists {liveIn fwds : List Var} {ops : List Operation} {alive : List (List Var)}
    (h : List.Forall₂ ListsOperation ops alive) : List.Forall₂ ListsOperation ops (withForwarded liveIn fwds alive) := by
  cases h with
  | nil => exact .nil
  | cons h hrest =>
    exact .cons ⟨fun v hv => Lib.mem_setUnion.mpr (.inl (h.1 v hv)), fun v hv => Lib.mem_setUnion.mpr (.inl (h.2 v hv))⟩
      hrest

theorem buildTimesteps_lists (fn : Func) (s : Liveness) : List.Forall₂ ListsOperation fn.ops (buildTimesteps fn s) := by
  suffices h : ∀ (l : List Block) (n : Nat), List.Forall₂ ListsOperation (l.flatMap (·.ops))
      ((l.zipIdx n).flatMap fun (blk, b) =>
        blockTimesteps (buildBlockInfo blk) (s.liveIn[b]?.getD []) (s.liveOut[b]?.getD [])) from h fn.blocks 0
  intro l
  induction l with
  | nil => exact fun _ => .nil
  | cons blk l ih =>
    intro n
    exact List.rel_append (withForwarded_lists (withResults_lists (aliveBefore_operands _ blk.ops))) (ih (n + 1))

theorem length_iteration {infos : List BlockInfo} {s : Liveness} :
    (iteration infos s).liveIn.length = s.liveIn.length := by
  rw [iteration]
  generalize infos.zipIdx.reverse = l
  induction l generalizing s with
  | nil => rfl
  | cons p l ih => simp only [List.foldl_cons, ih]; simp [updateBlock]

/-- After an iteration, a block's outputs are live where they are forwarded. -/
theorem iteration_forwarded {infos : List BlockInfo} {s : Liveness} (hlen : s.liveIn.length = infos.length) {b : BlockId}
    {i : BlockInfo} (hi : infos[b]? = some i) {x : Var} (hx : x ∈ i.forwardedOutputs) :
    x ∈ ((iteration infos s).liveIn[b]?).getD [] := by
  have hb : b < infos.length := (List.getElem?_eq_some_iff.mp hi).1
  suffices h : ∀ (l : List (BlockInfo × BlockId)) (s : Liveness), s.liveIn.length = infos.length →
      (∀ p ∈ l, infos[p.2]? = some p.1) → ((i, b) ∈ l ∨ x ∈ (s.liveIn[b]?).getD []) →
        x ∈ ((l.foldl updateBlock s).liveIn[b]?).getD [] by
    refine h _ s hlen (fun p hp => ?_) (.inl ?_)
    · exact List.mem_zipIdx_iff_getElem?.mp (List.mem_reverse.mp hp)
    · exact List.mem_reverse.mpr (List.mem_zipIdx_iff_getElem?.mpr hi)
  intro l
  induction l with
  | nil => intro s _ _ h; exact h.resolve_left (by simp)
  | cons p l ih =>
    intro s hlen hl h
    refine ih _ (by simp [updateBlock, hlen]) (fun q hq => hl q (by simp [hq])) ?_
    by_cases hp : p.2 = b
    · -- The block itself: its new set contains what it forwards.
      right
      have hpi : p.1 = i := by
        have := hl p (by simp)
        rw [hp, hi] at this
        exact (Option.some.inj this).symm
      simp [updateBlock, hp, hpi, hlen, hb, BlockInfo.liveIn, hx]
    · rcases h with h | h
      · rcases List.mem_cons.mp h with rfl | h
        · exact absurd rfl hp
        · exact .inl h
      · exact .inr (by simpa [updateBlock, List.getElem?_set_ne hp] using h)

theorem computeLiveness_forwarded {infos : List BlockInfo} : ∀ {fuel : Nat} {s s' : Liveness},
    computeLiveness infos fuel s = some s' → s.liveIn.length = infos.length → ∀ {b : BlockId} {i : BlockInfo},
      infos[b]? = some i → ∀ x ∈ i.forwardedOutputs, x ∈ (s'.liveIn[b]?).getD []
  | fuel + 1, s, s', h, hlen, b, i, hi, x, hx => by
    simp only [computeLiveness] at h
    split at h
    next =>
      cases h
      exact iteration_forwarded hlen hi hx
    next =>
      exact computeLiveness_forwarded h (length_iteration.trans hlen) hi x hx

theorem mem_blockTimesteps_forwarded {i : BlockInfo} {liveIn : List Var} (liveOut : List Var) (hops : i.operations ≠ []) {x : Var}
    (hx : x ∈ i.forwardedOutputs) (hl : x ∈ liveIn) : ∃ xs ∈ blockTimesteps i liveIn liveOut, x ∈ xs := by
  have hf : ∀ {alive : List (List Var)}, alive ≠ [] → ∃ xs ∈ withForwarded liveIn i.forwardedOutputs alive, x ∈ xs
    | xs :: _, _ => ⟨_, List.mem_cons_self, Lib.mem_setUnion.mpr (.inr (List.mem_filter.mpr ⟨hx, by simpa using hl⟩))⟩
  refine hf fun hnil => ?_
  have hlen := (withResults_lists (aliveBefore_operands liveOut i.operations)).length_eq
  rw [hnil] at hlen
  exact hops (List.length_eq_zero_iff.mp hlen)

/-- What a terminator forwards, some timestep lists. -/
theorem mentioned_of_handleTerminator {fn : Func} {s : Liveness} {fuel : Nat}
    (hs : computeLiveness (fn.blocks.map buildBlockInfo) fuel (.init fn) = some s) {blk : Block} (hblk : blk ∈ fn.blocks)
    {ps : List (Var × Value)} (h : handleTerminator fn blk = some ps) {x : Var} {arg : Value} (hm : (x, arg) ∈ ps) :
    Mentioned (buildTimesteps fn s) x := by
  have hoperand : ∀ o ∈ blk.ops, ∀ v ∈ o.allOperands, Mentioned (buildTimesteps fn s) (.value v) := by
    intro o ho v hv
    obtain ⟨xs, hxs, hl⟩ := Lib.forall₂_left (buildTimesteps_lists fn s) (List.mem_flatMap.mpr ⟨blk, hblk, ho⟩)
    exact ⟨xs, hxs, hl.1 v hv⟩
  have hzip : ∀ {b vs}, (x, arg) ∈ zipArguments fn b vs → ∃ v ∈ vs, x = .value v := by
    intro b vs hz
    obtain ⟨v, hv, he⟩ := List.mem_map.mp (List.of_mem_zip hz).1
    exact ⟨v, hv, he.symm⟩
  simp only [handleTerminator] at h
  split at h
  next => cases h; simp at hm
  next o ho =>
    have hmem : o ∈ blk.ops := List.mem_of_getLast? ho
    split at h
    next t ts f fs hk hsucc =>
      cases h
      rcases List.mem_append.mp hm with hm | hm
      · obtain ⟨v, hv, rfl⟩ := hzip hm
        exact hoperand o hmem v (by simp [Operation.allOperands, hsucc, hv])
      · obtain ⟨v, hv, rfl⟩ := hzip hm
        exact hoperand o hmem v (by simp [Operation.allOperands, hsucc, hv])
    next b vs hk hsucc =>
      cases h
      obtain ⟨v, hv, rfl⟩ := hzip hm
      exact hoperand o hmem v (by simp [Operation.allOperands, hsucc, hv])
    next b vs rest hk hsucc =>
      split at h
      next =>
        cases h
        simp only [List.mem_singleton, Prod.mk.injEq] at hm
        obtain ⟨b', hb'⟩ := List.mem_iff_getElem?.mp hblk
        have hfwd : x ∈ (buildBlockInfo blk).forwardedOutputs := by
          simp [buildBlockInfo, forwardedOutputs, ho, hk, hm.1]
        have hlive := computeLiveness_forwarded hs (by simp [Liveness.init]) (i := buildBlockInfo blk) (b := b')
          (by simp [hb']) x hfwd
        obtain ⟨xs, hxs, hx⟩ := mem_blockTimesteps_forwarded ((s.liveOut[b']?).getD [])
          (List.ne_nil_of_mem hmem) hfwd hlive
        exact ⟨xs, List.mem_flatMap.mpr ⟨(blk, b'), List.mem_zipIdx_iff_getElem?.mpr hb', hxs⟩, hx⟩
      next => cases h
    next => cases h
    next => cases h
    next => cases h
    next => cases h; simp at hm

/-- What the header links: forwarded by a terminator, and live in the argument's own block. -/
def Linked (fn : Func) (base : List (List Var)) (x : Var) (arg : Value) : Prop :=
  (∃ blk ∈ fn.blocks, ∃ ps, handleTerminator fn blk = some ps ∧ (x, arg) ∈ ps) ∧ UsedInOwner fn base arg

/-- **The header's live analysis resolves what its dataflow lists.** -/
theorem LiveAnalysis.analyse_resolves {fn : Func} {la : LiveAnalysis} (h : LiveAnalysis.analyse fn = some la) :
    ∃ base, timesteps fn = some base ∧ List.Forall₂ ListsOperation fn.ops base ∧ la.Resolves base (Linked fn base) := by
  simp only [analyse, Option.bind_eq_bind, Option.bind_eq_some_iff] at h
  obtain ⟨params, hparams, base, hbase, h⟩ := h
  refine ⟨base, hbase, ?_⟩
  simp only [timesteps, Option.map_eq_some_iff] at hbase
  obtain ⟨s, hs, rfl⟩ := hbase
  have hmem : ∀ x a, (x, a) ∈ params ↔ ∃ blk ∈ fn.blocks, ∃ ps, handleTerminator fn blk = some ps ∧ (x, a) ∈ ps := by
    intro x a
    simp only [blockParametersToArgs, Option.map_eq_some_iff] at hparams
    obtain ⟨pss, hm, rfl⟩ := hparams
    simp only [List.mem_flatten, Lib.mem_mapM hm]
    constructor
    · intro h
      obtain ⟨ps, ⟨blk, hb, he⟩, hp⟩ := h
      exact ⟨blk, hb, ps, he, hp⟩
    · intro h
      obtain ⟨blk, hb, ps, he, hp⟩ := h
      exact ⟨ps, ⟨blk, hb, he⟩, hp⟩
  have hL : Regalloc.Linked fn (buildTimesteps fn s) params = Linked fn (buildTimesteps fn s) := by
    funext x arg
    simp [Regalloc.Linked, Linked, hmem]
  refine ⟨buildTimesteps_lists fn s, hL ▸ LiveAnalysis.resolves h fun x arg hx => ?_⟩
  obtain ⟨blk, hb, ps, hps, hm⟩ := (hmem x arg).mp hx
  exact mentioned_of_handleTerminator hs hb hps hm

end Pylang.Regalloc.Header
