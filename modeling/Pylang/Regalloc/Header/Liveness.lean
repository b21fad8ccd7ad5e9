/-
What the dataflow of `LiveAnalysis.hpp` computes. `compute_liveness` ends, and
in the least solution of the liveness equations, in which a block that forwards
an output has it in its `live_in` besides what it uses. The timesteps are the
backward propagation from `live_out` through the block, with the results of an
operation at its own timestep and the forwarded outputs at the block's first.
-/
import Mathlib
import Pylang.Lib.RoundRobin
import Pylang.Regalloc.Header.LiveAnalysis

namespace Pylang.Regalloc

open Lib

/-! ## The equations -/

/-- What an operation reads, and what it defines. -/
def Operation.reads (o : Operation) : Set Var := {x | ∃ v ∈ o.allOperands, x = .value v}

def Operation.writes (o : Operation) : Set Var := {x | ∃ v ∈ o.results, x = .value v}

/-- `alive_before = (alive_after - def) ∪ use`, from the end of the operations. -/
def backward (out : Set Var) : List Operation → Set Var
  | [] => out
  | o :: ops => (backward out ops \ o.writes) ∪ o.reads

namespace Block

/-- `Use[B]`: what is read before it is defined. -/
def use (blk : Block) : Set Var := backward ∅ blk.ops

/-- `Def[B]`. -/
def defs (blk : Block) : Set Var := {x | ∃ o ∈ blk.ops, x ∈ o.writes}

def successors (blk : Block) : List BlockId := (blk.ops.getLast?.map (·.successors.map Prod.fst)).getD []

/-- The output that the terminator forwards. -/
def forwarded (blk : Block) : Set Var := {x | ∃ o, blk.ops.getLast? = some o ∧ o.kind = .forIter ∧ x = .forwarded o.id 0}

end Block

/-- `LiveIn[B] = Use[B] ∪ (LiveOut[B] - Def[B]) ∪ extra`, and `LiveOut[B]` of the successors. -/
structure Solves (fn : Func) (extra : Block → Set Var) (liveIn liveOut : BlockId → Set Var) : Prop where
  into : ∀ b blk, fn.blocks[b]? = some blk → liveIn b = blk.use ∪ (liveOut b \ blk.defs) ∪ extra blk
  out : ∀ b blk, fn.blocks[b]? = some blk → liveOut b = {x | ∃ s ∈ blk.successors, x ∈ liveIn s}
  /-- There is nothing beyond the blocks. -/
  outside : ∀ b, fn.blocks[b]? = none → liveIn b = ∅

namespace Header

/-- The sets of a block. -/
def Liveness.inOf (s : Liveness) (b : BlockId) : Set Var := {x | x ∈ s.liveIn[b]?.getD []}

def Liveness.outOf (s : Liveness) (b : BlockId) : Set Var := {x | x ∈ s.liveOut[b]?.getD []}

/-! ## What `build_block_info` collects -/

theorem useDef_fold : ∀ (ops : List Operation) (use defs : List Var),
    (∀ x, x ∈ (ops.foldl useDef (use, defs)).1 ↔ x ∈ use ∨ x ∈ backward ∅ ops ∧ x ∉ defs) ∧
      (∀ x, x ∈ (ops.foldl useDef (use, defs)).2 ↔ x ∈ defs ∨ ∃ o ∈ ops, x ∈ o.writes) ∧
      (use.Pairwise (· < ·) → (ops.foldl useDef (use, defs)).1.Pairwise (· < ·))
  | [], use, defs => by simp [backward]
  | o :: ops, use, defs => by
    obtain ⟨huse, hdefs, hsorted⟩ := useDef_fold ops (useDef (use, defs) o).1 (useDef (use, defs) o).2
    rw [List.foldl_cons]
    refine ⟨fun x => ?_, fun x => ?_, fun h => hsorted (sorted_setUnion h)⟩
    · rw [huse]
      simp only [useDef, mem_setUnion, List.mem_filter, List.mem_map, decide_eq_true_eq, backward, Set.mem_union, Set.mem_sdiff,
        Operation.reads, Operation.writes, Set.mem_ofPred_eq]
      constructor
      · rintro ((hx | ⟨⟨v, hv, rfl⟩, hx⟩) | ⟨hx, hnot⟩)
        · exact .inl hx
        · exact .inr ⟨.inr ⟨v, hv, rfl⟩, hx⟩
        · exact .inr ⟨.inl ⟨hx, fun hw => hnot (.inr (hw.imp fun v h => ⟨h.1, h.2.symm⟩))⟩, fun hd => hnot (.inl hd)⟩
      · rintro (hx | ⟨⟨hx, hnot⟩ | ⟨v, hv, rfl⟩, hd⟩)
        · exact .inl (.inl hx)
        · refine .inr ⟨hx, ?_⟩
          rintro (h | ⟨v, hv, he⟩)
          · exact hd h
          · exact hnot ⟨v, hv, he.symm⟩
        · exact .inl (.inr ⟨⟨v, hv, rfl⟩, hd⟩)
    · rw [hdefs]
      rw [List.exists_mem_cons_iff, ← or_assoc]
      simp only [useDef, mem_setUnion, List.mem_map, Operation.writes, Set.mem_ofPred_eq, eq_comm]

theorem mem_use {blk : Block} {x : Var} : x ∈ (buildBlockInfo blk).use ↔ x ∈ blk.use := by
  have h := (useDef_fold blk.ops [] []).1 x
  simpa [buildBlockInfo, Block.use] using h

theorem mem_defs {blk : Block} {x : Var} : x ∈ (buildBlockInfo blk).defs ↔ x ∈ blk.defs := by
  have h := (useDef_fold blk.ops [] []).2.1 x
  simpa [buildBlockInfo, Block.defs] using h

theorem sorted_use (blk : Block) : (buildBlockInfo blk).use.Pairwise (· < ·) := (useDef_fold blk.ops [] []).2.2 .nil

theorem mem_forwarded {blk : Block} {x : Var} : x ∈ (buildBlockInfo blk).forwardedOutputs ↔ x ∈ blk.forwarded := by
  simp only [buildBlockInfo, forwardedOutputs, Block.forwarded, Set.mem_ofPred_eq]
  cases blk.ops.getLast? with
  | none => simp
  | some o =>
    by_cases hk : o.kind = .forIter <;> simp [hk]

/-! ## The iteration -/

/-- `LiveIn` of a block from the `LiveIn` of all. -/
def BlockInfo.update (infos : List BlockInfo) (b : BlockId) (liveIn : List (List Var)) : List Var :=
  match infos[b]? with
  | some i => i.liveIn (i.liveOut liveIn)
  | none => []

theorem mem_liveOut {i : BlockInfo} {liveIn : List (List Var)} {x : Var} :
    x ∈ i.liveOut liveIn ↔ ∃ s ∈ i.successors, x ∈ RoundRobin.entry liveIn s := by
  unfold BlockInfo.liveOut
  suffices h : ∀ (l : List BlockId) (acc : List Var),
      x ∈ l.foldl (fun acc b => setUnion acc (liveIn[b]?.getD [])) acc ↔ x ∈ acc ∨ ∃ s ∈ l, x ∈ RoundRobin.entry liveIn s by
    simpa using h i.successors []
  intro l
  induction l with
  | nil => simp
  | cons b l ih =>
    intro acc
    rw [List.foldl_cons, ih, mem_setUnion, List.exists_mem_cons_iff, or_assoc]
    rfl

theorem mem_liveIn {i : BlockInfo} {liveOut : List Var} {x : Var} :
    x ∈ i.liveIn liveOut ↔ (x ∈ i.use ∨ x ∈ liveOut ∧ x ∉ i.defs) ∨ x ∈ i.forwardedOutputs := by
  unfold BlockInfo.liveIn
  rw [mem_setUnion, mem_setUnion, List.mem_filter, decide_eq_true_eq]

variable {fn : Func}

def infosOf (fn : Func) : List BlockInfo := fn.blocks.map buildBlockInfo

/-- What can be live. -/
def candidates (fn : Func) : List Var := fn.ops.flatMap (·.mentions)

theorem mem_universe_of_use {blk : Block} (hblk : blk ∈ fn.blocks) {x : Var} (hx : x ∈ blk.use) : x ∈ candidates fn := by
  have hread : ∀ (ops : List Operation), x ∈ backward ∅ ops → ∃ o ∈ ops, x ∈ o.reads := by
    intro ops
    induction ops with
    | nil => exact fun h => absurd h (Set.notMem_empty x)
    | cons o ops ih =>
      rintro (h | h)
      · obtain ⟨o', ho', hr⟩ := ih h.1
        exact ⟨o', List.mem_cons_of_mem o ho', hr⟩
      · exact ⟨o, List.mem_cons_self, h⟩
  obtain ⟨o, ho, v, hv, rfl⟩ := hread blk.ops hx
  refine List.mem_flatMap.mpr ⟨o, List.mem_flatMap.mpr ⟨blk, hblk, ho⟩, ?_⟩
  simp [Operation.mentions, hv]

theorem mem_universe_of_forwarded {blk : Block} (hblk : blk ∈ fn.blocks) {x : Var} (hx : x ∈ blk.forwarded) :
    x ∈ candidates fn := by
  obtain ⟨o, ho, hk, rfl⟩ := hx
  refine List.mem_flatMap.mpr ⟨o, List.mem_flatMap.mpr ⟨blk, hblk, List.mem_of_getLast? ho⟩, ?_⟩
  simp [Operation.mentions, hk]

theorem infosOf_getElem? (b : BlockId) : (infosOf fn)[b]? = (fn.blocks[b]?).map buildBlockInfo := by
  unfold infosOf
  rw [List.getElem?_map]

theorem monotone_update (fn : Func) : RoundRobin.Monotone (BlockInfo.update (infosOf fn)) (candidates fn) where
  mono b h x hx := by
    unfold BlockInfo.update at hx ⊢
    split at hx
    next i _ =>
      rcases mem_liveIn.mp hx with (hx | ⟨hx, hd⟩) | hx
      · exact mem_liveIn.mpr (.inl (.inl hx))
      · obtain ⟨s, hs, hin⟩ := mem_liveOut.mp hx
        exact mem_liveIn.mpr (.inl (.inr ⟨mem_liveOut.mpr ⟨s, hs, h s hin⟩, hd⟩))
      · exact mem_liveIn.mpr (.inr hx)
    next => cases hx
  sorted b xs := by
    unfold BlockInfo.update
    rw [infosOf_getElem?]
    cases fn.blocks[b]? with
    | none => exact .nil
    | some blk => exact sorted_setUnion (sorted_setUnion (sorted_use blk))
  bounded {xs} b h x hx := by
    unfold BlockInfo.update at hx
    rw [infosOf_getElem?] at hx
    cases hblk : fn.blocks[b]? with
    | none => rw [hblk] at hx; cases hx
    | some blk =>
      rw [hblk] at hx
      have hmem := List.mem_of_getElem? hblk
      rcases mem_liveIn.mp hx with (hx | ⟨hx, -⟩) | hx
      · exact mem_universe_of_use hmem (mem_use.mp hx)
      · obtain ⟨s, -, hin⟩ := mem_liveOut.mp hx
        exact h s hin
      · exact mem_universe_of_forwarded hmem (mem_forwarded.mp hx)

/-- The blocks, last first. -/
def order (infos : List BlockInfo) : List BlockId := infos.zipIdx.reverse.map Prod.snd

theorem mem_order {infos : List BlockInfo} {b : BlockId} (hb : b < infos.length) : b ∈ order infos := by
  refine List.mem_map.mpr ⟨(infos[b], b), List.mem_reverse.mpr (List.mem_zipIdx_iff_getElem?.mpr ?_), rfl⟩
  exact List.getElem?_eq_getElem hb

theorem liveIn_iteration (infos : List BlockInfo) (s : Liveness) :
    (iteration infos s).liveIn = RoundRobin.sweep (BlockInfo.update infos) (order infos) s.liveIn := by
  unfold iteration RoundRobin.sweep order
  suffices h : ∀ (l : List (BlockInfo × BlockId)) (s : Liveness), (∀ p ∈ l, infos[p.2]? = some p.1) →
      (l.foldl updateBlock s).liveIn = (l.map Prod.snd).foldl (RoundRobin.step (BlockInfo.update infos)) s.liveIn from
    h _ s fun p hp => List.mem_zipIdx_iff_getElem?.mp (List.mem_reverse.mp hp)
  intro l
  induction l with
  | nil => exact fun _ _ => rfl
  | cons p l ih =>
    intro s hl
    rw [List.foldl_cons, List.map_cons, List.foldl_cons, ih _ fun q hq => hl q (List.mem_cons_of_mem p hq)]
    simp only [updateBlock, RoundRobin.step, BlockInfo.update, hl p List.mem_cons_self]

theorem length_liveOut_iteration {infos : List BlockInfo} {s : Liveness} :
    (iteration infos s).liveOut.length = s.liveOut.length := by
  unfold iteration
  generalize infos.zipIdx.reverse = l
  induction l generalizing s with
  | nil => rfl
  | cons p l ih =>
    rw [List.foldl_cons, ih]
    simp [updateBlock]

theorem computeLiveness_of_iterate {infos : List BlockInfo} : ∀ {fuel : Nat} {s : Liveness} {r : List (List Var)},
    RoundRobin.iterate (BlockInfo.update infos) (order infos) fuel s.liveIn = some r →
      ∃ s₀, s₀.liveIn = r ∧ (s₀.liveOut.length = s.liveOut.length) ∧ computeLiveness infos fuel s = some (iteration infos s₀) ∧
        (iteration infos s₀).liveIn = r
  | fuel + 1, s, r, h => by
    unfold RoundRobin.iterate at h
    unfold computeLiveness
    rw [← liveIn_iteration] at h
    split at h
    next heq =>
      cases h
      exact ⟨s, rfl, rfl, if_pos heq, heq⟩
    next hne =>
      obtain ⟨s₀, hin, hlen, hrun, hend⟩ := computeLiveness_of_iterate h
      exact ⟨s₀, hin, hlen.trans length_liveOut_iteration, by rw [if_neg hne]; exact hrun, hend⟩

/-- The `LiveOut` an iteration leaves where it changes no `LiveIn`. -/
theorem liveOut_iteration {infos : List BlockInfo} {s : Liveness} (hlen : s.liveOut.length = infos.length)
    (hfixed : ∀ b ∈ order infos, RoundRobin.step (BlockInfo.update infos) s.liveIn b = s.liveIn) {b : BlockId}
    {i : BlockInfo} (hi : infos[b]? = some i) : (iteration infos s).liveOut[b]? = some (i.liveOut s.liveIn) := by
  unfold iteration
  suffices h : ∀ (l : List (BlockInfo × BlockId)) (s' : Liveness), s'.liveIn = s.liveIn → s'.liveOut.length = infos.length →
      (∀ p ∈ l, infos[p.2]? = some p.1) → (∀ p ∈ l, RoundRobin.step (BlockInfo.update infos) s.liveIn p.2 = s.liveIn) →
      (i, b) ∈ l ∨ s'.liveOut[b]? = some (i.liveOut s.liveIn) →
        (l.foldl updateBlock s').liveOut[b]? = some (i.liveOut s.liveIn) by
    refine h _ s rfl hlen (fun p hp => ?_) (fun p hp => hfixed _ (List.mem_map_of_mem hp)) (.inl ?_)
    · exact List.mem_zipIdx_iff_getElem?.mp (List.mem_reverse.mp hp)
    · exact List.mem_reverse.mpr (List.mem_zipIdx_iff_getElem?.mpr hi)
  intro l
  induction l with
  | nil => exact fun _ _ _ _ _ hb => hb.resolve_left (List.not_mem_nil)
  | cons p l ih =>
    intro s' hin hlen' hinfos hfix hb
    have hp := hinfos p List.mem_cons_self
    have hstep : (updateBlock s' p).liveIn = s.liveIn := by
      have hsame := hfix p List.mem_cons_self
      simp only [RoundRobin.step, BlockInfo.update, hp] at hsame
      simp only [updateBlock, hin]
      exact hsame
    rw [List.foldl_cons]
    refine ih _ hstep (by simp [updateBlock, hlen']) (fun q hq => hinfos q (List.mem_cons_of_mem p hq))
      (fun q hq => hfix q (List.mem_cons_of_mem p hq)) ?_
    by_cases hpb : p.2 = b
    · right
      have hpi : p.1 = i := by
        rw [hpb, hi] at hp
        exact (Option.some.inj hp).symm
      have hb' : b < infos.length := (List.getElem?_eq_some_iff.mp hi).1
      simp [updateBlock, hpb, hpi, hin, hlen', hb']
    · refine hb.imp (fun hmem => ?_) fun hout => ?_
      · rcases List.mem_cons.mp hmem with rfl | hmem
        · exact absurd rfl hpb
        · exact hmem
      · simpa [updateBlock, List.getElem?_set_ne hpb] using hout

theorem mem_inOf {s : Liveness} {b : BlockId} {x : Var} : x ∈ s.inOf b ↔ x ∈ RoundRobin.entry s.liveIn b := Iff.rfl

theorem mem_update {b : BlockId} {blk : Block} (hblk : fn.blocks[b]? = some blk) {liveIn : List (List Var)} {x : Var} :
    x ∈ BlockInfo.update (infosOf fn) b liveIn ↔
      (x ∈ blk.use ∨ (∃ s ∈ blk.successors, x ∈ RoundRobin.entry liveIn s) ∧ x ∉ blk.defs) ∨ x ∈ blk.forwarded := by
  unfold BlockInfo.update
  rw [infosOf_getElem?, hblk, Option.map_some]
  dsimp only
  rw [mem_liveIn, mem_liveOut, mem_use, mem_defs, mem_forwarded]
  rfl

theorem liveness_least (fn : Func) : ∃ s, computeLiveness (fn.blocks.map buildBlockInfo) (livenessFuel fn) (.init fn) = some s ∧
    Solves fn Block.forwarded s.inOf s.outOf ∧
      ∀ liveIn liveOut, Solves fn Block.forwarded liveIn liveOut → ∀ b, s.inOf b ⊆ liveIn b ∧ s.outOf b ⊆ liveOut b := by
  have hmono := monotone_update fn
  have horder : ∀ b < fn.blocks.length, b ∈ order (infosOf fn) := fun b hb => mem_order (by simpa [infosOf] using hb)
  obtain ⟨r, hr, hrise, hsweep, hfix, hleast⟩ := RoundRobin.iterate_least hmono horder
  have hinit : (Liveness.init fn).liveIn = List.replicate fn.blocks.length [] := by
    simp [Liveness.init, List.map_const']
  rw [← hinit] at hr
  obtain ⟨s₀, hin₀, hlen₀, hrun, hend⟩ := computeLiveness_of_iterate hr
  have hout : ∀ b blk, fn.blocks[b]? = some blk →
      (iteration (infosOf fn) s₀).outOf b = {x | ∃ s ∈ blk.successors, x ∈ RoundRobin.entry r s} := by
    intro b blk hblk
    have hsteps : ∀ b ∈ order (infosOf fn), RoundRobin.step (BlockInfo.update (infosOf fn)) s₀.liveIn b = s₀.liveIn := by
      rw [hin₀]
      exact RoundRobin.Rising.fixed hmono _ hrise hsweep
    have hget := liveOut_iteration (b := b) (i := buildBlockInfo blk) (by simp [hlen₀, Liveness.init, infosOf]) hsteps
      (by rw [infosOf_getElem?, hblk]; rfl)
    ext x
    simp only [Liveness.outOf, Set.mem_ofPred_eq, hget, Option.getD_some, mem_liveOut, hin₀]
    rfl
  have hinto : ∀ b, (iteration (infosOf fn) s₀).inOf b = {x | x ∈ RoundRobin.entry r b} := by
    intro b
    ext x
    rw [mem_inOf, hend]
    rfl
  refine ⟨_, hrun, ⟨fun b blk hblk => ?_, fun b blk hblk => ?_, fun b hblk => ?_⟩, fun liveIn liveOut hsol => ?_⟩
  · have hb : b < fn.blocks.length := (List.getElem?_eq_some_iff.mp hblk).1
    ext x
    rw [hinto, hout b blk hblk, Set.mem_ofPred_eq, hfix b hb, mem_update hblk]
    rfl
  · simp only [hinto, hout b blk hblk, Set.mem_ofPred_eq]
  · rw [hinto]
    ext x
    have hbeyond : r[b]? = none := List.getElem?_eq_none (hrise.length ▸ List.getElem?_eq_none_iff.mp hblk)
    simp [RoundRobin.entry, hbeyond]
  · have hbelow : RoundRobin.Below liveIn r := by
      refine hleast liveIn fun b xs hxs x hx => ?_
      cases hblk : fn.blocks[b]? with
      | none => simp [BlockInfo.update, infosOf_getElem?, hblk] at hx
      | some blk =>
        rw [hsol.into b blk hblk, hsol.out b blk hblk]
        rcases (mem_update hblk).mp hx with (hx | ⟨⟨c, hc, hx⟩, hd⟩) | hx
        · exact .inl (.inl hx)
        · exact .inl (.inr ⟨⟨c, hc, hxs c x hx⟩, hd⟩)
        · exact .inr hx
    refine fun b => ⟨fun x hx => hbelow b x ?_, fun x hx => ?_⟩
    · rw [hinto] at hx
      exact hx
    · cases hblk : fn.blocks[b]? with
      | none =>
        have hlen : (iteration (infosOf fn) s₀).liveOut.length = fn.blocks.length := by
          rw [length_liveOut_iteration, hlen₀]
          simp [Liveness.init]
        have hbeyond : (iteration (infosOf fn) s₀).liveOut[b]? = none :=
          List.getElem?_eq_none (hlen ▸ List.getElem?_eq_none_iff.mp hblk)
        simp [Liveness.outOf, hbeyond] at hx
      | some blk =>
        rw [hout b blk hblk] at hx
        obtain ⟨c, hc, hx⟩ := hx
        rw [hsol.out b blk hblk]
        exact ⟨c, hc, hbelow c x hx⟩

/-! ## The timesteps -/

theorem mem_aliveBefore (liveOut : List Var) : ∀ (ops : List Operation) (i : Nat) (xs : List Var),
    (aliveBefore liveOut ops)[i]? = some xs → ∀ x, x ∈ xs ↔ x ∈ backward {x | x ∈ liveOut} (ops.drop i)
  | [], _, _, h => by cases h
  | o :: ops, i + 1, xs, h => mem_aliveBefore liveOut ops i xs h
  | o :: ops, 0, xs, h => by
    intro x
    have hlater : x ∈ ((aliveBefore liveOut ops).head?).getD liveOut ↔ x ∈ backward {x | x ∈ liveOut} ops := by
      cases hhead : aliveBefore liveOut ops with
      | nil =>
        have hops : ops = [] := by
          cases ops with
          | nil => rfl
          | cons => cases hhead
        rw [hops]
        rfl
      | cons ys _ =>
        have hfirst := mem_aliveBefore liveOut ops 0 ys (by rw [hhead]; rfl) x
        simpa using hfirst
    obtain rfl := Option.some.inj h
    rw [mem_setUnion, List.mem_filter, decide_eq_true_eq, hlater, List.drop_zero, backward]
    simp only [List.mem_map, Set.mem_union, Set.mem_sdiff, Operation.reads, Operation.writes, Set.mem_ofPred_eq, eq_comm]

/-- What the timestep of an operation lists. -/
def Timestep (blk : Block) (liveIn liveOut : Set Var) (i : Nat) (o : Operation) : Set Var :=
  backward liveOut (blk.ops.drop i) ∪ o.writes ∪ {x | i = 0 ∧ x ∈ blk.forwarded ∧ x ∈ liveIn}

theorem length_aliveBefore (liveOut : List Var) (ops : List Operation) : (aliveBefore liveOut ops).length = ops.length :=
  (aliveBefore_operands liveOut ops).length_eq.symm

theorem mem_blockTimesteps (blk : Block) (liveIn liveOut : List Var) {i : Nat} {o : Operation} (ho : blk.ops[i]? = some o) :
    ∃ xs, (blockTimesteps (buildBlockInfo blk) liveIn liveOut)[i]? = some xs ∧
      ∀ x, x ∈ xs ↔ x ∈ Timestep blk {x | x ∈ liveIn} {x | x ∈ liveOut} i o := by
  have hi : i < (aliveBefore liveOut blk.ops).length := by
    rw [length_aliveBefore]
    exact (List.getElem?_eq_some_iff.mp ho).1
  have halive := List.getElem?_eq_getElem hi
  have hmem := mem_aliveBefore liveOut blk.ops i _ halive
  generalize (aliveBefore liveOut blk.ops)[i] = ys at halive hmem
  have hresults : (withResults blk.ops (aliveBefore liveOut blk.ops))[i]? = some (setUnion ys (o.results.map .value)) := by
    unfold withResults
    rw [List.getElem?_zipWith, ho, halive]
  have hboth (x : Var) : x ∈ setUnion ys (o.results.map .value) ↔ x ∈ backward {x | x ∈ liveOut} (blk.ops.drop i) ∪ o.writes := by
    simp only [mem_setUnion, hmem, List.mem_map, Set.mem_union, Operation.writes, Set.mem_ofPred_eq, eq_comm]
  unfold blockTimesteps
  show ∃ xs, (withForwarded liveIn _ (withResults blk.ops (aliveBefore liveOut blk.ops)))[i]? = some xs ∧ _
  cases hwith : withResults blk.ops (aliveBefore liveOut blk.ops) with
  | nil => rw [hwith] at hresults; cases hresults
  | cons zs rest =>
    rw [hwith] at hresults
    cases i with
    | zero =>
      obtain rfl : zs = _ := Option.some.inj hresults
      refine ⟨_, rfl, fun x => ?_⟩
      rw [mem_setUnion, hboth, List.mem_filter, decide_eq_true_eq, mem_forwarded, Timestep, Set.mem_union]
      simp
    | succ i =>
      refine ⟨_, hresults, fun x => ?_⟩
      rw [hboth, Timestep, Set.mem_union _ (_ ∪ _)]
      simp

theorem getElem?_flatMap {α β : Type} (f : α → List β) : ∀ (l : List α) (b : Nat) (a : α) (i : Nat), l[b]? = some a →
    i < (f a).length → (l.flatMap f)[((l.take b).map fun a => (f a).length).sum + i]? = (f a)[i]?
  | [], _, _, _, hb, _ => by cases hb
  | c :: l, 0, a, i, hb, hi => by
    obtain rfl := Option.some.inj hb
    simp [List.getElem?_append_left hi]
  | c :: l, b + 1, a, i, hb, hi => by
    have ih := getElem?_flatMap f l b a i hb hi
    rw [List.flatMap_cons, List.take_succ_cons, List.map_cons, List.sum_cons, Nat.add_assoc,
      List.getElem?_append_right (Nat.le_add_right _ _), Nat.add_sub_cancel_left, ih]

theorem length_blockTimesteps (blk : Block) (liveIn liveOut : List Var) :
    (blockTimesteps (buildBlockInfo blk) liveIn liveOut).length = blk.ops.length :=
  (withForwarded_lists (withResults_lists (aliveBefore_operands _ blk.ops))).length_eq.symm

theorem buildTimesteps_getElem? (s : Liveness) {b : BlockId} {blk : Block} (hblk : fn.blocks[b]? = some blk) {i : Nat}
    (hi : i < blk.ops.length) : (buildTimesteps fn s)[fn.start b + i]? =
      (blockTimesteps (buildBlockInfo blk) (s.liveIn[b]?.getD []) (s.liveOut[b]?.getD []))[i]? := by
  have hzip : fn.blocks.zipIdx[b]? = some (blk, b) := by simp [hblk]
  have hget := getElem?_flatMap (fun p : Block × BlockId =>
    blockTimesteps (buildBlockInfo p.1) (s.liveIn[p.2]?.getD []) (s.liveOut[p.2]?.getD [])) fn.blocks.zipIdx b (blk, b) i hzip
    (by rw [length_blockTimesteps]; exact hi)
  have hstart : ((fn.blocks.zipIdx.take b).map fun p : Block × BlockId =>
      (blockTimesteps (buildBlockInfo p.1) (s.liveIn[p.2]?.getD []) (s.liveOut[p.2]?.getD [])).length).sum = fn.start b := by
    simp only [length_blockTimesteps, Func.start]
    congr 1
    refine List.ext_getElem? fun c => ?_
    simp only [List.getElem?_map, List.getElem?_take, List.getElem?_zipIdx]
    split
    · cases fn.blocks[c]? <;> rfl
    · rfl
  rw [hstart] at hget
  exact hget

/-- **Liveness is the least solution**, and every timestep the backward propagation from it. -/
theorem analyse_live (fn : Func) : ∃ s, computeLiveness (fn.blocks.map buildBlockInfo) (livenessFuel fn) (.init fn) = some s ∧
    Solves fn Block.forwarded s.inOf s.outOf ∧
    (∀ liveIn liveOut, Solves fn Block.forwarded liveIn liveOut → ∀ b, s.inOf b ⊆ liveIn b ∧ s.outOf b ⊆ liveOut b) ∧
    (buildTimesteps fn s).length = fn.ops.length ∧
    ∀ b blk, fn.blocks[b]? = some blk → ∀ i o, blk.ops[i]? = some o →
      ∃ xs, (buildTimesteps fn s)[fn.start b + i]? = some xs ∧
        ∀ x, x ∈ xs ↔ x ∈ backward (s.outOf b) (blk.ops.drop i) ∨ x ∈ o.writes ∨ i = 0 ∧ x ∈ blk.forwarded := by
  obtain ⟨s, hs, hsolves, hleast⟩ := liveness_least fn
  refine ⟨s, hs, hsolves, hleast, (buildTimesteps_lists fn s).length_eq.symm, fun b blk hblk i o ho => ?_⟩
  obtain ⟨xs, hxs, hmem⟩ := mem_blockTimesteps blk (s.liveIn[b]?.getD []) (s.liveOut[b]?.getD []) ho
  refine ⟨xs, by rw [buildTimesteps_getElem? s hblk (List.getElem?_eq_some_iff.mp ho).1]; exact hxs, fun x => ?_⟩
  -- What the block forwards is in its `live_in`.
  have hforwarded : x ∈ blk.forwarded → x ∈ s.liveIn[b]?.getD [] := by
    intro hx
    have hin : x ∈ s.inOf b := by
      rw [hsolves.into b blk hblk]
      exact .inr hx
    exact hin
  rw [hmem, Timestep, Set.mem_union, Set.mem_union, or_assoc, Set.mem_ofPred_eq]
  exact or_congr_right (or_congr_right ⟨fun h => ⟨h.1, h.2.1⟩, fun h => ⟨h.1, h.2, hforwarded h.2⟩⟩)

/-- `for x in it: return x`. -/
def loopOnce : Func where
  blocks := [⟨[], [⟨0, .forIter, [], [10], [(1, []), (2, [])]⟩]⟩, ⟨[20], [⟨1, .ret, [], [20], []⟩]⟩,
    ⟨[], [⟨2, .ret, [], [11], []⟩]⟩]
  results_nodup := by decide
  ids_nodup := by decide
  single := by decide

/-- The output it forwards is live before the `FOR_ITER`, which neither uses it nor has it live after itself. -/
theorem forwarded_liveIn : ¬ ∃ s, computeLiveness (loopOnce.blocks.map buildBlockInfo) (livenessFuel loopOnce) (.init loopOnce) =
    some s ∧ Solves loopOnce (fun _ => ∅) s.inOf s.outOf := by
  intro h
  obtain ⟨s, hs, hsolves⟩ := h
  have hin : (computeLiveness (loopOnce.blocks.map buildBlockInfo) (livenessFuel loopOnce) (.init loopOnce)).map
      (fun s => (s.liveIn[0]?.getD [], s.liveOut[0]?.getD [])) =
      some ([.value 10, .value 11, .value 20, .forwarded 0 0], [.value 11, .value 20]) := by decide +kernel
  rw [hs, Option.map_some] at hin
  obtain ⟨hin, hout⟩ := Prod.mk.inj (Option.some.inj hin)
  have hx : Var.forwarded 0 0 ∈ s.inOf 0 := by
    show _ ∈ s.liveIn[0]?.getD []
    rw [hin]
    decide
  rw [hsolves.into 0 _ rfl] at hx
  rcases hx with (hx | ⟨hx, -⟩) | hx
  · rcases hx with ⟨hx, -⟩ | ⟨v, -, hx⟩
    · exact hx
    · cases hx
  · replace hx : Var.forwarded 0 0 ∈ s.liveOut[0]?.getD [] := hx
    rw [hout] at hx
    exact absurd hx (by decide)
  · exact hx

end Header

end Pylang.Regalloc
