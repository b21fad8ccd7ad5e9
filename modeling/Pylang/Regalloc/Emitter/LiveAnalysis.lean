/-
The emitter's `LiveAnalysis`: a timestep lists what its operation mentions and
nothing else. There is no dataflow here: the order of the sorted blocks is the
only order the mentions are in.
-/
import Pylang.Regalloc.BlockArguments

namespace Pylang.Regalloc.Emitter

def addValue (alive : List Var) (x : Var) : List Var := if x ∈ alive then alive else alive ++ [x]

/-- What an operation's timestep lists. -/
def timestep (o : Operation) : List Var := o.mentions.foldl addValue []

/-- `llvm::zip` of forwarded operands and block arguments, after the assertion that they are as many. -/
def zipArguments (fn : Func) (b : BlockId) (vs : List Value) : Option (List (Var × Value)) :=
  match fn.blocks[b]? with
  | some blk => if vs.length = blk.args.length then some ((vs.map .value).zip blk.args) else none
  | none => none

/-- The entries an operation adds to `block_parameters_to_args`. -/
def blockParameters (fn : Func) (o : Operation) : Option (List (Var × Value)) :=
  match o.kind, o.successors with
  | .jumpIfFalse, [(t, ts), (f, fs)] => do
    let l ← zipArguments fn t ts
    let r ← zipArguments fn f fs
    some (l ++ r)
  | .branch, [(b, vs)] => zipArguments fn b vs
  | .forIter, (body, _) :: _ =>
    match fn.blocks[body]? with
    | some ⟨[arg], _⟩ => some [(.forwarded o.id 0, arg)]
    | _ => none
  | .jumpIfFalse, _ | .branch, _ | .forIter, _ => none
  | _, _ => some []

def blockParametersToArgs (fn : Func) : Option (List (Var × Value)) :=
  (fn.ops.mapM (blockParameters fn)).map List.flatten

def timesteps (fn : Func) : List (List Var) := fn.ops.map timestep

def LiveAnalysis.analyse (fn : Func) : Option LiveAnalysis := do
  let params ← blockParametersToArgs fn
  LiveAnalysis.ofTimesteps fn (timesteps fn) params

/-- `x` is forwarded to the block argument `arg` by a jump the analysis reads, and `arg`'s block mentions it. -/
def Linked (fn : Func) (x : Var) (arg : Value) : Prop :=
  (∃ o ∈ fn.ops, ∃ ps, blockParameters fn o = some ps ∧ (x, arg) ∈ ps) ∧ UsedInOwner fn (timesteps fn) arg

theorem mem_addValue {alive : List Var} {x y : Var} : y ∈ addValue alive x ↔ y ∈ alive ∨ y = x := by
  simp only [addValue]
  split
  next h => exact ⟨.inl, fun hy => hy.elim id fun he => he ▸ h⟩
  next => simp

theorem mem_timestep {o : Operation} {x : Var} : x ∈ timestep o ↔ x ∈ o.mentions := by
  suffices h : ∀ l acc : List Var, x ∈ l.foldl addValue acc ↔ x ∈ acc ∨ x ∈ l by simp [timestep, h]
  intro l
  induction l with
  | nil => simp
  | cons y l ih => intro acc; simp only [List.foldl_cons, ih, mem_addValue, List.mem_cons, or_assoc]

theorem mentioned_iff {fn : Func} {x : Var} : Mentioned (timesteps fn) x ↔ ∃ o ∈ fn.ops, x ∈ o.mentions := by
  simp [Mentioned, timesteps, mem_timestep]

theorem mem_blockParametersToArgs {fn : Func} {params : List (Var × Value)} (h : blockParametersToArgs fn = some params)
    {q : Var} {b : Value} : (q, b) ∈ params ↔ ∃ o ∈ fn.ops, ∃ ps, blockParameters fn o = some ps ∧ (q, b) ∈ ps := by
  simp only [blockParametersToArgs, Option.map_eq_some_iff] at h
  obtain ⟨pss, hm, rfl⟩ := h
  simp only [List.mem_flatten, Lib.mem_mapM hm]
  constructor
  · intro h
    obtain ⟨ps, ⟨o, ho, he⟩, hq⟩ := h
    exact ⟨o, ho, ps, he, hq⟩
  · intro h
    obtain ⟨o, ho, ps, he, hq⟩ := h
    exact ⟨ps, ⟨o, ho, he⟩, hq⟩

theorem zipArguments_fst {fn : Func} {b : BlockId} {vs : List Value} {ps : List (Var × Value)}
    (h : zipArguments fn b vs = some ps) {x : Var} {arg : Value} (hm : (x, arg) ∈ ps) : ∃ v ∈ vs, x = .value v := by
  simp only [zipArguments] at h
  split at h
  next =>
    split at h
    next =>
      cases h
      obtain ⟨v, hv, he⟩ := List.mem_map.mp (List.of_mem_zip hm).1
      exact ⟨v, hv, he.symm⟩
    next => cases h
  next => cases h

/-- What a jump forwards, it mentions. -/
theorem mem_mentions_of_blockParameters {fn : Func} {o : Operation} {ps : List (Var × Value)}
    (h : blockParameters fn o = some ps) {x : Var} {arg : Value} (hm : (x, arg) ∈ ps) : x ∈ o.mentions := by
  simp only [blockParameters] at h
  split at h
  next t ts f fs hk hs =>
    simp only [Option.bind_eq_bind, Option.bind_eq_some_iff, Option.some.injEq] at h
    obtain ⟨l, hl, r, hr, rfl⟩ := h
    rcases List.mem_append.mp hm with hm | hm
    · obtain ⟨v, hv, rfl⟩ := zipArguments_fst hl hm
      simp [Operation.mentions, Operation.allOperands, hs, hv]
    · obtain ⟨v, hv, rfl⟩ := zipArguments_fst hr hm
      simp [Operation.mentions, Operation.allOperands, hs, hv]
  next b vs hk hs =>
    obtain ⟨v, hv, rfl⟩ := zipArguments_fst h hm
    simp [Operation.mentions, Operation.allOperands, hs, hv]
  next b vs rest hk hs =>
    split at h
    next =>
      simp only [Option.some.injEq] at h
      subst h
      simp only [List.mem_singleton, Prod.mk.injEq] at hm
      simp [Operation.mentions, hk, hm.1]
    next => cases h
  next => cases h
  next => cases h
  next => cases h
  next => cases h; simp at hm

/-- **The emitter's live analysis resolves what the operations mention.** -/
theorem LiveAnalysis.analyse_resolves {fn : Func} {la : LiveAnalysis} (h : LiveAnalysis.analyse fn = some la) :
    la.Resolves (timesteps fn) (Linked fn) := by
  simp only [analyse, Option.bind_eq_bind, Option.bind_eq_some_iff] at h
  obtain ⟨params, hparams, h⟩ := h
  have hL : Regalloc.Linked fn (timesteps fn) params = Linked fn := by
    funext x arg
    simp [Regalloc.Linked, Linked, mem_blockParametersToArgs hparams]
  refine hL ▸ LiveAnalysis.resolves h fun x arg hx => ?_
  obtain ⟨o, ho, ps, hps, hm⟩ := (mem_blockParametersToArgs hparams).mp hx
  exact mentioned_iff.mpr ⟨o, ho, mem_mentions_of_blockParameters hps hm⟩

end Pylang.Regalloc.Emitter
