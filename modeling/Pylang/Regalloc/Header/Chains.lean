/-
When `resolve_block_argument_chains` ends with a root for every value: exactly
when no value is forwarded to two block arguments that their blocks use, and no
such arguments are forwarded to each other in a cycle.
-/
import Pylang.Regalloc.Header.Liveness

namespace Pylang.Regalloc

open Relation

/-! ## Chains in a mapping -/

/-- One step of a chain. -/
def Next (m : InputMappings) (x y : Var) : Prop := ∃ arg, m.find x = some [arg] ∧ y = .value arg

/-- Every value is mapped to one argument, and no chain comes back. -/
structure Sane (m : InputMappings) : Prop where
  single : ∀ x s, m.find x = some s → ∃ arg, s = [arg]
  acyclic : ∀ x, ¬ TransGen (Next m) x x

/-- The chain of `x` ends within so many steps and does not meet `avoid`. -/
inductive Chain (m : InputMappings) (avoid : Var) : Nat → Var → Prop where
  | done {n x} : x ≠ avoid → m.find x = none → Chain m avoid n x
  | next {n x arg} : x ≠ avoid → m.find x = some [arg] → Chain m avoid n (.value arg) → Chain m avoid (n + 1) x

section
variable {m m' : InputMappings}

theorem mem_keys {x : Var} {s : List Value} (h : m.find x = some s) : x ∈ m.entries.map Prod.fst :=
  List.mem_map_of_mem (f := Prod.fst) (Lib.OrdMap.mem_entries.mpr h)

/-- There are as many steps left as there are keys that have not been visited. -/
theorem Sane.chain (h : Sane m) {avoid : Var} : ∀ (n : Nat) (visited : List Var) (x : Var), visited.Nodup →
    (∀ v ∈ visited, v ∈ m.entries.map Prod.fst ∧ TransGen (Next m) v x) → avoid ∈ visited →
      m.entries.length ≤ n + visited.length → Chain m avoid n x := by
  intro n
  induction n with
  | zero =>
    intro visited x hnodup hvisited havoid hn
    have hne : x ≠ avoid := fun he => h.acyclic x (he ▸ (hvisited avoid havoid).2)
    refine .done hne ?_
    by_contra hfind
    obtain ⟨s, hs⟩ := Option.ne_none_iff_exists'.mp hfind
    -- One more key than there are.
    have hx : x ∉ visited := fun hx => h.acyclic x (hvisited x hx).2
    have hsub : x :: visited ⊆ m.entries.map Prod.fst :=
      List.cons_subset.mpr ⟨mem_keys hs, fun v hv => (hvisited v hv).1⟩
    have hle := (List.subperm_of_subset (List.nodup_cons.mpr ⟨hx, hnodup⟩) hsub).length_le
    rw [List.length_map, List.length_cons] at hle
    omega
  | succ n ih =>
    intro visited x hnodup hvisited havoid hn
    have hne : x ≠ avoid := fun he => h.acyclic x (he ▸ (hvisited avoid havoid).2)
    cases hfind : m.find x with
    | none => exact .done hne hfind
    | some s =>
      obtain ⟨arg, rfl⟩ := h.single x s hfind
      have hstep : Next m x (.value arg) := ⟨arg, hfind, rfl⟩
      have hx : x ∉ visited := fun hx => h.acyclic x (hvisited x hx).2
      refine .next hne hfind (ih (x :: visited) _ (List.nodup_cons.mpr ⟨hx, hnodup⟩) ?_ (List.mem_cons_of_mem x havoid) ?_)
      · refine List.forall_mem_cons.mpr ⟨⟨mem_keys hfind, .single hstep⟩, fun v hv => ?_⟩
        exact ⟨(hvisited v hv).1, (hvisited v hv).2.tail hstep⟩
      · rw [List.length_cons]
        omega

/-- The loop walks a chain that does not meet its start, whatever the start is mapped to meanwhile. -/
theorem follow_of_chain {start : Var} : ∀ {n : Nat} {m₁ : InputMappings} {x : Var}, Chain m start n x →
    (∀ y, y ≠ start → m₁.find y = m.find y) → ∃ r, follow (n + 1) m₁ start x = some r := by
  intro n m₁ x h
  induction h generalizing m₁ with
  | done hne hnone =>
    intro hsame
    exact ⟨_, by rw [follow, hsame _ hne, hnone]⟩
  | @next n x arg hne hsome _ ih =>
    intro hsame
    rw [follow, hsame _ hne, hsome]
    exact ih fun y hy => by rw [Lib.OrdMap.find_insert_ne hy, hsame y hy]

theorem Final.walks {x f : Var} (h : Final m x f) : ReflTransGen (Next m) x f := by
  induction h with
  | done => exact .refl
  | next hc _ ih => exact .head ⟨_, hc, rfl⟩ ih

/-- One walk, and what it leaves. -/
theorem Sane.follow (h : Sane m) (x : Var) : ∃ m' y, Regalloc.follow (m.entries.length + 2) m x x = some (m', y) ∧ Sane m' := by
  have hrun : ∃ r, Regalloc.follow (m.entries.length + 2) m x x = some r := by
    cases hfind : m.find x with
    | none => exact ⟨_, by rw [Regalloc.follow, hfind]⟩
    | some s =>
      obtain ⟨arg, rfl⟩ := h.single x s hfind
      have hstep : Next m x (.value arg) := ⟨arg, hfind, rfl⟩
      have hchain : Chain m x m.entries.length (.value arg) :=
        h.chain _ [x] _ (List.nodup_singleton x)
          (fun v hv => by rw [List.mem_singleton.mp hv]; exact ⟨mem_keys hfind, .single hstep⟩)
          (List.mem_singleton_self x) (Nat.le_add_right _ _)
      rw [Regalloc.follow, hfind]
      exact follow_of_chain hchain fun y hy => Lib.OrdMap.find_insert_ne hy
  obtain ⟨⟨m', y⟩, hr⟩ := hrun
  refine ⟨m', y, hr, ?_⟩
  obtain ⟨hshort, hfinal, hother, hcases⟩ := follow_spec hr (Shortened.refl m) (fun _ hf => hf) (.inl rfl)
  have hnext : ∀ u v, Next m' u v → TransGen (Next m) u v := by
    intro u v h
    obtain ⟨arg, hu, rfl⟩ := h
    by_cases hux : u = x
    · subst hux
      rcases hcases with ⟨-, rfl, -⟩ | ⟨b, hb, rfl⟩
      · exact .single ⟨arg, hu, rfl⟩
      · rw [hb] at hu
        cases hu
        cases hfinal with
        | done hnone =>
          have hnone' := (hshort.keys _).mpr hnone
          rw [hb] at hnone'
          cases hnone'
        | next ha hrest =>
          exact .head' ⟨_, ha, rfl⟩ hrest.walks
    · rw [hother u hux] at hu
      exact .single ⟨arg, hu, rfl⟩
  refine ⟨fun u s hu => ?_, fun u hu => h.acyclic u ?_⟩
  · by_cases hux : u = x
    · subst hux
      rcases hcases with ⟨-, rfl, -⟩ | ⟨b, hb, -⟩
      · exact h.single u s hu
      · rw [hb] at hu
        exact ⟨b, (Option.some.inj hu).symm⟩
    · rw [hother u hux] at hu
      exact h.single u s hu
  · exact TransGen.closed hnext _ _ hu

theorem Sane.resolveTimestep : ∀ {m : InputMappings}, Sane m → ∀ es : List Alive,
    ∃ m' xs, Regalloc.resolveTimestep m es = some (m', xs) ∧ Sane m'
  | m, h, [] => ⟨m, [], rfl, h⟩
  | m, h, e :: es => by
    obtain ⟨m₁, xs, hes, h₁⟩ := Sane.resolveTimestep h es
    obtain ⟨m₂, x, hx, h₂⟩ := h₁.follow e.subject
    exact ⟨m₂, x :: xs, by simp [Regalloc.resolveTimestep, hes, hx], h₂⟩

theorem Sane.resolve : ∀ {m : InputMappings}, Sane m → ∀ tss : List (List Alive),
    ∃ m' xss, Regalloc.resolve m tss = some (m', xss) ∧ Sane m'
  | m, h, [] => ⟨m, [], rfl, h⟩
  | m, h, ts :: tss => by
    obtain ⟨m₁, xss, htss, h₁⟩ := Sane.resolve h tss
    obtain ⟨m₂, xs, hxs, h₂⟩ := h₁.resolveTimestep ts
    exact ⟨m₂, xs :: xss, by simp [Regalloc.resolve, htss, hxs], h₂⟩

theorem Final.acyclic {x f : Var} (h : Final m x f) : ¬ TransGen (Next m) x x := by
  induction h with
  | done hnone =>
    intro hcycle
    obtain ⟨y, ⟨arg, hfind, -⟩, -⟩ := TransGen.head'_iff.mp hcycle
    rw [hnone] at hfind
    cases hfind
  | next hfind _ ih =>
    intro hcycle
    obtain ⟨y, ⟨arg, hfind', rfl⟩, hback⟩ := TransGen.head'_iff.mp hcycle
    rw [hfind] at hfind'
    cases hfind'
    exact ih (.tail' hback ⟨_, hfind, rfl⟩)

end

/-! ## The mapping the propagation leaves -/

theorem propagate_sorted (fn : Func) : ∀ (params : List (Var × Value)) {s : List (List Alive) × InputMappings},
    (∀ q l, s.2.find q = some l → l.Pairwise (· < ·)) →
      ∀ q l, (params.foldl (propagate fn) s).2.find q = some l → l.Pairwise (· < ·)
  | [], _, h => h
  | (p, a) :: params, s, h => by
    refine propagate_sorted fn params fun q l hq => ?_
    simp only [propagate] at hq
    split at hq
    next => exact h q l hq
    next =>
      simp only at hq
      split at hq
      next =>
        rw [Lib.OrdMap.find_insertOrAssign] at hq
        split at hq
        next =>
          cases hq
          refine Lib.sorted_setInsert ?_
          cases hp : s.2.find p with
          | none => exact .nil
          | some l => exact h p l hp
        next => exact h q l hq
      next => exact h q l hq

theorem eq_singleton {l : List Value} {a : Value} (hne : l ≠ []) (hsorted : l.Pairwise (· < ·)) (h : ∀ b ∈ l, b = a) :
    l = [a] := by
  cases l with
  | nil => exact absurd rfl hne
  | cons b l =>
    obtain rfl := h b List.mem_cons_self
    cases l with
    | nil => rfl
    | cons c l =>
      have hlt := List.rel_of_pairwise_cons hsorted List.mem_cons_self
      rw [h c (List.mem_cons_of_mem _ List.mem_cons_self)] at hlt
      exact absurd hlt (Nat.lt_irrefl _)

/-- Every value is forwarded to one argument at most that is used in its block, and forwarding does not come back. -/
structure Forwards (L : Var → Value → Prop) : Prop where
  single : ∀ x a b, L x a → L x b → a = b
  acyclic : ∀ x, ¬ TransGen (Links L) x x

/-- **The chains are resolved** exactly then. -/
theorem LiveAnalysis.ofTimesteps_iff {fn : Func} {base : List (List Var)} {params : List (Var × Value)}
    (hparams : ∀ x a, (x, a) ∈ params → Mentioned base x) :
    (∃ la, LiveAnalysis.ofTimesteps fn base params = some la) ↔ Forwards (Linked fn base params) := by
  have hinit : Subjects base (base.map (·.map Alive.var)) := by
    simp [Subjects, Function.comp_def, Alive.subject]
  obtain ⟨hsub, hmaps⟩ := propagate_fold fn params (s := (base.map (·.map Alive.var), ∅)) hinit
  have hne := propagate_nonempty fn params (s := (base.map (·.map Alive.var), ∅)) (by simp)
  have hsorted := propagate_sorted fn params (s := (base.map (·.map Alive.var), ∅)) (by simp)
  unfold ofTimesteps
  generalize params.foldl (propagate fn) (base.map (·.map Alive.var), ∅) = s at hsub hmaps hne hsorted ⊢
  have hlink : ∀ x b, Maps s.2 x b ↔ Linked fn base params x b := fun x b => by
    rw [hmaps]
    simp [Maps]
  constructor
  · intro h
    obtain ⟨la, hla⟩ := h
    simp only [Option.bind_eq_bind, Option.bind_eq_some_iff, Prod.exists, Option.some.injEq] at hla
    obtain ⟨m, xss, hres, -⟩ := hla
    obtain ⟨-, hfinal, -, -⟩ := resolve_spec hres (Shortened.refl _)
    rw [hsub] at hfinal
    -- Whatever is linked is listed, so that its chain has an end.
    have hend : ∀ x a, Linked fn base params x a → ∃ f, Final s.2 x f := by
      intro x a hx
      obtain ⟨xs, hxs, hmem⟩ := hparams x a hx.1
      obtain ⟨ys, -, hys⟩ := Lib.forall₂_left hfinal hxs
      obtain ⟨f, -, hf⟩ := Lib.forall₂_left hys hmem
      exact ⟨f, hf⟩
    have hfind : ∀ x a, Linked fn base params x a → s.2.find x = some [a] := by
      intro x a hx
      obtain ⟨l, hl, hmem⟩ := (hlink x a).mpr hx
      obtain ⟨f, hf⟩ := hend x a hx
      cases hf with
      | done hnone => rw [hnone] at hl; cases hl
      | next hb _ =>
        rw [hb] at hl
        cases hl
        rw [hb, List.mem_singleton.mp hmem]
    have hnext : ∀ x y, Links (Linked fn base params) x y → Next s.2 x y := by
      intro x y h
      obtain ⟨a, rfl, hx⟩ := h
      exact ⟨a, hfind x a hx, rfl⟩
    refine ⟨fun x a b ha hb => ?_, fun x hx => ?_⟩
    · have heq := (hfind x a ha).symm.trans (hfind x b hb)
      simpa using heq
    · obtain ⟨y, ⟨a, rfl, ha⟩, -⟩ := TransGen.head'_iff.mp hx
      obtain ⟨f, hf⟩ := hend x a ha
      exact hf.acyclic (TransGen.mono hnext _ _ hx)
  · intro h
    have hnext : ∀ x y, Next s.2 x y → Links (Linked fn base params) x y := by
      intro x y h
      obtain ⟨a, hfind, rfl⟩ := h
      exact ⟨a, rfl, (hlink x a).mp ⟨_, hfind, List.mem_singleton_self a⟩⟩
    have hsane : Sane s.2 := by
      refine ⟨fun x l hl => ?_, fun x hx => h.acyclic x (TransGen.mono hnext _ _ hx)⟩
      obtain ⟨a, ha⟩ := List.exists_mem_of_ne_nil _ (hne x l hl)
      refine ⟨a, eq_singleton (hne x l hl) (hsorted x l hl) fun b hb => ?_⟩
      exact h.single x b a ((hlink x b).mp ⟨l, hl, hb⟩) ((hlink x a).mp ⟨l, hl, ha⟩)
    obtain ⟨m', xss, hres, -⟩ := hsane.resolve s.1
    exact ⟨⟨xss, m'⟩, by simp [hres]⟩

namespace Header

theorem mentioned_params {fn : Func} {s : Liveness} (hs : computeLiveness (fn.blocks.map buildBlockInfo) (livenessFuel fn)
    (.init fn) = some s) {params : List (Var × Value)} (hparams : blockParametersToArgs fn = some params) {x : Var} {a : Value}
    (hx : (x, a) ∈ params) : Mentioned (buildTimesteps fn s) x := by
  simp only [blockParametersToArgs, Option.map_eq_some_iff] at hparams
  obtain ⟨pss, hm, rfl⟩ := hparams
  obtain ⟨ps, hps, hx⟩ := List.mem_flatten.mp hx
  obtain ⟨blk, hblk, hblk'⟩ := (Lib.mem_mapM hm ps).mp hps
  exact mentioned_of_handleTerminator hs hblk hblk' hx

/-- **The analysis of the header returns** exactly where forwarding neither branches nor comes back. -/
theorem analyse_iff {fn : Func} {params : List (Var × Value)} (hparams : blockParametersToArgs fn = some params) :
    ∃ base, timesteps fn = some base ∧
      ((∃ la, LiveAnalysis.analyse fn = some la) ↔ Forwards (Regalloc.Linked fn base params)) := by
  obtain ⟨s, hs, -⟩ := liveness_least fn
  refine ⟨buildTimesteps fn s, by rw [timesteps, hs]; rfl, ?_⟩
  rw [← LiveAnalysis.ofTimesteps_iff fun x a hx => mentioned_params hs hparams hx]
  unfold LiveAnalysis.analyse
  rw [hparams, timesteps, hs]
  rfl

theorem analyse_iff_loopOnce : blockParametersToArgs loopOnce = some [(.forwarded 0 0, 20)] ∧ ∃ base,
    timesteps loopOnce = some base ∧ ((∃ la, LiveAnalysis.analyse loopOnce = some la) ↔
      Forwards (Regalloc.Linked loopOnce base [(.forwarded 0 0, 20)])) := by
  have hparams : blockParametersToArgs loopOnce = some [(.forwarded 0 0, 20)] := by decide +kernel
  exact ⟨hparams, analyse_iff hparams⟩

/-- A value passed to an argument of both destinations of a branch. -/
def passedTwice : Func where
  blocks := [⟨[], [⟨0, .guarded, [10], [], []⟩, ⟨1, .jumpIfFalse, [], [10], [(1, [10]), (2, [10])]⟩]⟩,
    ⟨[20], [⟨2, .ret, [], [20], []⟩]⟩, ⟨[30], [⟨3, .ret, [], [30], []⟩]⟩]
  results_nodup := by decide
  ids_nodup := by decide
  single := by decide

/-- A value that a loop hands on to its own header. -/
def passedAround : Func where
  blocks := [⟨[], [⟨0, .guarded, [10], [], []⟩, ⟨1, .branch, [], [], [(1, [10])]⟩]⟩,
    ⟨[20], [⟨2, .jumpIfFalse, [], [20], [(1, [20]), (2, [])]⟩]⟩, ⟨[], [⟨3, .ret, [], [11], []⟩]⟩]
  results_nodup := by decide
  ids_nodup := by decide
  single := by decide

/-- The first fails the assertion; in the second the loop does not end. -/
theorem chains_unresolved : ((blockParametersToArgs passedTwice).isSome ∧ LiveAnalysis.analyse passedTwice = none) ∧
    (blockParametersToArgs passedAround).isSome ∧ LiveAnalysis.analyse passedAround = none := by
  have htwice : (LiveAnalysis.analyse passedTwice).isNone = true := by decide +kernel
  have haround : (LiveAnalysis.analyse passedAround).isNone = true := by decide +kernel
  exact ⟨⟨by decide +kernel, Option.isNone_iff_eq_none.mp htwice⟩, by decide +kernel, Option.isNone_iff_eq_none.mp haround⟩

end Header

end Pylang.Regalloc
