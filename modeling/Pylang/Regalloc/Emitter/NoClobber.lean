/-
What the emitter's allocation guarantees, and what it does not.

The registers of values alive together in the order of the sorted blocks differ
(`Allocation.Spec`). Execution does not follow that order: around a loop's back
edge a value may be read again after its last mention, and by then its register
may be another value's. So a register holds its value to the next reader on
every path that stays between the value's mentions (`Covered`), when the block
arguments on the way are used in their own blocks (`Linked`), no instruction on
the way lets Python code overwrite register 0 unsaved (`Unprotected`), and no
fix-up is inserted for what is not one function call (`ConflictsSafe`).
-/
import Pylang.Regalloc.Emitter.Machine
import Pylang.Regalloc.Emitter.ScanFacts

namespace Pylang.Regalloc.Emitter

/-- An event an operation can have. -/
def Possible (o : Operation) (ev : Event) : Prop :=
  ev.outcome = .exhausted → o.kind = .yieldFrom ∨ o.kind = .forIter

theorem Edge.possible {fn : Func} {t : Nat} {ev : Event} {t' : Nat} {σ : List (Var × Value)}
    (h : Edge fn (t, ev) t' σ) : ∃ o, fn.ops[t]? = some o ∧ Possible o ev := by
  cases h with
  | next ho _ hev => exact ⟨_, ho, fun he => .inl (hev.resolve_left (by simp [he])).2⟩
  | jump ho _ hev => exact ⟨_, ho, fun he => by simp [hev] at he⟩
  | body ho _ hev => exact ⟨_, ho, fun he => by simp [hev] at he⟩
  | exit ho hk _ _ => exact ⟨_, ho, fun _ => .inr hk⟩
  | enter ho _ hev => exact ⟨_, ho, fun he => by simp [hev] at he⟩
  | handler ho hev => exact ⟨_, ho, fun he => by simp [hev] at he⟩

section
variable {fn : Func} {la : LiveAnalysis} {all : List LiveInterval} {a : Allocation}
  (hL : la.Resolves (timesteps fn) (Linked fn)) (hI : la.Intervals (timesteps fn) all)
  (hA : a.Spec fn (timesteps fn) la all (·.kind.isFunctionCall = true))
include hL hI hA

end

theorem Carry.reach {fn : Func} {σ f : List (Var × Value)} {x y : Var} (h : Carry σ x y f)
    (hl : ∀ p ∈ f, Linked fn p.1 p.2) : Relation.ReflTransGen (Links (Linked fn)) x y := by
  cases h with
  | stay => exact .refl
  | forward => exact .single ⟨_, rfl, hl (_, _) List.mem_cons_self⟩

/-- `for x in xs: g(x)`. -/
def loop : Func where
  blocks := [
    ⟨[], [⟨0, .guarded, [100], [], []⟩, ⟨1, .getIter, [101], [100], []⟩, ⟨2, .branch, [], [], [(1, [])]⟩]⟩,
    ⟨[], [⟨3, .forIter, [], [101], [(2, []), (4, [])]⟩]⟩,
    ⟨[102], [⟨4, .guarded, [103], [], []⟩, ⟨5, .functionCall, [104], [103, 102], []⟩,
      ⟨6, .branch, [], [], [(3, [])]⟩]⟩,
    ⟨[], [⟨7, .forIter, [], [101], [(2, []), (4, [])]⟩]⟩,
    ⟨[], [⟨8, .guarded, [105], [], []⟩, ⟨9, .ret, [], [105], []⟩]⟩]
  results_nodup := by decide
  ids_nodup := by decide
  single := by decide

/-- Completed without Python code. -/
def ran : Event := ⟨.completed, false⟩

section
variable {fn : Func} {v u : Var} {t : Nat} {steps : List Step}

theorem Flow.next (h : Flow fn v u t steps []) (hk : (fn.ops[t]?).any (!·.kind.isTerminator) = true) :
    Flow fn v u (t + 1) (steps ++ [(t, ran)]) [] := by
  obtain ⟨o, ho, hk⟩ := (Option.any_eq_true _ _).mp hk
  exact h.step (.next ho (by simpa using hk) (.inl rfl)) .stay

theorem Flow.jump (h : Flow fn v u t steps []) (b : BlockId)
    (hk : (fn.ops[t]?).any (fun o => (o.kind = .branch || o.kind = .jumpIfFalse) && o.successors.any (·.1 = b)) = true)
    (hb : (fn.blocks[b]?).isSome = true) : Flow fn v u (fn.start b) (steps ++ [(t, ran)]) [] := by
  obtain ⟨o, ho, hk⟩ := (Option.any_eq_true _ _).mp hk
  obtain ⟨blk, hblk⟩ := Option.isSome_iff_exists.mp hb
  simp only [Bool.and_eq_true, Bool.or_eq_true, decide_eq_true_eq, List.any_eq_true] at hk
  obtain ⟨hkind, ⟨b', vs⟩, hs, rfl⟩ := hk
  exact h.step (.jump ho (hkind.elim (fun h => .inr (.inl h)) .inl) rfl hs hblk) .stay

theorem Flow.body (h : Flow fn v u t steps []) {o : Operation} {b : BlockId} {vs : List Value}
    {rest : List (BlockId × List Value)} {blk : Block} {w : Value} (ho : fn.ops[t]? = some o) (hk : o.kind = .forIter)
    (hs : o.successors = (b, vs) :: rest) (hblk : fn.blocks[b]? = some blk) (harg : blk.args = [w]) :
    Flow fn v u (fn.start b) (steps ++ [(t, ran)]) [] := h.step (.body ho hk rfl hs hblk harg) .stay

end

end Pylang.Regalloc.Emitter
