/-
Live intervals: the subintervals of timesteps a value is mentioned in, and the
hull around them. Both allocators build them the same way, one timestep after
the other; `std::sort` then orders them by start, in any order where starts are
equal (`StartSort`).
-/
import Mathlib.Data.List.Sort
import Pylang.Regalloc.Ir

namespace Pylang.Regalloc

/-- `LiveInterval`: at least one subinterval, earliest first. -/
structure LiveInterval where
  value : Var
  intervals : List (Nat × Nat)
  nonempty : intervals ≠ []
deriving DecidableEq

namespace LiveInterval

def start (i : LiveInterval) : Nat := (i.intervals.head i.nonempty).1

/-- `end()`. -/
def stop (i : LiveInterval) : Nat := (i.intervals.getLast i.nonempty).2

/-- `alive_at`: inside the hull. -/
def aliveAt (i : LiveInterval) (pos : Nat) : Bool := i.start ≤ pos && pos < i.stop

theorem aliveAt_iff {i : LiveInterval} {pos : Nat} : i.aliveAt pos = true ↔ i.start ≤ pos ∧ pos < i.stop := by
  simp [aliveAt]

def single (x : Var) (current : Nat) : LiveInterval := ⟨x, [(current, current + 1)], by simp⟩

/-- One more timestep: the last subinterval grows, or a new one begins. -/
def extend (i : LiveInterval) (current : Nat) : LiveInterval :=
  if current = i.stop then
    ⟨i.value, i.intervals.dropLast ++ [((i.intervals.getLast i.nonempty).1, i.stop + 1)], by simp⟩
  else ⟨i.value, i.intervals ++ [(current, current + 1)], by simp⟩

@[simp] theorem single_value {x : Var} {t : Nat} : (single x t).value = x := rfl
@[simp] theorem single_start {x : Var} {t : Nat} : (single x t).start = t := rfl
@[simp] theorem single_stop {x : Var} {t : Nat} : (single x t).stop = t + 1 := rfl

@[simp] theorem extend_value {i : LiveInterval} {t : Nat} : (i.extend t).value = i.value := by
  simp only [extend]; split <;> rfl

@[simp] theorem extend_stop {i : LiveInterval} {t : Nat} : (i.extend t).stop = t + 1 := by
  simp only [extend]
  split
  next h => simp [stop, h]
  next => simp [stop]

@[simp] theorem extend_start {i : LiveInterval} {t : Nat} : (i.extend t).start = i.start := by
  obtain ⟨x, l, hl⟩ := i
  simp only [extend]
  split
  next =>
    match l with
    | [(a, b)] => rfl
    | (a, b) :: (c, d) :: l => simp [start]
  next =>
    match l with
    | (a, b) :: l => simp [start]

end LiveInterval

/-- `update_interval`. -/
def updateInterval (current : Nat) : List LiveInterval → Var → List LiveInterval
  | [], x => [.single x current]
  | i :: l, x => if i.value = x then i.extend current :: l else i :: updateInterval current l x

/-- The intervals of the timesteps from `t` on. -/
def intervalsFrom (t : Nat) : List (List Var) → List LiveInterval → List LiveInterval
  | [], l => l
  | xs :: xss, l => intervalsFrom (t + 1) xss (xs.foldl (updateInterval t) l)

/-- A sort by start: `std::sort` leaves equal starts in any order. -/
structure StartSort where
  sort : List LiveInterval → List LiveInterval
  perm : ∀ l, (sort l).Perm l
  sorted : ∀ l, (sort l).Pairwise (·.start ≤ ·.start)

/-- The stable sort. -/
def StartSort.stable : StartSort where
  sort l := l.insertionSort (·.start ≤ ·.start)
  perm l := List.perm_insertionSort _ l
  sorted l := by
    have : Std.Total (fun i j : LiveInterval => i.start ≤ j.start) := ⟨fun i j => Nat.le_total _ _⟩
    have : IsTrans LiveInterval (fun i j => i.start ≤ j.start) := ⟨fun _ _ _ => Nat.le_trans⟩
    exact List.pairwise_insertionSort _ l

/-! ## What the intervals cover -/

/-- Some interval of the list is the value's, and is alive at `t`. -/
def CoveredBy (l : List LiveInterval) (x : Var) (t : Nat) : Prop :=
  ∃ i ∈ l, i.value = x ∧ i.start ≤ t ∧ t < i.stop

/-- The intervals built up to timestep `t`: one for each value, none from beyond `t`. -/
structure BuiltTo (t : Nat) (l : List LiveInterval) : Prop where
  nodup : (l.map (·.value)).Nodup
  start_le : ∀ i ∈ l, i.start ≤ t
  stop_le : ∀ i ∈ l, i.stop ≤ t + 1

theorem mem_values_updateInterval {t : Nat} {x y : Var} : ∀ {l : List LiveInterval},
    y ∈ (updateInterval t l x).map (·.value) ↔ y ∈ l.map (·.value) ∨ y = x
  | [] => by simp [updateInterval]
  | i :: l => by
    simp only [updateInterval]
    split
    next h => simp only [List.map_cons, LiveInterval.extend_value, List.mem_cons]; subst h; tauto
    next => simp only [List.map_cons, List.mem_cons, mem_values_updateInterval (l := l), or_assoc]

theorem mem_updateInterval {t : Nat} {x : Var} {j : LiveInterval} : ∀ {l : List LiveInterval},
    j ∈ updateInterval t l x → j ∈ l ∨ j = .single x t ∨ ∃ i ∈ l, i.value = x ∧ j = i.extend t
  | [], h => by simp only [updateInterval, List.mem_singleton] at h; exact .inr (.inl h)
  | i :: l, h => by
    simp only [updateInterval] at h
    split at h
    next hi =>
      rcases List.mem_cons.mp h with rfl | h
      · exact .inr (.inr ⟨i, by simp, hi, rfl⟩)
      · exact .inl (by simp [h])
    next =>
      rcases List.mem_cons.mp h with rfl | h
      · exact .inl (by simp)
      · rcases mem_updateInterval h with h | h | ⟨k, hk, h⟩
        · exact .inl (by simp [h])
        · exact .inr (.inl h)
        · exact .inr (.inr ⟨k, by simp [hk], h⟩)

theorem nodup_updateInterval {t : Nat} {x : Var} : ∀ {l : List LiveInterval}, (l.map (·.value)).Nodup →
    ((updateInterval t l x).map (·.value)).Nodup
  | [], _ => by simp [updateInterval]
  | i :: l, h => by
    simp only [List.map_cons, List.nodup_cons] at h
    simp only [updateInterval]
    split
    next => simpa using h
    next hne =>
      simp only [List.map_cons, List.nodup_cons, mem_values_updateInterval, not_or]
      exact ⟨⟨h.1, hne⟩, nodup_updateInterval h.2⟩

theorem BuiltTo.update {t : Nat} {l : List LiveInterval} (h : BuiltTo t l) (x : Var) :
    BuiltTo t (updateInterval t l x) := by
  refine ⟨nodup_updateInterval h.nodup, fun j hj => ?_, fun j hj => ?_⟩
  · rcases mem_updateInterval hj with hj | rfl | ⟨i, hi, _, rfl⟩
    · exact h.start_le j hj
    · simp
    · simpa using h.start_le i hi
  · rcases mem_updateInterval hj with hj | rfl | ⟨i, hi, _, rfl⟩
    · exact h.stop_le j hj
    · simp
    · simp

theorem CoveredBy.update {t : Nat} {x : Var} : ∀ {l : List LiveInterval}, (∀ i ∈ l, i.start ≤ t) →
    (∀ i ∈ l, i.stop ≤ t + 1) → CoveredBy (updateInterval t l x) x t ∧
      ∀ y s, CoveredBy l y s → CoveredBy (updateInterval t l x) y s
  | [], _, _ => by simp [CoveredBy, updateInterval]
  | i :: l, h1, h2 => by
    simp only [updateInterval]
    split
    next hx =>
      refine ⟨⟨_, List.mem_cons_self, by simpa using hx, by simpa using h1 i (by simp), by simp⟩, ?_⟩
      intro y s h
      obtain ⟨j, hj, hy, hlo, hhi⟩ := h
      rcases List.mem_cons.mp hj with rfl | hj
      · have := h2 j (by simp)
        exact ⟨_, List.mem_cons_self, by simpa using hy, by simpa using hlo, by simp; omega⟩
      · exact ⟨j, by simp [hj], hy, hlo, hhi⟩
    next =>
      obtain ⟨⟨j, hj, hc⟩, g2⟩ := CoveredBy.update (l := l) (x := x) (fun i hi => h1 i (by simp [hi])) fun i hi => h2 i (by simp [hi])
      refine ⟨⟨j, by simp [hj], hc⟩, ?_⟩
      intro y s h
      obtain ⟨k, hk, hc⟩ := h
      rcases List.mem_cons.mp hk with rfl | hk
      · exact ⟨k, by simp, hc⟩
      · obtain ⟨k', hk', hc'⟩ := g2 y s ⟨k, hk, hc⟩
        exact ⟨k', by simp [hk'], hc'⟩

theorem BuiltTo.timestep {t : Nat} : ∀ (xs : List Var) {l : List LiveInterval}, BuiltTo t l →
    BuiltTo t (xs.foldl (updateInterval t) l) ∧ (∀ x ∈ xs, CoveredBy (xs.foldl (updateInterval t) l) x t) ∧
      (∀ y s, CoveredBy l y s → CoveredBy (xs.foldl (updateInterval t) l) y s) ∧
      ∀ y, y ∈ (xs.foldl (updateInterval t) l).map (·.value) ↔ y ∈ l.map (·.value) ∨ y ∈ xs
  | [], l, h => by simp [h]
  | x :: xs, l, h => by
    obtain ⟨c1, c2⟩ := CoveredBy.update (x := x) h.start_le h.stop_le
    obtain ⟨h1, h2, h3, h4⟩ := BuiltTo.timestep xs (h.update x)
    refine ⟨h1, ?_, fun y s hc => h3 y s (c2 y s hc), fun y => ?_⟩
    · intro y hy
      rcases List.mem_cons.mp hy with rfl | hy
      · exact h3 _ _ c1
      · exact h2 y hy
    · simp only [List.foldl_cons, h4, mem_values_updateInterval, List.mem_cons, or_assoc]

/-- **The intervals of a live analysis**: one for each value mentioned, alive wherever it is mentioned. -/
theorem intervalsFrom_spec {t : Nat} : ∀ (xss : List (List Var)) {l : List LiveInterval}, BuiltTo t l →
    ((intervalsFrom t xss l).map (·.value)).Nodup ∧
      (∀ s xs, xss[s]? = some xs → ∀ x ∈ xs, CoveredBy (intervalsFrom t xss l) x (t + s)) ∧
      (∀ y s, CoveredBy l y s → CoveredBy (intervalsFrom t xss l) y s) ∧
      ∀ y, y ∈ (intervalsFrom t xss l).map (·.value) ↔ y ∈ l.map (·.value) ∨ ∃ xs ∈ xss, y ∈ xs
  | [], l, h => by simp [intervalsFrom, h.nodup]
  | xs :: xss, l, h => by
    obtain ⟨g1, g2, g3, g4⟩ := BuiltTo.timestep xs h
    obtain ⟨h1, h2, h3, h4⟩ := intervalsFrom_spec (t := t + 1) xss
      ⟨g1.nodup, fun i hi => Nat.le_succ_of_le (g1.start_le i hi), fun i hi => Nat.le_succ_of_le (g1.stop_le i hi)⟩
    refine ⟨h1, ?_, fun y s hc => h3 y s (g3 y s hc), fun y => ?_⟩
    · intro s ys hs x hx
      cases s with
      | zero =>
        simp only [List.getElem?_cons_zero, Option.some.injEq] at hs
        subst hs
        exact h3 _ _ (g2 x hx)
      | succ s => simpa [intervalsFrom, Nat.add_assoc, Nat.add_comm 1 s] using h2 s ys (by simpa using hs) x hx
    · simp only [intervalsFrom, h4, g4, List.mem_cons, exists_eq_or_imp, or_assoc]

theorem BuiltTo.empty : BuiltTo 0 [] := ⟨by simp, by simp, by simp⟩

end Pylang.Regalloc
