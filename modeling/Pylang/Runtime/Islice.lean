/-
`itertools.islice`. A call first advances the iterator to the next position and
then looks whether that is past the stop: what it gives is right for every step
but 0, and what it takes from the iterator is more than the slice needs.
-/
import Mathlib.Tactic.ByContra

namespace Pylang.Runtime

/-- An argument of `islice`. -/
inductive IsliceArg where
  | none
  | int (n : Int)
  | other
  deriving DecidableEq

structure ISlice where
  start : Nat
  stop : Option Nat
  step : Nat
  counter : Option Nat := none
  deriving DecidableEq

/-- What `__next__` returns. -/
inductive IsliceReply (V : Type) where
  | item (v : V)
  | stopIteration
  deriving DecidableEq

namespace ISlice

/-- `get_big_int`, or the message of the `ValueError`. -/
def getBigInt (name : String) : IsliceArg → Except String (Option Nat)
  | .none => .ok none
  | .int n =>
    if n < 0 then .error s!"{name} argument for islice() an integer: 0 <= x <=  sys.maxsize" else .ok (some n.toNat)
  | .other => .error s!"{name} argument for islice() must be None or an integer: 0 <= x <= sys.maxsize"

/-- `ISlice::create`, for the iterator of the iterable. -/
def create (start stop step : IsliceArg) : Except String ISlice := do
  let start ← getBigInt "start" start
  let stop ← getBigInt "stop" stop
  let step ← getBigInt "step" step
  return { start := start.getD 0, stop, step := step.getD 1 }

variable {V : Type} (items : Nat → Option V)

/-- `advance_iterator_to`, with the counter and the number of items that the iterator has given: false if it ends. -/
def advance (limit : Nat) (counter pos : Nat) : Bool × Nat × Nat :=
  if counter < limit then
    match items pos with
    | some _ => advance limit (counter + 1) (pos + 1)
    | none => (false, counter, pos)
  else (true, counter, pos)
termination_by limit - counter

/-- `__next__`. -/
def next (p : ISlice) (pos : Nat) : IsliceReply V × ISlice × Nat :=
  let limit := match p.counter with
    | none => p.start
    | some counter => counter + p.step - 1
  match advance items limit (p.counter.getD 0) pos with
  | (false, counter, pos) => (.stopIteration, { p with counter := some counter }, pos)
  | (true, counter, pos) =>
    if p.stop.any (· ≤ counter) then (.stopIteration, { p with counter := some counter }, pos)
    else
      match items pos with
      | some v => (.item v, { p with counter := some (counter + 1) }, pos + 1)
      | none => (.stopIteration, { p with counter := some (counter + 1) }, pos)

/-- The slice and the number of items given after `k` calls. -/
def after (p : ISlice) (pos : Nat) : Nat → ISlice × Nat
  | 0 => (p, pos)
  | k + 1 => let (p, pos) := (next items p pos).2; after p pos k

/-- The reply to the call after `k` others. -/
def reply (p : ISlice) (k : Nat) : IsliceReply V := (next items (after items p 0 k).1 (after items p 0 k).2).1

/-- What the iterator has given after `k` calls. -/
def consumed (p : ISlice) (k : Nat) : Nat := (after items p 0 k).2

/-! ## What it is for -/

def arg : Option Nat → IsliceArg
  | none => .none
  | some n => .int n

/-- A position of the slice: below the stop, and the iterator gets to it. -/
def Selected (stop : Option Nat) (q : Nat) : Prop := (∀ t, stop = some t → q < t) ∧ ∀ i ≤ q, items i ≠ none

/-- What is asked of the slice that is made. -/
structure Slices (start : Nat) (stop : Option Nat) (step : Nat) (p : ISlice) : Prop where
  yields : ∀ k, Selected items stop (start + k * step) → ∃ v, items (start + k * step) = some v ∧ p.reply items k = .item v
  stops : ∀ k, ¬ Selected items stop (start + k * step) → p.reply items k = .stopIteration
  consumes : ∀ k t, stop = some t → p.consumed items k ≤ max start t

/-- What is asked of `islice(it, start, stop, step)`. -/
def SlicesRight (start stop step : Option Nat) : Prop :=
  if step = some 0 then ∃ message, create (arg start) (arg stop) (arg step) = .error message
  else ∃ p, create (arg start) (arg stop) (arg step) = .ok p ∧ Slices items (start.getD 0) stop (step.getD 1) p

/-- The slices that take no more than they need. -/
def Sliceable (start stop step : Option Nat) : Prop :=
  step ≠ some 0 ∧ (step.getD 1 = 1 ∨ ∀ t, stop = some t → ∃ i ≤ max (start.getD 0) t, items i = none)

variable {items}

/-! ## A call -/

/-- The counter and the iterator have gone on together, over items that are there. -/
structure Advanced (items : Nat → Option V) (counter pos counter' pos' : Nat) : Prop where
  le : counter ≤ counter'
  sum : pos' + counter = pos + counter'
  items : ∀ i, pos ≤ i → i < pos' → items i ≠ none

theorem advance_spec (limit : Nat) : ∀ {counter pos : Nat} {ok : Bool} {counter' pos' : Nat},
    advance items limit counter pos = (ok, counter', pos') → Advanced items counter pos counter' pos' ∧
      (ok = true → counter' = max counter limit) ∧ (ok = false → items pos' = none ∧ counter' < limit) := by
  intro counter pos
  fun_induction advance items limit counter pos with
  | case1 counter pos hlt v hv ih =>
    intro ok counter' pos' h
    obtain ⟨hadvanced, hok, hend⟩ := ih h
    have hle := hadvanced.le
    have hsum := hadvanced.sum
    refine ⟨{ le := by omega, sum := by omega, items := fun i hi hi' => ?_ }, fun h => ?_, hend⟩
    · by_cases heq : i = pos
      · rw [heq, hv]
        exact nofun
      · exact hadvanced.items i (by omega) hi'
    · have hmax := hok h
      omega
  | case2 counter pos hlt hnone =>
    intro ok counter' pos' h
    cases h
    exact ⟨{ le := Nat.le_refl _, sum := rfl, items := fun i hi hi' => by omega }, nofun, fun _ => ⟨hnone, hlt⟩⟩
  | case3 counter pos hge =>
    intro ok counter' pos' h
    cases h
    exact ⟨{ le := Nat.le_refl _, sum := rfl, items := fun i hi hi' => by omega }, fun _ => by omega, nofun⟩

/-- Where a call advances to. -/
def target (p : ISlice) : Nat :=
  match p.counter with
  | none => p.start
  | some counter => counter + p.step - 1

/-- What a call does. -/
inductive Call (items : Nat → Option V) (p : ISlice) (pos : Nat) : IsliceReply V × ISlice × Nat → Prop where
  /-- The iterator ends before the position. -/
  | ends {counter' pos' : Nat} (hadvanced : Advanced items (p.counter.getD 0) pos counter' pos') (hnone : items pos' = none)
      (hlt : counter' < p.target) : Call items p pos (.stopIteration, { p with counter := some counter' }, pos')
  /-- The position is not below the stop. -/
  | stops {counter' pos' : Nat} (hadvanced : Advanced items (p.counter.getD 0) pos counter' pos')
      (hmax : counter' = max (p.counter.getD 0) p.target) (t : Nat) (hstop : p.stop = some t) (hle : t ≤ counter') :
      Call items p pos (.stopIteration, { p with counter := some counter' }, pos')
  | gives {counter' pos' : Nat} (hadvanced : Advanced items (p.counter.getD 0) pos counter' pos')
      (hmax : counter' = max (p.counter.getD 0) p.target) (hbelow : ∀ t, p.stop = some t → counter' < t) (v : V)
      (hitem : items pos' = some v) : Call items p pos (.item v, { p with counter := some (counter' + 1) }, pos' + 1)
  /-- The iterator ends at the position. -/
  | drained {counter' pos' : Nat} (hadvanced : Advanced items (p.counter.getD 0) pos counter' pos')
      (hmax : counter' = max (p.counter.getD 0) p.target) (hbelow : ∀ t, p.stop = some t → counter' < t)
      (hnone : items pos' = none) : Call items p pos (.stopIteration, { p with counter := some (counter' + 1) }, pos')

theorem call_next (items : Nat → Option V) (p : ISlice) (pos : Nat) : Call items p pos (next items p pos) := by
  rcases hadvance : advance items p.target (p.counter.getD 0) pos with ⟨ok, counter', pos'⟩
  obtain ⟨hadvanced, hok, hend⟩ := advance_spec _ hadvance
  have hnext : next items p pos = match advance items p.target (p.counter.getD 0) pos with
      | (false, counter, pos) => (.stopIteration, { p with counter := some counter }, pos)
      | (true, counter, pos) =>
        if p.stop.any (· ≤ counter) then (.stopIteration, { p with counter := some counter }, pos)
        else
          match items pos with
          | some v => (.item v, { p with counter := some (counter + 1) }, pos + 1)
          | none => (.stopIteration, { p with counter := some (counter + 1) }, pos) := rfl
  rw [hnext, hadvance]
  cases ok with
  | false => exact .ends hadvanced (hend rfl).1 (hend rfl).2
  | true =>
    have hany : p.stop.any (· ≤ counter') = true ↔ ∃ t, p.stop = some t ∧ t ≤ counter' := by
      cases p.stop with
      | none => simp
      | some t => simp
    dsimp only
    by_cases hstop : p.stop.any (· ≤ counter') = true
    · obtain ⟨t, ht, hle⟩ := hany.mp hstop
      rw [if_pos hstop]
      exact .stops hadvanced (hok rfl) t ht hle
    · have hbelow (t : Nat) (ht : p.stop = some t) : counter' < t :=
        Nat.lt_of_not_le fun hle => hstop (hany.mpr ⟨t, ht, hle⟩)
      rw [if_neg hstop]
      cases hitem : items pos' with
      | some v => exact .gives hadvanced (hok rfl) hbelow v hitem
      | none => exact .drained hadvanced (hok rfl) hbelow hitem

/-! ## A run -/

/-- The slice as it was made, with some counter. -/
structure Made (start : Nat) (stop : Option Nat) (step : Nat) (p : ISlice) : Prop where
  start : p.start = start
  stop : p.stop = stop
  step : p.step = step

/-- The next call goes to position `q`, and the iterator has given as much as is counted. -/
structure At (items : Nat → Option V) (q : Nat) (p : ISlice) (pos : Nat) : Prop where
  target : p.target = q
  counter : p.counter.getD 0 = pos
  le : pos ≤ q
  items : ∀ i < pos, items i ≠ none

/-- The slice is over: the iterator is at its end, or the counter is past the stop. -/
def Ended (items : Nat → Option V) (p : ISlice) (pos : Nat) : Prop :=
  items pos = none ∨ ∃ t c, p.stop = some t ∧ p.counter = some c ∧ t ≤ c

variable {start step : Nat} {stop : Option Nat} {p : ISlice} {pos q : Nat}

theorem Made.call (items : Nat → Option V) (pos : Nat) (h : Made start stop step p) :
    Made start stop step (next items p pos).2.1 := by
  generalize hresult : next items p pos = result
  have hcall := hresult ▸ call_next items p pos
  cases hcall with
  | ends => exact ⟨h.start, h.stop, h.step⟩
  | stops => exact ⟨h.start, h.stop, h.step⟩
  | gives => exact ⟨h.start, h.stop, h.step⟩
  | drained => exact ⟨h.start, h.stop, h.step⟩

/-- A call at a position: it gives the item and goes on, or there is no such item and the slice is over. -/
theorem At.call (h : At items q p pos) (hmade : Made start stop step p) (hstep : step ≠ 0) :
    (Selected items stop q ∧ (∃ v, items q = some v ∧ (next items p pos).1 = .item v) ∧
      At items (q + step) (next items p pos).2.1 (next items p pos).2.2) ∨
    (¬ Selected items stop q ∧ (next items p pos).1 = .stopIteration ∧
      Ended items (next items p pos).2.1 (next items p pos).2.2) := by
  have htarget := h.target
  have hcounter := h.counter
  have hle := h.le
  generalize hresult : next items p pos = result
  have hcall := hresult ▸ call_next items p pos
  have hall {counter' pos' : Nat} (hadvanced : Advanced items (p.counter.getD 0) pos counter' pos') :
      counter' = pos' ∧ ∀ i < pos', items i ≠ none := by
    have hsum := hadvanced.sum
    refine ⟨by omega, fun i hi => ?_⟩
    by_cases hi' : i < pos
    · exact h.items i hi'
    · exact hadvanced.items i (by omega) hi
  cases hcall with
  | @ends counter' pos' hadvanced hnone hlt =>
    obtain ⟨heq, -⟩ := hall hadvanced
    exact .inr ⟨fun hselected => hselected.2 pos' (by omega) hnone, rfl, .inl hnone⟩
  | @stops counter' pos' hadvanced hmax t hstop hle' =>
    refine .inr ⟨fun hselected => ?_, rfl, .inr ⟨t, counter', hstop, rfl, hle'⟩⟩
    have hlt := hselected.1 t (hmade.stop ▸ hstop)
    omega
  | @gives counter' pos' hadvanced hmax hbelow v hitem =>
    obtain ⟨heq, hitems⟩ := hall hadvanced
    obtain rfl : pos' = q := by omega
    refine .inl ⟨⟨fun t ht => ?_, fun i hi => ?_⟩, ⟨v, hitem, rfl⟩, ?_⟩
    · have hlt := hbelow t (hmade.stop ▸ ht)
      omega
    · by_cases hi' : i = pos'
      · rw [hi', hitem]
        exact nofun
      · exact hitems i (by omega)
    · have hs := hmade.step
      refine { target := ?_, counter := ?_, le := by dsimp only; omega, items := fun i (hi : i < pos' + 1) => ?_ }
      · show counter' + 1 + p.step - 1 = pos' + step
        omega
      · show counter' + 1 = pos' + 1
        omega
      · by_cases hi' : i = pos'
        · rw [hi', hitem]
          exact nofun
        · exact hitems i (by omega)
  | @drained counter' pos' hadvanced hmax hbelow hnone =>
    obtain ⟨heq, -⟩ := hall hadvanced
    exact .inr ⟨fun hselected => hselected.2 pos' (by omega) hnone, rfl, .inl hnone⟩

theorem Ended.call (h : Ended items p pos) :
    (next items p pos).1 = .stopIteration ∧ Ended items (next items p pos).2.1 (next items p pos).2.2 := by
  generalize hresult : next items p pos = result
  have hcall := hresult ▸ call_next items p pos
  have hstill {counter' pos' : Nat} (hadvanced : Advanced items (p.counter.getD 0) pos counter' pos')
      (hnone : items pos = none) : pos' = pos := by
    by_contra hne
    have hle := hadvanced.le
    have hsum := hadvanced.sum
    exact hadvanced.items pos (Nat.le_refl _) (by omega) hnone
  cases hcall with
  | ends hadvanced hnone => exact ⟨rfl, .inl hnone⟩
  | stops hadvanced hmax t hstop hle => exact ⟨rfl, .inr ⟨t, _, hstop, rfl, hle⟩⟩
  | gives hadvanced hmax hbelow v hitem =>
    rcases h with hnone | ⟨t, c, ht, hc, hle⟩
    · cases (hstill hadvanced hnone ▸ hitem).symm.trans hnone
    · have hlt := hbelow t ht
      have hge := hadvanced.le
      rw [hc, Option.getD_some] at hge
      omega
  | drained hadvanced hmax hbelow hnone => exact ⟨rfl, .inl hnone⟩

theorem selected_mono {q' : Nat} (hle : q ≤ q') (h : Selected items stop q') : Selected items stop q :=
  ⟨fun t ht => Nat.lt_of_le_of_lt hle (h.1 t ht), fun i hi => h.2 i (Nat.le_trans hi hle)⟩

theorem after_succ (p : ISlice) (pos : Nat) : ∀ k, after items p pos (k + 1) =
    (next items (after items p pos k).1 (after items p pos k).2).2 := by
  intro k
  induction k generalizing p pos with
  | zero => rfl
  | succ k ih => exact ih (next items p pos).2.1 (next items p pos).2.2

/-- What holds before the call after `k` others: it goes to the position of the slice, or the slice is over there. -/
theorem run_inv (items : Nat → Option V) (hp : p = { start, stop, step }) (hstep : step ≠ 0) (k : Nat) :
    Made start stop step (after items p 0 k).1 ∧
      (At items (start + k * step) (after items p 0 k).1 (after items p 0 k).2 ∨
        ¬ Selected items stop (start + k * step) ∧ Ended items (after items p 0 k).1 (after items p 0 k).2) := by
  induction k with
  | zero =>
    subst hp
    refine ⟨⟨rfl, rfl, rfl⟩, .inl { target := ?_, counter := rfl, le := Nat.zero_le _, items := fun i hi => by cases hi }⟩
    rw [Nat.zero_mul]
    rfl
  | succ k ih =>
    obtain ⟨hmade, ih⟩ := ih
    have hmul : start + (k + 1) * step = start + k * step + step := by rw [Nat.succ_mul, Nat.add_assoc]
    rw [after_succ, hmul]
    refine ⟨hmade.call items _, ?_⟩
    rcases ih with hat | ⟨hnot, hended⟩
    · rcases hat.call hmade hstep with ⟨-, -, hnext⟩ | ⟨hnot, -, hended⟩
      · exact .inl hnext
      · exact .inr ⟨fun h => hnot (selected_mono (Nat.le_add_right _ _) h), hended⟩
    · exact .inr ⟨fun h => hnot (selected_mono (Nat.le_add_right _ _) h), hended.call.2⟩

theorem reply_of_selected (hp : p = { start, stop, step }) (hstep : step ≠ 0) {k : Nat}
    (h : Selected items stop (start + k * step)) :
    ∃ v, items (start + k * step) = some v ∧ p.reply items k = .item v := by
  obtain ⟨hmade, hat | ⟨hnot, -⟩⟩ := run_inv items hp hstep k
  · rcases hat.call hmade hstep with ⟨-, hgives, -⟩ | ⟨hnot, -⟩
    · exact hgives
    · exact absurd h hnot
  · exact absurd h hnot

theorem reply_of_not_selected (hp : p = { start, stop, step }) (hstep : step ≠ 0) {k : Nat}
    (h : ¬ Selected items stop (start + k * step)) : p.reply items k = .stopIteration := by
  obtain ⟨hmade, hat | ⟨-, hended⟩⟩ := run_inv items hp hstep k
  · rcases hat.call hmade hstep with ⟨hselected, -⟩ | ⟨-, hstops, -⟩
    · exact absurd hselected h
    · exact hstops
  · exact hended.call.1

/-! ## What is taken -/

/-- The iterator has given the items up to a position, and no more are counted than that. -/
structure Given (items : Nat → Option V) (p : ISlice) (pos : Nat) : Prop where
  le : pos ≤ p.counter.getD 0
  items : ∀ i < pos, items i ≠ none

theorem Given.call (h : Given items p pos) : Given items (next items p pos).2.1 (next items p pos).2.2 := by
  generalize hresult : next items p pos = result
  have hcall := hresult ▸ call_next items p pos
  have hle := h.le
  have hall {counter' pos' : Nat} (hadvanced : Advanced items (p.counter.getD 0) pos counter' pos') :
      pos' ≤ counter' ∧ ∀ i < pos', items i ≠ none := by
    have hsum := hadvanced.sum
    refine ⟨by omega, fun i hi => ?_⟩
    by_cases hi' : i < pos
    · exact h.items i hi'
    · exact hadvanced.items i (by omega) hi
  cases hcall with
  | ends hadvanced => exact ⟨(hall hadvanced).1, (hall hadvanced).2⟩
  | stops hadvanced => exact ⟨(hall hadvanced).1, (hall hadvanced).2⟩
  | @gives counter' pos' hadvanced hmax hbelow v hitem =>
    refine ⟨Nat.succ_le_succ (hall hadvanced).1, fun i hi => ?_⟩
    by_cases hi' : i = pos'
    · rw [hi', hitem]
      exact nofun
    · exact (hall hadvanced).2 i (by dsimp only at hi; omega)
  | drained hadvanced => exact ⟨Nat.le_succ_of_le (hall hadvanced).1, (hall hadvanced).2⟩

theorem given_after (items : Nat → Option V) (hp : p = { start, stop, step }) (k : Nat) :
    Given items (after items p 0 k).1 (after items p 0 k).2 := by
  induction k with
  | zero =>
    subst hp
    exact ⟨Nat.le_refl 0, fun i hi => by cases hi⟩
  | succ k ih =>
    rw [after_succ]
    exact ih.call

/-- By steps of one nothing is taken past the stop. -/
theorem taken_by_one {t : Nat} (hp : p = { start, stop := some t, step := 1 }) (k : Nat) :
    Made start (some t) 1 (after items p 0 k).1 ∧ ((after items p 0 k).1.counter = none → (after items p 0 k).2 = 0) ∧
      (after items p 0 k).2 ≤ max start t := by
  induction k with
  | zero =>
    subst hp
    exact ⟨⟨rfl, rfl, rfl⟩, fun _ => rfl, Nat.zero_le _⟩
  | succ k ih =>
    obtain ⟨hmade, hfirst, hle⟩ := ih
    have hgiven := (given_after items hp k).le
    rw [after_succ]
    generalize (after items p 0 k).1 = p' at *
    generalize (after items p 0 k).2 = pos at *
    have hbound {counter' pos' : Nat} (hadvanced : Advanced items (p'.counter.getD 0) pos counter' pos')
        (hmax : counter' ≤ max (p'.counter.getD 0) p'.target) : pos' ≤ counter' ∧ pos' ≤ max start t := by
      have hsum := hadvanced.sum
      have hstart := hmade.start
      have hstep := hmade.step
      unfold target at hmax
      rcases hc : p'.counter with _ | c
      · have hzero := hfirst hc
        rw [hc, Option.getD_none] at hmax hsum
        dsimp only at hmax
        omega
      · rw [hc, Option.getD_some] at hmax hsum hgiven
        dsimp only at hmax
        omega
    have hmade' := hmade.call items pos
    refine ⟨hmade', ?_⟩
    generalize hresult : next items p' pos = result
    have hcall := hresult ▸ call_next items p' pos
    cases hcall with
    | ends hadvanced hnone hlt => exact ⟨nofun, (hbound hadvanced (by omega)).2⟩
    | stops hadvanced hmax => exact ⟨nofun, (hbound hadvanced (by omega)).2⟩
    | gives hadvanced hmax hbelow =>
      have hlt := hbelow t hmade.stop
      have hle := (hbound hadvanced (by omega)).1
      refine ⟨nofun, ?_⟩
      dsimp only
      omega
    | drained hadvanced hmax => exact ⟨nofun, (hbound hadvanced (by omega)).2⟩

/-- By longer steps each call after the first takes an item more, for as long as the iterator gives enough. -/
theorem taken_by_more {m : Nat} (hp : p = { start, stop, step }) (hstep : 2 ≤ step) (hall : ∀ i ≤ m, items i ≠ none)
    (hle : ∀ k, (after items p 0 k).2 ≤ m) (k : Nat) : Made start stop step (after items p 0 k).1 ∧
      (after items p 0 k).1.counter.getD 0 = (after items p 0 k).2 ∧ ((after items p 0 k).1.counter = none → k = 0) ∧
        k ≤ (after items p 0 k).2 + 1 := by
  induction k with
  | zero =>
    subst hp
    exact ⟨⟨rfl, rfl, rfl⟩, rfl, fun _ => rfl, Nat.zero_le _⟩
  | succ k ih =>
    obtain ⟨hmade, hcounter, hfirst, hk⟩ := ih
    have hm := hle (k + 1)
    rw [after_succ] at hm ⊢
    generalize (after items p 0 k).1 = p' at *
    generalize (after items p 0 k).2 = pos at *
    have hmore {counter' : Nat} (hmax : counter' = max (p'.counter.getD 0) p'.target) : k ≤ counter' := by
      have hs := hmade.step
      unfold target at hmax
      rcases hc : p'.counter with _ | c
      · have hzero := hfirst hc
        omega
      · rw [hc, Option.getD_some] at hmax hcounter
        dsimp only at hmax
        omega
    have hmade' := hmade.call items pos
    refine ⟨hmade', ?_⟩
    generalize hresult : next items p' pos = result at hm
    have hcall := hresult ▸ call_next items p' pos
    cases hcall with
    | @ends counter' pos' hadvanced hnone hlt => exact absurd hnone (hall pos' hm)
    | @stops counter' pos' hadvanced hmax =>
      have hsum := hadvanced.sum
      have hge := hmore hmax
      refine ⟨?_, nofun, ?_⟩
      · show counter' = pos'
        omega
      · show k + 1 ≤ pos' + 1
        omega
    | @gives counter' pos' hadvanced hmax =>
      have hsum := hadvanced.sum
      have hge := hmore hmax
      refine ⟨?_, nofun, ?_⟩
      · show counter' + 1 = pos' + 1
        omega
      · show k + 1 ≤ pos' + 1 + 1
        omega
    | @drained counter' pos' hadvanced hmax hbelow hnone => exact absurd hnone (hall pos' hm)

theorem create_arg (start stop step : Option Nat) : create (arg start) (arg stop) (arg step) =
    .ok { start := start.getD 0, stop, step := step.getD 1 } := by
  have hget (name : String) (n : Option Nat) : getBigInt name (arg n) = .ok n := by
    cases n with
    | none => rfl
    | some n =>
      rw [arg, getBigInt, if_neg (by omega), Int.toNat_natCast]
  rw [create, hget, hget, hget]
  rfl

theorem consumes_iff {start : Nat} {stop : Option Nat} {step : Nat} (hp : p = { start, stop, step }) (hstep : step ≠ 0) :
    (∀ k t, stop = some t → p.consumed items k ≤ max start t) ↔
      step = 1 ∨ ∀ t, stop = some t → ∃ i ≤ max start t, items i = none := by
  constructor
  · intro h
    by_cases hone : step = 1
    · exact .inl hone
    refine .inr fun t ht => ?_
    by_contra hnot
    have hall (i : Nat) (hi : i ≤ max start t) : items i ≠ none := fun hnone => hnot ⟨i, hi, hnone⟩
    have hmore := (taken_by_more hp (by omega) hall (fun k => h k t ht) (max start t + 2)).2.2.2
    have hle := h (max start t + 2) t ht
    unfold consumed at hle
    omega
  · intro h k t ht
    subst ht
    rcases h with rfl | h
    · exact (taken_by_one hp k).2.2
    · obtain ⟨i, hi, hnone⟩ := h t rfl
      by_contra hlt
      exact (given_after items hp k).items i (by unfold consumed at hlt; omega) hnone

/-- **`islice` is right** for a step of one, with no stop, and where the iterator ends before the slice needs it; a step of
zero is not rejected. -/
theorem isliceRight_iff (items : Nat → Option V) (start stop step : Option Nat) :
    SlicesRight items start stop step ↔ Sliceable items start stop step := by
  unfold SlicesRight Sliceable
  rw [create_arg]
  by_cases hzero : step = some 0
  · rw [if_pos hzero]
    refine iff_of_false (fun h => ?_) fun h => h.1 hzero
    obtain ⟨message, h⟩ := h
    cases h
  · have hstep : step.getD 1 ≠ 0 := by
      cases step with
      | none => exact Nat.one_ne_zero
      | some n => exact fun h => hzero (congrArg some h)
    rw [if_neg hzero, ← consumes_iff rfl hstep]
    constructor
    · intro h
      obtain ⟨p, hp, h⟩ := h
      cases hp
      exact ⟨hzero, h.consumes⟩
    · intro h
      exact ⟨_, rfl, { yields := fun _ => reply_of_selected rfl hstep, stops := fun _ => reply_of_not_selected rfl hstep,
                       consumes := h.2 }⟩

/-- `islice(count(), 0, 1, 2)` has taken two items after its `StopIteration`; and a step of 0 is accepted. -/
theorem more_taken : consumed (some : Nat → Option Nat) { start := 0, stop := some 1, step := 2 } 2 = 2 ∧
    ¬ SlicesRight (some : Nat → Option Nat) (some 0) (some 1) (some 2) ∧
    create (.int 0) (.int 1) (.int 0) = .ok { start := 0, stop := some 1, step := 0 } := by
  have htaken : consumed (some : Nat → Option Nat) { start := 0, stop := some 1, step := 2 } 2 = 2 := by
    simp [consumed, after, next, advance]
  refine ⟨htaken, fun h => ?_, rfl⟩
  rw [SlicesRight, if_neg (by decide), create_arg] at h
  obtain ⟨p, hp, h⟩ := h
  cases hp
  have hle := h.consumes 2 1 rfl
  rw [Option.getD_some, Option.getD_some, htaken] at hle
  exact absurd hle (by decide)

end ISlice

end Pylang.Runtime
