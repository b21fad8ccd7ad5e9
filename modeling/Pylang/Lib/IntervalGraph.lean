/-
Colouring intervals in the order they start. Over any linear order of times:
if each interval's colour differs from the colours of the earlier ones that
reach its start, no time is shared by two intervals of one colour.
-/
import Mathlib

namespace Pylang.Lib
variable {ι τ κ : Type} [LinearOrder τ] (start stop : ι → τ) (colour : ι → κ)

/-- Both half-open intervals contain a common time. -/
def Overlap (i j : ι) : Prop := ∃ t, (start i ≤ t ∧ t < stop i) ∧ (start j ≤ t ∧ t < stop j)

variable {start stop colour}

theorem Overlap.symm {i j : ι} (h : Overlap start stop i j) : Overlap start stop j i :=
  let ⟨t, h₁, h₂⟩ := h
  ⟨t, h₂, h₁⟩

/-- The later of two overlapping intervals starts inside the earlier one. -/
theorem Overlap.start_lt {i j : ι} (h : Overlap start stop i j) : start j < stop i :=
  let ⟨_, h₁, h₂⟩ := h
  lt_of_le_of_lt h₂.1 h₁.2

/-- A list of intervals coloured greedily: each differs from the earlier ones that reach its start. -/
def Greedy (start stop : ι → τ) (colour : ι → κ) (l : List ι) : Prop :=
  l.Pairwise fun i j => start j < stop i → colour i ≠ colour j

theorem Greedy.concat {l : List ι} {j : ι} (h : Greedy start stop colour l)
    (hj : ∀ i ∈ l, start j < stop i → colour i ≠ colour j) : Greedy start stop colour (l ++ [j]) :=
  List.pairwise_append.mpr ⟨h, by simp, by simpa using hj⟩

theorem Greedy.congr {l : List ι} {colour' : ι → κ} (h : Greedy start stop colour l)
    (hcolour : ∀ i ∈ l, colour' i = colour i) : Greedy start stop colour' l :=
  List.Pairwise.imp_of_mem (fun hi hj hij hlt => by rw [hcolour _ hi, hcolour _ hj]; exact hij hlt) h

/-- One more interval with a colour of its own. -/
theorem colours_differ {l : List ι} {new : ι} (hnew : ∀ i ∈ l, i ≠ new → colour i ≠ colour new)
    (hold : ∀ i ∈ l, i ≠ new → ∀ j ∈ l, j ≠ new → i ≠ j → colour i ≠ colour j) :
    ∀ i ∈ l, ∀ j ∈ l, i ≠ j → colour i ≠ colour j := by
  intro i hi j hj hij
  by_cases hi' : i = new
  · subst hi'
    exact (hnew j hj hij.symm).symm
  · by_cases hj' : j = new
    · subst hj'
      exact hnew i hi hi'
    · exact hold i hi hi' j hj hj' hij

/-- A greedy colouring is proper: overlapping intervals differ. -/
theorem Greedy.proper {l : List ι} (h : Greedy start stop colour l) {i j : ι} (hi : i ∈ l) (hj : j ∈ l) (hne : i ≠ j)
    (ho : Overlap start stop i j) : colour i ≠ colour j := by
  have hs : l.Pairwise fun i j => Overlap start stop i j → colour i ≠ colour j := h.imp fun h ho => h ho.start_lt
  have : Std.Symm fun i j => Overlap start stop i j → colour i ≠ colour j :=
    ⟨fun _ _ h ho he => h ho.symm he.symm⟩
  exact hs.forall hi hj hne ho

end Pylang.Lib
