/-
Stable sorting. A list has one stable sort by a comparison that is total and
transitive on it. Insertion from the back gives it, with a comparison that keeps
a state and leaves it alone, and so does the sort of the reversed list, reversed,
for the order the other way round.
-/
import Mathlib.Data.List.Sort
import Mathlib.Data.List.FinRange

namespace Pylang.Lib

variable {α β σ : Type}

/-- A total preorder of the elements of a list. -/
structure OrderOn (le : α → α → Bool) (l : List α) : Prop where
  total : ∀ a ∈ l, ∀ b ∈ l, le a b = true ∨ le b a = true
  trans : ∀ a ∈ l, ∀ b ∈ l, ∀ c ∈ l, le a b = true → le b c = true → le a c = true

/-- In order, and in the order `R` if tied. -/
def Before (le : α → α → Bool) (R : α → α → Prop) (a b : α) : Prop := le a b = true ∧ (le b a = true → R a b)

/-- The comparison of two positions. -/
def leAt (le : α → α → Bool) (l : List α) (i j : Fin l.length) : Bool := le (l.get i) (l.get j)

/-- All positions of a list, by the elements there and then by themselves. -/
structure Arranges (le : α → α → Bool) (l : List α) (positions : List (Fin l.length)) : Prop where
  perm : positions.Perm (List.finRange l.length)
  sorted : positions.Pairwise (Before (leAt le l) (· < ·))

def StableSorted (le : α → α → Bool) (l r : List α) : Prop :=
  ∃ positions : List (Fin l.length), Arranges le l positions ∧ positions.map l.get = r

namespace OrderOn

variable {le : α → α → Bool} {l l' : List α}

theorem mono (h : OrderOn le l) (hsub : ∀ a ∈ l', a ∈ l) : OrderOn le l' where
  total a ha b hb := h.total a (hsub a ha) b (hsub b hb)
  trans a ha b hb c hc := h.trans a (hsub a ha) b (hsub b hb) c (hsub c hc)

theorem flip (h : OrderOn le l) : OrderOn (fun a b => le b a) l where
  total _ ha _ hb := h.total _ hb _ ha
  trans _ ha _ hb _ hc hab hbc := h.trans _ hc _ hb _ ha hbc hab

theorem comap {f : β → α} {l : List β} (h : OrderOn le (l.map f)) : OrderOn (fun a b => le (f a) (f b)) l where
  total _ ha _ hb := h.total _ (List.mem_map_of_mem ha) _ (List.mem_map_of_mem hb)
  trans _ ha _ hb _ hc := h.trans _ (List.mem_map_of_mem ha) _ (List.mem_map_of_mem hb) _ (List.mem_map_of_mem hc)

theorem leAt (h : OrderOn le l) : OrderOn (leAt le l) (List.finRange l.length) where
  total i _ j _ := h.total _ (l.get_mem i) _ (l.get_mem j)
  trans i _ j _ k _ := h.trans _ (l.get_mem i) _ (l.get_mem j) _ (l.get_mem k)

end OrderOn

/-! ## Insertion -/

section

variable {le : α → α → Bool} {R : α → α → Prop}

theorem orderedInsert_before {x : α} : ∀ {l : List α}, OrderOn le (x :: l) → l.Pairwise (Before le R) →
    (∀ y ∈ l, R x y) → (l.orderedInsert (fun a b => le a b = true) x).Pairwise (Before le R)
  | [], _, _, _ => List.pairwise_singleton _ _
  | y :: l, h, hl, hx => by
    obtain ⟨hy, hl⟩ := List.pairwise_cons.mp hl
    rw [List.orderedInsert_cons]
    split
    next hle =>
      refine List.pairwise_cons.mpr ⟨fun z hz => ?_, List.pairwise_cons.mpr ⟨hy, hl⟩⟩
      refine ⟨?_, fun _ => hx z hz⟩
      rcases List.mem_cons.mp hz with rfl | hz'
      · exact hle
      · exact h.trans x (by simp) y (by simp) z (by simp [hz']) hle (hy z hz').1
    next hle =>
      have hrest := orderedInsert_before (h.mono fun a ha => by
        rcases List.mem_cons.mp ha with rfl | ha
        · simp
        · simp [ha]) hl fun z hz => hx z (List.mem_cons_of_mem y hz)
      refine List.pairwise_cons.mpr ⟨fun z hz => ?_, hrest⟩
      rcases (List.mem_orderedInsert _).mp hz with rfl | hz
      · have htotal := h.total z (by simp) y (by simp)
        exact ⟨htotal.resolve_left hle, fun hback => absurd hback hle⟩
      · exact hy z hz

theorem insertionSort_before : ∀ {l : List α}, OrderOn le l → l.Pairwise R →
    (l.insertionSort fun a b => le a b = true).Pairwise (Before le R)
  | [], _, _ => List.Pairwise.nil
  | x :: l, h, hl => by
    obtain ⟨hx, hl⟩ := List.pairwise_cons.mp hl
    rw [List.insertionSort_cons]
    refine orderedInsert_before (h.mono fun a ha => ?_) (insertionSort_before (h.mono fun a ha => by simp [ha]) hl) ?_
    · simpa using ha
    · exact fun y hy => hx y ((List.mem_insertionSort _).mp hy)

end

/-! ## Stable sorts -/

namespace Arranges

variable {le : α → α → Bool} {l : List α}

theorem forward (h : OrderOn le l) :
    Arranges le l ((List.finRange l.length).insertionSort fun i j => leAt le l i j = true) :=
  ⟨List.perm_insertionSort _ _, insertionSort_before h.leAt (List.pairwise_lt_finRange _)⟩

theorem backward (h : OrderOn le l) : Arranges (fun a b => le b a) l
    ((List.finRange l.length).reverse.insertionSort fun i j => leAt le l i j = true).reverse := by
  have hsorted := insertionSort_before (R := fun i j => j < i)
    (h.leAt.mono fun i hi => List.mem_reverse.mp hi) (List.pairwise_reverse.mpr (List.pairwise_lt_finRange _))
  exact ⟨(List.reverse_perm _).trans ((List.perm_insertionSort _ _).trans (List.reverse_perm _)),
    List.pairwise_reverse.mpr hsorted⟩

theorem unique {p q : List (Fin l.length)} (hp : Arranges le l p) (hq : Arranges le l q) : p = q := by
  refine List.Perm.eq_of_pairwise ?_ hp.sorted hq.sorted (hp.perm.trans hq.perm.symm)
  intro i j _ _ hij hji
  have hlt := hij.2 hji.1
  have hgt := hji.2 hij.1
  exact absurd hlt (lt_asymm hgt)

end Arranges

namespace StableSorted

variable {le : α → α → Bool} {l r r' : List α}

theorem perm (h : StableSorted le l r) : r.Perm l := by
  obtain ⟨positions, hpos, rfl⟩ := h
  have hmap := hpos.perm.map l.get
  rwa [List.map_get_finRange] at hmap

theorem ordered (h : StableSorted le l r) : r.Pairwise fun a b => le a b = true := by
  obtain ⟨positions, hpos, rfl⟩ := h
  exact List.pairwise_map.mpr (hpos.sorted.imp fun hbefore => hbefore.1)

theorem unique (h : StableSorted le l r) (h' : StableSorted le l r') : r = r' := by
  obtain ⟨p, hp, rfl⟩ := h
  obtain ⟨q, hq, rfl⟩ := h'
  rw [hp.unique hq]

theorem congr {le' : α → α → Bool} (h : StableSorted le l r) (heq : ∀ a ∈ l, ∀ b ∈ l, le a b = le' a b) :
    StableSorted le' l r := by
  obtain ⟨positions, ⟨hperm, hsorted⟩, rfl⟩ := h
  have hat : Lib.leAt le l = Lib.leAt le' l := funext₂ fun i j => heq _ (l.get_mem i) _ (l.get_mem j)
  exact ⟨positions, ⟨hperm, hat ▸ hsorted⟩, rfl⟩

private theorem map_get_insertionSort (positions : List (Fin l.length)) :
    (positions.insertionSort fun i j => leAt le l i j = true).map l.get =
      (positions.map l.get).insertionSort fun a b => le a b = true :=
  List.map_insertionSort _ _ _ _ fun _ _ _ _ => Iff.rfl

theorem forward (h : OrderOn le l) : StableSorted le l (l.insertionSort fun a b => le a b = true) := by
  refine ⟨_, .forward h, ?_⟩
  rw [map_get_insertionSort, List.map_get_finRange]

theorem backward (h : OrderOn le l) :
    StableSorted (fun a b => le b a) l (l.reverse.insertionSort fun a b => le a b = true).reverse := by
  refine ⟨_, .backward h, ?_⟩
  rw [List.map_reverse, map_get_insertionSort, List.map_reverse, List.map_get_finRange]

end StableSorted

/-! ## A comparison with a state -/

/-- The place of `x` from the front: past what the comparison puts before it. -/
def insertWith (lt : α → α → σ → Bool × σ) (x : α) : List α → σ → List α × σ
  | [], s => ([x], s)
  | y :: l, s =>
    match lt y x s with
    | (true, s) =>
      let (l, s) := insertWith lt x l s
      (y :: l, s)
    | (false, s) => (x :: y :: l, s)

/-- A stable sort by insertion. -/
def stableSort (lt : α → α → σ → Bool × σ) : List α → σ → List α × σ
  | [], s => ([], s)
  | x :: l, s =>
    let (l, s) := stableSort lt l s
    insertWith lt x l s

theorem insertWith_map (lt : α → α → σ → Bool × σ) (f : β → α) (x : β) : ∀ (l : List β) (s : σ),
    insertWith lt (f x) (l.map f) s = Prod.map (List.map f) id (insertWith (fun a b => lt (f a) (f b)) x l s)
  | [], _ => rfl
  | y :: l, s => by
    simp only [insertWith, List.map_cons]
    split
    · simp [insertWith_map lt f x l]
    · rfl

theorem stableSort_map (lt : α → α → σ → Bool × σ) (f : β → α) (s : σ) : ∀ l : List β,
    stableSort lt (l.map f) s = Prod.map (List.map f) id (stableSort (fun a b => lt (f a) (f b)) l s)
  | [] => rfl
  | x :: l => by
    simp only [stableSort, List.map_cons, stableSort_map lt f s l, Prod.map_fst, Prod.map_snd, id_eq, insertWith_map]

variable {lt : α → α → σ → Bool × σ} {le : α → α → Bool} {s : σ}

theorem insertWith_eq {x : α} : ∀ {l : List α}, (∀ y ∈ l, lt y x s = (!le x y, s)) →
    insertWith lt x l s = (l.orderedInsert (fun a b => le a b = true) x, s)
  | [], _ => rfl
  | y :: l, h => by
    obtain ⟨hy, hl⟩ := List.forall_mem_cons.mp h
    rw [insertWith, hy, List.orderedInsert_cons]
    cases hle : le x y with
    | true => simp
    | false => simp [insertWith_eq hl]

/-- The comparison answers on the elements, and its state stays as it is. -/
theorem stableSort_eq (le : α → α → Bool) : ∀ {l : List α}, (∀ a ∈ l, ∀ b ∈ l, lt a b s = (!le b a, s)) →
    stableSort lt l s = (l.insertionSort fun a b => le a b = true, s)
  | [], _ => rfl
  | x :: l, h => by
    have hl : stableSort lt l s = _ := stableSort_eq le fun a ha b hb =>
      h a (List.mem_cons_of_mem x ha) b (List.mem_cons_of_mem x hb)
    rw [stableSort, hl, List.insertionSort_cons]
    refine insertWith_eq fun y hy => ?_
    exact h y (List.mem_cons_of_mem x ((List.mem_insertionSort _).mp hy)) x List.mem_cons_self

end Pylang.Lib
