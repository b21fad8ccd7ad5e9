/-
Facts about lists that the standard library does not state: the value of `mapM`
and its members in `Option`, the members of two lists related entry by entry,
and of a sorted list used as a `std::set`.
-/
import Mathlib.Data.List.Forall2
import Mathlib.Data.List.Induction
import Mathlib.Data.List.Sort

namespace Pylang.Lib
variable {α β : Type}

theorem mem_mapM {f : α → Option β} : ∀ {l : List α} {r : List β}, l.mapM f = some r →
    ∀ y, y ∈ r ↔ ∃ x ∈ l, f x = some y
  | [], r, h, y => by
    simp only [List.mapM_nil, Option.pure_def, Option.some.injEq] at h
    simp [← h]
  | x :: l, r, h, y => by
    simp only [List.mapM_cons, Option.bind_eq_bind, Option.pure_def, Option.bind_eq_some_iff, Option.some.injEq] at h
    obtain ⟨z, hz, zs, hzs, rfl⟩ := h
    simp [mem_mapM hzs y, hz, eq_comm]

theorem mapM_eq_pure {m : Type → Type} [Monad m] [LawfulMonad m] {f : α → m β} {g : α → β} : ∀ {l : List α},
    (∀ x ∈ l, f x = pure (g x)) → l.mapM f = pure (l.map g)
  | [], _ => by rw [List.mapM_nil, List.map_nil]
  | x :: l, h => by
    obtain ⟨hx, hl⟩ := List.forall_mem_cons.mp h
    rw [List.mapM_cons, hx, mapM_eq_pure hl]
    simp

theorem mapM_range {f : Nat → Option β} {r : List β} (h : ∀ i < r.length, f i = r[i]?) :
    (List.range r.length).mapM f = some r := by
  induction r using List.reverseRecOn with
  | nil => rfl
  | append_singleton r x ih =>
    have hinit := ih fun i hi => by
      rw [h i (by rw [List.length_append]; omega), List.getElem?_append_left hi]
    have hlast := h r.length (by simp)
    rw [List.getElem?_concat_length] at hlast
    rw [List.length_append, List.length_singleton, List.range_succ, List.mapM_append, hinit]
    simp [hlast]

variable {R : α → β → Prop}

theorem forall₂_left {l : List α} {r : List β} (h : List.Forall₂ R l r) {x : α} (hx : x ∈ l) : ∃ y ∈ r, R x y := by
  induction h with
  | nil => simp at hx
  | cons hxy _ ih =>
    rcases List.mem_cons.mp hx with rfl | hx
    · exact ⟨_, by simp, hxy⟩
    · obtain ⟨y, hy, hr⟩ := ih hx
      exact ⟨y, by simp [hy], hr⟩

theorem forall₂_right {l : List α} {r : List β} (h : List.Forall₂ R l r) {y : β} (hy : y ∈ r) : ∃ x ∈ l, R x y :=
  forall₂_left (R := fun y x => R x y) h.flip hy

theorem forall₂_getElem? {l : List α} {r : List β} (h : List.Forall₂ R l r) {i : Nat} {x : α} {y : β}
    (hx : l[i]? = some x) (hy : r[i]? = some y) : R x y := by
  obtain ⟨hi, rfl⟩ := List.getElem?_eq_some_iff.mp hx
  obtain ⟨hj, rfl⟩ := List.getElem?_eq_some_iff.mp hy
  exact (List.forall₂_iff_get.mp h).2 i hi hj

/-! ## Sorted lists as sets -/

section
variable [LinearOrder α]

/-- `std::set::insert`. -/
def setInsert (a : α) (s : List α) : List α := if a ∈ s then s else s.orderedInsert (· ≤ ·) a

/-- `std::set::insert` of a range. -/
def setUnion (s l : List α) : List α := l.foldl (fun s a => setInsert a s) s

@[simp] theorem mem_setInsert {a b : α} {s : List α} : b ∈ setInsert a s ↔ b = a ∨ b ∈ s := by
  simp only [setInsert]
  split
  next h => exact ⟨.inr, fun hb => hb.elim (fun he => he ▸ h) id⟩
  next => simp

@[simp] theorem mem_setUnion {b : α} : ∀ {l s : List α}, b ∈ setUnion s l ↔ b ∈ s ∨ b ∈ l
  | [], s => by simp [setUnion]
  | a :: l, s => by
    have ih := mem_setUnion (b := b) (l := l) (s := setInsert a s)
    simp only [setUnion, List.foldl_cons] at ih ⊢
    rw [ih, mem_setInsert, List.mem_cons, or_comm (a := b = a), or_assoc]

theorem sorted_setInsert {a : α} {s : List α} (h : s.Pairwise (· < ·)) : (setInsert a s).Pairwise (· < ·) := by
  unfold setInsert
  split
  next => exact h
  next ha =>
    have hle : (s.orderedInsert (· ≤ ·) a).Pairwise (· ≤ ·) := (h.imp fun hlt => le_of_lt hlt).orderedInsert a s
    have hnodup : (s.orderedInsert (· ≤ ·) a).Nodup :=
      ((List.perm_orderedInsert _ a s).nodup_iff).mpr (List.nodup_cons.mpr ⟨ha, h.imp fun hlt => ne_of_lt hlt⟩)
    exact (List.Pairwise.and hle hnodup).imp fun hboth => lt_of_le_of_ne hboth.1 hboth.2

theorem sorted_setUnion : ∀ {l s : List α}, s.Pairwise (· < ·) → (setUnion s l).Pairwise (· < ·)
  | [], _, h => h
  | _ :: l, _, h => sorted_setUnion (l := l) (sorted_setInsert h)

end

theorem findSome?_congr {f g : α → Option β} : ∀ {l : List α}, (∀ x ∈ l, f x = g x) → l.findSome? f = l.findSome? g
  | [], _ => rfl
  | x :: l, h => by
    rw [List.findSome?_cons, List.findSome?_cons, h x List.mem_cons_self,
      findSome?_congr fun y hy => h y (List.mem_cons_of_mem _ hy)]

end Pylang.Lib
