/-
Merging lists into one that keeps the order of each: the greedy merge behind
C3 linearizations, which takes the first head that is in no tail. It is
determined, what it gives keeps every order, and it succeeds exactly when some
list keeps them all.
-/
import Mathlib.Data.List.Nodup

namespace Pylang.Merge

variable {α : Type} [DecidableEq α] {ls : List (List α)} {l L r : List α} {c : α}

/-- `c` is in the tail of one of the lists. -/
def Blocked (ls : List (List α)) (c : α) : Prop := ∃ l ∈ ls, c ∈ l.tail

instance : Decidable (Blocked ls c) := inferInstanceAs (Decidable (∃ l ∈ ls, c ∈ l.tail))

/-- The first head that is in no tail. -/
def select (ls : List (List α)) : Option α := (ls.filterMap List.head?).find? fun c => !decide (Blocked ls c)

/-- A list without its head, if that is `c`. -/
def strip (c : α) (l : List α) : List α := if l.head? = some c then l.tail else l

/-- The merge of the lists. -/
inductive Merges : List (List α) → List α → Prop
  | done {ls : List (List α)} : (∀ l ∈ ls, l = []) → Merges ls []
  | take {ls : List (List α)} {c : α} {r : List α} : select ls = some c → Merges (ls.map (strip c)) r →
      Merges ls (c :: r)

/-- A list that has what the lists have, each once, in the order of each. -/
structure Linearizes (ls : List (List α)) (L : List α) : Prop where
  nodup : L.Nodup
  mem : ∀ c, c ∈ L ↔ ∃ l ∈ ls, c ∈ l
  keeps : ∀ l ∈ ls, l.Sublist L

theorem select_spec (h : select ls = some c) : (∃ l ∈ ls, l.head? = some c) ∧ ¬ Blocked ls c := by
  have hp := List.find?_some h
  have hmem := List.mem_of_find?_eq_some h
  exact ⟨List.mem_filterMap.mp hmem, by simpa using hp⟩

theorem select_isSome (hl : l ∈ ls) (hc : l.head? = some c) (hb : ¬ Blocked ls c) : ∃ d, select ls = some d := by
  rw [← Option.isSome_iff_exists, select, List.find?_isSome]
  exact ⟨c, List.mem_filterMap.mpr ⟨l, hl, hc⟩, by simpa using hb⟩

theorem select_of_empty (h : ∀ l ∈ ls, l = []) : select ls = none := by
  cases hs : select ls with
  | none => rfl
  | some c =>
    obtain ⟨⟨l, hl, hc⟩, -⟩ := select_spec hs
    rw [h l hl] at hc
    cases hc

/-- One list more at the end leaves the choice, unless it holds it back. -/
theorem select_concat (h : select ls = some c) (hl : c ∉ l.tail) : select (ls ++ [l]) = some c := by
  unfold select at h ⊢
  obtain ⟨hc, before, after, hsplit, hbefore⟩ := List.find?_eq_some_iff_append.mp h
  rw [List.find?_eq_some_iff_append]
  refine ⟨?_, before, after ++ ([l].filterMap List.head?), ?_, fun a ha => ?_⟩
  · have hfree : ¬ Blocked ls c := by simpa using hc
    have hfree' : ¬ Blocked (ls ++ [l]) c := by
      intro h
      obtain ⟨l', hl', htail⟩ := h
      rcases List.mem_append.mp hl' with hin | hin
      · exact hfree ⟨l', hin, htail⟩
      · rw [List.mem_singleton.mp hin] at htail
        exact hl htail
    simpa using hfree'
  · rw [List.filterMap_append, hsplit]
    simp
  · have hblocked : Blocked ls a := by simpa using hbefore a ha
    obtain ⟨l', hl', htail⟩ := hblocked
    have hblocked' : Blocked (ls ++ [l]) a := ⟨l', List.mem_append_left _ hl', htail⟩
    simpa using hblocked'

@[simp] theorem strip_nil : strip c [] = [] := rfl

@[simp] theorem strip_cons_self : strip c (c :: l) = l := if_pos rfl

theorem strip_cons_ne {a : α} (h : a ≠ c) : strip c (a :: l) = a :: l := if_neg (by simpa using h)

theorem strip_eq_erase (h : c ∉ l.tail) : strip c l = l.erase c := by
  cases l with
  | nil => rfl
  | cons a l =>
    rw [List.tail_cons] at h
    by_cases ha : a = c
    · simp [ha]
    · rw [strip_cons_ne ha, List.erase_cons_tail (by simpa using ha), List.erase_of_not_mem h]

theorem mem_strip {a : α} (h : c ∉ l.tail) : a ∈ strip c l ↔ a ∈ l ∧ a ≠ c := by
  cases l with
  | nil => simp [strip]
  | cons b l =>
    by_cases hb : b = c
    · subst hb
      have hne : a ∈ l → a ≠ b := fun ha hab => h (hab ▸ ha)
      rw [strip_cons_self, List.mem_cons]
      constructor
      · intro ha
        exact ⟨Or.inr ha, hne ha⟩
      · intro ha
        exact ha.1.resolve_left ha.2
    · rw [strip_cons_ne hb]
      refine ⟨fun ha => ⟨ha, ?_⟩, And.left⟩
      intro h
      obtain rfl := h
      rcases List.mem_cons.mp ha with rfl | hin
      · exact hb rfl
      · exact h hin

omit [DecidableEq α] in
theorem not_mem_tail (h : ¬ Blocked ls c) (hl : l ∈ ls) : c ∉ l.tail := fun htail => h ⟨l, hl, htail⟩

/-- What the merge gives keeps every order. -/
theorem Merges.linearizes (h : Merges ls r) : Linearizes ls r := by
  induction h with
  | @done ls hempty =>
    refine ⟨List.nodup_nil, fun c => ?_, fun l hl => ?_⟩
    · constructor
      · intro hc
        cases hc
      · intro h
        obtain ⟨l, hl, hc⟩ := h
        rw [hempty l hl] at hc
        cases hc
    · rw [hempty l hl]
  | @take ls c r hs _ ih =>
    obtain ⟨⟨l₀, hl₀, hhead⟩, hfree⟩ := select_spec hs
    have hstrip : ∀ a, a ∈ r ↔ (∃ l ∈ ls, a ∈ l) ∧ a ≠ c := by
      intro a
      rw [ih.mem]
      constructor
      · intro h
        obtain ⟨_, hl', ha⟩ := h
        obtain ⟨l, hl, rfl⟩ := List.mem_map.mp hl'
        obtain ⟨hin, hne⟩ := (mem_strip (not_mem_tail hfree hl)).mp ha
        exact ⟨⟨l, hl, hin⟩, hne⟩
      · intro h
        obtain ⟨⟨l, hl, hin⟩, hne⟩ := h
        exact ⟨_, List.mem_map_of_mem hl, (mem_strip (not_mem_tail hfree hl)).mpr ⟨hin, hne⟩⟩
    refine ⟨List.nodup_cons.mpr ⟨fun hc => ((hstrip c).mp hc).2 rfl, ih.nodup⟩, fun a => ?_, fun l hl => ?_⟩
    · rw [List.mem_cons, hstrip]
      constructor
      · rintro (rfl | ha)
        · exact ⟨l₀, hl₀, List.mem_of_head? hhead⟩
        · exact ha.1
      · intro ha
        by_cases hac : a = c
        · exact Or.inl hac
        · exact Or.inr ⟨ha, hac⟩
    · have hkept := ih.keeps _ (List.mem_map_of_mem hl)
      unfold strip at hkept
      split at hkept
      · next hc =>
        cases l with
        | nil => cases hc
        | cons a l =>
          cases hc
          exact hkept.cons_cons _
      · exact hkept.cons _

omit [DecidableEq α] in
/-- In a list that keeps the orders, the first element heads what has it. -/
theorem Linearizes.head_free (h : Linearizes ls (c :: L)) :
    (∃ l ∈ ls, l.head? = some c) ∧ ¬ Blocked ls c := by
  have hnot : c ∉ L := (List.nodup_cons.mp h.nodup).1
  have hform : ∀ l ∈ ls, c ∈ l → ∃ t, l = c :: t ∧ c ∉ t := by
    intro l hl hc
    cases h.keeps l hl with
    | cons _ hsub => exact absurd (hsub.subset hc) hnot
    | cons_cons _ hsub => exact ⟨_, rfl, fun ht => hnot (hsub.subset ht)⟩
  constructor
  · obtain ⟨l, hl, hc⟩ := (h.mem c).mp List.mem_cons_self
    obtain ⟨t, rfl, -⟩ := hform l hl hc
    exact ⟨_, hl, rfl⟩
  · intro h
    obtain ⟨l, hl, htail⟩ := h
    obtain ⟨t, rfl, ht⟩ := hform l hl (List.mem_of_mem_tail htail)
    exact ht htail

theorem Linearizes.erase (h : Linearizes ls L) (hfree : ¬ Blocked ls c) :
    Linearizes (ls.map (strip c)) (L.erase c) where
  nodup := h.nodup.erase c
  mem a := by
    rw [h.nodup.mem_erase_iff, h.mem]
    constructor
    · intro h
      obtain ⟨hne, l, hl, ha⟩ := h
      exact ⟨_, List.mem_map_of_mem hl, (mem_strip (not_mem_tail hfree hl)).mpr ⟨ha, hne⟩⟩
    · intro h
      obtain ⟨_, hl', ha⟩ := h
      obtain ⟨l, hl, rfl⟩ := List.mem_map.mp hl'
      obtain ⟨hin, hne⟩ := (mem_strip (not_mem_tail hfree hl)).mp ha
      exact ⟨hne, l, hl, hin⟩
  keeps := by
    intro l' hl'
    obtain ⟨l, hl, rfl⟩ := List.mem_map.mp hl'
    rw [strip_eq_erase (not_mem_tail hfree hl)]
    exact (h.keeps l hl).erase c

/-- **The merge succeeds whenever some list keeps every order.** -/
theorem Linearizes.merges (h : Linearizes ls L) : ∃ r, Merges ls r := by
  induction hn : L.length generalizing ls L with
  | zero =>
    have hL : L = [] := List.eq_nil_of_length_eq_zero hn
    subst hL
    exact ⟨[], .done fun l hl => List.sublist_nil.mp (h.keeps l hl)⟩
  | succ n ih =>
    cases L with
    | nil => cases hn
    | cons a L =>
      obtain ⟨⟨l, hl, hhead⟩, hfree⟩ := h.head_free
      obtain ⟨d, hd⟩ := select_isSome hl hhead hfree
      obtain ⟨hsome, hfree'⟩ := select_spec hd
      obtain ⟨l', hl', hhead'⟩ := hsome
      have hmem : d ∈ a :: L := (h.mem d).mpr ⟨l', hl', List.mem_of_head? hhead'⟩
      have hlen : ((a :: L).erase d).length = n := by
        rw [List.length_erase_of_mem hmem, hn]
        rfl
      obtain ⟨r, hr⟩ := ih (h.erase hfree') hlen
      exact ⟨d :: r, .take hd hr⟩

theorem merges_iff_linearizes : (∃ r, Merges ls r) ↔ ∃ L, Linearizes ls L :=
  ⟨fun ⟨r, h⟩ => ⟨r, h.linearizes⟩, fun ⟨_, h⟩ => h.merges⟩

end Pylang.Merge
