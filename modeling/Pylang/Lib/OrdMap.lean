/-
An ordered map as the list of its entries in key order, which is all a C++
`std::map` shows to code that looks keys up, assigns to them and iterates:
one entry a key, listed in the order of the comparator (the structure's field).
-/
import Mathlib.Order.Lattice
import Mathlib.Data.List.Nodup

namespace Pylang.Lib

/-- The entries of an ordered map, in strictly increasing key order. -/
structure OrdMap (κ α : Type) [LT κ] where
  entries : List (κ × α)
  sorted : (entries.map Prod.fst).Pairwise (· < ·)

namespace OrdMap
variable {κ α : Type} [LinearOrder κ]

instance : EmptyCollection (OrdMap κ α) := ⟨⟨[], by simp⟩⟩

/-- The value at a key. -/
def find (m : OrdMap κ α) (k : κ) : Option α := (m.entries.find? (·.1 = k)).map Prod.snd

def contains (m : OrdMap κ α) (k : κ) : Bool := (m.find k).isSome

/-- Insert into a list of entries, before the first larger key. -/
def insertEntry (k : κ) (a : α) : List (κ × α) → List (κ × α)
  | [] => [(k, a)]
  | (k', a') :: l =>
    if k = k' then (k, a) :: l
    else if k < k' then (k, a) :: (k', a') :: l
    else (k', a') :: insertEntry k a l

theorem mem_keys_insertEntry {k x : κ} {a : α} {l : List (κ × α)}
    (h : x ∈ (insertEntry k a l).map Prod.fst) : x = k ∨ x ∈ l.map Prod.fst := by
  induction l with
  | nil => simpa [insertEntry] using h
  | cons e l ih =>
    obtain ⟨k', a'⟩ := e
    simp only [insertEntry] at h
    split at h
    next hk => subst hk; simpa using h
    next hk =>
      split at h
      next => simpa using h
      next =>
        simp only [List.map_cons, List.mem_cons] at h ⊢
        rcases h with rfl | h
        · exact .inr (.inl rfl)
        · exact (ih h).imp id .inr

theorem sorted_insertEntry {k : κ} {a : α} {l : List (κ × α)} (h : (l.map Prod.fst).Pairwise (· < ·)) :
    ((insertEntry k a l).map Prod.fst).Pairwise (· < ·) := by
  induction l with
  | nil => simp [insertEntry]
  | cons e l ih =>
    obtain ⟨k', a'⟩ := e
    simp only [List.map_cons, List.pairwise_cons] at h
    simp only [insertEntry]
    split
    next hk => subst hk; simpa using h
    next hk =>
      split
      next hlt =>
        simp only [List.map_cons, List.pairwise_cons, List.mem_cons]
        refine ⟨fun x hx => ?_, h⟩
        rcases hx with rfl | hx
        · exact hlt
        · exact hlt.trans (h.1 x hx)
      next hlt =>
        simp only [List.map_cons, List.pairwise_cons]
        refine ⟨fun x hx => ?_, ih h.2⟩
        rcases mem_keys_insertEntry hx with rfl | hx
        · exact lt_of_le_of_ne (not_lt.mp hlt) fun he => hk he.symm
        · exact h.1 x hx

/-- `insert_or_assign`. -/
def insertOrAssign (m : OrdMap κ α) (k : κ) (a : α) : OrdMap κ α :=
  ⟨insertEntry k a m.entries, sorted_insertEntry m.sorted⟩

@[simp] theorem find_empty {k : κ} : (∅ : OrdMap κ α).find k = none := rfl

theorem mem_entries {m : OrdMap κ α} {k : κ} {a : α} : (k, a) ∈ m.entries ↔ m.find k = some a := by
  obtain ⟨l, hl⟩ := m
  simp only [find]
  induction l with
  | nil => simp
  | cons e l ih =>
    obtain ⟨k', a'⟩ := e
    simp only [List.map_cons, List.pairwise_cons] at hl
    by_cases hk : k' = k
    · subst hk
      have hnot : (k', a) ∉ l := fun hm => (hl.1 k' (List.mem_map_of_mem (f := Prod.fst) hm)).false
      simp [hnot, eq_comm]
    · have hk' : k ≠ k' := fun he => hk he.symm
      simpa [hk, hk'] using ih hl.2

theorem find_insertEntry {k x : κ} {a : α} {l : List (κ × α)} :
    ((insertEntry k a l).find? (·.1 = x)).map Prod.snd =
      if x = k then some a else (l.find? (·.1 = x)).map Prod.snd := by
  induction l with
  | nil => by_cases h : x = k <;> simp [insertEntry, h, eq_comm]
  | cons e l ih =>
    obtain ⟨k', a'⟩ := e
    simp only [insertEntry]
    split
    next hk =>
      subst hk
      by_cases hx : k = x
      · simp [hx]
      · simp [hx, Ne.symm hx]
    next hk =>
      split
      next =>
        by_cases hx : k = x
        · simp [hx]
        · simp [hx, Ne.symm hx]
      next =>
        by_cases hx : k' = x
        · subst hx; simp [Ne.symm hk]
        · simpa [hx] using ih

theorem find_insertOrAssign {m : OrdMap κ α} {k x : κ} {a : α} :
    (m.insertOrAssign k a).find x = if x = k then some a else m.find x := find_insertEntry

@[simp] theorem find_insert_self {m : OrdMap κ α} {k : κ} {a : α} : (m.insertOrAssign k a).find k = some a := by
  simp [find_insertOrAssign]

theorem find_insert_ne {m : OrdMap κ α} {k x : κ} {a : α} (h : x ≠ k) :
    (m.insertOrAssign k a).find x = m.find x := by
  simp [find_insertOrAssign, h]

/-- `erase`. -/
def erase (m : OrdMap κ α) (k : κ) : OrdMap κ α :=
  ⟨m.entries.filter (·.1 ≠ k), m.sorted.sublist ((List.filter_sublist).map _)⟩

theorem find_erase {m : OrdMap κ α} {k x : κ} : (m.erase k).find x = if x = k then none else m.find x := by
  simp only [find, erase, List.find?_filter]
  split
  next h => subst h; simp
  next h =>
    congr 2
    funext e
    by_cases he : e.1 = x <;> simp [he, h]

/-! ## Folding assignments -/

/-- Assign the same value at every key of a list. -/
def assignAll (m : OrdMap κ α) (ks : List κ) (a : α) : OrdMap κ α :=
  ks.foldl (fun m k => m.insertOrAssign k a) m

theorem find_assignAll {ks : List κ} {m : OrdMap κ α} {a : α} {x : κ} :
    (m.assignAll ks a).find x = if x ∈ ks then some a else m.find x := by
  induction ks generalizing m with
  | nil => simp [assignAll]
  | cons k ks ih =>
    have := ih (m := m.insertOrAssign k a)
    simp only [assignAll, List.foldl_cons] at this ⊢
    rw [this, find_insertOrAssign]
    by_cases hx : x ∈ ks <;> by_cases hk : x = k <;> simp [hx, hk]

/-- `merge`: the keys of another map that are not there yet. -/
def merge (m m' : OrdMap κ α) : OrdMap κ α :=
  m'.entries.foldl (fun acc (k, a) => if acc.contains k then acc else acc.insertOrAssign k a) m

theorem find_merge {m m' : OrdMap κ α} {k : κ} : (m.merge m').find k = (m.find k).or (m'.find k) := by
  suffices h : ∀ (l : List (κ × α)), (l.map Prod.fst).Pairwise (· < ·) → ∀ m : OrdMap κ α,
      (l.foldl (fun acc (k, a) => if acc.contains k then acc else acc.insertOrAssign k a) m).find k =
        (m.find k).or ((l.find? (·.1 = k)).map Prod.snd) from h m'.entries m'.sorted m
  intro l
  induction l with
  | nil => simp
  | cons e l ih =>
    obtain ⟨k', a⟩ := e
    intro hl m
    simp only [List.map_cons, List.pairwise_cons] at hl
    simp only [List.foldl_cons, ih hl.2]
    by_cases hk : k' = k
    · subst hk
      cases hm : m.find k' <;> simp [contains, hm]
    · have : (if m.contains k' then m else m.insertOrAssign k' a).find k = m.find k := by
        split
        next => rfl
        next => exact find_insert_ne fun he => hk he.symm
      simp [this, hk]

end OrdMap

end Pylang.Lib
