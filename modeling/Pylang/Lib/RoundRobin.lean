/-
Round-robin iteration over a vector of finite sets: one sweep sets every entry
to a monotone function of the vector, sweeps are repeated until nothing
changes. The sets are strictly sorted lists, so that equal sets are equal
lists. From the empty vector the iteration ends within as many sweeps as there
are elements to add, in the least fixpoint.
-/
import Mathlib
import Pylang.Lib.ListFacts

namespace Pylang.Lib.RoundRobin

variable {α : Type} [LinearOrder α]

/-- The entry at an index, empty beyond the vector. -/
def entry (xs : List (List α)) (b : Nat) : List α := xs[b]?.getD []

def step (F : Nat → List (List α) → List α) (xs : List (List α)) (b : Nat) : List (List α) := xs.set b (F b xs)

def sweep (F : Nat → List (List α) → List α) (order : List Nat) (xs : List (List α)) : List (List α) :=
  order.foldl (step F) xs

/-- Sweeps until one changes nothing. -/
def iterate (F : Nat → List (List α) → List α) (order : List Nat) : Nat → List (List α) → Option (List (List α))
  | 0, _ => none
  | fuel + 1, xs => if sweep F order xs = xs then some xs else iterate F order fuel (sweep F order xs)

/-- What is needed of the functions: they are monotone, and give strictly sorted lists over `U`. -/
structure Monotone (F : Nat → List (List α) → List α) (U : List α) : Prop where
  mono {xs ys : List (List α)} (b : Nat) : (∀ c, entry xs c ⊆ entry ys c) → F b xs ⊆ F b ys
  sorted (b : Nat) (xs : List (List α)) : (F b xs).Pairwise (· < ·)
  bounded {xs : List (List α)} (b : Nat) : (∀ c, entry xs c ⊆ U) → F b xs ⊆ U

/-- On the way up: `n` sets over `U`, each contained in what it will be set to. -/
structure Rising (F : Nat → List (List α) → List α) (U : List α) (n : Nat) (xs : List (List α)) : Prop where
  length : xs.length = n
  sorted : ∀ b, (entry xs b).Pairwise (· < ·)
  bounded : ∀ b, entry xs b ⊆ U
  post : ∀ b < n, entry xs b ⊆ F b xs

variable {F : Nat → List (List α) → List α} {U : List α} {n : Nat} {xs ys : List (List α)} {order : List Nat}

omit [LinearOrder α] in
theorem entry_set {b c : Nat} {s : List α} : entry (xs.set b s) c = if b = c ∧ c < xs.length then s else entry xs c := by
  unfold entry
  rw [List.getElem?_set]
  split
  next h =>
    subst h
    by_cases hb : b < xs.length
    · simp [hb]
    · simp [hb]
  next h => rw [if_neg fun hboth => h hboth.1]

omit [LinearOrder α] in
theorem ext_entry (hlen : xs.length = ys.length) (h : ∀ b, entry xs b = entry ys b) : xs = ys := by
  refine List.ext_getElem hlen fun b hx hy => ?_
  have hb := h b
  unfold entry at hb
  rwa [List.getElem?_eq_getElem hx, List.getElem?_eq_getElem hy] at hb

theorem Rising.start : Rising F U n (List.replicate n []) := by
  have hempty (b : Nat) : entry (List.replicate n ([] : List α)) b = [] := by
    unfold entry
    rw [List.getElem?_replicate]
    split <;> rfl
  refine ⟨List.length_replicate, fun b => ?_, fun b => ?_, fun b _ => ?_⟩
  · rw [hempty]; exact .nil
  · rw [hempty]; exact List.nil_subset _
  · rw [hempty]; exact List.nil_subset _

/-- Setting an entry grows it. -/
theorem Rising.le_step (h : Rising F U n xs) (b c : Nat) : entry xs c ⊆ entry (step F xs b) c := by
  unfold step
  rw [entry_set]
  split
  next hc =>
    obtain ⟨rfl, hlt⟩ := hc
    exact h.post b (h.length ▸ hlt)
  next => exact List.Subset.refl _

theorem Rising.step (hF : Monotone F U) (h : Rising F U n xs) (b : Nat) : Rising F U n (step F xs b) := by
  refine ⟨by simp [RoundRobin.step, h.length], fun c => ?_, fun c => ?_, fun c hc => ?_⟩
  · unfold RoundRobin.step
    rw [entry_set]
    split
    · exact hF.sorted b xs
    · exact h.sorted c
  · unfold RoundRobin.step
    rw [entry_set]
    split
    · exact hF.bounded b h.bounded
    · exact h.bounded c
  · have hnew : F c xs ⊆ F c (RoundRobin.step F xs b) := hF.mono c (h.le_step b)
    nth_rewrite 1 [RoundRobin.step]
    rw [entry_set]
    split
    next hb =>
      obtain ⟨rfl, -⟩ := hb
      exact hnew
    next => exact List.Subset.trans (h.post c hc) hnew

theorem Rising.foldl (hF : Monotone F U) : ∀ (l : List Nat) {xs : List (List α)}, Rising F U n xs →
    Rising F U n (l.foldl (RoundRobin.step F) xs) ∧ ∀ c, entry xs c ⊆ entry (l.foldl (RoundRobin.step F) xs) c
  | [], _, h => ⟨h, fun _ => List.Subset.refl _⟩
  | b :: l, _, h => by
    obtain ⟨hrise, hle⟩ := Rising.foldl hF l (h.step hF b)
    exact ⟨hrise, fun c => List.Subset.trans (h.le_step b c) (hle c)⟩

/-- Vectors that contain each other are equal. -/
theorem Rising.antisymm (h : Rising F U n xs) (h' : Rising F U n ys) (hle : ∀ c, entry xs c ⊆ entry ys c)
    (hge : ∀ c, entry ys c ⊆ entry xs c) : xs = ys :=
  ext_entry (h.length.trans h'.length.symm) fun c =>
    (h.sorted c).eq_of_mem_iff (h'.sorted c) fun _ => ⟨fun hx => hle c hx, fun hx => hge c hx⟩

/-- A sweep that changes nothing finds every entry of its order where it should be. -/
theorem Rising.fixed (hF : Monotone F U) : ∀ (l : List Nat) {xs : List (List α)}, Rising F U n xs →
    l.foldl (RoundRobin.step F) xs = xs → ∀ b ∈ l, RoundRobin.step F xs b = xs
  | [], _, _, _, _, hb => by cases hb
  | c :: l, xs, h, heq, b, hb => by
    have hc : RoundRobin.step F xs c = xs := by
      refine (h.step hF c).antisymm h (fun d => ?_) (h.le_step c)
      have hle := (Rising.foldl hF l (h.step hF c)).2 d
      rw [← List.foldl_cons, heq] at hle
      exact hle
    rw [List.foldl_cons, hc] at heq
    rcases List.mem_cons.mp hb with rfl | hb
    · exact hc
    · exact Rising.fixed hF l h heq b hb

omit [LinearOrder α] in
theorem entry_of_step_eq (h : RoundRobin.step F xs b = xs) (hb : b < xs.length) : entry xs b = F b xs := by
  conv_lhs => rw [← h]
  unfold RoundRobin.step
  rw [entry_set, if_pos ⟨rfl, hb⟩]

/-! ## Termination -/

/-- The number of elements. -/
def size (xs : List (List α)) : Nat := (xs.map List.length).sum

omit [LinearOrder α] in
theorem size_le_of_forall {k : Nat} : ∀ {xs : List (List α)}, (∀ s ∈ xs, s.length ≤ k) → size xs ≤ xs.length * k
  | [], _ => Nat.zero_le _
  | x :: xs, h => by
    have hhead := h x List.mem_cons_self
    have htail := size_le_of_forall fun s hs => h s (List.mem_cons_of_mem x hs)
    have hsize : size (x :: xs) = x.length + size xs := by simp [size]
    rw [hsize, List.length_cons, Nat.succ_mul]
    omega

theorem Rising.size_le (h : Rising F U n xs) : size xs ≤ n * U.length := by
  rw [← h.length]
  have hle : ∀ s ∈ xs, s.length ≤ U.length := by
    intro s hs
    obtain ⟨b, hb⟩ := List.mem_iff_getElem?.mp hs
    have hentry : entry xs b = s := by simp [entry, hb]
    have hsub := hentry ▸ h.bounded b
    have hnodup : s.Nodup := (hentry ▸ h.sorted b).imp fun hlt => ne_of_lt hlt
    exact (List.subperm_of_subset hnodup hsub).length_le
  exact size_le_of_forall hle

omit [LinearOrder α] in
theorem size_lt_of_lt : ∀ {xs ys : List (List α)}, xs.length = ys.length →
    (∀ b, (entry xs b).length ≤ (entry ys b).length) → (∃ b, (entry xs b).length < (entry ys b).length) → size xs < size ys
  | [], [], _, _, ⟨b, hb⟩ => by cases hb
  | x :: xs, y :: ys, hlen, hle, ⟨b, hb⟩ => by
    have hlen' : xs.length = ys.length := Nat.succ.inj hlen
    have hhead : x.length ≤ y.length := hle 0
    have htail : ∀ b, (entry xs b).length ≤ (entry ys b).length := fun b => hle (b + 1)
    have hsum : size xs ≤ size ys := by
      by_cases hex : ∃ b, (entry xs b).length < (entry ys b).length
      · exact Nat.le_of_lt (size_lt_of_lt hlen' htail hex)
      · have heq : xs.map List.length = ys.map List.length := by
          refine List.ext_getElem (by simp [hlen']) fun c hx hy => ?_
          have hc := Nat.le_antisymm (htail c) (Nat.le_of_not_lt fun hlt => hex ⟨c, hlt⟩)
          simp only [List.length_map] at hx hy
          simpa [entry, hx, hy] using hc
        rw [size, size, heq]
    have hsize (z : List α) (zs : List (List α)) : size (z :: zs) = z.length + size zs := by simp [size]
    rw [hsize, hsize]
    cases b with
    | zero =>
      have hlt : x.length < y.length := hb
      omega
    | succ b =>
      have hlt := size_lt_of_lt hlen' htail ⟨b, hb⟩
      omega

/-- A sweep that changes something adds an element. -/
theorem Rising.size_lt (h : Rising F U n xs) (h' : Rising F U n ys) (hle : ∀ c, entry xs c ⊆ entry ys c) (hne : ys ≠ xs) :
    size xs < size ys := by
  have hsub (b : Nat) : (entry xs b).Subperm (entry ys b) :=
    List.subperm_of_subset ((h.sorted b).imp fun hlt => ne_of_lt hlt) (hle b)
  refine size_lt_of_lt (h.length.trans h'.length.symm) (fun b => (hsub b).length_le) ?_
  by_contra hall
  refine hne (h'.antisymm h (fun c => ?_) hle)
  have hperm := (hsub c).perm_of_length_le (Nat.le_of_not_lt fun hlt => hall ⟨c, hlt⟩)
  exact hperm.symm.subset

theorem iterate_isSome (hF : Monotone F U) (order : List Nat) : ∀ (fuel : Nat) {xs : List (List α)}, Rising F U n xs →
    n * U.length < fuel + size xs → ∃ r, iterate F order fuel xs = some r ∧ Rising F U n r ∧ sweep F order r = r
  | 0, _, h, hfuel => absurd h.size_le (by omega)
  | fuel + 1, xs, h, hfuel => by
    unfold iterate
    split
    next heq => exact ⟨xs, rfl, h, heq⟩
    next hne =>
      obtain ⟨hrise, hle⟩ := Rising.foldl hF order h
      have hlt := h.size_lt hrise hle hne
      exact iterate_isSome hF order fuel hrise (by unfold sweep; omega)

/-! ## Leastness -/

/-- Entries within closed sets. -/
def Below (Y : Nat → Set α) (xs : List (List α)) : Prop := ∀ c, ∀ x ∈ entry xs c, x ∈ Y c

omit [LinearOrder α] in
theorem Below.sweep {Y : Nat → Set α} (hY : ∀ b xs, Below Y xs → ∀ x ∈ F b xs, x ∈ Y b) :
    ∀ (l : List Nat) {xs : List (List α)}, Below Y xs → Below Y (sweep F l xs)
  | [], _, h => h
  | b :: l, xs, h => by
    refine Below.sweep hY l fun c x hx => ?_
    unfold step at hx
    rw [entry_set] at hx
    split at hx
    next hc =>
      obtain ⟨rfl, -⟩ := hc
      exact hY b xs h x hx
    next => exact h c x hx

theorem Below.iterate {Y : Nat → Set α} (hY : ∀ b xs, Below Y xs → ∀ x ∈ F b xs, x ∈ Y b) {order : List Nat} :
    ∀ {fuel : Nat} {xs r : List (List α)}, Below Y xs → iterate F order fuel xs = some r → Below Y r
  | fuel + 1, xs, r, h, hr => by
    unfold RoundRobin.iterate at hr
    split at hr
    · cases hr
      exact h
    · exact Below.iterate hY (Below.sweep hY order h) hr

/-- **The iteration ends in the least fixpoint**, after at most as many sweeps as elements can be added, and one. -/
theorem iterate_least (hF : Monotone F U) {order : List Nat} (horder : ∀ b < n, b ∈ order) :
    ∃ r, iterate F order (n * U.length + 1) (List.replicate n []) = some r ∧ Rising F U n r ∧ sweep F order r = r ∧
      (∀ b < n, entry r b = F b r) ∧
      ∀ Y : Nat → Set α, (∀ b xs, Below Y xs → ∀ x ∈ F b xs, x ∈ Y b) → Below Y r := by
  obtain ⟨r, hr, hrise, hsweep⟩ := iterate_isSome hF order (n * U.length + 1) (Rising.start (n := n)) (by omega)
  refine ⟨r, hr, hrise, hsweep, fun b hb => ?_, fun Y hY => Below.iterate hY (fun c x hx => ?_) hr⟩
  · exact entry_of_step_eq (Rising.fixed hF order hrise hsweep b (horder b hb)) (hrise.length ▸ hb)
  · have hempty : entry (List.replicate n ([] : List α)) c = [] := by
      unfold entry
      rw [List.getElem?_replicate]
      split <;> rfl
    rw [hempty] at hx
    cases hx

end Pylang.Lib.RoundRobin
