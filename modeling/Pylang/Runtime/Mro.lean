/-
`mro_` of `PyType`: the C3 merge of the MROs of the bases, without the list of
the bases itself. It is the C3 linearization exactly when there is one and no
base is ready before one to its left.
-/
import Pylang.Lib.Merge
import Mathlib.Algebra.Order.BigOperators.Group.List
import Mathlib.Algebra.Order.Group.Nat

namespace Pylang.Runtime

open Pylang.Merge

variable {α : Type} [DecidableEq α]

/-- What becomes of a request for an MRO. -/
inductive MroResult (α : Type)
  | order (mro : List α)
  /-- A Python error. -/
  | error
  /-- `TODO()`. -/
  | abort
  /-- The first element of an empty vector is read. -/
  | outOfRange
  deriving DecidableEq

def MroResult.cons (c : α) : MroResult α → MroResult α
  | .order mro => .order (c :: mro)
  | other => other

inductive Candidate (α : Type)
  | found (c : α)
  | missing
  | outOfRange

/-- The loop of `merge` over the lists: `el[0]`, if it is in no tail. -/
def findCandidate (mros : List (List α)) : List (List α) → Candidate α
  | [] => .missing
  | [] :: _ => .outOfRange
  | (candidate :: _) :: rest =>
    if ∀ m ∈ mros, candidate ∉ m.tail then .found candidate else findCandidate mros rest

/-- The lists left for the recursive call: `m[0]` is dropped where it is the
candidate. -/
def restOf (candidate : α) : List (List α) → Option (List (List α))
  | [] => some []
  | [] :: _ => none
  | (head :: m) :: mros =>
    (restOf candidate mros).map ((if head = candidate then m else head :: m) :: ·)

/-- `merge`; the fuel is the number of entries of the lists. -/
def mergeFrom : Nat → List (List α) → MroResult α
  | 0, mros => if ∀ m ∈ mros, m = [] then .order [] else .abort
  | fuel + 1, mros =>
    if ∀ m ∈ mros, m = [] then .order []
    else match findCandidate mros mros with
      | .outOfRange => .outOfRange
      | .missing => .abort
      | .found candidate =>
        match restOf candidate mros with
        | none => .outOfRange
        | some rest => (mergeFrom fuel rest).cons candidate

def merge (mros : List (List α)) : MroResult α := mergeFrom mros.flatten.length mros

/-- `mro_` of a class that is not `object`. -/
def mro_ (type : α) (basesMro : List (List α)) : MroResult α := (merge basesMro).cons type

/-- A class hierarchy: the classes and their `__mro__`, the latest first. -/
abbrev Hierarchy (α : Type) := List (α × List α)

def Hierarchy.mroOf (H : Hierarchy α) (c : α) : List α := ((H.find? (·.1 = c)).map (·.2)).getD []

/-- The hierarchies type creation makes. `compute_bases` refuses a base that is
listed twice, and puts `object` for no bases. -/
inductive Built (object : α) : Hierarchy α → Prop
  | object : Built object [(object, [object])]
  | create {H : Hierarchy α} {type : α} {bases mro : List α} : Built object H → type ∉ H.map (·.1) →
      bases ≠ [] → bases.Nodup → (∀ b ∈ bases, b ∈ H.map (·.1)) →
      mro_ type (bases.map H.mroOf) = .order mro → Built object ((type, mro) :: H)

/-! ### What C3 asks -/

/-- C3 for a class: the class, then the merge of the MROs of its bases and of
the list of the bases, or an error if no list keeps all these orders. -/
structure MeetsC3 (type : α) (mros : List (List α)) (bases : List α) (out : MroResult α) : Prop where
  returns : (∃ L, Linearizes (mros ++ [bases]) L) →
    ∃ r, out = .order (type :: r) ∧ Merges (mros ++ [bases]) r ∧ Linearizes (mros ++ [bases]) r
  raises : (¬ ∃ L, Linearizes (mros ++ [bases]) L) → out = .error

/-- The lists can be merged, and at no stage is a base of the tail of the bases
the first head that no MRO holds back. -/
inductive NoBaseEarly : List (List α) → List α → Prop
  | done {mros : List (List α)} : (∀ m ∈ mros, m = []) → NoBaseEarly mros []
  | take {mros : List (List α)} {bases : List α} {c : α} : select (mros ++ [bases]) = some c →
      (∀ d, select mros = some d → d ∉ bases.tail) →
      NoBaseEarly (mros.map (strip c)) (strip c bases) → NoBaseEarly mros bases

/-! ### The loop -/

section Merge

variable {mros : List (List α)} {object type c : α} {bases : List α}

/-- Lists that end with the root class, which is nowhere else in them. -/
def Rooted (object : α) (mros : List (List α)) : Prop :=
  (∀ m ∈ mros, m = []) ∨ ∀ m ∈ mros, ∃ p, m = p ++ [object] ∧ object ∉ p

theorem findCandidate_eq : ∀ {ls : List (List α)}, (∀ l ∈ ls, l ≠ []) →
    findCandidate mros ls =
      match (ls.filterMap List.head?).find? (fun c => !decide (Blocked mros c)) with
      | some c => .found c
      | none => .missing
  | [], _ => rfl
  | [] :: _, h => absurd rfl (h [] List.mem_cons_self)
  | (a :: l) :: ls, h => by
    have ih := @findCandidate_eq ls fun l' hl' => h l' (List.mem_cons_of_mem _ hl')
    have hiff : (∀ m ∈ mros, a ∉ m.tail) ↔ ¬ Blocked mros a := by simp [Blocked]
    unfold findCandidate
    by_cases ha : Blocked mros a
    · rw [if_neg (by simpa [hiff] using ha), ih]
      simp [ha]
    · rw [if_pos (hiff.mpr ha)]
      simp [ha]

theorem restOf_eq : ∀ {ls : List (List α)}, (∀ l ∈ ls, l ≠ []) → restOf c ls = some (ls.map (strip c))
  | [], _ => rfl
  | [] :: _, h => absurd rfl (h [] List.mem_cons_self)
  | (a :: l) :: ls, h => by
    have ih : restOf c ls = some (ls.map (strip c)) := restOf_eq fun l' hl' => h l' (List.mem_cons_of_mem _ hl')
    unfold restOf
    rw [ih]
    by_cases ha : a = c
    · subst ha
      simp
    · simp [ha, strip_cons_ne]

theorem mergeFrom_succ {n : Nat} (h : ∀ m ∈ mros, m ≠ []) (hne : mros ≠ []) :
    mergeFrom (n + 1) mros =
      match select mros with
      | some c => (mergeFrom n (mros.map (strip c))).cons c
      | none => .abort := by
  have hnot : ¬ ∀ m ∈ mros, m = [] := by
    intro hall
    obtain ⟨m, hm⟩ := List.exists_mem_of_ne_nil mros hne
    exact h m hm (hall m hm)
  rw [mergeFrom, if_neg hnot, findCandidate_eq h]
  unfold select
  cases (mros.filterMap List.head?).find? (fun c => !decide (Blocked mros c)) with
  | none => rfl
  | some c =>
    dsimp only
    rw [restOf_eq h]

omit [DecidableEq α] in
theorem Rooted.ne_nil (h : Rooted object mros) (hne : ¬ ∀ m ∈ mros, m = []) : ∀ m ∈ mros, m ≠ [] := by
  intro m hm
  obtain ⟨p, rfl, -⟩ := h.resolve_left hne m hm
  simp

theorem Rooted.strip (h : Rooted object mros) (hs : select mros = some c) : Rooted object (mros.map (strip c)) := by
  obtain ⟨-, hfree⟩ := select_spec hs
  rcases h with hempty | hroot
  · rw [select_of_empty hempty] at hs
    cases hs
  · by_cases hc : c = object
    · subst hc
      refine Or.inl fun m' hm' => ?_
      obtain ⟨m, hm, rfl⟩ := List.mem_map.mp hm'
      obtain ⟨p, rfl, hp⟩ := hroot m hm
      cases p with
      | nil => exact strip_cons_self
      | cons a p => exact absurd (by simp) (not_mem_tail hfree hm)
    · refine Or.inr fun m' hm' => ?_
      obtain ⟨m, hm, rfl⟩ := List.mem_map.mp hm'
      obtain ⟨p, rfl, hp⟩ := hroot m hm
      cases p with
      | nil => exact ⟨[], strip_cons_ne (Ne.symm hc), by simp⟩
      | cons a p =>
        by_cases hac : a = c
        · subst hac
          exact ⟨p, strip_cons_self, fun hin => hp (List.mem_cons_of_mem _ hin)⟩
        · exact ⟨a :: p, strip_cons_ne hac, hp⟩

theorem length_strip_lt (hs : select mros = some c) :
    (mros.map (strip c)).flatten.length < mros.flatten.length := by
  obtain ⟨⟨l, hl, hhead⟩, -⟩ := select_spec hs
  have hle : ∀ l : List α, (strip c l).length ≤ l.length := by
    intro l
    unfold strip
    split
    · simp
    · exact Nat.le_refl _
  have hlt : (strip c l).length < l.length := by
    unfold strip
    rw [if_pos hhead, List.length_tail]
    have hpos : 0 < l.length := List.length_pos_of_mem (List.mem_of_head? hhead)
    omega
  rw [List.length_flatten, List.length_flatten, List.map_map]
  exact List.sum_lt_sum _ _ (fun l _ => hle l) ⟨l, hl, hlt⟩

theorem mergeFrom_of_empty (h : ∀ m ∈ mros, m = []) (n : Nat) : mergeFrom n mros = .order [] := by
  cases n with
  | zero => exact if_pos h
  | succ n => exact if_pos h

/-- The loop reads no empty list. -/
theorem mergeFrom_inRange (h : Rooted object mros) : ∀ n : Nat, mergeFrom n mros ≠ .outOfRange := by
  intro n
  induction n generalizing mros with
  | zero =>
    unfold mergeFrom
    split
    · simp
    · simp
  | succ n ih =>
    by_cases hempty : ∀ m ∈ mros, m = []
    · rw [mergeFrom_of_empty hempty]
      simp
    · have hne : mros ≠ [] := by
        intro h
        obtain rfl := h
        exact hempty (by simp)
      rw [mergeFrom_succ (h.ne_nil hempty) hne]
      cases hs : select mros with
      | none => simp
      | some c =>
        have hrest := ih (h.strip hs)
        dsimp only
        cases hr : mergeFrom n (mros.map (strip c)) with
        | outOfRange => exact absurd hr hrest
        | order mro => simp [MroResult.cons]
        | error => simp [MroResult.cons]
        | abort => simp [MroResult.cons]

theorem mergeFrom_of_merges {r : List α} (h : Merges mros r) : Rooted object mros →
    ∀ n, mros.flatten.length ≤ n → mergeFrom n mros = .order r := by
  induction h with
  | done hempty => exact fun _ n _ => mergeFrom_of_empty hempty n
  | @take ls c r hs hr ih =>
    intro hroot n hn
    have hnot : ¬ ∀ m ∈ ls, m = [] := by
      intro hempty
      rw [select_of_empty hempty] at hs
      cases hs
    have hne : ls ≠ [] := by
      intro h
      obtain rfl := h
      exact hnot (by simp)
    have hlt := length_strip_lt hs
    cases n with
    | zero => omega
    | succ n =>
      rw [mergeFrom_succ (hroot.ne_nil hnot) hne, hs]
      dsimp only
      rw [ih (hroot.strip hs) n (by omega)]
      rfl

theorem merges_of_mergeFrom : ∀ {n : Nat} {mros : List (List α)} {r : List α}, Rooted object mros →
    mergeFrom n mros = .order r → Merges mros r := by
  intro n
  induction n with
  | zero =>
    intro mros r _ hr
    unfold mergeFrom at hr
    split at hr
    · next hempty =>
      cases hr
      exact .done hempty
    · cases hr
  | succ n ih =>
    intro mros r hroot hr
    by_cases hempty : ∀ m ∈ mros, m = []
    · rw [mergeFrom_of_empty hempty] at hr
      cases hr
      exact .done hempty
    · have hne : mros ≠ [] := by
        intro h
        obtain rfl := h
        exact hempty (by simp)
      rw [mergeFrom_succ (hroot.ne_nil hempty) hne] at hr
      cases hs : select mros with
      | none =>
        rw [hs] at hr
        cases hr
      | some c =>
        rw [hs] at hr
        dsimp only at hr
        cases hrest : mergeFrom n (mros.map (strip c)) with
        | order r' =>
          rw [hrest] at hr
          cases hr
          exact .take hs (ih (hroot.strip hs) hrest)
        | error | abort | outOfRange =>
          rw [hrest] at hr
          cases hr

theorem merge_eq_order_iff {r : List α} (h : Rooted object mros) : merge mros = .order r ↔ Merges mros r :=
  ⟨merges_of_mergeFrom h, fun hr => mergeFrom_of_merges hr h _ (Nat.le_refl _)⟩

theorem mro_eq_order_iff {r : List α} (h : Rooted object mros) :
    mro_ type mros = .order (type :: r) ↔ Merges mros r := by
  rw [← merge_eq_order_iff h]
  unfold mro_
  cases merge mros <;> simp [MroResult.cons]

theorem mro_head {mro : List α} (h : mro_ type mros = .order mro) : ∃ r, mro = type :: r := by
  unfold mro_ at h
  cases hr : merge mros with
  | order r =>
    rw [hr] at h
    cases h
    exact ⟨r, rfl⟩
  | error | abort | outOfRange =>
    rw [hr] at h
    cases h

/-- A merge of rooted lists is rooted. -/
theorem Merges.rooted {r : List α} (h : Merges mros r) (hroot : ∀ m ∈ mros, ∃ p, m = p ++ [object] ∧ object ∉ p)
    (hne : mros ≠ []) : ∃ p, r = p ++ [object] ∧ object ∉ p := by
  obtain ⟨m, hm⟩ := List.exists_mem_of_ne_nil mros hne
  have hlin := h.linearizes
  have hmem : object ∈ r := by
    obtain ⟨p, rfl, -⟩ := hroot m hm
    exact (hlin.keeps _ hm).subset (by simp)
  clear hm
  induction h with
  | done => cases hmem
  | @take ls c r hs hr ih =>
    obtain ⟨⟨l, hl, hhead⟩, hfree⟩ := select_spec hs
    by_cases hc : c = object
    · subst hc
      have hempty : ∀ m ∈ ls.map (strip c), m = [] := by
        rcases Rooted.strip (Or.inr hroot) hs with hempty | hroot'
        · exact hempty
        · intro m' hm'
          obtain ⟨p, rfl, -⟩ := hroot' m' hm'
          obtain ⟨m₀, hm₀, heq⟩ := List.mem_map.mp hm'
          have hin : c ∈ strip c m₀ := by rw [heq]; simp
          exact absurd rfl ((mem_strip (not_mem_tail hfree hm₀)).mp hin).2
      have hnil : r = [] := by
        cases hr with
        | done => rfl
        | take hs' _ => rw [select_of_empty hempty] at hs'; cases hs'
      exact ⟨[], by rw [hnil]; rfl, by simp⟩
    · have hroot' : ∀ m' ∈ ls.map (strip c), ∃ p, m' = p ++ [object] ∧ object ∉ p := by
        rcases Rooted.strip (Or.inr hroot) hs with hempty | hroot'
        · obtain ⟨p, rfl, hp⟩ := hroot l hl
          have hin : object ∈ strip c (p ++ [object]) :=
            (mem_strip (not_mem_tail hfree hl)).mpr ⟨by simp, fun heq => hc heq.symm⟩
          rw [hempty _ (List.mem_map_of_mem hl)] at hin
          cases hin
        · exact hroot'
      have hmem' : object ∈ r := (List.mem_cons.mp hmem).resolve_left fun heq => hc heq.symm
      obtain ⟨p, rfl, hp⟩ := ih hroot' (by simpa using hne) hr.linearizes hmem'
      refine ⟨c :: p, rfl, fun hin => ?_⟩
      rcases List.mem_cons.mp hin with rfl | hin
      · exact hc rfl
      · exact hp hin

theorem mergeFrom_ne_error : ∀ (n : Nat) (mros : List (List α)), mergeFrom n mros ≠ .error := by
  intro n
  induction n with
  | zero =>
    intro mros
    unfold mergeFrom
    split
    · simp
    · simp
  | succ n ih =>
    intro mros
    rw [mergeFrom]
    split
    · simp
    · cases findCandidate mros mros with
      | outOfRange => simp
      | missing => simp
      | found c =>
        dsimp only
        cases restOf c mros with
        | none => simp
        | some rest =>
          dsimp only
          cases hr : mergeFrom n rest with
          | error => exact absurd hr (ih rest)
          | order mro => simp [MroResult.cons]
          | abort => simp [MroResult.cons]
          | outOfRange => simp [MroResult.cons]

theorem mro_ne_error : mro_ type mros ≠ .error := by
  unfold mro_ merge
  cases hr : mergeFrom mros.flatten.length mros with
  | error => exact absurd hr (mergeFrom_ne_error _ _)
  | order mro => simp [MroResult.cons]
  | abort => simp [MroResult.cons]
  | outOfRange => simp [MroResult.cons]

/-! ### The bases -/

/-- Every base left heads a list. -/
def HeadsOwn (mros : List (List α)) (bases : List α) : Prop := ∀ b ∈ bases, ∃ m ∈ mros, m.head? = some b

theorem HeadsOwn.strip (h : HeadsOwn mros bases) (hc : c ∉ bases.tail) :
    HeadsOwn (mros.map (strip c)) (strip c bases) := by
  intro b hb
  obtain ⟨hin, hne⟩ := (mem_strip hc).mp hb
  obtain ⟨m, hm, hhead⟩ := h b hin
  refine ⟨_, List.mem_map_of_mem hm, ?_⟩
  unfold Merge.strip
  rw [if_neg (by simpa [hhead] using hne)]
  exact hhead

/-- Without a base that is ready early, the list of the bases changes nothing. -/
theorem NoBaseEarly.merges (h : NoBaseEarly mros bases) : HeadsOwn mros bases →
    ∃ r, Merges mros r ∧ Merges (mros ++ [bases]) r := by
  induction h with
  | @done mros hempty =>
    refine fun _ => ⟨[], .done hempty, .done fun l hl => ?_⟩
    rcases List.mem_append.mp hl with hl | hl
    · exact hempty l hl
    · exact List.mem_singleton.mp hl
  | @take mros bases c hs hearly _ ih =>
    intro hown
    obtain ⟨⟨l, hl, hhead⟩, hfree⟩ := select_spec hs
    have htail : c ∉ bases.tail := not_mem_tail hfree (by simp)
    obtain ⟨m, hm, hmhead⟩ : ∃ m ∈ mros, m.head? = some c := by
      rcases List.mem_append.mp hl with hl | hl
      · exact ⟨l, hl, hhead⟩
      · rw [List.mem_singleton.mp hl] at hhead
        exact hown c (List.mem_of_head? hhead)
    have hfree' : ¬ Blocked mros c := fun ⟨l', hl', ht⟩ => hfree ⟨l', List.mem_append_left _ hl', ht⟩
    obtain ⟨d, hd⟩ := select_isSome hm hmhead hfree'
    have hdc := select_concat hd (hearly d hd)
    rw [hs] at hdc
    cases hdc
    obtain ⟨r, hr, hr'⟩ := ih (hown.strip htail)
    refine ⟨c :: r, .take hd hr, .take hs ?_⟩
    rw [List.map_append]
    exact hr'

theorem noBaseEarly_of_merges {r : List α} (h : Merges mros r) : ∀ {bases : List α},
    Merges (mros ++ [bases]) r → NoBaseEarly mros bases := by
  induction h with
  | @done mros hempty =>
    intro bases h'
    cases h' with
    | done hempty' =>
      have hnil : bases = [] := hempty' bases (by simp)
      rw [hnil]
      exact .done hempty
  | @take mros c r hs _ ih =>
    intro bases h'
    cases h' with
    | take hs' hr' =>
      obtain ⟨-, hfree⟩ := select_spec hs'
      rw [List.map_append] at hr'
      refine .take hs' (fun d hd => ?_) (ih hr')
      rw [hs] at hd
      cases hd
      exact not_mem_tail hfree (by simp)

end Merge

/-! ### Hierarchies -/

section Hierarchy

variable {object type b : α} {H : Hierarchy α} {bases : List α}

theorem mem_mroOf (h : b ∈ H.map (·.1)) : (b, H.mroOf b) ∈ H := by
  obtain ⟨e, he, rfl⟩ := List.mem_map.mp h
  have hsome : (H.find? (·.1 = e.1)).isSome := List.find?_isSome.mpr ⟨e, he, by simp⟩
  obtain ⟨e', he'⟩ := Option.isSome_iff_exists.mp hsome
  have hname : e'.1 = e.1 := by simpa using List.find?_some he'
  have hmro : H.mroOf e.1 = e'.2 := by simp [Hierarchy.mroOf, he']
  rw [hmro, ← hname]
  exact List.mem_of_find?_eq_some he'

/-- What the MRO of a class of a hierarchy is: the class first, the root last. -/
structure WellFormed (object : α) (e : α × List α) : Prop where
  head : e.2.head? = some e.1
  root : ∃ p, e.2 = p ++ [object] ∧ object ∉ p

theorem Built.object_mem (h : Built object H) : object ∈ H.map (·.1) := by
  induction h with
  | object => simp
  | create _ _ _ _ _ _ ih => exact List.mem_cons_of_mem _ ih

theorem wellFormed_mros (h : ∀ e ∈ H, WellFormed object e) (hb : ∀ b ∈ bases, b ∈ H.map (·.1)) :
    (∀ m ∈ bases.map H.mroOf, ∃ p, m = p ++ [object] ∧ object ∉ p) ∧ HeadsOwn (bases.map H.mroOf) bases := by
  constructor
  · intro m hm
    obtain ⟨b, hin, rfl⟩ := List.mem_map.mp hm
    exact (h _ (mem_mroOf (hb b hin))).root
  · intro b hin
    exact ⟨_, List.mem_map_of_mem hin, (h _ (mem_mroOf (hb b hin))).head⟩

theorem Built.wellFormed (h : Built object H) : ∀ e ∈ H, WellFormed object e := by
  induction h with
  | object =>
    intro e he
    rw [List.mem_singleton.mp he]
    exact ⟨rfl, [], rfl, by simp⟩
  | @create H type bases mro hH hnew hne _ hbases hmro ih =>
    intro e he
    rcases List.mem_cons.mp he with rfl | he
    · obtain ⟨hroot, -⟩ := wellFormed_mros ih hbases
      obtain ⟨r, rfl⟩ := mro_head hmro
      have hr := (mro_eq_order_iff (Or.inr hroot)).mp hmro
      obtain ⟨p, rfl, hp⟩ := Merges.rooted hr hroot (by simpa using hne)
      refine ⟨rfl, type :: p, rfl, fun hin => ?_⟩
      rcases List.mem_cons.mp hin with rfl | hin
      · exact hnew hH.object_mem
      · exact hp hin
    · exact ih e he

theorem Built.mro_nodup (h : Built object H) : ∀ e ∈ H, e.2.Nodup ∧ ∀ c ∈ e.2, c ∈ H.map (·.1) := by
  induction h with
  | object =>
    intro e he
    rw [List.mem_singleton.mp he]
    exact ⟨by simp, by simp⟩
  | @create H type bases mro hH hnew _ _ hbases hmro ih =>
    intro e he
    rcases List.mem_cons.mp he with rfl | he
    · obtain ⟨hroot, -⟩ := wellFormed_mros hH.wellFormed hbases
      obtain ⟨r, rfl⟩ := mro_head hmro
      have hlin := ((mro_eq_order_iff (Or.inr hroot)).mp hmro).linearizes
      have hin : ∀ c ∈ r, c ∈ H.map (·.1) := by
        intro c hc
        obtain ⟨m, hm, hcm⟩ := (hlin.mem c).mp hc
        obtain ⟨b, hb, rfl⟩ := List.mem_map.mp hm
        exact (ih _ (mem_mroOf (hbases b hb))).2 c hcm
      refine ⟨List.nodup_cons.mpr ⟨fun htype => hnew (hin type htype), hlin.nodup⟩, fun c hc => ?_⟩
      rcases List.mem_cons.mp hc with rfl | hc
      · exact List.mem_cons_self
      · exact List.mem_cons_of_mem _ (hin c hc)
    · obtain ⟨hnodup, hin⟩ := ih e he
      exact ⟨hnodup, fun c hc => List.mem_cons_of_mem _ (hin c hc)⟩

/-- **`mro_` is C3 exactly when** the MROs and the list of the bases can be
merged and no base is ready before one to its left. -/
theorem mro_meetsC3_iff (hH : Built object H) (hbases : ∀ b ∈ bases, b ∈ H.map (·.1)) :
    MeetsC3 type (bases.map H.mroOf) bases (mro_ type (bases.map H.mroOf)) ↔
      NoBaseEarly (bases.map H.mroOf) bases := by
  obtain ⟨hroot, hown⟩ := wellFormed_mros hH.wellFormed hbases
  constructor
  · intro hmeets
    by_cases hex : ∃ L, Linearizes (bases.map H.mroOf ++ [bases]) L
    · obtain ⟨r, hout, hr, -⟩ := hmeets.returns hex
      exact noBaseEarly_of_merges ((mro_eq_order_iff (Or.inr hroot)).mp hout) hr
    · exact absurd (hmeets.raises hex) mro_ne_error
  · intro hno
    obtain ⟨r, hr, hr'⟩ := hno.merges hown
    exact
      { returns := fun _ => ⟨r, (mro_eq_order_iff (Or.inr hroot)).mpr hr, hr', hr'.linearizes⟩
        raises := fun hnot => absurd ⟨r, hr'.linearizes⟩ hnot }

/-- The loop of `merge` terminates within the list: it never reads the head of
an empty one. -/
theorem mro_inRange (hH : Built object H) (hbases : ∀ b ∈ bases, b ∈ H.map (·.1)) :
    mro_ type (bases.map H.mroOf) ≠ .outOfRange := by
  obtain ⟨hroot, -⟩ := wellFormed_mros hH.wellFormed hbases
  have hrange := mergeFrom_inRange (Or.inr hroot) (bases.map H.mroOf).flatten.length
  unfold mro_ merge
  cases hr : mergeFrom (bases.map H.mroOf).flatten.length (bases.map H.mroOf) with
  | outOfRange => exact absurd hr hrange
  | order mro => simp [MroResult.cons]
  | error => simp [MroResult.cons]
  | abort => simp [MroResult.cons]

end Hierarchy

/-- `object`, `class A` and `class B(A)`. -/
def twoClasses : Hierarchy Nat := [(2, [2, 1, 0]), (1, [1, 0]), (0, [0])]

theorem twoClasses_built : Built 0 twoClasses := by
  have hmroA : mro_ 1 ([0].map (Hierarchy.mroOf [(0, [0])])) = .order [1, 0] := by decide
  have hA : Built 0 [(1, [1, 0]), (0, [0])] :=
    .create .object (by decide) (by decide) (by decide) (by decide) hmroA
  have hmroB : mro_ 2 ([1].map (Hierarchy.mroOf [(1, [1, 0]), (0, [0])])) = .order [2, 1, 0] := by decide
  exact .create hA (by decide) (by decide) (by decide) (by decide) hmroB

/-- `class C(B, A)`. -/
theorem mro_meetsC3_iff_chain :
    MeetsC3 3 [[2, 1, 0], [1, 0]] [2, 1] (mro_ 3 [[2, 1, 0], [1, 0]]) ↔ NoBaseEarly [[2, 1, 0], [1, 0]] [2, 1] :=
  mro_meetsC3_iff twoClasses_built (by decide : ∀ b ∈ [2, 1], b ∈ twoClasses.map (·.1))

theorem mro_inRange_chain : mro_ 3 ([2, 1].map twoClasses.mroOf) ≠ .outOfRange :=
  mro_inRange twoClasses_built (by decide : ∀ b ∈ [2, 1], b ∈ twoClasses.map (·.1))

/-- `class C(A, B)` with `B` derived from `A` is created, with `B` before `A`. -/
theorem baseBeforeDerived_accepted : Built 0 twoClasses ∧ mro_ 3 ([1, 2].map twoClasses.mroOf) = .order [3, 2, 1, 0] ∧
    ¬ MeetsC3 3 ([1, 2].map twoClasses.mroOf) [1, 2] (mro_ 3 ([1, 2].map twoClasses.mroOf)) := by
  have hout : mro_ 3 ([1, 2].map twoClasses.mroOf) = .order [3, 2, 1, 0] := by decide
  refine ⟨twoClasses_built, hout, fun hmeets => ?_⟩
  have hnot : ¬ ∃ L, Linearizes ([1, 2].map twoClasses.mroOf ++ [[1, 2]]) L := by
    rw [← merges_iff_linearizes]
    intro h
    obtain ⟨r, hr⟩ := h
    cases hr with
    | done hempty => exact absurd (hempty [1, 2] (by decide)) (by decide)
    | take hs _ =>
      have hnone : select ([1, 2].map twoClasses.mroOf ++ [[1, 2]]) = none := by decide
      rw [hnone] at hs
      cases hs
  have herror := hmeets.raises hnot
  rw [hout] at herror
  cases herror

end Pylang.Runtime
