/-
The numbers the three tables give: where `eval` expects an argument is where
the body reads it, for the positional ones; `PyFrame::locals` reads by the
position in `varnames` alone, and the pass over the keywords looks for a cell
by the count of keywords so far.
-/
import Pylang.Calling.Eval
import Mathlib.Data.List.Perm.Basic

namespace Pylang.Calling

/-! ## Positions -/

theorem idxOf_map_of_unique {g : String → Nat} {n : String} : ∀ {l : List String}, n ∈ l →
    (∀ m ∈ l, g m = g n → m = n) → (l.map g).idxOf (g n) = l.idxOf n
  | m :: l, hn, h => by
    by_cases he : m = n
    · subst he
      simp
    · have hg : g m ≠ g n := fun hg => he (h m (by simp) hg)
      have hn' : n ∈ l := (List.mem_cons.mp hn).resolve_left fun h => he h.symm
      rw [List.map_cons, List.idxOf_cons_ne _ hg, List.idxOf_cons_ne _ he,
        idxOf_map_of_unique hn' fun m hm => h m (List.mem_cons_of_mem _ hm)]

theorem countP_mem_comm {l r : List String} (hl : l.Nodup) (hr : r.Nodup) : l.countP (· ∈ r) = r.countP (· ∈ l) := by
  rw [List.countP_eq_length_filter, List.countP_eq_length_filter]
  refine List.Perm.length_eq ((List.perm_ext_iff_of_nodup (hl.filter _) (hr.filter _)).mpr fun a => ?_)
  simp [and_comm]

namespace Code
variable (c : Code)

/-- The argument cells in front of an argument. -/
def cellsBefore : Nat → Nat
  | 0 => 0
  | i + 1 => c.argStackOffset i

theorem argStackOffset_eq (i : Nat) : c.argStackOffset i = c.cellsBefore i + (c.argCell i).isSome.toNat := by
  cases i <;> simp [argStackOffset, cellsBefore]

/-- The counter of the first pass stays at the slot that the offsets give. -/
theorem bindPositional_eq : ∀ (args : List Value) (idx s : Nat) (fr : Frame), s + c.cellsBefore idx = idx →
    c.bindPositional idx s args fr =
      (args.zipIdx idx).foldl (fun fr (a : Value × Nat) => fr.put (c.argPlace a.2) (.value a.1)) fr
  | [], _, _, _, _ => rfl
  | obj :: args, idx, s, fr, h => by
    have hoff := c.argStackOffset_eq idx
    rw [bindPositional, List.zipIdx_cons, List.foldl_cons]
    split
    next cell hcell =>
      rw [hcell, Option.isSome_some, Bool.toNat_true] at hoff
      have hs : s + c.cellsBefore (idx + 1) = idx + 1 := by
        show s + c.argStackOffset idx = idx + 1
        omega
      rw [bindPositional_eq args (idx + 1) s _ hs]
      simp only [argPlace, hcell]
    next hcell =>
      rw [hcell, Option.isSome_none, Bool.toNat_false] at hoff
      have hs : s + 1 + c.cellsBefore (idx + 1) = idx + 1 := by
        show s + 1 + c.argStackOffset idx = idx + 1
        omega
      rw [bindPositional_eq args (idx + 1) (s + 1) _ hs]
      have hslot : idx - c.argStackOffset idx = s := by omega
      simp only [argPlace, hcell, hslot]

end Code

namespace Function
variable (f : Function)

/-- A name of the body at its position. -/
def At (i : Nat) (n : String) : Prop := f.varnames[i]? = some n

variable {f}

theorem At.idxOf {i : Nat} {n : String} (h : f.At i n) : f.varnames.idxOf n = i := by
  obtain ⟨hi, rfl⟩ := List.getElem?_eq_some_iff.mp h
  exact f.nodup.idxOf_getElem i hi

theorem At.mem {i : Nat} {n : String} (h : f.At i n) : n ∈ f.varnames := List.mem_of_getElem? h

theorem At.lt {i : Nat} {n : String} (h : f.At i n) : i < f.varnames.length := by
  obtain ⟨hi, -⟩ := List.getElem?_eq_some_iff.mp h
  exact hi

theorem At.unique {i : Nat} {m n : String} (hm : f.At i m) (hn : f.At i n) : m = n :=
  Option.some.inj (hm.symm.trans hn)

theorem exists_at {n : String} (h : n ∈ f.varnames) : ∃ i, f.At i n := by
  obtain ⟨i, hi⟩ := List.mem_iff_getElem?.mp h
  exact ⟨i, hi⟩

theorem exists_at_of_lt {i : Nat} (h : i < f.varnames.length) : ∃ n, f.At i n := ⟨_, List.getElem?_eq_getElem h⟩

theorem varnames_eq : f.varnames =
    f.argumentNames ++ (f.kwonlyargs ++ (f.vararg.toList ++ (f.kwarg.toList ++ f.locals))) := by
  simp [varnames, parameters, named]

theorem At.argument {i : Nat} {n : String} (h : f.At i n) (hi : i < f.argumentNames.length) :
    f.argumentNames[i]? = some n := by
  unfold At at h
  rwa [varnames_eq, List.getElem?_append_left hi] at h

theorem argument_at {i : Nat} {n : String} (h : f.argumentNames[i]? = some n) : f.At i n := by
  obtain ⟨hi, -⟩ := List.getElem?_eq_some_iff.mp h
  unfold At
  rwa [varnames_eq, List.getElem?_append_left hi]

theorem length_named : f.named.length = f.argumentNames.length + f.kwonlyargs.length := by simp [named]

theorem length_parameters : f.parameters.length = f.named.length + f.vararg.isSome.toNat + f.kwarg.isSome.toNat := by
  cases hv : f.vararg <;> cases hk : f.kwarg <;> simp [parameters, hv, hk]

theorem vararg_at {n : String} (h : f.vararg = some n) : f.At f.named.length n := by
  unfold At
  simp [varnames, parameters, h]

theorem kwarg_at {n : String} (h : f.kwarg = some n) : f.At (f.named.length + f.vararg.isSome.toNat) n := by
  unfold At
  cases hv : f.vararg <;> simp [varnames, parameters, h, hv]

/-- A positional argument has its own number in the table. -/
theorem argOf_argument {i : Nat} {n : String} (h : f.argumentNames[i]? = some n) : f.argOf n = i := by
  have hat := (argument_at h).idxOf
  obtain ⟨hi, hn⟩ := List.getElem?_eq_some_iff.mp h
  have hlt : i < f.named.length := by rw [length_named]; omega
  unfold argOf
  rw [if_neg, if_neg, if_pos (List.mem_of_getElem? h)]
  · rw [← hn]
    exact f.argumentNames_nodup.idxOf_getElem i hi
  · intro hv
    have := (vararg_at hv).idxOf
    omega
  · intro hk
    have := (kwarg_at hk).idxOf
    omega

/-- And no other name has it. -/
theorem argOf_lt {n : String} {i : Nat} (h : f.argOf n = i) (hi : i < f.argumentNames.length) :
    f.argumentNames[i]? = some n := by
  have hlen := @length_parameters f
  have hnamed := @length_named f
  unfold argOf at h
  split at h
  next => omega
  split at h
  next => omega
  split at h
  next hmem =>
    subst h
    rw [List.getElem?_eq_getElem hi, List.getElem_idxOf]
  next => omega

theorem argCell_eq_some {i cell : Nat} : f.code.argCell i = some cell ↔
    (∃ n ∈ f.cellvars, f.argOf n = i) ∧ (f.cellvars.map f.argOf).idxOf i = cell := by
  unfold Code.argCell
  rw [f.cell2arg_eq]
  simp [eq_comm]

theorem argCell_captured {i : Nat} {n : String} (h : f.argumentNames[i]? = some n) (hn : n ∈ f.cellvars) :
    f.code.argCell i = some (f.cellvars.idxOf n) := by
  have harg := argOf_argument h
  obtain ⟨hi, -⟩ := List.getElem?_eq_some_iff.mp h
  refine argCell_eq_some.mpr ⟨⟨n, hn, harg⟩, ?_⟩
  rw [← harg]
  refine idxOf_map_of_unique hn fun m _ hm => ?_
  have hm' := argOf_lt (hm.trans harg) hi
  rw [h] at hm'
  exact (Option.some.inj hm').symm

theorem argCell_uncaptured {i : Nat} {n : String} (h : f.argumentNames[i]? = some n) (hn : n ∉ f.cellvars) :
    f.code.argCell i = none := by
  obtain ⟨hi, -⟩ := List.getElem?_eq_some_iff.mp h
  refine Option.eq_none_iff_forall_ne_some.mpr fun cell hcell => hn ?_
  obtain ⟨⟨m, hm, harg⟩, -⟩ := argCell_eq_some.mp hcell
  have hm' := argOf_lt harg hi
  rw [h] at hm'
  exact Option.some.inj hm' ▸ hm

theorem argCell_name {i cell : Nat} (h : f.code.argCell i = some cell) :
    ∃ n ∈ f.cellvars, f.argOf n = i ∧ f.cellvars.idxOf n = cell := by
  obtain ⟨⟨n, hn, harg⟩, hcell⟩ := argCell_eq_some.mp h
  have hlt : (f.cellvars.map f.argOf).idxOf i < (f.cellvars.map f.argOf).length :=
    List.idxOf_lt_length_of_mem (List.mem_map.mpr ⟨n, hn, harg⟩)
  have hlt' : cell < f.cellvars.length := by simpa [hcell] using hlt
  refine ⟨f.cellvars[cell], List.getElem_mem _, ?_, f.cellvars_nodup.idxOf_getElem _ _⟩
  have hget := List.getElem_idxOf hlt
  simpa [hcell] using hget

theorem argOf_of_argCell {k : Nat} {n : String}
    (h : f.code.argCell k = some (f.cellvars.idxOf n)) : f.argOf n = k := by
  obtain ⟨m, hm, harg, hidx⟩ := argCell_name h
  rw [← harg, (List.idxOf_inj hm).mp hidx]

/-- The arguments that can have a number in the table. -/
def numberedArguments (f : Function) : List String := f.argumentNames ++ (f.vararg.toList ++ f.kwarg.toList)

theorem numberedArguments_nodup : f.numberedArguments.Nodup := by
  have h := f.nodup
  rw [varnames_eq] at h
  unfold numberedArguments
  refine h.sublist (List.Sublist.append (List.Sublist.refl _) (List.Sublist.trans ?_ (List.sublist_append_right _ _)))
  exact List.Sublist.append (List.Sublist.refl _) (List.sublist_append_left _ _)

theorem argOf_ne {n : String} : f.argOf n ≠ f.parameters.length ↔ n ∈ f.numberedArguments := by
  have hlen := @length_parameters f
  have hnamed := @length_named f
  have hmem : n ∈ f.numberedArguments ↔ n ∈ f.argumentNames ∨ f.vararg = some n ∨ f.kwarg = some n := by
    simp [numberedArguments]
  rw [hmem]
  unfold argOf
  split
  next hk =>
    rw [hk, Option.isSome_some, Bool.toNat_true] at hlen
    exact ⟨fun _ => .inr (.inr hk), fun _ => by omega⟩
  next hk =>
    split
    next hv =>
      rw [hv, Option.isSome_some, Bool.toNat_true] at hlen
      exact ⟨fun _ => .inr (.inl hv), fun _ => by omega⟩
    next hv =>
      split
      next ha =>
        have := List.idxOf_lt_length_of_mem ha
        exact ⟨fun _ => .inl ha, fun _ => by omega⟩
      next ha => simp [hk, hv, ha]

theorem totalCount_eq : f.code.totalCount = f.parameters.length := by
  rw [length_parameters, length_named]
  rfl

theorem argCellsCount_eq : f.code.argCellsCount = f.numberedArguments.countP (· ∈ f.cellvars) := by
  rw [← countP_mem_comm f.cellvars_nodup numberedArguments_nodup]
  unfold Code.argCellsCount
  rw [f.cell2arg_eq, totalCount_eq, List.countP_map]
  refine List.countP_congr fun n _ => ?_
  simpa using argOf_ne

/-! ## The slots -/

/-- The uncaptured names among the first. -/
def slotsBefore (f : Function) (i : Nat) : Nat := (f.varnames.take i).countP (· ∉ f.cellvars)

theorem At.getLocalIdx {i : Nat} {n : String} (h : f.At i n) : f.code.getLocalIdx n = f.slotsBefore i := by
  unfold Code.getLocalIdx
  rw [code_varnames, h.idxOf]
  rfl

theorem slotsBefore_succ {i : Nat} {n : String} (h : f.At i n) :
    f.slotsBefore (i + 1) = f.slotsBefore i + (if n ∈ f.cellvars then 0 else 1) := by
  unfold slotsBefore
  rw [List.take_add_one, h, List.countP_append]
  by_cases hn : n ∈ f.cellvars <;> simp [hn]

theorem slotsBefore_mono {i j : Nat} (h : i ≤ j) : f.slotsBefore i ≤ f.slotsBefore j :=
  ((f.varnames.take_prefix_take_left h).sublist).countP_le

theorem slotsBefore_le (i : Nat) : f.slotsBefore i ≤ i := by
  unfold slotsBefore
  exact Nat.le_trans List.countP_le_length (List.length_take_le i _)

theorem slotsBefore_lt {i j : Nat} {n : String} (h : f.At i n) (hn : n ∉ f.cellvars) (hij : i < j) :
    f.slotsBefore i < f.slotsBefore j := by
  have hsucc := slotsBefore_succ h
  have hmono : f.slotsBefore (i + 1) ≤ f.slotsBefore j := slotsBefore_mono hij
  rw [if_neg hn] at hsucc
  omega

/-- A name keeps its own position when no captured name stands before it. -/
theorem slotsBefore_eq_self {i : Nat} (hi : i ≤ f.varnames.length) :
    f.slotsBefore i = i ↔ ∀ j n, j < i → f.At j n → n ∉ f.cellvars := by
  have hlen : (f.varnames.take i).length = i := by simp [hi]
  unfold slotsBefore
  constructor
  · intro h j n hj hat
    have hall := List.countP_eq_length.mp (h.trans hlen.symm)
    have hmem : n ∈ f.varnames.take i := List.mem_of_getElem? ((List.getElem?_take_of_lt hj).trans hat)
    simpa using hall n hmem
  · intro h
    refine Eq.trans (List.countP_eq_length.mpr fun n hn => ?_) hlen
    obtain ⟨j, hj⟩ := List.mem_iff_getElem?.mp hn
    have hji : j < i := by
      by_contra hge
      rw [List.getElem?_take_eq_none (by omega)] at hj
      cases hj
    rw [List.getElem?_take_of_lt hji] at hj
    simpa using h j n hji hj

/-- The offset of the passes over the defaults leaves the slot of the name. -/
theorem argStackOffset_add {i : Nat} (hi : i < f.argumentNames.length) :
    f.code.argStackOffset i + f.slotsBefore (i + 1) = i + 1 := by
  induction i with
  | zero =>
    obtain ⟨n, hn⟩ : ∃ n, f.argumentNames[0]? = some n := ⟨_, List.getElem?_eq_getElem hi⟩
    rw [slotsBefore_succ (argument_at hn)]
    by_cases hc : n ∈ f.cellvars
    · simp [Code.argStackOffset, argCell_captured hn hc, hc, slotsBefore]
    · simp [Code.argStackOffset, argCell_uncaptured hn hc, hc, slotsBefore]
  | succ i ih =>
    obtain ⟨n, hn⟩ : ∃ n, f.argumentNames[i + 1]? = some n := ⟨_, List.getElem?_eq_getElem hi⟩
    have ih := ih (by omega)
    rw [slotsBefore_succ (argument_at hn)]
    by_cases hc : n ∈ f.cellvars
    · simp only [Code.argStackOffset, argCell_captured hn hc, hc, Option.isSome_some, Bool.toNat_true, if_true]
      omega
    · simp only [Code.argStackOffset, argCell_uncaptured hn hc, hc, Option.isSome_none, Bool.toNat_false, if_false]
      omega

theorem readPlace_captured {n : String} (h : n ∈ f.cellvars) : f.code.readPlace n = .cell (f.cellvars.idxOf n) := by
  simp [Code.readPlace, Code.getCellIndex, h]

theorem At.readPlace {i : Nat} {n : String} (h : f.At i n) (hn : n ∉ f.cellvars) :
    f.code.readPlace n = .slot (f.slotsBefore i) := by
  have hfree : n ∉ f.freevars := fun hf => (f.freevars_foreign n hf).2 (by simpa [varnames, parameters, named, argumentNames] using h.mem)
  simp [Code.readPlace, hn, hfree, h.getLocalIdx]

theorem argPlace_eq {i : Nat} {n : String} (h : f.argumentNames[i]? = some n) : f.code.argPlace i = f.code.readPlace n := by
  unfold Code.argPlace
  by_cases hn : n ∈ f.cellvars
  · rw [argCell_captured h hn, readPlace_captured hn]
  · rw [argCell_uncaptured h hn, (argument_at h).readPlace hn]
    obtain ⟨hi, -⟩ := List.getElem?_eq_some_iff.mp h
    have hadd := argStackOffset_add hi
    have hsucc := slotsBefore_succ (argument_at h)
    rw [if_neg hn] at hsucc
    simp only [Place.slot.injEq]
    omega

/-- The names of the body have places of their own. -/
theorem readPlace_inj {m n : String} (hm : m ∈ f.varnames ∨ m ∈ f.cellvars) (hn : n ∈ f.varnames ∨ n ∈ f.cellvars)
    (h : f.code.readPlace m = f.code.readPlace n) : m = n := by
  by_cases hmc : m ∈ f.cellvars <;> by_cases hnc : n ∈ f.cellvars
  · rw [readPlace_captured hmc, readPlace_captured hnc, Place.cell.injEq] at h
    exact (List.idxOf_inj hmc).mp h
  · obtain ⟨j, hj⟩ := exists_at (hn.resolve_right hnc)
    rw [readPlace_captured hmc, hj.readPlace hnc] at h
    cases h
  · obtain ⟨i, hi⟩ := exists_at (hm.resolve_right hmc)
    rw [readPlace_captured hnc, hi.readPlace hmc] at h
    cases h
  · obtain ⟨i, hi⟩ := exists_at (hm.resolve_right hmc)
    obtain ⟨j, hj⟩ := exists_at (hn.resolve_right hnc)
    rw [hi.readPlace hmc, hj.readPlace hnc, Place.slot.injEq] at h
    rcases Nat.lt_trichotomy i j with hlt | rfl | hgt
    · have := slotsBefore_lt hi hmc hlt
      omega
    · exact hi.unique hj
    · have := slotsBefore_lt hj hnc hgt
      omega

end Function

end Pylang.Calling
