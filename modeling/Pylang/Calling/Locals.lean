/-
Whether the three numberings agree: the place a call fills for a parameter,
the place the body reads, and the slot or cell `PyFrame::locals` copies into
the dictionary. They do when no captured name stands in front of an uncaptured
one and a captured parameter can only be passed by position.
-/
import Mathlib
import Pylang.Calling.Rule

namespace Pylang.Calling

/-- A dictionary of locals. -/
abbrev Dict := String → Option Content

/-- The loops of `PyFrame::locals`: `remove` what tests unset, `insert` the rest. -/
def recordLocals (fr : Frame) (place : Nat → Place) : List String → Nat → Dict → Dict
  | [], _, d => d
  | n :: names, i, d =>
    let value := fr.get (place i)
    recordLocals fr place names (i + 1) (Function.update d n (if value.testsUnset then none else some value))

namespace Code
variable (c : Code)

/-- `PyFrame::locals`, from the dictionary it fills. -/
def locals (fr : Frame) (d : Dict) : Dict :=
  let d := recordLocals fr .slot c.varnames 0 d
  let d := recordLocals fr .cell c.cellvars 0 d
  bif c.isClass then d else recordLocals fr .cell c.freevars c.cellvars.length d

/-- How a call can fill a parameter: by position, as the keyword after `k` others, or as `*args` or `**kwargs`. -/
inductive Way where
  | position
  | keyword (k : Nat)
  | rest

/-- The places in which `eval` puts what is passed for a parameter. A cell for `*args` or `**kwargs` is filled if its
null tests unset. -/
def puts (i : Nat) : Way → List Place
  | .position => [c.argPlace i]
  | .keyword k => c.keywordPlaces i k
  | .rest =>
    match c.argCell i with
    | some cell => if Content.null.testsUnset then [.cell cell] else []
    | none => (c.restSlot i).toList

end Code

theorem recordLocals_apply (fr : Frame) (place : Nat → Place) : ∀ (names : List String) (i : Nat) (d : Dict) (n : String),
    names.Nodup → recordLocals fr place names i d n =
      if n ∈ names then some (fr.get (place (i + names.idxOf n))) else d n
  | [], _, _, _, _ => by simp [recordLocals]
  | m :: names, i, d, n, h => by
    obtain ⟨hm, h⟩ := List.nodup_cons.mp h
    rw [recordLocals, recordLocals_apply fr place names (i + 1) _ n h]
    by_cases he : n = m
    · subst he
      simp [hm]
    · have hne : m ≠ n := fun h => he h.symm
      simp only [List.mem_cons, he, false_or, List.idxOf_cons_ne _ hne, Function.update_of_ne he]
      split
      · rw [show i + 1 + names.idxOf n = i + (names.idxOf n + 1) by omega]
      · rfl

namespace Function
variable (f : Function)

/-- The names `PyFrame::locals` is about. -/
def names : List String := f.varnames ++ f.cellvars ++ bif f.isClass then [] else f.freevars

/-- The ways in which Python's calls can fill the parameter at a position. -/
def Passes (i : Nat) : Code.Way → Prop
  | .position => i < f.argumentNames.length
  | .keyword k => f.posonlyargs.length ≤ i ∧ i < f.named.length ∧ k < f.named.length - f.posonlyargs.length
  | .rest => f.named.length ≤ i ∧ i < f.parameters.length

/-- The three numberings agree, and so does the dictionary with the frame. -/
structure Agrees (fr : Frame) : Prop where
  /-- A parameter is put where the body reads it, and nothing else is. -/
  puts : ∀ i n way, f.At i n → f.Passes i way → f.code.readPlace n ∈ f.code.puts i way ∧
    ∀ m, m ∈ f.varnames ∨ m ∈ f.cellvars → m ≠ n → f.code.readPlace m ∉ f.code.puts i way
  /-- `PyFrame::locals` reads `stack_local(i)` for the name at `i`. -/
  slot : ∀ i n, f.At i n → n ∉ f.cellvars → f.code.getLocalIdx n = i
  locals : ∀ d, ∀ n ∈ f.names, f.code.locals fr d n =
    if fr.get (f.code.readPlace n) = .null then none else some (fr.get (f.code.readPlace n))

/-- No captured name stands before an uncaptured one, and a captured name that is a parameter is positional-only or
the only named parameter. -/
def CapturedLast : Prop :=
  ∀ i n, f.At i n → n ∈ f.cellvars →
    (∀ j m, i < j → f.At j m → m ∈ f.cellvars) ∧
      (i < f.posonlyargs.length ∨ i = 0 ∧ f.named.length = 1 ∧ f.args.length = 1)

variable {f}

theorem CapturedLast.slotsBefore (h : f.CapturedLast) {i : Nat} {n : String} (hat : f.At i n) (hn : n ∉ f.cellvars) :
    f.slotsBefore i = i :=
  (slotsBefore_eq_self (Nat.le_of_lt hat.lt)).mpr fun j m hj hm hc => hn ((h j m hm hc).1 i n hj hat)

theorem locals_eq (fr : Frame) (d : Dict) (n : String) : f.code.locals fr d n =
    if f.isClass = false ∧ n ∈ f.freevars then some (fr.get (.cell (f.cellvars.length + f.freevars.idxOf n)))
    else if n ∈ f.cellvars then some (fr.get (.cell (f.cellvars.idxOf n)))
    else if n ∈ f.varnames then some (fr.get (.slot (f.varnames.idxOf n))) else d n := by
  simp only [Code.locals, code_varnames, code_cellvars, code_freevars, code_isClass]
  have hcells := recordLocals_apply fr .cell f.cellvars 0 (recordLocals fr .slot f.varnames 0 d) n f.cellvars_nodup
  rw [recordLocals_apply fr .slot f.varnames 0 d n f.nodup, Nat.zero_add, Nat.zero_add] at hcells
  cases f.isClass with
  | true =>
    rw [cond_true, hcells]
    simp
  | false =>
    rw [cond_false, recordLocals_apply fr .cell _ _ _ n f.freevars_nodup, hcells]
    simp

/-- What the dictionary says when every name has its own slot. -/
theorem locals_apply (h : f.CapturedLast) (fr : Frame) (d : Dict) {n : String} (hn : n ∈ f.names) :
    f.code.locals fr d n = some (fr.get (f.code.readPlace n)) := by
  rw [locals_eq]
  by_cases hf : n ∈ f.freevars
  · obtain ⟨hc, hv⟩ := f.freevars_foreign n hf
    have hv : n ∉ f.varnames := by simpa [varnames, parameters, named, argumentNames] using hv
    have hclass : f.isClass = false := by
      cases hclass : f.isClass with
      | false => rfl
      | true => simp [names, hclass, hc, hv] at hn
    rw [if_pos ⟨hclass, hf⟩]
    simp [Code.readPlace, Code.getCellIndex, hc, hf, Nat.add_comm]
  · rw [if_neg fun h => hf h.2]
    by_cases hc : n ∈ f.cellvars
    · rw [if_pos hc, readPlace_captured hc]
    · have hv : n ∈ f.varnames := by
        unfold names at hn
        cases hclass : f.isClass <;> simpa [hclass, hc, hf] using hn
      obtain ⟨i, hat⟩ := exists_at hv
      rw [if_neg hc, if_pos hv, hat.idxOf, hat.readPlace hc, h.slotsBefore hat hc]

theorem locals_iff (h : f.CapturedLast) (fr : Frame) :
    (∀ d, ∀ n ∈ f.names, f.code.locals fr d n =
      if fr.get (f.code.readPlace n) = .null then none else some (fr.get (f.code.readPlace n))) ↔
      ∀ n ∈ f.names, fr.get (f.code.readPlace n) ≠ .null := by
  constructor
  · intro hl n hn hnull
    have := hl (fun _ => none) n hn
    rw [locals_apply h fr _ hn, if_pos hnull] at this
    cases this
  · intro hbound d n hn
    rw [locals_apply h fr d hn, if_neg (hbound n hn)]

/-! ## Where the parameters go -/

/-- The pass over the keywords fills the cell of a captured name if the count of keywords is its number. -/
theorem cell_mem_keywordPlaces {i k : Nat} {n : String} (hn : n ∈ f.cellvars) :
    f.code.readPlace n ∈ f.code.keywordPlaces i k ↔ f.code.argCell k = some (f.cellvars.idxOf n) := by
  rw [Code.mem_keywordPlaces, readPlace_captured hn]
  simp [eq_comm]

/-- What is passed for `*args` or `**kwargs` reaches no cell. -/
theorem cell_not_mem_rest {i : Nat} {n : String} (hn : n ∈ f.cellvars) :
    f.code.readPlace n ∉ f.code.puts i .rest := by
  rw [readPlace_captured hn]
  simp only [Code.puts]
  split
  next => simp
  next =>
    unfold Code.restSlot
    split <;> simp

/-- Agreement forces the captured names to the end. -/
theorem Agrees.capturedLast {fr : Frame} (h : f.Agrees fr) : f.CapturedLast := by
  intro i n hat hn
  constructor
  · intro j m hij hm
    by_contra hc
    have hslot := h.slot j m hm hc
    rw [hm.getLocalIdx] at hslot
    exact (slotsBefore_eq_self (Nat.le_of_lt hm.lt)).mp hslot i n hij hat hn
  · have hnamed := @length_named f
    have hpos : f.argumentNames.length = f.posonlyargs.length + f.args.length := by simp [argumentNames]
    by_contra hcond
    obtain ⟨hposonly, hsingle⟩ := not_or.mp hcond
    have hpassed : i < f.parameters.length := by
      by_contra hge
      have hmem : n ∈ f.locals := by
        have hat := hat
        unfold At varnames at hat
        rw [List.getElem?_append_right (by omega)] at hat
        exact List.mem_of_getElem? hat
      exact f.locals_uncaptured n hmem hn
    by_cases hlt : i < f.named.length
    · -- some keyword reaches it after another number of keywords
      obtain ⟨k, hk, hne⟩ : ∃ k, k < f.named.length - f.posonlyargs.length ∧ f.argOf n ≠ k := by
        by_cases harg : i < f.argumentNames.length
        · rw [argOf_argument (hat.argument harg)]
          by_cases h0 : i = 0
          · exact ⟨1, by omega, by omega⟩
          · exact ⟨0, by omega, by omega⟩
        · refine ⟨0, by omega, fun h0 => ?_⟩
          by_cases hzero : 0 < f.argumentNames.length
          · have := (argument_at (argOf_lt h0 hzero)).idxOf
            have := hat.idxOf
            omega
          · have hparams := @length_parameters f
            unfold argOf at h0
            split at h0
            next hk =>
              have := (kwarg_at hk).idxOf
              have := hat.idxOf
              omega
            split at h0
            next hv =>
              have := (vararg_at hv).idxOf
              have := hat.idxOf
              omega
            split at h0
            next hmem =>
              have := List.length_pos_of_mem hmem
              omega
            next => omega
      have hput := (h.puts i n (.keyword k) hat ⟨by omega, hlt, hk⟩).1
      exact hne (argOf_of_argCell ((cell_mem_keywordPlaces hn).mp hput))
    · have hput := (h.puts i n .rest hat ⟨by omega, hpassed⟩).1
      exact cell_not_mem_rest hn hput

/-- With the captured names last, an uncaptured name that a keyword can reach leaves no captured parameter. -/
theorem CapturedLast.argCell_keyword (h : f.CapturedLast) {i k : Nat} {n : String} (hat : f.At i n)
    (hpass : f.Passes i (.keyword k)) (hn : n ∉ f.cellvars) : f.code.argCell k = none := by
  obtain ⟨hle, hlt, hk⟩ := hpass
  refine Option.eq_none_iff_forall_ne_some.mpr fun cell hcell => ?_
  obtain ⟨m, hm, harg, -⟩ := argCell_name hcell
  have hparams := @length_parameters f
  obtain ⟨j, hj⟩ : ∃ j, f.At j m := by
    unfold argOf at harg
    split at harg
    next hkw => exact ⟨_, kwarg_at hkw⟩
    split at harg
    next hv => exact ⟨_, vararg_at hv⟩
    split at harg
    next hmem =>
      obtain ⟨j, hj⟩ := List.mem_iff_getElem?.mp hmem
      exact ⟨j, argument_at hj⟩
    next => omega
  obtain ⟨hafter, hpos⟩ := h j m hj hm
  rcases Nat.lt_trichotomy j i with hji | rfl | hij
  · exact hn (hafter i n hji hat)
  · exact hn (hat.unique hj ▸ hm)
  · omega

theorem CapturedLast.puts (h : f.CapturedLast) {i : Nat} {n : String} {way : Code.Way} (hat : f.At i n)
    (hpass : f.Passes i way) : f.code.readPlace n ∈ f.code.puts i way ∧
      ∀ m, m ∈ f.varnames ∨ m ∈ f.cellvars → m ≠ n → f.code.readPlace m ∉ f.code.puts i way := by
  have hother : ∀ m, m ∈ f.varnames ∨ m ∈ f.cellvars → m ≠ n → f.code.readPlace m ≠ f.code.readPlace n :=
    fun m hm hne he => hne (readPlace_inj hm (.inl hat.mem) he)
  cases way with
  | position =>
    have hplace := argPlace_eq (hat.argument hpass)
    simp only [Code.puts, hplace, List.mem_singleton, true_and]
    exact hother
  | keyword k =>
    by_cases hn : n ∈ f.cellvars
    · obtain ⟨hle, hlt, hk⟩ := hpass
      obtain ⟨hafter, hpos | ⟨rfl, hnamed, hargs⟩⟩ := h i n hat hn
      · omega
      have hk : k = 0 := by omega
      subst hk
      have harg : f.argumentNames[0]? = some n := hat.argument (by simp [argumentNames, hargs])
      have hcell := argCell_captured harg hn
      refine ⟨(cell_mem_keywordPlaces hn).mpr hcell, fun m hm hne hmem => ?_⟩
      have hmc : m ∈ f.cellvars := by
        rcases hm with hm | hm
        · obtain ⟨j, hj⟩ := exists_at hm
          rcases Nat.eq_zero_or_pos j with rfl | hj0
          · exact absurd (hj.unique hat) hne
          · exact hafter j m hj0 hj
        · exact hm
      have hcell' := (cell_mem_keywordPlaces hmc).mp hmem
      rw [hcell, Option.some.injEq] at hcell'
      exact hne ((List.idxOf_inj hmc).mp hcell'.symm)
    · have hread := hat.readPlace hn
      rw [h.slotsBefore hat hn] at hread
      have hputs : f.code.puts i (.keyword k) = [f.code.readPlace n] := by
        simp [Code.puts, Code.keywordPlaces, h.argCell_keyword hat hpass hn, hread]
      rw [hputs]
      simpa using hother
  | rest =>
    obtain ⟨hle, hlt⟩ := hpass
    have hnamed := @length_named f
    have hpos : f.argumentNames.length = f.posonlyargs.length + f.args.length := by simp [argumentNames]
    -- no parameter is captured: the captured names are all the last ones
    have hnone : ∀ j m, f.At j m → j < f.parameters.length → m ∉ f.cellvars := by
      intro j m hj hlt' hm
      obtain ⟨hafter, hpos⟩ := h j m hj hm
      by_cases hij : j = i
      · omega
      · have hnc := hafter i n (by omega) hat
        obtain ⟨-, hpos'⟩ := h i n hat hnc
        omega
    have hcell : ∀ k, k < f.parameters.length → f.code.argCell k = none := by
      intro k hk
      refine Option.eq_none_iff_forall_ne_some.mpr fun cell hcell => ?_
      obtain ⟨m, hm, harg, -⟩ := argCell_name hcell
      unfold argOf at harg
      split at harg
      next hkw => exact hnone _ m (kwarg_at hkw) (by rw [length_parameters, hkw]; simp) hm
      split at harg
      next hv => exact hnone _ m (vararg_at hv) (by rw [length_parameters, hv]; simp; omega) hm
      split at harg
      next hmem =>
        obtain ⟨j, hj⟩ := List.mem_iff_getElem?.mp hmem
        obtain ⟨hj', -⟩ := List.getElem?_eq_some_iff.mp hj
        exact hnone j m (argument_at hj) (by omega) hm
      next => omega
    have hcount : f.code.argCellsCount = 0 := by
      rw [argCellsCount_eq, List.countP_eq_zero]
      intro m hm
      simp only [numberedArguments, List.mem_append, Option.mem_toList] at hm
      rcases hm with hm | hm | hm
      · obtain ⟨j, hj⟩ := List.mem_iff_getElem?.mp hm
        obtain ⟨hj', -⟩ := List.getElem?_eq_some_iff.mp hj
        have hparams := @length_parameters f
        simpa using hnone j m (argument_at hj) (by omega)
      · simpa using hnone _ m (vararg_at hm) (by rw [length_parameters, hm]; simp; omega)
      · simpa using hnone _ m (kwarg_at hm) (by rw [length_parameters, hm]; simp)
    have hn := hnone i n hat hlt
    have hread := hat.readPlace hn
    rw [h.slotsBefore hat hn] at hread
    have hputs : f.code.puts i .rest = [f.code.readPlace n] := by
      simp [Code.puts, hcell i hlt, Code.restSlot, hcount, hread]
    rw [hputs]
    simpa using hother

/-- **The three numberings agree** on the functions whose captured names come last and cannot be passed as keywords,
in the frames where every name is bound, and nowhere else. -/
theorem agrees_iff (f : Function) (fr : Frame) :
    f.Agrees fr ↔ f.CapturedLast ∧ ∀ n ∈ f.names, fr.get (f.code.readPlace n) ≠ .null := by
  constructor
  · intro h
    have hlast := h.capturedLast
    exact ⟨hlast, (locals_iff hlast fr).mp h.locals⟩
  · intro h
    obtain ⟨h, hbound⟩ := h
    exact
      { puts := fun i n way hat hpass => h.puts hat hpass
        slot := fun i n hat hn => by rw [hat.getLocalIdx, h.slotsBefore hat hn]
        locals := (locals_iff h fr).mpr hbound }

/-- `def f(a, b): def g(): return a`. -/
def firstCaptured : Function where
  posonlyargs := []
  args := ["a", "b"]
  kwonlyargs := []
  vararg := none
  kwarg := none
  locals := ["g"]
  cellvars := ["a"]
  freevars := []
  isClass := false
  varnames_nodup := by decide
  cellvars_nodup := by decide
  freevars_nodup := List.nodup_nil
  locals_uncaptured := by decide
  freevars_foreign := by decide

/-- In the call `f(1, 2)` the body finds 2 for `b`, and `locals()` finds nothing. -/
theorem firstCaptured_disagrees : ∃ fr, firstCaptured.code.eval [.int 1, .int 2] [] [] [] = .ok fr ∧
    fr.get (firstCaptured.code.readPlace "b") = .value (.int 2) ∧
    firstCaptured.code.locals fr (fun _ => none) "b" = some .null ∧ ¬ firstCaptured.Agrees fr := by
  refine ⟨_, rfl, by decide, by decide, fun h => ?_⟩
  have hslot := h.slot 1 "b" rfl (by decide)
  exact absurd hslot (by decide)

end Function

end Pylang.Calling
