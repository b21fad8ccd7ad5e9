/-
From live values to registers: what the two allocators share. They build the
same intervals, claim register 0 for the same values, insert the same
instructions where register 0 is taken, and hand a block argument's register on
to what is forwarded to it.
-/
import Pylang.Regalloc.BlockArguments
import Pylang.Regalloc.Interval

namespace Pylang.Regalloc

/-- The values mapped to each block argument, in the order the mappings are iterated. -/
abbrev ArgumentInputs := ValueMapping (List Var)

/-- `block_input_mappings[el].push_back(key)`. -/
def pushInput (key : Var) (m : ArgumentInputs) (el : Value) : ArgumentInputs :=
  m.insertOrAssign (.value el) ((m.find (.value el)).getD [] ++ [key])

def invert (m : InputMappings) : ArgumentInputs :=
  m.entries.foldl (fun acc (key, args) => args.foldl (pushInput key) acc) ∅

structure LiveIntervalAnalysis where
  sortedLiveIntervals : List LiveInterval
  blockInputMappings : ArgumentInputs

def LiveIntervalAnalysis.ofLive (S : StartSort) (la : LiveAnalysis) : LiveIntervalAnalysis :=
  ⟨S.sort (intervalsFrom 0 la.aliveAtTimestep []), invert la.blockInputMappings⟩

/-- `Push(curReg)` before an operation, `Move(scratch, curReg)` and `Pop(curReg)` after it, inserted for a value. -/
structure Fixup where
  op : OpId
  value : Var
  scratch : Reg
  curReg : Reg
deriving DecidableEq

/-- `multiset::insert`: after the entries with the same end. -/
def insertByEnd (i : LiveInterval) (l : List LiveInterval) : List LiveInterval :=
  l.orderedInsert (fun a b => a.stop < b.stop) i

theorem mem_insertByEnd {i j : LiveInterval} {l : List LiveInterval} : j ∈ insertByEnd i l ↔ j = i ∨ j ∈ l := by
  simp [insertByEnd]

/-- `bitset::set`. -/
def setFree (free : Reg → Bool) (r : Reg) (b : Bool) : Reg → Bool := fun r' => if r' = r then b else free r'

section
variable (fn : Func) (inputs : ArgumentInputs)

/-- The result of an operation that clobbers register 0. -/
def clobberedResult : Var → Bool
  | .value v => fn.clobbersR0 v
  | .forwarded .. => false

/-- A block argument some result of such an operation is mapped to. -/
def clobberedArgument (x : Var) : Bool := ((inputs.find x).getD []).any (clobberedResult fn)

/-- What register 0 is claimed for before the scan. -/
def preallocated (x : Var) : Bool := clobberedResult fn x || clobberedArgument fn inputs x

/-- The result of a `GET_ITER`. -/
def isGetIter (v : Value) : Bool := (fn.definingOp v).any (·.kind = .getIter)

/-- The first input of a block argument that leaves its value in register 0; a forwarded output before it fails the
assertion. -/
def firstClobbering : List Var → Option Value
  | [] => none
  | .forwarded .. :: _ => none
  | .value v :: l => if fn.clobbersR0 v then some v else firstClobbering l

/-- `current_value` of the fix-up: the value itself, or the first clobbering input of a block argument. -/
def currentValue (v : Value) : Option Value :=
  if fn.isBlockArgument v then (inputs.find (.value v)).bind (firstClobbering fn) else some v

/-- The definitions that leave a value in register 0 for `x`: its own, and those of what is mapped to it. -/
def clobberingValues (x : Var) : List Var :=
  (x :: (inputs.find x).getD []).filter (clobberedResult fn)

/-- `x` has one definition that leaves a value in register 0 for it, and `P` holds of that operation. -/
def SingleClobber (P : Operation → Prop) (x : Var) : Prop :=
  ∃ v o, clobberingValues fn inputs x = [.value v] ∧ fn.definingOp v = some o ∧ P o

end

/-- `value2mem_map_additional`: the register of a block argument, for what is mapped to it. -/
def additional (inputs : ArgumentInputs) (map : ValueMapping Reg) : ValueMapping Reg :=
  map.entries.foldl (fun acc (x, r) => acc.assignAll ((inputs.find x).getD []) r) ∅

/-- `LinearScanRegisterAllocation`, after `analyse`. -/
structure Allocation where
  value2memMap : ValueMapping Reg
  fixups : List Fixup

/-- `get_register`. -/
def Allocation.getRegister (a : Allocation) (x : Var) : Option Reg := a.value2memMap.find x

/-- The fix-ups of one operation. -/
def Allocation.fixupsOf (a : Allocation) (o : Operation) : List Fixup := a.fixups.filter (·.op = o.id)

theorem setFree_true {free : Reg → Bool} {r r' : Reg} : setFree free r true r' = true ↔ free r' = true ∨ r' = r := by
  simp only [setFree]
  split <;> simp_all

theorem setFree_false {free : Reg → Bool} {r r' : Reg} : setFree free r false r' = true ↔ free r' = true ∧ r' ≠ r := by
  simp only [setFree]
  split <;> simp_all

/-! ## The inverted mappings -/

/-- `x` is listed among what is mapped to `y`. -/
def Lists (m : ArgumentInputs) (y x : Var) : Prop := ∃ l, m.find y = some l ∧ x ∈ l

theorem lists_pushInput {m : ArgumentInputs} {key x y : Var} {el : Value} :
    Lists (pushInput key m el) y x ↔ Lists m y x ∨ (y = .value el ∧ x = key) := by
  simp only [Lists, pushInput, Lib.OrdMap.find_insertOrAssign]
  by_cases hy : y = .value el
  · subst hy
    cases hf : m.find (.value el) <;> simp
  · simp [hy]

theorem lists_pushInputs {key x y : Var} : ∀ (args : List Value) {m : ArgumentInputs},
    Lists (args.foldl (pushInput key) m) y x ↔ Lists m y x ∨ (x = key ∧ ∃ a ∈ args, y = .value a)
  | [], m => by simp
  | a :: args, m => by
    simp only [List.foldl_cons, lists_pushInputs args, lists_pushInput, List.mem_cons, exists_eq_or_imp]
    tauto

/-- The inverted mappings list, for each argument, what is mapped to it. -/
theorem lists_invert {m : InputMappings} {x y : Var} :
    Lists (invert m) y x ↔ ∃ a, y = .value a ∧ Maps m x a := by
  suffices h : ∀ (l : List (Var × List Value)) (acc : ArgumentInputs),
      Lists (l.foldl (fun acc (key, args) => args.foldl (pushInput key) acc) acc) y x ↔
        Lists acc y x ∨ ∃ args, (x, args) ∈ l ∧ ∃ a ∈ args, y = .value a by
    rw [invert, h]
    simp only [Lists, Lib.OrdMap.find_empty, reduceCtorEq, false_and, exists_false, false_or, Maps]
    constructor
    · intro h
      obtain ⟨args, hm, a, ha, rfl⟩ := h
      exact ⟨a, rfl, args, Lib.OrdMap.mem_entries.mp hm, ha⟩
    · intro h
      obtain ⟨a, rfl, args, hm, ha⟩ := h
      exact ⟨args, Lib.OrdMap.mem_entries.mpr hm, a, ha, rfl⟩
  intro l
  induction l with
  | nil => simp
  | cons e l ih =>
    obtain ⟨key, args⟩ := e
    intro acc
    simp only [List.foldl_cons, ih, lists_pushInputs, List.mem_cons, Prod.mk.injEq]
    constructor
    · rintro ((h | ⟨rfl, h⟩) | ⟨args', hm, h⟩)
      · exact .inl h
      · exact .inr ⟨args, .inl ⟨rfl, rfl⟩, h⟩
      · exact .inr ⟨args', .inr hm, h⟩
    · rintro (h | ⟨args', ⟨rfl, rfl⟩ | hm, h⟩)
      · exact .inl (.inl h)
      · exact .inl (.inr ⟨rfl, h⟩)
      · exact .inr ⟨args', hm, h⟩

theorem find_invert_value {m : InputMappings} {x : Var} {l : List Var} (h : (invert m).find x = some l) :
    ∃ v, x = .value v := by
  suffices hk : ∀ (es : List (Var × List Value)) (acc : ArgumentInputs), (∀ x l, acc.find x = some l → ∃ v, x = .value v) →
      ∀ x l, (es.foldl (fun acc (key, args) => args.foldl (pushInput key) acc) acc).find x = some l →
        ∃ v, x = .value v from hk _ _ (by simp) x l h
  intro es
  induction es with
  | nil => exact fun _ h => h
  | cons e es ih =>
    obtain ⟨key, args⟩ := e
    intro acc hacc
    simp only [List.foldl_cons]
    refine ih _ ?_
    clear ih
    induction args generalizing acc with
    | nil => exact hacc
    | cons a args iha =>
      simp only [List.foldl_cons]
      refine iha _ fun x l hx => ?_
      rw [pushInput, Lib.OrdMap.find_insertOrAssign] at hx
      split at hx
      next hxa => exact ⟨a, hxa⟩
      next => exact hacc x l hx

/-- The additional entries: what is mapped to a value gets the value's register, when it is mapped to nothing else. -/
theorem find_additional (inputs : ArgumentInputs) (map : ValueMapping Reg) {x y : Var}
    (hl : Lists inputs y x) (honly : ∀ z, Lists inputs z x → z = y) {r : Reg} (hr : map.find y = some r) :
    (additional inputs map).find x = some r := by
  suffices h : ∀ (l : List (Var × Reg)) (acc : ValueMapping Reg), (∀ q, (y, q) ∈ l → q = r) →
      (l.foldl (fun acc (z, q) => acc.assignAll ((inputs.find z).getD []) q) acc).find x =
        if y ∈ l.map Prod.fst then some r else acc.find x by
    rw [additional, h, if_pos (List.mem_map_of_mem (f := Prod.fst) (Lib.OrdMap.mem_entries.mpr hr))]
    intro q hq
    rw [Lib.OrdMap.mem_entries, hr] at hq
    exact (Option.some.inj hq).symm
  intro l
  induction l with
  | nil => simp
  | cons e l ih =>
    obtain ⟨z, q⟩ := e
    intro acc hq
    rw [List.foldl_cons, ih _ fun q' hq' => hq q' (by simp [hq']), Lib.OrdMap.find_assignAll]
    by_cases hzy : z = y
    · subst hzy
      obtain ⟨l', hl', hx⟩ := hl
      have hqr : q = r := hq q (by simp)
      simp [hl', hx, hqr]
    · have hnot : x ∉ (inputs.find z).getD [] := by
        intro hx
        cases hf : inputs.find z with
        | none => simp [hf] at hx
        | some l' => exact hzy (honly z ⟨l', hf, by simpa [hf] using hx⟩)
      have hyz : ¬y = z := fun he => hzy he.symm
      simp only [if_neg hnot, List.map_cons, List.mem_cons, hyz, false_or]

end Pylang.Regalloc
