/-
`LinearScanRegisterAllocation.hpp`: the scan over the intervals of the dataflow
liveness. It keeps the iterator's register busy while a loop variable is
active (`foriter_reserved_regs`), and moves a value out of a taken register 0
without marking the scratch register it moves it to.

An assertion or a `TODO()` of the source is `none` here. `free_register` and
`mark_register_used` are called with a reference into the multiset after its
element was erased; they read here what the element held.
-/
import Pylang.Regalloc.Assignment
import Pylang.Regalloc.Header.LiveAnalysis

namespace Pylang.Regalloc.Header

/-- `overlaps`: a subinterval of `j` starts or ends within one of `i`, ends included. -/
def overlaps (i j : LiveInterval) : Bool :=
  i.intervals.any fun (a, b) => j.intervals.any fun (c, d) => (a ≤ c && c ≤ b) || (a ≤ d && d ≤ b)

def LiveIntervalAnalysis.analyse (S : StartSort) (fn : Func) : Option LiveIntervalAnalysis := do
  let la ← LiveAnalysis.analyse fn
  some (.ofLive S la)

/-- The allocator between two intervals. The multisets are in order of their comparator, by end. -/
structure ScanState where
  active : List LiveInterval
  inactive : List LiveInterval
  handled : List LiveInterval
  free : Reg → Bool
  map : ValueMapping Reg
  foriterReserved : ValueMapping Reg
  fixups : List Fixup

section
variable (fn : Func) (inputs : ArgumentInputs)

/-- `preallocate_r0_clobbering_operations`. -/
def preallocate (l : List LiveInterval) (s : ScanState) : ScanState :=
  l.foldl (fun s i =>
    if preallocated fn inputs i.value then
      { s with map := s.map.insertOrAssign i.value 0, inactive := insertByEnd i s.inactive }
    else s) s

/-- `free_register`. -/
def freeRegister (i : LiveInterval) (s : ScanState) : Option ScanState := do
  let r ← s.map.find i.value
  let free := setFree s.free r true
  match s.foriterReserved.find i.value with
  | some q => some { s with free := setFree free q true, foriterReserved := s.foriterReserved.erase i.value }
  | none => some { s with free := free }

/-- `mark_register_used`. -/
def markRegisterUsed (i : LiveInterval) (s : ScanState) : Option ScanState := do
  let r ← s.map.find i.value
  if s.free r then
    let free := setFree s.free r false
    match s.foriterReserved.find i.value with
    | some q => some { s with free := setFree free q false }
    | none => some { s with free := free }
  else none

/-- The loop over `active`. -/
def expireActive (cur : LiveInterval) (s : ScanState) : List LiveInterval → Option ScanState
  | [] => some { s with active := [] }
  | i :: l =>
    if i.value = cur.value then none
    else if i.stop < cur.start then do
      let s ← freeRegister i { s with handled := insertByEnd i s.handled }
      expireActive cur s l
    else if !i.aliveAt cur.start then do
      let s ← freeRegister i { s with inactive := insertByEnd i s.inactive }
      expireActive cur s l
    else do
      let s ← expireActive cur s l
      some { s with active := insertByEnd i s.active }

/-- The loop over `inactive`. -/
def expireInactive (cur : LiveInterval) (s : ScanState) : List LiveInterval → Option ScanState
  | [] => some { s with inactive := [] }
  | i :: l =>
    if i.value = cur.value then expireInactive cur { s with active := insertByEnd i s.active } l
    else if i.stop < cur.start then expireInactive cur { s with handled := insertByEnd i s.handled } l
    else if i.aliveAt cur.start then do
      let s ← markRegisterUsed i { s with active := insertByEnd i s.active }
      expireInactive cur s l
    else do
      let s ← expireInactive cur s l
      some { s with inactive := insertByEnd i s.inactive }

/-- `expire_old_intervals`. -/
def expireOldIntervals (cur : LiveInterval) (s : ScanState) : Option ScanState := do
  let s ← expireActive cur s s.active
  expireInactive cur s s.inactive

/-- `getIterator` of the `FOR_ITER` that forwards an output. -/
def iteratorOf (op : OpId) : Option Value :=
  (fn.ops.find? fun o => o.id = op && decide (o.kind = .forIter)).bind (·.operands.head?)

/-- The iterator's register, or that of the first value with one among those mapped to it. -/
def iteratorRegister (map : ValueMapping Reg) (iterator : Value) : Option Reg :=
  (map.find (.value iterator)).or (((inputs.find (.value iterator)).getD []).findSome? map.find)

/-- `apply_special_constraints`: register 0 is not for an iterator, nor the iterator's register for its loop
variable. -/
def allowed (cur : LiveInterval) (s : ScanState) (r : Reg) : Bool :=
  match cur.value with
  | .value v => !(isGetIter fn v && r == 0)
  | .forwarded op _ => decide ((iteratorOf fn op).bind (iteratorRegister inputs s.map) ≠ some r)

/-- `collect_available_registers`. -/
def available (cur : LiveInterval) (unhandled : List LiveInterval) (s : ScanState) : Reg → Bool := fun r =>
  s.free r && !((s.inactive ++ unhandled).any fun i => overlaps i cur && decide (s.map.find i.value = some r)) &&
    allowed fn inputs cur s r

/-- The register of `cur`: the one claimed for it, or the lowest available one. -/
def chooseRegister (cur : LiveInterval) (f : Reg → Bool) (s : ScanState) : Option Reg :=
  (s.map.find cur.value).or ((List.range 32).find? f)

/-- `handle_register_conflict`: the scratch register stays free. -/
def handleRegisterConflict (cur : LiveInterval) (r : Reg) (f : Reg → Bool) (s : ScanState) : Option ScanState := do
  let scratch ← (List.range 32).find? fun i => 1 ≤ i && f i
  match cur.value with
  | .forwarded .. => some s
  | .value v => do
    let c ← currentValue fn inputs v
    let op ← fn.definingOp c
    some { s with
      map := s.map.insertOrAssign cur.value scratch
      fixups := s.fixups ++ [⟨op.id, cur.value, scratch, r⟩] }

/-- The chosen register is marked, or the conflict handled. -/
def takeRegister (cur : LiveInterval) (r : Reg) (f : Reg → Bool) (s : ScanState) : Option ScanState :=
  if s.free r then some { s with free := setFree s.free r false } else handleRegisterConflict fn inputs cur r f s

/-- One input of a block argument: the iterator's register is reserved for the output of a `FOR_ITER`. -/
def reserveIterator (cur : LiveInterval) (s : ScanState) (input : Var) : ScanState :=
  match input with
  | .value _ => s
  | .forwarded op _ =>
    match (iteratorOf fn op).bind fun it => s.map.find (.value it) with
    | some r => { s with foriterReserved := s.foriterReserved.insertOrAssign cur.value r, free := setFree s.free r false }
    | none => s

/-- The block argument's part of `allocate_register`. -/
def reserveIterators (cur : LiveInterval) (s : ScanState) : ScanState :=
  match cur.value with
  | .value v => if fn.isBlockArgument v then ((inputs.find cur.value).getD []).foldl (reserveIterator fn cur) s else s
  | .forwarded .. => s

/-- `allocate_register`, after the check that some register is available. -/
def allocateRegister (cur : LiveInterval) (unhandled : List LiveInterval) (s : ScanState) : Option ScanState :=
  let f := available fn inputs cur unhandled s
  if (List.range 32).all fun r => !f r then none
  else do
    let r ← chooseRegister cur f s
    let s' ← takeRegister fn inputs cur r f { s with map := s.map.insertOrAssign cur.value r }
    some (reserveIterators fn inputs cur { s' with active := insertByEnd cur s'.active })

/-- `while (!unhandled.empty())`. -/
def scan : List LiveInterval → ScanState → Option ScanState
  | [], s => some s
  | cur :: unhandled, s => do
    let s ← expireOldIntervals cur s
    let s ← allocateRegister fn inputs cur unhandled s
    scan unhandled s

/-- A round of the scan: the interval, those after it, and the states before and after `expire_old_intervals`. -/
structure Round where
  cur : LiveInterval
  unhandled : List LiveInterval
  before : ScanState
  expired : ScanState

/-- The rounds the scan reaches an allocation in. -/
def rounds : List LiveInterval → ScanState → List Round
  | [], _ => []
  | cur :: unhandled, s =>
    match expireOldIntervals cur s with
    | none => []
    | some e =>
      match allocateRegister fn inputs cur unhandled e with
      | none => [⟨cur, unhandled, s, e⟩]
      | some s' => ⟨cur, unhandled, s, e⟩ :: rounds unhandled s'

end

/-- Before the first interval: every register free, nothing claimed. -/
def ScanState.init : ScanState := ⟨[], [], [], fun r => decide (r < 32), ∅, ∅, []⟩

def LinearScanRegisterAllocation.analyse (S : StartSort) (fn : Func) : Option Allocation := do
  let lia ← LiveIntervalAnalysis.analyse S fn
  let s₀ := preallocate fn lia.blockInputMappings lia.sortedLiveIntervals ScanState.init
  let s ← scan fn lia.blockInputMappings lia.sortedLiveIntervals s₀
  some ⟨s.map.merge (additional lia.blockInputMappings s.map), s.fixups⟩

/-! ## The conditions -/

/-- The register claimed for the round's interval is taken: `handle_register_conflict` is called. -/
def Round.Conflict (p : Round) : Prop := ∃ r, p.expired.map.find p.cur.value = some r ∧ p.expired.free r = false

/-- What a conflict moves to the unmarked scratch register ends before another interval starts, and one operation is
all that leaves it in register 0. -/
def Round.ConflictSafe (fn : Func) (inputs : ArgumentInputs) (p : Round) : Prop :=
  p.Conflict → (∀ q ∈ p.unhandled, p.cur.stop ≤ q.start) ∧ SingleClobber fn inputs (fun _ => True) p.cur.value

/-- No loop variable that ends or pauses before the round has reserved a register that an interval still alive
holds. -/
def Round.ReleaseSafe (p : Round) : Prop :=
  ∀ j ∈ p.before.active, j.aliveAt p.cur.start = false → ∀ r, p.before.foriterReserved.find j.value = some r →
    ∀ i ∈ p.before.active, i.aliveAt p.cur.start = true → p.before.map.find i.value ≠ some r

/-- Every round is safe. -/
def RoundsSafe (S : StartSort) (fn : Func) : Prop :=
  ∀ lia, LiveIntervalAnalysis.analyse S fn = some lia →
    ∀ p ∈ rounds fn lia.blockInputMappings lia.sortedLiveIntervals
        (preallocate fn lia.blockInputMappings lia.sortedLiveIntervals .init),
      p.ConflictSafe fn lia.blockInputMappings ∧ p.ReleaseSafe

end Pylang.Regalloc.Header
