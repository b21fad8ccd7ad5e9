/-
The emitter's `LiveIntervalAnalysis` and `LinearScanRegisterAllocation`: live
intervals of the mentioned values, sorted by start, and one scan that gives
each a register of 32.

An assertion or a `TODO()` of the source is `none` here. One loop of the source
cannot leave its branch: an inactive interval that is alive again is inserted
into `active` but the iterator stays on it, so the second round's assertion
fails on the register the first round took.
-/
import Pylang.Regalloc.Assignment
import Pylang.Regalloc.Emitter.LiveAnalysis

namespace Pylang.Regalloc.Emitter

/-- `overlaps`: two subintervals share a timestep. -/
def overlaps (i j : LiveInterval) : Bool :=
  i.intervals.any fun (a, b) => j.intervals.any fun (c, d) => a < d && c < b

def LiveIntervalAnalysis.analyse (S : StartSort) (fn : Func) : Option LiveIntervalAnalysis := do
  let la ← LiveAnalysis.analyse fn
  some (.ofLive S la)

/-- The allocator between two intervals. The multisets are in order of their comparator, by end. -/
structure ScanState where
  active : List LiveInterval
  inactive : List LiveInterval
  handled : List LiveInterval
  free : Reg → Bool
  map : ValueMapping Reg
  fixups : List Fixup

section
variable (fn : Func) (inputs : ArgumentInputs)

/-- Register 0 is claimed for an interval. -/
def claim (i : LiveInterval) (s : ScanState) : ScanState :=
  { s with map := s.map.insertOrAssign i.value 0, inactive := insertByEnd i s.inactive }

/-- Register 0 is claimed for every value an operation may leave there. -/
def preallocate (l : List LiveInterval) (s : ScanState) : ScanState :=
  l.foldl (fun s i =>
    let s := if clobberedResult fn i.value then claim i s else s
    if clobberedArgument fn inputs i.value then claim i s else s) s

/-- The loop over `active`: intervals that ended, or are not alive at `cur`, free their register. -/
def expireActive (cur : LiveInterval) (s : ScanState) : List LiveInterval → Option ScanState
  | [] => some { s with active := [] }
  | i :: l =>
    if i.value = cur.value then none
    else if i.stop < cur.start then do
      let r ← s.map.find i.value
      expireActive cur { s with handled := insertByEnd i s.handled, free := setFree s.free r true } l
    else if !i.aliveAt cur.start then do
      let r ← s.map.find i.value
      expireActive cur { s with inactive := insertByEnd i s.inactive, free := setFree s.free r true } l
    else do
      let s ← expireActive cur s l
      some { s with active := insertByEnd i s.active }

/-- The loop over `inactive`. An interval that is alive again is the endless branch: it is never erased. -/
def expireInactive (cur : LiveInterval) (s : ScanState) : List LiveInterval → Option ScanState
  | [] => some { s with inactive := [] }
  | i :: l =>
    if i.value = cur.value then
      if preallocated fn inputs i.value then
        expireInactive cur { s with active := insertByEnd i s.active } l
      else none
    else if i.stop < cur.start then expireInactive cur { s with handled := insertByEnd i s.handled } l
    else if i.aliveAt cur.start then none
    else do
      let s ← expireInactive cur s l
      some { s with inactive := insertByEnd i s.inactive }

def expire (cur : LiveInterval) (s : ScanState) : Option ScanState := do
  let s ← expireActive cur s s.active
  expireInactive fn inputs cur s s.inactive

/-- The registers `f` of the source: free, and not promised to an overlapping interval that will need it. -/
def available (cur : LiveInterval) (unhandled : List LiveInterval) (s : ScanState) : Reg → Bool := fun r =>
  s.free r && !(s.inactive ++ unhandled).any fun i => overlaps i cur && decide (s.map.find i.value = some r)

/-- The register of `cur`: the one claimed for it, or the lowest available one, not register 0 for an iterator.
`std::get<mlir::Value>` throws on a forwarded output. -/
def chooseRegister (cur : LiveInterval) (f : Reg → Bool) (s : ScanState) : Option Reg :=
  match s.map.find cur.value with
  | some r => some r
  | none =>
    match cur.value with
    | .forwarded .. => none
    | .value v => (List.range 32).find? fun i => !(i == 0 && isGetIter fn v) && f i

/-- The register of `cur` is taken: a scratch register takes its place after the operation that clobbers it. -/
def handleConflict (cur : LiveInterval) (r : Reg) (f : Reg → Bool) (s : ScanState) : Option ScanState := do
  let scratch ← (List.range 32).find? fun i => 1 ≤ i && f i
  match cur.value with
  | .forwarded .. => some { s with active := insertByEnd cur s.active }
  | .value v => do
    let c ← currentValue fn inputs v
    let op ← fn.definingOp c
    some { s with
      map := s.map.insertOrAssign cur.value scratch
      free := setFree s.free scratch false
      fixups := s.fixups ++ [⟨op.id, cur.value, scratch, r⟩]
      active := insertByEnd cur s.active }

/-- One interval, after `expire`. -/
def allocate (cur : LiveInterval) (unhandled : List LiveInterval) (s : ScanState) : Option ScanState :=
  let f := available cur unhandled s
  if (List.range 32).all fun r => !f r then none
  else do
    let r ← chooseRegister fn cur f s
    if s.free r then
      some { s with
        map := s.map.insertOrAssign cur.value r
        free := setFree s.free r false
        active := insertByEnd cur s.active }
    else handleConflict fn inputs cur r f s

/-- `while (!unhandled.empty())`. -/
def scan : List LiveInterval → ScanState → Option ScanState
  | [], s => some s
  | cur :: unhandled, s => do
    let s ← expire fn inputs cur s
    let s ← allocate fn inputs cur unhandled s
    scan unhandled s

/-- Every interval the scan reaches, with the state it allocates it in. -/
def scanStates : List LiveInterval → ScanState → List (LiveInterval × ScanState)
  | [], _ => []
  | cur :: unhandled, s =>
    match expire fn inputs cur s with
    | none => []
    | some s =>
      match allocate fn inputs cur unhandled s with
      | none => [(cur, s)]
      | some s' => (cur, s) :: scanStates unhandled s'

end

/-- The conflict branch is taken: the register claimed for `cur` is not free. -/
def Conflict (cur : LiveInterval) (s : ScanState) : Prop :=
  ∃ r, s.map.find cur.value = some r ∧ s.free r = false

/-- Before the first interval: every register free, nothing claimed. -/
def ScanState.init : ScanState := ⟨[], [], [], fun r => decide (r < 32), ∅, []⟩

def LinearScanRegisterAllocation.analyse (S : StartSort) (fn : Func) : Option Allocation := do
  let lia ← LiveIntervalAnalysis.analyse S fn
  let s₀ := preallocate fn lia.blockInputMappings lia.sortedLiveIntervals ScanState.init
  let s ← scan fn lia.blockInputMappings lia.sortedLiveIntervals s₀
  some ⟨s.map.merge (additional lia.blockInputMappings s.map), s.fixups⟩

end Pylang.Regalloc.Emitter
