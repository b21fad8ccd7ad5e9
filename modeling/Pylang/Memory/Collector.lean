/-
The collector of the heap: `MarkSweepGC` makes every cell white, greys the
roots, blackens what it pops from the stack of grey cells while it greys their
neighbours, and frees the cells that are still white. A cell in static memory is
neither marked nor followed.

A cell is an address. The words of the C++ stack are addresses of which some are
no cells; what a cell's `visit_graph` reports is its list of references.
-/
import Pylang.Lib.Worklist

namespace Pylang.Memory

open Lib.Worklist

inductive Color
  | white
  | grey
  | black
  deriving DecidableEq

/-- The header of a cell: two bits, of which a cell that is not grey or black has none. -/
structure GarbageCollected where
  bit0 : Bool
  bit1 : Bool
  proper : bit0 = true → bit1 = true

namespace GarbageCollected

def black (header : GarbageCollected) : Bool := header.bit0 && header.bit1

/-- Of a black cell as well. -/
def grey (header : GarbageCollected) : Bool := header.bit1

def white (header : GarbageCollected) : Bool := !header.bit0 && !header.bit1

def mark : Color → GarbageCollected
  | .white => ⟨false, false, id⟩
  | .grey => ⟨false, true, fun _ => rfl⟩
  | .black => ⟨true, true, id⟩

theorem white_eq (header : GarbageCollected) : header.white = !header.grey := by
  obtain ⟨b0, b1, h⟩ := header
  cases b1 with
  | true => cases b0 <;> rfl
  | false =>
    cases b0 with
    | true => exact absurd (h rfl) (by decide)
    | false => rfl

theorem grey_of_black {header : GarbageCollected} (h : header.black = true) : header.grey = true :=
  (Bool.and_eq_true_iff.mp h).2

end GarbageCollected

/-- The slab's blocks with the cells of their chunks, which of them are occupied, and what lies in them. The referent of a
cell is the `m_object` of a weak reference, `none` for `py_none()`. -/
structure Heap (α : Type) where
  slab : List (List α)
  occupied : α → Bool
  header : α → GarbageCollected
  references : α → List α
  referent : α → Option α
  weakrefs : α → Option (List α)

/-- What a garbage collection starts from besides the C++ stack. -/
structure Roots (α : Type) where
  stackObjects : List α
  interpreter : List α

structure MarkSweepGC where
  frequency : Nat
  iterationsSinceLastSweep : Nat
  pause : Bool

section
variable {α : Type} [DecidableEq α] (isStaticMemory : α → Bool)

namespace Heap

def cells (h : Heap α) : List α := h.slab.flatten

def hasAddress (h : Heap α) (c : α) : Bool := h.cells.contains c && h.occupied c

def mark (h : Heap α) (c : α) (color : Color) : Heap α :=
  { h with header := Function.update h.header c (.mark color) }

/-! ## The roots -/

def markAllCellUnreachable (h : Heap α) : Heap α := h.cells.foldl (fun h c => h.mark c .white) h

/-- `add_root`; `none` where an assertion fails. -/
def addRoot (s : Heap α × List α) (c : α) : Option (Heap α × List α) :=
  if (s.1.header c).black then none
  else if (s.1.header c).grey then some s
  else if (s.1.header c).white then some (s.1.mark c .grey, c :: s.2)
  else none

def addRoots (s : Heap α × List α) : List α → Option (Heap α × List α)
  | [] => some s
  | c :: cs => do
    let s ← addRoot s c
    addRoots s cs

/-- `collect_roots`: the words of the stack that are addresses of occupied cells, and what the VM and the interpreter hold
outside static memory. -/
def collectRoots (h : Heap α) (words : List α) (roots : Roots α) : Option (Heap α × List α) :=
  addRoots (h, []) (words.filter h.hasAddress ++ (roots.stackObjects ++ roots.interpreter).filter (!isStaticMemory ·))

/-! ## Marking and sweeping -/

def visitNeighbour (s : Heap α × List α) (neighbour : α) : Heap α × List α :=
  if isStaticMemory neighbour then s
  else if (s.1.header neighbour).black then s
  else if (s.1.header neighbour).grey then s
  else (s.1.mark neighbour .grey, neighbour :: s.2)

/-- `MarkGCVisitor::visit`. -/
def visit (s : Heap α × List α) (cell : α) : Heap α × List α :=
  if isStaticMemory cell then s else (s.1.references cell).foldl (visitNeighbour isStaticMemory) s

/-- The loop of `mark_all_live_objects`, `n` rounds of it at most. -/
def markAllLiveObjects : Nat → Heap α → List α → Option (Heap α)
  | _, h, [] => some h
  | 0, _, _ :: _ => none
  | n + 1, h, root :: roots =>
    if isStaticMemory root then markAllLiveObjects n h roots
    else if (h.header root).grey then
      let (h, roots) := visit isStaticMemory (h.mark root .black, roots) root
      markAllLiveObjects n h roots
    else none

/-- A dead cell is freed. The debug message, which reads the name of the object's type, is left out. -/
def sweepCell (h : Heap α) (c : α) : Heap α :=
  if h.occupied c && (h.header c).white then
    { h with
      weakrefs := Function.update h.weakrefs c none
      occupied := Function.update h.occupied c false
      header := Function.update h.header c (.mark .white) }
  else h

def sweep (h : Heap α) : Heap α := h.cells.foldl sweepCell h

/-- A collection. A round of marking blackens a cell of the slab, so that there are no more rounds than cells. -/
def collect (h : Heap α) (words : List α) (roots : Roots α) : Option (Heap α) := do
  let (h, stack) ← collectRoots isStaticMemory h.markAllCellUnreachable words roots
  let h ← markAllLiveObjects isStaticMemory h.cells.length h stack
  return h.sweep

end Heap

/-- `MarkSweepGC::run`. -/
def MarkSweepGC.run (gc : MarkSweepGC) (h : Heap α) (words : List α) (roots : Roots α) : Option (MarkSweepGC × Heap α) :=
  if gc.pause then some (gc, h)
  else if gc.iterationsSinceLastSweep + 1 < gc.frequency then
    some ({ gc with iterationsSinceLastSweep := gc.iterationsSinceLastSweep + 1 }, h)
  else (h.collect isStaticMemory words roots).map fun h => ({ gc with iterationsSinceLastSweep := 0 }, h)

/-! ## What marking does -/

namespace Heap

variable {isStaticMemory} {h h' h'' : Heap α} {c : α}

def seen (h : Heap α) (c : α) : Bool := (h.header c).grey

/-- The heaps differ in the colours of their cells. -/
structure SameCells (h h' : Heap α) : Prop where
  slab : h'.slab = h.slab
  occupied : h'.occupied = h.occupied
  references : h'.references = h.references
  referent : h'.referent = h.referent
  weakrefs : h'.weakrefs = h.weakrefs

omit [DecidableEq α] in
theorem SameCells.refl (h : Heap α) : SameCells h h := ⟨rfl, rfl, rfl, rfl, rfl⟩

omit [DecidableEq α] in
theorem SameCells.trans (h₁ : SameCells h h') (h₂ : SameCells h' h'') : SameCells h h'' :=
  ⟨h₂.slab.trans h₁.slab, h₂.occupied.trans h₁.occupied, h₂.references.trans h₁.references,
    h₂.referent.trans h₁.referent, h₂.weakrefs.trans h₁.weakrefs⟩

omit [DecidableEq α] in
theorem SameCells.cells (hsame : SameCells h h') : h'.cells = h.cells := congrArg List.flatten hsame.slab

theorem sameCells_mark (h : Heap α) (c : α) (color : Color) : SameCells h (h.mark c color) := ⟨rfl, rfl, rfl, rfl, rfl⟩

theorem seen_mark (h : Heap α) (c : α) (color : Color) :
    (h.mark c color).seen = Function.update h.seen c (GarbageCollected.mark color).grey := by
  funext d
  by_cases hd : d = c
  · simp [seen, mark, hd]
  · simp [seen, mark, hd]

theorem seen_mark_black (hseen : h.seen c = true) : (h.mark c .black).seen = h.seen := by
  rw [seen_mark]
  exact Function.update_eq_self_iff.mpr hseen.symm

theorem foldl_white (l : List α) (h : Heap α) :
    SameCells h (l.foldl (fun h c => h.mark c .white) h) ∧
      ∀ c, (l.foldl (fun h c => h.mark c .white) h).seen c = true → c ∉ l ∧ h.seen c = true := by
  induction l generalizing h with
  | nil => exact ⟨.refl h, fun c hc => ⟨List.not_mem_nil, hc⟩⟩
  | cons a l ih =>
    obtain ⟨hsame, hseen⟩ := ih (h.mark a .white)
    refine ⟨(sameCells_mark h a .white).trans hsame, fun c hc => ?_⟩
    obtain ⟨hnot, hc⟩ := hseen c hc
    rw [seen_mark] at hc
    by_cases hca : c = a
    · subst hca
      rw [Function.update_self] at hc
      cases hc
    · rw [Function.update_of_ne hca] at hc
      exact ⟨fun hmem => (List.mem_cons.mp hmem).elim hca hnot, hc⟩

/-- Greying the roots is pushing them, if none of them is black. -/
theorem addRoots_push {s : Heap α × List α} {cs : List α} (hblack : ∀ c ∈ cs, (s.1.header c).black = false) :
    ∃ s', addRoots s cs = some s' ∧ SameCells s.1 s'.1 ∧ (s'.1.seen, s'.2) = push s.1.seen s.2 cs := by
  induction cs generalizing s with
  | nil => exact ⟨s, rfl, .refl s.1, rfl⟩
  | cons c cs ih =>
    have hc := hblack c List.mem_cons_self
    have hcs := fun d hd => hblack d (List.mem_cons_of_mem c hd)
    unfold addRoots addRoot push
    rw [hc]
    by_cases hgrey : (s.1.header c).grey = true
    · obtain ⟨s', hrun, hsame, hpush⟩ := ih hcs
      refine ⟨s', ?_, hsame, ?_⟩
      · simp [hgrey, hrun]
      · rw [hpush, if_pos (show s.1.seen c = true from hgrey)]
    · have hwhite : (s.1.header c).white = true := by
        rw [GarbageCollected.white_eq]
        simp [hgrey]
      obtain ⟨s', hrun, hsame, hpush⟩ := @ih (s.1.mark c .grey, c :: s.2) fun d hd => by
        show ((Function.update s.1.header c (.mark .grey)) d).black = false
        by_cases hdc : d = c
        · rw [hdc, Function.update_self]
          rfl
        · rw [Function.update_of_ne hdc]
          exact hcs d hd
      refine ⟨s', ?_, (sameCells_mark s.1 c .grey).trans hsame, ?_⟩
      · simp [hgrey, hwhite, hrun]
      · rw [hpush, seen_mark, if_neg (show ¬ s.1.seen c = true from hgrey)]
        rfl

/-- Greying the neighbours of a cell is pushing those outside static memory. -/
theorem foldl_visitNeighbour (s : Heap α × List α) (cs : List α) :
    SameCells s.1 (cs.foldl (visitNeighbour isStaticMemory) s).1 ∧
      ((cs.foldl (visitNeighbour isStaticMemory) s).1.seen, (cs.foldl (visitNeighbour isStaticMemory) s).2) =
        push s.1.seen s.2 (cs.filter (!isStaticMemory ·)) := by
  induction cs generalizing s with
  | nil => exact ⟨.refl s.1, rfl⟩
  | cons c cs ih =>
    rw [List.foldl_cons]
    by_cases hstatic : isStaticMemory c = true
    · rw [List.filter_cons_of_neg (by simp [hstatic]), visitNeighbour, if_pos hstatic]
      exact ih s
    · rw [List.filter_cons_of_pos (by simp [hstatic])]
      unfold push
      by_cases hgrey : (s.1.header c).grey = true
      · have hvisit : visitNeighbour isStaticMemory s c = s := by
          unfold visitNeighbour
          simp [hgrey]
        rw [hvisit, if_pos (show s.1.seen c = true from hgrey)]
        exact ih s
      · have hblack : ¬ (s.1.header c).black = true := fun h => hgrey (GarbageCollected.grey_of_black h)
        have hvisit : visitNeighbour isStaticMemory s c = (s.1.mark c .grey, c :: s.2) := by
          unfold visitNeighbour
          rw [if_neg hstatic, if_neg hblack, if_neg hgrey]
        rw [hvisit, if_neg (show ¬ s.1.seen c = true from hgrey)]
        obtain ⟨hsame, hpush⟩ := ih (s.1.mark c .grey, c :: s.2)
        refine ⟨(sameCells_mark s.1 c .grey).trans hsame, hpush.trans ?_⟩
        rw [seen_mark]
        rfl

variable (isStaticMemory) in
/-- The references that the marking follows. -/
def dynamicReferences (h : Heap α) (c : α) : List α := (h.references c).filter (!isStaticMemory ·)

/-- To visit a cell that is seen is to push its references. -/
theorem visit_push (stack : List α) (hdynamic : isStaticMemory c = false) (hseen : h.seen c = true) :
    ∃ s, visit isStaticMemory (h.mark c .black, stack) c = s ∧ SameCells h s.1 ∧
      (s.1.seen, s.2) = push h.seen stack (h.dynamicReferences isStaticMemory c) := by
  have hvisit : visit isStaticMemory (h.mark c .black, stack) c =
      (h.references c).foldl (visitNeighbour isStaticMemory) (h.mark c .black, stack) := by
    unfold visit
    rw [if_neg (by simp [hdynamic])]
    rfl
  obtain ⟨hsame, hpush⟩ := @foldl_visitNeighbour _ _ isStaticMemory (h.mark c .black, stack) (h.references c)
  refine ⟨_, hvisit, (sameCells_mark h c .black).trans hsame, hpush.trans ?_⟩
  dsimp only
  rw [seen_mark_black hseen]
  rfl

/-- The loop of the marking is the search. -/
theorem markAllLiveObjects_search {n : Nat} {stack : List α} {seen' : α → Bool}
    (hstack : ∀ c ∈ stack, isStaticMemory c = false ∧ h.seen c = true)
    (hrun : search (h.dynamicReferences isStaticMemory) n h.seen stack = some seen') :
    ∃ h', markAllLiveObjects isStaticMemory n h stack = some h' ∧ SameCells h h' ∧ h'.seen = seen' := by
  induction n generalizing h stack with
  | zero =>
    cases stack with
    | nil => exact ⟨h, rfl, .refl h, Option.some.inj hrun⟩
    | cons c stack => cases hrun
  | succ n ih =>
    cases stack with
    | nil => exact ⟨h, rfl, .refl h, Option.some.inj hrun⟩
    | cons c stack =>
      obtain ⟨hdynamic, hc⟩ := hstack c List.mem_cons_self
      obtain ⟨s, hvisit, hsame, hpush⟩ := visit_push stack hdynamic hc
      have hseen := congrArg Prod.fst hpush
      have hrest := congrArg Prod.snd hpush
      dsimp only at hseen hrest
      have hnext : s.1.dynamicReferences isStaticMemory = h.dynamicReferences isStaticMemory := by
        unfold dynamicReferences
        rw [hsame.references]
      have hstack' : ∀ d ∈ s.2, isStaticMemory d = false ∧ s.1.seen d = true := by
        intro d hd
        rw [hseen, push_seen]
        rw [hrest] at hd
        rcases mem_push hd with hd | hd
        · exact ⟨(hstack d (List.mem_cons_of_mem c hd)).1, .inl (hstack d (List.mem_cons_of_mem c hd)).2⟩
        · exact ⟨by simpa using (List.mem_filter.mp hd).2, .inr hd⟩
      have hrun' : search (s.1.dynamicReferences isStaticMemory) n s.1.seen s.2 = some seen' := by
        rw [hnext, hseen, hrest]
        exact hrun
      obtain ⟨h', hmark, hsame', hseen'⟩ := ih hstack' hrun'
      refine ⟨h', ?_, hsame.trans hsame', hseen'⟩
      unfold markAllLiveObjects
      rw [if_neg (by simp [hdynamic]), if_pos (show (h.header c).grey = true from hc), hvisit]
      exact hmark

/-! ## What sweeping does -/

/-- Of the cells of `l`, those that are occupied and white are freed. -/
structure Swept (h : Heap α) (l : List α) (h' : Heap α) : Prop where
  slab : h'.slab = h.slab
  references : h'.references = h.references
  referent : h'.referent = h.referent
  occupied : ∀ c, h'.occupied c = true ↔ h.occupied c = true ∧ ¬ (c ∈ l ∧ h.seen c = false)
  seen : h'.seen = h.seen
  cleared : ∀ c ∈ l, h.occupied c = true → h.seen c = false → h'.weakrefs c = none
  weakrefs : ∀ c, ¬ (c ∈ l ∧ h.occupied c = true ∧ h.seen c = false) → h'.weakrefs c = h.weakrefs c

theorem sweepCell_swept (h : Heap α) (c : α) : Swept h [c] (sweepCell h c) := by
  unfold sweepCell
  by_cases hfree : (h.occupied c && (h.header c).white) = true
  · rw [if_pos hfree]
    obtain ⟨hocc, hwhite⟩ := Bool.and_eq_true_iff.mp hfree
    have hgrey : h.seen c = false := by
      rw [GarbageCollected.white_eq] at hwhite
      simpa [Heap.seen] using hwhite
    refine ⟨rfl, rfl, rfl, fun d => ?_, ?_, fun d hd _ _ => ?_, fun d hd => ?_⟩
    · show Function.update h.occupied c false d = true ↔ _
      by_cases hdc : d = c
      · subst hdc
        simp [hgrey]
      · simp [hdc]
    · exact (seen_mark h c .white).trans (Function.update_eq_self_iff.mpr hgrey.symm)
    · obtain rfl := List.mem_singleton.mp hd
      exact Function.update_self ..
    · have hdc : d ≠ c := by
        intro heq
        subst heq
        exact hd ⟨List.mem_singleton_self d, hocc, hgrey⟩
      exact Function.update_of_ne hdc ..
  · rw [if_neg hfree]
    have hkept : h.occupied c = true → h.seen c = true := by
      intro hocc
      rw [hocc, Bool.true_and, GarbageCollected.white_eq] at hfree
      simpa [Heap.seen] using hfree
    refine ⟨rfl, rfl, rfl, fun d => ⟨fun hd => ⟨hd, fun hand => ?_⟩, fun hd => hd.1⟩, rfl, fun d hd hocc hnot => ?_,
      fun d _ => rfl⟩
    · obtain rfl := List.mem_singleton.mp hand.1
      exact absurd (hand.2.symm.trans (hkept hd)) (by simp)
    · obtain rfl := List.mem_singleton.mp hd
      exact absurd (hnot.symm.trans (hkept hocc)) (by simp)

theorem Swept.cons {l : List α} (h₁ : Swept h [c] h') (h₂ : Swept h' l h'') : Swept h (c :: l) h'' where
  slab := h₂.slab.trans h₁.slab
  references := h₂.references.trans h₁.references
  referent := h₂.referent.trans h₁.referent
  occupied d := by
    rw [h₂.occupied, h₁.occupied, h₁.seen, List.mem_singleton, List.mem_cons]
    tauto
  seen := h₂.seen.trans h₁.seen
  cleared d hd hocc hnot := by
    by_cases hdl : d ∈ l ∧ h'.occupied d = true
    · exact h₂.cleared d hdl.1 hdl.2 (by rwa [h₁.seen])
    · rw [h₂.weakrefs d fun hand => hdl ⟨hand.1, hand.2.1⟩]
      by_cases hdc : d = c
      · exact h₁.cleared d (List.mem_singleton.mpr hdc) hocc hnot
      · refine absurd ⟨(List.mem_cons.mp hd).resolve_left hdc, ?_⟩ hdl
        exact (h₁.occupied d).mpr ⟨hocc, fun hand => hdc (List.mem_singleton.mp hand.1)⟩
  weakrefs d hd := by
    have hone : ¬ (d ∈ [c] ∧ h.occupied d = true ∧ h.seen d = false) := fun hand =>
      hd ⟨List.mem_cons.mpr (.inl (List.mem_singleton.mp hand.1)), hand.2⟩
    rw [h₂.weakrefs d fun hand => ?_, h₁.weakrefs d hone]
    rw [h₁.occupied, h₁.seen] at hand
    exact hd ⟨List.mem_cons_of_mem c hand.1, hand.2.1.1, hand.2.2⟩

theorem foldl_sweepCell (l : List α) (h : Heap α) : Swept h l (l.foldl sweepCell h) := by
  induction l generalizing h with
  | nil => exact ⟨rfl, rfl, rfl, fun c => by simp, rfl, fun c hc => absurd hc List.not_mem_nil, fun c _ => rfl⟩
  | cons c l ih => exact (sweepCell_swept h c).cons (ih (sweepCell h c))

/-! ## A collection -/

variable (isStaticMemory) in
structure Sound (h : Heap α) : Prop where
  occupied : ∀ c, h.occupied c = true → c ∈ h.cells
  dynamic : ∀ c ∈ h.cells, isStaticMemory c = false
  /-- There are no headers outside the slab. -/
  outside : ∀ c, h.seen c = true → c ∈ h.cells
  weakrefs : ∀ c, (h.weakrefs c).isSome = true → isStaticMemory c = true ∨ h.occupied c = true

variable (isStaticMemory) in
/-- What can be reached from the roots without a step through static memory. -/
def Live (h : Heap α) (root : α → Prop) : α → Prop :=
  Reach (h.dynamicReferences isStaticMemory) fun c => root c ∧ isStaticMemory c = false

/-- A root of a collection: a word that is the address of an occupied cell, or an object that the VM or the interpreter
holds. -/
def Root (h : Heap α) (words : List α) (roots : Roots α) (c : α) : Prop :=
  c ∈ words ∧ h.occupied c = true ∨ c ∈ roots.stackObjects ∨ c ∈ roots.interpreter

variable (isStaticMemory) in
/-- What a collection keeps: the occupied cells after it are the live ones, with the references and weak references that
they had. -/
structure Collected (h : Heap α) (live : α → Prop) (h' : Heap α) : Prop where
  slab : h'.slab = h.slab
  references : h'.references = h.references
  referent : h'.referent = h.referent
  occupied : ∀ c, h'.occupied c = true ↔ live c
  weakrefs : ∀ c, live c ∨ isStaticMemory c = true → h'.weakrefs c = h.weakrefs c

omit [DecidableEq α] in
theorem Live.dynamic {root : α → Prop} (hlive : h.Live isStaticMemory root c) : isStaticMemory c = false := by
  cases hlive with
  | start hc => exact hc.2
  | next _ hc => simpa using (List.mem_filter.mp hc).2

/-- Before the sweep, the cells that are not white are the live ones. -/
theorem mark_exact {words : List α} {roots : Roots α} (hs : h.Sound isStaticMemory)
    (hclosed : ∀ c, h.Live isStaticMemory (h.Root words roots) c → h.occupied c = true) :
    ∃ s h₂, collectRoots isStaticMemory h.markAllCellUnreachable words roots = some s ∧
      markAllLiveObjects isStaticMemory s.1.cells.length s.1 s.2 = some h₂ ∧ SameCells h h₂ ∧
      ∀ c, h₂.seen c = true ↔ h.Live isStaticMemory (h.Root words roots) c := by
  -- no cell is marked
  obtain ⟨hsame₀, hseen₀⟩ := foldl_white h.cells h
  obtain ⟨h₀, hh₀⟩ : ∃ h₀, h.markAllCellUnreachable = h₀ := ⟨_, rfl⟩
  unfold markAllCellUnreachable at hh₀
  rw [hh₀] at hsame₀ hseen₀
  have hnone : ∀ c, h₀.seen c = false := fun c => Bool.eq_false_iff.mpr fun hc =>
    (hseen₀ c hc).1 (hs.outside c (hseen₀ c hc).2)
  -- the roots
  obtain ⟨starts, hstarts⟩ : ∃ starts, words.filter h₀.hasAddress ++
      (roots.stackObjects ++ roots.interpreter).filter (!isStaticMemory ·) = starts := ⟨_, rfl⟩
  have hmem (c : α) : c ∈ starts ↔ h.Root words roots c ∧ isStaticMemory c = false := by
    rw [← hstarts, List.mem_append, List.mem_filter, List.mem_filter, List.mem_append, hasAddress, hsame₀.cells,
      hsame₀.occupied, Root]
    have hcell : h.occupied c = true → c ∈ h.cells ∧ isStaticMemory c = false :=
      fun hc => ⟨hs.occupied c hc, hs.dynamic c (hs.occupied c hc)⟩
    simp only [Bool.and_eq_true, List.contains_iff_mem, Bool.not_eq_eq_eq_not, Bool.not_true]
    tauto
  obtain ⟨s, hroots, hsame₁, hpush⟩ := @addRoots_push _ _ (h₀, []) starts fun c _ =>
    Bool.eq_false_iff.mpr fun hc => absurd ((GarbageCollected.grey_of_black hc).symm.trans (hnone c)) (by simp)
  have hfound := congrArg Prod.fst hpush
  have hstack := congrArg Prod.snd hpush
  dsimp only at hfound hstack hsame₁
  have hsame := hsame₀.trans hsame₁
  -- the marking
  have hnext : s.1.dynamicReferences isStaticMemory = h.dynamicReferences isStaticMemory := by
    unfold dynamicReferences
    rw [hsame.references]
  have hseen (c : α) : s.1.seen c = true ↔ c ∈ starts := by
    rw [hfound, push_seen, hnone]
    simp
  have hon {c : α} (hc : c ∈ s.2) : c ∈ starts := by
    rw [hstack] at hc
    exact (mem_push hc).resolve_left List.not_mem_nil
  have hinv : Inv (h.dynamicReferences isStaticMemory) (fun c => h.Root words roots c ∧ isStaticMemory c = false)
      s.1.seen s.2 :=
    { stacked := fun c hc => (hseen c).mpr (hon hc)
      closed := fun c hc hoff => by
        rw [hfound] at hc
        rw [hstack] at hoff
        exact absurd (pushed (hnone c) hc) hoff
      started := fun c hc => (hseen c).mpr ((hmem c).mpr hc)
      reached := fun c hc => .start ((hmem c).mp ((hseen c).mp hc)) }
  have hcells (c : α) (hc : h.Live isStaticMemory (h.Root words roots) c) : c ∈ h.cells := hs.occupied c (hclosed c hc)
  have hlength : s.2.length + unseen h.cells s.1.seen ≤ h.cells.length := by
    have hle := @length_push _ _ h₀.seen [] starts h.cells fun c hc => hcells c (.start ((hmem c).mp hc))
    rw [← hfound, ← hstack, List.length_nil, Nat.zero_add] at hle
    exact hle.trans List.countP_le_length
  obtain ⟨seen', hsearch⟩ := search_ends hinv hcells hlength
  rw [← hnext, ← hsame.cells] at hsearch
  obtain ⟨h₂, hmark, hsame₂, hseen₂⟩ :=
    markAllLiveObjects_search (fun c hc => ⟨((hmem c).mp (hon hc)).2, hinv.stacked c hc⟩) hsearch
  rw [hnext] at hsearch
  refine ⟨s, h₂, ?_, hmark, hsame.trans hsame₂, fun c => ?_⟩
  · unfold collectRoots markAllCellUnreachable
    rw [hh₀, hstarts, hroots]
  · rw [hseen₂, search_seen hinv hsearch]
    rfl

/-- A collection is exact. If no live cell is free, a collection runs to its end, no assertion fails, and what is
occupied then are the live cells. -/
theorem collect_exact {words : List α} {roots : Roots α} (hs : h.Sound isStaticMemory)
    (hclosed : ∀ c, h.Live isStaticMemory (h.Root words roots) c → h.occupied c = true) :
    ∃ h', h.collect isStaticMemory words roots = some h' ∧ h'.Sound isStaticMemory ∧
      Collected isStaticMemory h (h.Live isStaticMemory (h.Root words roots)) h' := by
  obtain ⟨s, h₂, hroots, hmark, hsame, hlive⟩ := mark_exact hs hclosed
  have hswept := foldl_sweepCell h₂.cells h₂
  have hdead {c : α} (hnot : ¬ h.Live isStaticMemory (h.Root words roots) c) : h₂.seen c = false :=
    Bool.eq_false_iff.mpr fun hseen => hnot ((hlive c).mp hseen)
  have hoccupied (c : α) : h₂.sweep.occupied c = true ↔ h.Live isStaticMemory (h.Root words roots) c := by
    rw [sweep, hswept.occupied, hsame.occupied, hsame.cells]
    constructor
    · intro hc
      by_contra hnot
      exact hc.2 ⟨hs.occupied c hc.1, hdead hnot⟩
    · intro hc
      exact ⟨hclosed c hc, fun hand => absurd (hand.2.symm.trans ((hlive c).mpr hc)) (by simp)⟩
  have hcells : h₂.sweep.cells = h.cells := by
    unfold cells sweep
    rw [hswept.slab, hsame.slab]
  refine ⟨h₂.sweep, ?_, ⟨fun c hc => ?_, fun c hc => ?_, fun c hc => ?_, fun c hc => ?_⟩,
    hswept.slab.trans hsame.slab, hswept.references.trans hsame.references, hswept.referent.trans hsame.referent, hoccupied, fun c hc => ?_⟩
  · unfold collect
    rw [hroots, Option.bind_eq_bind, Option.bind_some]
    dsimp only
    rw [hmark]
    rfl
  · rw [hcells]
    exact hs.occupied c (hclosed c ((hoccupied c).mp hc))
  · rw [hcells] at hc
    exact hs.dynamic c hc
  · rw [sweep, hswept.seen] at hc
    rw [hcells]
    exact hs.occupied c (hclosed c ((hlive c).mp hc))
  · by_cases hstatic : isStaticMemory c = true
    · exact .inl hstatic
    · refine .inr ((hoccupied c).mpr ?_)
      by_contra hnot
      by_cases hocc : h.occupied c = true
      · have hcell : c ∈ h₂.cells := hsame.cells ▸ hs.occupied c hocc
        rw [sweep, hswept.cleared c hcell (hsame.occupied ▸ hocc) (hdead hnot)] at hc
        cases hc
      · rw [sweep, hswept.weakrefs c fun hand => hocc (hsame.occupied ▸ hand.2.1), hsame.weakrefs] at hc
        exact hocc ((hs.weakrefs c hc).resolve_left hstatic)
  · rw [sweep, hswept.weakrefs, hsame.weakrefs]
    intro hand
    rcases hc with hc | hc
    · exact absurd (hand.2.2.symm.trans ((hlive c).mpr hc)) (by simp)
    · exact absurd ((hs.dynamic c (hsame.cells ▸ hand.1)).symm.trans hc) (by simp)

/-- Two cells that refer to each other and into static memory, and one that refers to itself. -/
def rings : Heap Nat where
  slab := [[1, 2, 3]]
  occupied c := [1, 2, 3].contains c
  header _ := .mark .white
  references c := if c = 3 then [3] else [3 - c, 9]
  referent _ := none
  weakrefs _ := none

example : (rings.collect (· == 9) [1, 50] ⟨[], []⟩).map (fun h => [1, 2, 3].filter h.occupied) = some [1, 2] := by decide

end Heap

end

end Pylang.Memory
