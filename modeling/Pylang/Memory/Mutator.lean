/-
The heap in use: a program allocates objects, stores references in them, passes
pointers between the C++ stack, the VM and the interpreter, makes and calls weak
references, and the collector runs whenever it allocates. The program comes to a
pointer only through pointers it has, or from a weak reference; the collector
sees at least those, and any other words of the stack.

An object is then there for as long as the program can get to it.
-/
import Pylang.Memory.Collector

namespace Pylang.Memory

open Lib.Worklist

/-- The heap with its collector, and the pointers that the program holds in registers and on the C++ stack (`held`), in the
VM and in the interpreter. -/
structure Machine (α : Type) where
  heap : Heap α
  gc : MarkSweepGC
  held : List α
  roots : Roots α

inductive HeapOp (α : Type)
  /-- `Heap::allocate` in a block of the slab, with the words of the stack; a full block gets the cells `grown`. -/
  | allocate (block : Nat) (words grown : List α)
  | allocateWeakref (target : α) (block : Nat) (words grown : List α)
  /-- `PyWeakRef::__call__`. -/
  | call (ref : α)
  | store (c : α) (references : List α)
  | hold (held : List α) (roots : Roots α)
  | collectGarbage (words : List α)
  | pause
  | resume

section
variable {α : Type} [DecidableEq α]

namespace Heap

/-- A new object without references. -/
def take (h : Heap α) (c : α) : Heap α :=
  { h with
    occupied := Function.update h.occupied c true
    header := Function.update h.header c (.mark .white)
    references := Function.update h.references c [] }

/-- `Block::allocate`: the first free cell of its chunks, or the first cell of new chunks; `none` where it aborts. -/
def allocateCell (h : Heap α) (block : Nat) (grown : List α) : Option (α × Heap α) := do
  let cells ← h.slab[block]?
  match cells.find? (!h.occupied ·), grown with
  | some c, _ => some (c, h.take c)
  | none, c :: _ => some (c, { h with slab := h.slab.set block (cells ++ grown) }.take c)
  | none, [] => none

/-- What `allocate_weakref` does with the weak reference that it has allocated. -/
def addWeakref (h : Heap α) (target ref : α) : Heap α :=
  { h with
    referent := Function.update h.referent ref (some target)
    weakrefs := Function.update h.weakrefs target (some ((h.weakrefs target).getD [] ++ [ref])) }

def hasWeakrefObject (h : Heap α) (c : α) : Bool := (h.weakrefs c).isSome

end Heap

namespace Machine

variable (isStaticMemory : α → Bool)

def allocate (m : Machine α) (block : Nat) (words grown : List α) : Option (α × Machine α) := do
  let (gc, h) ← m.gc.run isStaticMemory m.heap words m.roots
  let (c, h) ← h.allocateCell block grown
  return (c, { m with heap := h, gc := gc, held := c :: m.held })

/-- A step; `none` where an assertion fails. -/
def step (m : Machine α) : HeapOp α → Option (Machine α)
  | .allocate block words grown => (m.allocate isStaticMemory block words grown).map Prod.snd
  | .allocateWeakref target block words grown => do
    let (ref, m) ← m.allocate isStaticMemory block words grown
    return { m with heap := m.heap.addWeakref target ref }
  | .call ref =>
    match m.heap.referent ref with
    | none => some m
    | some c =>
      if m.heap.hasWeakrefObject c then some { m with held := c :: m.held }
      else some { m with heap := { m.heap with referent := Function.update m.heap.referent ref none } }
  | .store c references =>
    some { m with heap := { m.heap with references := Function.update m.heap.references c references } }
  | .hold held roots => some { m with held := held, roots := roots }
  | .collectGarbage words => do
    let (gc, h) ← m.gc.run isStaticMemory m.heap words m.roots
    return { m with heap := h, gc := gc }
  | .pause => if m.gc.pause then none else some { m with gc := { m.gc with pause := true } }
  | .resume => if m.gc.pause then some { m with gc := { m.gc with pause := false } } else none

def Pointer (m : Machine α) (c : α) : Prop := c ∈ m.held ∨ c ∈ m.roots.stackObjects ∨ c ∈ m.roots.interpreter

/-- The program can get to the cell. -/
def Accessible (m : Machine α) : α → Prop := m.heap.Live isStaticMemory m.Pointer

def AccessibleOrStatic (m : Machine α) (c : α) : Prop := m.Accessible isStaticMemory c ∨ isStaticMemory c = true

/-- The words of the stack contain what the program holds, and new chunks are new memory. -/
structure MayAllocate (m : Machine α) (block : Nat) (words grown : List α) : Prop where
  scanned : ∀ c ∈ m.held, c ∈ words
  inSlab : block < m.heap.slab.length
  nonempty : grown ≠ []
  new : ∀ c ∈ grown, c ∉ m.heap.cells ∧ isStaticMemory c = false

/-- What a program may do: it takes pointers from where it can get to, or into static memory. -/
def Allowed (m : Machine α) : HeapOp α → Prop
  | .allocate block words grown => m.MayAllocate isStaticMemory block words grown
  | .allocateWeakref target block words grown =>
    m.AccessibleOrStatic isStaticMemory target ∧ m.MayAllocate isStaticMemory block words grown
  | .call ref => m.AccessibleOrStatic isStaticMemory ref
  | .store _ references => ∀ c ∈ references, m.AccessibleOrStatic isStaticMemory c
  | .hold held roots => ∀ c, c ∈ held ∨ c ∈ roots.stackObjects ∨ c ∈ roots.interpreter →
      m.AccessibleOrStatic isStaticMemory c
  | .collectGarbage words => ∀ c ∈ m.held, c ∈ words
  | .pause => m.gc.pause = false
  | .resume => m.gc.pause = true

/-- Nothing is allocated yet. -/
structure Fresh (m : Machine α) : Prop where
  free : ∀ c, m.heap.occupied c = false
  white : ∀ c, m.heap.seen c = false
  dynamic : ∀ c ∈ m.heap.cells, isStaticMemory c = false
  weakrefs : ∀ c, m.heap.weakrefs c = none
  pointers : ∀ c, m.Pointer c → isStaticMemory c = true

/-- Any number of steps that the program may take, each from a state with the property `P`. -/
inductive Reaches (P : Machine α → Prop) : Machine α → Machine α → Prop
  | refl {m} : Reaches P m m
  | step {m m' m'' op} : Reaches P m m' → P m' → m'.Allowed isStaticMemory op → m'.step isStaticMemory op = some m'' →
      Reaches P m m''

/-! ## The invariant -/

/-- No occupied cell refers to a free one, and no pointer leads to one. -/
structure Inv (m : Machine α) : Prop where
  sound : m.heap.Sound isStaticMemory
  closed : ∀ c, m.heap.occupied c = true → ∀ d ∈ m.heap.dynamicReferences isStaticMemory c, m.heap.occupied d = true
  pointers : ∀ c, m.Pointer c → isStaticMemory c = true ∨ m.heap.occupied c = true

variable {isStaticMemory} {m m' : Machine α} {c : α}

omit [DecidableEq α] in
theorem Fresh.inv (h : m.Fresh isStaticMemory) : m.Inv isStaticMemory where
  sound :=
    { occupied := fun c hc => absurd ((h.free c).symm.trans hc) (by simp)
      dynamic := h.dynamic
      outside := fun c hc => absurd ((h.white c).symm.trans hc) (by simp)
      weakrefs := fun c hc => by
        rw [h.weakrefs] at hc
        cases hc }
  closed c hc := absurd ((h.free c).symm.trans hc) (by simp)
  pointers c hc := .inl (h.pointers c hc)

omit [DecidableEq α] in
/-- What can be reached from occupied roots is occupied. -/
theorem Inv.live (h : m.Inv isStaticMemory) {root : α → Prop}
    (hroot : ∀ c, root c → isStaticMemory c = true ∨ m.heap.occupied c = true) {c : α}
    (hc : m.heap.Live isStaticMemory root c) : m.heap.occupied c = true := by
  induction hc with
  | start hc => exact (hroot _ hc.1).resolve_left (by simp [hc.2])
  | next _ hd ih => exact h.closed _ ih _ hd

omit [DecidableEq α] in
theorem Inv.accessible (h : m.Inv isStaticMemory) (hc : m.Accessible isStaticMemory c) : m.heap.occupied c = true :=
  h.live h.pointers hc

omit [DecidableEq α] in
theorem Inv.reference (h : m.Inv isStaticMemory) (hc : m.AccessibleOrStatic isStaticMemory c) :
    isStaticMemory c = true ∨ m.heap.occupied c = true :=
  hc.symm.imp_right h.accessible

/-! ## The collector -/

omit [DecidableEq α] in
theorem Inv.root (h : m.Inv isStaticMemory) (words : List α) (c : α) (hc : m.heap.Root words m.roots c) :
    isStaticMemory c = true ∨ m.heap.occupied c = true := by
  rcases hc with hc | hc
  · exact .inr hc.2
  · exact h.pointers c (.inr hc)

variable (isStaticMemory) in
/-- What the collector leaves of what the program can get to. -/
structure Kept (m : Machine α) (h' : Heap α) : Prop where
  slab : h'.slab = m.heap.slab
  references : h'.references = m.heap.references
  referent : h'.referent = m.heap.referent
  occupied : ∀ c, m.Accessible isStaticMemory c → h'.occupied c = true
  weakrefs : ∀ c, m.AccessibleOrStatic isStaticMemory c → h'.weakrefs c = m.heap.weakrefs c

omit [DecidableEq α] in
theorem Inv.kept (h : m.Inv isStaticMemory) : Kept isStaticMemory m m.heap :=
  ⟨rfl, rfl, rfl, fun _ => h.accessible, fun _ _ => rfl⟩

/-- The collector, whether it is due or not: it ends, and keeps the invariant and what the program can get to. -/
theorem Inv.run (h : m.Inv isStaticMemory) {words : List α} (hwords : ∀ c ∈ m.held, c ∈ words) :
    ∃ gc h', m.gc.run isStaticMemory m.heap words m.roots = some (gc, h') ∧
      ({ m with heap := h', gc := gc } : Machine α).Inv isStaticMemory ∧ Kept isStaticMemory m h' := by
  unfold MarkSweepGC.run
  by_cases hpause : m.gc.pause = true
  · exact ⟨m.gc, m.heap, if_pos hpause, h, h.kept⟩
  rw [if_neg hpause]
  by_cases hearly : m.gc.iterationsSinceLastSweep + 1 < m.gc.frequency
  · exact ⟨_, m.heap, if_pos hearly, ⟨h.sound, h.closed, h.pointers⟩, h.kept⟩
  rw [if_neg hearly]
  obtain ⟨h', hcollect, hsound, hkept⟩ := Heap.collect_exact h.sound fun c => h.live (h.root words)
  have hlive : ∀ c, m.Accessible isStaticMemory c → m.heap.Live isStaticMemory (m.heap.Root words m.roots) c := by
    intro c hc
    refine Reach.mono (fun d hd => .start ⟨?_, hd.2⟩) (fun d e he hd => .next hd he) hc
    rcases hd.1 with hheld | hother
    · exact .inl ⟨hwords d hheld, (h.pointers d hd.1).resolve_left (by simp [hd.2])⟩
    · exact .inr hother
  have hoccupied := fun c hc => (hkept.occupied c).mpr (hlive c hc)
  refine ⟨_, h', by rw [hcollect]; rfl, ⟨hsound, fun c hc d hd => ?_, fun c hc => ?_⟩, hkept.slab, hkept.references,
    hkept.referent, hoccupied, fun c hc => hkept.weakrefs c (hc.imp_left (hlive c))⟩
  · have hd : d ∈ m.heap.dynamicReferences isStaticMemory c := by
      show d ∈ (m.heap.references c).filter _
      rw [← hkept.references]
      exact hd
    exact (hkept.occupied d).mpr (.next ((hkept.occupied c).mp hc) hd)
  · by_cases hstatic : isStaticMemory c = true
    · exact .inl hstatic
    · exact .inr (hoccupied c (.start ⟨hc, by simpa using hstatic⟩))

/-! ## Allocation -/

/-- The cell that a block gives was free, or is new. -/
theorem allocateCell_free {h : Heap α} {block : Nat} {grown : List α} (hblock : block < h.slab.length) (hgrown : grown ≠ []) :
    ∃ c slab, h.allocateCell block grown = some (c, { h with slab := slab }.take c) ∧ c ∈ slab.flatten ∧
      (∀ d ∈ h.cells, d ∈ slab.flatten) ∧ (∀ d ∈ slab.flatten, d ∈ h.cells ∨ d ∈ grown) ∧
      (h.occupied c = false ∨ c ∈ grown) := by
  unfold Heap.allocateCell
  rw [List.getElem?_eq_getElem hblock]
  cases hfind : h.slab[block].find? (!h.occupied ·) with
  | some c =>
    have hmem : c ∈ h.cells := List.mem_flatten.mpr ⟨_, List.getElem_mem hblock, List.mem_of_find?_eq_some hfind⟩
    refine ⟨c, h.slab, by simp [hfind], hmem, fun d hd => hd, fun d hd => .inl hd, .inl ?_⟩
    simpa using List.find?_some hfind
  | none =>
    obtain ⟨c, rest, rfl⟩ := List.exists_cons_of_ne_nil hgrown
    refine ⟨c, h.slab.set block (h.slab[block] ++ c :: rest), by simp [hfind], ?_, fun d hd => ?_, fun d hd => ?_,
      .inr List.mem_cons_self⟩
    · exact List.mem_flatten.mpr ⟨_, List.mem_set hblock _, List.mem_append_right _ List.mem_cons_self⟩
    · obtain ⟨l, hl, hd⟩ := List.mem_flatten.mp hd
      obtain ⟨i, hi, rfl⟩ := List.mem_iff_getElem.mp hl
      by_cases hib : i = block
      · subst hib
        exact List.mem_flatten.mpr ⟨_, List.mem_set hblock _, List.mem_append_left _ hd⟩
      · refine List.mem_flatten.mpr ⟨h.slab[i], ?_, hd⟩
        refine List.mem_iff_getElem.mpr ⟨i, by simpa using hi, ?_⟩
        rw [List.getElem_set_ne (fun heq => hib heq.symm)]
    · obtain ⟨l, hl, hd⟩ := List.mem_flatten.mp hd
      rcases List.mem_or_eq_of_mem_set hl with hl | rfl
      · exact .inl (List.mem_flatten.mpr ⟨l, hl, hd⟩)
      · exact (List.mem_append.mp hd).imp_left fun hd => List.mem_flatten.mpr ⟨_, List.getElem_mem hblock, hd⟩

theorem Inv.take (h : m.Inv isStaticMemory) {slab : List (List α)} (hfree : m.heap.occupied c = false)
    (hmem : c ∈ slab.flatten) (hold : ∀ d ∈ m.heap.cells, d ∈ slab.flatten)
    (hdynamic : ∀ d ∈ slab.flatten, isStaticMemory d = false) :
    ({ m with heap := { m.heap with slab := slab }.take c, held := c :: m.held } : Machine α).Inv isStaticMemory := by
  have hoccupied (d : α) : Function.update m.heap.occupied c true d = true ↔ d = c ∨ m.heap.occupied d = true := by
    by_cases hd : d = c
    · simp [hd]
    · simp [hd]
  have hkeep {d : α} (hd : isStaticMemory d = true ∨ m.heap.occupied d = true) :
      isStaticMemory d = true ∨ Function.update m.heap.occupied c true d = true :=
    hd.imp_right fun hd => (hoccupied d).mpr (.inr hd)
  refine ⟨⟨fun d hd => ?_, hdynamic, fun d hd => ?_, fun d hd => hkeep (h.sound.weakrefs d hd)⟩, fun d hd e he => ?_,
    fun d hd => ?_⟩
  · rcases (hoccupied d).mp hd with rfl | hd
    · exact hmem
    · exact hold d (h.sound.occupied d hd)
  · have hseen : (Function.update m.heap.header c (.mark .white) d).grey = true := hd
    by_cases hdc : d = c
    · rw [hdc, Function.update_self] at hseen
      cases hseen
    · rw [Function.update_of_ne hdc] at hseen
      exact hold d (h.sound.outside d hseen)
  · have he : e ∈ (Function.update m.heap.references c [] d).filter (!isStaticMemory ·) := he
    by_cases hdc : d = c
    · rw [hdc, Function.update_self] at he
      cases he
    · rw [Function.update_of_ne hdc] at he
      exact (hoccupied e).mpr (.inr (h.closed d (((hoccupied d).mp hd).resolve_left hdc) e he))
  · rcases hd with hd | hd
    · rcases List.mem_cons.mp hd with rfl | hd
      · exact .inr ((hoccupied d).mpr (.inl rfl))
      · exact hkeep (h.pointers d (.inl hd))
    · exact hkeep (h.pointers d (.inr hd))

variable (isStaticMemory) in
/-- What an allocation does: a cell that was free is held from then on, and the program gets to all that it could. -/
structure Allocates (m : Machine α) (c : α) (m' : Machine α) : Prop where
  inv : m'.Inv isStaticMemory
  held : m'.held = c :: m.held
  roots : m'.roots = m.roots
  new : ¬ m.AccessibleOrStatic isStaticMemory c
  empty : m'.heap.references c = []
  occupied : ∀ d, m.Accessible isStaticMemory d → m'.heap.occupied d = true
  references : ∀ d, m.AccessibleOrStatic isStaticMemory d → m'.heap.references d = m.heap.references d
  referent : m'.heap.referent = m.heap.referent
  weakrefs : ∀ d, m.AccessibleOrStatic isStaticMemory d → m'.heap.weakrefs d = m.heap.weakrefs d

theorem Inv.allocate (h : m.Inv isStaticMemory) {block : Nat} {words grown : List α}
    (hmay : m.MayAllocate isStaticMemory block words grown) :
    ∃ c m', m.allocate isStaticMemory block words grown = some (c, m') ∧ Allocates isStaticMemory m c m' := by
  obtain ⟨gc, h', hrun, hinv, hkept⟩ := h.run hmay.scanned
  have hcells : h'.cells = m.heap.cells := congrArg List.flatten hkept.slab
  obtain ⟨c, slab, hcell, hmem, hold, hsub, hfree⟩ := allocateCell_free (hkept.slab ▸ hmay.inSlab) hmay.nonempty
  have hsound : h'.Sound isStaticMemory := hinv.sound
  have hunoccupied : h'.occupied c = false := by
    rcases hfree with hfree | hfree
    · exact hfree
    · exact Bool.eq_false_iff.mpr fun hocc => (hmay.new c hfree).1 (hcells ▸ hsound.occupied c hocc)
  have hdynamic : ∀ d ∈ slab.flatten, isStaticMemory d = false := by
    intro d hd
    rcases hsub d hd with hd | hd
    · exact hsound.dynamic d hd
    · exact (hmay.new d hd).2
  have hnew : ¬ m.AccessibleOrStatic isStaticMemory c := by
    intro hc
    rcases hc with hc | hc
    · exact absurd (hunoccupied.symm.trans (hkept.occupied c hc)) (by simp)
    · exact absurd ((hdynamic c hmem).symm.trans hc) (by simp)
  have hne {d : α} (hd : m.AccessibleOrStatic isStaticMemory d) : d ≠ c := by
    intro heq
    exact hnew (heq ▸ hd)
  refine ⟨c, _, by rw [Machine.allocate, hrun]; simp only [Option.bind_eq_bind, Option.bind_some, hcell]; rfl,
    hinv.take hunoccupied hmem hold hdynamic, rfl, rfl, hnew, Function.update_self .., fun d hd => ?_, fun d hd => ?_,
    hkept.referent, hkept.weakrefs⟩
  · show Function.update h'.occupied c true d = true
    rw [Function.update_of_ne (hne (.inl hd))]
    exact hkept.occupied d hd
  · show Function.update h'.references c [] d = _
    rw [Function.update_of_ne (hne hd), hkept.references]

theorem Inv.addWeakref (h : m.Inv isStaticMemory) {target : α} (ref : α)
    (htarget : isStaticMemory target = true ∨ m.heap.occupied target = true) :
    ({ m with heap := m.heap.addWeakref target ref } : Machine α).Inv isStaticMemory := by
  refine ⟨⟨h.sound.occupied, h.sound.dynamic, h.sound.outside, fun c hc => ?_⟩, h.closed, h.pointers⟩
  by_cases hct : c = target
  · subst hct
    exact htarget
  · have hc : (Function.update m.heap.weakrefs target _ c).isSome = true := hc
    rw [Function.update_of_ne hct] at hc
    exact h.sound.weakrefs c hc

/-! ## The steps -/

/-- A step that the program may take is taken, keeps the invariant, and what the program can get to is there after it. -/
theorem Inv.step (h : m.Inv isStaticMemory) {op : HeapOp α} (hallowed : m.Allowed isStaticMemory op) :
    ∃ m', m.step isStaticMemory op = some m' ∧ m'.Inv isStaticMemory ∧
      ∀ c, m.Accessible isStaticMemory c → m'.heap.occupied c = true := by
  cases op with
  | allocate block words grown =>
    obtain ⟨c, m', hallocate, hallocates⟩ := h.allocate hallowed
    exact ⟨m', congrArg (Option.map Prod.snd) hallocate, hallocates.inv, hallocates.occupied⟩
  | allocateWeakref target block words grown =>
    obtain ⟨htarget, hmay⟩ := hallowed
    obtain ⟨c, m', hallocate, hallocates⟩ := h.allocate hmay
    refine ⟨_, by rw [Machine.step, hallocate]; rfl, hallocates.inv.addWeakref c ?_, hallocates.occupied⟩
    exact htarget.symm.imp_right (hallocates.occupied target)
  | call ref =>
    rw [Machine.step]
    cases m.heap.referent ref with
    | none => exact ⟨m, rfl, h, fun c => h.accessible⟩
    | some c =>
      by_cases halive : m.heap.hasWeakrefObject c = true
      · refine ⟨_, if_pos halive, ⟨h.sound, h.closed, fun d hd => ?_⟩, fun c => h.accessible⟩
        rcases hd with hd | hd
        · rcases List.mem_cons.mp hd with rfl | hd
          · exact h.sound.weakrefs d halive
          · exact h.pointers d (.inl hd)
        · exact h.pointers d (.inr hd)
      · exact ⟨_, if_neg halive, ⟨⟨h.sound.occupied, h.sound.dynamic, h.sound.outside, h.sound.weakrefs⟩, h.closed,
          h.pointers⟩, fun c => h.accessible⟩
  | store c references =>
    refine ⟨_, rfl, ⟨⟨h.sound.occupied, h.sound.dynamic, h.sound.outside, h.sound.weakrefs⟩, fun d hd e he => ?_,
      h.pointers⟩, fun c => h.accessible⟩
    have he : e ∈ (Function.update m.heap.references c references d).filter (!isStaticMemory ·) := he
    by_cases hdc : d = c
    · rw [hdc, Function.update_self] at he
      obtain ⟨he, hdynamic⟩ := List.mem_filter.mp he
      exact (h.reference (hallowed e he)).resolve_left (by simpa using hdynamic)
    · rw [Function.update_of_ne hdc] at he
      exact h.closed d hd e he
  | hold held roots =>
    exact ⟨_, rfl, ⟨h.sound, h.closed, fun c hc => h.reference (hallowed c hc)⟩, fun c => h.accessible⟩
  | collectGarbage words =>
    obtain ⟨gc, h', hrun, hinv, hkept⟩ := h.run hallowed
    exact ⟨_, by rw [Machine.step, hrun]; rfl, hinv, hkept.occupied⟩
  | pause =>
    have hpause : m.gc.pause = false := hallowed
    exact ⟨_, if_neg (by simp [hpause]), ⟨h.sound, h.closed, h.pointers⟩, fun c => h.accessible⟩
  | resume =>
    have hpause : m.gc.pause = true := hallowed
    exact ⟨_, if_pos hpause, ⟨h.sound, h.closed, h.pointers⟩, fun c => h.accessible⟩

theorem Reaches.inv {P : Machine α → Prop} (hrun : Reaches isStaticMemory P m m') (h : m.Inv isStaticMemory) :
    m'.Inv isStaticMemory := by
  induction hrun with
  | refl => exact h
  | step _ _ hallowed hstep ih =>
    obtain ⟨n, hn, hinv, -⟩ := ih.step hallowed
    rw [hstep] at hn
    cases hn
    exact hinv

/-- **No object is freed too early.** However the program and the collector take turns, a cell that the program can get to
is occupied, a cell with weak references is there, and every step goes through and leaves what the program can get to. -/
theorem reachable_safe {P : Machine α → Prop} (hfresh : m.Fresh isStaticMemory) (hrun : Reaches isStaticMemory P m m') :
    (∀ c, m'.Accessible isStaticMemory c → m'.heap.occupied c = true) ∧
      (∀ c, m'.heap.hasWeakrefObject c = true → isStaticMemory c = true ∨ m'.heap.occupied c = true) ∧
      ∀ op, m'.Allowed isStaticMemory op → ∃ m'', m'.step isStaticMemory op = some m'' ∧
        ∀ c, m'.Accessible isStaticMemory c → m''.heap.occupied c = true := by
  have hinv := hrun.inv hfresh.inv
  refine ⟨fun c => hinv.accessible, hinv.sound.weakrefs, fun op hallowed => ?_⟩
  obtain ⟨m'', hstep, -, hkept⟩ := hinv.step hallowed
  exact ⟨m'', hstep, hkept⟩

/-- One block of two cells, and a collection whenever a program allocates. -/
def oneBlock : Machine Nat where
  heap := ⟨[[1, 2]], fun _ => false, fun _ => .mark .white, fun _ => [], fun _ => none, fun _ => none⟩
  gc := ⟨1, 0, false⟩
  held := []
  roots := ⟨[], []⟩

theorem oneBlock_fresh : oneBlock.Fresh fun _ => false where
  free _ := rfl
  white _ := rfl
  dynamic _ _ := rfl
  weakrefs _ := rfl
  pointers c hc := by simp [oneBlock, Pointer] at hc

theorem oneBlock_allowed : oneBlock.Allowed (fun _ => false) (.allocate 0 [] [3]) :=
  ⟨by decide, by decide, by decide, by decide⟩

theorem reachable_safe_oneBlock :
    ∃ m', oneBlock.step (fun _ => false) (.allocate 0 [] [3]) = some m' ∧
      (∀ c, m'.Accessible (fun _ => false) c → m'.heap.occupied c = true) ∧
      (∀ c, m'.heap.hasWeakrefObject c = true → false = true ∨ m'.heap.occupied c = true) ∧
      ∀ op, m'.Allowed (fun _ => false) op → ∃ m'', m'.step (fun _ => false) op = some m'' ∧
        ∀ c, m'.Accessible (fun _ => false) c → m''.heap.occupied c = true :=
  ⟨_, rfl, reachable_safe (P := fun _ => True) oneBlock_fresh (.step .refl trivial oneBlock_allowed rfl)⟩

/-- **No memory is given out twice.** The cell of a new object is none that the program can get to, and the objects it can
get to keep their references. -/
theorem allocate_fresh {P : Machine α → Prop} (hfresh : m.Fresh isStaticMemory) (hrun : Reaches isStaticMemory P m m')
    {block : Nat} {words grown : List α} (hallowed : m'.Allowed isStaticMemory (.allocate block words grown)) :
    ∃ c m'', m'.step isStaticMemory (.allocate block words grown) = some m'' ∧ m''.held = c :: m'.held ∧
      ¬ m'.AccessibleOrStatic isStaticMemory c ∧ m''.heap.references c = [] ∧
      ∀ d, m'.Accessible isStaticMemory d → m''.heap.occupied d = true ∧ m''.heap.references d = m'.heap.references d := by
  obtain ⟨c, m'', hallocate, hallocates⟩ := (hrun.inv hfresh.inv).allocate hallowed
  exact ⟨c, m'', congrArg (Option.map Prod.snd) hallocate, hallocates.held, hallocates.new, hallocates.empty,
    fun d hd => ⟨hallocates.occupied d hd, hallocates.references d (.inl hd)⟩⟩

theorem allocate_fresh_oneBlock :
    ∃ c m'', oneBlock.step (fun _ => false) (.allocate 0 [] [3]) = some m'' ∧ m''.held = c :: oneBlock.held ∧
      ¬ oneBlock.AccessibleOrStatic (fun _ => false) c ∧ m''.heap.references c = [] ∧
      ∀ d, oneBlock.Accessible (fun _ => false) d →
        m''.heap.occupied d = true ∧ m''.heap.references d = oneBlock.heap.references d :=
  allocate_fresh (P := fun _ => True) oneBlock_fresh .refl oneBlock_allowed

/-- **No garbage is left.** From every state that is reached, a collection that is due leaves the cells occupied that can be
reached from the words of the stack, the VM and the interpreter, and no others, cycles included. -/
theorem collectGarbage_exact {P : Machine α → Prop} (hfresh : m.Fresh isStaticMemory)
    (hrun : Reaches isStaticMemory P m m') (words : List α) (hactive : m'.gc.pause = false)
    (hdue : m'.gc.frequency ≤ m'.gc.iterationsSinceLastSweep + 1) :
    ∃ m'', m'.step isStaticMemory (.collectGarbage words) = some m'' ∧ m''.gc.iterationsSinceLastSweep = 0 ∧
      ∀ c, m''.heap.occupied c = true ↔ m'.heap.Live isStaticMemory (m'.heap.Root words m'.roots) c := by
  have hinv := hrun.inv hfresh.inv
  obtain ⟨h', hcollect, -, hkept⟩ := Heap.collect_exact hinv.sound fun c => hinv.live (hinv.root words)
  refine ⟨{ m' with heap := h', gc := { m'.gc with iterationsSinceLastSweep := 0 } }, ?_, rfl, hkept.occupied⟩
  rw [Machine.step, MarkSweepGC.run, if_neg (by simp [hactive]), if_neg (by omega), hcollect]
  rfl

theorem collectGarbage_exact_oneBlock :
    ∃ m', oneBlock.step (fun _ => false) (.allocate 0 [] [3]) = some m' ∧
      ∃ m'', m'.step (fun _ => false) (.collectGarbage []) = some m'' ∧ m''.gc.iterationsSinceLastSweep = 0 ∧
        ∀ c, m''.heap.occupied c = true ↔ m'.heap.Live (fun _ => false) (m'.heap.Root [] m'.roots) c :=
  ⟨_, rfl, collectGarbage_exact (P := fun _ => True) oneBlock_fresh (.step .refl trivial oneBlock_allowed rfl) [] rfl
    (Nat.le_refl _)⟩

/-! ## Weak references -/

/-- The weak reference leads to its target. -/
structure Points (m : Machine α) (ref target : α) : Prop where
  referent : m.heap.referent ref = some target
  alive : m.heap.hasWeakrefObject target = true

variable {ref target : α}

omit [DecidableEq α] in
theorem Points.allocates {m m' : Machine α} (hp : m.Points ref target) (hallocates : Allocates isStaticMemory m c m')
    (htarget : m.AccessibleOrStatic isStaticMemory target) : m'.Points ref target := by
  refine ⟨by rw [hallocates.referent, hp.referent], ?_⟩
  unfold Heap.hasWeakrefObject
  rw [hallocates.weakrefs target htarget]
  exact hp.alive

theorem Points.addWeakref {target' ref' : α} (hp : m.Points ref target) (hne : ref ≠ ref') :
    ({ m with heap := m.heap.addWeakref target' ref' } : Machine α).Points ref target := by
  refine ⟨(Function.update_of_ne hne ..).trans hp.referent, ?_⟩
  show (Function.update m.heap.weakrefs target' _ target).isSome = true
  by_cases ht : target = target'
  · rw [ht, Function.update_self]
    rfl
  · rw [Function.update_of_ne ht]
    exact hp.alive

theorem Points.step {op : HeapOp α} (hp : m.Points ref target) (h : m.Inv isStaticMemory)
    (href : m.AccessibleOrStatic isStaticMemory ref) (htarget : m.AccessibleOrStatic isStaticMemory target)
    (hallowed : m.Allowed isStaticMemory op) (hstep : m.step isStaticMemory op = some m') : m'.Points ref target := by
  cases op with
  | allocate block words grown =>
    obtain ⟨c, n, hallocate, hallocates⟩ := h.allocate hallowed
    rw [Machine.step, hallocate] at hstep
    cases hstep
    exact hp.allocates hallocates htarget
  | allocateWeakref target' block words grown =>
    obtain ⟨c, n, hallocate, hallocates⟩ := h.allocate hallowed.2
    rw [Machine.step, hallocate] at hstep
    cases hstep
    refine (hp.allocates hallocates htarget).addWeakref fun heq => ?_
    exact hallocates.new (heq ▸ href)
  | call ref' =>
    rw [Machine.step] at hstep
    cases hreferent : m.heap.referent ref' with
    | none =>
      rw [hreferent] at hstep
      cases hstep
      exact hp
    | some d =>
      rw [hreferent] at hstep
      dsimp only at hstep
      split at hstep
      next => exact Option.some.inj hstep ▸ ⟨hp.referent, hp.alive⟩
      next hdead =>
        have hne : ref ≠ ref' := by
          intro heq
          rw [← heq, hp.referent] at hreferent
          cases hreferent
          exact hdead hp.alive
        cases hstep
        exact ⟨(Function.update_of_ne hne ..).trans hp.referent, hp.alive⟩
  | store c references =>
    cases hstep
    exact ⟨hp.referent, hp.alive⟩
  | hold held roots =>
    cases hstep
    exact ⟨hp.referent, hp.alive⟩
  | collectGarbage words =>
    obtain ⟨gc, h', hrun, -, hkept⟩ := h.run hallowed
    rw [Machine.step, hrun] at hstep
    cases hstep
    refine ⟨by rw [hkept.referent, hp.referent], ?_⟩
    unfold Heap.hasWeakrefObject
    rw [hkept.weakrefs target htarget]
    exact hp.alive
  | pause =>
    rw [Machine.step] at hstep
    split at hstep
    · cases hstep
    · cases hstep
      exact ⟨hp.referent, hp.alive⟩
  | resume =>
    rw [Machine.step] at hstep
    split at hstep
    · cases hstep
      exact ⟨hp.referent, hp.alive⟩
    · cases hstep

theorem Points.run (hp : m.Points ref target) (h : m.Inv isStaticMemory)
    (hrun : Reaches isStaticMemory (fun n => n.AccessibleOrStatic isStaticMemory ref ∧
      n.AccessibleOrStatic isStaticMemory target) m m') : m'.Points ref target := by
  induction hrun with
  | refl => exact hp
  | step hrun hget hallowed hstep ih => exact ih.step (hrun.inv h) hget.1 hget.2 hallowed hstep

theorem Points.call (hp : m.Points ref target) :
    m.step isStaticMemory (.call ref) = some { m with held := target :: m.held } := by
  rw [Machine.step, hp.referent]
  exact if_pos hp.alive

/-- **A weak reference gives its own target** for as long as the program can get to both: no collection clears it, and its
memory is not reused. -/
theorem weakref_call {P : Machine α → Prop} (hfresh : m.Fresh isStaticMemory) (hrun : Reaches isStaticMemory P m m')
    {block : Nat} {words grown : List α}
    (hallowed : m'.Allowed isStaticMemory (.allocateWeakref target block words grown)) :
    ∃ ref n, m'.step isStaticMemory (.allocateWeakref target block words grown) = some n ∧ n.held = ref :: m'.held ∧
      ∀ n', Reaches isStaticMemory (fun n => n.AccessibleOrStatic isStaticMemory ref ∧
          n.AccessibleOrStatic isStaticMemory target) n n' →
        n'.step isStaticMemory (.call ref) = some { n' with held := target :: n'.held } := by
  obtain ⟨htarget, hmay⟩ := hallowed
  obtain ⟨ref, n, hallocate, hallocates⟩ := (hrun.inv hfresh.inv).allocate hmay
  have hinv := hallocates.inv.addWeakref ref (htarget.symm.imp_right (hallocates.occupied target))
  have hpoints : ({ n with heap := n.heap.addWeakref target ref } : Machine α).Points ref target := by
    refine ⟨Function.update_self .., ?_⟩
    show (Function.update n.heap.weakrefs target _ target).isSome = true
    rw [Function.update_self]
    rfl
  refine ⟨ref, { n with heap := n.heap.addWeakref target ref }, by rw [Machine.step, hallocate]; rfl, hallocates.held,
    fun n' hrun' => ?_⟩
  exact (hpoints.run hinv hrun').call

theorem weakref_call_oneBlock :
    ∃ m', oneBlock.step (fun _ => false) (.allocate 0 [] [3]) = some m' ∧
      ∃ ref n, m'.step (fun _ => false) (.allocateWeakref 1 0 [1] [3]) = some n ∧ n.held = ref :: m'.held ∧
        ∀ n', Reaches (fun _ => false) (fun n => n.AccessibleOrStatic (fun _ => false) ref ∧
            n.AccessibleOrStatic (fun _ => false) 1) n n' →
          n'.step (fun _ => false) (.call ref) = some { n' with held := 1 :: n'.held } := by
  refine ⟨_, rfl, weakref_call (P := fun _ => True) oneBlock_fresh (.step .refl trivial oneBlock_allowed rfl) ?_⟩
  exact ⟨.inl (.start ⟨.inl List.mem_cons_self, rfl⟩), by decide, by decide, by decide, by decide⟩

end Machine

end

end Pylang.Memory
