/-
Runs of the frame operations: what they keep of the frames that are not
running, and when no assertion fails.

Below the stack pointer nothing of a frame that is not running is written to,
as long as a generator is resumed no higher up the stack than it lies itself.
Each action is one of three changes: the running frame changes itself, a frame
is entered, or the running frame is left.
-/
import Pylang.Vm.StackFrame
import Mathlib.Tactic.Common

namespace Pylang.Vm

def callerSp (frames : Nat → StackFrame) : List Nat → Nat
  | [] => 0
  | c :: _ => (frames c).stackPointer

def callerBase (frames : Nat → StackFrame) : List Nat → Nat
  | [] => 0
  | c :: _ => (frames c).basePointer

/-- The locals lie between `lo` and the base pointer, or in the frame's own storage. -/
def StackFrame.Lies (frame : StackFrame) (lo : Nat) : Prop :=
  match frame.locals with
  | .stack start size => lo ≤ start ∧ start + frame.localsCount = frame.basePointer ∧ frame.localsCount ≤ size
  | .storage => frame.localsCount ≤ frame.localsStorage.length

/-- The actions that enter a frame and those that leave one. -/
def Action.enters : Action → Bool
  | .call _ _ _ | .resume _ => true
  | _ => false

def Action.leaves : Action → Bool
  | .release | .yieldValue _ | .ret | .raise => true
  | _ => false

namespace VirtualMachine

def Top (vm : VirtualMachine) (p : Nat → List Nat → Prop) : Prop :=
  match vm.stackFrames with
  | [] => False
  | f :: rest => p f rest

/-- What the compiled code and the generators see to: an index is one of the frame's own, a `Pop` undoes a `Push` made
since the frame was entered, and only a suspended generator is resumed. -/
def Enabled (vm : VirtualMachine) : Action → Prop
  | .call _ localsCount stackSize => localsCount ≤ stackSize
  | .resume g => g ∈ vm.suspended
  | .release | .ret | .raise => vm.Top fun _ rest => rest ≠ []
  | .yieldValue src => vm.Top fun f rest => rest ≠ [] ∧ src < (vm.frames f).registers.length
  | .setReg dst _ => vm.Top fun f _ => dst < (vm.frames f).registers.length
  | .storeFast idx _ => vm.Top fun f _ => idx < (vm.frames f).localsCount
  | .push src => vm.Top fun f _ => src < (vm.frames f).registers.length
  | .pop dst => vm.Top fun f rest => vm.basePointer < vm.stackPointer ∧ callerSp vm.frames rest < vm.stackPointer ∧
      ∀ d ∈ dst, d < (vm.frames f).registers.length
  | .setCleanup _ => vm.Top fun _ _ => True
  | .leaveCleanup => vm.Top fun f _ => (vm.frames f).cleanup ≠ []

/-- There is room on the stack, and a generator is resumed with both pointers no higher than its frame's. -/
def Fits (vm : VirtualMachine) : Action → Prop
  | .call _ localsCount stackSize =>
    vm.stackPointer + stackSize ≤ capacity ∧ vm.stackPointer + localsCount < capacity
  | .resume g =>
    vm.stackPointer ≤ (vm.frames g).stackPointer ∧ vm.basePointer ≤ (vm.frames g).basePointer ∧
    (vm.frames g).stackPointer + (vm.frames g).localsStorage.length ≤ capacity ∧
    (vm.frames g).stackPointer < capacity
  | .push _ => vm.stackPointer < capacity
  | _ => True

/-! ## The invariant -/

/-- The frames of the stack, the top first, with the machine's two pointers. -/
def Nested (frames : Nat → StackFrame) : Nat → Nat → List Nat → Prop
  | sp, base, [] => base ≤ sp
  | sp, base, f :: rest =>
    (frames f).basePointer = base ∧ base ≤ sp ∧ (frames f).Lies (callerSp frames rest) ∧
    callerSp frames rest ≤ sp ∧ callerBase frames rest ≤ base ∧
    Nested frames (callerSp frames rest) (callerBase frames rest) rest

structure Inv (vm : VirtualMachine) : Prop where
  nested : Nested vm.frames vm.stackPointer vm.basePointer vm.stackFrames
  nodup : (vm.stackFrames ++ vm.suspended).Nodup
  fresh : ∀ f ∈ vm.stackFrames ++ vm.suspended, f < vm.next
  stored : ∀ g ∈ vm.suspended, (vm.frames g).locals = .storage ∧
    (vm.frames g).localsCount ≤ (vm.frames g).localsStorage.length ∧
    (vm.frames g).basePointer ≤ (vm.frames g).stackPointer

/-- What `Nested` depends on, the stack pointer apart. -/
structure SameShape (a b : StackFrame) : Prop where
  basePointer : b.basePointer = a.basePointer
  locals : b.locals = a.locals
  localsCount : b.localsCount = a.localsCount
  length : b.localsStorage.length = a.localsStorage.length

theorem SameShape.refl (a : StackFrame) : SameShape a a := ⟨rfl, rfl, rfl, rfl⟩

theorem SameShape.lies {a b : StackFrame} (h : SameShape a b) {lo : Nat} (ha : a.Lies lo) : b.Lies lo := by
  unfold StackFrame.Lies at *
  rw [h.locals, h.localsCount, h.basePointer, h.length]
  exact ha

theorem Nested.congr {frames frames' : Nat → StackFrame} : ∀ {fs : List Nat} {sp base : Nat},
    (∀ f ∈ fs, SameShape (frames f) (frames' f)) →
    (∀ f ∈ fs.tail, (frames' f).stackPointer = (frames f).stackPointer) →
    Nested frames sp base fs → Nested frames' sp base fs := by
  intro fs
  induction fs with
  | nil => exact fun _ _ h => h
  | cons f rest ih =>
    intro sp base hshape hsp h
    obtain ⟨hbase, hle, hlies, hcaller, hcallerBase, hrest⟩ := h
    have hcs : callerSp frames' rest = callerSp frames rest := by
      cases rest with
      | nil => rfl
      | cons c _ => exact hsp c (by simp)
    have hcb : callerBase frames' rest = callerBase frames rest := by
      cases rest with
      | nil => rfl
      | cons c _ => exact (hshape c (by simp)).basePointer
    have hf := hshape f (by simp)
    refine ⟨hf.basePointer.trans hbase, hle, hcs ▸ hf.lies hlies, hcs ▸ hcaller, hcb ▸ hcallerBase, ?_⟩
    rw [hcs, hcb]
    exact ih (fun c hc => hshape c (List.mem_cons_of_mem _ hc))
      (fun c hc => hsp c (List.mem_of_mem_tail hc)) hrest

/-- Only the pointer of the top is moved. -/
theorem Nested.setSp {frames : Nat → StackFrame} {sp sp' base f : Nat} {rest : List Nat}
    (h : Nested frames sp base (f :: rest)) (hbase : base ≤ sp') (hcaller : callerSp frames rest ≤ sp') :
    Nested frames sp' base (f :: rest) :=
  ⟨h.1, hbase, h.2.2.1, hcaller, h.2.2.2.2.1, h.2.2.2.2.2⟩

theorem Nested.base_le {frames : Nat → StackFrame} {sp base : Nat} {fs : List Nat} (h : Nested frames sp base fs) :
    base ≤ sp := by
  cases fs with
  | nil => exact h
  | cons f rest => exact h.2.1

/-- Locals on the stack lie below the stack pointer. -/
theorem Nested.cells {frames : Nat → StackFrame} : ∀ {fs : List Nat} {sp base : Nat}, Nested frames sp base fs →
    ∀ f ∈ fs, ∀ start size, (frames f).locals = .stack start size → start + (frames f).localsCount ≤ sp := by
  intro fs
  induction fs with
  | nil =>
    intro sp base _ f hf
    cases hf
  | cons f rest ih =>
    intro sp base h g hg start size hlocals
    obtain ⟨hbase, hle, hlies, hcaller, -, hrest⟩ := h
    cases List.mem_cons.mp hg with
    | inl heq =>
      subst heq
      unfold StackFrame.Lies at hlies
      rw [hlocals] at hlies
      have := hlies.2.1
      omega
    | inr hmem =>
      have := ih hrest g hmem start size hlocals
      omega

/-! ## What a step can do -/

/-- The running frame `f` changes itself, and the stack from its caller's pointer on. -/
structure Local (vm vm' : VirtualMachine) (f : Nat) (rest : List Nat) : Prop where
  stackFrames : vm.stackFrames = f :: rest
  stackFrames' : vm'.stackFrames = f :: rest
  frames : ∀ g, g ≠ f → vm'.frames g = vm.frames g
  shape : SameShape (vm.frames f) (vm'.frames f)
  stack : ∀ a, a < callerSp vm.frames rest → vm'.stack a = vm.stack a
  base : vm'.basePointer = vm.basePointer
  base_le : vm.basePointer ≤ vm'.stackPointer
  caller_le : callerSp vm.frames rest ≤ vm'.stackPointer
  suspended : vm'.suspended = vm.suspended
  next : vm'.next = vm.next

/-- The frame `f` is pushed. -/
structure Enters (vm vm' : VirtualMachine) (f : Nat) : Prop where
  stackFrames : vm'.stackFrames = f :: vm.stackFrames
  frames : ∀ g, g ≠ f → vm.stackFrames.head? ≠ some g → g < vm.next → vm'.frames g = vm.frames g
  top : ∀ c, vm.stackFrames.head? = some c → c ≠ f →
    vm'.frames c = { vm.frames c with stackPointer := vm.stackPointer }
  sp : vm'.stackPointer = (vm'.frames f).stackPointer
  base : vm'.basePointer = (vm'.frames f).basePointer
  sp_le : vm.stackPointer ≤ vm'.stackPointer
  base_le : vm.basePointer ≤ vm'.basePointer
  base_sp : vm'.basePointer ≤ vm'.stackPointer
  lies : (vm'.frames f).Lies vm.stackPointer
  stack : ∀ a, a < vm.stackPointer → vm'.stack a = vm.stack a
  suspended : vm'.suspended = vm.suspended.erase f
  next : vm.next ≤ vm'.next
  lt : f < vm'.next
  notMem : f ∉ vm.stackFrames

/-- The running frame `f` is popped and `c` runs again. What is suspended then and was not before is a frame of its
own. -/
structure Leaves (vm vm' : VirtualMachine) (f c : Nat) (rest : List Nat) : Prop where
  stackFrames : vm.stackFrames = f :: c :: rest
  stackFrames' : vm'.stackFrames = c :: rest
  frames : ∀ g, g ≠ f → g ≠ c → g < vm.next → vm'.frames g = vm.frames g
  caller : ∃ registers, vm'.frames c = { vm.frames c with registers := registers } ∧
    registers.tail = (vm.frames c).registers.tail
  sp : vm'.stackPointer = (vm.frames c).stackPointer
  base : vm'.basePointer = (vm.frames c).basePointer
  stack : vm'.stack = vm.stack
  next : vm.next ≤ vm'.next
  suspended : vm'.suspended = vm.suspended ∨ ∃ g, vm'.suspended = g :: vm.suspended ∧ (g = f ∨ g = vm.next) ∧
    g < vm'.next ∧ (vm'.frames g).locals = .storage ∧
    (vm'.frames g).localsCount ≤ (vm'.frames g).localsStorage.length ∧
    (vm'.frames g).basePointer ≤ (vm'.frames g).stackPointer

theorem Inv.next_notMem {vm : VirtualMachine} (hinv : Inv vm) : vm.next ∉ vm.stackFrames ++ vm.suspended :=
  fun h => Nat.lt_irrefl _ (hinv.fresh _ h)

theorem Local.inv {vm vm' : VirtualMachine} {f : Nat} {rest : List Nat} (h : Local vm vm' f rest) (hinv : Inv vm) :
    Inv vm' := by
  obtain ⟨hnested, hnodup, hfresh, hstored⟩ := hinv
  rw [h.stackFrames] at hnested hnodup hfresh
  have hnotMem : f ∉ rest ++ vm.suspended := (List.nodup_cons.mp hnodup).1
  refine ⟨?_, by rwa [h.stackFrames', h.suspended], by rwa [h.stackFrames', h.suspended, h.next], ?_⟩
  · rw [h.stackFrames', h.base]
    refine Nested.congr (fun g hg => ?_) (fun g hg => ?_) (hnested.setSp h.base_le h.caller_le)
    · by_cases heq : g = f
      · exact heq ▸ h.shape
      · rw [h.frames g heq]
        exact .refl _
    · have hne : g ≠ f := fun heq => hnotMem (List.mem_append_left _ (heq ▸ hg))
      rw [h.frames g hne]
  · intro g hg
    rw [h.suspended] at hg
    have hne : g ≠ f := fun heq => hnotMem (List.mem_append_right _ (heq ▸ hg))
    rw [h.frames g hne]
    exact hstored g hg

theorem Enters.inv {vm vm' : VirtualMachine} {f : Nat} (h : Enters vm vm' f) (hinv : Inv vm) : Inv vm' := by
  have hne : ∀ g ∈ vm.stackFrames, g ≠ f := fun g hg heq => h.notMem (heq ▸ hg)
  have hlt : ∀ g ∈ vm.stackFrames, g < vm.next := fun g hg => hinv.fresh g (List.mem_append_left _ hg)
  obtain ⟨hdisjoint, hsuspended, hapart⟩ := List.nodup_append.mp hinv.nodup
  refine ⟨?_, ?_, ?_, ?_⟩
  · rw [h.stackFrames]
    have hnested := hinv.nested
    have htop := h.top
    have hframes := h.frames
    have hlies := h.lies
    have hsp := h.sp_le
    have hbase := h.base_le
    cases hfs : vm.stackFrames with
    | nil => exact ⟨h.base.symm, h.base_sp, by
        unfold StackFrame.Lies at *
        split at hlies <;> simp_all [callerSp], by simp [callerSp], by simp [callerBase], Nat.le_refl 0⟩
    | cons c rest =>
      rw [hfs] at hnested htop hframes hne hlt hdisjoint
      have hc := htop c rfl (hne c (by simp))
      have hcs : callerSp vm'.frames (c :: rest) = vm.stackPointer := by rw [callerSp, hc]
      have hcb : callerBase vm'.frames (c :: rest) = vm.basePointer := by rw [callerBase, hc]; exact hnested.1
      refine ⟨h.base.symm, h.base_sp, hcs ▸ hlies, hcs ▸ hsp, hcb ▸ hbase, ?_⟩
      rw [hcs, hcb]
      have hother : ∀ g ∈ rest, vm'.frames g = vm.frames g := fun g hg =>
        hframes g (hne g (List.mem_cons_of_mem _ hg))
          (fun heq => (List.nodup_cons.mp hdisjoint).1 (Option.some.inj heq ▸ hg)) (hlt g (List.mem_cons_of_mem _ hg))
      refine Nested.congr (fun g hg => ?_) (fun g hg => by rw [hother g hg]) hnested
      cases List.mem_cons.mp hg with
      | inl heq =>
        rw [heq, hc]
        exact ⟨rfl, rfl, rfl, rfl⟩
      | inr hmem =>
        rw [hother g hmem]
        exact .refl _
  · rw [h.stackFrames, h.suspended, List.cons_append]
    refine List.nodup_cons.mpr ⟨fun hmem => ?_, ?_⟩
    · cases List.mem_append.mp hmem with
      | inl hm => exact h.notMem hm
      | inr hm => exact (List.Nodup.mem_erase_iff hsuspended).mp hm |>.1 rfl
    · exact List.nodup_append.mpr ⟨hdisjoint, hsuspended.erase f,
        fun a ha b hb => hapart a ha b (List.mem_of_mem_erase hb)⟩
  · intro g hg
    rw [h.stackFrames, h.suspended] at hg
    cases List.mem_cons.mp hg with
    | inl heq => exact heq ▸ h.lt
    | inr hm =>
      refine Nat.lt_of_lt_of_le (hinv.fresh g ?_) h.next
      cases List.mem_append.mp hm with
      | inl hs => exact List.mem_append_left _ hs
      | inr hs => exact List.mem_append_right _ (List.mem_of_mem_erase hs)
  · intro g hg
    rw [h.suspended] at hg
    obtain ⟨hgf, hmem⟩ := (List.Nodup.mem_erase_iff hsuspended).mp hg
    have hhead : vm.stackFrames.head? ≠ some g := fun heq =>
      hapart g (List.mem_of_mem_head? heq) g hmem rfl
    rw [h.frames g hgf hhead (hinv.fresh g (List.mem_append_right _ hmem))]
    exact hinv.stored g hmem

theorem Leaves.inv {vm vm' : VirtualMachine} {f c : Nat} {rest : List Nat} (h : Leaves vm vm' f c rest)
    (hinv : Inv vm) : Inv vm' := by
  obtain ⟨hnested, hnodup, hfresh, hstored⟩ := hinv
  rw [h.stackFrames] at hnested hnodup hfresh
  obtain ⟨-, -, -, -, -, hbelow⟩ := hnested
  have hf : f ∉ (c :: rest) ++ vm.suspended := (List.nodup_cons.mp hnodup).1
  have hnodup' : ((c :: rest) ++ vm.suspended).Nodup := (List.nodup_cons.mp hnodup).2
  have hc : c ∉ rest ++ vm.suspended := (List.nodup_cons.mp hnodup').1
  obtain ⟨registers, hcaller, -⟩ := h.caller
  have hother : ∀ g ∈ rest ++ vm.suspended, vm'.frames g = vm.frames g := fun g hg =>
    h.frames g (fun heq => hf (heq ▸ List.mem_cons_of_mem _ hg)) (fun heq => hc (heq ▸ hg))
      (hfresh g (List.mem_cons_of_mem _ (List.mem_cons_of_mem _ hg)))
  have hnested' : Nested vm'.frames vm'.stackPointer vm'.basePointer (c :: rest) := by
    rw [h.sp, h.base]
    refine Nested.congr (fun g hg => ?_) (fun g hg => by rw [hother g (List.mem_append_left _ hg)]) hbelow
    cases List.mem_cons.mp hg with
    | inl heq =>
      rw [heq, hcaller]
      exact ⟨rfl, rfl, rfl, rfl⟩
    | inr hmem =>
      rw [hother g (List.mem_append_left _ hmem)]
      exact .refl _
  have hlt : ∀ g ∈ (c :: rest) ++ vm.suspended, g < vm'.next := fun g hg =>
    Nat.lt_of_lt_of_le (hfresh g (List.mem_cons_of_mem _ hg)) h.next
  have hkept : ∀ g ∈ vm.suspended, (vm'.frames g).locals = .storage ∧
      (vm'.frames g).localsCount ≤ (vm'.frames g).localsStorage.length ∧
      (vm'.frames g).basePointer ≤ (vm'.frames g).stackPointer := fun g hg => by
    rw [hother g (List.mem_append_right _ hg)]
    exact hstored g hg
  cases h.suspended with
  | inl heq => exact ⟨h.stackFrames' ▸ hnested', by rw [h.stackFrames', heq]; exact hnodup',
      by rw [h.stackFrames', heq]; exact hlt, by rw [heq]; exact hkept⟩
  | inr hnew =>
    obtain ⟨g, heq, hg, hgn, hgs⟩ := hnew
    have hnotMem : g ∉ (c :: rest) ++ vm.suspended := by
      cases hg with
      | inl hgf => exact hgf ▸ hf
      | inr hgn => exact fun hmem => absurd (hfresh g (List.mem_cons_of_mem _ hmem)) (by omega)
    refine ⟨h.stackFrames' ▸ hnested', ?_, ?_, ?_⟩
    · rw [h.stackFrames', heq]
      exact (List.perm_middle.nodup_iff).mpr (List.nodup_cons.mpr ⟨hnotMem, hnodup'⟩)
    · intro x hx
      rw [h.stackFrames', heq] at hx
      cases List.mem_cons.mp (List.perm_middle.mem_iff.mp hx) with
      | inl hxg => exact hxg ▸ hgn
      | inr hm => exact hlt x hm
    · intro x hx
      rw [heq] at hx
      cases List.mem_cons.mp hx with
      | inl hxg => exact hxg ▸ hgs
      | inr hm => exact hkept x hm

/-! ## The operations -/

section
variable {vm vm' : VirtualMachine} {f c : Nat} {rest : List Nat}

theorem onTop_eq (h : vm.stackFrames = f :: rest) (k : Nat → StackFrame → Except Fault VirtualMachine) :
    vm.onTop k = k f (vm.frames f) := by
  unfold onTop
  rw [h]

theorem Top.exists {p : Nat → List Nat → Prop} (h : vm.Top p) : ∃ f rest, vm.stackFrames = f :: rest ∧ p f rest := by
  unfold Top at h
  split at h
  next => exact h.elim
  next f rest heq => exact ⟨f, rest, heq, h⟩

@[simp] theorem setFrame_self (frame : StackFrame) : (vm.setFrame f frame).frames f = frame := Function.update_self ..

theorem setFrame_of_ne (frame : StackFrame) {g : Nat} (h : g ≠ f) : (vm.setFrame f frame).frames g = vm.frames g :=
  Function.update_of_ne h ..

theorem stash_fields (vm : VirtualMachine) : vm.stash.stack = vm.stack ∧ vm.stash.stackFrames = vm.stackFrames ∧
    vm.stash.stackPointer = vm.stackPointer ∧ vm.stash.basePointer = vm.basePointer ∧ vm.stash.next = vm.next ∧
    vm.stash.suspended = vm.suspended := by
  unfold stash
  split <;> exact ⟨rfl, rfl, rfl, rfl, rfl, rfl⟩

theorem stash_of_ne {g : Nat} (h : vm.stackFrames.head? ≠ some g) : vm.stash.frames g = vm.frames g := by
  unfold stash
  split
  next => rfl
  next c _ heq =>
    rw [heq] at h
    exact setFrame_of_ne _ fun hg => h (by rw [hg]; rfl)

theorem stash_top (h : vm.stackFrames.head? = some c) :
    vm.stash.frames c = { vm.frames c with stackPointer := vm.stackPointer } := by
  unfold stash
  split
  next heq =>
    rw [heq] at h
    cases h
  next d _ heq =>
    rw [heq] at h
    cases h
    exact setFrame_self _

theorem pushFrame_isOk : (∃ vm', vm.pushFrame f = .ok vm') ↔
    vm.stackPointer ≤ (vm.stash.frames f).stackPointer ∧ vm.basePointer ≤ (vm.stash.frames f).basePointer ∧
    (vm.stash.frames f).stackPointer < capacity := by
  obtain ⟨-, -, hsp, hbase, -, -⟩ := stash_fields vm
  simp only [pushFrame, hsp, hbase]
  split
  next h => exact ⟨fun ⟨_, h'⟩ => (by cases h'), fun h' => by omega⟩
  next h =>
    split
    next h => exact ⟨fun ⟨_, h'⟩ => (by cases h'), fun h' => by omega⟩
    next h =>
      split
      next h => exact ⟨fun ⟨_, h'⟩ => (by cases h'), fun h' => by omega⟩
      next h => exact ⟨fun _ => by omega, fun _ => ⟨_, rfl⟩⟩

theorem pushFrame_isOk_of_notMem (h : f ∉ vm.stackFrames) : (∃ vm', vm.pushFrame f = .ok vm') ↔
    vm.stackPointer ≤ (vm.frames f).stackPointer ∧ vm.basePointer ≤ (vm.frames f).basePointer ∧
    (vm.frames f).stackPointer < capacity := by
  rw [pushFrame_isOk, stash_of_ne fun heq => h (List.mem_of_mem_head? heq)]

theorem pushFrame_eq (h : vm.pushFrame f = .ok vm') : vm' = { vm.stash with
    stackFrames := f :: vm.stash.stackFrames, stackPointer := (vm.stash.frames f).stackPointer
    basePointer := (vm.stash.frames f).basePointer } := by
  simp only [pushFrame] at h
  split at h
  next => cases h
  next =>
    split at h
    next => cases h
    next =>
      split at h
      next => cases h
      next =>
        cases h
        rfl

/-- `pushFrame` on `vm₁`, which differs from `vm` in a frame not on the stack and above the stack pointer. -/
theorem pushFrame_enters {vm₁ : VirtualMachine} (h : vm₁.pushFrame f = .ok vm') (hf : f ∉ vm.stackFrames) (hfs : vm₁.stackFrames = vm.stackFrames)
    (hsp : vm₁.stackPointer = vm.stackPointer) (hbase : vm₁.basePointer = vm.basePointer)
    (hframes : ∀ g, g ≠ f → vm₁.frames g = vm.frames g) (hlies : (vm₁.frames f).Lies vm.stackPointer)
    (hle : (vm₁.frames f).basePointer ≤ (vm₁.frames f).stackPointer)
    (hstack : ∀ a, a < vm.stackPointer → vm₁.stack a = vm.stack a) (hsuspended : vm₁.suspended = vm.suspended.erase f)
    (hnext : vm.next ≤ vm₁.next) (hlt : f < vm₁.next) :
    Enters vm vm' f ∧ vm'.frames f = vm₁.frames f := by
  obtain ⟨hstack₁, hfs₁, hsp₁, hbase₁, hnext₁, hsus₁⟩ := stash_fields vm₁
  have hself : vm₁.stash.frames f = vm₁.frames f :=
    stash_of_ne fun heq => hf (hfs ▸ List.mem_of_mem_head? heq)
  obtain ⟨h₁, h₂, -⟩ := pushFrame_isOk.mp ⟨vm', h⟩
  have heq := pushFrame_eq h
  subst heq
  refine ⟨⟨?_, fun g hg hh _ => ?_, fun c hc hcf => ?_, rfl, rfl, hsp ▸ h₁, hbase ▸ h₂, ?_, ?_, fun a ha => ?_, ?_, ?_, ?_,
    hf⟩, hself⟩
  · show f :: vm₁.stash.stackFrames = _
    rw [hfs₁, hfs]
  · exact (stash_of_ne (hfs ▸ hh)).trans (hframes g hg)
  · show vm₁.stash.frames c = _
    rw [stash_top (hfs ▸ hc), hframes c hcf, hsp]
  · show (vm₁.stash.frames f).basePointer ≤ (vm₁.stash.frames f).stackPointer
    rw [hself]
    exact hle
  · show (vm₁.stash.frames f).Lies _
    rw [hself]
    exact hlies
  · show vm₁.stash.stack a = _
    rw [hstack₁]
    exact hstack a ha
  · show vm₁.stash.suspended = _
    rw [hsus₁, hsuspended]
  · show _ ≤ vm₁.stash.next
    rw [hnext₁]
    exact hnext
  · show _ < vm₁.stash.next
    rw [hnext₁]
    exact hlt

theorem writeAll_of_lt {stack : Nat → Value} {a b : Nat} {vs : List Value} (h : b < a) : writeAll stack a vs b = stack b := by
  unfold writeAll
  rw [if_neg (by omega)]

theorem call_enters (hinv : Inv vm) {registerCount localsCount stackSize : Nat} (hle : localsCount ≤ stackSize)
    (h : vm.setupCallStack registerCount localsCount stackSize = .ok vm') : Enters vm vm' vm.next := by
  unfold setupCallStack at h
  split at h
  next => cases h
  next =>
    have hnext := hinv.next_notMem
    refine (pushFrame_enters h (fun hm => hnext (List.mem_append_left _ hm)) rfl rfl rfl
      (fun g hg => Function.update_of_ne hg ..) ?_ ?_ (fun a ha => writeAll_of_lt ha)
      (List.erase_of_not_mem fun hm => hnext (List.mem_append_right _ hm)).symm (Nat.le_succ _) (Nat.lt_succ_self _)).1
    · simp only [Function.update_self]
      exact ⟨Nat.le_refl _, rfl, hle⟩
    · simp only [Function.update_self]
      exact Nat.le_refl _

theorem resume_enters (hinv : Inv vm) {g : Nat} (hg : g ∈ vm.suspended) (h : vm.step (.resume g) = .ok vm') :
    Enters vm vm' g ∧ vm'.frames g = vm.frames g := by
  simp only [step, restore] at h
  split at h
  next => cases h
  next =>
    have hnotMem : g ∉ vm.stackFrames := fun hm => (List.nodup_append.mp hinv.nodup).2.2 g hm g hg rfl
    obtain ⟨hlocals, hcount, hle⟩ := hinv.stored g hg
    have hsp : vm.stackPointer ≤ (vm.frames g).stackPointer :=
      ((pushFrame_isOk_of_notMem (by exact hnotMem)).mp ⟨vm', h⟩).1
    have hlies : (vm.frames g).Lies vm.stackPointer := by
      unfold StackFrame.Lies
      rw [hlocals]
      exact hcount
    have henters : Enters vm vm' g ∧ _ := pushFrame_enters h hnotMem rfl rfl rfl (fun _ _ => rfl) hlies hle
      (fun a ha => writeAll_of_lt (by omega)) rfl (Nat.le_refl _) (hinv.fresh g (List.mem_append_right _ hg))
    exact henters

theorem length_locals {lo : Nat} (h : (vm.frames f).Lies lo) : (vm.frames f).localsCount ≤ (vm.locals f).length := by
  cases hlocals : (vm.frames f).locals with
  | stack start size =>
    simp only [StackFrame.Lies, hlocals] at h
    simpa [locals, hlocals] using h.2.2
  | storage =>
    simp only [StackFrame.Lies, hlocals] at h
    simpa only [locals, hlocals] using h

theorem popFrame_leaves (hinv : Inv vm) (hfs : vm.stackFrames = f :: c :: rest) (b : Bool) :
    ∃ vm', vm.popFrame b = .ok vm' ∧ Leaves vm vm' f c rest ∧ vm'.frames f = vm.popped f ∧ vm'.next = vm.next ∧
      vm'.suspended = vm.suspended := by
  have hnested := hinv.nested
  have hnodup := hinv.nodup
  rw [hfs] at hnested hnodup
  obtain ⟨hbase, -, -, hsp, hcaller, -⟩ := hnested
  have hne : c ≠ f := fun heq => (List.nodup_cons.mp hnodup).1 (heq ▸ by simp)
  rw [callerSp] at hsp
  rw [callerBase] at hcaller
  simp only [popFrame, hfs]
  rw [if_neg (by omega), if_neg (by omega)]
  refine ⟨_, rfl, ⟨hfs, rfl, fun g hgf hgc _ => ?_, ⟨bif b then (vm.frames c).registers.set 0
    ((vm.frames f).registers.getD 0 null) else (vm.frames c).registers, ?_, ?_⟩, rfl, rfl, rfl, Nat.le_refl _, .inl rfl⟩,
    setFrame_self _, rfl, rfl⟩
  · exact (setFrame_of_ne _ hgf).trans (setFrame_of_ne _ hgc)
  · exact (setFrame_of_ne _ hne).trans (setFrame_self _)
  · cases b with
    | false => rfl
    | true => cases (vm.frames c).registers <;> rfl

theorem Leaves.suspend {g : Nat} {vm'' : VirtualMachine} (h : Leaves vm vm' f c rest)
    (hfs : vm''.stackFrames = vm'.stackFrames) (hsp : vm''.stackPointer = vm'.stackPointer)
    (hbase : vm''.basePointer = vm'.basePointer) (hstack : vm''.stack = vm'.stack) (hnext : vm'.next ≤ vm''.next)
    (hframes : ∀ k, k ≠ g → vm''.frames k = vm'.frames k) (hg : g = f ∨ g = vm.next) (hgc : c ≠ g)
    (hsuspended : vm''.suspended = g :: vm.suspended) (hlt : g < vm''.next)
    (hlocals : (vm''.frames g).locals = .storage)
    (hcount : (vm''.frames g).localsCount ≤ (vm''.frames g).localsStorage.length)
    (hle : (vm''.frames g).basePointer ≤ (vm''.frames g).stackPointer) : Leaves vm vm'' f c rest := by
  obtain ⟨registers, hcaller, htail⟩ := h.caller
  refine ⟨h.stackFrames, hfs.trans h.stackFrames', fun k hkf hkc hk => ?_,
    ⟨registers, (hframes c hgc).trans hcaller, htail⟩, hsp.trans h.sp, hbase.trans h.base, hstack.trans h.stack,
    Nat.le_trans h.next hnext, .inr ⟨g, hsuspended, hg, hlt, hlocals, hcount, hle⟩⟩
  have hkg : k ≠ g := by
    cases hg with
    | inl heq => exact heq ▸ hkf
    | inr heq => omega
  exact (hframes k hkg).trans (h.frames k hkf hkc hk)

end

/-! ## The running frame -/

section
variable {vm vm' : VirtualMachine} {f c : Nat} {rest : List Nat}

theorem Local.of_frame (hinv : Inv vm) (hfs : vm.stackFrames = f :: rest) {frame : StackFrame}
    (hshape : SameShape (vm.frames f) frame) : Local vm (vm.setFrame f frame) f rest := by
  have hnested := hinv.nested
  rw [hfs] at hnested
  exact ⟨hfs, hfs, fun g hg => setFrame_of_ne _ hg, by rwa [setFrame_self], fun _ _ => rfl, rfl, hnested.2.1,
    hnested.2.2.2.1, rfl, rfl⟩

theorem Local.of_stack (hfs : vm.stackFrames = f :: rest) {stack : Nat → Value} {sp : Nat}
    (hstack : ∀ a, a < callerSp vm.frames rest → stack a = vm.stack a) (hbase : vm.basePointer ≤ sp)
    (hcaller : callerSp vm.frames rest ≤ sp) : Local vm { vm with stack := stack, stackPointer := sp } f rest :=
  ⟨hfs, hfs, fun _ _ => rfl, .refl _, hstack, rfl, hbase, hcaller, rfl, rfl⟩

theorem setReg_local (hinv : Inv vm) (hfs : vm.stackFrames = f :: rest) {dst : Nat}
    (hdst : dst < (vm.frames f).registers.length) (v : Value) :
    vm.setReg dst v = .ok (vm.setFrame f { vm.frames f with registers := (vm.frames f).registers.set dst v }) ∧
    Local vm (vm.setFrame f { vm.frames f with registers := (vm.frames f).registers.set dst v }) f rest := by
  refine ⟨?_, .of_frame hinv hfs ⟨rfl, rfl, rfl, rfl⟩⟩
  unfold setReg
  rw [onTop_eq hfs, if_pos hdst]

theorem setStackLocal_local (hinv : Inv vm) (hfs : vm.stackFrames = f :: rest) {idx : Nat}
    (hidx : idx < (vm.frames f).localsCount) (v : Value) :
    ∃ vm', vm.setStackLocal idx v = .ok vm' ∧ Local vm vm' f rest := by
  have hnested := hinv.nested
  rw [hfs] at hnested
  obtain ⟨-, hle, hlies, hcaller, -⟩ := hnested
  have hlength := length_locals hlies
  unfold setStackLocal
  rw [onTop_eq hfs, if_pos (by omega)]
  unfold StackFrame.Lies at hlies
  split
  next start size heq =>
    rw [heq] at hlies
    refine ⟨_, rfl, .of_stack hfs (fun a ha => Function.update_of_ne ?_ ..) hle hcaller⟩
    have := hlies.1
    omega
  next heq => exact ⟨_, rfl, .of_frame hinv hfs ⟨rfl, rfl, rfl, by simp⟩⟩

theorem push_isOk (v : Value) : (∃ vm', vm.push v = .ok vm') ↔ vm.stackPointer < capacity := by
  unfold push
  split
  next h => exact ⟨fun ⟨_, h'⟩ => (by cases h'), fun h' => by omega⟩
  next h => exact ⟨fun _ => by omega, fun _ => ⟨_, rfl⟩⟩

theorem Local.of_push (hinv : Inv vm) (hfs : vm.stackFrames = f :: rest) {v : Value} (h : vm.push v = .ok vm') :
    Local vm vm' f rest := by
  have hnested := hinv.nested
  rw [hfs] at hnested
  obtain ⟨-, hle, -, hcaller, -⟩ := hnested
  unfold push at h
  split at h
  next => cases h
  next =>
    cases h
    exact .of_stack hfs (fun a ha => Function.update_of_ne (by omega) ..) (by omega) (by omega)

theorem pop_local (hfs : vm.stackFrames = f :: rest) (hbase : vm.basePointer < vm.stackPointer)
    (hcaller : callerSp vm.frames rest < vm.stackPointer) : Local vm vm.pop f rest :=
  .of_stack hfs (fun a ha => Function.update_of_ne (by omega) ..) (by omega) (by omega)

theorem Local.trans {vm'' : VirtualMachine} (h : Local vm vm' f rest) (h' : Local vm' vm'' f rest)
    (hnotMem : f ∉ rest) : Local vm vm'' f rest := by
  have hcs : callerSp vm'.frames rest = callerSp vm.frames rest := by
    cases rest with
    | nil => rfl
    | cons c rest => exact congrArg StackFrame.stackPointer (h.frames c fun heq => hnotMem (heq ▸ by simp))
  refine ⟨h.stackFrames, h'.stackFrames', fun g hg => (h'.frames g hg).trans (h.frames g hg), ?_, fun a ha => ?_,
    h'.base.trans h.base, h.base ▸ h'.base_le, hcs ▸ h'.caller_le, h'.suspended.trans h.suspended, h'.next.trans h.next⟩
  · exact ⟨h'.shape.basePointer.trans h.shape.basePointer, h'.shape.locals.trans h.shape.locals,
      h'.shape.localsCount.trans h.shape.localsCount, h'.shape.length.trans h.shape.length⟩
  · exact (h'.stack a (hcs ▸ ha)).trans (h.stack a ha)

/-! ## Leaving a frame for a generator -/

/-- The frame that is popped keeps its place, and its locals are in the storage. -/
theorem popped_stored (hinv : Inv vm) (hfs : vm.stackFrames = f :: rest) :
    (vm.popped f).localsCount ≤ (vm.popped f).localsStorage.length ∧ (vm.popped f).basePointer ≤ (vm.popped f).stackPointer := by
  have hnested := hinv.nested
  rw [hfs] at hnested
  obtain ⟨hbase, hle, hlies, -⟩ := hnested
  refine ⟨length_locals hlies, ?_⟩
  show (vm.frames f).basePointer ≤ vm.stackPointer
  omega

theorem release_leaves (hinv : Inv vm) (hfs : vm.stackFrames = f :: c :: rest) :
    ∃ vm', vm.release = .ok vm' ∧ Leaves vm vm' f c rest := by
  obtain ⟨vm₁, hpop, hleaves, hself, hnext, hsuspended⟩ := popFrame_leaves hinv hfs true
  obtain ⟨hcount, hle⟩ := popped_stored hinv hfs
  have hclone : vm₁.clone f = vm.popped f := by
    unfold clone locals
    rw [hself]
    rfl
  unfold release
  rw [hfs]
  simp only [hpop, Except.map]
  refine ⟨_, rfl, hleaves.suspend (g := vm₁.next) rfl rfl rfl rfl (Nat.le_succ _) (fun k hk => setFrame_of_ne _ hk)
    (.inr hnext) ?_ (by show vm₁.next :: vm₁.suspended = _; rw [hsuspended]) (Nat.lt_succ_self _) ?_ ?_ ?_⟩
  · have hlt := hinv.fresh c (List.mem_append_left _ (hfs ▸ by simp))
    omega
  all_goals
    simp only [setFrame_self, hclone]
  · rfl
  · exact hcount
  · exact hle

theorem yieldValue_leaves (hinv : Inv vm) (hfs : vm.stackFrames = f :: c :: rest) {src : Nat}
    (hsrc : src < (vm.frames f).registers.length) : ∃ vm', vm.yieldValue src = .ok vm' ∧ Leaves vm vm' f c rest := by
  have hzero : 0 < (vm.frames f).registers.length := by omega
  obtain ⟨hset, hlocal⟩ := setReg_local hinv hfs hzero ((vm.frames f).registers.getD src null)
  obtain ⟨vm₁, hvm₁⟩ : ∃ vm₁, vm.setFrame f { vm.frames f with
      registers := (vm.frames f).registers.set 0 ((vm.frames f).registers.getD src null) } = vm₁ := ⟨_, rfl⟩
  rw [hvm₁] at hset hlocal
  have hinv₁ := hlocal.inv hinv
  have hfs₁ : vm₁.stackFrames = f :: c :: rest := hlocal.stackFrames'
  obtain ⟨vm₂, hpop, hleaves, hself, hnext, hsuspended⟩ := popFrame_leaves hinv₁ hfs₁ true
  obtain ⟨hcount, hle⟩ := popped_stored hinv₁ hfs₁
  have hne : c ≠ f := by
    have hnodup := hinv.nodup
    rw [hfs] at hnodup
    exact fun heq => (List.nodup_cons.mp hnodup).1 (heq ▸ by simp)
  have hstack : vm₁.stack = vm.stack := by rw [← hvm₁]; rfl
  obtain ⟨registers, hcaller, htail⟩ := hleaves.caller
  rw [hlocal.frames c hne] at hcaller htail
  have hbefore : Leaves vm vm₂ f c rest := ⟨hfs, hleaves.stackFrames', fun g hgf hgc hg =>
    (hleaves.frames g hgf hgc (hlocal.next ▸ hg)).trans (hlocal.frames g hgf), ⟨registers, hcaller, htail⟩,
    by rw [hleaves.sp, hlocal.frames c hne], by rw [hleaves.base, hlocal.frames c hne], hleaves.stack.trans hstack,
    Nat.le_of_eq (by rw [hnext, hlocal.next]), .inl (hsuspended.trans hlocal.suspended)⟩
  unfold yieldValue
  rw [onTop_eq hfs]
  simp only [hset, hpop, bind, Except.bind]
  refine ⟨_, rfl, hbefore.suspend (g := f) rfl rfl rfl rfl (Nat.le_refl _) (fun _ _ => rfl) (.inl rfl) hne
    (by show f :: vm₂.suspended = _; rw [hsuspended, hlocal.suspended]) ?_ ?_ ?_ ?_⟩
  · show f < vm₂.next
    rw [hnext]
    exact hinv₁.fresh f (List.mem_append_left _ (hfs₁ ▸ by simp))
  · show (vm₂.frames f).locals = _
    rw [hself]
    rfl
  · show (vm₂.frames f).localsCount ≤ (vm₂.frames f).localsStorage.length
    rw [hself]
    exact hcount
  · show (vm₂.frames f).basePointer ≤ (vm₂.frames f).stackPointer
    rw [hself]
    exact hle

end

/-! ## Every step -/

/-- Leaving the running frame always succeeds. -/
theorem step_leaves {vm : VirtualMachine} {a : Action} (hinv : Inv vm) (hen : vm.Enabled a) (ha : a.leaves = true) :
    ∃ vm' f c rest, vm.step a = .ok vm' ∧ Leaves vm vm' f c rest := by
  cases a with
  | release =>
    obtain ⟨f, rest, hfs, hrest⟩ := Top.exists hen
    obtain ⟨c, rest, rfl⟩ := List.exists_cons_of_ne_nil hrest
    obtain ⟨vm', h, hleaves⟩ := release_leaves hinv hfs
    exact ⟨vm', f, c, rest, h, hleaves⟩
  | yieldValue src =>
    obtain ⟨f, rest, hfs, hrest, hsrc⟩ := Top.exists hen
    obtain ⟨c, rest, rfl⟩ := List.exists_cons_of_ne_nil hrest
    obtain ⟨vm', h, hleaves⟩ := yieldValue_leaves hinv hfs hsrc
    exact ⟨vm', f, c, rest, h, hleaves⟩
  | ret =>
    obtain ⟨f, rest, hfs, hrest⟩ := Top.exists hen
    obtain ⟨c, rest, rfl⟩ := List.exists_cons_of_ne_nil hrest
    obtain ⟨vm', h, hleaves, -⟩ := popFrame_leaves hinv hfs true
    exact ⟨vm', f, c, rest, h, hleaves⟩
  | raise =>
    obtain ⟨f, rest, hfs, hrest⟩ := Top.exists hen
    obtain ⟨c, rest, rfl⟩ := List.exists_cons_of_ne_nil hrest
    obtain ⟨vm', h, hleaves, -⟩ := popFrame_leaves hinv hfs false
    exact ⟨vm', f, c, rest, h, hleaves⟩
  | _ => cases ha

theorem leaves_of_action {vm vm' : VirtualMachine} {a : Action} (hinv : Inv vm) (hen : vm.Enabled a)
    (h : vm.step a = .ok vm') (ha : a.leaves = true) : ∃ f c rest, Leaves vm vm' f c rest := by
  obtain ⟨vm₁, f, c, rest, h₁, hleaves⟩ := step_leaves hinv hen ha
  cases h.symm.trans h₁
  exact ⟨f, c, rest, hleaves⟩

theorem enters_of_action {vm vm' : VirtualMachine} {a : Action} (hinv : Inv vm) (hen : vm.Enabled a)
    (h : vm.step a = .ok vm') (ha : a.enters = true) : ∃ f, Enters vm vm' f := by
  cases a with
  | call registerCount localsCount stackSize => exact ⟨_, call_enters hinv hen h⟩
  | resume g => exact ⟨g, (resume_enters hinv hen h).1⟩
  | _ => cases ha

/-- **A step succeeds exactly when it fits.** -/
theorem step_isOk {vm : VirtualMachine} {a : Action} (hinv : Inv vm) (hen : vm.Enabled a) :
    (∃ vm', vm.step a = .ok vm') ↔ vm.Fits a := by
  have hok : ∀ {vm' : VirtualMachine}, vm.step a = .ok vm' → ((∃ vm', vm.step a = .ok vm') ↔ True) :=
    fun h => ⟨fun _ => trivial, fun _ => ⟨_, h⟩⟩
  have hleaves : a.leaves = true → ((∃ vm', vm.step a = .ok vm') ↔ True) := fun ha => by
    obtain ⟨_, _, _, _, h, -⟩ := step_leaves hinv hen ha
    exact hok h
  cases a with
  | call registerCount localsCount stackSize =>
    simp only [step, setupCallStack, Fits]
    split
    next h => exact ⟨fun ⟨_, h'⟩ => (by cases h'), fun h' => by omega⟩
    next h =>
      rw [pushFrame_isOk_of_notMem (by exact fun hm => hinv.next_notMem (List.mem_append_left _ hm))]
      simp only [Function.update_self, newFrame]
      have hbase := hinv.nested.base_le
      constructor <;> intro h' <;> refine ⟨?_, ?_⟩ <;> omega
  | resume g =>
    have hg : g ∈ vm.suspended := hen
    have hnotMem : g ∉ vm.stackFrames := fun hm => (List.nodup_append.mp hinv.nodup).2.2 g hm g hg rfl
    simp only [step, restore, Fits]
    split
    next h => exact ⟨fun ⟨_, h'⟩ => (by cases h'), fun h' => by omega⟩
    next h =>
      rw [pushFrame_isOk_of_notMem (by exact hnotMem)]
      simp only
      omega
  | push src =>
    obtain ⟨f, rest, hfs, -⟩ := Top.exists hen
    simp only [step, onTop_eq hfs]
    exact push_isOk _
  | release => exact hleaves rfl
  | yieldValue src => exact hleaves rfl
  | ret => exact hleaves rfl
  | raise => exact hleaves rfl
  | setReg dst v =>
    obtain ⟨f, rest, hfs, hdst⟩ := Top.exists hen
    exact hok (setReg_local hinv hfs hdst v).1
  | storeFast idx v =>
    obtain ⟨f, rest, hfs, hidx⟩ := Top.exists hen
    obtain ⟨vm', h, -⟩ := setStackLocal_local hinv hfs hidx v
    exact hok h
  | pop dst =>
    obtain ⟨f, rest, hfs, hbase, hcaller, hdst⟩ := Top.exists hen
    have hlocal := pop_local hfs hbase hcaller
    cases dst with
    | none => exact ⟨fun _ => trivial, fun _ => ⟨vm.pop, rfl⟩⟩
    | some d => exact hok (setReg_local (hlocal.inv hinv) hlocal.stackFrames' (hdst d rfl) _).1
  | setCleanup exit =>
    obtain ⟨f, rest, hfs, -⟩ := Top.exists hen
    exact hok (by simp only [step, setCleanup, onTop_eq hfs]; rfl)
  | leaveCleanup =>
    obtain ⟨f, rest, hfs, hne⟩ := Top.exists hen
    exact hok (by simp only [step, leaveCleanupHandling, onTop_eq hfs, if_neg hne]; rfl)

/-- What a step does is one of the three changes. -/
theorem step_cases {vm vm' : VirtualMachine} {a : Action} (hinv : Inv vm) (hen : vm.Enabled a)
    (h : vm.step a = .ok vm') :
    (∃ f rest, Local vm vm' f rest) ∨ (∃ f, Enters vm vm' f) ∨ ∃ f c rest, Leaves vm vm' f c rest := by
  have hleaves : a.leaves = true →
      (∃ f rest, Local vm vm' f rest) ∨ (∃ f, Enters vm vm' f) ∨ ∃ f c rest, Leaves vm vm' f c rest :=
    fun ha => .inr (.inr (leaves_of_action hinv hen h ha))
  cases a with
  | call registerCount localsCount stackSize => exact .inr (.inl ⟨_, call_enters hinv hen h⟩)
  | resume g => exact .inr (.inl ⟨g, (resume_enters hinv hen h).1⟩)
  | push src =>
    obtain ⟨f, rest, hfs, -⟩ := Top.exists hen
    simp only [step, onTop_eq hfs] at h
    exact .inl ⟨f, rest, .of_push hinv hfs h⟩
  | release => exact hleaves rfl
  | yieldValue src => exact hleaves rfl
  | ret => exact hleaves rfl
  | raise => exact hleaves rfl
  | setReg dst v =>
    obtain ⟨f, rest, hfs, hdst⟩ := Top.exists hen
    obtain ⟨h₁, hlocal⟩ := setReg_local hinv hfs hdst v
    cases h.symm.trans h₁
    exact .inl ⟨f, rest, hlocal⟩
  | storeFast idx v =>
    obtain ⟨f, rest, hfs, hidx⟩ := Top.exists hen
    obtain ⟨vm₁, h₁, hlocal⟩ := setStackLocal_local hinv hfs hidx v
    cases h.symm.trans h₁
    exact .inl ⟨f, rest, hlocal⟩
  | pop dst =>
    obtain ⟨f, rest, hfs, hbase, hcaller, hdst⟩ := Top.exists hen
    have hpop := pop_local hfs hbase hcaller
    cases dst with
    | none =>
      cases h
      exact .inl ⟨f, rest, hpop⟩
    | some d =>
      obtain ⟨h₁, hlocal⟩ := setReg_local (hpop.inv hinv) hpop.stackFrames' (hdst d rfl)
        (vm.stack (vm.stackPointer - 1))
      cases h.symm.trans h₁
      have hnodup := hinv.nodup
      rw [hfs] at hnodup
      exact .inl ⟨f, rest, hpop.trans hlocal fun hm => (List.nodup_cons.mp hnodup).1 (List.mem_append_left _ hm)⟩
  | setCleanup exit =>
    obtain ⟨f, rest, hfs, -⟩ := Top.exists hen
    simp only [step, setCleanup, onTop_eq hfs] at h
    cases h
    exact .inl ⟨f, rest, .of_frame hinv hfs ⟨rfl, rfl, rfl, rfl⟩⟩
  | leaveCleanup =>
    obtain ⟨f, rest, hfs, hne⟩ := Top.exists hen
    simp only [step, leaveCleanupHandling, onTop_eq hfs, if_neg hne] at h
    cases h
    exact .inl ⟨f, rest, .of_frame hinv hfs ⟨rfl, rfl, rfl, rfl⟩⟩

theorem step_inv {vm vm' : VirtualMachine} {a : Action} (hinv : Inv vm) (hen : vm.Enabled a) (h : vm.step a = .ok vm') :
    Inv vm' := by
  rcases step_cases hinv hen h with ⟨_, _, hlocal⟩ | ⟨_, henters⟩ | ⟨_, _, _, hleaves⟩
  · exact hlocal.inv hinv
  · exact henters.inv hinv
  · exact hleaves.inv hinv

/-! ## Frames that are not running -/

/-- A frame on the stack under another one, or of a suspended generator. -/
def Resting (f : Nat) (vm : VirtualMachine) : Prop := f ∈ vm.stackFrames.tail ∨ f ∈ vm.suspended

/-- The frame `f` is as it was: its registers, handlers, pointers and locals. -/
structure Keeps (f : Nat) (vm vm' : VirtualMachine) : Prop where
  registers : (vm'.frames f).registers = (vm.frames f).registers
  cleanup : (vm'.frames f).cleanup = (vm.frames f).cleanup
  stackPointer : (vm'.frames f).stackPointer = (vm.frames f).stackPointer
  basePointer : (vm'.frames f).basePointer = (vm.frames f).basePointer
  localsCount : (vm'.frames f).localsCount = (vm.frames f).localsCount
  locals : ∀ i, i < (vm.frames f).localsCount → (vm'.locals f).getD i null = (vm.locals f).getD i null

theorem Keeps.refl (f : Nat) (vm : VirtualMachine) : Keeps f vm vm := ⟨rfl, rfl, rfl, rfl, rfl, fun _ _ => rfl⟩

theorem Keeps.trans {f : Nat} {vm vm' vm'' : VirtualMachine} (h : Keeps f vm vm') (h' : Keeps f vm' vm'') :
    Keeps f vm vm'' :=
  ⟨h'.registers.trans h.registers, h'.cleanup.trans h.cleanup, h'.stackPointer.trans h.stackPointer,
    h'.basePointer.trans h.basePointer, h'.localsCount.trans h.localsCount,
    fun i hi => (h'.locals i (h.localsCount ▸ hi)).trans (h.locals i hi)⟩

theorem getD_range {n i : Nat} (k : Nat → Value) : ((List.range n).map k).getD i null = if i < n then k i else null := by
  rw [List.getD_eq_getElem?_getD, List.getElem?_map]
  split
  next h => simp [List.getElem?_range h]
  next h => simp [List.getElem?_eq_none (l := List.range n) (by simpa using h)]

theorem getD_locals {f : Nat} {vm vm' : VirtualMachine} (hlocals : (vm'.frames f).locals = (vm.frames f).locals)
    (hstorage : (vm'.frames f).localsStorage = (vm.frames f).localsStorage)
    (hstack : ∀ start size, (vm.frames f).locals = .stack start size → ∀ a, a < start + (vm.frames f).localsCount →
      vm'.stack a = vm.stack a) {i : Nat} (hi : i < (vm.frames f).localsCount) :
    (vm'.locals f).getD i null = (vm.locals f).getD i null := by
  unfold VirtualMachine.locals
  rw [hlocals, hstorage]
  split
  next start size heq => rw [getD_range, getD_range, hstack start size heq _ (by omega)]
  next => rfl

/-- The frame object is the same, and its locals on the stack were not written to. -/
theorem Keeps.of_frame {f : Nat} {vm vm' : VirtualMachine} (hframe : vm'.frames f = vm.frames f)
    (hstack : ∀ start size, (vm.frames f).locals = .stack start size → ∀ a, a < start + (vm.frames f).localsCount →
      vm'.stack a = vm.stack a) : Keeps f vm vm' := by
  refine ⟨by rw [hframe], by rw [hframe], by rw [hframe], by rw [hframe], by rw [hframe], fun i hi => ?_⟩
  exact getD_locals (by rw [hframe]) (by rw [hframe]) hstack hi

/-- A resting frame lies below its machine's stack pointer, and is none of the two that run. -/
theorem Resting.cells {vm : VirtualMachine} {f : Nat} (hinv : Inv vm) (h : Resting f vm) :
    vm.stackFrames.head? ≠ some f ∧ f < vm.next ∧ ∀ start size, (vm.frames f).locals = .stack start size →
      start + (vm.frames f).localsCount ≤ callerSp vm.frames vm.stackFrames.tail := by
  obtain ⟨hnested, hnodup, hfresh, hstored⟩ := hinv
  cases h with
  | inl hmem =>
    cases hfs : vm.stackFrames with
    | nil =>
      rw [hfs] at hmem
      cases hmem
    | cons g rest =>
      rw [hfs] at hmem hnested hnodup hfresh
      refine ⟨fun heq => ?_, hfresh f (List.mem_append_left _ (List.mem_cons_of_mem _ hmem)),
        hnested.2.2.2.2.2.cells f hmem⟩
      cases heq
      exact (List.nodup_cons.mp hnodup).1 (List.mem_append_left _ hmem)
  | inr hmem =>
    refine ⟨fun heq => (List.nodup_append.mp hnodup).2.2 f (List.mem_of_mem_head? heq) f hmem rfl,
      hfresh f (List.mem_append_right _ hmem), fun start size heq => ?_⟩
    rw [(hstored f hmem).1] at heq
    cases heq

/-- **A step leaves the frames alone that rest before and after it.** -/
theorem step_keeps {vm vm' : VirtualMachine} {a : Action} {f : Nat} (hinv : Inv vm) (hen : vm.Enabled a)
    (h : vm.step a = .ok vm') (hf : Resting f vm) (hf' : Resting f vm') : Keeps f vm vm' := by
  obtain ⟨hhead, hlt, hcells⟩ := hf.cells hinv
  obtain ⟨hhead', -, -⟩ := hf'.cells (step_inv hinv hen h)
  rcases step_cases hinv hen h with ⟨g, rest, hlocal⟩ | ⟨g, henters⟩ | ⟨g, c, rest, hleaves⟩
  · rw [hlocal.stackFrames] at hhead hcells
    refine .of_frame (hlocal.frames f fun heq => hhead (heq ▸ rfl)) fun start size heq a ha => ?_
    have := hcells start size heq
    exact hlocal.stack a (Nat.lt_of_lt_of_le ha this)
  · rw [henters.stackFrames] at hhead'
    refine .of_frame (henters.frames f (fun heq => hhead' (heq ▸ rfl)) hhead hlt) fun start size heq a ha => ?_
    have hle := hcells start size heq
    have hnested := hinv.nested
    cases hfs : vm.stackFrames with
    | nil =>
      rw [hfs] at hle
      exact henters.stack a (by rw [List.tail_nil, callerSp] at hle; omega)
    | cons g rest =>
      rw [hfs] at hnested hle
      have := hnested.2.2.2.1
      rw [List.tail_cons] at hle
      exact henters.stack a (by omega)
  · rw [hleaves.stackFrames] at hhead
    rw [hleaves.stackFrames'] at hhead'
    exact .of_frame (hleaves.frames f (fun heq => hhead (heq ▸ rfl)) (fun heq => hhead' (heq ▸ rfl)) hlt)
      fun _ _ _ a _ => by rw [hleaves.stack]

/-! ## Runs -/

/-- A run whose steps all fit, and whose states all satisfy `p`. -/
inductive Run (p : VirtualMachine → Prop) : VirtualMachine → VirtualMachine → Prop
  | refl {vm : VirtualMachine} (h : p vm) : Run p vm vm
  | step {vm vm' vm'' : VirtualMachine} (hrun : Run p vm vm') (a : Action) (hen : vm'.Enabled a) (hfits : vm'.Fits a)
      (hstep : vm'.step a = .ok vm'') (h : p vm'') : Run p vm vm''

theorem Run.last {p : VirtualMachine → Prop} {vm vm' : VirtualMachine} (h : Run p vm vm') : p vm' := by
  cases h with
  | refl h => exact h
  | step _ _ _ _ _ h => exact h

theorem Run.inv {p : VirtualMachine → Prop} {vm vm' : VirtualMachine} (h : Run p vm vm') (hinv : Inv vm) : Inv vm' := by
  induction h with
  | refl => exact hinv
  | step _ a hen _ hstep _ ih => exact step_inv ih hen hstep

theorem Run.keeps {f : Nat} {vm vm' : VirtualMachine} (h : Run (Resting f) vm vm') (hinv : Inv vm) : Keeps f vm vm' := by
  induction h with
  | refl => exact .refl f vm
  | step hrun a hen _ hstep hrest ih => exact ih.trans (step_keeps (hrun.inv hinv) hen hstep hrun.last hrest)

theorem start_inv : Inv start :=
  ⟨Nat.le_refl 0, List.nodup_nil, fun _ h => (by cases h), fun _ h => by cases h⟩

/-- A frame entered and left again: the caller has its pointers back, and all but register 0 is as it was. -/
theorem call_restores {vm vm₁ vm₂ vm₃ : VirtualMachine} {a a' : Action} {c : Nat} (hinv : Inv vm)
    (hc : vm.stackFrames.head? = some c) (hen : vm.Enabled a) (ha : a.enters = true) (h₁ : vm.step a = .ok vm₁)
    (hrun : Run (Resting c) vm₁ vm₂) (hen' : vm₂.Enabled a') (ha' : a'.leaves = true) (h₃ : vm₂.step a' = .ok vm₃)
    (hback : vm₃.stackFrames.head? = some c) :
    vm₃.stackPointer = vm.stackPointer ∧ vm₃.basePointer = vm.basePointer ∧
    (vm₃.frames c).registers.tail = (vm.frames c).registers.tail ∧
    (vm₃.frames c).cleanup = (vm.frames c).cleanup ∧
    ∀ i, i < (vm.frames c).localsCount → (vm₃.locals c).getD i null = (vm.locals c).getD i null := by
  have hinv₁ := step_inv hinv hen h₁
  obtain ⟨f, henters⟩ := enters_of_action hinv hen h₁ ha
  obtain ⟨f', c', rest, hleaves⟩ := leaves_of_action (hrun.inv hinv₁) hen' h₃ ha'
  have hmem := List.mem_of_mem_head? hc
  have htop := henters.top c hc fun heq => henters.notMem (heq ▸ hmem)
  have hkeeps := hrun.keeps hinv₁
  rw [hleaves.stackFrames'] at hback
  cases hback
  obtain ⟨registers, hcaller, htail⟩ := hleaves.caller
  have hbase : (vm.frames c).basePointer = vm.basePointer := by
    have hnested := hinv.nested
    cases hfs : vm.stackFrames with
    | nil =>
      rw [hfs] at hc
      cases hc
    | cons d rest =>
      rw [hfs] at hc hnested
      cases hc
      exact hnested.1
  refine ⟨?_, ?_, ?_, ?_, fun i hi => ?_⟩
  · rw [hleaves.sp, hkeeps.stackPointer, htop]
  · rw [hleaves.base, hkeeps.basePointer, htop, hbase]
  · rw [hcaller, htail, hkeeps.registers, htop]
  · rw [hcaller, hkeeps.cleanup, htop]
  · have hi₁ : i < (vm₁.frames c).localsCount := by
      rw [htop]
      exact hi
    have hi₂ : i < (vm₂.frames c).localsCount := hkeeps.localsCount ▸ hi₁
    have h₃₂ : (vm₃.locals c).getD i null = (vm₂.locals c).getD i null :=
      getD_locals (by rw [hcaller]) (by rw [hcaller]) (fun _ _ _ a _ => by rw [hleaves.stack]) hi₂
    have h₁₀ : (vm₁.locals c).getD i null = (vm.locals c).getD i null :=
      getD_locals (by rw [htop]) (by rw [htop])
        (fun start size heq a ha => henters.stack a (Nat.lt_of_lt_of_le ha (hinv.nested.cells c hmem start size heq))) hi
    exact (h₃₂.trans (hkeeps.locals i hi₁)).trans h₁₀

/-- **Frames are isolated as long as every step fits.** In every state of such a run a step succeeds, with no assertion
failing, exactly when it fits; a frame that is not running stays as it is; a generator that is resumed finds what it
had when it was suspended; and a frame that is popped leaves the caller its stack and base pointers. -/
theorem frames_isolated {vm : VirtualMachine} (h : Run (fun _ => True) start vm) :
    (∀ a, vm.Enabled a → ((∃ vm', vm.step a = .ok vm') ↔ vm.Fits a)) ∧
    (∀ f vm', Run (Resting f) vm vm' → Keeps f vm vm') ∧
    (∀ g vm₁ vm', Run (Resting g) vm vm₁ → g ∈ vm₁.suspended → vm₁.step (.resume g) = .ok vm' → Keeps g vm vm') ∧
    (∀ a a' vm₁ vm₂ vm₃ c, vm.stackFrames.head? = some c → vm.Enabled a → a.enters = true → vm.step a = .ok vm₁ →
      Run (Resting c) vm₁ vm₂ → vm₂.Enabled a' → a'.leaves = true → vm₂.step a' = .ok vm₃ →
      vm₃.stackFrames.head? = some c →
      vm₃.stackPointer = vm.stackPointer ∧ vm₃.basePointer = vm.basePointer ∧
      (vm₃.frames c).registers.tail = (vm.frames c).registers.tail ∧
      (vm₃.frames c).cleanup = (vm.frames c).cleanup ∧
      ∀ i, i < (vm.frames c).localsCount → (vm₃.locals c).getD i null = (vm.locals c).getD i null) := by
  have hinv := h.inv start_inv
  refine ⟨fun a hen => step_isOk hinv hen, fun f vm' hrun => hrun.keeps hinv, fun g vm₁ vm' hrun hg hstep => ?_,
    fun a a' vm₁ vm₂ vm₃ c hc hen ha h₁ hrun hen' ha' h₃ hback => call_restores hinv hc hen ha h₁ hrun hen' ha' h₃ hback⟩
  have hinv₁ := hrun.inv hinv
  have hframe := (resume_enters hinv₁ hg hstep).2
  refine (hrun.keeps hinv).trans (.of_frame hframe fun start size heq => ?_)
  rw [(hinv₁.stored g hg).1] at heq
  cases heq

/-- The module calls a generator function without locals; the clone is frame 2. -/
theorem generator_run : ∃ vm, Run (fun _ => True) start vm ∧ vm.stackFrames = [0] ∧ vm.suspended = [2] ∧
    vm.stackPointer = 0 ∧ vm.basePointer = 0 ∧ vm.next = 3 ∧ vm.frames 2 = ⟨[0], .storage, [], 0, 0, [], 0⟩ :=
  ⟨_, .step (.step (.step (.refl trivial) (.call 2 0 0) (Nat.le_refl _) ⟨by decide, by decide⟩ rfl trivial) (.call 1 0 0)
    (Nat.le_refl _) ⟨by decide, by decide⟩ rfl trivial) .release (List.cons_ne_nil _ _) trivial rfl trivial,
    rfl, rfl, rfl, rfl, rfl, rfl⟩

/-- Resumed from the module that made it. -/
theorem frames_isolated_generator : ∃ vm vm', Run (fun _ => True) start vm ∧ vm.step (.resume 2) = .ok vm' ∧
    Keeps 2 vm vm' := by
  obtain ⟨vm, hrun, -, hsuspended, hsp, hbase, -, hframe⟩ := generator_run
  have hg : (2 : Nat) ∈ vm.suspended := by simp [hsuspended]
  have hall := frames_isolated hrun
  obtain ⟨vm', h⟩ := (hall.1 (.resume 2) hg).mpr (by
    simp only [Fits, hframe, hsp, hbase]
    decide)
  exact ⟨vm, vm', hrun, h, hall.2.2.1 2 vm vm' (.refl (.inr hg)) hg h⟩

/-- Resumed from a function with a local: the assertion on the stack pointers fails. -/
theorem resumedDeeper_fails : ∃ vm, Run (fun _ => True) start vm ∧ vm.Enabled (.resume 2) ∧
    vm.step (.resume 2) = .error .pointerOrder :=
  ⟨_, .step (.step (.step (.step (.refl trivial) (.call 2 0 0) (Nat.le_refl _) ⟨by decide, by decide⟩ rfl trivial)
    (.call 1 0 0) (Nat.le_refl _) ⟨by decide, by decide⟩ rfl trivial) .release (List.cons_ne_nil _ _) trivial rfl trivial)
    (.call 1 1 1) (Nat.le_refl _) ⟨by decide, by decide⟩ rfl trivial, List.mem_singleton_self _, rfl⟩

end VirtualMachine

end Pylang.Vm
