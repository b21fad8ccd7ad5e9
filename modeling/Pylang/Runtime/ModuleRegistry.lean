/-
`ModuleRegistry`: the modules by name, and who initialises them, under any
interleaving of the threads. Every method is one step under the mutex; a wait
is a step that blocks and a later step that wakes.

A module is only ever registered as initialised, so that nobody waits, and the
placeholder of a running initialisation looks like no module at all.
-/
import Mathlib.Data.Set.Insert
import Mathlib.Logic.Function.Basic

namespace Pylang.Runtime

/-- `ModuleRegistry::Entry`. -/
structure RegistryEntry (τ μ : Type) where
  module : Option μ := none
  initialized : Bool := false
  failed : Bool := false
  ownerThread : Option τ := none

/-- `m_modules`. The number tells an entry from a later one of the name, for the threads that hold a reference. -/
structure ModuleRegistry (τ ν μ : Type) where
  modules : ν → Option (Nat × RegistryEntry τ μ)
  allocated : Nat

/-- What a method returns to its thread. -/
inductive Returned (μ : Type) where
  /-- `GetResult`. -/
  | got (module : Option μ) (isOwner : Bool)
  | waits
  | done
  deriving DecidableEq

inductive RegistryAction (τ ν μ : Type) where
  | getOrRegister (thread : τ) (name : ν)
  /-- A waiting thread finds its condition true. -/
  | wake (thread : τ)
  | registerModule (thread : τ) (name : ν) (mod : Option μ)
  | markInitialized (thread : τ) (name : ν)
  | markFailed (thread : τ) (name : ν)

variable {τ ν μ : Type} [DecidableEq τ] [DecidableEq ν]

namespace ModuleRegistry

variable (reg : ModuleRegistry τ ν μ)

def empty : ModuleRegistry τ ν μ := ⟨fun _ => none, 0⟩

/-- `m_modules[name]`, made if there is none. -/
def entry (name : ν) : Nat × RegistryEntry τ μ := (reg.modules name).getD (reg.allocated, {})

def set (name : ν) (id : Nat) (entry : RegistryEntry τ μ) : ModuleRegistry τ ν μ :=
  ⟨Function.update reg.modules name (some (id, entry)), max reg.allocated (id + 1)⟩

def erase (name : ν) : ModuleRegistry τ ν μ := { reg with modules := Function.update reg.modules name none }

/-- What follows the wait. -/
def afterWait (name : ν) (entry : RegistryEntry τ μ) : ModuleRegistry τ ν μ × Returned μ :=
  if entry.failed then (reg.erase name, .got none false) else (reg, .got entry.module false)

def getOrRegister (thread : τ) (name : ν) : ModuleRegistry τ ν μ × Returned μ :=
  let (id, entry) := reg.entry name
  match entry.module with
  | some _ =>
    if entry.initialized then (reg, .got entry.module false)
    else if entry.ownerThread = some thread then (reg, .got entry.module false)
    else if entry.failed then reg.afterWait name entry
    else (reg, .waits)
  | none => (reg.set name id { entry with ownerThread := some thread }, .got none true)

def registerModule (thread : τ) (name : ν) (mod : Option μ) : ModuleRegistry τ ν μ :=
  reg.set name (reg.entry name).1
    { (reg.entry name).2 with module := mod, initialized := true, ownerThread := some thread }

def markInitialized (name : ν) : ModuleRegistry τ ν μ :=
  match reg.modules name with
  | none => reg
  | some (id, entry) => reg.set name id { entry with initialized := true }

def markFailed (name : ν) : ModuleRegistry τ ν μ :=
  match reg.modules name with
  | none => reg
  | some (id, entry) => reg.set name id { entry with failed := true }

/-- The module that is registered. -/
def moduleOf (name : ν) : Option μ := (reg.entry name).2.module

end ModuleRegistry

/-- The registry and its threads, with what they have been told: who has been told to initialise what and has not
ended it, and which modules have failed since they were last asked for. -/
structure Threads (τ ν μ : Type) where
  registry : ModuleRegistry τ ν μ
  waiting : τ → Option (ν × Nat)
  initialising : Set (τ × ν)
  failed : Set ν

namespace Threads

variable (W : Threads τ ν μ)

def start : Threads τ ν μ := ⟨.empty, fun _ => none, ∅, ∅⟩

/-- `get_or_register` of a thread, which is told to initialise the module or waits. -/
def get (thread : τ) (name : ν) : Threads τ ν μ × Returned μ :=
  let (registry, returned) := W.registry.getOrRegister thread name
  match returned with
  | .got none true =>
    (⟨registry, W.waiting, insert (thread, name) W.initialising, W.failed \ {name}⟩, returned)
  | .waits =>
    (⟨registry, Function.update W.waiting thread (some (name, (registry.entry name).1)), W.initialising, W.failed \ {name}⟩,
      returned)
  | _ => (⟨registry, W.waiting, W.initialising, W.failed \ {name}⟩, returned)

/-- A step of a thread; none where it cannot take it, and where its entry is gone, of which it holds a reference. -/
def step : RegistryAction τ ν μ → Option (Threads τ ν μ × Returned μ)
  | .getOrRegister thread name => if (W.waiting thread).isNone then some (W.get thread name) else none
  | .wake thread =>
    match W.waiting thread with
    | none => none
    | some (name, id) =>
      match W.registry.modules name with
      | none => none
      | some (id', entry) =>
        if id' = id && (entry.initialized || entry.failed) then
          let (registry, returned) := W.registry.afterWait name entry
          some (⟨registry, Function.update W.waiting thread none, W.initialising, W.failed⟩, returned)
        else none
  | .registerModule thread name mod =>
    if (W.waiting thread).isNone then
      some (⟨W.registry.registerModule thread name mod, W.waiting, W.initialising \ {(thread, name)}, W.failed \ {name}⟩, .done)
    else none
  | .markInitialized thread name =>
    if (W.waiting thread).isNone then
      some (⟨W.registry.markInitialized name, W.waiting, W.initialising \ {(thread, name)}, W.failed \ {name}⟩, .done)
    else none
  | .markFailed thread name =>
    if (W.waiting thread).isNone then
      some (⟨W.registry.markFailed name, W.waiting, W.initialising \ {(thread, name)}, insert name W.failed⟩, .done)
    else none

/-- A step that keeps to what the registry can tell apart: a module that is not registered is asked for by nobody while
another thread initialises it, and only such a module is marked as failed. -/
def Proper : RegistryAction τ ν μ → Prop
  | .getOrRegister thread name =>
    W.registry.moduleOf name = none → ∀ thread', (thread', name) ∈ W.initialising → thread' = thread
  | .markFailed _ name => W.registry.moduleOf name = none
  | _ => True

/-- The states that runs of proper steps reach. -/
inductive Reached : Threads τ ν μ → Prop
  | start : Reached start
  | step {W W' : Threads τ ν μ} {action : RegistryAction τ ν μ} {returned : Returned μ} : Reached W →
      W.Proper action → W.step action = some (W', returned) → Reached W'

/-! ## Any run -/

/-- A registered module is initialised, and nobody waits. -/
structure Quiet : Prop where
  initialized : ∀ name id entry, W.registry.modules name = some (id, entry) → entry.module.isSome → entry.initialized = true
  waiting : ∀ thread, W.waiting thread = none

variable {W} {W' : Threads τ ν μ}

omit [DecidableEq τ] [DecidableEq ν] in
theorem Quiet.entry (h : W.Quiet) (name : ν) (hm : ((W.registry.entry name).2.module).isSome) :
    (W.registry.entry name).2.initialized = true := by
  unfold ModuleRegistry.entry at hm ⊢
  cases hf : W.registry.modules name with
  | none => rw [hf] at hm; cases hm
  | some e =>
    rw [hf] at hm
    exact h.initialized name e.1 e.2 hf hm

theorem Quiet.get_cases (h : W.Quiet) (thread : τ) (name : ν) :
    (∃ m, W.registry.moduleOf name = some m ∧
      W.get thread name = (⟨W.registry, W.waiting, W.initialising, W.failed \ {name}⟩, .got (some m) false)) ∨
    W.registry.moduleOf name = none ∧ W.get thread name =
      (⟨W.registry.set name (W.registry.entry name).1 { (W.registry.entry name).2 with ownerThread := some thread }, W.waiting,
        insert (thread, name) W.initialising, W.failed \ {name}⟩, .got none true) := by
  unfold ModuleRegistry.moduleOf get ModuleRegistry.getOrRegister
  cases hm : (W.registry.entry name).2.module with
  | none => exact Or.inr ⟨rfl, by simp only [hm]⟩
  | some m =>
    have hinit := h.entry name (by rw [hm]; rfl)
    exact Or.inl ⟨m, rfl, by simp only [hm, hinit, if_true]⟩

omit [DecidableEq τ] in
theorem modules_set {reg : ModuleRegistry τ ν μ} {name name' : ν} {id : Nat} {entry : RegistryEntry τ μ} :
    (reg.set name id entry).modules name' = if name' = name then some (id, entry) else reg.modules name' :=
  Function.update_apply ..

omit [DecidableEq τ] in
/-- Setting an entry that has no module, or is initialised. -/
theorem Quiet.set {name : ν} {id : Nat} {entry : RegistryEntry τ μ} (h : W.Quiet) (initialising : Set (τ × ν)) (failed : Set ν)
    (he : entry.module.isSome → entry.initialized = true) :
    (Threads.mk (W.registry.set name id entry) W.waiting initialising failed).Quiet := by
  refine ⟨fun name' id' entry' hf hm => ?_, h.waiting⟩
  rw [modules_set] at hf
  split at hf
  next =>
    cases hf
    exact he hm
  next => exact h.initialized name' id' entry' hf hm

theorem Quiet.step_get {thread : τ} {name : ν} {returned : Returned μ} (h : W.Quiet)
    (hs : W.step (.getOrRegister thread name) = some (W', returned)) : W.get thread name = (W', returned) := by
  unfold Threads.step at hs
  dsimp only at hs
  rw [h.waiting] at hs
  exact Option.some.inj hs

theorem Quiet.step (h : W.Quiet) {action : RegistryAction τ ν μ} {returned : Returned μ}
    (hs : W.step action = some (W', returned)) : W'.Quiet := by
  cases action with
  | getOrRegister thread name =>
    have hget := h.step_get hs
    rcases h.get_cases thread name with ⟨m, -, hcase⟩ | ⟨hnone, hcase⟩
    · rw [hcase] at hget
      cases hget
      exact ⟨h.initialized, h.waiting⟩
    · rw [hcase] at hget
      cases hget
      exact h.set _ _ fun hm => h.entry name hm
  | wake thread =>
    unfold Threads.step at hs
    dsimp only at hs
    rw [h.waiting] at hs
    cases hs
  | registerModule thread name mod =>
    unfold Threads.step at hs
    dsimp only at hs
    rw [h.waiting] at hs
    cases hs
    exact h.set _ _ fun _ => rfl
  | markInitialized thread name =>
    unfold Threads.step ModuleRegistry.markInitialized at hs
    dsimp only at hs
    rw [h.waiting] at hs
    cases hs
    cases hf : W.registry.modules name with
    | none => exact ⟨h.initialized, h.waiting⟩
    | some e => exact h.set _ _ fun _ => rfl
  | markFailed thread name =>
    unfold Threads.step ModuleRegistry.markFailed at hs
    dsimp only at hs
    rw [h.waiting] at hs
    cases hs
    cases hf : W.registry.modules name with
    | none => exact ⟨h.initialized, h.waiting⟩
    | some e => exact h.set _ _ fun hm => h.initialized name e.1 e.2 hf hm

/-! ## Runs of proper steps -/

/-- One thread at most initialises a module, and a module that has failed is not registered. -/
structure Inv (W : Threads τ ν μ) : Prop extends W.Quiet where
  one : ∀ thread thread' name, (thread, name) ∈ W.initialising → (thread', name) ∈ W.initialising → thread = thread'
  failed : ∀ name ∈ W.failed, W.registry.moduleOf name = none

omit [DecidableEq τ] [DecidableEq ν] in
theorem quiet_start : (start : Threads τ ν μ).Quiet := ⟨fun _ _ _ h => (by cases h), fun _ => rfl⟩

omit [DecidableEq τ] [DecidableEq ν] in
theorem inv_start : (start : Threads τ ν μ).Inv :=
  { quiet_start with
    one := fun _ _ _ h => (by cases h)
    failed := fun _ h => (by cases h) }

omit [DecidableEq τ] in
theorem moduleOf_set {reg : ModuleRegistry τ ν μ} {name name' : ν} {id : Nat} {entry : RegistryEntry τ μ} :
    (reg.set name id entry).moduleOf name' = if name' = name then entry.module else reg.moduleOf name' := by
  unfold ModuleRegistry.moduleOf ModuleRegistry.entry
  rw [modules_set]
  split
  next => rfl
  next hne =>
    cases hf : reg.modules name' with
    | none => rfl
    | some e => rfl

omit [DecidableEq τ] [DecidableEq ν] in
theorem moduleOf_of_modules {name : ν} {e : Nat × RegistryEntry τ μ} (h : W.registry.modules name = some e) :
    W.registry.moduleOf name = e.2.module := by
  unfold ModuleRegistry.moduleOf ModuleRegistry.entry
  rw [h]
  rfl

omit [DecidableEq τ] in
theorem moduleOf_markInitialized (name name' : ν) :
    (W.registry.markInitialized name).moduleOf name' = W.registry.moduleOf name' := by
  unfold ModuleRegistry.markInitialized
  split
  next => rfl
  next id entry hf =>
    rw [moduleOf_set]
    split
    next heq => rw [heq, moduleOf_of_modules hf]
    next => rfl

omit [DecidableEq τ] in
theorem moduleOf_markFailed (name name' : ν) : (W.registry.markFailed name).moduleOf name' = W.registry.moduleOf name' := by
  unfold ModuleRegistry.markFailed
  split
  next => rfl
  next id entry hf =>
    rw [moduleOf_set]
    split
    next heq => rw [heq, moduleOf_of_modules hf]
    next => rfl

omit [DecidableEq τ] [DecidableEq ν] in
/-- What is initialised after a step that ends an initialisation was before. -/
theorem Inv.one_diff (h : W.Inv) (p : τ × ν) (thread thread' : τ) (name : ν)
    (ht : (thread, name) ∈ W.initialising \ {p}) (ht' : (thread', name) ∈ W.initialising \ {p}) : thread = thread' :=
  h.one thread thread' name ht.1 ht'.1

theorem Inv.step (h : W.Inv) {action : RegistryAction τ ν μ} {returned : Returned μ} (hp : W.Proper action)
    (hs : W.step action = some (W', returned)) : W'.Inv := by
  have hquiet := h.toQuiet.step hs
  refine { hquiet with one := ?_, failed := ?_ }
  · cases action with
    | getOrRegister thread name =>
      have hget := h.step_get hs
      rcases h.get_cases thread name with ⟨m, -, hcase⟩ | ⟨hnone, hcase⟩
      · rw [hcase] at hget
        cases hget
        exact h.one
      · rw [hcase] at hget
        cases hget
        -- The thread is told; by the condition nobody else has been.
        intro t t' n ht ht'
        rcases Set.mem_insert_iff.mp ht with heq | ht
        · cases heq
          rcases Set.mem_insert_iff.mp ht' with heq' | ht'
          · cases heq'
            rfl
          · exact (hp hnone t' ht').symm
        · rcases Set.mem_insert_iff.mp ht' with heq' | ht'
          · cases heq'
            exact hp hnone t ht
          · exact h.one t t' n ht ht'
    | wake thread =>
      unfold Threads.step at hs
      dsimp only at hs
      rw [h.waiting] at hs
      cases hs
    | registerModule thread name mod | markInitialized thread name | markFailed thread name =>
      unfold Threads.step at hs
      dsimp only at hs
      rw [h.waiting] at hs
      cases hs
      exact h.one_diff _
  · cases action with
    | getOrRegister thread name =>
      have hget := h.step_get hs
      rcases h.get_cases thread name with ⟨m, -, hcase⟩ | ⟨hnone, hcase⟩
      · rw [hcase] at hget
        cases hget
        exact fun n hn => h.failed n hn.1
      · rw [hcase] at hget
        cases hget
        intro n hn
        dsimp only
        rw [moduleOf_set, if_neg fun he : n = name => hn.2 he]
        exact h.failed n hn.1
    | wake thread =>
      unfold Threads.step at hs
      dsimp only at hs
      rw [h.waiting] at hs
      cases hs
    | registerModule thread name mod =>
      unfold Threads.step at hs
      dsimp only at hs
      rw [h.waiting] at hs
      cases hs
      intro n hn
      dsimp only [ModuleRegistry.registerModule]
      rw [moduleOf_set, if_neg fun he : n = name => hn.2 he]
      exact h.failed n hn.1
    | markInitialized thread name =>
      unfold Threads.step at hs
      dsimp only at hs
      rw [h.waiting] at hs
      cases hs
      exact fun n hn => (moduleOf_markInitialized name n).trans (h.failed n hn.1)
    | markFailed thread name =>
      unfold Threads.step at hs
      dsimp only at hs
      rw [h.waiting] at hs
      cases hs
      intro n hn
      refine (moduleOf_markFailed name n).trans ?_
      rcases Set.mem_insert_iff.mp hn with rfl | hn
      · exact hp
      · exact h.failed n hn

theorem Reached.inv (h : Reached W) : W.Inv := by
  induction h with
  | start => exact inv_start
  | step _ hp hs ih => exact ih.step hp hs

/-- **The registry is safe** in runs of proper steps: one thread at a time initialises a module; what a thread obtains
is initialised; nobody waits; and a module that has failed is initialised anew by the thread that asks for it next. -/
theorem Reached.safe (h : Reached W) :
    (∀ thread thread' name, (thread, name) ∈ W.initialising → (thread', name) ∈ W.initialising → thread = thread') ∧
    (∀ thread name W' m isOwner, W.step (.getOrRegister thread name) = some (W', .got (some m) isOwner) →
      (W.registry.entry name).2.initialized = true) ∧
    (∀ thread, W.waiting thread = none) ∧
    ∀ name ∈ W.failed, ∀ thread, ∃ W', W.step (.getOrRegister thread name) = some (W', .got none true) ∧
      (thread, name) ∈ W'.initialising := by
  have hinv := h.inv
  refine ⟨hinv.one, fun thread name W' m isOwner hs => ?_, hinv.waiting, fun name hname thread => ?_⟩
  · have hget := hinv.step_get hs
    rcases hinv.get_cases thread name with ⟨m', hm, -⟩ | ⟨-, hcase⟩
    · refine hinv.entry name ?_
      unfold ModuleRegistry.moduleOf at hm
      rw [hm]
      rfl
    · rw [hcase] at hget
      cases hget
  · rcases hinv.get_cases thread name with ⟨m, hm, -⟩ | ⟨-, hcase⟩
    · rw [hinv.failed name hname] at hm
      cases hm
    · have hstep : W.step (.getOrRegister thread name) = some (W.get thread name) := by
        unfold Threads.step
        dsimp only
        rw [hinv.waiting, Option.isNone_none, if_pos rfl]
      rw [hcase] at hstep
      exact ⟨_, hstep, Or.inl rfl⟩

/-- A thread is told to initialise a module. -/
def asked : Threads Nat String Nat := (start.get 0 "fresh").1

/-- Another one is told to initialise another. -/
def bothAsked : Threads Nat String Nat := (asked.get 1 "other").1

theorem asked_reached : Reached asked := by
  have hproper : (start : Threads Nat String Nat).Proper (.getOrRegister 0 "fresh") := fun _ _ h => by cases h
  have hstep : (start : Threads Nat String Nat).step (.getOrRegister 0 "fresh") = some (asked, .got none true) := rfl
  exact .step .start hproper hstep

theorem bothAsked_reached : Reached bothAsked := by
  have hproper : asked.Proper (.getOrRegister 1 "other") := by
    intro _ thread hasked
    rcases hasked with hfresh | hnone
    · exact absurd (congrArg Prod.snd hfresh) (by simp)
    · cases hnone
  have hstep : asked.step (.getOrRegister 1 "other") = some (bothAsked, .got none true) := rfl
  exact .step asked_reached hproper hstep

theorem asked_safe : ((0, "fresh") ∈ bothAsked.initialising ∧ (1, "other") ∈ bothAsked.initialising) ∧
    (∀ thread thread' name, (thread, name) ∈ bothAsked.initialising → (thread', name) ∈ bothAsked.initialising →
      thread = thread') ∧ ∀ thread, bothAsked.waiting thread = none := by
  obtain ⟨hone, _, hwaiting, _⟩ := bothAsked_reached.safe
  exact ⟨⟨Or.inr (Or.inl rfl), Or.inl rfl⟩, hone, hwaiting⟩

/-- Another thread is told so too, while the first initialises it. -/
theorem told_twice : ∃ W : Threads Nat String Nat, asked.step (.getOrRegister 1 "fresh") = some (W, .got none true) ∧
    (0, "fresh") ∈ W.initialising ∧ (1, "fresh") ∈ W.initialising :=
  ⟨_, rfl, Or.inr (Or.inl rfl), Or.inl rfl⟩

end Threads

end Pylang.Runtime
