/-
When emission stays in the function it is emitting. What a body asks of the
shared state finds nothing, something of the body's own function, or something
of a function around it; which of the three can be told from the nesting of the
source alone, and a module is compiled without a reference across functions
exactly when it never is the third.
-/
import Pylang.Front.Emit

namespace Pylang.Front

/-- Whose the innermost open construct of some sort is. -/
inductive Origin
  | absent | here | outside
  deriving DecidableEq

/-- Seen from a body inside. -/
def Origin.inner : Origin → Origin
  | .here => .outside
  | o => o

/-- What stands around a node. -/
structure Nest where
  kind : ScopeKind
  scope : Option SymbolMap
  /-- The kinds and local names of the bodies around this one. -/
  outer : List (ScopeKind × List String)
  /-- The innermost `try` or `with` body, up to the nearest comprehension. -/
  unwind : Origin
  /-- The innermost `try` body that has a `finally`. -/
  finallyTry : Origin
  /-- The innermost `try` or `with` body. -/
  anyTry : Origin
  loop : Origin

/-- The names a body has allocas for. -/
structure Names where
  locals : List String
  cells : List String
  frees : List String

namespace Nest

def visibility (C : Nest) (n : String) : Option Visibility := C.scope.bind (·.visible n)

def outerHas (n : String) : List (ScopeKind × List String) → Bool
  | [] => false
  | s :: rest => n ∈ s.2 || (s.1 != .function && outerHas n rest)

/-- Whose alloca the local variable `n` has. Only a class body looks outside. -/
def place (C : Nest) (L : Names) (n : String) : Origin :=
  if n ∈ L.locals then .here
  else if C.kind != .function && outerHas n C.outer then .outside else .absent

def enter (C : Nest) (kind : BodyKind) (scope : Option SymbolMap) (L : Names) : Nest :=
  { kind := kind.scopeKind, scope := scope, outer := (C.kind, L.locals) :: C.outer
    unwind := if kind = .comprehension then .absent else C.unwind.inner
    finallyTry := C.finallyTry.inner, anyTry := C.anyTry.inner, loop := C.loop.inner }

def enterTry (C : Nest) (hasFinally : Bool) : Nest :=
  { C with unwind := .here, anyTry := .here, finallyTry := if hasFinally then .here else C.finallyTry }

/-- The names after a node. -/
def names (C : Nest) : Skeleton → Names → Names
  | .seq a b, L => names C b (names C a L)
  | .createLocal n, L => { L with locals := n :: L.locals }
  | .registerCell n, L => { L with locals := (n ++ ".cell") :: L.locals, cells := n :: L.cells }
  | .registerFree n, L => { L with locals := (n ++ ".free") :: L.locals, frees := n :: L.frees }
  | .store n, L =>
    if C.visibility n = some .local ∧ C.place L n = .absent then { L with locals := n :: L.locals } else L
  | .tryBody hasFinally body, L => names (C.enterTry hasFinally) body L
  | .loopBody body, L => names { C with loop := .here } body L
  | _, L => L

/-- A runtime call does not unwind to another function's landing pad. -/
def callStays (C : Nest) : Bool := C.unwind != .outside

/-- An access to a name uses no alloca of another function; `absent` says what
becomes of a name without one. -/
def accessStays (C : Nest) (L : Names) (n : String) (absent : Bool) : Bool :=
  match C.place L n with
  | .here => true
  | .absent => absent
  | .outside => false

def loadStays (C : Nest) (L : Names) (n : String) : Bool :=
  match C.visibility n with
  | none | some .local => C.accessStays L n C.callStays
  | _ => C.callStays

def storeStays (C : Nest) (L : Names) (n : String) : Bool :=
  match C.visibility n with
  | none => C.accessStays L n C.callStays
  | some .local => C.accessStays L n true
  | some .cell => n ∉ L.cells || C.callStays
  | some .free => n ∉ L.frees || C.callStays
  | _ => C.callStays

def deleteStays (C : Nest) (L : Names) (n : String) : Bool :=
  match C.visibility n with
  | some .local => C.accessStays L n true
  | some .cell | some .free => true
  | _ => C.callStays

/-- No request of the node is answered from a function around it. -/
def contained (C : Nest) : Skeleton → Names → Bool
  | .skip, _ | .createLocal _, _ | .registerCell _, _ | .registerFree _, _ => true
  | .seq a b, L => contained C a L && contained C b (C.names a L)
  | .call, _ => C.callStays
  | .load n, L => C.loadStays L n
  | .store n, L => C.storeStays L n
  | .delete n, L => C.deleteStays L n
  | .capture n, L => n ∈ L.cells ++ L.frees || C.callStays
  | .ret, _ => C.finallyTry != .outside
  | .loopExit, _ => if C.finallyTry = .absent then C.loop != .outside else C.finallyTry = .here
  | .reraise, _ => C.anyTry != .outside && C.callStays
  | .dispatch, _ => C.loop != .outside
  | .tryBody hasFinally body, L => contained (C.enterTry hasFinally) body L
  | .loopBody body, L => contained { C with loop := .here } body L
  | .enter kind scope body, L => contained (C.enter kind scope L) body ⟨[], [], []⟩

end Nest

/-- The condition on a module, with the scopes the code generator attaches. -/
def modContained (attach : Loc → Option SymbolMap) (scope : Option SymbolMap) (body : List Stmt) : Bool :=
  Nest.contained
    { kind := .module, scope := scope, outer := []
      unwind := .absent, finallyTry := .absent, anyTry := .absent, loop := .absent }
    (.seq .call (generateBody attach "" body)) ⟨[], [], []⟩

def Emitted.names (σ : Emitted) : Names := ⟨σ.locals, σ.cells, σ.frees⟩

namespace Env

/-- Whose a block or alloca is, seen from `E`. -/
def origin (E : Env) : Option Nat → Origin
  | none => .absent
  | some f => if f = E.fn then .here else .outside

/-- The nesting that an environment stands for. -/
def nest (E : Env) : Nest :=
  { kind := E.kind, scope := E.scope, outer := E.outer.map fun s => (s.kind, s.locals)
    unwind := E.origin E.unwind, finallyTry := E.origin E.nearestFinallyTry
    anyTry := E.origin E.currentTry, loop := E.origin E.currentLoop }

/-- Everything open is of a function created before `k`, and the scopes around
the current one are of other functions. -/
structure Below (E : Env) (k : Nat) : Prop where
  fn : E.fn < k
  outer : ∀ s ∈ E.outer, s.fn < k ∧ s.fn ≠ E.fn
  tries : ∀ t ∈ E.tries, t.1 < k
  loops : ∀ l ∈ E.loops, l < k
  unwind : ∀ u ∈ E.unwind, u < k

variable {E : Env} {k : Nat}

theorem Below.mono {k' : Nat} (h : E.Below k) (hk : k ≤ k') : E.Below k' where
  fn := by have := h.fn; omega
  outer s hs := ⟨by have := (h.outer s hs).1; omega, (h.outer s hs).2⟩
  tries t ht := by have := h.tries t ht; omega
  loops l hl := by have := h.loops l hl; omega
  unwind u hu := by have := h.unwind u hu; omega

theorem Below.enterTry (h : E.Below k) (hasFinally : Bool) :
    Below { E with tries := (E.fn, hasFinally) :: E.tries, unwind := some E.fn } k where
  fn := h.fn
  outer := h.outer
  tries t ht := by
    rcases List.mem_cons.mp ht with rfl | ht
    · exact h.fn
    · exact h.tries t ht
  loops := h.loops
  unwind u hu := by
    cases hu
    exact h.fn

theorem Below.enterLoop (h : E.Below k) : Below { E with loops := E.fn :: E.loops } k where
  fn := h.fn
  outer := h.outer
  tries := h.tries
  loops l hl := by
    rcases List.mem_cons.mp hl with rfl | hl
    · exact h.fn
    · exact h.loops l hl
  unwind := h.unwind

theorem Below.enter {σ : Emitted} (h : E.Below σ.next) (kind : BodyKind) (scope : Option SymbolMap) :
    (E.enter kind scope σ).Below (σ.next + 1) where
  fn := by show σ.next < σ.next + 1; omega
  outer s hs := by
    have hlt : s.fn < σ.next := by
      rcases List.mem_cons.mp hs with rfl | hs
      · exact h.fn
      · exact (h.outer s hs).1
    show s.fn < σ.next + 1 ∧ s.fn ≠ σ.next
    omega
  tries t ht := by have := h.tries t ht; omega
  loops l hl := by have := h.loops l hl; omega
  unwind u hu := by
    have hu' : u ∈ E.unwind := by
      unfold Env.enter at hu
      split at hu
      · cases hu
      · exact hu
    have := h.unwind u hu'
    omega

theorem nest_enterTry (hasFinally : Bool) :
    nest { E with tries := (E.fn, hasFinally) :: E.tries, unwind := some E.fn } = E.nest.enterTry hasFinally := by
  cases hasFinally <;> simp [nest, Nest.enterTry, origin, nearestFinallyTry, currentTry, currentLoop]

theorem nest_enterLoop : nest { E with loops := E.fn :: E.loops } = { E.nest with loop := .here } := by
  simp [nest, origin, nearestFinallyTry, currentTry, currentLoop]

theorem Below.nearestFinallyTry (h : E.Below k) : ∀ f ∈ E.nearestFinallyTry, f < k := by
  intro f hf
  obtain ⟨t, ht, rfl⟩ := Option.map_eq_some_iff.mp hf
  exact h.tries t (List.mem_of_find?_eq_some ht)

theorem Below.currentTry (h : E.Below k) : ∀ f ∈ E.currentTry, f < k := by
  intro f hf
  obtain ⟨t, ht, rfl⟩ := Option.map_eq_some_iff.mp hf
  exact h.tries t (List.mem_of_mem_head? ht)

theorem Below.currentLoop (h : E.Below k) : ∀ f ∈ E.currentLoop, f < k :=
  fun f hf => h.loops f (List.mem_of_mem_head? hf)

theorem origin_enter {σ : Emitted} {o : Option Nat} (ho : ∀ f ∈ o, f < σ.next) (kind : BodyKind)
    (scope : Option SymbolMap) : (E.enter kind scope σ).origin o = (E.origin o).inner := by
  cases o with
  | none => rfl
  | some f =>
    have hf : f ≠ σ.next := by have := ho f rfl; omega
    have hnew : (E.enter kind scope σ).origin (some f) = .outside := if_neg hf
    rw [hnew]
    show Origin.outside = (if f = E.fn then Origin.here else Origin.outside).inner
    split <;> rfl

theorem nest_enter {σ : Emitted} (h : E.Below σ.next) (kind : BodyKind) (scope : Option SymbolMap) :
    (E.enter kind scope σ).nest = E.nest.enter kind scope σ.names := by
  have hf := origin_enter (E := E) h.nearestFinallyTry kind scope
  have ht := origin_enter (E := E) h.currentTry kind scope
  have hl := origin_enter (E := E) h.currentLoop kind scope
  have hu := origin_enter (E := E) h.unwind kind scope
  have hunwind : (E.enter kind scope σ).origin (E.enter kind scope σ).unwind =
      if kind = .comprehension then .absent else (E.origin E.unwind).inner := by
    rw [← hu]
    show (E.enter kind scope σ).origin (if kind = .comprehension then none else E.unwind) = _
    split <;> rfl
  have hframe : (E.enter kind scope σ).nearestFinallyTry = E.nearestFinallyTry ∧
      (E.enter kind scope σ).currentTry = E.currentTry ∧
      (E.enter kind scope σ).currentLoop = E.currentLoop := ⟨rfl, rfl, rfl⟩
  unfold nest Nest.enter
  rw [hunwind, hframe.1, hframe.2.1, hframe.2.2, hf, ht, hl]
  rfl

theorem findOuter_eq_none {n : String} : ∀ {outer : List OuterScope},
    findOuter n outer = none ↔ Nest.outerHas n (outer.map fun s => (s.kind, s.locals)) = false
  | [] => by simp [findOuter, Nest.outerHas]
  | s :: rest => by
    have ih := @findOuter_eq_none n rest
    by_cases hn : n ∈ s.locals
    · simp [findOuter, Nest.outerHas, hn]
    by_cases hk : s.kind = .function
    · simp [findOuter, Nest.outerHas, hn, hk]
    · simp [findOuter, Nest.outerHas, hn, hk, ih]

theorem findOuter_mem {n : String} {f : Nat} : ∀ {outer : List OuterScope},
    findOuter n outer = some f → ∃ s ∈ outer, s.fn = f
  | s :: rest, h => by
    unfold findOuter at h
    split at h
    · exact ⟨s, List.mem_cons_self, Option.some.inj h⟩
    split at h
    · cases h
    · obtain ⟨t, ht, hf⟩ := findOuter_mem h
      exact ⟨t, List.mem_cons_of_mem _ ht, hf⟩

/-- `find_local` finds what the nesting says. -/
theorem origin_findLocal (h : E.Below k) (L : Names) (n : String) :
    E.origin (E.findLocal L.locals n) = E.nest.place L n := by
  unfold findLocal Nest.place
  by_cases hn : n ∈ L.locals
  · rw [if_pos hn, if_pos hn]
    exact if_pos rfl
  rw [if_neg hn, if_neg hn]
  by_cases hk : E.kind = .function
  · rw [if_pos hk]
    simp [nest, hk, origin]
  rw [if_neg hk]
  cases hf : findOuter n E.outer with
  | none =>
    have hout : Nest.outerHas n E.nest.outer = false := findOuter_eq_none.mp hf
    simp [hout, origin]
  | some f =>
    have hout : Nest.outerHas n E.nest.outer = true := by
      by_contra hno
      have hnone := findOuter_eq_none.mpr (Bool.not_eq_true _ ▸ hno)
      rw [hf] at hnone
      cases hnone
    obtain ⟨s, hs, hsf⟩ := findOuter_mem hf
    have hne : f ≠ E.fn := hsf ▸ (h.outer s hs).2
    have hkind : E.nest.kind ≠ .function := hk
    simp [hout, hkind, origin, hne]

end Env

/-- Emission from `σ` to `σ'` adds references within the function exactly if
`ok`, and leaves the names `L`. -/
structure Agrees (σ σ' : Emitted) (ok : Bool) (L : Names) : Prop where
  refs : StaysInFunction σ'.refs ↔ StaysInFunction σ.refs ∧ ok = true
  names : σ'.names = L
  next : σ.next ≤ σ'.next

variable {E : Env} {σ σ' σ'' : Emitted} {n : String}

theorem Agrees.refl : Agrees σ σ true σ.names := ⟨by simp, rfl, Nat.le_refl _⟩

theorem Agrees.trans {a b : Bool} {L L' : Names} (h : Agrees σ σ' a L) (h' : Agrees σ' σ'' b L') :
    Agrees σ σ'' (a && b) L' where
  refs := by
    rw [h'.refs, h.refs, and_assoc, Bool.and_eq_true]
  names := h'.names
  next := Nat.le_trans h.next h'.next

namespace Emitted

theorem ref_agrees (o : Option Nat) : Agrees σ (σ.ref E o) (E.origin o != .outside) σ.names where
  refs := by
    cases o with
    | none => simp [ref, Env.origin]
    | some f =>
      have hcons : StaysInFunction (σ.ref E (some f)).refs ↔ E.fn = f ∧ StaysInFunction σ.refs := by
        simp [ref, StaysInFunction]
      rw [hcons]
      by_cases hf : f = E.fn
      · simp [hf, Env.origin]
      · simp [hf, Env.origin, eq_comm]
  names := rfl
  next := Nat.le_refl _

theorem own_agrees : Agrees σ (σ.ref E (some E.fn)) true σ.names := by
  have h := ref_agrees (σ := σ) (E := E) (some E.fn)
  rwa [show E.origin (some E.fn) = .here from if_pos rfl] at h

theorem runtimeCall_agrees : Agrees σ (σ.runtimeCall E) E.nest.callStays σ.names := ref_agrees E.unwind

theorem createLocal_agrees :
    Agrees σ (σ.createLocal E n) true { σ.names with locals := n :: σ.locals } where
  refs := own_agrees.refs
  names := rfl
  next := Nat.le_refl _

theorem cellCall_agrees : Agrees σ ((σ.ref E (some E.fn)).runtimeCall E) E.nest.callStays σ.names :=
  own_agrees.trans runtimeCall_agrees

theorem cell_agrees (has : Prop) [Decidable has] :
    Agrees σ (if has then (σ.ref E (some E.fn)).runtimeCall E else σ) (decide (¬ has) || E.nest.callStays)
      σ.names := by
  by_cases h : has
  · simpa only [h, if_true, not_true, decide_false, Bool.false_or] using cellCall_agrees
  · simpa only [h, if_false, not_false_eq_true, decide_true, Bool.true_or] using Agrees.refl

theorem cell_or_call_agrees (has : Prop) [Decidable has] :
    Agrees σ (if has then (σ.ref E (some E.fn)).runtimeCall E else σ.runtimeCall E) E.nest.callStays σ.names := by
  split
  · exact cellCall_agrees
  · exact runtimeCall_agrees

theorem found_agrees {o : Nat} {p : Origin} (hp : E.origin (some o) = p) :
    Agrees σ (σ.ref E (some o)) (p != .outside) σ.names := hp ▸ ref_agrees (some o)

variable {k : Nat}

theorem place_cases (h : E.Below k) (σ : Emitted) (n : String) :
    (E.findLocal σ.locals n = none ∧ E.nest.place σ.names n = .absent) ∨
    ∃ o, E.findLocal σ.locals n = some o ∧ E.origin (some o) = E.nest.place σ.names n ∧
      E.nest.place σ.names n ≠ .absent := by
  have hplace := Env.origin_findLocal h σ.names n
  cases hf : E.findLocal σ.locals n with
  | none => exact Or.inl ⟨rfl, by rw [← hplace]; show E.origin (E.findLocal σ.locals n) = _; rw [hf]; rfl⟩
  | some o =>
    have hfind : E.findLocal σ.names.locals n = some o := hf
    rw [hfind] at hplace
    refine Or.inr ⟨o, rfl, hplace, ?_⟩
    rw [← hplace]
    show (if o = E.fn then Origin.here else Origin.outside) ≠ .absent
    split <;> simp

theorem accessStays_found {p : Origin} {absent : Bool} {C : Nest} {L : Names} (hp : C.place L n = p)
    (hne : p ≠ .absent) : C.accessStays L n absent = (p != .outside) := by
  unfold Nest.accessStays
  rw [hp]
  cases p <;> simp_all

theorem accessStays_absent {absent : Bool} {C : Nest} {L : Names} (hp : C.place L n = .absent) :
    C.accessStays L n absent = absent := by
  unfold Nest.accessStays
  rw [hp]

theorem loadVariable_agrees (h : E.Below k) :
    Agrees σ (σ.loadVariable E n) (E.nest.loadStays σ.names n) σ.names := by
  unfold loadVariable Nest.loadStays
  rw [show E.nest.visibility n = E.visibility n from rfl]
  rcases place_cases h σ n with ⟨hf, hp⟩ | ⟨o, hf, ho, hne⟩
  · rw [hf, accessStays_absent hp]
    cases E.visibility n with
    | none => exact runtimeCall_agrees
    | some v => cases v <;> first | exact runtimeCall_agrees | exact cell_or_call_agrees _
  · rw [hf, accessStays_found rfl hne]
    cases E.visibility n with
    | none => exact found_agrees ho
    | some v => cases v <;> first | exact runtimeCall_agrees | exact cell_or_call_agrees _ | exact found_agrees ho

theorem deleteVariable_agrees (h : E.Below k) :
    Agrees σ (σ.deleteVariable E n) (E.nest.deleteStays σ.names n) σ.names := by
  unfold deleteVariable Nest.deleteStays
  rw [show E.nest.visibility n = E.visibility n from rfl]
  rcases place_cases h σ n with ⟨hf, hp⟩ | ⟨o, hf, ho, hne⟩
  · rw [hf, accessStays_absent hp]
    cases E.visibility n with
    | none => exact runtimeCall_agrees
    | some v => cases v <;> first | exact runtimeCall_agrees | exact Agrees.refl
  · rw [hf, accessStays_found rfl hne]
    cases E.visibility n with
    | none => exact runtimeCall_agrees
    | some v => cases v <;> first | exact runtimeCall_agrees | exact Agrees.refl | exact found_agrees ho

theorem names_store_of_ne {C : Nest} {L : Names} (h : C.visibility n ≠ some .local ∨ C.place L n ≠ .absent) :
    C.names (.store n) L = L := by
  unfold Nest.names
  rw [if_neg]
  exact fun hc => h.elim (fun hv => hv hc.1) (fun hp => hp hc.2)

/-- A store creates the alloca of a LOCAL name that has none. -/
theorem storeVariable_agrees (h : E.Below k) :
    Agrees σ (σ.storeVariable E n) (E.nest.storeStays σ.names n) (E.nest.names (.store n) σ.names) := by
  have hvis : E.nest.visibility n = E.visibility n := rfl
  by_cases hl : E.visibility n = some .local
  · unfold storeVariable Nest.storeStays
    rw [hvis, hl]
    rcases place_cases h σ n with ⟨hf, hp⟩ | ⟨o, hf, ho, hne⟩
    · have hnames : E.nest.names (.store n) σ.names = { σ.names with locals := n :: σ.locals } :=
        if_pos ⟨hvis.trans hl, hp⟩
      rw [hf, hnames]
      show Agrees _ _ (E.nest.accessStays σ.names n true) _
      rw [accessStays_absent hp]
      exact createLocal_agrees.trans own_agrees
    · rw [hf, names_store_of_ne (Or.inr hne)]
      show Agrees _ _ (E.nest.accessStays σ.names n true) _
      rw [accessStays_found rfl hne]
      exact found_agrees ho
  · rw [names_store_of_ne (Or.inl (hvis ▸ hl))]
    unfold storeVariable Nest.storeStays
    rw [hvis]
    rcases place_cases h σ n with ⟨hf, hp⟩ | ⟨o, hf, ho, hne⟩
    · rw [hf, accessStays_absent hp]
      cases hv : E.visibility n with
      | none => exact runtimeCall_agrees
      | some v => cases v <;> first | exact absurd hv hl | exact runtimeCall_agrees | exact cell_agrees _
    · rw [hf, accessStays_found rfl hne]
      cases hv : E.visibility n with
      | none => exact found_agrees ho
      | some v => cases v <;> first | exact absurd hv hl | exact runtimeCall_agrees | exact cell_agrees _

theorem captureVariable_agrees :
    Agrees σ (σ.captureVariable E n) (n ∈ σ.cells ++ σ.frees || E.nest.callStays) σ.names := by
  unfold captureVariable
  by_cases hn : n ∈ σ.cells ++ σ.frees
  · simpa only [hn, if_true, decide_true, Bool.true_or] using own_agrees
  · simpa only [hn, if_false, decide_false, Bool.false_or] using runtimeCall_agrees

/-- `Break` and `Continue` prefer the innermost `finally` to the loop. -/
theorem loopExit_agrees : Agrees σ (emit E .loopExit σ) (E.nest.contained .loopExit σ.names) σ.names := by
  have hnest : E.nest.finallyTry = E.origin E.nearestFinallyTry := rfl
  unfold emit Nest.contained
  rw [hnest]
  cases E.nearestFinallyTry with
  | none => exact ref_agrees E.currentLoop
  | some o =>
    have h := ref_agrees (σ := σ) (E := E) (some o)
    by_cases ho : o = E.fn
    · rw [show E.origin (some o) = .here from if_pos ho] at h ⊢
      exact h
    · rw [show E.origin (some o) = .outside from if_neg ho] at h ⊢
      exact h

end Emitted

open Emitted

/-- **One node**: what emission adds, and the names it leaves, are those the
nesting gives. -/
theorem emit_agrees (b : Skeleton) :
    ∀ {E : Env} {σ : Emitted}, E.Below σ.next →
      Agrees σ (emit E b σ) (E.nest.contained b σ.names) (E.nest.names b σ.names) := by
  induction b with
  | skip => exact fun _ => Agrees.refl
  | seq a b iha ihb =>
    intro E σ h
    have ha := iha h
    have hb := ihb (h.mono ha.next)
    rw [ha.names] at hb
    exact ha.trans hb
  | call => exact fun _ => runtimeCall_agrees
  | createLocal n => exact fun _ => createLocal_agrees
  | registerCell n => exact fun _ => ⟨(createLocal_agrees (n := n ++ ".cell")).refs, rfl, Nat.le_refl _⟩
  | registerFree n => exact fun _ => ⟨(createLocal_agrees (n := n ++ ".free")).refs, rfl, Nat.le_refl _⟩
  | load n => exact fun h => loadVariable_agrees h
  | store n => exact fun h => storeVariable_agrees h
  | delete n => exact fun h => deleteVariable_agrees h
  | capture n => exact fun _ => captureVariable_agrees
  | ret => exact fun _ => ref_agrees _
  | loopExit => exact fun _ => loopExit_agrees
  | reraise => exact fun _ => (ref_agrees _).trans runtimeCall_agrees
  | dispatch => exact fun _ => ref_agrees _
  | tryBody hasFinally body ih =>
    intro E σ h
    have hb := ih (h.enterTry hasFinally)
    rw [Env.nest_enterTry] at hb
    exact hb
  | loopBody body ih =>
    intro E σ h
    have hb := ih h.enterLoop
    rw [Env.nest_enterLoop] at hb
    exact hb
  | enter kind scope body ih =>
    intro E σ h
    have hb := ih (σ := { next := σ.next + 1, locals := [], cells := [], frees := [], refs := σ.refs })
      (h.enter kind scope)
    rw [Env.nest_enter h] at hb
    exact ⟨hb.refs, rfl, Nat.le_of_succ_le hb.next⟩

/-- **A module is compiled without a reference across functions exactly when it
is contained**: no runtime call in a body inside a `try` or `with` body of an
enclosing one, no `return`, `break`, `continue`, bare `raise` or `finally` that
finds a construct of an enclosing one, and no class body that accesses a local
variable of the functions around it. -/
theorem compileModule_stays_iff (attach : Loc → Option SymbolMap) (scope : Option SymbolMap) (body : List Stmt) :
    StaysInFunction (compileModule attach scope body) ↔ modContained attach scope body = true := by
  have h := emit_agrees (.seq .call (generateBody attach "" body))
    (E := { fn := 0, kind := .module, scope := scope, outer := [], tries := [], loops := [], unwind := none })
    (σ := { next := 1, locals := [], cells := [], frees := [], refs := [] })
    ⟨Nat.zero_lt_one, by simp, by simp, by simp, by simp⟩
  have hrefs := h.refs
  simp only [StaysInFunction, List.not_mem_nil, false_implies, implies_true, true_and] at hrefs
  exact hrefs

/-- `try: def f(): pass` with a handler: the body of `f` ends in a runtime call
for `None`, an invoke that unwinds to the landing pad of the module's function. -/
theorem functionInTry_escapes :
    ¬ StaysInFunction (compileModule (fun _ => some []) (some [("f", .name)])
      [.try [.functionDef "f" ⟨2, 1⟩ ⟨[], [], [], none, none⟩ [] none [] [] [.pass] []]
        [.mk none none [.pass]] [] []]) := by
  decide

end Pylang.Front
