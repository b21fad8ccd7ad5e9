/-
When every body gets its own scope. Functions and lambdas always do once the
node around them has its own, comprehensions never, and classes where no other
class has the same dotted name.
-/
import Pylang.Front.Attach

namespace Pylang.Front

mutual

/-- The scopes of the nodes of an event that are compiled. -/
def eventCompiled (id : ScopeId) (ns : Dotted) (k : Nat) : Event → List Created
  | .op _ => []
  | .scope node type _ body =>
    let c := createScope id ns k node type
    if node.kind = .comp .generatorExp then [] else c :: compiledScopes c.id c.ns 0 body

def compiledScopes (id : ScopeId) (ns : Dotted) (k : Nat) : List Event → List Created
  | [] => []
  | e :: rest => eventCompiled id ns k e ++ compiledScopes id ns (k + e.scopes) rest

end

theorem mem_createdLevels_cons {id : ScopeId} {ns : Dotted} {k : Nat} {e : Event} {rest : List Event} {c : Created} :
    c ∈ (createdLevels id ns k (e :: rest)).flatten ↔
      c ∈ (eventCreated id ns k e).flatten ∨ c ∈ (createdLevels id ns (k + e.scopes) rest).flatten :=
  mem_flatten_mergeLevels

theorem mem_eventCreated_scope {id : ScopeId} {ns : Dotted} {k : Nat} {node : Node} {type : ScopeType}
    {eager : List Op} {body : List Event} {c : Created} :
    c ∈ (eventCreated id ns k (.scope node type eager body)).flatten ↔
      c = createScope id ns k node type ∨
        c ∈ (createdLevels (createScope id ns k node type).id (createScope id ns k node type).ns 0 body).flatten := by
  rw [eventCreated, List.flatten_cons, List.singleton_append, List.mem_cons]

/-- No comprehension, and no class whose dotted name another class has. -/
def Attachable (entries : List Created) (c : Created) : Prop :=
  c.isComp = false ∧ (c.isClass = true → ∀ c' ∈ entries, c'.isClass = true → c'.ns = c.ns → c' = c)

/-- No comprehension is compiled, and no two classes have one dotted name. -/
def ModuleAttachable (map : List Created) (stem : String) (body : List Stmt) : Prop :=
  ∀ c ∈ compiledScopes moduleId [.ident stem] 0 (walkModule body), Attachable map c

/-- A scope whose key is that of its node, in some namespace without `<module>`. -/
def Created.Keyed (c : Created) : Prop := ∃ ns : Dotted, .module ∉ ns ∧ c.key = c.node.key ns

theorem part_ne_module (node : Node) : node.part ≠ .module := by
  unfold Node.part
  split <;> simp

theorem Created.Keyed.module_not_mem {c : Created} (h : c.Keyed) : .module ∉ c.key := by
  obtain ⟨ns, hns, hkey⟩ := h
  have hpart := part_ne_module c.node
  rw [hkey]
  unfold Node.key functionMangle
  split
  · simp [hns]
  · simp [hns, hpart.symm]

theorem Created.Keyed.isComp_eq {c c' : Created} (h : c.Keyed) (h' : c'.Keyed) (hk : c.key = c'.key) :
    c.isComp = c'.isComp := by
  obtain ⟨ns, -, hkey⟩ := h
  obtain ⟨ns', -, hkey'⟩ := h'
  rw [hkey, hkey'] at hk
  obtain ⟨_, ⟨kind, name, loc⟩, _, _⟩ := c
  obtain ⟨_, ⟨kind', name', loc'⟩, _, _⟩ := c'
  cases kind <;> cases kind' <;> simp_all [Node.key, functionMangle, Node.part, Created.isComp]

theorem createScope_keyed {id : ScopeId} {ns : Dotted} {k : Nat} {node : Node} {type : ScopeType}
    (h : .module ∉ ns) : (createScope id ns k node type).Keyed := ⟨ns, h, rfl⟩

theorem createScope_ns {id : ScopeId} {ns : Dotted} {k : Nat} {node : Node} {type : ScopeType}
    (h : .module ∉ ns) : .module ∉ (createScope id ns k node type).ns := by
  show .module ∉ node.part :: ns
  simp [h, (part_ne_module node).symm]

mutual

theorem eventCreated_keyed : ∀ (e : Event) (id : ScopeId) (ns : Dotted) (k : Nat), .module ∉ ns →
    ∀ c ∈ (eventCreated id ns k e).flatten, c.Keyed
  | .op _, _, _, _, _, c, hc => by simp [eventCreated] at hc
  | .scope node type eager body, id, ns, k, h, c, hc => by
    rcases mem_eventCreated_scope.mp hc with rfl | hc
    · exact createScope_keyed h
    · exact createdLevels_keyed body _ _ 0 (createScope_ns h) c hc

theorem createdLevels_keyed : ∀ (events : List Event) (id : ScopeId) (ns : Dotted) (k : Nat), .module ∉ ns →
    ∀ c ∈ (createdLevels id ns k events).flatten, c.Keyed
  | [], _, _, _, _, c, hc => by simp [createdLevels] at hc
  | e :: rest, id, ns, k, h, c, hc => by
    rcases mem_createdLevels_cons.mp hc with hc | hc
    · exact eventCreated_keyed e id ns k h c hc
    · exact createdLevels_keyed rest id ns (k + e.scopes) h c hc

end

/-! ### The visibility map -/

/-- What `register` keeps: every node but a comprehension, and one scope a key. -/
structure Registered (cs map : List Created) : Prop where
  keep : ∀ c ∈ cs, c.isComp = false → c ∈ map
  unique : ∀ c ∈ map, ∀ c' ∈ map, c.key = c'.key → c = c'
  keyed : ∀ c ∈ map, c.Keyed

theorem register_registered {map : List Created} : ∀ {cs entries done : List Created},
    (∀ c ∈ cs, c.Keyed) → Registered done entries → register entries cs = some map →
    Registered (cs ++ done) map
  | [], entries, done, _, hreg, h => by
    cases h
    simpa using hreg
  | c :: cs, entries, done, hkeyed, hreg, h => by
    have hc := hkeyed c List.mem_cons_self
    have hcs : ∀ c ∈ cs, c.Keyed := fun x hx => hkeyed x (List.mem_cons_of_mem _ hx)
    have hstep : ∀ entries', Registered (c :: done) entries' → register entries' cs = some map →
        Registered (c :: cs ++ done) map := by
      intro entries' hreg' h'
      have hrec := register_registered hcs hreg' h'
      refine ⟨fun x hx => hrec.keep x ?_, hrec.unique, hrec.keyed⟩
      simp only [List.cons_append, List.mem_cons, List.mem_append] at hx ⊢
      tauto
    unfold register at h
    split at h
    · next hcomp =>
      refine hstep _ ⟨?_, ?_, ?_⟩ h
      · intro x hx hxc
        rcases List.mem_cons.mp hx with rfl | hx
        · exact List.mem_cons_self
        · have hxe := hreg.keep x hx hxc
          refine List.mem_cons_of_mem _ (List.mem_filter.mpr ⟨hxe, ?_⟩)
          have hne : x.key ≠ c.key := by
            intro hk
            have heq := (hreg.keyed x hxe).isComp_eq hc hk
            rw [hxc, hcomp] at heq
            cases heq
          simpa using hne
      · intro x hx y hy hk
        simp only [List.mem_cons, List.mem_filter, bne_iff_ne] at hx hy
        rcases hx with rfl | ⟨hx, hxk⟩
        · rcases hy with rfl | ⟨hy, hyk⟩
          · rfl
          · exact absurd hk.symm hyk
        · rcases hy with rfl | ⟨hy, hyk⟩
          · exact absurd hk hxk
          · exact hreg.unique x hx y hy hk
      · intro x hx
        simp only [List.mem_cons, List.mem_filter] at hx
        rcases hx with rfl | ⟨hx, -⟩
        · exact hc
        · exact hreg.keyed x hx
    split at h
    · cases h
    · next hnew =>
      have hnew : ∀ x ∈ entries, x.key ≠ c.key := by simpa using hnew
      refine hstep _ ⟨?_, ?_, ?_⟩ h
      · intro x hx hxc
        rcases List.mem_cons.mp hx with rfl | hx
        · exact List.mem_cons_self
        · exact List.mem_cons_of_mem _ (hreg.keep x hx hxc)
      · intro x hx y hy hk
        rcases List.mem_cons.mp hx with rfl | hxe
        · rcases List.mem_cons.mp hy with rfl | hye
          · rfl
          · exact absurd hk.symm (hnew y hye)
        · rcases List.mem_cons.mp hy with rfl | hye
          · exact absurd hk (hnew x hxe)
          · exact hreg.unique x hxe y hye hk
      · intro x hx
        rcases List.mem_cons.mp hx with rfl | hx
        · exact hc
        · exact hreg.keyed x hx

section Lookup

variable {entries : List Created} {cs : List Created}

theorem Registered.of_perm {map : List Created} (h : Registered cs map) (hp : entries.Perm map) :
    Registered cs entries where
  keep c hc hcomp := hp.mem_iff.mpr (h.keep c hc hcomp)
  unique c hc c' hc' := h.unique c (hp.mem_iff.mp hc) c' (hp.mem_iff.mp hc')
  keyed c hc := h.keyed c (hp.mem_iff.mp hc)

theorem Registered.findKey_eq (h : Registered cs entries) {c : Created} (hc : c ∈ entries) :
    findKey entries c.key = some c := by
  unfold findKey
  cases hf : entries.find? (·.key == c.key) with
  | none => simpa using List.find?_eq_none.mp hf c hc
  | some c' =>
    have hkey : c'.key = c.key := by simpa using List.find?_some hf
    rw [h.unique c' (List.mem_of_find?_eq_some hf) c hc hkey]

theorem Registered.findKey_eq_none (h : Registered cs entries) {key : Dotted} (hk : .module ∈ key) :
    findKey entries key = none := by
  unfold findKey
  refine List.find?_eq_none.mpr fun c hc heq => (h.keyed c hc).module_not_mem ?_
  rw [show c.key = key by simpa using heq]
  exact hk

theorem Registered.functionScope_eq (h : Registered cs entries) {E : Enclosing} {id : ScopeId} {ns : Dotted}
    {k : Nat} {node : Node} {type : ScopeType} (hE : E.varScope = some (id, ns))
    (hkind : node.kind = .function ∨ node.kind = .lambda)
    (hc : createScope id ns k node type ∈ entries) :
    functionScope entries E node = some (createScope id ns k node type) := by
  have hkey : (createScope id ns k node type).key = functionMangle ns node := by
    show node.key ns = _
    unfold Node.key
    rcases hkind with hkind | hkind <;> rw [hkind]
  have hfind := h.findKey_eq hc
  rw [hkey] at hfind
  unfold functionScope
  rw [hE]
  simp [hfind]

theorem classScope_eq {E : Enclosing} {id : ScopeId} {ns : Dotted} {node : Node} {c : Created}
    (hE : E.varScope = some (id, ns))
    (hfind : entries.find? (fun c => c.isClass && c.ns == node.part :: ns) = some c) :
    classScope entries E node = some c := by
  unfold classScope
  rw [hE]
  simp [hfind]

end Lookup

section Walk

variable {entries cs : List Created}

theorem attachedScope_own (hreg : Registered cs entries) {id : ScopeId} {ns : Dotted} {E : Enclosing} {k : Nat}
    {node : Node} {type : ScopeType} (hE : E.varScope = some (id, ns)) (hcs : createScope id ns k node type ∈ cs)
    (hok : Attachable entries (createScope id ns k node type)) :
    attachedScope entries E node = some (createScope id ns k node type) := by
  have hmem := hreg.keep _ hcs hok.1
  unfold attachedScope
  cases hkind : node.kind with
  | function => exact hreg.functionScope_eq hE (Or.inl hkind) hmem
  | lambda => exact hreg.functionScope_eq hE (Or.inr hkind) hmem
  | comp kind =>
    have hc : (createScope id ns k node type).isComp = true := by
      simp [Created.isComp, createScope, hkind]
    rw [hok.1] at hc
    cases hc
  | «class» =>
    have hisClass : (createScope id ns k node type).isClass = true := by
      simp [Created.isClass, createScope, hkind]
    refine classScope_eq hE ?_
    cases hf : entries.find? (fun c => c.isClass && c.ns == node.part :: ns) with
    | none =>
      have hyes : ((createScope id ns k node type).isClass &&
          (createScope id ns k node type).ns == node.part :: ns) = true := by
        rw [hisClass]
        simp [createScope]
      exact absurd hyes (List.find?_eq_none.mp hf _ hmem)
    | some c' =>
      have hp := List.find?_some hf
      simp only [Bool.and_eq_true, beq_iff_eq] at hp
      exact congrArg some (hok.2 hisClass c' (List.mem_of_find?_eq_some hf) hp.1 hp.2)

mutual

theorem eventAttachments_own (hreg : Registered cs entries) : ∀ (e : Event) (id : ScopeId) (ns : Dotted)
    (E : Enclosing) (k : Nat), E.varScope = some (id, ns) →
    (∀ c ∈ (eventCreated id ns k e).flatten, c ∈ cs) →
    (∀ c ∈ eventCompiled id ns k e, Attachable entries c) →
    ∀ a ∈ eventAttachments entries id ns E k e, a.2 = some a.1
  | .op _, _, _, _, _, _, _, _, a, ha => by simp [eventAttachments] at ha
  | .scope node type eager body, id, ns, E, k, hE, hcs, hok, a, ha => by
    unfold eventAttachments at ha
    unfold eventCompiled at hok
    split at ha
    · cases ha
    · next hgen =>
      rw [if_neg hgen] at hok
      have hfound := attachedScope_own hreg hE (hcs _ (mem_eventCreated_scope.mpr (Or.inl rfl)))
        (hok _ List.mem_cons_self)
      rcases List.mem_cons.mp ha with rfl | ha
      · exact hfound
      · refine attachments_own hreg body _ _ _ 0 ?_ (fun c hc => hcs c (mem_eventCreated_scope.mpr (Or.inr hc)))
          (fun c hc => hok c (List.mem_cons_of_mem _ hc)) a ha
        rw [hfound]
        rfl

theorem attachments_own (hreg : Registered cs entries) : ∀ (events : List Event) (id : ScopeId) (ns : Dotted)
    (E : Enclosing) (k : Nat), E.varScope = some (id, ns) →
    (∀ c ∈ (createdLevels id ns k events).flatten, c ∈ cs) →
    (∀ c ∈ compiledScopes id ns k events, Attachable entries c) →
    ∀ a ∈ attachments entries id ns E k events, a.2 = some a.1
  | [], _, _, _, _, _, _, _, a, ha => by simp [attachments] at ha
  | e :: rest, id, ns, E, k, hE, hcs, hok, a, ha => by
    rcases List.mem_append.mp ha with ha | ha
    · exact eventAttachments_own hreg e id ns E k hE (fun c hc => hcs c (mem_createdLevels_cons.mpr (Or.inl hc)))
        (fun c hc => hok c (List.mem_append_left _ hc)) a ha
    · exact attachments_own hreg rest id ns E _ hE (fun c hc => hcs c (mem_createdLevels_cons.mpr (Or.inr hc)))
        (fun c hc => hok c (List.mem_append_right _ hc)) a ha

end

/-- A node that is no comprehension, and that the lookup by namespace found if it is a class. -/
def Found (entries : List Created) (c : Created) : Prop :=
  c.isComp = false ∧ (c.isClass = true → entries.find? (fun c' => c'.isClass && c'.ns == c.ns) = some c)

theorem found_of_attachedScope (hreg : Registered cs entries) {id : ScopeId} {ns : Dotted} {E : Enclosing}
    {k : Nat} {node : Node} {type : ScopeType} (hE : E.varScope = some (id, ns)) (hm : .module ∈ E.mangled)
    (hcs : createScope id ns k node type ∈ cs)
    (hfound : attachedScope entries E node = some (createScope id ns k node type)) :
    Found entries (createScope id ns k node type) := by
  cases hkind : node.kind with
  | comp kind =>
    have hmangled : Part.module ∈ functionMangle E.mangled node :=
      List.mem_cons_of_mem _ (List.mem_cons_of_mem _ hm)
    have hnone : attachedScope entries E node = none := by
      unfold attachedScope
      rw [hkind]
      exact hreg.findKey_eq_none hmangled
    rw [hnone] at hfound
    cases hfound
  | «class» =>
    have hcomp : (createScope id ns k node type).isComp = false := by
      simp [Created.isComp, createScope, hkind]
    refine ⟨hcomp, fun hisClass => ?_⟩
    cases hf : entries.find? (fun c' => c'.isClass && c'.ns == (createScope id ns k node type).ns) with
    | none =>
      have hnot := List.find?_eq_none.mp hf _ (hreg.keep _ hcs hcomp)
      simp [hisClass] at hnot
    | some c' =>
      have hclass : classScope entries E node = some c' := classScope_eq hE hf
      have hattached : attachedScope entries E node = classScope entries E node := by
        unfold attachedScope
        rw [hkind]
      rw [← hattached, hfound] at hclass
      rw [← hclass]
  | _ =>
    refine ⟨by simp [Created.isComp, createScope, hkind], fun hisClass => ?_⟩
    simp [Created.isClass, createScope, hkind] at hisClass

mutual

theorem eventAttachments_found (hreg : Registered cs entries) : ∀ (e : Event) (id : ScopeId) (ns : Dotted)
    (E : Enclosing) (k : Nat), E.varScope = some (id, ns) → .module ∈ E.mangled →
    (∀ c ∈ (eventCreated id ns k e).flatten, c ∈ cs) →
    (∀ a ∈ eventAttachments entries id ns E k e, a.2 = some a.1) →
    ∀ c ∈ eventCompiled id ns k e, Found entries c
  | .op _, _, _, _, _, _, _, _, _, c, hc => by simp [eventCompiled] at hc
  | .scope node type eager body, id, ns, E, k, hE, hm, hcs, hown, c, hc => by
    unfold eventAttachments at hown
    unfold eventCompiled at hc
    split at hc
    · cases hc
    · next hgen =>
      rw [if_neg hgen] at hown
      have hfound : attachedScope entries E node = some (createScope id ns k node type) :=
        hown _ List.mem_cons_self
      rcases List.mem_cons.mp hc with rfl | hc
      · exact found_of_attachedScope hreg hE hm (hcs _ (mem_eventCreated_scope.mpr (Or.inl rfl))) hfound
      · refine attachments_found hreg body _ _ _ 0 ?_ (List.mem_cons_of_mem _ (List.mem_cons_of_mem _ hm))
          (fun c hc => hcs c (mem_eventCreated_scope.mpr (Or.inr hc)))
          (fun a ha => hown a (List.mem_cons_of_mem _ ha)) c hc
        rw [hfound]
        rfl

/-- Where every node gets its own scope, all were found by their own lookups. -/
theorem attachments_found (hreg : Registered cs entries) : ∀ (events : List Event) (id : ScopeId) (ns : Dotted)
    (E : Enclosing) (k : Nat), E.varScope = some (id, ns) → .module ∈ E.mangled →
    (∀ c ∈ (createdLevels id ns k events).flatten, c ∈ cs) →
    (∀ a ∈ attachments entries id ns E k events, a.2 = some a.1) →
    ∀ c ∈ compiledScopes id ns k events, Found entries c
  | [], _, _, _, _, _, _, _, _, c, hc => by simp [compiledScopes] at hc
  | e :: rest, id, ns, E, k, hE, hm, hcs, hown, c, hc => by
    rcases List.mem_append.mp hc with hc | hc
    · exact eventAttachments_found hreg e id ns E k hE hm
        (fun c hc => hcs c (mem_createdLevels_cons.mpr (Or.inl hc)))
        (fun a ha => hown a (List.mem_append_left _ ha)) c hc
    · exact attachments_found hreg rest id ns E _ hE hm
        (fun c hc => hcs c (mem_createdLevels_cons.mpr (Or.inr hc)))
        (fun a ha => hown a (List.mem_append_right _ ha)) c hc

end

end Walk

/-- **Every compiled body has the scope the resolver created for its node
exactly if** the module has no comprehension and no two classes of one dotted
name. -/
theorem attachesOwnScopes_iff {map : List Created} {stem : String} (moduleName : String) (loc : Loc)
    {body : List Stmt} (hmap : visibilityMap stem body = some map) :
    AttachesOwnScopes map stem moduleName loc body ↔ ModuleAttachable map stem body := by
  have hkeyed := createdLevels_keyed (walkModule body) moduleId [.ident stem] 0 (by simp)
  have hreg : Registered (createdLevels moduleId [.ident stem] 0 (walkModule body)).flatten map := by
    have hempty : Registered [] [] := ⟨by simp, by simp, by simp⟩
    simpa using register_registered hkeyed hempty hmap
  constructor
  · intro hown c hc
    have hcs : ∀ c ∈ (createdLevels moduleId [.ident stem] 0 (walkModule body)).flatten,
        c ∈ (createdLevels moduleId [.ident stem] 0 (walkModule body)).flatten := fun _ h => h
    have hfind : ∀ entries, entries.Perm map → Found entries c :=
      fun entries hp => attachments_found (hreg.of_perm hp) _ _ _ _ 0 rfl (by simp) hcs (hown entries hp) c hc
    refine ⟨(hfind map (List.Perm.refl _)).1, fun hclass c' hc' hclass' hns => ?_⟩
    -- an order of the map in which `c'` comes first
    have hperm : (c' :: map.erase c').Perm map := (List.perm_cons_erase hc').symm
    have hfirst := (hfind _ hperm).2 hclass
    rw [List.find?_cons_of_pos (by simp [hclass', hns])] at hfirst
    exact Option.some.inj hfirst
  · intro hok entries hp
    refine attachments_own (hreg.of_perm hp) _ _ _ _ 0 rfl (fun _ h => h) fun c hc => ?_
    exact ⟨(hok c hc).1, fun hclass c' hc' => (hok c hc).2 hclass c' (hp.mem_iff.mp hc')⟩

/-- `[x for x in y]` at the module's level. -/
def listCompModule : List Stmt :=
  [.expression (.comp .listComp ⟨1, 1⟩ [.name "x"] [.mk (.name "x") (.name "y") []])]

/-- The comprehension's body has no scope attached. -/
theorem listComp_unattached : ∃ map, visibilityMap "m" listCompModule = some map ∧
    ¬ AttachesOwnScopes map "m" "m" ⟨0, 0⟩ listCompModule := by
  refine ⟨_, rfl, fun h => ?_⟩
  have hfirst := h _ (List.Perm.refl _) _ List.mem_cons_self
  revert hfirst
  decide

/-- A module without classes and comprehensions, for which the scopes are attached. -/
theorem attachesOwnScopes_iff_function :
    AttachesOwnScopes
        [createScope moduleId [.ident "m"] 0 ⟨.function, "f", ⟨1, 1⟩⟩ .function] "m" "m" ⟨0, 0⟩
        [.functionDef "f" ⟨1, 1⟩ ⟨[], [], [], none, none⟩ [] none [] [] [.pass] []] ↔
      ModuleAttachable [createScope moduleId [.ident "m"] 0 ⟨.function, "f", ⟨1, 1⟩⟩ .function] "m"
        [.functionDef "f" ⟨1, 1⟩ ⟨[], [], [], none, none⟩ [] none [] [] [.pass] []] :=
  attachesOwnScopes_iff "m" ⟨0, 0⟩ (by decide)

end Pylang.Front
