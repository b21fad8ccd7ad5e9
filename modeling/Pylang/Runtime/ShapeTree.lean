/-
The shapes as objects: `Shape::root` and `Shape::transition` make a shape once
and hand out the same one ever after, so that a shape is told by its type and
its names in order, which is what `Shape` keeps of it.
-/
import Mathlib.Data.List.Nodup
import Pylang.Runtime.ObjectStore

namespace Pylang.Runtime

namespace Shape

variable {τ : Type} {shape : Shape τ} {name : String}

theorem lookup_lt {offset : Nat} (h : shape.lookup name = some offset) : offset < shape.slotCount := by
  unfold lookup at h
  split at h
  · next hin =>
    cases h
    exact List.idxOf_lt_length_of_mem hin
  · cases h

theorem lookup_transition (h : shape.lookup name = none) (n : String) :
    (shape.transition name).lookup n = if n = name then some shape.slotCount else shape.lookup n := by
  split
  next hn =>
    subst hn
    have hin : n ∉ shape.names := by
      intro hin
      rw [lookup, if_pos hin] at h
      cases h
    rw [lookup, transition, if_pos (by simp), List.idxOf_append_of_notMem hin]
    simp [slotCount]
  next hn =>
    unfold lookup transition
    by_cases hin : n ∈ shape.names
    · rw [if_pos (List.mem_append_left _ hin), if_pos hin, List.idxOf_append_of_mem hin]
    · rw [if_neg (by simp [hin, hn]), if_neg hin]

theorem lookup_inj {n : String} {offset : Nat} (h : shape.lookup name = some offset) (h' : shape.lookup n = some offset) :
    name = n := by
  unfold lookup at h h'
  split at h
  · next hin =>
    split at h'
    · cases h
      exact (List.idxOf_inj hin).mp (Option.some.inj h').symm
    · cases h'
  · cases h

theorem lookup_onto (hnodup : shape.names.Nodup) {offset : Nat} (h : offset < shape.slotCount) :
    ∃ n, shape.lookup n = some offset := by
  refine ⟨shape.names.get ⟨offset, h⟩, ?_⟩
  unfold lookup
  rw [if_pos (List.get_mem _ _)]
  exact congrArg some (hnodup.idxOf_getElem offset h)

end Shape

variable {τ : Type} [DecidableEq τ]

/-- A `Shape` object. Names are interned, so they are compared by their text. -/
structure ShapeNode (τ : Type) where
  ownerType : τ
  slotCount : Nat
  offsets : String → Option Nat
  transitions : String → Option Nat

/-- All shapes, by address, and `shape_roots`. -/
structure ShapeTree (τ : Type) where
  nodes : List (ShapeNode τ)
  roots : τ → Option Nat

namespace ShapeTree

variable (H : ShapeTree τ)

/-- `Shape::root`. -/
def root (ownerType : τ) : ShapeTree τ × Nat :=
  match H.roots ownerType with
  | some s => (H, s)
  | none =>
    (⟨H.nodes ++ [⟨ownerType, 0, fun _ => none, fun _ => none⟩], Function.update H.roots ownerType (some H.nodes.length)⟩,
      H.nodes.length)

/-- `m_offsets.emplace`. -/
def emplaceOffset (offsets : String → Option Nat) (name : String) (offset : Nat) : String → Option Nat :=
  Function.update offsets name (some ((offsets name).getD offset))

/-- `Shape::transition`; none where there is no such shape. -/
def transition (s : Nat) (name : String) : Option (ShapeTree τ × Nat) :=
  (H.nodes[s]?).map fun node =>
    match node.transitions name with
    | some next => (H, next)
    | none =>
      let next : ShapeNode τ := ⟨node.ownerType, node.slotCount + 1, emplaceOffset node.offsets name node.slotCount, fun _ => none⟩
      (⟨H.nodes.set s { node with transitions := Function.update node.transitions name (some H.nodes.length) } ++ [next], H.roots⟩,
        H.nodes.length)

/-- What later trees keep: the shapes, their transitions and the roots. -/
structure Extends (H H' : ShapeTree τ) : Prop where
  nodes : ∀ (s : Nat) (node : ShapeNode τ), H.nodes[s]? = some node → ∃ node' : ShapeNode τ, H'.nodes[s]? = some node' ∧
    node'.ownerType = node.ownerType ∧ node'.slotCount = node.slotCount ∧ node'.offsets = node.offsets ∧
      ∀ name next, node.transitions name = some next → node'.transitions name = some next
  roots : ∀ t s, H.roots t = some s → H'.roots t = some s

/-- The shape an object is, by the way it was made. -/
inductive Represents : Nat → Shape τ → Prop
  | root {t : τ} {s : Nat} : H.roots t = some s → Represents s (.root t)
  | transition {s next : Nat} {node : ShapeNode τ} {shape : Shape τ} {name : String} : Represents s shape →
      H.nodes[s]? = some node → node.transitions name = some next → Represents next (shape.transition name)

/-- The trees that calls of `root` and `transition` make of a tree. -/
inductive Leads : ShapeTree τ → Prop
  | refl : Leads H
  | root {H' : ShapeTree τ} (t : τ) : Leads H' → Leads (H'.root t).1
  | transition {H' H'' : ShapeTree τ} {s next : Nat} {name : String} : Leads H' →
      H'.transition s name = some (H'', next) → Leads H''

variable {H} {H' H'' : ShapeTree τ} {s next : Nat} {name : String}

omit [DecidableEq τ] in
theorem Extends.refl (H : ShapeTree τ) : Extends H H :=
  ⟨fun _ node h => ⟨node, h, rfl, rfl, rfl, fun _ _ hn => hn⟩, fun _ _ h => h⟩

omit [DecidableEq τ] in
theorem Extends.trans (h : Extends H H') (h' : Extends H' H'') : Extends H H'' := by
  refine ⟨fun s node hs => ?_, fun t s ht => h'.roots t s (h.roots t s ht)⟩
  obtain ⟨node₁, hs₁, hown₁, hcount₁, hoff₁, hnext₁⟩ := h.nodes s node hs
  obtain ⟨node₂, hs₂, hown₂, hcount₂, hoff₂, hnext₂⟩ := h'.nodes s node₁ hs₁
  exact ⟨node₂, hs₂, hown₂.trans hown₁, hcount₂.trans hcount₁, hoff₂.trans hoff₁, fun n k hn => hnext₂ n k (hnext₁ n k hn)⟩

theorem extends_root (H : ShapeTree τ) (t : τ) : Extends H (H.root t).1 := by
  unfold root
  cases hroot : H.roots t with
  | some s => exact .refl H
  | none =>
    refine ⟨fun s node hs => ⟨node, ?_, rfl, rfl, rfl, fun _ _ hn => hn⟩, fun t' s hs => ?_⟩
    · rw [List.getElem?_append_left (List.getElem?_eq_some_iff.mp hs).1]
      exact hs
    · have hne : t' ≠ t := by
        intro h
        obtain rfl := h
        rw [hroot] at hs
        cases hs
      exact (Function.update_of_ne hne ..).trans hs

omit [DecidableEq τ] in
theorem extends_transition (h : H.transition s name = some (H', next)) : Extends H H' := by
  unfold transition at h
  obtain ⟨node, hs, heq⟩ := Option.map_eq_some_iff.mp h
  cases htrans : node.transitions name with
  | some next' =>
    rw [htrans] at heq
    cases heq
    exact .refl H
  | none =>
    rw [htrans] at heq
    cases heq
    refine ⟨fun s' node' hs' => ?_, fun _ _ ht => ht⟩
    have hlt := (List.getElem?_eq_some_iff.mp hs').1
    dsimp only
    rw [List.getElem?_append_left (by rw [List.length_set]; exact hlt), List.getElem?_set]
    split
    next hss =>
      subst hss
      rw [if_pos hlt]
      obtain rfl : node = node' := Option.some.inj (hs.symm.trans hs')
      refine ⟨_, rfl, rfl, rfl, rfl, fun n k hn => ?_⟩
      have hne : n ≠ name := by
        intro h
        obtain rfl := h
        rw [htrans] at hn
        cases hn
      exact (Function.update_of_ne hne ..).trans hn
    next => exact ⟨node', hs', rfl, rfl, rfl, fun _ _ hn => hn⟩

omit [DecidableEq τ] in
/-- After a transition the shape has it. -/
theorem transition_recorded (h : H.transition s name = some (H', next)) :
    ∃ node, H'.nodes[s]? = some node ∧ node.transitions name = some next := by
  unfold transition at h
  obtain ⟨node, hs, heq⟩ := Option.map_eq_some_iff.mp h
  cases htrans : node.transitions name with
  | some next' =>
    rw [htrans] at heq
    cases heq
    exact ⟨node, hs, htrans⟩
  | none =>
    rw [htrans] at heq
    cases heq
    have hlt := (List.getElem?_eq_some_iff.mp hs).1
    refine ⟨{ node with transitions := Function.update node.transitions name (some H.nodes.length) }, ?_,
      Function.update_self ..⟩
    dsimp only
    rw [List.getElem?_append_left (by rw [List.length_set]; exact hlt), List.getElem?_set_self hlt]

theorem Leads.extends_ (h : H.Leads H') : Extends H H' := by
  induction h with
  | refl => exact .refl H
  | root t _ ih => exact ih.trans (extends_root _ t)
  | transition _ ht ih => exact ih.trans (extends_transition ht)

/-- **A transition is made once**: whatever happens later, it gives the same shape. -/
theorem transition_stable (h : H.transition s name = some (H', next)) (hlater : H'.Leads H'') :
    H''.transition s name = some (H'', next) := by
  obtain ⟨node, hs, htrans⟩ := transition_recorded h
  obtain ⟨node', hs', -, -, -, hnext⟩ := hlater.extends_.nodes s node hs
  unfold transition
  rw [hs', Option.map_some, hnext name next htrans]

/-! ## Shapes by their names -/

omit [DecidableEq τ] in
/-- Shapes that are equal are one object. -/
theorem Represents.unique {t : Nat} {shape : Shape τ} (h : H.Represents s shape) (h' : H.Represents t shape) : s = t := by
  induction h generalizing t with
  | root hroot =>
    generalize heq : Shape.root _ = shape at h'
    cases h' with
    | root hroot' =>
      cases heq
      exact Option.some.inj (hroot.symm.trans hroot')
    | transition =>
      have hnames := congrArg (fun s => s.names.length) heq
      simp [Shape.root, Shape.transition] at hnames
  | transition hrep hs hnext ih =>
    generalize heq : Shape.transition _ _ = shape at h'
    cases h' with
    | root =>
      have hnames := congrArg (fun s => s.names.length) heq
      simp [Shape.root, Shape.transition] at hnames
    | @transition _ _ _ shape' name' hrep' hs' hnext' =>
      obtain ⟨howner, hnames⟩ := Shape.mk.inj heq
      obtain ⟨hnames, hname⟩ := List.append_inj' hnames rfl
      have hshape := ih (t := _) (by
        rw [show shape' = _ from (congrArg₂ Shape.mk howner hnames).symm] at hrep'
        exact hrep')
      subst hshape
      obtain rfl := Option.some.inj (hs.symm.trans hs')
      rw [List.cons.inj hname |>.1] at hnext
      exact Option.some.inj (hnext.symm.trans hnext')

/-- A root is empty, and a transition adds its name at the end. -/
structure Linked (H : ShapeTree τ) : Prop where
  root : ∀ t s, H.roots t = some s → ∃ node : ShapeNode τ, H.nodes[s]? = some node ∧ node.ownerType = t ∧ node.slotCount = 0 ∧
    node.offsets = fun _ => none
  next : ∀ (s : Nat) (node : ShapeNode τ), H.nodes[s]? = some node → ∀ name next, node.transitions name = some next →
    ∃ node' : ShapeNode τ, H.nodes[next]? = some node' ∧ node'.ownerType = node.ownerType ∧
      node'.slotCount = node.slotCount + 1 ∧ node'.offsets = emplaceOffset node.offsets name node.slotCount

theorem Linked.rooted (h : H.Linked) (t : τ) : (H.root t).1.Linked := by
  have hext := extends_root H t
  have hmoved (s : Nat) (node : ShapeNode τ) (hs : H.nodes[s]? = some node) (name : String) (next : Nat)
      (hn : node.transitions name = some next) : ∃ node' : ShapeNode τ, (H.root t).1.nodes[next]? = some node' ∧
        node'.ownerType = node.ownerType ∧ node'.slotCount = node.slotCount + 1 ∧
          node'.offsets = emplaceOffset node.offsets name node.slotCount := by
    obtain ⟨node', hs', howner, hcount, hoff⟩ := h.next s node hs name next hn
    obtain ⟨node'', hs'', howner', hcount', hoff', -⟩ := hext.nodes next node' hs'
    exact ⟨node'', hs'', howner'.trans howner, hcount'.trans hcount, hoff'.trans hoff⟩
  unfold ShapeTree.root at hmoved ⊢
  cases hroot : H.roots t with
  | some s => exact h
  | none =>
    rw [hroot] at hmoved
    refine ⟨fun t' s hs => ?_, fun s node hs name next hn => ?_⟩
    · by_cases ht : t' = t
      · subst ht
        dsimp only at hs ⊢
        rw [Function.update_self] at hs
        obtain rfl : H.nodes.length = s := Option.some.inj hs
        exact ⟨_, List.getElem?_concat_length, rfl, rfl, rfl⟩
      · dsimp only at hs
        rw [Function.update_of_ne ht] at hs
        obtain ⟨node, hs', howner, hcount, hoff⟩ := h.root t' s hs
        refine ⟨node, ?_, howner, hcount, hoff⟩
        dsimp only
        rw [List.getElem?_append_left (List.getElem?_eq_some_iff.mp hs').1]
        exact hs'
    · dsimp only at hs
      rw [List.getElem?_append] at hs
      split at hs
      next => exact hmoved s node hs name next hn
      next =>
        obtain rfl : _ = node := List.mem_singleton.mp (List.mem_of_getElem? hs) |>.symm
        cases hn

omit [DecidableEq τ] in
theorem Linked.transitioned (h : H.Linked) (ht : H.transition s name = some (H', next)) : H'.Linked := by
  have hext := extends_transition ht
  have hroots : H'.roots = H.roots := by
    unfold transition at ht
    obtain ⟨node, -, heq⟩ := Option.map_eq_some_iff.mp ht
    cases htrans : node.transitions name <;> rw [htrans] at heq <;> cases heq <;> rfl
  -- Nodes that were there have the links they had.
  have hmoved (s : Nat) (node : ShapeNode τ) (hs : H.nodes[s]? = some node) (name : String) (next : Nat)
      (hn : node.transitions name = some next) : ∃ node' : ShapeNode τ, H'.nodes[next]? = some node' ∧
        node'.ownerType = node.ownerType ∧ node'.slotCount = node.slotCount + 1 ∧
          node'.offsets = emplaceOffset node.offsets name node.slotCount := by
    obtain ⟨node', hs', howner, hcount, hoff⟩ := h.next s node hs name next hn
    obtain ⟨node'', hs'', howner', hcount', hoff', -⟩ := hext.nodes next node' hs'
    exact ⟨node'', hs'', howner'.trans howner, hcount'.trans hcount, hoff'.trans hoff⟩
  refine ⟨fun t s' hs' => ?_, ?_⟩
  · obtain ⟨node, hs, howner, hcount, hoff⟩ := h.root t s' (hroots ▸ hs')
    obtain ⟨node', hs'', howner', hcount', hoff', -⟩ := hext.nodes s' node hs
    exact ⟨node', hs'', howner'.trans howner, hcount'.trans hcount, hoff'.trans hoff⟩
  · unfold transition at ht
    obtain ⟨node, hs, heq⟩ := Option.map_eq_some_iff.mp ht
    cases htrans : node.transitions name with
    | some next' =>
      rw [htrans] at heq
      cases heq
      exact h.next
    | none =>
      rw [htrans] at heq
      cases heq
      intro s' node' hs' name' next' hn'
      dsimp only at hs'
      rw [List.getElem?_append, List.length_set] at hs'
      split at hs'
      next hlt =>
        rw [List.getElem?_set] at hs'
        split at hs'
        next hss =>
          subst hss
          rw [if_pos hlt] at hs'
          cases hs'
          dsimp only at hn' ⊢
          by_cases hname : name' = name
          · subst hname
            obtain rfl : H.nodes.length = next' := by
              rw [Function.update_self] at hn'
              exact Option.some.inj hn'
            refine ⟨⟨node.ownerType, node.slotCount + 1, emplaceOffset node.offsets name' node.slotCount, fun _ => none⟩, ?_,
              rfl, rfl, rfl⟩
            rw [List.getElem?_append_right (by simp), List.length_set, Nat.sub_self]
            rfl
          · rw [Function.update_of_ne hname] at hn'
            exact hmoved s node hs name' next' hn'
        next => exact hmoved s' node' hs' name' next' hn'
      next =>
        obtain rfl : _ = node' := List.mem_singleton.mp (List.mem_of_getElem? hs') |>.symm
        cases hn'

theorem Leads.linked (h : H.Leads H') (hH : H.Linked) : H'.Linked := by
  induction h with
  | refl => exact hH
  | root t _ ih => exact ih.rooted t
  | transition _ ht ih => exact ih.transitioned ht

omit [DecidableEq τ] in
theorem emplaceOffset_lookup {shape : Shape τ} {offsets : String → Option Nat} (hin : name ∉ shape.names)
    (h : ∀ n, offsets n = shape.lookup n) (n : String) :
    emplaceOffset offsets name shape.slotCount n = (shape.transition name).lookup n := by
  have hlookup : shape.lookup name = none := if_neg hin
  unfold emplaceOffset
  rw [h name, hlookup, Option.getD_none, Shape.lookup_transition hlookup]
  split
  next hn => rw [hn, Function.update_self]
  next hn => rw [Function.update_of_ne hn, h n]

omit [DecidableEq τ] in
/-- **A shape is its names**: the object has their number of slots and, if no name was added twice, each at its place. -/
theorem Represents.sound (h : H.Linked) {shape : Shape τ} (hs : H.Represents s shape) :
    ∃ node : ShapeNode τ, H.nodes[s]? = some node ∧ node.ownerType = shape.ownerType ∧ node.slotCount = shape.slotCount ∧
      (shape.names.Nodup → ∀ n, node.offsets n = shape.lookup n) := by
  induction hs with
  | root hroot =>
    obtain ⟨node, hs, howner, hcount, hoff⟩ := h.root _ _ hroot
    exact ⟨node, hs, howner, hcount, fun _ n => by rw [hoff]; simp [Shape.lookup, Shape.root]⟩
  | @transition s next node shape name _ hs hnext ih =>
    obtain ⟨node₁, hs₁, howner, hcount, hoff⟩ := ih
    obtain rfl := Option.some.inj (hs.symm.trans hs₁)
    obtain ⟨node', hs', howner', hcount', hoff'⟩ := h.next _ _ hs _ _ hnext
    refine ⟨node', hs', howner'.trans howner, hcount'.trans ?_, fun hnodup n => ?_⟩
    · rw [hcount]
      simp [Shape.slotCount, Shape.transition]
    · have hparts := List.nodup_append.mp hnodup
      have hin : name ∉ shape.names := fun hmem => hparts.2.2 name hmem name (List.mem_singleton_self name) rfl
      rw [hoff', hcount]
      exact emplaceOffset_lookup hin (hoff hparts.1) n

end ShapeTree

end Pylang.Runtime
