/-
When the resolver keeps a name local to the function that binds it. A name is
kept by the first operation that finds nothing in the way, and stays kept; a
closure's store that sees a cell, a free variable or a global of the name around
it, or that comes after a load, does not keep it.
-/
import Pylang.Front.Resolve

namespace Pylang.Front

/-! ### Symbol maps -/

namespace SymbolMap

variable {m : SymbolMap} {n n' : String} {v : Visibility}

/-- The symbols a function gets: LOCAL, CELL, FREE or global. -/
def FunctionSymbol (v : Visibility) : Prop := v ≠ .hidden ∧ v ≠ .name

/-- The symbols of a function's scope: no name has two of them. -/
structure Plain (m : SymbolMap) : Prop where
  ofFunction : ∀ s ∈ m, FunctionSymbol s.2
  nodup : (m.map (·.1)).Nodup

theorem Plain.shown (h : m.Plain) : ∀ s ∈ m, s.2 ≠ .hidden := fun s hs => (h.ofFunction s hs).1

theorem Plain.visible_ne_name (h : m.Plain) : m.visible n ≠ some .name := by
  unfold visible
  intro heq
  obtain ⟨s, hs, hname⟩ := Option.map_eq_some_iff.mp heq
  exact (h.ofFunction s (List.mem_of_find?_eq_some hs)).2 hname

theorem Plain.tail {s : String × Visibility} (h : Plain (s :: m)) : m.Plain :=
  ⟨fun t ht => h.ofFunction t (List.mem_cons_of_mem _ ht), (List.nodup_cons.mp h.nodup).2⟩

theorem visible_ne_hidden : m.visible n ≠ some .hidden := by
  unfold visible
  intro heq
  obtain ⟨s, hs, hhidden⟩ := Option.map_eq_some_iff.mp heq
  have hp := List.find?_some hs
  simp [hhidden] at hp

theorem visible_append (m m' : SymbolMap) (n : String) :
    visible (m ++ m') n = (visible m n).or (visible m' n) := by
  simp only [visible, List.find?_append]
  cases m.find? fun s => s.1 == n && s.2 != .hidden <;> rfl

theorem visible_add (hv : v ≠ .hidden) :
    (m.add n v).visible n' = if n' = n ∧ m.visible n = none then some v else m.visible n' := by
  unfold add
  rw [if_neg hv]
  by_cases hn : (m.visible n).isSome
  · have hne : m.visible n ≠ none := Option.isSome_iff_ne_none.mp hn
    rw [if_pos hn, if_neg (fun h => hne h.2)]
  · have hnone : m.visible n = none := by simpa using hn
    rw [if_neg hn, visible_append]
    by_cases heq : n' = n
    · subst heq
      rw [if_pos ⟨rfl, hnone⟩, hnone]
      simp [visible, hv]
    · rw [if_neg (fun h => heq h.1)]
      have hother : visible [(n, v)] n' = none := by simp [visible, Ne.symm heq]
      rw [hother, Option.or_none]

theorem visible_add_hidden : (m.add n .hidden).visible n' = m.visible n' := by
  unfold add
  rw [if_pos rfl]
  split
  · rfl
  · rw [visible_append]
    simp [visible]

theorem visible_eq_none_iff (h : m.Plain) : m.visible n = none ↔ n ∉ m.map (·.1) := by
  simp only [visible, Option.map_eq_none_iff, List.find?_eq_none, List.mem_map, not_exists, not_and]
  constructor
  · intro hnone s hs hname
    exact hnone s hs (by simp [hname, h.shown s hs])
  · intro hnot s hs hp
    exact hnot s hs (by simpa using (Bool.and_eq_true_iff.mp hp).1)

theorem Plain.add (h : m.Plain) (hv : FunctionSymbol v) : (m.add n v).Plain := by
  unfold SymbolMap.add
  rw [if_neg hv.1]
  split
  · exact h
  · next hn =>
    have hnone : m.visible n = none := by simpa using hn
    refine ⟨fun s hs => ?_, ?_⟩
    · rcases List.mem_append.mp hs with hs | hs
      · exact h.ofFunction s hs
      · rw [List.mem_singleton.mp hs]
        exact hv
    · rw [List.map_append, List.nodup_append]
      refine ⟨h.nodup, by simp, fun a ha b hb => ?_⟩
      rw [List.mem_singleton.mp hb]
      intro h
      obtain rfl := h
      exact (visible_eq_none_iff h).mp hnone ha

theorem Plain.erase (h : m.Plain) : (m.erase n).Plain where
  ofFunction s hs := h.ofFunction s (List.mem_of_mem_eraseP hs)
  nodup := h.nodup.sublist (List.eraseP_sublist.map _)

theorem visible_erase (h : m.Plain) :
    (m.erase n).visible n' = if n' = n then none else m.visible n' := by
  induction m with
  | nil => simp [SymbolMap.erase, visible]
  | cons s m ih =>
    have hm : Plain m := h.tail
    have hnotin := (List.nodup_cons.mp h.nodup).1
    have hs := h.shown s List.mem_cons_self
    unfold SymbolMap.erase at ih ⊢
    by_cases hname : s.1 = n
    · rw [List.eraseP_cons_of_pos (by simpa using hname)]
      by_cases heq : n' = n
      · rw [if_pos heq, heq]
        exact (visible_eq_none_iff hm).mpr (hname ▸ hnotin)
      · have hne : s.1 ≠ n' := fun h => heq (h ▸ hname)
        rw [if_neg heq]
        simp [visible, hne]
    · rw [List.eraseP_cons_of_neg (by simpa using hname)]
      by_cases hs' : s.1 = n'
      · have hne : n' ≠ n := fun h => hname (hs'.trans h)
        rw [if_neg hne]
        simp [visible, hs', hs]
      · have hcons : ∀ t : SymbolMap, visible (s :: t) n' = visible t n' := by
          intro t
          simp [visible, hs']
        rw [hcons, hcons, ih hm]

theorem get_eq_visible (h : m.Plain) : m.get n = m.visible n := by
  induction m with
  | nil => rfl
  | cons s m ih =>
    have hm : Plain m := h.tail
    have hs := h.shown s List.mem_cons_self
    have ih := ih hm
    unfold get visible at ih ⊢
    by_cases hname : s.1 = n
    · simp [hname, hs]
    · simpa [hname] using ih

theorem contains_iff (h : m.Plain) : m.contains n = true ↔ m.visible n ≠ none := by
  rw [ne_eq, visible_eq_none_iff h]
  simp [contains, List.mem_map]

end SymbolMap

theorem length_of_mem_outers : ∀ {id q : ScopeId}, q ∈ outers id → q.length < id.length
  | _ :: s :: p, q, h => by
    rcases List.mem_cons.mp h with rfl | h
    · simp
    · have hlt := length_of_mem_outers h
      simp only [List.length_cons] at hlt ⊢
      omega

/-- A function or a closure. -/
def FunctionLike (id : ScopeId) : Prop := typeOf id = .function ∨ typeOf id = .closure

namespace Scopes

variable {σ σ' : Scopes} {q id : ScopeId} {m n : String}

theorem topLevelNode_some (h : σ.topLevelNode q n = some id) :
    id ∈ outers q ∧ σ.visible id n ≠ none := by
  have hp := List.find?_some h
  exact ⟨List.dropLast_subset _ (List.mem_of_find?_eq_some h), Option.isSome_iff_ne_none.mp hp⟩

theorem not_mem_chain (h : σ.topLevelNode q n = some id) : id ∉ chain q id := by
  intro hmem
  rcases List.mem_cons.mp hmem with rfl | hmem
  · have hlt := length_of_mem_outers (topLevelNode_some h).1
    omega
  · have hall := List.all_takeWhile (l := outers q) (p := (· != id))
    simpa using List.all_eq_true.mp hall id hmem

theorem visible_modify (f : SymbolMap → SymbolMap) :
    (σ.modify q f).visible id n = if id = q then (f (σ q).symbols).visible n else σ.visible id n := by
  unfold visible modify
  by_cases h : id = q
  · subst h
    simp
  · simp [h]

theorem visible_add {v : Visibility} (hv : v ≠ .hidden) :
    (σ.add q m v).visible id n =
      if id = q ∧ n = m ∧ σ.visible q m = none then some v else σ.visible id n := by
  unfold add
  rw [visible_modify]
  by_cases h : id = q
  · subst h
    rw [if_pos rfl, SymbolMap.visible_add hv]
    simp [visible]
  · simp [h]

theorem visible_add_hidden : (σ.add q m .hidden).visible id n = σ.visible id n := by
  unfold add
  rw [visible_modify]
  split
  · next h => rw [SymbolMap.visible_add_hidden, h]; rfl
  · rfl

theorem visible_replace {v : Visibility} (hv : v ≠ .hidden) (h : (σ q).symbols.Plain) :
    (σ.replace q m v).visible id n = if id = q ∧ n = m then some v else σ.visible id n := by
  unfold replace
  rw [visible_modify]
  by_cases hid : id = q
  · subst hid
    rw [if_pos rfl, SymbolMap.visible_add hv, SymbolMap.visible_erase h, SymbolMap.visible_erase h]
    by_cases hn : n = m
    · simp [hn]
    · simp [hn, visible]
  · simp [hid]

/-- LOCAL and CELL: the name is the scope's own. -/
def Own (v : Option Visibility) : Prop := v = some .local ∨ v = some .cell

theorem own_add {v : Visibility} (hv : v ≠ .hidden) :
    Own ((σ.add q m v).visible id n) ↔
      Own (σ.visible id n) ∨ (q = id ∧ m = n ∧ σ.visible id n = none ∧ Own (some v)) := by
  rw [visible_add hv]
  split
  · next h =>
    obtain ⟨rfl, rfl, hnone⟩ := h
    simp [hnone, Own]
  · next h =>
    constructor
    · exact Or.inl
    · rintro (h' | ⟨rfl, rfl, hnone, -⟩)
      · exact h'
      · exact absurd ⟨rfl, rfl, hnone⟩ h

theorem own_add_other {v : Visibility} (hv : v ≠ .hidden) (ho : ¬ Own (some v)) :
    Own ((σ.add q m v).visible id n) ↔ Own (σ.visible id n) := by
  rw [own_add hv]
  exact ⟨fun h => h.resolve_right fun h' => ho h'.2.2.2, Or.inl⟩

/-- An annotation of `m` in `q` ends at `id` and makes it a cell. -/
def Reaches (σ : Scopes) (q : ScopeId) (m : String) (id : ScopeId) (n : String) : Prop :=
  m = n ∧ σ.topLevelNode q m = some id ∧ σ.visible id n ≠ some .free

theorem own_annotate (h : (σ id).symbols.Plain) :
    Own ((σ.annotate q m).visible id n) ↔ Own (σ.visible id n) ∨ σ.Reaches q m id n := by
  unfold annotate Reaches
  cases htop : σ.topLevelNode q m with
  | none => simp [own_add_other (v := .implicitGlobal) (by simp) (by simp [Own])]
  | some top =>
    have hvis : ∀ e : Entry, (visible (fun _ => e) id n) = e.symbols.visible n := fun _ => rfl
    show Own (SymbolMap.visible (if id ∈ chain q top then _ else _ : Entry).symbols n) ↔ _
    by_cases hchain : id ∈ chain q top
    · rw [if_pos hchain]
      show Own (SymbolMap.visible ((σ id).symbols.add m .free) n) ↔ _
      have hne : top ≠ id := by
        intro h
        obtain rfl := h
        exact not_mem_chain htop hchain
      rw [SymbolMap.visible_add (by simp)]
      split
      · next hn =>
        have hnone : σ.visible id n = none := by rw [hn.1]; exact hn.2
        simp [Own, hnone, hne]
      · simp [hne, visible]
    · rw [if_neg hchain]
      by_cases htopid : id = top
      · subst htopid
        by_cases hfree : σ.visible id m = some .free
        · rw [if_neg (fun hc => hc.2 hfree)]
          constructor
          · exact Or.inl
          · rintro (ho | ⟨rfl, -, hnf⟩)
            · exact ho
            · exact absurd hfree hnf
        · rw [if_pos ⟨rfl, hfree⟩]
          show Own (SymbolMap.visible (((σ id).symbols.erase m).add m .cell) n) ↔ _
          rw [SymbolMap.visible_add (by simp), SymbolMap.visible_erase h, SymbolMap.visible_erase h]
          by_cases hn : n = m
          · subst hn
            simp [Own, hfree]
          · simp [hn, Ne.symm hn, visible]
      · rw [if_neg (fun hc => htopid hc.1)]
        have hne : ¬ top = id := fun hc => htopid hc.symm
        simp [hne, visible]

/-! ### One operation -/

/-- The symbols of a scope are those of a function. -/
def PlainAt (σ : Scopes) (id : ScopeId) : Prop := (σ id).symbols.Plain

theorem plain_modify {f : SymbolMap → SymbolMap} (h : σ.PlainAt id)
    (hf : q = id → (f (σ id).symbols).Plain) : (σ.modify q f).PlainAt id := by
  unfold PlainAt modify
  by_cases hid : id = q
  · rw [if_pos hid]
    exact hf hid.symm
  · rwa [if_neg hid]

theorem plain_add {v : Visibility} (h : σ.PlainAt id) (hv : q = id → SymbolMap.FunctionSymbol v) :
    (σ.add q m v).PlainAt id :=
  plain_modify h fun hq => h.add (hv hq)

theorem plain_annotate (h : σ.PlainAt id) : (σ.annotate q m).PlainAt id := by
  unfold annotate
  cases σ.topLevelNode q m with
  | none => exact plain_add h fun _ => by simp [SymbolMap.FunctionSymbol]
  | some top =>
    show SymbolMap.Plain (if id ∈ chain q top then _ else _ : Entry).symbols
    have hfree : SymbolMap.FunctionSymbol .free := by simp [SymbolMap.FunctionSymbol]
    have hcell : SymbolMap.FunctionSymbol .cell := by simp [SymbolMap.FunctionSymbol]
    split
    · exact h.add hfree
    · split
      · exact h.erase.add hcell
      · exact h

theorem plain_store (hid : FunctionLike id) (h : σ.PlainAt id) : (σ.store q m).PlainAt id := by
  have hlocal : SymbolMap.FunctionSymbol .local := by simp [SymbolMap.FunctionSymbol]
  unfold store
  cases htype : typeOf q with
  | module =>
    dsimp only
    split
    · exact h
    · exact plain_add h fun _ => by simp [SymbolMap.FunctionSymbol]
  | function =>
    dsimp only
    split
    · exact plain_modify h fun _ => h.erase.add hlocal
    · exact h
    · exact plain_add h fun _ => hlocal
  | closure =>
    dsimp only
    split
    · exact h
    · split
      · exact plain_annotate h
      · exact h
      · exact h
      · exact h
      · exact plain_add h fun _ => hlocal
  | «class» =>
    dsimp only
    split
    · exact h
    · refine plain_add h fun hq => ?_
      rw [hq] at htype
      rcases hid with hf | hc
      · rw [hf] at htype; cases htype
      · rw [hc] at htype; cases htype

theorem plain_loadNearest (h : σ.PlainAt id) :
    PlainAt (match σ.nearest q m stopsLoad with
      | some .explicitGlobal => σ.add q m .explicitGlobal
      | some .implicitGlobal | none => σ.add q m .implicitGlobal
      | some _ => σ.annotate q m) id := by
  have hglobal : SymbolMap.FunctionSymbol .implicitGlobal := by simp [SymbolMap.FunctionSymbol]
  split
  · exact plain_add h fun _ => by simp [SymbolMap.FunctionSymbol]
  · exact plain_add h fun _ => hglobal
  · exact plain_add h fun _ => hglobal
  · exact plain_annotate h

theorem plain_loadPlain (hid : FunctionLike id) (h : σ.PlainAt id) :
    (σ.loadPlain q m).PlainAt id := by
  have hglobal : SymbolMap.FunctionSymbol .implicitGlobal := by simp [SymbolMap.FunctionSymbol]
  have hsearch := plain_loadNearest (q := q) (m := m) h
  unfold loadPlain
  cases htype : typeOf q with
  | module =>
    refine plain_add h fun hq => ?_
    rw [hq] at htype
    rcases hid with hf | hc
    · rw [hf] at htype; cases htype
    · rw [hc] at htype; cases htype
  | function => exact plain_add h fun _ => hglobal
  | closure => exact hsearch
  | «class» => exact hsearch

theorem ne_of_class {cls : ScopeId} (hid : FunctionLike id) (hcls : (outers q).find? (typeOf · == .class) = some cls) :
    cls ≠ id := by
  intro h
  obtain rfl := h
  have htype : typeOf cls = .class := by simpa using List.find?_some hcls
  rcases hid with hf | hc
  · rw [hf] at htype; cases htype
  · rw [hc] at htype; cases htype

theorem plain_loadClassRef {cls : ScopeId} (hcls : cls ≠ id) (h : σ.PlainAt id) :
    (σ.loadClassRef q cls).PlainAt id := by
  unfold loadClassRef
  split
  · exact h
  · exact plain_add (plain_annotate h) fun hq => absurd hq hcls

theorem plain_load (hid : FunctionLike id) (h : σ.PlainAt id) : (σ.load q m).PlainAt id := by
  unfold load
  split
  · exact h
  · cases hcls : (outers q).find? (typeOf · == .class) with
    | none => exact plain_loadPlain hid h
    | some cls =>
      have href : (σ.loadClassRef q cls).PlainAt id := plain_loadClassRef (ne_of_class hid hcls) h
      dsimp only
      split
      · exact plain_loadPlain hid href
      · split
        · exact href
        · exact plain_loadPlain hid h

theorem eq_of_declareGlobal (hs : σ.declareGlobal q n = some σ') : σ' = σ.add q n .explicitGlobal := by
  unfold declareGlobal at hs
  split at hs
  all_goals first | exact (Option.some.inj hs).symm | cases hs

theorem eq_of_declareNonlocal (hs : σ.declareNonlocal q n = some σ') : σ' = σ.annotate q n := by
  unfold declareNonlocal at hs
  split at hs
  all_goals first | exact (Option.some.inj hs).symm | cases hs

theorem plain_step {op : Op} (hid : FunctionLike id) (h : σ.PlainAt id) (hs : σ.step q op = some σ') :
    σ'.PlainAt id := by
  have hadd : ∀ {v : Visibility} {n : String}, SymbolMap.FunctionSymbol v → (σ.add q n v).PlainAt id :=
    fun hv => plain_add h fun _ => hv
  cases op with
  | param n =>
    obtain ⟨-, heq⟩ := Option.ite_none_left_eq_some.mp hs
    rw [← Option.some.inj heq]
    exact hadd (by simp [SymbolMap.FunctionSymbol])
  | target n =>
    rw [← Option.some.inj hs]
    exact hadd (by simp [SymbolMap.FunctionSymbol])
  | store n | storeAnonymous n | delete n =>
    rw [← Option.some.inj hs]
    exact plain_store hid h
  | load n | handlerName n =>
    rw [← Option.some.inj hs]
    exact plain_load hid h
  | classCell =>
    rw [← Option.some.inj hs]
    exact hadd (by simp [SymbolMap.FunctionSymbol])
  | «global» n =>
    rw [eq_of_declareGlobal hs]
    exact hadd (by simp [SymbolMap.FunctionSymbol])
  | nonlocal n =>
    rw [eq_of_declareNonlocal hs]
    exact plain_annotate h
  | abort => cases hs

/-! ### What keeps a name -/

theorem nearest_of_topLevelNode {p : Visibility → Bool} {v : Visibility} (htop : σ.topLevelNode q m = some id)
    (hv : σ.visible id m = some v) (hp : p v) : σ.nearest q m p = some v := by
  unfold topLevelNode at htop
  obtain ⟨-, before, after, hsplit, hnone⟩ := List.find?_eq_some_iff_append.mp htop
  obtain ⟨rest, houters⟩ : ∃ rest, outers q = before ++ id :: rest := by
    rcases List.eq_nil_or_concat (outers q) with hnil | ⟨l, last, hlast⟩
    · simp [hnil] at hsplit
    · rw [hlast, List.concat_eq_append, List.dropLast_concat] at hsplit
      exact ⟨after ++ [last], by rw [hlast, List.concat_eq_append, hsplit]; simp⟩
  unfold nearest
  rw [houters, List.findSome?_append]
  have hbefore : before.findSome? (fun q => (σ.visible q m).filter p) = none := by
    rw [List.findSome?_eq_none_iff]
    intro q' hq'
    have hn : σ.visible q' m = none := by simpa using hnone q' hq'
    rw [hn, Option.filter_none]
  rw [hbefore, Option.none_or, List.findSome?_cons, hv]
  simp [Option.filter, hp]

/-- A reference that finds a name of `id` by searching from `q`. -/
theorem own_of_nearest (h : σ.PlainAt id) (hr : σ.Reaches q m id n)
    (hn : ∀ v, σ.nearest q m stopsLoad = some v → v ≠ .implicitGlobal ∧ v ≠ .explicitGlobal) :
    Own (σ.visible id n) := by
  obtain ⟨rfl, htop, hfree⟩ := hr
  have hne := (topLevelNode_some htop).2
  have hname : σ.visible id m ≠ some .name := h.visible_ne_name
  have hhidden : σ.visible id m ≠ some .hidden := fun heq => absurd heq SymbolMap.visible_ne_hidden
  cases hv : σ.visible id m with
  | none => exact absurd hv hne
  | some v =>
    cases v with
    | «local» => exact Or.inl rfl
    | cell => exact Or.inr rfl
    | free => exact absurd hv hfree
    | name => exact absurd hv hname
    | hidden => exact absurd hv hhidden
    | implicitGlobal => exact absurd rfl (hn _ (nearest_of_topLevelNode htop hv rfl)).1
    | explicitGlobal => exact absurd rfl (hn _ (nearest_of_topLevelNode htop hv rfl)).2

theorem own_loadNearest (h : σ.PlainAt id) :
    Own (visible (match σ.nearest q m stopsLoad with
      | some .explicitGlobal => σ.add q m .explicitGlobal
      | some .implicitGlobal | none => σ.add q m .implicitGlobal
      | some _ => σ.annotate q m) id n) ↔ Own (σ.visible id n) := by
  have hglobal : Own ((σ.add q m .implicitGlobal).visible id n) ↔ Own (σ.visible id n) :=
    own_add_other (by simp) (by simp [Own])
  split
  · exact own_add_other (by simp) (by simp [Own])
  · exact hglobal
  · exact hglobal
  · next v hexplicit himplicit hv =>
    rw [own_annotate h]
    refine ⟨fun hor => hor.elim (fun ho => ho) fun hr => own_of_nearest h hr fun v' hv' => ?_, Or.inl⟩
    rw [hv] at hv'
    cases hv'
    exact ⟨fun heq => himplicit heq, fun heq => hexplicit heq⟩

theorem own_loadPlain (h : σ.PlainAt id) :
    Own ((σ.loadPlain q m).visible id n) ↔ Own (σ.visible id n) := by
  have hglobal : Own ((σ.add q m .implicitGlobal).visible id n) ↔ Own (σ.visible id n) :=
    own_add_other (by simp) (by simp [Own])
  have hsearch := own_loadNearest (q := q) (m := m) (n := n) h
  unfold loadPlain
  cases typeOf q with
  | module => exact own_add_other (by simp) (by simp [Own])
  | function => exact hglobal
  | closure => exact hsearch
  | «class» => exact hsearch

/-- A load that refers to the class around it. -/
def RefersToClass (σ : Scopes) (q : ScopeId) (m : String) : Prop :=
  (m = "super" ∨ m = "__class__") ∧ (outers q).any (typeOf · == .class) ∧
    (σ q).symbols.contains m = false ∧ (σ q).symbols.contains "__class__" = false

theorem own_loadClassRef {cls : ScopeId} (h : σ.PlainAt id) :
    Own ((σ.loadClassRef q cls).visible id n) ↔
      Own (σ.visible id n) ∨ ((σ q).symbols.contains "__class__" = false ∧ σ.Reaches q "__class__" id n) := by
  unfold loadClassRef
  cases hc : (σ q).symbols.contains "__class__" with
  | true => simp
  | false =>
    rw [if_neg (by simp), visible_add_hidden, own_annotate h]
    simp

theorem own_load (hid : FunctionLike id) (h : σ.PlainAt id) :
    Own ((σ.load q m).visible id n) ↔
      Own (σ.visible id n) ∨ (σ.RefersToClass q m ∧ σ.Reaches q "__class__" id n) := by
  unfold load RefersToClass
  cases hc : (σ q).symbols.contains m with
  | true => simp
  | false =>
    rw [if_neg (by simp)]
    cases hcls : (outers q).find? (typeOf · == .class) with
    | none =>
      have hany : (outers q).any (typeOf · == .class) = false := by
        rw [List.any_eq_false]
        exact List.find?_eq_none.mp hcls
      dsimp only
      rw [own_loadPlain h, hany]
      simp
    | some cls =>
      have hne := ne_of_class hid hcls
      have hany : (outers q).any (typeOf · == .class) = true :=
        by
        have htype := List.find?_some hcls
        exact List.any_eq_true.mpr ⟨cls, List.mem_of_find?_eq_some hcls, htype⟩
      have href := @own_loadClassRef σ q id n cls h
      have href' : σ.loadClassRef q cls |>.PlainAt id := plain_loadClassRef hne h
      dsimp only
      rw [hany]
      by_cases hsuper : m = "super"
      · rw [if_pos hsuper, own_loadPlain href', href]
        simp [hsuper]
      · by_cases hclass : m = "__class__"
        · rw [if_neg hsuper, if_pos hclass, href]
          subst hclass
          simp
        · rw [if_neg hsuper, if_neg hclass, own_loadPlain h]
          simp [hsuper, hclass]

/-- Nothing is in the way of a binding: a function has no symbol of the name or
took it for a global, a closure has none and the nearest one around is no cell,
free variable or global. -/
def Keeps (σ : Scopes) (id : ScopeId) (n : String) : Prop :=
  match typeOf id with
  | .function => σ.visible id n = none ∨ σ.visible id n = some .implicitGlobal
  | .closure => σ.visible id n = none ∧ ∀ v, σ.nearest id n (fun _ => true) = some v →
      v = .local ∨ v = .name ∨ v = .hidden
  | .module | .class => False

theorem own_replace {v : Visibility} (hv : v ≠ .hidden) (h : σ.PlainAt id) (hq : q = id) :
    Own ((σ.replace q m v).visible id n) ↔ (m = n ∧ Own (some v)) ∨ (m ≠ n ∧ Own (σ.visible id n)) := by
  subst hq
  rw [visible_replace hv h]
  by_cases hn : n = m
  · subst hn
    simp
  · simp [hn, Ne.symm hn]

theorem visible_replace_other {v : Visibility} (hq : q ≠ id) : (σ.replace q m v).visible id n = σ.visible id n := by
  unfold replace
  rw [visible_modify, if_neg (fun h => hq h.symm)]

theorem own_annotate_store (h : σ.PlainAt id) (hcell : σ.nearest q m (fun _ => true) = some .cell) :
    Own ((σ.annotate q m).visible id n) ↔ Own (σ.visible id n) := by
  rw [own_annotate h]
  refine ⟨fun hor => hor.elim (fun ho => ho) fun hr => ?_, Or.inl⟩
  obtain ⟨rfl, htop, -⟩ := hr
  obtain ⟨v, hv⟩ := Option.ne_none_iff_exists'.mp (topLevelNode_some htop).2
  have hnear := nearest_of_topLevelNode (p := fun _ => true) htop hv rfl
  rw [hcell] at hnear
  cases hnear
  exact Or.inr hv

theorem own_store_function (h : σ.PlainAt id) (hid : typeOf q = .function) :
    Own ((σ.store q m).visible id n) ↔
      Own (σ.visible id n) ∨ (q = id ∧ m = n ∧ (σ.visible id n = none ∨ σ.visible id n = some .implicitGlobal)) := by
  unfold store
  rw [hid]
  dsimp only
  by_cases hq : q = id
  · subst hq
    have hget : (σ q).symbols.get m = σ.visible q m := SymbolMap.get_eq_visible h
    rw [hget]
    cases hv : σ.visible q m with
    | none =>
      dsimp only
      rw [own_add (by simp)]
      refine or_congr_right ⟨fun hc => ⟨hc.1, hc.2.1, Or.inl hc.2.2.1⟩, fun hc => ⟨rfl, hc.2.1, ?_, Or.inl rfl⟩⟩
      rw [← hc.2.1, hv]
    | some v =>
      cases v with
      | implicitGlobal =>
        dsimp only
        rw [own_replace (by simp) h rfl]
        by_cases hmn : m = n
        · subst hmn
          simp [hv, Own]
        · simp [hmn]
      | explicitGlobal | name | «local» | cell | free | hidden =>
        refine ⟨Or.inl, fun hor => hor.elim (fun ho => ho) fun hc => ?_⟩
        obtain ⟨-, rfl, hn⟩ := hc
        rw [hv] at hn
        simp at hn
  · rw [or_iff_left fun hc => hq hc.1]
    split
    · rw [visible_replace_other hq]
    · exact Iff.rfl
    · rw [own_add (by simp)]
      simp [hq]

theorem own_store_closure (h : σ.PlainAt id) (hid : typeOf q = .closure) :
    Own ((σ.store q m).visible id n) ↔
      Own (σ.visible id n) ∨ (q = id ∧ m = n ∧ σ.visible id n = none ∧
        ∀ v, σ.nearest id n (fun _ => true) = some v → v = .local ∨ v = .name ∨ v = .hidden) := by
  have hkept : (q = id ∧ m = n ∧ σ.visible id n = none ∧
      ∀ v, σ.nearest id n (fun _ => true) = some v → v = .local ∨ v = .name ∨ v = .hidden) ↔
      (q = id ∧ m = n ∧ σ.visible id n = none) ∧
        ∀ v, σ.nearest q m (fun _ => true) = some v → v = .local ∨ v = .name ∨ v = .hidden := by
    constructor
    · intro h
      obtain ⟨rfl, rfl, hn, hv⟩ := h
      exact ⟨⟨rfl, rfl, hn⟩, hv⟩
    · intro h
      obtain ⟨⟨rfl, rfl, hn⟩, hv⟩ := h
      exact ⟨rfl, rfl, hn, hv⟩
  rw [hkept]
  unfold store
  rw [hid]
  dsimp only
  cases hc : (σ q).symbols.contains m with
  | true =>
    rw [if_pos rfl]
    refine ⟨Or.inl, fun hor => hor.elim (fun ho => ho) fun hk => ?_⟩
    obtain ⟨⟨rfl, rfl, hn⟩, -⟩ := hk
    exact absurd hn ((SymbolMap.contains_iff h).mp hc)
  | false =>
    rw [if_neg (by simp)]
    have hlocal : Own ((σ.add q m .local).visible id n) ↔
        Own (σ.visible id n) ∨ (q = id ∧ m = n ∧ σ.visible id n = none) := by
      rw [own_add (by simp)]
      simp [Own]
    cases hnear : σ.nearest q m (fun _ => true) with
    | none =>
      dsimp only
      rw [hlocal]
      simp
    | some v =>
      cases v with
      | «local» | name | hidden =>
        dsimp only
        rw [hlocal]
        simp
      | cell =>
        dsimp only
        rw [own_annotate_store h hnear]
        simp
      | free | implicitGlobal | explicitGlobal => simp

theorem own_store (hid : FunctionLike id) (h : σ.PlainAt id) :
    Own ((σ.store q m).visible id n) ↔ Own (σ.visible id n) ∨ (q = id ∧ m = n ∧ σ.Keeps id n) := by
  have hother : typeOf q = .module ∨ typeOf q = .class → ¬ (q = id ∧ m = n ∧ σ.Keeps id n) := by
    rintro (htype | htype) ⟨rfl, -, hkeeps⟩
    · unfold Keeps at hkeeps
      rw [htype] at hkeeps
      exact hkeeps
    · unfold Keeps at hkeeps
      rw [htype] at hkeeps
      exact hkeeps
  cases htype : typeOf q with
  | function =>
    rw [own_store_function h htype]
    refine or_congr_right (and_congr_right fun hq => and_congr_right fun _ => ?_)
    unfold Keeps
    rw [← hq, htype]
  | closure =>
    rw [own_store_closure h htype]
    refine or_congr_right (and_congr_right fun hq => and_congr_right fun _ => ?_)
    unfold Keeps
    rw [← hq, htype]
  | module =>
    rw [or_iff_left (hother (Or.inl htype))]
    unfold store
    rw [htype]
    dsimp only
    split
    · exact Iff.rfl
    · exact own_add_other (by simp) (by simp [Own])
  | «class» =>
    rw [or_iff_left (hother (Or.inr htype))]
    unfold store
    rw [htype]
    dsimp only
    split
    · exact Iff.rfl
    · rw [visible_add_hidden]

/-- The operation, done in `q`, makes `n` a name of `id`'s own. -/
def Settles (σ : Scopes) (q id : ScopeId) (n : String) : Op → Prop
  | .param m | .target m => q = id ∧ m = n ∧ σ.visible id n = none
  | .store m | .storeAnonymous m | .delete m => q = id ∧ m = n ∧ σ.Keeps id n
  | .load m | .handlerName m => σ.RefersToClass q m ∧ σ.Reaches q "__class__" id n
  | .classCell => q = id ∧ "__class__" = n ∧ σ.visible id n = none
  | .nonlocal m => σ.Reaches q m id n
  | .global _ | .abort => False

theorem own_step {op : Op} (hid : FunctionLike id) (h : σ.PlainAt id) (hs : σ.step q op = some σ') :
    Own (σ'.visible id n) ↔ Own (σ.visible id n) ∨ σ.Settles q id n op := by
  have hlocal : ∀ m, Own ((σ.add q m .local).visible id n) ↔
      Own (σ.visible id n) ∨ (q = id ∧ m = n ∧ σ.visible id n = none) := by
    intro m
    rw [own_add (by simp)]
    simp [Own]
  cases op with
  | param m =>
    obtain ⟨-, heq⟩ := Option.ite_none_left_eq_some.mp hs
    rw [← Option.some.inj heq]
    exact hlocal m
  | target m =>
    rw [← Option.some.inj hs]
    exact hlocal m
  | store m | storeAnonymous m | delete m =>
    rw [← Option.some.inj hs]
    exact own_store hid h
  | load m | handlerName m =>
    rw [← Option.some.inj hs]
    exact own_load hid h
  | classCell =>
    rw [← Option.some.inj hs, own_add (by simp)]
    simp [Own, Settles]
  | «global» m =>
    rw [eq_of_declareGlobal hs, own_add_other (by simp) (by simp [Own])]
    simp [Settles]
  | nonlocal m =>
    rw [eq_of_declareNonlocal hs]
    exact own_annotate h
  | abort => cases hs

/-- Some operation of the run settles `n` in `id`, in the state it is done in. -/
def SettledIn (id : ScopeId) (n : String) : Scopes → List (ScopeId × Op) → Prop
  | _, [] => False
  | σ, s :: rest => σ.Settles s.1 id n s.2 ∨ ∃ σ', σ.step s.1 s.2 = some σ' ∧ SettledIn id n σ' rest

theorem own_run (hid : FunctionLike id) : ∀ {ops : List (ScopeId × Op)} {σ : Scopes}, σ.PlainAt id →
    σ.run ops = some σ' → (Own (σ'.visible id n) ↔ Own (σ.visible id n) ∨ SettledIn id n σ ops)
  | [], σ, _, hr => by
    rw [← Option.some.inj hr]
    simp [SettledIn]
  | s :: rest, σ, h, hr => by
    obtain ⟨σ₁, hs, hrest⟩ := Option.bind_eq_some_iff.mp hr
    have hstep := own_step (n := n) hid h hs
    rw [own_run hid (plain_step hid h hs) hrest, hstep, or_assoc]
    simp [SettledIn, hs]

end Scopes

/-- The name an operation binds in its scope. -/
def Op.binds : Op → Option String
  | .param n | .target n | .store n | .delete n | .handlerName n => some n
  | _ => none

/-- A name of a function that is bound in it and not declared global or nonlocal. -/
structure BoundIn (body : List Stmt) (id : ScopeId) (n : String) : Prop where
  function : FunctionLike id
  bound : ∃ op, (id, op) ∈ resolverRun body ∧ op.binds = some n
  notGlobal : (id, .global n) ∉ resolverRun body
  notNonlocal : (id, .nonlocal n) ∉ resolverRun body

/-- Every name bound in a function is LOCAL or CELL there. -/
def BindingsOwned (body : List Stmt) (σ : Scopes) : Prop :=
  ∀ id n, BoundIn body id n → σ.visible id n = some .local ∨ σ.visible id n = some .cell

/-- The names bound in functions are theirs exactly when each is settled by
some operation of the run. -/
theorem bindingsOwned_iff (body : List Stmt) (σ : Scopes) (h : resolve body = some σ) :
    BindingsOwned body σ ↔
      ∀ id n, BoundIn body id n → Scopes.SettledIn id n (fun _ => ⟨[], []⟩) (resolverRun body) := by
  refine forall_congr' fun id => forall_congr' fun n => imp_congr_right fun hb => ?_
  have hplain : Scopes.PlainAt (fun _ => ⟨[], []⟩) id := ⟨by simp, by simp⟩
  have hrun := Scopes.own_run (n := n) hb.function hplain h
  have hinit : ¬ Scopes.Own (Scopes.visible (fun _ => ⟨[], []⟩) id n) := by
    simp [Scopes.Own, Scopes.visible, SymbolMap.visible]
  exact hrun.trans (or_iff_right hinit)

/-- `x = 1` -/
def assignX : Stmt := .assign [.name "x"] (.constant (.int 1))

/-- A function without parameters. -/
def define (name : String) (body : List Stmt) : Stmt :=
  .functionDef name ⟨1, 1⟩ ⟨[], [], [], none, none⟩ [] none [] [] body []

/-- A function that assigns `x`, which a function in it reads. -/
def assignedAndRead : List Stmt := [define "f" [assignX, define "g" [.expression (.name "x")]]]

theorem bindingsOwned_iff_assigned : ∃ σ, resolve assignedAndRead = some σ ∧
    (BindingsOwned assignedAndRead σ ↔ ∀ id n, BoundIn assignedAndRead id n →
      Scopes.SettledIn id n (fun _ => ⟨[], []⟩) (resolverRun assignedAndRead)) := by
  have hresolved : (resolve assignedAndRead).isSome := by decide
  obtain ⟨σ, hσ⟩ := Option.isSome_iff_exists.mp hresolved
  exact ⟨σ, hσ, bindingsOwned_iff _ σ hσ⟩

/-- A function in a function that reads `x` and then assigns it. -/
def readThenAssign : List Stmt := [define "f" [define "g" [.expression (.name "x"), assignX]]]

/-- In a closure the load has made `x` a global, and the store leaves it so; in
a function the store of `x` takes it back. -/
theorem readThenAssign_global : ∃ σ, resolve readThenAssign = some σ ∧ ¬ BindingsOwned readThenAssign σ := by
  have hglobal : (resolve readThenAssign).map
      (fun σ => σ.visible [(0, .closure), (0, .function), (0, .module)] "x") = some (some .implicitGlobal) := by
    decide
  obtain ⟨σ, hσ, hx⟩ := Option.map_eq_some_iff.mp hglobal
  refine ⟨σ, hσ, fun howned => ?_⟩
  have hbound : BoundIn readThenAssign [(0, .closure), (0, .function), (0, .module)] "x" :=
    { function := Or.inr rfl
      bound := ⟨.store "x", by decide, rfl⟩
      notGlobal := by decide
      notNonlocal := by decide }
  have hor := howned _ _ hbound
  rw [hx] at hor
  rcases hor with h | h
  · cases h
  · cases h

end Pylang.Front
