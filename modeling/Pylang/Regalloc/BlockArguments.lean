/-
Block arguments in the live analyses. Both allocators start from timesteps that
list values (`base`) and from the values forwarded to block arguments
(`params`), and replace every listed value that is forwarded to an argument by
that argument. An argument is linked to what is forwarded to it only when its
own block lists it (`Linked`), and a chain of links is followed to its end
(`root`), each value once: a value linked to two arguments stops the analysis
(the assertion on the mapping's size), and so does a cycle of arguments, on
which the source's loop does not end.
-/
import Mathlib.Data.List.Sort
import Mathlib.Logic.Relation
import Pylang.Lib.ListFacts
import Pylang.Regalloc.Ir

namespace Pylang.Regalloc

/-- `block_input_mappings`: the block arguments a value is forwarded to, by address. -/
abbrev InputMappings := ValueMapping (List Value)

/-- An entry of `alive_at_timestep` while it is built. -/
inductive Alive where
  | var (x : Var)
  | blockArgumentInputs (arg : Value) (params : List Var)
deriving DecidableEq

/-- `LiveAnalysis`, after `analyse`: no `BlockArgumentInputs` is left. -/
structure LiveAnalysis where
  aliveAtTimestep : List (List Var)
  blockInputMappings : InputMappings

/-- One entry of the argument's own block, for one value forwarded to it. -/
def substitute (param : Var) (arg : Value) : Alive → Alive
  | .var x => if x = .value arg then .blockArgumentInputs arg [param] else .var x
  | .blockArgumentInputs a params =>
    if a = arg then .blockArgumentInputs a (params ++ [param]) else .blockArgumentInputs a params

/-- What an entry is about. -/
def Alive.subject : Alive → Var
  | .var x => x
  | .blockArgumentInputs arg _ => .value arg

/-- One round of the loop over `block_parameters_to_args`. -/
def propagate (fn : Func) (s : List (List Alive) × InputMappings) (pa : Var × Value) :
    List (List Alive) × InputMappings :=
  let (param, arg) := pa
  match fn.owner arg with
  | none => s
  | some b =>
    let inSpan (t : Nat) : Bool := fn.start b ≤ t && t < fn.stop b
    let hit := s.1.zipIdx.any fun (ts, t) => inSpan t && ts.any (·.subject = .value arg)
    (s.1.mapIdx fun t ts => if inSpan t then ts.map (substitute param arg) else ts,
      if hit then s.2.insertOrAssign param (Lib.setInsert arg ((s.2.find param).getD [])) else s.2)

/-- The loop that follows a value's mappings to the last argument, shortening the first step of the chain as it
goes. A mapping to two arguments fails the assertion; out of fuel, the chain is a cycle. -/
def follow : Nat → InputMappings → Var → Var → Option (InputMappings × Var)
  | 0, _, _, _ => none
  | fuel + 1, m, start, value =>
    match m.find value with
    | none => some (m, value)
    | some [arg] => follow fuel (m.insertOrAssign start [arg]) start (.value arg)
    | some _ => none

/-- One timestep, last entry first. -/
def resolveTimestep (m : InputMappings) : List Alive → Option (InputMappings × List Var)
  | [] => some (m, [])
  | e :: es => do
    let (m, xs) ← resolveTimestep m es
    let (m, x) ← follow (m.entries.length + 2) m e.subject e.subject
    some (m, x :: xs)

/-- All timesteps, last first. -/
def resolve (m : InputMappings) : List (List Alive) → Option (InputMappings × List (List Var))
  | [] => some (m, [])
  | ts :: tss => do
    let (m, xss) ← resolve m tss
    let (m, xs) ← resolveTimestep m ts
    some (m, xs :: xss)

/-- What both analyses do once the timesteps are listed. -/
def LiveAnalysis.ofTimesteps (fn : Func) (base : List (List Var)) (params : List (Var × Value)) : Option LiveAnalysis := do
  let (alive, m) := params.foldl (propagate fn) (base.map (·.map .var), ∅)
  let (m, alive) ← resolve m alive
  some ⟨alive, m⟩

/-! ## Links -/

/-- The block that owns an argument lists it. -/
def UsedInOwner (fn : Func) (base : List (List Var)) (arg : Value) : Prop :=
  ∃ b, fn.owner arg = some b ∧ ∃ t xs, fn.start b ≤ t ∧ t < fn.stop b ∧ base[t]? = some xs ∧ .value arg ∈ xs

/-- `x` is forwarded to the block argument `arg`, and `arg`'s block lists it. -/
def Linked (fn : Func) (base : List (List Var)) (params : List (Var × Value)) (x : Var) (arg : Value) : Prop :=
  (x, arg) ∈ params ∧ UsedInOwner fn base arg

/-- One link of `L`, between values. -/
def Links (L : Var → Value → Prop) (x y : Var) : Prop := ∃ arg, y = .value arg ∧ L x arg

/-- Two values are forwarded to a common block argument, or one of them to the other. -/
def Joined (L : Var → Value → Prop) (x y : Var) : Prop :=
  ∃ z, Relation.ReflTransGen (Links L) x z ∧ Relation.ReflTransGen (Links L) y z

/-- The block argument a value ends up in, or the value itself. -/
def LiveAnalysis.root (la : LiveAnalysis) (x : Var) : Var :=
  match la.blockInputMappings.find x with
  | some (arg :: _) => .value arg
  | _ => x

theorem LiveAnalysis.root_of_find_none {la : LiveAnalysis} {x : Var} (h : la.blockInputMappings.find x = none) :
    la.root x = x := by simp [LiveAnalysis.root, h]

theorem subject_substitute {param : Var} {arg : Value} {e : Alive} : (substitute param arg e).subject = e.subject := by
  cases e with
  | var x =>
    simp only [substitute]
    split
    next h => exact h.symm
    next => rfl
  | blockArgumentInputs a params => simp only [substitute]; split <;> rfl

/-! ## What the propagation links -/

/-- A mapping takes `p` to `a`, possibly among others. -/
def Maps (m : InputMappings) (p : Var) (a : Value) : Prop := ∃ s, m.find p = some s ∧ a ∈ s

/-- The entries are still about the values that were listed. -/
def Subjects (base : List (List Var)) (alive : List (List Alive)) : Prop :=
  alive.map (·.map Alive.subject) = base

section
variable {fn : Func} {base : List (List Var)}

theorem Subjects.getElem {alive : List (List Alive)} (h : Subjects base alive) (t : Nat) :
    (alive[t]?).map (·.map Alive.subject) = base[t]? := by
  simpa using congrArg (·[t]?) h

/-- The propagation finds an entry to replace exactly when the argument is used in its own block. -/
theorem Subjects.hit {alive : List (List Alive)} (h : Subjects base alive) {arg : Value} {b : BlockId}
    (hb : fn.owner arg = some b) :
    (alive.zipIdx.any fun (ts, t) => (decide (fn.start b ≤ t) && decide (t < fn.stop b)) &&
      ts.any (·.subject = .value arg)) = true ↔ UsedInOwner fn base arg := by
  simp only [List.any_eq_true, Bool.and_eq_true, decide_eq_true_eq]
  constructor
  · intro h
    obtain ⟨⟨ts, t⟩, hmem, ⟨hlo, hhi⟩, e, he, hsub⟩ := h
    rw [List.mem_zipIdx_iff_getElem?] at hmem
    have hg := h.getElem t
    rw [hmem] at hg
    exact ⟨b, hb, t, _, hlo, hhi, hg.symm, hsub ▸ List.mem_map_of_mem he⟩
  · intro h
    obtain ⟨b', hb', t, xs, hlo, hhi, hxs, hm⟩ := h
    obtain rfl : b = b' := by simpa [hb] using hb'
    have hg := h.getElem t
    rw [hxs, Option.map_eq_some_iff] at hg
    obtain ⟨ts, hts, rfl⟩ := hg
    obtain ⟨e, he, hsub⟩ := List.mem_map.mp hm
    exact ⟨(ts, t), List.mem_zipIdx_iff_getElem?.mpr hts, ⟨hlo, hhi⟩, e, he, hsub⟩

theorem Subjects.propagate {s : List (List Alive) × InputMappings} (h : Subjects base s.1) (p : Var) (arg : Value) :
    Subjects base (propagate fn s (p, arg)).1 := by
  simp only [Regalloc.propagate]
  split
  next => exact h
  next b hb =>
    rw [Subjects, ← h]
    refine List.ext_getElem? fun t => ?_
    simp only [List.getElem?_map, List.getElem?_mapIdx, Option.map_map]
    refine Option.map_congr fun ts _ => ?_
    simp only [Function.comp_apply]
    split
    next => simp [Function.comp_def, subject_substitute]
    next => rfl

theorem maps_insert {m : InputMappings} {p q : Var} {a b : Value} :
    Maps (m.insertOrAssign p (Lib.setInsert a ((m.find p).getD []))) q b ↔ Maps m q b ∨ (q = p ∧ b = a) := by
  simp only [Maps, Lib.OrdMap.find_insertOrAssign]
  by_cases hq : q = p
  · subst hq
    cases hf : m.find q with
    | none => simp
    | some s => simp [or_comm]
  · simp [hq]

theorem maps_propagate {s : List (List Alive) × InputMappings} (h : Subjects base s.1) {p q : Var} {a b : Value} :
    Maps (propagate fn s (p, a)).2 q b ↔ Maps s.2 q b ∨ ((q = p ∧ b = a) ∧ UsedInOwner fn base a) := by
  simp only [propagate]
  split
  next hb =>
    have hu : ¬UsedInOwner fn base a := fun ⟨_, ho, _⟩ => by simp [hb] at ho
    simp [hu]
  next blk hb =>
    have hhit := h.hit hb
    simp only
    split
    next hh =>
      rw [hhit] at hh
      simp [maps_insert, hh]
    next hh =>
      rw [hhit] at hh
      simp [hh]

theorem propagate_fold (fn : Func) : ∀ (params : List (Var × Value)) {s : List (List Alive) × InputMappings},
    Subjects base s.1 → Subjects base (params.foldl (propagate fn) s).1 ∧
      ∀ q b, Maps (params.foldl (propagate fn) s).2 q b ↔ Maps s.2 q b ∨ Linked fn base params q b
  | [], s, h => by simp [h, Linked]
  | (p, a) :: params, s, h => by
    obtain ⟨h1, h2⟩ := propagate_fold fn params (h.propagate p a)
    refine ⟨h1, fun q b => ?_⟩
    simp only [List.foldl_cons, h2, maps_propagate h, Linked, List.mem_cons, Prod.mk.injEq]
    constructor
    · rintro ((hm | ⟨⟨rfl, rfl⟩, hu⟩) | ⟨hm, hu⟩)
      · exact .inl hm
      · exact .inr ⟨.inl ⟨rfl, rfl⟩, hu⟩
      · exact .inr ⟨.inr hm, hu⟩
    · rintro (hm | ⟨⟨rfl, rfl⟩ | hm, hu⟩)
      · exact .inl (.inl hm)
      · exact .inl (.inr ⟨⟨rfl, rfl⟩, hu⟩)
      · exact .inr ⟨hm, hu⟩

theorem propagate_nonempty (fn : Func) : ∀ (params : List (Var × Value)) {s : List (List Alive) × InputMappings},
    (∀ q l, s.2.find q = some l → l ≠ []) → ∀ q l, (params.foldl (propagate fn) s).2.find q = some l → l ≠ []
  | [], _, h => h
  | (p, a) :: params, s, h => by
    refine propagate_nonempty fn params fun q l hq => ?_
    simp only [propagate] at hq
    split at hq
    next => exact h q l hq
    next =>
      simp only at hq
      split at hq
      next =>
        rw [Lib.OrdMap.find_insertOrAssign] at hq
        split at hq
        next => cases hq; exact List.ne_nil_of_mem (Lib.mem_setInsert.mpr (.inl rfl))
        next => exact h q l hq
      next => exact h q l hq

end

/-! ## Following the links -/

/-- The end of a value's chain of mappings. -/
inductive Final (m : InputMappings) : Var → Var → Prop where
  | done {x} : m.find x = none → Final m x x
  | next {x arg f} : m.find x = some [arg] → Final m (.value arg) f → Final m x f

theorem Final.det {m : InputMappings} {x f g : Var} (h₁ : Final m x f) (h₂ : Final m x g) : f = g := by
  induction h₁ with
  | done hx =>
    cases h₂ with
    | done => rfl
    | next hy _ => rw [hx] at hy; cases hy
  | next hx _ ih =>
    cases h₂ with
    | done hy => rw [hx] at hy; cases hy
    | next hy h => rw [hx] at hy; cases hy; exact ih h

theorem Final.notKey {m : InputMappings} {x f : Var} (h : Final m x f) : m.find f = none := by
  induction h with
  | done hx => exact hx
  | next _ _ ih => exact ih

/-- Shortened chains: the same keys, and every single mapping leads where the original chain leads. -/
structure Shortened (m₀ m : InputMappings) : Prop where
  keys : ∀ x, m.find x = none ↔ m₀.find x = none
  sound : ∀ x arg, m.find x = some [arg] → ∀ f, Final m₀ (.value arg) f → Final m₀ x f

theorem Shortened.refl (m : InputMappings) : Shortened m m := ⟨fun _ => .rfl, fun _ _ h _ hf => .next h hf⟩

/-- One walk along a chain ends at its end, and leaves the walked value mapped straight to it. -/
theorem follow_spec {m₀ : InputMappings} {start : Var} : ∀ {fuel m value m' x}, follow fuel m start value = some (m', x) →
    Shortened m₀ m → (∀ f, Final m₀ value f → Final m₀ start f) →
    (value = start ∨ ∃ b, m.find start = some [b] ∧ value = .value b) →
    Shortened m₀ m' ∧ Final m₀ value x ∧ (∀ y, y ≠ start → m'.find y = m.find y) ∧
      ((m.find start = none ∧ m' = m ∧ x = start) ∨ ∃ b, m'.find start = some [b] ∧ x = .value b)
  | 0, _, _, _, _, h, _, _, _ => by simp [follow] at h
  | fuel + 1, m, value, m', x, h, hs, hstart, hat => by
    simp only [follow] at h
    split at h
    next hv =>
      simp only [Option.some.injEq, Prod.mk.injEq] at h
      obtain ⟨rfl, rfl⟩ := h
      refine ⟨hs, .done ((hs.keys _).mp hv), fun _ _ => rfl, ?_⟩
      rcases hat with rfl | ⟨b, hb, rfl⟩
      · exact .inl ⟨hv, rfl, rfl⟩
      · exact .inr ⟨b, hb, rfl⟩
    next arg hv =>
      have hvs : ∀ f, Final m₀ (.value arg) f → Final m₀ start f := fun f hf => hstart f (hs.sound _ _ hv f hf)
      have hkey : m.find start ≠ none := by
        rcases hat with rfl | ⟨b, hb, rfl⟩
        · simp [hv]
        · simp [hb]
      have hs' : Shortened m₀ (m.insertOrAssign start [arg]) := by
        refine ⟨fun y => ?_, fun y a hy => ?_⟩
        · rw [Lib.OrdMap.find_insertOrAssign]
          split
          next he => subst he; simp [← hs.keys, hkey]
          next => exact hs.keys y
        · rw [Lib.OrdMap.find_insertOrAssign] at hy
          split at hy
          next he => subst he; cases hy; exact hvs
          next => exact hs.sound y a hy
      obtain ⟨h1, h2, h3, h4⟩ := follow_spec h hs' hvs (.inr ⟨arg, by simp, rfl⟩)
      refine ⟨h1, hs.sound _ _ hv _ h2, fun y hy => ?_, .inr ?_⟩
      · rw [h3 y hy, Lib.OrdMap.find_insert_ne hy]
      · rcases h4 with ⟨hn, _⟩ | h4
        · simp at hn
        · exact h4
    next => cases h

/-- A value whose chain has been walked is mapped straight to its end. -/
def Walked (m₀ m : InputMappings) (x : Var) : Prop :=
  m.find x = none ∨ ∃ b, m.find x = some [b] ∧ Final m₀ x (.value b)

theorem follow_entry {m₀ m m' : InputMappings} {fuel x y} (h : follow fuel m x x = some (m', y))
    (hs : Shortened m₀ m) :
    Shortened m₀ m' ∧ Final m₀ x y ∧ Walked m₀ m' x ∧ ∀ z, Walked m₀ m z → Walked m₀ m' z := by
  obtain ⟨h1, h2, h3, h4⟩ := follow_spec h hs (fun _ hf => hf) (.inl rfl)
  have hx : Walked m₀ m' x := by
    rcases h4 with ⟨hn, rfl, _⟩ | ⟨b, hb, rfl⟩
    · exact .inl hn
    · exact .inr ⟨b, hb, h2⟩
  refine ⟨h1, h2, hx, fun z hz => ?_⟩
  by_cases he : z = x
  · exact he ▸ hx
  · simpa only [Walked, h3 z he] using hz

theorem resolveTimestep_spec {m₀ : InputMappings} : ∀ {es m m' xs}, resolveTimestep m es = some (m', xs) →
    Shortened m₀ m → Shortened m₀ m' ∧ List.Forall₂ (Final m₀) (es.map Alive.subject) xs ∧
      (∀ e ∈ es, Walked m₀ m' e.subject) ∧ ∀ z, Walked m₀ m z → Walked m₀ m' z
  | [], m, m', xs, h, hs => by
    simp only [resolveTimestep, Option.some.injEq, Prod.mk.injEq] at h
    obtain ⟨rfl, rfl⟩ := h
    exact ⟨hs, .nil, by simp, fun _ hz => hz⟩
  | e :: es, m, m', xs, h, hs => by
    simp only [resolveTimestep, Option.bind_eq_bind, Option.bind_eq_some_iff, Prod.exists, Option.some.injEq,
      Prod.mk.injEq] at h
    obtain ⟨m1, ys, hes, m2, y, hf, rfl, rfl⟩ := h
    obtain ⟨h1, h2, h3, h4⟩ := resolveTimestep_spec hes hs
    obtain ⟨g1, g2, g3, g4⟩ := follow_entry hf h1
    exact ⟨g1, .cons g2 h2, by simpa using ⟨g3, fun e he => g4 _ (h3 e he)⟩, fun z hz => g4 z (h4 z hz)⟩

theorem resolve_spec {m₀ : InputMappings} : ∀ {tss m m' xss}, resolve m tss = some (m', xss) →
    Shortened m₀ m → Shortened m₀ m' ∧
      List.Forall₂ (List.Forall₂ (Final m₀)) (tss.map (·.map Alive.subject)) xss ∧
      (∀ ts ∈ tss, ∀ e ∈ ts, Walked m₀ m' e.subject) ∧ ∀ z, Walked m₀ m z → Walked m₀ m' z
  | [], m, m', xss, h, hs => by
    simp only [resolve, Option.some.injEq, Prod.mk.injEq] at h
    obtain ⟨rfl, rfl⟩ := h
    exact ⟨hs, .nil, by simp, fun _ hz => hz⟩
  | ts :: tss, m, m', xss, h, hs => by
    simp only [resolve, Option.bind_eq_bind, Option.bind_eq_some_iff, Prod.exists, Option.some.injEq,
      Prod.mk.injEq] at h
    obtain ⟨m1, yss, htss, m2, ys, hts, rfl, rfl⟩ := h
    obtain ⟨h1, h2, h3, h4⟩ := resolve_spec htss hs
    obtain ⟨g1, g2, g3, g4⟩ := resolveTimestep_spec hts h1
    exact ⟨g1, .cons g2 h2, by simpa using ⟨g3, fun ts hts e he => g4 _ (h3 ts hts e he)⟩, fun z hz => g4 z (h4 z hz)⟩

theorem root_of_walked (la : LiveAnalysis) {m₀ : InputMappings} {x f : Var} (hs : Shortened m₀ la.blockInputMappings)
    (hw : Walked m₀ la.blockInputMappings x) (hf : Final m₀ x f) : la.root x = f := by
  rcases hw with hn | ⟨b, hb, hfb⟩
  · cases hf with
    | done => simp [LiveAnalysis.root, hn]
    | next hx => rw [(hs.keys x).mp hn] at hx; cases hx
  · simp [LiveAnalysis.root, hb, hfb.det hf]

theorem Final.reach {L : Var → Value → Prop} {m : InputMappings} (hm : ∀ p b, Maps m p b ↔ L p b) {x f : Var}
    (h : Final m x f) : Relation.ReflTransGen (Links L) x f := by
  induction h with
  | done => exact .refl
  | next hx _ ih => exact .head ⟨_, rfl, (hm _ _).mp ⟨_, hx, by simp⟩⟩ ih

/-! ## What the analysis leaves -/

/-- Some timestep lists `x`. -/
def Mentioned (base : List (List Var)) (x : Var) : Prop := ∃ xs ∈ base, x ∈ xs

/-- What the live analysis computes from timesteps and links: each timestep lists the roots of what it listed, linked
values have one root, and the mappings left take a value straight to its root. -/
structure LiveAnalysis.Resolves (base : List (List Var)) (L : Var → Value → Prop) (la : LiveAnalysis) : Prop where
  length : la.aliveAtTimestep.length = base.length
  alive : ∀ (t : Nat) (xs ys : List Var), base[t]? = some xs → la.aliveAtTimestep[t]? = some ys →
    ∀ y, y ∈ ys ↔ ∃ x ∈ xs, y = la.root x
  linked : ∀ x arg, L x arg → la.root x = la.root (.value arg)
  mapping : ∀ x s, la.blockInputMappings.find x = some s → ∃ arg, s = [arg] ∧ la.root x = .value arg
  isKey : ∀ x s, la.blockInputMappings.find x = some s → Mentioned base x ∧ ∃ arg, L x arg
  root_notKey : ∀ x, Mentioned base x → la.blockInputMappings.find (la.root x) = none
  reach : ∀ x, Mentioned base x → Relation.ReflTransGen (Links L) x (la.root x)

/-- **The live analysis resolves its timesteps**, when they list what is forwarded. -/
theorem LiveAnalysis.resolves {fn : Func} {base : List (List Var)} {params : List (Var × Value)} {la : LiveAnalysis}
    (h : LiveAnalysis.ofTimesteps fn base params = some la) (hparams : ∀ x a, (x, a) ∈ params → Mentioned base x) :
    la.Resolves base (Linked fn base params) := by
  simp only [ofTimesteps, Option.bind_eq_bind, Option.bind_eq_some_iff, Option.some.injEq] at h
  obtain ⟨⟨m, xss⟩, hres, rfl⟩ := h
  have hinit : Subjects base (base.map (·.map Alive.var)) := by
    simp [Subjects, Function.comp_def, Alive.subject]
  obtain ⟨hsub, hmaps⟩ := propagate_fold fn params (s := (base.map (·.map Alive.var), ∅)) hinit
  have hne := propagate_nonempty fn params (s := (base.map (·.map Alive.var), ∅)) (by simp)
  generalize params.foldl (propagate fn) (base.map (·.map Alive.var), ∅) = s at hres hsub hmaps hne
  have hlink : ∀ x b, Maps s.2 x b ↔ Linked fn base params x b := fun x b => by
    rw [hmaps]
    simp [Maps]
  have hmention : ∀ x b, Linked fn base params x b → Mentioned base x := fun x b hb => hparams x b hb.1
  obtain ⟨hshort, hfinal, hwalk, _⟩ := resolve_spec hres (Shortened.refl _)
  rw [hsub] at hfinal
  have hwalked : ∀ x, Mentioned base x → Walked s.2 m x := by
    intro x h
    obtain ⟨xs, hxs, hx⟩ := h
    rw [← hsub] at hxs
    obtain ⟨ts, hts, rfl⟩ := List.mem_map.mp hxs
    obtain ⟨e, he, rfl⟩ := List.mem_map.mp hx
    exact hwalk ts hts e he
  let la : LiveAnalysis := ⟨xss, m⟩
  have hroot : ∀ x, Mentioned base x → Final s.2 x (la.root x) := by
    intro x h
    obtain ⟨xs, hxs, hx⟩ := h
    obtain ⟨ys, _, hys⟩ := Lib.forall₂_left hfinal hxs
    obtain ⟨f, _, hf⟩ := Lib.forall₂_left hys hx
    exact (root_of_walked la hshort (hwalked x ⟨xs, hxs, hx⟩) hf) ▸ hf
  have hkey : ∀ x l, m.find x = some l → ∃ b, Linked fn base params x b := by
    intro x l hx
    cases h₀ : s.2.find x with
    | none => rw [← hshort.keys] at h₀; rw [h₀] at hx; cases hx
    | some l₀ =>
      obtain ⟨b, hb⟩ := List.exists_mem_of_ne_nil _ (hne x l₀ h₀)
      exact ⟨b, (hlink x b).mp ⟨l₀, h₀, hb⟩⟩
  have hlinked : ∀ x b, Linked fn base params x b → Final s.2 (.value b) (la.root x) := by
    intro x b hb
    obtain ⟨l, hl, hmem⟩ := (hlink x b).mpr hb
    have hf := hroot x (hmention x b hb)
    generalize la.root x = f at hf
    cases hf with
    | done hn => rw [hn] at hl; cases hl
    | next ha hf => rw [ha] at hl; cases hl; simp only [List.mem_singleton] at hmem; exact hmem ▸ hf
  constructor
  case length => exact hfinal.length_eq.symm
  case alive =>
    intro t xs ys hxs hys y
    have ht : List.Forall₂ (Final s.2) xs ys := Lib.forall₂_getElem? hfinal hxs hys
    have hm : ∀ x ∈ xs, Mentioned base x := fun x hx => ⟨xs, List.mem_of_getElem? hxs, hx⟩
    constructor
    · intro hy
      obtain ⟨x, hx, hf⟩ := Lib.forall₂_right ht hy
      exact ⟨x, hx, hf.det (hroot x (hm x hx))⟩
    · intro h
      obtain ⟨x, hx, rfl⟩ := h
      obtain ⟨y, hy, hf⟩ := Lib.forall₂_left ht hx
      exact (hf.det (hroot x (hm x hx))) ▸ hy
  case linked =>
    intro x b hb
    have hf := hlinked x b hb
    cases hn : m.find (.value b) with
    | none =>
      have : la.root (.value b) = .value b := LiveAnalysis.root_of_find_none hn
      rw [this]
      rw [hshort.keys] at hn
      exact hf.det (.done hn)
    | some l =>
      obtain ⟨c, hc⟩ := hkey _ _ hn
      exact hf.det (hroot _ (hmention _ c hc))
  case mapping =>
    intro x l hl
    obtain ⟨b, hb⟩ := hkey x l hl
    rcases hwalked x (hmention x b hb) with hn | ⟨c, hc, _⟩
    · rw [hn] at hl; cases hl
    · rw [hc] at hl
      cases hl
      exact ⟨c, rfl, by simp [LiveAnalysis.root, hc]⟩
  case isKey =>
    intro x l hl
    obtain ⟨b, hb⟩ := hkey x l hl
    exact ⟨hmention x b hb, b, hb⟩
  case root_notKey => exact fun x hx => (hshort.keys _).mpr (hroot x hx).notKey
  case reach => exact fun x hx => (hroot x hx).reach hlink

namespace LiveAnalysis.Resolves
variable {base : List (List Var)} {L : Var → Value → Prop} {la : LiveAnalysis}

theorem joined (h : la.Resolves base L) {x y : Var} (hx : Mentioned base x) (hy : Mentioned base y)
    (he : la.root x = la.root y) : Joined L x y := ⟨la.root x, h.reach x hx, he ▸ h.reach y hy⟩

end LiveAnalysis.Resolves

end Pylang.Regalloc
