/-
Python's rule for binding the arguments of a call, and what `eval` writes. The
rule fills the parameters from the positional arguments, the keywords and the
defaults; it has no binding if one is left over, given twice or missing.
-/
import Pylang.Calling.Slots

namespace Pylang.Calling

/-- A function with its defaults: those of the last positional parameters, and those of the keyword-only ones. -/
structure Callable where
  f : Function
  defaults : List Value
  kwDefaults : List (Option Value)
  defaults_le : defaults.length ≤ f.argumentNames.length
  kwDefaults_length : kwDefaults.length = f.kwonlyargs.length

/-- A positional tuple and a keyword dictionary. -/
structure Call where
  args : List Value
  kwargs : List (String × Value)
  keys_nodup : (kwargs.map Prod.fst).Nodup

/-- The parameters a keyword may name. -/
def Function.Nameable (f : Function) (n : String) : Prop := n ∈ f.args ++ f.kwonlyargs

instance (f : Function) (n : String) : Decidable (f.Nameable n) := inferInstanceAs (Decidable (_ ∈ _))

namespace Callable
variable (g : Callable) (c : Call)

/-- `eval` gets the keyword-only defaults that there are. -/
def eval : Except Stop Frame := g.f.code.eval c.args c.kwargs g.defaults (g.kwDefaults.filterMap id)

/-! ## The rule -/

/-- The parameters that the positional arguments fill. -/
def filled : Nat := min c.args.length g.f.argumentNames.length

/-- What the call gives for the parameter at a position. -/
def given (i : Nat) (n : String) : Option Value :=
  if i < g.filled c then c.args[i]? else if g.f.Nameable n then c.kwargs.lookup n else none

def default (i : Nat) : Option Value :=
  if i < g.f.argumentNames.length then
    if g.f.argumentNames.length - g.defaults.length ≤ i then
      g.defaults[i - (g.f.argumentNames.length - g.defaults.length)]?
    else none
  else g.kwDefaults[i - g.f.argumentNames.length]?.join

/-- Whether the rule has a binding: no argument is left over, none is given twice, and none is missing. -/
def Binds : Prop :=
  (c.args.length ≤ g.f.argumentNames.length ∨ g.f.vararg.isSome) ∧
    (∀ kv ∈ c.kwargs, if g.f.Nameable kv.1 then g.filled c ≤ g.f.varnames.idxOf kv.1 else g.f.kwarg.isSome) ∧
    ∀ i < g.f.named.length, ∀ n, g.f.At i n → (g.given c i n).isSome ∨ (g.default i).isSome

/-- The value the rule prescribes for the parameter at a position. -/
def bound (i : Nat) (n : String) : Content :=
  if i < g.f.named.length then
    match (g.given c i n).or (g.default i) with
    | some v => .value v
    | none => .null
  else if g.f.vararg = some n then .tuple (c.args.drop g.f.argumentNames.length)
  else .dict (c.kwargs.filter fun kv => ¬ g.f.Nameable kv.1)

/-- What is asked of `eval`: a TypeError if the rule has no binding, else a frame in which every parameter has the
prescribed value at its own place. -/
def Correct : Prop :=
  (g.Binds c → ∃ fr, g.eval c = .ok fr ∧
    ∀ i n, i < g.f.parameters.length → g.f.At i n → fr.get (g.f.code.readPlace n) = g.bound c i n) ∧
  (¬ g.Binds c → ∃ e, g.eval c = .error (.typeError e))

end Callable

/-! ## The writes of `eval` -/

/-- Contents put at places, in order. -/
def Frame.run (fr : Frame) (ws : List (List Place × Content)) : Frame := ws.foldl (fun fr w => fr.putAll w.1 w.2) fr

@[simp] theorem Frame.run_nil (fr : Frame) : fr.run [] = fr := rfl

@[simp] theorem Frame.run_cons (fr : Frame) (w : List Place × Content) (ws : List (List Place × Content)) :
    fr.run (w :: ws) = (fr.putAll w.1 w.2).run ws := rfl

theorem Frame.get_run_cases (p : Place) : ∀ (ws : List (List Place × Content)) (fr : Frame),
    ((∀ w ∈ ws, p ∉ w.1) ∧ (fr.run ws).get p = fr.get p) ∨ ∃ w ∈ ws, p ∈ w.1 ∧ (fr.run ws).get p = w.2
  | [], _ => .inl ⟨by simp, rfl⟩
  | w :: ws, fr => by
    rcases get_run_cases p ws (fr.putAll w.1 w.2) with ⟨hnone, h⟩ | ⟨v, hv, hp, h⟩
    · rw [run_cons, h, get_putAll]
      by_cases hp : p ∈ w.1
      · exact .inr ⟨w, by simp, hp, by rw [if_pos hp]⟩
      · exact .inl ⟨by simpa [hp] using hnone, by rw [if_neg hp]⟩
    · exact .inr ⟨v, by simp [hv], hp, by rw [run_cons, h]⟩

theorem Frame.get_run_of_not_mem {p : Place} {ws : List (List Place × Content)} (fr : Frame)
    (h : ∀ w ∈ ws, p ∉ w.1) : (fr.run ws).get p = fr.get p := by
  rcases fr.get_run_cases p ws with ⟨-, hget⟩ | ⟨w, hw, hp, -⟩
  · exact hget
  · exact absurd hp (h w hw)

theorem Frame.get_run_of_unique {p : Place} {ws : List (List Place × Content)} (fr : Frame) {w : List Place × Content}
    (hw : w ∈ ws) (hp : p ∈ w.1) (hunique : ∀ v ∈ ws, p ∈ v.1 → v.2 = w.2) : (fr.run ws).get p = w.2 := by
  rcases fr.get_run_cases p ws with ⟨hnone, -⟩ | ⟨v, hv, hpv, hget⟩
  · exact absurd hp (hnone w hw)
  · rw [hget, hunique v hv hpv]

namespace Code
variable (c : Code)

/-- The keywords the pass places. -/
def recognised (kwargs : List (String × Value)) : List (String × Value) := kwargs.filter (·.1 ∈ c.varnames)

def positionalWrites (args : List Value) : List (List Place × Content) :=
  args.zipIdx.map fun a => ([c.argPlace a.2], .value a.1)

def keywordWrites (kwargs : List (String × Value)) (k : Nat) : List (List Place × Content) :=
  ((c.recognised kwargs).zipIdx k).map fun a => (c.keywordPlaces (c.varnames.idxOf a.1.1) a.2, .value a.1.2)

theorem bindPositional_run (args : List Value) (fr : Frame) :
    c.bindPositional 0 0 args fr = fr.run (c.positionalWrites args) := by
  rw [c.bindPositional_eq args 0 0 fr rfl, Frame.run, positionalWrites, List.foldl_map]
  rfl

theorem bindKeywords_unknown {key : String} (h : key ∉ c.varnames) (value : Value) (kwargs : List (String × Value))
    (k : Nat) (fr : Frame) : c.bindKeywords k ((key, value) :: kwargs) fr =
      if c.varkeywords then c.bindKeywords k kwargs fr else .error (.typeError (.unexpectedKeyword key)) := by
  rw [bindKeywords, if_pos h]

theorem bindKeywords_known {key : String} (h : key ∈ c.varnames) (value : Value) (kwargs : List (String × Value))
    (k : Nat) (fr : Frame) : c.bindKeywords k ((key, value) :: kwargs) fr =
      if (fr.get (.slot (c.varnames.idxOf key))).isHeapObject then .error (.typeError (.multipleValues key))
      else c.bindKeywords (k + 1) kwargs (fr.putAll (c.keywordPlaces (c.varnames.idxOf key) k) (.value value)) := by
  rw [bindKeywords, if_neg (not_not.mpr h)]

theorem keywordWrites_unknown {key : String} (h : key ∉ c.varnames) (value : Value) (kwargs : List (String × Value))
    (k : Nat) : c.keywordWrites ((key, value) :: kwargs) k = c.keywordWrites kwargs k := by
  rw [keywordWrites, recognised, List.filter_cons_of_neg (by simpa using h)]
  rfl

theorem keywordWrites_known {key : String} (h : key ∈ c.varnames) (value : Value) (kwargs : List (String × Value))
    (k : Nat) : c.keywordWrites ((key, value) :: kwargs) k =
      (c.keywordPlaces (c.varnames.idxOf key) k, .value value) :: c.keywordWrites kwargs (k + 1) := by
  rw [keywordWrites, recognised, List.filter_cons_of_pos (by simpa using h)]
  rfl

theorem bindKeywords_run : ∀ {kwargs : List (String × Value)} {k : Nat} {fr fr' : Frame},
    c.bindKeywords k kwargs fr = .ok fr' → fr' = fr.run (c.keywordWrites kwargs k)
  | [], _, _, _, h => by
    cases h
    rfl
  | (key, value) :: kwargs, k, fr, fr', h => by
    by_cases hkey : key ∈ c.varnames
    · rw [bindKeywords_known c hkey] at h
      split at h
      next => cases h
      next =>
        rw [keywordWrites_known c hkey]
        exact bindKeywords_run h
    · rw [bindKeywords_unknown c hkey] at h
      split at h
      next =>
        rw [keywordWrites_unknown c hkey]
        exact bindKeywords_run h
      next => cases h

/-- The pass over the keywords ends with a TypeError or a frame. -/
theorem bindKeywords_error : ∀ {kwargs : List (String × Value)} {k : Nat} {fr : Frame} {s : Stop},
    c.bindKeywords k kwargs fr = .error s → ∃ e, s = .typeError e
  | (key, value) :: kwargs, k, fr, s, h => by
    by_cases hkey : key ∈ c.varnames
    · rw [bindKeywords_known c hkey] at h
      split at h
      next =>
        cases h
        exact ⟨_, rfl⟩
      next => exact bindKeywords_error h
    · rw [bindKeywords_unknown c hkey] at h
      split at h
      next => exact bindKeywords_error h
      next =>
        cases h
        exact ⟨_, rfl⟩

theorem bindDefaults_eq : ∀ {defaults : List Value} {i : Nat} {fr : Frame}, defaults.length ≤ i →
    c.bindDefaults i defaults fr = .ok fr
  | [], 0, _, _ => rfl
  | [], _ + 1, _, _ => rfl
  | d :: ds, i + 1, fr, h => by
    rw [bindDefaults, Content.testsUnset_eq]
    exact bindDefaults_eq (by simpa using h)

theorem eval_eq {args : List Value} {kwargs : List (String × Value)} {defaults kwDefaults : List Value}
    (hd : defaults.length ≤ c.argCount) (hk : kwDefaults.length ≤ c.namedCount) :
    c.eval args kwargs defaults kwDefaults =
      (c.bindKeywords 0 kwargs (Frame.empty.run (c.positionalWrites (args.take (min args.length c.argCount))))).bind
        fun fr => (c.bindVarargs args fr).bind (c.bindVarkeywords kwargs) := by
  have hds : ∀ fr, c.bindDefaults c.argCount defaults.reverse fr = .ok fr := fun fr =>
    c.bindDefaults_eq (by simpa using hd)
  have hks : ∀ fr, c.bindDefaults c.namedCount kwDefaults.reverse fr = .ok fr := fun fr =>
    c.bindDefaults_eq (by simpa using hk)
  simp only [eval, bindPositional_run, hds, hks, ite_self]
  rfl

theorem mem_positionalWrites {args : List Value} {w : List Place × Content} :
    w ∈ c.positionalWrites args ↔ ∃ i v, args[i]? = some v ∧ w = ([c.argPlace i], .value v) := by
  simp only [positionalWrites, List.mem_map, Prod.exists, List.mem_zipIdx_iff_getElem?]
  constructor
  · intro h
    obtain ⟨v, i, h, rfl⟩ := h
    exact ⟨i, v, h, rfl⟩
  · intro h
    obtain ⟨i, v, h, rfl⟩ := h
    exact ⟨v, i, h, rfl⟩

theorem mem_keywordWrites {kwargs : List (String × Value)} {w : List Place × Content} :
    w ∈ c.keywordWrites kwargs 0 ↔ ∃ k kv, (c.recognised kwargs)[k]? = some kv ∧
      w = (c.keywordPlaces (c.varnames.idxOf kv.1) k, .value kv.2) := by
  simp only [keywordWrites, List.mem_map, Prod.exists, List.mem_zipIdx_iff_getElem?]
  constructor
  · intro h
    obtain ⟨n, v, k, h, rfl⟩ := h
    exact ⟨k, n, v, h, rfl⟩
  · intro h
    obtain ⟨k, n, v, h, rfl⟩ := h
    exact ⟨n, v, k, h, rfl⟩

theorem mem_keywordPlaces {i k : Nat} {p : Place} :
    p ∈ c.keywordPlaces i k ↔ (∃ cell, c.argCell k = some cell ∧ p = .cell cell) ∨ p = .slot i := by
  unfold keywordPlaces
  cases c.argCell k <;> simp

/-- The pass over the keywords ends with a frame if each keyword is known or collected, and no slot it looks at holds an
object. -/
theorem bindKeywords_isOk : ∀ {kwargs : List (String × Value)} {k : Nat} {fr : Frame},
    (kwargs.map Prod.fst).Nodup → (∀ kv ∈ kwargs, kv.1 ∈ c.varnames ∨ c.varkeywords = true) →
      (∀ kv ∈ kwargs, kv.1 ∈ c.varnames → (fr.get (.slot (c.varnames.idxOf kv.1))).isHeapObject = false) →
      ∃ fr', c.bindKeywords k kwargs fr = .ok fr'
  | [], _, fr, _, _, _ => ⟨fr, rfl⟩
  | (key, value) :: kwargs, k, fr, hnodup, hknown, hfree => by
    obtain ⟨hkey, hnodup⟩ := List.nodup_cons.mp hnodup
    by_cases h : key ∈ c.varnames
    · rw [bindKeywords_known c h, if_neg (by simp [hfree (key, value) (by simp) h])]
      refine bindKeywords_isOk hnodup (fun kv hkv => hknown kv (by simp [hkv])) fun kv hkv hv => ?_
      have hne : kv.1 ≠ key := fun he => hkey (List.mem_map.mpr ⟨kv, hkv, he⟩)
      rw [Frame.get_putAll, if_neg]
      · exact hfree kv (by simp [hkv]) hv
      · rw [mem_keywordPlaces]
        rintro (⟨cell, -, he⟩ | he)
        · cases he
        · rw [Place.slot.injEq, List.idxOf_inj hv] at he
          exact hne he
    · have hvar := (hknown (key, value) (by simp)).resolve_left h
      rw [bindKeywords_unknown c h, if_pos hvar]
      exact bindKeywords_isOk hnodup (fun kv hkv => hknown kv (by simp [hkv])) fun kv hkv => hfree kv (by simp [hkv])

/-- A keyword that is neither known nor collected is a TypeError, if no earlier one is. -/
theorem bindKeywords_unexpected : ∀ {kwargs : List (String × Value)} {k : Nat} {fr : Frame},
    c.varkeywords = false → (∃ kv ∈ kwargs, kv.1 ∉ c.varnames) → ∃ e, c.bindKeywords k kwargs fr = .error (.typeError e)
  | (key, value) :: kwargs, k, fr, hvar, ⟨kv, hkv, hunknown⟩ => by
    by_cases h : key ∈ c.varnames
    · rw [bindKeywords_known c h]
      split
      next => exact ⟨_, rfl⟩
      next =>
        rcases List.mem_cons.mp hkv with rfl | hkv
        · exact absurd h hunknown
        · exact bindKeywords_unexpected hvar ⟨kv, hkv, hunknown⟩
    · rw [bindKeywords_unknown c h, if_neg (by simp [hvar])]
      exact ⟨_, rfl⟩

theorem bindRest_run {i : Nat} {rest : Content} {fr fr' : Frame} (h : c.bindRest i rest fr = .ok fr') :
    fr' = fr ∨ ∃ s, fr' = fr.put (.slot s) rest := by
  simp only [bindRest, Content.testsUnset_eq, Bool.false_eq_true, if_false] at h
  split at h
  next =>
    cases h
    exact .inl rfl
  next =>
    split at h
    next p hp =>
      cases h
      unfold restSlot at hp
      split at hp
      next =>
        cases hp
        exact .inr ⟨_, rfl⟩
      next => cases hp
    next => cases h

end Code

end Pylang.Calling
