/-
The prologue that `compile_function_body` emits, and its two entries. It reads
the plain positional parameters by position or from the defaults, and nothing
else: the keywords, the other kinds of parameters and the number of arguments
are not looked at.
-/
import Mathlib
import Pylang.Calling.Exact

namespace Pylang.Calling

/-- How a prologue ends without a frame. -/
inductive PrologueStop where
  | typeError
  /-- "Corrupt execution stack" -/
  | runtimeError
  | indexError
  /-- `rt_value_array_get` reads behind the arguments. -/
  | outOfRange
  deriving DecidableEq

/-- `create_aot`, or `call_fast_ptrs` of a function with or without a `m_self`, which goes in front of the arguments. -/
inductive Entry where
  | createAot
  | callFastPtrs (self : Bool)
  deriving DecidableEq

/-- The array of the arguments that the entry passes. -/
def Entry.arguments (e : Entry) (args : List Value) : Except PrologueStop (List Value) :=
  match e with
  | .createAot => .ok args
  | .callFastPtrs self => if 1000000 + self.toNat < args.length then .error .runtimeError else .ok args

/-- `rt_value_array_get`. -/
def rtValueArrayGet (args : List Value) (index : Nat) : Except PrologueStop Value :=
  match args[index]? with
  | some v => .ok v
  | none => .error .outOfRange

/-- `rt_tuple_getitem`. -/
def rtTupleGetitem (tuple : List Value) (index : Nat) : Except PrologueStop Value :=
  match tuple[index]? with
  | some v => .ok v
  | none => .error .indexError

/-- The value for one parameter; `argc` is the length of the array. -/
def parameterValue (args defaults : List Value) (totalParams paramIdx : Nat) : Except PrologueStop Value :=
  if totalParams ≤ paramIdx + defaults.length ∧ defaults ≠ [] then
    if paramIdx < args.length then rtValueArrayGet args paramIdx
    else rtTupleGetitem defaults (paramIdx + defaults.length - totalParams)
  else rtValueArrayGet args paramIdx

/-- The loop of the prologue over the parameters, each of which gets a local or a cell. -/
def bindParameters (args defaults : List Value) (totalParams : Nat) :
    Nat → List String → (String → Content) → Except PrologueStop (String → Content)
  | _, [], locals => .ok locals
  | paramIdx, argName :: names, locals =>
    match parameterValue args defaults totalParams paramIdx with
    | .ok val => bindParameters args defaults totalParams (paramIdx + 1) names (Function.update locals argName (.value val))
    | .error stop => .error stop

namespace Callable
variable (g : Callable) (c : Call) (e : Entry)

/-- What the names of the parameters stand for when the body starts; no value is null. -/
def prologue : Except PrologueStop (String → Content) :=
  match e.arguments c.args with
  | .ok args => bindParameters args g.defaults g.f.args.length 0 g.f.args fun _ => .null
  | .error stop => .error stop

/-- What is asked of the prologue: the values of `eval` where the rule has a binding, a TypeError where it has
none, and no read behind the arguments. -/
structure Faithful : Prop where
  binds : g.Binds c → ∃ fr locals, g.eval c = .ok fr ∧ g.prologue c e = .ok locals ∧
    ∀ i n, i < g.f.parameters.length → g.f.At i n → locals n = fr.get (g.f.code.readPlace n)
  raises : ¬ g.Binds c → g.prologue c e = .error .typeError
  inRange : g.prologue c e ≠ .error .outOfRange

/-- A call that the prologue binds: of plain positional parameters, with no more arguments than there are, where
each keyword repeats the default of its parameter and each parameter left has one. -/
structure Plain : Prop where
  posonlyargs : g.f.posonlyargs = []
  kwonlyargs : g.f.kwonlyargs = []
  vararg : g.f.vararg = none
  kwarg : g.f.kwarg = none
  passes : ∀ self, e = .callFastPtrs self → c.args.length ≤ 1000000 + self.toNat
  notMore : c.args.length ≤ g.f.args.length
  defaults : g.f.args.length ≤ c.args.length + g.defaults.length
  keywords : ∀ kv ∈ c.kwargs, ∃ i, c.args.length ≤ i ∧ g.f.args[i]? = some kv.1 ∧ g.default i = some kv.2

/-! ## The loop -/

section Loop
variable {args defaults : List Value} {total idx : Nat} {locals locals' : String → Content}

/-- The names of the loop get the values at their places, the others keep theirs. -/
theorem bindParameters_ok : ∀ {names : List String} {idx : Nat} {locals : String → Content}, names.Nodup →
    bindParameters args defaults total idx names locals = .ok locals' →
    (∀ k n, names[k]? = some n → ∃ v, parameterValue args defaults total (idx + k) = .ok v ∧ locals' n = .value v) ∧
      ∀ n, n ∉ names → locals' n = locals n
  | [], idx, locals, _, h => by
    cases h
    exact ⟨fun k n hk => by simp at hk, fun n _ => rfl⟩
  | name :: names, idx, locals, hnodup, h => by
    unfold bindParameters at h
    obtain ⟨hnotin, hnodup⟩ := List.nodup_cons.mp hnodup
    split at h
    next v hv =>
      obtain ⟨hin, hout⟩ := bindParameters_ok hnodup h
      constructor
      · intro k n hk
        cases k with
        | zero =>
          obtain rfl : name = n := by simpa using hk
          exact ⟨v, hv, by rw [hout name hnotin, Function.update_self]⟩
        | succ k =>
          obtain ⟨v', hv', hn⟩ := hin k n (by simpa using hk)
          exact ⟨v', by rw [← hv']; congr 1; omega, hn⟩
      · intro n hn
        rw [hout n fun hin => hn (List.mem_cons_of_mem _ hin), Function.update_of_ne]
        intro h
        obtain rfl := h
        exact hn List.mem_cons_self
    next => cases h

theorem bindParameters_isOk : ∀ {names : List String} {idx : Nat} {locals : String → Content},
    (∀ k, k < names.length → ∃ v, parameterValue args defaults total (idx + k) = .ok v) →
    ∃ locals', bindParameters args defaults total idx names locals = .ok locals'
  | [], idx, locals, _ => ⟨locals, rfl⟩
  | name :: names, idx, locals, h => by
    obtain ⟨v, hv⟩ := h 0 (by simp)
    unfold bindParameters
    rw [show parameterValue args defaults total idx = .ok v from hv]
    refine bindParameters_isOk fun k hk => ?_
    obtain ⟨v', hv'⟩ := h (k + 1) (by simpa using hk)
    exact ⟨v', by rw [← hv']; congr 1; omega⟩

/-- The loop never raises a TypeError. -/
theorem bindParameters_ne_typeError : ∀ {names : List String} {idx : Nat} {locals : String → Content},
    bindParameters args defaults total idx names locals ≠ .error .typeError
  | [], idx, locals => by simp [bindParameters]
  | name :: names, idx, locals => by
    unfold bindParameters
    split
    · exact bindParameters_ne_typeError
    next stop hstop =>
      intro h
      cases h
      unfold parameterValue rtValueArrayGet rtTupleGetitem at hstop
      repeat' split at hstop
      all_goals cases hstop

end Loop

theorem prologue_ne_typeError : g.prologue c e ≠ .error .typeError := by
  unfold prologue Entry.arguments
  cases e with
  | createAot => exact bindParameters_ne_typeError
  | callFastPtrs self =>
    dsimp only
    split
    next => exact bindParameters_ne_typeError
    next stop h =>
      split at h
      · cases h
        simp
      · cases h

end Callable

/-! ## A plain call -/

namespace Callable
variable {g : Callable} {c : Call} {e : Entry} {locals : String → Content}

theorem Plain.argumentNames (h : g.Plain c e) : g.f.argumentNames = g.f.args := by
  simp [Function.argumentNames, h.posonlyargs]

theorem Plain.named (h : g.Plain c e) : g.f.named = g.f.args := by
  simp [Function.named, h.argumentNames, h.kwonlyargs]

theorem Plain.parameters (h : g.Plain c e) : g.f.parameters = g.f.args := by
  simp [Function.parameters, h.named, h.vararg, h.kwarg]

theorem Plain.filled (h : g.Plain c e) : g.filled c = c.args.length := by
  unfold Callable.filled
  rw [h.argumentNames]
  exact Nat.min_eq_left h.notMore

theorem Plain.at_args (h : g.Plain c e) {i : Nat} {n : String} (hi : i < g.f.parameters.length) (hat : g.f.At i n) :
    g.f.args[i]? = some n := by
  rw [h.parameters] at hi
  have harg := hat.argument (by rw [h.argumentNames]; exact hi)
  rwa [h.argumentNames] at harg

theorem Plain.default_isSome (h : g.Plain c e) {i : Nat} (hi : c.args.length ≤ i) (hlt : i < g.f.args.length) :
    ∃ v, g.default i = some v ∧ g.defaults[i + g.defaults.length - g.f.args.length]? = some v := by
  have henough := h.defaults
  have hle := g.defaults_le
  rw [h.argumentNames] at hle
  have hidx : i - (g.f.args.length - g.defaults.length) = i + g.defaults.length - g.f.args.length := by omega
  have hlt' : i + g.defaults.length - g.f.args.length < g.defaults.length := by omega
  refine ⟨g.defaults[i + g.defaults.length - g.f.args.length], ?_, List.getElem?_eq_getElem hlt'⟩
  unfold default
  rw [h.argumentNames, if_pos hlt, if_pos (by omega), hidx, List.getElem?_eq_getElem hlt']

/-- The rule binds a plain call. -/
theorem Plain.rule (h : g.Plain c e) : g.Binds c := by
  refine ⟨.inl (by rw [h.argumentNames]; exact h.notMore), fun kv hkv => ?_, fun i hi n hat => ?_⟩
  · obtain ⟨i, hle, hi, -⟩ := h.keywords kv hkv
    have hnameable : g.f.Nameable kv.1 := List.mem_append_left _ (List.mem_of_getElem? hi)
    rw [if_pos hnameable, h.filled, (Function.argument_at (by rw [h.argumentNames]; exact hi)).idxOf]
    exact hle
  · rw [h.named] at hi
    by_cases hlt : i < c.args.length
    · refine .inl ?_
      unfold given
      rw [if_pos (by rw [h.filled]; exact hlt), List.getElem?_eq_getElem hlt]
      rfl
    · obtain ⟨v, hv, -⟩ := h.default_isSome (Nat.le_of_not_lt hlt) hi
      exact .inr (by rw [hv]; rfl)

/-- What the rule gives a parameter of a plain call. -/
theorem Plain.bound (h : g.Plain c e) {i : Nat} {n : String} (hi : g.f.args[i]? = some n) :
    ∃ v, g.bound c i n = .value v ∧ parameterValue c.args g.defaults g.f.args.length i = .ok v := by
  obtain ⟨hlt, -⟩ := List.getElem?_eq_some_iff.mp hi
  have hat : g.f.At i n := Function.argument_at (by rw [h.argumentNames]; exact hi)
  unfold Callable.bound
  rw [if_pos (by rw [h.named]; exact hlt)]
  by_cases hpos : i < c.args.length
  · refine ⟨c.args[i], ?_, ?_⟩
    · unfold given
      rw [if_pos (by rw [h.filled]; exact hpos), List.getElem?_eq_getElem hpos, Option.some_or]
    · unfold parameterValue
      rw [if_pos hpos, ite_self, rtValueArrayGet, List.getElem?_eq_getElem hpos]
  · obtain ⟨v, hv, hdefault⟩ := h.default_isSome (Nat.le_of_not_lt hpos) hlt
    have hgiven : (g.given c i n).or (g.default i) = some v := by
      cases hg : g.given c i n with
      | none => exact hv
      | some w =>
        -- a keyword repeats the default
        rcases given_cases hat hg with ⟨hlt', -⟩ | ⟨-, -, k, hk⟩
        · rw [h.filled] at hlt'
          exact absurd hlt' hpos
        · obtain ⟨j, -, hj, hvalue⟩ := h.keywords _ (mem_recognised.mp (List.mem_of_getElem? hk)).1
          have hjat : g.f.At j n := Function.argument_at (by rw [h.argumentNames, hj])
          obtain rfl : i = j := hat.idxOf.symm.trans hjat.idxOf
          rw [Option.some_or, ← hvalue, hv]
    refine ⟨v, by rw [hgiven], ?_⟩
    unfold parameterValue
    have henough := h.defaults
    rw [if_pos ⟨by omega, fun hnil => by simp [hnil] at henough; omega⟩, if_neg hpos, rtTupleGetitem, hdefault]

theorem Plain.arguments (h : g.Plain c e) : e.arguments c.args = .ok c.args := by
  unfold Entry.arguments
  cases e with
  | createAot => rfl
  | callFastPtrs self =>
    have hpasses := h.passes self rfl
    exact if_neg (by omega)

/-- Where `eval` binds by the rule, the prologue binds a plain call so. -/
theorem Plain.faithful (h : g.Plain c e) (hc : g.Correct c) : g.Faithful c e := by
  have hargs_nodup : g.f.args.Nodup := by
    have hnodup := g.f.argumentNames_nodup
    rwa [h.argumentNames] at hnodup
  obtain ⟨locals, hlocals⟩ : ∃ locals, bindParameters c.args g.defaults g.f.args.length 0 g.f.args (fun _ => .null) = .ok locals := by
    refine bindParameters_isOk fun k hk => ?_
    obtain ⟨v, -, hv⟩ := h.bound (List.getElem?_eq_getElem hk)
    exact ⟨v, by rw [Nat.zero_add]; exact hv⟩
  have hprologue : g.prologue c e = .ok locals := by
    unfold prologue
    rw [h.arguments]
    exact hlocals
  refine ⟨fun hb => ?_, fun hb => absurd h.rule hb, by simp [hprologue]⟩
  obtain ⟨fr, hfr, hbound⟩ := hc.1 hb
  refine ⟨fr, locals, hfr, hprologue, fun i n hi hat => ?_⟩
  rw [hbound i n hi hat]
  have hn := h.at_args hi hat
  obtain ⟨v, hv, hvalue⟩ := h.bound hn
  obtain ⟨v', hv', hlocal⟩ := (bindParameters_ok hargs_nodup hlocals).1 i n hn
  rw [Nat.zero_add, hvalue] at hv'
  rw [hlocal, hv, Except.ok.inj hv']

/-- A parameter that the rule binds is not null. -/
theorem bound_ne_null (hb : g.Binds c) {i : Nat} {n : String} (hat : g.f.At i n) : g.bound c i n ≠ .null := by
  unfold Callable.bound
  split
  next hlt =>
    obtain ⟨v, hv⟩ : ∃ v, (g.given c i n).or (g.default i) = some v := by
      refine Option.isSome_iff_exists.mp ?_
      rw [Option.isSome_or, Bool.or_eq_true]
      exact hb.2.2 i hlt n hat
    rw [hv]
    simp
  next =>
    split
    · simp
    · simp

/-- A prologue that ends has passed the arguments on, and has run its loop. -/
theorem prologue_ok (h : g.prologue c e = .ok locals) :
    (∀ self, e = .callFastPtrs self → c.args.length ≤ 1000000 + self.toNat) ∧
      bindParameters c.args g.defaults g.f.args.length 0 g.f.args (fun _ => .null) = .ok locals := by
  unfold prologue at h
  cases e with
  | createAot => exact ⟨by simp, h⟩
  | callFastPtrs self =>
    unfold Entry.arguments at h
    by_cases hmany : 1000000 + self.toNat < c.args.length
    · simp [hmany] at h
    · simp only [if_neg hmany] at h
      refine ⟨?_, h⟩
      intro self' he
      cases he
      omega

/-- What it reads for a parameter behind the arguments is the default of the parameter. -/
theorem default_of_parameterValue {i : Nat} {v : Value} (hnames : g.f.argumentNames = g.f.args) (hi : i < g.f.args.length)
    (hbehind : c.args.length ≤ i) (h : parameterValue c.args g.defaults g.f.args.length i = .ok v) : g.default i = some v := by
  unfold parameterValue at h
  split at h
  next hdefaults =>
    rw [if_neg (by omega)] at h
    unfold rtTupleGetitem at h
    split at h
    next w hw =>
      cases h
      have hd := g.defaults_le
      rw [hnames] at hd
      unfold default
      rw [hnames, if_pos hi, if_pos (by omega), ← hw]
      congr 1
      omega
    next => cases h
  next =>
    rw [rtValueArrayGet, List.getElem?_eq_none hbehind] at h
    cases h

/-- Where `eval` binds by the rule, a call that the prologue binds so is plain. -/
theorem Faithful.plain (h : g.Faithful c e) (hc : g.Correct c) : g.Plain c e := by
  have hb : g.Binds c := by
    by_contra hb
    exact g.prologue_ne_typeError c e (h.raises hb)
  obtain ⟨fr, locals, hfr, hprologue, hsame⟩ := h.binds hb
  obtain ⟨fr', hfr', hbound⟩ := hc.1 hb
  obtain rfl : fr = fr' := Except.ok.inj (hfr.symm.trans hfr')
  have hlocal (i : Nat) (n : String) (hi : i < g.f.parameters.length) (hat : g.f.At i n) : locals n = g.bound c i n :=
    (hsame i n hi hat).trans (hbound i n hi hat)
  obtain ⟨hpasses, hloop⟩ := prologue_ok hprologue
  have hnodup := g.f.argumentNames_nodup
  have hargs_nodup : g.f.args.Nodup := (List.nodup_append'.mp hnodup).2.1
  obtain ⟨hin, hout⟩ := bindParameters_ok hargs_nodup hloop
  have hmem (i : Nat) (n : String) (hi : i < g.f.parameters.length) (hat : g.f.At i n) : n ∈ g.f.args := by
    by_contra hnot
    exact bound_ne_null hb hat ((hlocal i n hi hat).symm.trans (hout n hnot))
  have hle : g.f.parameters.length ≤ g.f.argumentNames.length := by
    by_contra hgt
    have hi : g.f.argumentNames.length < g.f.parameters.length := by omega
    have hvar : g.f.argumentNames.length < g.f.varnames.length := by
      rw [Function.varnames, List.length_append]
      omega
    obtain ⟨n, hat⟩ := g.f.exists_at_of_lt hvar
    obtain ⟨j, hj⟩ : ∃ j, g.f.argumentNames[j]? = some n :=
      List.mem_iff_getElem?.mp (List.mem_append_right g.f.posonlyargs (hmem _ n hi hat))
    obtain ⟨hlt, -⟩ := List.getElem?_eq_some_iff.mp hj
    have hidx := hat.idxOf.symm.trans (Function.argument_at hj).idxOf
    omega
  have hlength := g.f.length_parameters
  rw [g.f.length_named] at hlength
  have hkwonly : g.f.kwonlyargs = [] := List.eq_nil_of_length_eq_zero (by omega)
  have hvararg : g.f.vararg = none := by
    cases hv : g.f.vararg with
    | none => rfl
    | some n => simp [hv] at hlength; omega
  have hkwarg : g.f.kwarg = none := by
    cases hk : g.f.kwarg with
    | none => rfl
    | some n => simp [hk] at hlength; omega
  have hposonly : g.f.posonlyargs = [] := by
    cases hp : g.f.posonlyargs with
    | nil => rfl
    | cons x xs =>
      have hx : g.f.argumentNames[0]? = some x := by simp [Function.argumentNames, hp]
      have hparam : 0 < g.f.parameters.length := by
        rw [hlength, Function.argumentNames, hp, List.cons_append, List.length_cons]
        omega
      have hxargs := hmem 0 x hparam (Function.argument_at hx)
      rw [Function.argumentNames, hp] at hnodup
      exact absurd (List.mem_append_right xs hxargs) (List.nodup_cons.mp hnodup).1
  have hnames : g.f.argumentNames = g.f.args := by simp [Function.argumentNames, hposonly]
  have hnotMore : c.args.length ≤ g.f.args.length := by
    have hmany := hb.1
    rw [hvararg, hnames] at hmany
    simpa using hmany
  have hfilled : g.filled c = c.args.length := by
    unfold Callable.filled
    rw [hnames]
    exact Nat.min_eq_left hnotMore
  refine ⟨hposonly, hkwonly, hvararg, hkwarg, hpasses, hnotMore, ?_, fun kv hkv => ?_⟩
  · by_contra hfew
    have hlt : c.args.length < g.f.args.length := by omega
    obtain ⟨v, hv, -⟩ := hin c.args.length _ (List.getElem?_eq_getElem hlt)
    rw [Nat.zero_add] at hv
    unfold parameterValue at hv
    rw [if_neg (by omega), rtValueArrayGet, List.getElem?_eq_none (Nat.le_refl _)] at hv
    cases hv
  · have hkey := hb.2.1 kv hkv
    by_cases hnameable : g.f.Nameable kv.1
    · rw [if_pos hnameable, hfilled] at hkey
      have hkvargs : kv.1 ∈ g.f.args := by
        unfold Function.Nameable at hnameable
        rwa [hkwonly, List.append_nil] at hnameable
      obtain ⟨i, hi⟩ := List.mem_iff_getElem?.mp hkvargs
      have hat : g.f.At i kv.1 := Function.argument_at (by rw [hnames]; exact hi)
      rw [hat.idxOf] at hkey
      obtain ⟨hlt, -⟩ := List.getElem?_eq_some_iff.mp hi
      refine ⟨i, hkey, hi, ?_⟩
      obtain ⟨v, hv, hvalue⟩ := hin i kv.1 hi
      rw [Nat.zero_add] at hv
      have hbound' : g.bound c i kv.1 = .value kv.2 := by
        unfold Callable.bound
        rw [if_pos (by rw [Function.length_named, hnames]; omega), given_keyword hkv (by omega) hnameable, Option.some_or]
      have hparam : i < g.f.parameters.length := by
        rw [hlength, hnames]
        omega
      rw [hlocal i kv.1 hparam hat, hbound'] at hvalue
      obtain rfl : kv.2 = v := Content.value.inj hvalue
      exact default_of_parameterValue hnames hlt hkey hv
    · rw [if_neg hnameable, hkwarg] at hkey
      cases hkey

/-- `eval` binds a plain call by the rule if it has all its arguments by position. -/
theorem Plain.correct (h : g.Plain c e) (hkwargs : c.kwargs = []) (hall : c.args.length = g.f.args.length) : g.Correct c := by
  have hclean : g.Clean c :=
    { given := fun i n hi hat => by
        rw [h.named, ← hall] at hi
        unfold given
        rw [if_pos (by rw [h.filled]; exact hi), List.getElem?_eq_getElem hi]
        rfl
      rest := fun n hn => by
        rw [h.vararg, h.kwarg] at hn
        rcases hn with hn | hn <;> cases hn
      named := fun kv hkv => by simp [hkwargs] at hkv
      placed := fun k kv i hk => by simp [Code.recognised, hkwargs] at hk }
  exact ⟨fun hb => hclean.binds hb, fun hb => absurd h.rule hb⟩

/-! ## The reads of the arguments -/

/-- The first parameter without a value ends the loop. -/
theorem bindParameters_error {args defaults : List Value} {total : Nat} {stop : PrologueStop} :
    ∀ {names : List String} {idx K : Nat} {locals : String → Content}, K < names.length →
    (∀ k < K, ∃ v, parameterValue args defaults total (idx + k) = .ok v) →
    parameterValue args defaults total (idx + K) = .error stop →
    bindParameters args defaults total idx names locals = .error stop
  | name :: names, idx, 0, locals, _, _, hstop => by
    unfold bindParameters
    rw [show parameterValue args defaults total idx = .error stop from hstop]
  | name :: names, idx, K + 1, locals, hK, hok, hstop => by
    obtain ⟨v, hv⟩ := hok 0 (by omega)
    unfold bindParameters
    rw [show parameterValue args defaults total idx = .ok v from hv]
    refine bindParameters_error (by simpa using hK) (fun k hk => ?_) (by rw [← hstop]; congr 1; omega)
    obtain ⟨v', hv'⟩ := hok (k + 1) (by omega)
    exact ⟨v', by rw [← hv']; congr 1; omega⟩

/-- The arguments are read inside exactly where there are as many as parameters without a default. -/
theorem prologue_inRange_iff (hpass : e.arguments c.args = .ok c.args) :
    g.prologue c e ≠ .error .outOfRange ↔ g.f.args.length ≤ c.args.length + g.defaults.length := by
  unfold prologue
  rw [hpass]
  dsimp only
  constructor
  · intro h
    by_contra hfew
    refine h (bindParameters_error (K := c.args.length) (by omega) (fun k hk => ⟨c.args[k], ?_⟩) ?_)
    · unfold parameterValue
      rw [Nat.zero_add, if_pos hk, ite_self, rtValueArrayGet, List.getElem?_eq_getElem hk]
    · unfold parameterValue
      rw [Nat.zero_add, if_neg (by omega), rtValueArrayGet, List.getElem?_eq_none (Nat.le_refl _)]
  · intro henough
    have hvalue (idx : Nat) (hidx : idx < g.f.args.length) :
        ∃ v, parameterValue c.args g.defaults g.f.args.length idx = .ok v := by
      unfold parameterValue
      by_cases hpos : idx < c.args.length
      · rw [if_pos hpos, ite_self, rtValueArrayGet, List.getElem?_eq_getElem hpos]
        exact ⟨_, rfl⟩
      · have hlt : idx + g.defaults.length - g.f.args.length < g.defaults.length := by omega
        rw [if_pos ⟨by omega, fun hnil => by simp [hnil] at henough; omega⟩, if_neg hpos, rtTupleGetitem,
          List.getElem?_eq_getElem hlt]
        exact ⟨_, rfl⟩
    obtain ⟨locals, hlocals⟩ : ∃ locals, bindParameters c.args g.defaults g.f.args.length 0 g.f.args (fun _ => .null) =
        .ok locals := bindParameters_isOk fun k hk => by rw [Nat.zero_add]; exact hvalue k hk
    rw [hlocals]
    simp

/-- **The prologue binds as `eval` does** on a plain call, and where `eval` binds by
the rule on no other; it reads inside the arguments exactly where none that is
needed is missing. -/
theorem prologue_faithful (g : Callable) (c : Call) (e : Entry) :
    (g.Correct c → (g.Faithful c e ↔ g.Plain c e)) ∧
    (g.Plain c e → c.kwargs = [] → c.args.length = g.f.args.length → g.Faithful c e) ∧
    (e.arguments c.args = .ok c.args →
      (g.prologue c e ≠ .error .outOfRange ↔ g.f.args.length ≤ c.args.length + g.defaults.length)) :=
  ⟨fun hc => ⟨fun h => h.plain hc, fun h => h.faithful hc⟩,
    fun h hkwargs hall => h.faithful (h.correct hkwargs hall), prologue_inRange_iff⟩

/-- `def f(x, y)`. -/
def twoParameters : Callable where
  f :=
    { posonlyargs := [], args := ["x", "y"], kwonlyargs := [], vararg := none, kwarg := none
      locals := [], cellvars := [], freevars := [], isClass := false
      varnames_nodup := by decide, cellvars_nodup := List.nodup_nil, freevars_nodup := List.nodup_nil
      locals_uncaptured := noLocals_uncaptured, freevars_foreign := by decide }
  defaults := []
  kwDefaults := []
  defaults_le := by decide
  kwDefaults_length := withDefault.kwDefaults_length

theorem prologue_faithful_twoParameters : twoParameters.Faithful ⟨[.int 1, .int 2], [], .nil⟩ .createAot := by
  refine (prologue_faithful twoParameters ⟨[.int 1, .int 2], [], .nil⟩ .createAot).2.1 ?_ rfl rfl
  exact
    { posonlyargs := rfl, kwonlyargs := rfl, vararg := rfl, kwarg := rfl, passes := by simp, notMore := by decide
      defaults := by decide, keywords := by simp }

/-- The call `f()` reads behind the arguments, where it has no binding. -/
theorem missingArgument_outOfRange : ¬ twoParameters.Binds ⟨[], [], .nil⟩ ∧
    twoParameters.prologue ⟨[], [], .nil⟩ .createAot = .error .outOfRange ∧
    ¬ twoParameters.Faithful ⟨[], [], .nil⟩ .createAot := by
  have hread : twoParameters.prologue ⟨[], [], .nil⟩ .createAot = .error .outOfRange := rfl
  refine ⟨fun hb => ?_, hread, fun h => h.inRange hread⟩
  have hmissing := hb.2.2 0 (by decide) "x" rfl
  revert hmissing
  decide

end Callable

end Pylang.Calling
