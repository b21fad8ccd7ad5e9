/-
`PyString::startswith` and `PyString::endswith`, with the bounds of the methods
that take a part of a string. `startswith` looks at no bound, and `endswith` takes
them for byte positions, one that counts from the end for one past it.
-/
import Pylang.Runtime.StrItem

namespace Pylang.Runtime

open Tagged (fitsSlong fitsSlong_iff)

/-- The bounds of a call. -/
inductive Bounds where
  | none
  | start (start : SliceItem)
  | both (start stop : SliceItem)
  deriving DecidableEq

namespace Bounds

/-- `ASSERT(start)` and `ASSERT(end)`: both are integers. -/
def check : Bounds → Except SliceStop (Option Int × Option Int)
  | .none => .ok (Option.none, Option.none)
  | .start (.int m) => .ok (some m, Option.none)
  | .both (.int m) (.int n) => .ok (some m, some n)
  | _ => .error .abort

/-- Where `get_position_from_slice` puts a bound: the distance of a negative one is added to the size. -/
def place (size : Nat) (pos : Int) : Nat := (if pos < 0 then size - pos else pos).toNat

/-- `get_position_from_slice` of `as_i64`; the sum is a `size_t`, then an `int64_t` that is asserted to be positive. -/
def position (size : Nat) (pos : Int) : Except SliceStop Nat :=
  if fitsSlong pos ∧ fitsSlong (place size pos) then .ok (place size pos) else .error .abort

def position? (size : Nat) : Option Int → Except SliceStop (Option Nat)
  | Option.none => .ok Option.none
  | some pos => do return some (← position size pos)

/-- The positions of both bounds. -/
def positions (size : Nat) (bounds : Option Int × Option Int) : Except SliceStop (Option Nat × Option Nat) := do
  let start ← position? size bounds.1
  let stop ← position? size bounds.2
  return (start, stop)

def slice : Bounds → PySlice
  | .none => ⟨.none, .none, .none⟩
  | .start m => ⟨m, .none, .none⟩
  | .both m n => ⟨m, n, .none⟩

/-- `s[start:end]`. -/
def window (bounds : Bounds) (s : List Char) : List Char := bounds.slice.slice s

/-- Each bound is an integer of 64 bits, and so is its place. -/
def Reads (size : Nat) (bounds : Bounds) : Prop := ∃ checked, bounds.check = .ok checked ∧
  ∃ positions, Bounds.positions size checked = .ok positions

/-- The places of the bounds among the bytes. -/
def places (size : Nat) : Bounds → Nat × Nat
  | .none => (0, size)
  | .start m => (place size (m.value 0), size)
  | .both m n => (place size (m.value 0), place size (n.value 0))

/-- The places are in order, and in the string or, given an end, at the zero byte after it. -/
def InRange (size : Nat) (bounds : Bounds) : Prop :=
  (bounds.places size).1 ≤ (bounds.places size).2 ∧ (bounds.places size).2 ≤ size + 1

end Bounds

namespace Affix

/-- The first argument: a string, a tuple with the names of the types of those that are none, or any other object. -/
inductive AffixArg where
  | str (value : Bytes)
  | tuple (els : List (Bytes ⊕ String))
  | other (typeName : String)
  deriving DecidableEq

/-- The prefixes of a tuple. -/
def tuplePrefixes : List (Bytes ⊕ String) → Except SliceStop (List Bytes)
  | [] => .ok []
  | .inl value :: els => do return value :: (← tuplePrefixes els)
  | .inr _ :: _ => .error (.typeError "expected tuple of objects of type str")

/-- `prefixes_`. -/
def prefixesOf : AffixArg → Except SliceStop (List Bytes)
  | .str value => .ok [value]
  | .tuple els => tuplePrefixes els
  | .other typeName =>
    .error (.typeError s!"startswith first arg must be str or a tuple of str, not '{typeName}'")

/-- The `any_of` over the prefixes, which reads the bounds and makes no use of them. -/
def anyStarts (value : Bytes) (bounds : Option Int × Option Int) : List Bytes → Except SliceStop Bool
  | [] => .ok false
  | p :: prefixes => do
    let _ ← Bounds.positions value.length bounds
    if p <+: value then .ok true else anyStarts value bounds prefixes

/-- `PyString::startswith`. -/
def startswith (value : Bytes) (arg : AffixArg) (bounds : Bounds) : Except SliceStop Bool := do
  let checked ← bounds.check
  let prefixes ← prefixesOf arg
  anyStarts value checked prefixes

/-- `endswith_impl`, of the bytes with the zero after them. A view that is not among them is undefined. -/
def endswithImpl (value : Bytes) (positions : Option Nat × Option Nat) (p : Bytes) : Except SliceStop Bool :=
  let start := positions.1.getD 0
  let stop := positions.2.getD value.length
  if start ≤ stop ∧ stop ≤ value.length + 1 then .ok (decide (p <:+ ((value ++ [0]).take stop).drop start))
  else .error .undefined

/-- The loop over a tuple. -/
def anyEnds (value : Bytes) (positions : Option Nat × Option Nat) : List (Bytes ⊕ String) → Except SliceStop Bool
  | [] => .ok false
  | .inl p :: els => do if ← endswithImpl value positions p then .ok true else anyEnds value positions els
  | .inr typeName :: _ =>
    .error (.typeError s!"tuple for endswith must only contain str, not '{typeName}'")

/-- `PyString::endswith`. -/
def endswith (value : Bytes) (arg : AffixArg) (bounds : Bounds) : Except SliceStop Bool := do
  let checked ← bounds.check
  let positions ← Bounds.positions value.length checked
  match arg with
  | .str p => endswithImpl value positions p
  | .tuple els => anyEnds value positions els
  | .other typeName =>
    .error (.typeError s!"endswith first arg must be str or a tuple of str, not '{typeName}'")

/-! ## What they are for -/

/-- A string or a tuple of strings. -/
inductive Affixes where
  | one (p : List Char)
  | tuple (ps : List (List Char))

def Affixes.list : Affixes → List (List Char)
  | one p => [p]
  | tuple ps => ps

def Affixes.arg : Affixes → AffixArg
  | one p => .str (utf8 p)
  | tuple ps => .tuple (ps.map fun p => .inl (utf8 p))

/-- What is asked of the two methods. -/
structure AffixesRight (s : List Char) (affixes : Affixes) (bounds : Bounds) : Prop where
  starts : startswith (utf8 s) affixes.arg bounds = .ok (affixes.list.any fun p => decide (p <+: bounds.window s))
  ends : endswith (utf8 s) affixes.arg bounds = .ok (affixes.list.any fun p => decide (p <:+ bounds.window s))

/-- `p` is in `s` from the byte position `start` or a later one up to the byte position `stop`. -/
def EndsAt (s p : List Char) (start stop : Nat) : Prop :=
  ∃ t₁ t₂, s = t₁ ++ (p ++ t₂) ∧ start ≤ (utf8 t₁).length ∧ (utf8 t₁).length + (utf8 p).length = stop

/-- The bounds are read, and they make no difference to the beginning, nor their being taken for byte positions one to the
end. -/
structure Plain (s : List Char) (affixes : Affixes) (bounds : Bounds) : Prop where
  reads : bounds.Reads (utf8 s).length
  range : affixes.list ≠ [] → bounds.InRange (utf8 s).length
  starts : (∃ p ∈ affixes.list, p <+: s) ↔ ∃ p ∈ affixes.list, p <+: bounds.window s
  ends : (∃ p ∈ affixes.list, p = [] ∨ EndsAt (s ++ ['\x00']) p (bounds.places (utf8 s).length).1
      (bounds.places (utf8 s).length).2) ↔ ∃ p ∈ affixes.list, p <:+ bounds.window s

/-! ## The bounds -/

end Affix

namespace Bounds

theorem position_ok {size : Nat} {pos : Int} {k : Nat} (h : position size pos = .ok k) : k = place size pos := by
  unfold position at h
  split at h
  next => exact (Except.ok.inj h).symm
  next => cases h

/-- What the two asserts and the positions make of the bounds. -/
theorem positions_places {bounds : Bounds} {size : Nat} {checked : Option Int × Option Int} {ps : Option Nat × Option Nat}
    (hcheck : bounds.check = .ok checked) (h : positions size checked = .ok ps) :
    (ps.1.getD 0, ps.2.getD size) = bounds.places size := by
  unfold positions at h
  obtain ⟨start, hstart, h⟩ := bind_eq_ok.mp h
  obtain ⟨stop, hstop, h⟩ := bind_eq_ok.mp h
  cases h
  have hread {pos : Int} {k : Option Nat} (hk : position? size (some pos) = .ok k) : k = some (place size pos) := by
    obtain ⟨k', hk', hk⟩ := bind_eq_ok.mp hk
    cases hk
    rw [position_ok hk']
  cases bounds with
  | none =>
    cases hcheck
    cases hstart
    cases hstop
    rfl
  | start m =>
    cases m with
    | int m =>
      cases hcheck
      cases hstop
      rw [hread hstart]
      rfl
    | none => cases hcheck
    | other => cases hcheck
  | both m n =>
    cases m with
    | int m =>
      cases n with
      | int n =>
        cases hcheck
        rw [hread hstart, hread hstop]
        rfl
      | none => cases hcheck
      | other => cases hcheck
    | none => cases hcheck
    | other => cases hcheck

end Bounds

namespace Affix

variable {s : List Char} {affixes : Affixes} {bounds : Bounds} {checked : Option Int × Option Int}
  {ps : Option Nat × Option Nat}

/-! ## The beginning -/

theorem tuplePrefixes_map (ps : List (List Char)) :
    tuplePrefixes (ps.map fun p => .inl (utf8 p)) = .ok (ps.map utf8) := by
  induction ps with
  | nil => rfl
  | cons p ps ih =>
    rw [List.map_cons, tuplePrefixes, ih]
    rfl

theorem prefixesOf_arg (affixes : Affixes) : prefixesOf affixes.arg = .ok (affixes.list.map utf8) := by
  cases affixes with
  | one p => rfl
  | tuple ps => exact tuplePrefixes_map ps

theorem anyStarts_eq (h : Bounds.positions (utf8 s).length checked = .ok ps) (l : List (List Char)) :
    anyStarts (utf8 s) checked (l.map utf8) = .ok (l.any fun p => decide (p <+: s)) := by
  induction l with
  | nil => rfl
  | cons p l ih =>
    rw [List.map_cons, anyStarts, h, List.any_cons]
    show (if utf8 p <+: utf8 s then Except.ok true else _) = _
    by_cases hp : p <+: s
    · rw [if_pos (utf8_isPrefix.mpr hp), decide_eq_true hp, Bool.true_or]
    · rw [if_neg (utf8_isPrefix.not.mpr hp), ih, decide_eq_false hp, Bool.false_or]

theorem any_eq_any_iff {l : List (List Char)} {P Q : List Char → Prop} [DecidablePred P] [DecidablePred Q] :
    (l.any fun p => decide (P p)) = (l.any fun p => decide (Q p)) ↔ ((∃ p ∈ l, P p) ↔ ∃ p ∈ l, Q p) := by
  rw [Bool.eq_iff_iff, List.any_eq_true, List.any_eq_true]
  simp only [decide_eq_true_eq]

/-! ## The end -/

theorem utf8_zero : utf8 ['\x00'] = [0] := by
  rw [utf8_cons, utf8_nil, List.append_nil, utf8EncodeChar_ascii (by decide)]
  rfl

/-- The end of a part of the bytes, by the characters. -/
theorem suffix_bytes_iff {s p : List Char} {start stop : Nat} (hle : start ≤ stop) (hstop : stop ≤ (utf8 s).length) :
    utf8 p <:+ ((utf8 s).take stop).drop start ↔ p = [] ∨ EndsAt s p start stop := by
  constructor
  · intro h
    by_cases hp : p = []
    · exact .inl hp
    obtain ⟨x, hx⟩ := h
    have hsplit : utf8 s = ((utf8 s).take start ++ x) ++ (utf8 p ++ (utf8 s).drop stop) := by
      have htake : ((utf8 s).take stop).take start = (utf8 s).take start := by rw [List.take_take, Nat.min_eq_left hle]
      have hfront : (utf8 s).take stop = (utf8 s).take start ++ (x ++ utf8 p) := by
        rw [hx, ← htake, List.take_append_drop]
      calc utf8 s = (utf8 s).take stop ++ (utf8 s).drop stop := (List.take_append_drop _ _).symm
        _ = ((utf8 s).take start ++ (x ++ utf8 p)) ++ (utf8 s).drop stop := by rw [hfront]
        _ = _ := by simp only [List.append_assoc]
    obtain ⟨t₁, t₂, hs, ht₁, ht₂⟩ := utf8_infix_parts hp hsplit
    have hlength := congrArg List.length ht₁
    have hdrop := congrArg List.length ht₂
    have hall := congrArg List.length hsplit
    simp only [List.length_append, List.length_take, List.length_drop] at hlength hdrop hall
    exact .inr ⟨t₁, t₂, hs, by omega, by omega⟩
  · intro h
    rcases h with rfl | ⟨t₁, t₂, rfl, hstart, hend⟩
    · exact List.nil_suffix
    · have htake : (utf8 (t₁ ++ (p ++ t₂))).take stop = utf8 t₁ ++ utf8 p := by
        rw [utf8_append, utf8_append, ← List.append_assoc, ← hend, ← List.length_append, List.take_left]
      rw [htake, List.drop_append_of_le_length hstart]
      exact List.suffix_append _ _

/-- Where a suffix ends in the bytes of a call, by the characters. -/
def EndsIn (s : List Char) (bounds : Bounds) (p : List Char) : Prop :=
  utf8 p <:+ ((utf8 s ++ [0]).take (bounds.places (utf8 s).length).2).drop (bounds.places (utf8 s).length).1

instance : DecidablePred (EndsIn s bounds) := fun _ => inferInstanceAs (Decidable (_ <:+ _))

theorem endsIn_iff {p : List Char} (h : bounds.InRange (utf8 s).length) : EndsIn s bounds p ↔
    p = [] ∨ EndsAt (s ++ ['\x00']) p (bounds.places (utf8 s).length).1 (bounds.places (utf8 s).length).2 := by
  have hzero : utf8 (s ++ ['\x00']) = utf8 s ++ [0] := by rw [utf8_append, utf8_zero]
  unfold EndsIn
  rw [← hzero]
  refine suffix_bytes_iff h.1 ?_
  rw [hzero, List.length_append]
  exact h.2

theorem endswithImpl_eq (p : List Char) (h : (ps.1.getD 0, ps.2.getD (utf8 s).length) = bounds.places (utf8 s).length) :
    (bounds.InRange (utf8 s).length → endswithImpl (utf8 s) ps (utf8 p) = .ok (decide (EndsIn s bounds p))) ∧
      (¬ bounds.InRange (utf8 s).length → endswithImpl (utf8 s) ps (utf8 p) = .error .undefined) := by
  have hstart : ps.1.getD 0 = (bounds.places (utf8 s).length).1 := congrArg Prod.fst h
  have hstop : ps.2.getD (utf8 s).length = (bounds.places (utf8 s).length).2 := congrArg Prod.snd h
  unfold endswithImpl
  simp only [hstart, hstop]
  constructor
  · intro hin
    rw [if_pos (show _ ≤ _ ∧ _ ≤ _ from hin)]
    exact congrArg Except.ok (decide_eq_decide.mpr Iff.rfl)
  · exact fun hout => if_neg hout

theorem anyEnds_eq (h : (ps.1.getD 0, ps.2.getD (utf8 s).length) = bounds.places (utf8 s).length)
    (hin : bounds.InRange (utf8 s).length) (l : List (List Char)) :
    anyEnds (utf8 s) ps (l.map fun p => .inl (utf8 p)) = .ok (l.any fun p => decide (EndsIn s bounds p)) := by
  induction l with
  | nil => rfl
  | cons p l ih =>
    rw [List.map_cons, anyEnds, (endswithImpl_eq p h).1 hin, List.any_cons]
    show (if decide (EndsIn s bounds p) = true then Except.ok true else _) = _
    by_cases hp : EndsIn s bounds p
    · rw [if_pos (decide_eq_true hp), decide_eq_true hp, Bool.true_or]
    · rw [if_neg (by rwa [decide_eq_true_eq]), ih, decide_eq_false hp, Bool.false_or]

/-! ## A call -/

theorem startswith_eq (hcheck : bounds.check = .ok checked) (h : Bounds.positions (utf8 s).length checked = .ok ps) :
    startswith (utf8 s) affixes.arg bounds = .ok (affixes.list.any fun p => decide (p <+: s)) := by
  rw [startswith, hcheck, prefixesOf_arg]
  exact anyStarts_eq h affixes.list

theorem endswith_eq (hcheck : bounds.check = .ok checked) (h : Bounds.positions (utf8 s).length checked = .ok ps)
    (hin : affixes.list ≠ [] → bounds.InRange (utf8 s).length) :
    endswith (utf8 s) affixes.arg bounds = .ok (affixes.list.any fun p => decide (EndsIn s bounds p)) := by
  have hplaces := Bounds.positions_places hcheck h
  rw [endswith, hcheck]
  show (do let positions ← Bounds.positions (utf8 s).length checked; _) = _
  rw [h]
  cases affixes with
  | one p =>
    refine ((endswithImpl_eq p hplaces).1 (hin (List.cons_ne_nil _ _))).trans (congrArg Except.ok ?_)
    exact (Bool.or_false _).symm
  | tuple l =>
    by_cases hl : l = []
    · subst hl
      rfl
    · exact anyEnds_eq hplaces (hin hl) l

theorem endswith_out (hcheck : bounds.check = .ok checked) (h : Bounds.positions (utf8 s).length checked = .ok ps)
    (hne : affixes.list ≠ []) (hout : ¬ bounds.InRange (utf8 s).length) :
    endswith (utf8 s) affixes.arg bounds = .error .undefined := by
  have hplaces := Bounds.positions_places hcheck h
  rw [endswith, hcheck]
  show (do let positions ← Bounds.positions (utf8 s).length checked; _) = _
  rw [h]
  cases affixes with
  | one p => exact (endswithImpl_eq p hplaces).2 hout
  | tuple l =>
    obtain ⟨p, l, rfl⟩ := List.exists_cons_of_ne_nil hne
    show anyEnds (utf8 s) ps (.inl (utf8 p) :: _) = _
    rw [anyEnds, (endswithImpl_eq p hplaces).2 hout]
    rfl

/-- **`startswith` and `endswith` are right** where the bounds are read and make no difference to the beginning, and the end
is the same by bytes and by characters. -/
theorem affixesRight_iff (s : List Char) (affixes : Affixes) (bounds : Bounds) :
    AffixesRight s affixes bounds ↔ Plain s affixes bounds := by
  constructor
  · intro h
    have hreads : bounds.Reads (utf8 s).length := by
      have hends := h.ends
      unfold endswith at hends
      obtain ⟨checked, hcheck, hends⟩ := bind_eq_ok.mp hends
      obtain ⟨ps, hps, -⟩ := bind_eq_ok.mp hends
      exact ⟨checked, hcheck, ps, hps⟩
    obtain ⟨checked, hcheck, ps, hps⟩ := hreads
    have hrange (hne : affixes.list ≠ []) : bounds.InRange (utf8 s).length := by
      by_contra hout
      cases h.ends.symm.trans (endswith_out hcheck hps hne hout)
    refine { reads := ⟨checked, hcheck, ps, hps⟩, range := hrange, starts := ?_, ends := ?_ }
    · have heq := Except.ok.inj ((startswith_eq hcheck hps).symm.trans h.starts)
      exact any_eq_any_iff.mp heq
    · have heq := Except.ok.inj ((endswith_eq hcheck hps hrange).symm.trans h.ends)
      rw [← any_eq_any_iff.mp heq]
      exact exists_congr fun p => and_congr_right fun hp => (endsIn_iff (hrange (List.ne_nil_of_mem hp))).symm
  · intro h
    obtain ⟨checked, hcheck, ps, hps⟩ := h.reads
    have hends : (∃ p ∈ affixes.list, EndsIn s bounds p) ↔ ∃ p ∈ affixes.list, p <:+ bounds.window s := by
      rw [← h.ends]
      exact exists_congr fun p => and_congr_right fun hp => endsIn_iff (h.range (List.ne_nil_of_mem hp))
    exact { starts := (startswith_eq hcheck hps).trans (congrArg Except.ok (any_eq_any_iff.mpr h.starts))
            ends := (endswith_eq hcheck hps h.range).trans (congrArg Except.ok (any_eq_any_iff.mpr hends)) }

/-- `"ab".startswith("a", 1)`. -/
theorem bound_ignored : startswith (utf8 ['a', 'b']) (.str (utf8 ['a'])) (.start (.int 1)) = .ok true ∧
    (Bounds.start (.int 1)).window ['a', 'b'] = ['b'] ∧ ¬ AffixesRight ['a', 'b'] (.one ['a']) (.start (.int 1)) := by
  have htrue : startswith (utf8 ['a', 'b']) (.str (utf8 ['a'])) (.start (.int 1)) = .ok true := by decide
  refine ⟨htrue, by decide, fun h => ?_⟩
  have hfalse : ((Affixes.one ['a']).list.any fun p => decide (p <+: (Bounds.start (.int 1)).window ['a', 'b'])) =
      false := by decide
  cases hfalse.symm.trans (Except.ok.inj (htrue.symm.trans h.starts)).symm

end Affix

end Pylang.Runtime
