/-
The constants of a function: the attribute `load_const` and the builders of
`ConstantOp` make of a literal, the object `get_value` makes of the attribute,
and the pool `add_const` looks for an equal object in. Objects of literals are
their values. Whether LLVM's assertions are compiled in and whether a runtime
context is current are parameters.
-/
import Mathlib
import Pylang.Lib.Ensures

namespace Pylang.Bytecode

/-- A double. Its fraction is not bounded here. -/
inductive Double
  | nan
  | infinity (negative : Bool)
  | zero (negative : Bool)
  | nonzero (q : {q : ℚ // q ≠ 0})
  deriving DecidableEq

/-- The object of a constant. -/
inductive Constant
  | none
  | bool (b : Bool)
  | int (n : ℤ)
  | float (x : Double)
  | str (s : String)
  | bytes (bs : List UInt8)
  | tuple (elements : List Constant)

/-- `getAPSInt` of an `IntegerAttr`. -/
structure APSInt where
  bits : Nat
  isUnsigned : Bool
  value : BitVec bits

inductive Attribute
  | unit
  | bool (b : Bool)
  | float (x : Double)
  | string (s : String)
  | integer (v : APSInt)
  | denseIntElements (bs : List UInt8)
  | array (elements : List Attribute)

inductive Abort
  /-- An assertion, of LLVM or of `unwrap`. -/
  | assertion
  /-- GMP's, for a number that is none. -/
  | invalidOperation
  deriving DecidableEq

/-! ## Attributes -/

/-- `load_const` of an integer. -/
def loadInt (integer : ℤ) : APSInt :=
  if integer = 0 then ⟨1, true, 0⟩
  else ⟨integer.natAbs.log2 + 1, decide (0 ≤ integer), BitVec.ofNat _ integer.natAbs⟩

mutual

/-- The attribute of a `ConstantOp`. -/
def Constant.attribute : Constant → Attribute
  | .none => .unit
  | .bool b => .bool b
  | .int n => .integer (loadInt n)
  | .float x => .float x
  | .str s => .string s
  | .bytes bs => .denseIntElements bs
  | .tuple elements => .array (Constant.attributes elements)

def Constant.attributes : List Constant → List Attribute
  | [] => []
  | c :: cs => c.attribute :: Constant.attributes cs

end

/-! ## Objects -/

/-- `getZExtValue`: the low word, which the assertion says is all. -/
def getZExtValue (ndebug : Bool) {w : Nat} (v : BitVec w) : Except Abort Nat :=
  if v.toNat < 2 ^ 64 ∨ ndebug then .ok (v.toNat % 2 ^ 64) else .error .assertion

/-- The integer of an attribute. The word is negated as a word. -/
def bigIntOf (ndebug : Bool) (int_value : APSInt) : Except Abort ℤ :=
  if int_value.value.toNat = 0 then .ok 0
  else if !int_value.isUnsigned && int_value.value.msb then
    (getZExtValue ndebug int_value.value.abs).map fun word => ((2 ^ 64 - word) % 2 ^ 64 : Nat)
  else (getZExtValue ndebug int_value.value).map Nat.cast

mutual

/-- `get_value`. -/
def getValue (ndebug : Bool) : Attribute → Except Abort Constant
  | .unit => .ok .none
  | .bool b => .ok (.bool b)
  | .float x => .ok (.float x)
  | .string s => .ok (.str s)
  | .integer v => (bigIntOf ndebug v).map .int
  | .denseIntElements bs => .ok (.bytes bs)
  | .array elements => (getValues ndebug elements).map .tuple

def getValues (ndebug : Bool) : List Attribute → Except Abort (List Constant)
  | [] => .ok []
  | a :: as => (getValue ndebug a).bind fun v => (getValues ndebug as).map (v :: ·)

end

/-! ## Equality -/

/-- `mpz_cmp_d` is zero. -/
def cmpDouble (n : ℤ) : Double → Except Abort Bool
  | .nan => .error .invalidOperation
  | .infinity _ => .ok false
  | .zero _ => .ok (n == 0)
  | .nonzero q => .ok ((n : ℚ) == q.1)

/-- `==` of two doubles. -/
def Double.eq : Double → Double → Bool
  | .infinity a, .infinity b => a == b
  | .zero _, .zero _ => true
  | .nonzero p, .nonzero q => p == q
  | _, _ => false

mutual

/-- `RuntimeContext::equals`, which takes an error of `__eq__` for an answer. -/
def equals (hasCurrent : Bool) : Constant → Constant → Except Abort Bool
  | .none, .none => .ok true
  | .bool a, .bool b => .ok (a == b)
  | .int a, .int b => .ok (a == b)
  | .int a, .float y => cmpDouble a y
  | .float x, .int b => cmpDouble b x
  | .float x, .float y => .ok (x.eq y)
  | .str s, .str t => .ok (s == t)
  | .bytes bs, .bytes cs => .ok (bs == cs)
  | .tuple us, .tuple vs => if us.length = vs.length then elementsEqual hasCurrent us vs else .ok false
  | _, _ => .ok false

/-- The elements of two tuples of one length, `PyTuple::__eq__`. -/
def elementsEqual (hasCurrent : Bool) : List Constant → List Constant → Except Abort Bool
  | u :: us, v :: vs =>
    if hasCurrent then (equals hasCurrent u v).bind fun same => if same then elementsEqual hasCurrent us vs else .ok false
    else .ok false
  | _, _ => .ok true

end

inductive PyType
  | noneType | bool | integer | float | str | bytes | tuple
  deriving DecidableEq

def Constant.type : Constant → PyType
  | .none => .noneType
  | .bool _ => .bool
  | .int _ => .integer
  | .float _ => .float
  | .str _ => .str
  | .bytes _ => .bytes
  | .tuple _ => .tuple

/-- `RtValue::compare_eq` of two objects of one type. -/
def compareEq (hasCurrent : Bool) : Constant → Constant → Except Abort Bool
  -- `PyNumber::__eq__` fails for a `bool`, and its result is unwrapped
  | .bool a, .bool b => if a = b then .ok true else .error .assertion
  | el, value => equals hasCurrent el value

/-- The condition of `add_const`. -/
def sameConst (hasCurrent : Bool) (el value : Constant) : Except Abort Bool :=
  if el.type ≠ value.type then .ok false else compareEq hasCurrent el value

/-! ## The pool -/

/-- `std::find_if` of `add_const`. -/
def findConst (hasCurrent : Bool) (value : Constant) : List Constant → Except Abort (Option Nat)
  | [] => .ok none
  | el :: els => (sameConst hasCurrent el value).bind fun same =>
    if same then .ok (some 0) else (findConst hasCurrent value els).map (Option.map (· + 1))

/-- `add_const`. -/
def addConst (hasCurrent : Bool) (consts : List Constant) (value : Constant) : Except Abort (List Constant × Nat) :=
  (findConst hasCurrent value consts).map fun
    | some it => (consts, it)
    | none => (consts ++ [value], consts.length)

/-- The `ConstantOp`s of a function, in order: the pool, and the index of each. -/
def emitConstants (ndebug hasCurrent : Bool) : List Constant → List Constant → Except Abort (List Constant × List Nat)
  | consts, [] => .ok (consts, [])
  | consts, c :: cs =>
    (getValue ndebug c.attribute).bind fun value => (addConst hasCurrent consts value).bind fun (consts', idx) =>
      (emitConstants ndebug hasCurrent consts' cs).map fun (consts'', is) => (consts'', idx :: is)

/-- Each constant is what its index holds. -/
def PoolRight (ndebug hasCurrent : Bool) (cs : List Constant) : Prop :=
  ∃ consts is, emitConstants ndebug hasCurrent [] cs = .ok (consts, is) ∧ is.map (consts[·]?) = cs.map some

mutual

/-- The integers of a constant are words. -/
def Constant.Fits : Constant → Prop
  | .int n => 0 ≤ n ∧ n < 2 ^ 64
  | .tuple elements => Constant.AllFit elements
  | _ => True

def Constant.AllFit : List Constant → Prop
  | [] => True
  | c :: cs => c.Fits ∧ Constant.AllFit cs

end

/-- Two constants do not meet in the pool. -/
def KeptApart (hasCurrent : Bool) (u v : Constant) : Prop := u = v ∨ sameConst hasCurrent u v = .ok false

variable {ndebug hasCurrent : Bool} {cs consts consts' : List Constant} {u v value : Constant}

theorem map_eq_ok {ε α β : Type} {f : α → β} {x : Except ε α} {b : β} :
    x.map f = .ok b ↔ ∃ a, x = .ok a ∧ f a = b := by
  cases x with
  | ok a => simp [Except.map]
  | error e => simp [Except.map]

/-! ## Integers -/

theorem loadInt_value {n : ℤ} : (loadInt n).value.toNat = n.natAbs := by
  unfold loadInt
  by_cases h : n = 0
  · rw [if_pos h, h]
    rfl
  · rw [if_neg h]
    exact Nat.mod_eq_of_lt Nat.lt_log2_self

theorem loadInt_isUnsigned {n : ℤ} (h : 0 ≤ n) : (loadInt n).isUnsigned = true := by
  unfold loadInt
  split
  · rfl
  · simpa using h

theorem bigIntOf_loadInt {n : ℤ} (h : 0 ≤ n ∧ n < 2 ^ 64) : bigIntOf ndebug (loadInt n) = .ok n := by
  unfold bigIntOf getZExtValue
  rw [loadInt_value, loadInt_isUnsigned h.1]
  by_cases hzero : n = 0
  · simp [hzero]
  · rw [if_neg (by omega), if_neg (by simp), if_pos (by omega)]
    have hcast : ((n.natAbs % 2 ^ 64 : Nat) : ℤ) = n := by omega
    exact congrArg Except.ok hcast

/-- Only words come back. -/
theorem bigIntOf_fits {a : APSInt} {n : ℤ} (h : bigIntOf ndebug a = .ok n) : 0 ≤ n ∧ n < 2 ^ 64 := by
  unfold bigIntOf at h
  split at h
  · cases h
    omega
  · split at h
    · obtain ⟨word, -, rfl⟩ := map_eq_ok.mp h
      omega
    · obtain ⟨word, hword, rfl⟩ := map_eq_ok.mp h
      unfold getZExtValue at hword
      split at hword
      · cases hword
        have hword := Nat.mod_lt a.value.toNat (by decide : 0 < 2 ^ 64)
        omega
      · cases hword

mutual

theorem getValue_fits : ∀ {a : Attribute} {v : Constant}, getValue ndebug a = .ok v → v.Fits
  | .integer _, _, h => by
    obtain ⟨n, hn, rfl⟩ := map_eq_ok.mp h
    exact bigIntOf_fits hn
  | .array _, _, h => by
    obtain ⟨vs, hvs, rfl⟩ := map_eq_ok.mp h
    exact getValues_allFit hvs
  | .unit, _, h => by cases h; trivial
  | .bool _, _, h => by cases h; trivial
  | .float _, _, h => by cases h; trivial
  | .string _, _, h => by cases h; trivial
  | .denseIntElements _, _, h => by cases h; trivial

theorem getValues_allFit : ∀ {as : List Attribute} {vs : List Constant}, getValues ndebug as = .ok vs → Constant.AllFit vs
  | [], _, h => by cases h; trivial
  | _ :: _, _, h => by
    obtain ⟨v, hv, h⟩ := bind_eq_ok.mp h
    obtain ⟨vs, hvs, rfl⟩ := map_eq_ok.mp h
    exact ⟨getValue_fits hv, getValues_allFit hvs⟩

end

mutual

theorem getValue_attribute : ∀ {c : Constant}, c.Fits → getValue ndebug c.attribute = .ok c
  | .int _, h => by
    simp only [Constant.attribute, getValue, bigIntOf_loadInt h]
    rfl
  | .tuple _, h => by
    simp only [Constant.attribute, getValue, getValues_attributes h]
    rfl
  | .none, _ => rfl
  | .bool _, _ => rfl
  | .float _, _ => rfl
  | .str _, _ => rfl
  | .bytes _, _ => rfl

theorem getValues_attributes : ∀ {cs : List Constant}, Constant.AllFit cs →
    getValues ndebug (Constant.attributes cs) = .ok cs
  | [], _ => rfl
  | _ :: _, h => by
    simp only [Constant.attributes, getValues, getValue_attribute h.1, getValues_attributes h.2]
    rfl

end

/-! ## The comparison -/

theorem Double.eq_comm (x y : Double) : x.eq y = y.eq x := by
  cases x <;> cases y <;> simp [Double.eq, Bool.beq_comm]

mutual

theorem equals_comm : ∀ u v : Constant, equals hasCurrent u v = equals hasCurrent v u
  | .tuple us, .tuple vs => by
    unfold equals
    by_cases hlength : us.length = vs.length
    · rw [if_pos hlength, if_pos hlength.symm, elementsEqual_comm us vs]
    · rw [if_neg hlength, if_neg (Ne.symm hlength)]
  | .float x, .float y => by simp only [equals, Double.eq_comm]
  | .bool _, v => by cases v <;> simp [equals, Bool.beq_comm]
  | .int _, v => by cases v <;> simp [equals, Bool.beq_comm]
  | .str _, v => by cases v <;> simp [equals, Bool.beq_comm]
  | .bytes _, v => by cases v <;> simp [equals, Bool.beq_comm]
  | .none, v => by cases v <;> rfl
  | .float _, .none | .float _, .bool _ | .float _, .int _ | .float _, .str _ | .float _, .bytes _ | .float _, .tuple _ => rfl
  | .tuple _, .none | .tuple _, .bool _ | .tuple _, .int _ | .tuple _, .float _ | .tuple _, .str _ | .tuple _, .bytes _ => rfl

theorem elementsEqual_comm : ∀ us vs : List Constant, elementsEqual hasCurrent us vs = elementsEqual hasCurrent vs us
  | u :: us, v :: vs => by simp only [elementsEqual, equals_comm u v, elementsEqual_comm us vs]
  | [], [] => rfl
  | [], _ :: _ => rfl
  | _ :: _, [] => rfl

end

mutual

theorem equals_self : ∀ c : Constant, ∃ same, equals hasCurrent c c = .ok same
  | .tuple elements => by
    obtain ⟨same, hsame⟩ := elementsEqual_self elements
    exact ⟨same, by rw [equals, if_pos rfl, hsame]⟩
  | .none => ⟨_, rfl⟩
  | .bool _ => ⟨_, rfl⟩
  | .int _ => ⟨_, rfl⟩
  | .float _ => ⟨_, rfl⟩
  | .str _ => ⟨_, rfl⟩
  | .bytes _ => ⟨_, rfl⟩

theorem elementsEqual_self : ∀ cs : List Constant, ∃ same, elementsEqual hasCurrent cs cs = .ok same
  | [] => ⟨true, rfl⟩
  | c :: cs => by
    obtain ⟨same, hsame⟩ := equals_self c
    obtain ⟨rest, hrest⟩ := elementsEqual_self cs
    cases hasCurrent with
    | false => exact ⟨false, rfl⟩
    | true =>
      cases same with
      | false => exact ⟨false, by simp [elementsEqual, hsame, Except.bind]⟩
      | true => exact ⟨rest, by simp [elementsEqual, hsame, hrest, Except.bind]⟩

end

theorem compareEq_comm (u v : Constant) : compareEq hasCurrent u v = compareEq hasCurrent v u := by
  cases u <;> cases v <;> first | exact equals_comm _ _ | simp only [compareEq, eq_comm]

theorem sameConst_comm (u v : Constant) : sameConst hasCurrent u v = sameConst hasCurrent v u := by
  unfold sameConst
  by_cases htype : u.type = v.type
  · rw [if_neg (not_not.mpr htype), if_neg (not_not.mpr htype.symm), compareEq_comm]
  · rw [if_pos htype, if_pos (Ne.symm htype)]

theorem sameConst_self (c : Constant) : ∃ same, sameConst hasCurrent c c = .ok same := by
  unfold sameConst
  rw [if_neg (not_not.mpr rfl)]
  cases c with
  | bool b => exact ⟨true, if_pos rfl⟩
  | _ => exact equals_self _

/-! ## Searching the pool -/

/-- What is found equals the value, and where nothing is found nothing does. -/
theorem findConst_spec {it : Option Nat} (h : findConst hasCurrent value consts = .ok it) :
    match it with
    | some i => ∃ el, consts[i]? = some el ∧ sameConst hasCurrent el value = .ok true
    | none => ∀ el ∈ consts, sameConst hasCurrent el value = .ok false := by
  induction consts generalizing it with
  | nil =>
    cases h
    simp
  | cons el els ih =>
    obtain ⟨same, hsame, h⟩ := bind_eq_ok.mp h
    cases same with
    | true =>
      cases h
      exact ⟨el, rfl, hsame⟩
    | false =>
      obtain ⟨it', hit, rfl⟩ := map_eq_ok.mp h
      have hrest := ih hit
      cases it' with
      | some i => exact hrest
      | none => exact List.forall_mem_cons.mpr ⟨hsame, hrest⟩

/-- Among constants that do not meet it, a value is found where it is. -/
theorem findConst_keptApart (h : ∀ el ∈ consts, KeptApart hasCurrent el value) :
    ∃ it, findConst hasCurrent value consts = .ok it ∧ ∀ i, it = some i → consts[i]? = some value := by
  induction consts with
  | nil => exact ⟨none, rfl, fun i hi => (by cases hi)⟩
  | cons el els ih =>
    obtain ⟨hel, hels⟩ := List.forall_mem_cons.mp h
    obtain ⟨it, hit, hat⟩ := ih hels
    have hsame_iff : ∃ same, sameConst hasCurrent el value = .ok same ∧ (same = true → el = value) := by
      rcases hel with rfl | hfalse
      · obtain ⟨same, hsame⟩ := sameConst_self el
        exact ⟨same, hsame, fun _ => rfl⟩
      · exact ⟨false, hfalse, fun h => (by cases h)⟩
    obtain ⟨same, hsame, heq⟩ := hsame_iff
    unfold findConst
    rw [hsame]
    cases same with
    | true => exact ⟨some 0, rfl, fun i hi => by cases hi; rw [heq rfl]; rfl⟩
    | false =>
      refine ⟨it.map (· + 1), by rw [hit]; rfl, fun i hi => ?_⟩
      obtain ⟨j, rfl, rfl⟩ := Option.map_eq_some_iff.mp hi
      exact hat j rfl

/-! ## The pool -/

/-- The objects of a pool are words and differ. -/
structure Distinct (hasCurrent : Bool) (consts : List Constant) : Prop where
  fits : ∀ c ∈ consts, c.Fits
  apart : consts.Pairwise fun u v => sameConst hasCurrent u v = .ok false

theorem Distinct.addConst {idx : Nat} (hd : Distinct hasCurrent consts) (hv : value.Fits)
    (h : addConst hasCurrent consts value = .ok (consts', idx)) : Distinct hasCurrent consts' := by
  obtain ⟨it, hit, h⟩ := map_eq_ok.mp h
  have hspec := findConst_spec hit
  cases it with
  | some i =>
    cases h
    exact hd
  | none =>
    cases h
    constructor
    · intro c hc
      rcases List.mem_append.mp hc with hc | hc
      · exact hd.fits c hc
      · rwa [List.mem_singleton.mp hc]
    · exact List.pairwise_append.mpr ⟨hd.apart, List.pairwise_singleton _ _, fun u hu v hv => by
        rw [List.mem_singleton.mp hv]; exact hspec u hu⟩

theorem Distinct.emitConstants {is : List Nat} (hd : Distinct hasCurrent consts)
    (h : emitConstants ndebug hasCurrent consts cs = .ok (consts', is)) : Distinct hasCurrent consts' := by
  induction cs generalizing consts is with
  | nil =>
    cases h
    exact hd
  | cons c cs ih =>
    obtain ⟨value, hvalue, h⟩ := bind_eq_ok.mp h
    obtain ⟨⟨consts₁, idx⟩, hadd, h⟩ := bind_eq_ok.mp h
    obtain ⟨⟨consts₂, is'⟩, hrest, h⟩ := map_eq_ok.mp h
    cases h
    exact ih (hd.addConst (getValue_fits hvalue) hadd) hrest

theorem Distinct.keptApart (hd : Distinct hasCurrent consts) (hu : u ∈ consts) (hv : v ∈ consts) :
    KeptApart hasCurrent u v := by
  obtain ⟨i, hi, rfl⟩ := List.getElem_of_mem hu
  obtain ⟨j, hj, rfl⟩ := List.getElem_of_mem hv
  have hpairs := List.pairwise_iff_getElem.mp hd.apart
  rcases lt_trichotomy i j with hlt | rfl | hlt
  · exact .inr (hpairs i j hi hj hlt)
  · exact .inl rfl
  · exact .inr (sameConst_comm (consts[i]) (consts[j]) ▸ hpairs j i hj hi hlt)

theorem emitConstants_of_keptApart (hfits : ∀ c ∈ cs, c.Fits)
    (h : ∀ u ∈ consts ++ cs, ∀ v ∈ cs, KeptApart hasCurrent u v) :
    ∃ consts' is, emitConstants ndebug hasCurrent consts cs = .ok (consts', is) ∧
      (∃ more, consts' = consts ++ more) ∧ is.map (consts'[·]?) = cs.map some := by
  induction cs generalizing consts with
  | nil => exact ⟨consts, [], rfl, ⟨[], (List.append_nil _).symm⟩, rfl⟩
  | cons c cs ih =>
    obtain ⟨it, hit, hat⟩ := findConst_keptApart fun el hel => h el (List.mem_append_left _ hel) c (List.mem_cons_self)
    -- the pool after the constant, and what it holds at the index
    have hadd : ∃ consts₁ idx, addConst hasCurrent consts c = .ok (consts₁, idx) ∧ (∃ more, consts₁ = consts ++ more) ∧
        consts₁[idx]? = some c ∧ ∀ u ∈ consts₁, u ∈ consts ++ c :: cs := by
      cases it with
      | some i =>
        exact ⟨consts, i, by rw [addConst, hit]; rfl, ⟨[], (List.append_nil _).symm⟩, hat i rfl,
          fun u hu => List.mem_append_left _ hu⟩
      | none =>
        refine ⟨consts ++ [c], consts.length, by rw [addConst, hit]; rfl, ⟨[c], rfl⟩, by simp, fun u hu => ?_⟩
        simp only [List.mem_append, List.mem_cons] at hu ⊢
        tauto
    obtain ⟨consts₁, idx, hadd, ⟨more, rfl⟩, hidx, hmem⟩ := hadd
    obtain ⟨consts₂, is, hrest, ⟨more', rfl⟩, hmap⟩ := ih
      (fun c' hc => hfits c' (List.mem_cons_of_mem _ hc)) fun u hu v hv => by
        refine h u ?_ v (List.mem_cons_of_mem _ hv)
        rcases List.mem_append.mp hu with hu | hu
        · exact hmem u hu
        · exact List.mem_append_right _ (List.mem_cons_of_mem _ hu)
    refine ⟨consts ++ more ++ more', idx :: is, ?_, ⟨more ++ more', List.append_assoc _ _ _⟩, ?_⟩
    · simp only [emitConstants, getValue_attribute (hfits c List.mem_cons_self), hadd, hrest, Except.bind, Except.map]
    · have hlt := (List.getElem?_eq_some_iff.mp hidx).1
      rw [List.map_cons, List.map_cons, hmap, List.getElem?_append_left hlt, hidx]

theorem mem_of_map {is : List Nat} (h : is.map (consts[·]?) = cs.map some) (hu : u ∈ cs) : u ∈ consts := by
  have hmem : some u ∈ is.map (consts[·]?) := h ▸ List.mem_map_of_mem hu
  obtain ⟨i, -, hi⟩ := List.mem_map.mp hmem
  exact List.mem_of_getElem? hi

/-- **Every index holds its constant** just where the integers are words and no
two of the constants meet. -/
theorem poolRight_iff (ndebug hasCurrent : Bool) (cs : List Constant) :
    PoolRight ndebug hasCurrent cs ↔ (∀ c ∈ cs, c.Fits) ∧ ∀ u ∈ cs, ∀ v ∈ cs, KeptApart hasCurrent u v := by
  constructor
  · intro h
    obtain ⟨consts, is, hemit, hmap⟩ := h
    have hd : Distinct hasCurrent consts := Distinct.emitConstants ⟨by simp, List.Pairwise.nil⟩ hemit
    refine ⟨fun c hc => hd.fits c (mem_of_map hmap hc), fun u hu v hv => ?_⟩
    exact hd.keptApart (mem_of_map hmap hu) (mem_of_map hmap hv)
  · intro h
    obtain ⟨hfits, hkept⟩ := h
    obtain ⟨consts, is, hemit, -, hmap⟩ := emitConstants_of_keptApart hfits (List.nil_append cs ▸ hkept)
    exact ⟨consts, is, hemit, hmap⟩

/-- The list displays `[1]` and `[1.0]`, the literal `18446744073709551616`, the
constants `0.0` and `-0.0`, and `True` and `False`. -/
theorem pool_wrong :
    ¬ PoolRight true true [.tuple [.int 1], .tuple [.float (.nonzero ⟨1, by decide⟩)]] ∧
    ¬ PoolRight true true [.int (2 ^ 64)] ∧
    ¬ PoolRight true true [.float (.zero false), .float (.zero true)] ∧
    ¬ PoolRight true true [.bool true, .bool false] := by
  refine ⟨?_, ?_, ?_, ?_⟩
  · intro h
    obtain ⟨consts, is, hemit, hmap⟩ := h
    cases hemit
    cases hmap
  · intro h
    obtain ⟨consts, is, hemit, hmap⟩ := h
    have hd : Distinct true consts := Distinct.emitConstants ⟨by simp, List.Pairwise.nil⟩ hemit
    exact absurd (hd.fits _ (mem_of_map hmap List.mem_cons_self)).2 (by decide)
  · intro h
    obtain ⟨consts, is, hemit, hmap⟩ := h
    cases hemit
    cases hmap
  · intro h
    obtain ⟨consts, is, hemit, hmap⟩ := h
    cases hemit

end Pylang.Bytecode
