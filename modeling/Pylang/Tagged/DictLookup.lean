/-
The lookups of a `dict`, over the hash table it is kept in.

Some paths ask the table alone and others go on to compare every key; they
differ also in the form of the key they ask for, as it is, boxed or flattened,
and `True` and `False` are flattened to 1 and 0. On keys for which `==` is
answered without an error, symmetric, transitive, of equal hashes and blind to
the form, all of them find the same entry (`lookupsAgree`). Two tuples that are
equal have different hashes, so that they are no such keys.
-/
import Pylang.Tagged.Equality
import Pylang.Tagged.IntKey

namespace Pylang.Tagged

/-! ## Keys -/

/-- What a comparison returns: `True` or `False`, or another object that is true or not. -/
inductive Answer where
  | bool (value : Bool)
  | object (truthy : Bool)
deriving DecidableEq

def Answer.isTrue : Answer → Bool
  | .bool value => value
  | .object truthy => truthy

inductive KeyObject where
  | builtin (object : PyObject)
  /-- An object of any other class, or a container that holds one. -/
  | other (addr : Nat)

/-- What the objects of the other classes do in a comparison, and what the hashes are of. -/
structure KeyWorld extends Runtime where
  noneAddr : Nat
  stringHash : String → BitVec 64
  otherEq : KeyObject → KeyObject → Except Unit Answer
  otherHash : Nat → BitVec 64

abbrev Key := Word KeyObject

/-- `RtValue::flatten`. -/
def flattenKey : Key → Key
  | .tagged w => .tagged w
  | .ptr (.builtin (.bool value)) => .tagged (fromInt (if value then 1 else 0))
  | .ptr (.builtin (.integer addr n)) =>
    if fitsSlong n && fitsTaggedInt n then .tagged (fromInt (BitVec.ofInt 64 n)) else .ptr (.builtin (.integer addr n))
  | .ptr object => .ptr object

namespace KeyWorld

variable (W : KeyWorld)

def boxObject : Key → KeyObject
  | .tagged w => .builtin (.integer (W.cached w.asInt.toInt) w.asInt.toInt)
  | .ptr object => object

/-- `ensure_box`. -/
def box (key : Key) : Key := .ptr (W.boxObject key)

/-- `PyObject::__hash__`, which `None`, `list` and `tuple` have. -/
def addressHash (addr : Nat) : BitVec 64 := BitVec.ofNat 64 addr >>> 4

def objectHash : KeyObject → BitVec 64
  | .builtin .none => addressHash W.noneAddr
  | .builtin (.bool value) => BitVec.ofInt 64 (pyIntegerHash (if value then 1 else 0))
  | .builtin (.integer _ n) => BitVec.ofInt 64 (pyIntegerHash n)
  | .builtin (.string _ s) => W.stringHash s
  | .builtin (.list addr _) => addressHash addr
  | .builtin (.tuple addr _) => addressHash addr
  | .other addr => W.otherHash addr

/-- `RtValueHash`. -/
def rtValueHash : Key → BitVec 64
  | .tagged w => BitVec.ofInt 64 (hashBigInt w.asInt.toInt)
  | .ptr object => W.objectHash object

def sameObject : KeyObject → KeyObject → Bool
  | .builtin x, .builtin y => x.same y
  | .other a, .other b => a = b
  | _, _ => false

def sameKey : Key → Key → Bool
  | .tagged v, .tagged w => v = w
  | .ptr x, .ptr y => sameObject x y
  | _, _ => false

/-- `PyObject::eq`. -/
def eqObject : KeyObject → KeyObject → Except Unit Answer
  | .builtin x, .builtin y =>
    match eq (W.equalElements x.elements y.elements) (W.equalElements y.elements x.elements) x y with
    | .ok result => .ok (.bool result)
    | .error _ => .error ()
  | x, y => W.otherEq x y

/-- Whether `PyObject::richcompare` returns `True` for `Py_EQ`. -/
def richcompareTrue (x y : KeyObject) : Bool :=
  match W.eqObject x y with
  | .ok answer => answer = .bool true
  | .error _ =>
    match W.eqObject y x with
    | .ok answer => answer = .bool true
    | .error _ => sameObject x y

/-- `RtValueEq`. -/
def rtValueEq (lhs rhs : Key) : Bool :=
  if sameKey lhs rhs then true
  else
    match lhs, rhs with
    | .tagged l, .tagged r => l.asInt = r.asInt
    | _, _ => W.richcompareTrue (W.boxObject lhs) (W.boxObject rhs)

def dictKeyEqual (stored lookup : Key) : Bool :=
  sameKey stored lookup || W.richcompareTrue (W.boxObject stored) (W.boxObject lookup)

end KeyWorld

/-! ## The table -/

/-- The entries in the order they were inserted in. -/
abbrev Entries := List (Key × Key)

/-- `find` of the hash table: an entry that the key is equal to, and some entry if there is one of the same hash. -/
structure Table (W : KeyWorld) where
  find : Entries → Key → Option Nat
  found {m : Entries} {k : Key} {i : Nat} : find m k = some i → ∃ e, m[i]? = some e ∧ W.rtValueEq k e.1 = true
  finds {m : Entries} {k : Key} {e : Key × Key} : e ∈ m → W.rtValueHash k = W.rtValueHash e.1 →
    W.rtValueEq k e.1 = true → find m k ≠ none

namespace Table

variable {W : KeyWorld} (T : Table W)

def insertOrAssign (m : Entries) (key value : Key) : Entries :=
  match T.find m key with
  | some i => m.modify i fun entry => (entry.1, value)
  | none => m ++ [(key, value)]

def emplace (m : Entries) (key value : Key) : Entries :=
  match T.find m key with
  | some _ => m
  | none => m ++ [(key, value)]

def erase (m : Entries) (key : Key) : Entries :=
  match T.find m key with
  | some i => m.eraseIdx i
  | none => m

def valueAt (m : Entries) (i : Nat) : Option Key := m[i]?.map fun entry => entry.2

/-! ## `PyDict` -/

def findDictKey (m : Entries) (key : Key) : Option Nat :=
  match T.find m key with
  | some i => some i
  | none => m.findIdx? fun entry => W.dictKeyEqual entry.1 key

def lookup (m : Entries) (key : Key) : Option Key := (T.findDictKey m key).bind (valueAt m)

/-- Nothing where it raises `KeyError`. -/
def getitem (m : Entries) (key : Key) : Option Key := (T.lookup m key).map W.box

def get (m : Entries) (key default : Key) : Key := ((T.lookup m key).map W.box).getD default

def delitem (m : Entries) (key : Key) : Option Entries := (T.findDictKey m key).map m.eraseIdx

def pop (m : Entries) (key : Key) : Entries := (T.delitem m key).getD m

/-- The value and the entries it leaves. -/
def setdefault (m : Entries) (key default : Key) : Key × Entries :=
  match (T.find m key).bind (valueAt m) with
  | some value => (W.box value, m)
  | none => (default, T.insertOrAssign m key default)

/-- `PyObject::contains`, which compares with the keys in their order. -/
def contains (W : KeyWorld) (value : Key) : Entries → Except Unit Bool
  | [] => .ok false
  | entry :: m =>
    match W.eqObject (W.boxObject value) (W.boxObject entry.1) with
    | .ok answer => if answer.isTrue then .ok true else contains W value m
    | .error e => .error e

/-! ## The exported paths -/

def isString : KeyObject → Bool
  | .builtin (.string _ _) => true
  | _ => false

def rtGetitem (m : Entries) (key : Key) : Option Key :=
  let direct :=
    match key with
    | .tagged _ => (T.find m key).bind (valueAt m)
    | .ptr object => if isString object then (T.find m key).bind (valueAt m) else none
  match direct with
  | some value => some value
  | none => T.getitem m (W.box (flattenKey key))

def rtDictGetitem (m : Entries) (key : Key) : Option Key :=
  let direct := if isString (W.boxObject key) then (T.find m (W.box key)).bind (valueAt m) else none
  match direct with
  | some value => some value
  | none => T.getitem m (W.box key)

def rtDictContainsBool (m : Entries) (key : Key) : Bool :=
  if isString (W.boxObject key) then (T.find m (W.box key)).isSome else (T.find m (flattenKey key)).isSome

def rtCompareInBool (m : Entries) (value : Key) : Bool :=
  if isString (W.boxObject value) then (T.find m (W.box value)).isSome else (T.find m (flattenKey value)).isSome

def rtCompareNotInBool (m : Entries) (value : Key) : Bool :=
  if isString (W.boxObject value) then (T.find m (W.box value)).isNone else (T.find m (flattenKey value)).isNone

/-- `rt_compare_in`; only a string is looked up in the table. -/
def rtCompareIn (m : Entries) (value : Key) : Except Unit Bool :=
  if isString (W.boxObject (flattenKey value)) then .ok (T.find m (W.box (flattenKey value))).isSome
  else contains W (W.box value) m

/-! ## Runs -/

inductive Op where
  /-- `__setitem__` and `insert`, of a key in whichever form. -/
  | setitem (key value : Key)
  | rtSetitem (key value : Key)
  | rtDictSetitem (key value : Key)
  /-- `merge` of an entry, if it does not override. -/
  | merge (key value : Key)
  | setdefault (key default : Key)
  | delitem (key : Key)
  | rtDelitem (key : Key)
  | pop (key : Key)
  | remove (key : Key)

def Op.key : Op → Key
  | .setitem key _ => key
  | .rtSetitem key _ => key
  | .rtDictSetitem key _ => key
  | .merge key _ => key
  | .setdefault key _ => key
  | .delitem key => key
  | .rtDelitem key => key
  | .pop key => key
  | .remove key => key

/-- The entries an operation leaves; those it finds, where it raises `KeyError`. -/
def step (m : Entries) : Op → Entries
  | .setitem key value => T.insertOrAssign m key value
  | .rtSetitem key value => T.insertOrAssign m (W.box (flattenKey key)) (W.box value)
  | .rtDictSetitem key value => T.insertOrAssign m (W.box key) (W.box value)
  | .merge key value => T.emplace m key value
  | .setdefault key default => (T.setdefault m (W.box key) default).2
  | .delitem key => (T.delitem m key).getD m
  | .rtDelitem key => (T.delitem m (W.box (flattenKey key))).getD m
  | .pop key => T.pop m (W.box key)
  | .remove key => T.erase m key

def run (ops : List Op) : Entries := ops.foldl T.step []

/-! ## What the paths find -/

/-- What every path finds for a key. -/
structure Finds (m : Entries) (key : Key) (v : Option Key) : Prop where
  lookup : T.lookup m (W.box key) = v
  getitem : T.getitem m (W.box key) = v.map W.box
  get : ∀ default, T.get m (W.box key) default = (v.map W.box).getD default
  contains : contains W (W.box key) m = .ok v.isSome
  rtGetitem : (T.rtGetitem m key).map W.box = v.map W.box
  rtDictGetitem : (T.rtDictGetitem m key).map W.box = v.map W.box
  rtDictContainsBool : T.rtDictContainsBool m key = v.isSome
  rtCompareInBool : T.rtCompareInBool m key = v.isSome
  rtCompareNotInBool : T.rtCompareNotInBool m key = !v.isSome
  rtCompareIn : T.rtCompareIn m key = .ok v.isSome
  setdefault : ∀ default, (T.setdefault m (W.box key) default).1 = (v.map W.box).getD default ∧
    (v.isSome = true → (T.setdefault m (W.box key) default).2 = m)

/-- The forms one key takes. -/
def forms (W : KeyWorld) (key : Key) : List Key := [key, W.box key, flattenKey key, W.box (flattenKey key)]

/-- All paths find the same, in whichever form the key is; `delitem` finds it too, and then none does. -/
def LookupsAgree (m : Entries) (key : Key) : Prop :=
  ∃ v, (∀ k ∈ forms W key, T.Finds m k v) ∧ ∀ k ∈ forms W key,
    if v.isSome then ∃ m', T.delitem m k = some m' ∧ ∀ k' ∈ forms W key, T.Finds m' k' none
    else T.delitem m k = none

/-! ## Lawful keys -/

end Table

/-- Keys on which `==` is answered, is symmetric and transitive, and implies one hash, and which are equal to their
other forms. -/
structure Lawful (W : KeyWorld) (K : Key → Prop) : Prop where
  answers {a b : Key} : K a → K b → W.eqObject (W.boxObject a) (W.boxObject b) = .ok (.bool (W.rtValueEq a b))
  symm {a b : Key} : K a → K b → W.rtValueEq a b = true → W.rtValueEq b a = true
  trans {a b c : Key} : K a → K b → K c → W.rtValueEq a b = true → W.rtValueEq b c = true → W.rtValueEq a c = true
  hash {a b : Key} : K a → K b → W.rtValueEq a b = true → W.rtValueHash a = W.rtValueHash b
  box {a : Key} : K a → K (W.box a) ∧ W.rtValueEq a (W.box a) = true
  flatten {a : Key} : K a → K (flattenKey a) ∧ W.rtValueEq a (flattenKey a) = true

section
variable {W : KeyWorld} {K : Key → Prop}

namespace Lawful

variable (h : Lawful W K) {a b c : Key}
include h

theorem richcompareTrue_eq (ha : K a) (hb : K b) :
    W.richcompareTrue (W.boxObject a) (W.boxObject b) = W.rtValueEq a b := by
  unfold KeyWorld.richcompareTrue
  rw [h.answers ha hb]
  cases W.rtValueEq a b <;> rfl

theorem dictKeyEqual_eq (ha : K a) (hb : K b) : W.dictKeyEqual a b = W.rtValueEq a b := by
  unfold KeyWorld.dictKeyEqual
  rw [h.richcompareTrue_eq ha hb]
  cases hsame : KeyWorld.sameKey a b with
  | false => rfl
  | true =>
    have heq : W.rtValueEq a b = true := by
      unfold KeyWorld.rtValueEq
      rw [if_pos hsame]
    rw [heq]
    rfl

theorem eq_comm (ha : K a) (hb : K b) : W.rtValueEq a b = W.rtValueEq b a :=
  Bool.eq_iff_iff.2 ⟨h.symm ha hb, h.symm hb ha⟩

theorem eq_congr (ha : K a) (hb : K b) (hc : K c) (hab : W.rtValueEq a b = true) : W.rtValueEq a c = W.rtValueEq b c :=
  Bool.eq_iff_iff.2 ⟨h.trans hb ha hc (h.symm ha hb hab), h.trans ha hb hc hab⟩

theorem forms (ha : K a) (hb : b ∈ Table.forms W a) : K b ∧ W.rtValueEq a b = true := by
  obtain ⟨hbox, hbeq⟩ := h.box ha
  obtain ⟨hflat, hfeq⟩ := h.flatten ha
  obtain ⟨hbf, hbfeq⟩ := h.box hflat
  have hrefl : W.rtValueEq a a = true := h.trans ha hflat ha hfeq (h.symm ha hflat hfeq)
  simp only [Table.forms, List.mem_cons, List.not_mem_nil, or_false] at hb
  rcases hb with rfl | rfl | rfl | rfl
  · exact ⟨ha, hrefl⟩
  · exact ⟨hbox, hbeq⟩
  · exact ⟨hflat, hfeq⟩
  · exact ⟨hbf, h.trans ha hflat hbf hfeq hbfeq⟩

end Lawful

/-- The keys of the entries are lawful, and no two of them are equal. -/
structure Sound (W : KeyWorld) (K : Key → Prop) (m : Entries) : Prop where
  keys : ∀ e ∈ m, K e.1
  distinct : m.Pairwise fun d e => W.rtValueEq d.1 e.1 = false

/-- Where a key is, by comparison with all keys. -/
def place (W : KeyWorld) (m : Entries) (key : Key) : Option Nat := m.findIdx? fun e => W.rtValueEq key e.1

section
variable {m : Entries} {k k' : Key} {i j : Nat}

/-- No two entries are equal to one key. -/
theorem Sound.unique (hm : Sound W K m) (h : Lawful W K) (hk : K k) {d e : Key × Key} (hi : m[i]? = some d)
    (hj : m[j]? = some e) (hd : W.rtValueEq k d.1 = true) (he : W.rtValueEq k e.1 = true) : i = j := by
  have hlt : ∀ {i j : Nat} {d e : Key × Key}, m[i]? = some d → m[j]? = some e → W.rtValueEq k d.1 = true →
      W.rtValueEq k e.1 = true → ¬ i < j := fun {i j d e} hi hj hd he hij => by
    obtain ⟨hi', rfl⟩ := List.getElem?_eq_some_iff.1 hi
    obtain ⟨hj', rfl⟩ := List.getElem?_eq_some_iff.1 hj
    have hne := List.pairwise_iff_getElem.1 hm.distinct i j hi' hj' hij
    have hdk : K m[i].1 := hm.keys _ (List.getElem_mem hi')
    have hek : K m[j].1 := hm.keys _ (List.getElem_mem hj')
    rw [h.trans hdk hk hek (h.symm hk hdk hd) he] at hne
    cases hne
  have h1 := hlt hi hj hd he
  have h2 := hlt hj hi he hd
  omega

theorem place_eq_some (hm : Sound W K m) (h : Lawful W K) (hk : K k) :
    place W m k = some i ↔ ∃ e, m[i]? = some e ∧ W.rtValueEq k e.1 = true := by
  unfold place
  rw [List.findIdx?_eq_some_iff_getElem]
  refine ⟨fun ⟨hlt, heq, _⟩ => ⟨m[i], List.getElem?_eq_getElem hlt, heq⟩, fun ⟨e, hget, heq⟩ => ?_⟩
  obtain ⟨hlt, rfl⟩ := List.getElem?_eq_some_iff.1 hget
  refine ⟨hlt, heq, fun j hji heq' => ?_⟩
  have hij := hm.unique h hk hget (List.getElem?_eq_getElem (Nat.lt_trans hji hlt)) heq heq'
  omega

theorem find_eq_place (T : Table W) (hm : Sound W K m) (h : Lawful W K) (hk : K k) : T.find m k = place W m k := by
  cases hf : T.find m k with
  | some i => exact ((place_eq_some hm h hk).2 (T.found hf)).symm
  | none =>
    cases hp : place W m k with
    | none => rfl
    | some i =>
      obtain ⟨e, hget, heq⟩ := (place_eq_some hm h hk).1 hp
      have hmem := List.mem_of_getElem? hget
      exact absurd hf (T.finds hmem (h.hash hk (hm.keys e hmem) heq) heq)

theorem findIdx?_congr {p q : Key × Key → Bool} (hpq : ∀ e ∈ m, p e = q e) : m.findIdx? p = m.findIdx? q := by
  induction m with
  | nil => rfl
  | cons e m ih =>
    rw [List.findIdx?_cons, List.findIdx?_cons, hpq e List.mem_cons_self, ih fun d hd => hpq d (List.mem_cons_of_mem e hd)]

theorem findDictKey_eq_place (T : Table W) (hm : Sound W K m) (h : Lawful W K) (hk : K k) :
    T.findDictKey m k = place W m k := by
  have hscan : m.findIdx? (fun e => W.dictKeyEqual e.1 k) = place W m k := findIdx?_congr fun e he => by
    rw [h.dictKeyEqual_eq (hm.keys e he) hk, h.eq_comm (hm.keys e he) hk]
  unfold Table.findDictKey
  rw [find_eq_place T hm h hk, hscan]
  cases place W m k <;> rfl

theorem place_congr (hm : Sound W K m) (h : Lawful W K) (hk : K k) (hk' : K k') (heq : W.rtValueEq k k' = true) :
    place W m k' = place W m k :=
  findIdx?_congr fun e he => (h.eq_congr hk hk' (hm.keys e he) heq).symm

theorem contains_eq_place (hm : ∀ e ∈ m, K e.1) (h : Lawful W K) (hk : K k) :
    Table.contains W k m = .ok (place W m k).isSome := by
  induction m with
  | nil => rfl
  | cons e m ih =>
    unfold Table.contains place
    rw [h.answers hk (hm e List.mem_cons_self), List.findIdx?_cons]
    cases W.rtValueEq k e.1 with
    | true => rfl
    | false =>
      refine (ih fun d hd => hm d (List.mem_cons_of_mem e hd)).trans ?_
      rw [if_neg (by decide), Option.isSome_map]
      rfl

/-- The value of a key, by comparison with all keys. -/
def valueOf (W : KeyWorld) (m : Entries) (key : Key) : Option Key := (place W m key).bind (Table.valueAt m)

theorem isSome_valueOf (W : KeyWorld) (m : Entries) (k : Key) : (valueOf W m k).isSome = (place W m k).isSome := by
  unfold valueOf
  cases hp : place W m k with
  | none => rfl
  | some i =>
    have hlt : i < m.length := (List.findIdx?_eq_some_iff_getElem.1 hp).1
    simp [Table.valueAt, List.getElem?_eq_getElem hlt]

theorem find_form (T : Table W) (hm : Sound W K m) (h : Lawful W K) (hk : K k) (hk' : k' ∈ Table.forms W k) :
    T.find m k' = place W m k ∧ T.lookup m k' = valueOf W m k ∧ T.delitem m k' = (place W m k).map m.eraseIdx := by
  obtain ⟨hin, heq⟩ := h.forms hk hk'
  have hplace := place_congr hm h hk hin heq
  refine ⟨(find_eq_place T hm h hin).trans hplace, ?_, ?_⟩
  · unfold Table.lookup valueOf
    rw [findDictKey_eq_place T hm h hin, hplace]
  · unfold Table.delitem
    rw [findDictKey_eq_place T hm h hin, hplace]

theorem direct_or (W : KeyWorld) {v : Option Key} {direct : Option Key} (h : direct = v ∨ direct = none) :
    (match direct with
      | some value => some value
      | none => v.map W.box).map W.box = v.map W.box := by
  rcases h with rfl | rfl
  · cases direct <;> rfl
  · cases v <;> rfl

theorem finds_valueOf (T : Table W) (hm : Sound W K m) (h : Lawful W K) (hk : K k) : T.Finds m k (valueOf W m k) := by
  have hform (f : Key) (hf : f ∈ Table.forms W k) := find_form T hm h hk hf
  obtain ⟨hself, -, -⟩ := hform k (by simp [Table.forms])
  obtain ⟨hbox, hlookup, -⟩ := hform (W.box k) (by simp [Table.forms])
  obtain ⟨hflat, -, -⟩ := hform (flattenKey k) (by simp [Table.forms])
  obtain ⟨hbf, hlookup', -⟩ := hform (W.box (flattenKey k)) (by simp [Table.forms])
  have hsome := isSome_valueOf W m k
  have hin := (h.forms hk (b := W.box k) (by simp [Table.forms]))
  have hcontains : Table.contains W (W.box k) m = .ok (valueOf W m k).isSome := by
    rw [contains_eq_place hm.keys h hin.1, place_congr hm h hk hin.1 hin.2, hsome]
  have hbind : (place W m k).bind (Table.valueAt m) = valueOf W m k := rfl
  refine ⟨hlookup, congrArg _ hlookup, fun d => by rw [Table.get, hlookup], hcontains, ?_, ?_, ?_, ?_, ?_, ?_, fun d => ?_⟩
  · unfold Table.rtGetitem Table.getitem
    rw [hlookup']
    refine direct_or W ?_
    cases k with
    | tagged w => exact .inl (by rw [hself]; rfl)
    | ptr object =>
      dsimp only
      split
      · exact .inl (by rw [hself]; rfl)
      · exact .inr rfl
  · unfold Table.rtDictGetitem Table.getitem
    rw [hlookup, hbox]
    refine direct_or W ?_
    split
    · exact .inl rfl
    · exact .inr rfl
  · unfold Table.rtDictContainsBool
    rw [hbox, hflat, hsome, ite_self]
  · unfold Table.rtCompareInBool
    rw [hbox, hflat, hsome, ite_self]
  · unfold Table.rtCompareNotInBool
    rw [hbox, hflat, hsome, ite_self, Option.not_isSome]
  · unfold Table.rtCompareIn
    rw [hbf, hcontains, hsome, ite_self]
  · unfold Table.setdefault
    rw [hbox, hbind]
    cases valueOf W m k with
    | some v => exact ⟨rfl, fun _ => rfl⟩
    | none => exact ⟨rfl, nofun⟩

theorem sound_erase (hm : Sound W K m) (i : Nat) : Sound W K (m.eraseIdx i) :=
  ⟨fun e he => hm.keys e ((List.eraseIdx_sublist m i).subset he), hm.distinct.sublist (List.eraseIdx_sublist m i)⟩

theorem valueOf_eraseIdx (hm : Sound W K m) (h : Lawful W K) (hk : K k) (hp : place W m k = some i) :
    Sound W K (m.eraseIdx i) ∧ valueOf W (m.eraseIdx i) k = none := by
  obtain ⟨d, hd, hkd⟩ := (place_eq_some hm h hk).1 hp
  refine ⟨sound_erase hm i, ?_⟩
  have hnone : place W (m.eraseIdx i) k = none := List.findIdx?_eq_none_iff.2 fun e he => by
    obtain ⟨j, hj, hget⟩ := List.mem_eraseIdx_iff_getElem?.1 he
    cases hke : W.rtValueEq k e.1 with
    | false => rfl
    | true => exact absurd (hm.unique h hk hget hd hke hkd) hj
  unfold valueOf
  rw [hnone]
  rfl

/-- On sound entries all paths agree. -/
theorem lookupsAgree_of_sound (T : Table W) (hm : Sound W K m) (h : Lawful W K) (hk : K k) : T.LookupsAgree m k := by
  have hvalue : ∀ {m : Entries}, Sound W K m → ∀ k' ∈ Table.forms W k, T.Finds m k' (valueOf W m k) := by
    intro m hm k' hk'
    obtain ⟨hin, heq⟩ := h.forms hk hk'
    have hsame : valueOf W m k' = valueOf W m k := by
      unfold valueOf
      rw [place_congr hm h hk hin heq]
    rw [← hsame]
    exact finds_valueOf T hm h hin
  refine ⟨valueOf W m k, hvalue hm, fun k' hk' => ?_⟩
  obtain ⟨-, -, hdel⟩ := find_form T hm h hk hk'
  rw [isSome_valueOf, hdel]
  cases hp : place W m k with
  | none => rfl
  | some i =>
    obtain ⟨hm', hnone⟩ := valueOf_eraseIdx hm h hk hp
    refine ⟨_, rfl, fun k'' hk'' => ?_⟩
    rw [← hnone]
    exact hvalue hm' k'' hk''

/-! ## Runs -/

theorem sound_append (hm : Sound W K m) (h : Lawful W K) (hk : K k) (v : Key) (hp : place W m k = none) :
    Sound W K (m ++ [(k, v)]) := by
  refine ⟨fun e he => ?_, List.pairwise_append.2 ⟨hm.distinct, List.pairwise_singleton _ _, fun d hd e he => ?_⟩⟩
  · rcases List.mem_append.1 he with he | he
    · exact hm.keys e he
    · rw [List.mem_singleton.1 he]
      exact hk
  · rw [List.mem_singleton.1 he, h.eq_comm (hm.keys d hd) hk]
    exact List.findIdx?_eq_none_iff.1 hp d hd

theorem sound_modify (hm : Sound W K m) (i : Nat) (v : Key) : Sound W K (m.modify i fun e => (e.1, v)) := by
  have hmap : (m.modify i fun e => (e.1, v)).map Prod.fst = m.map Prod.fst := by
    refine List.ext_getElem? fun j => ?_
    rw [List.getElem?_map, List.getElem?_map, List.getElem?_modify]
    cases m[j]? with
    | none => rfl
    | some e => simp only [Option.map_some]; split <;> rfl
  refine ⟨fun e he => ?_, ?_⟩
  · have hmem : e.1 ∈ m.map Prod.fst := hmap ▸ List.mem_map_of_mem he
    obtain ⟨d, hd, heq⟩ := List.mem_map.1 hmem
    exact heq ▸ hm.keys d hd
  · have hdistinct : (m.map Prod.fst).Pairwise fun a b => W.rtValueEq a b = false := List.pairwise_map.2 hm.distinct
    rw [← hmap] at hdistinct
    exact List.pairwise_map.1 hdistinct

theorem sound_insertOrAssign (T : Table W) (hm : Sound W K m) (h : Lawful W K) (hk : K k) (v : Key) :
    Sound W K (T.insertOrAssign m k v) := by
  unfold Table.insertOrAssign
  rw [find_eq_place T hm h hk]
  cases hp : place W m k with
  | some i => exact sound_modify hm i v
  | none => exact sound_append hm h hk v hp

theorem sound_delitem (T : Table W) (hm : Sound W K m) (k : Key) : Sound W K ((T.delitem m k).getD m) := by
  unfold Table.delitem
  cases T.findDictKey m k with
  | some i => exact sound_erase hm i
  | none => exact hm

theorem sound_step (T : Table W) (hm : Sound W K m) (h : Lawful W K) {op : Table.Op} (hop : K op.key) :
    Sound W K (T.step m op) := by
  have hform : ∀ {k' : Key}, k' ∈ Table.forms W op.key → K k' := fun hk' => (h.forms hop hk').1
  cases op with
  | setitem key value => exact sound_insertOrAssign T hm h hop value
  | rtSetitem key value => exact sound_insertOrAssign T hm h (hform (by simp [Table.forms, Table.Op.key])) _
  | rtDictSetitem key value => exact sound_insertOrAssign T hm h (hform (by simp [Table.forms, Table.Op.key])) _
  | merge key value =>
    show Sound W K (T.emplace m key value)
    unfold Table.emplace
    rw [find_eq_place T hm h (show K key from hop)]
    cases hp : place W m key with
    | some i => exact hm
    | none => exact sound_append hm h hop value hp
  | setdefault key default =>
    show Sound W K (T.setdefault m (W.box key) default).2
    unfold Table.setdefault
    split
    · exact hm
    · exact sound_insertOrAssign T hm h (hform (by simp [Table.forms, Table.Op.key])) default
  | delitem key => exact sound_delitem T hm key
  | rtDelitem key => exact sound_delitem T hm _
  | pop key => exact sound_delitem T hm _
  | remove key =>
    show Sound W K (T.erase m key)
    unfold Table.erase
    cases T.find m key with
    | some i => exact sound_erase hm i
    | none => exact hm

theorem sound_run (T : Table W) (h : Lawful W K) {ops : List Table.Op} (hops : ∀ op ∈ ops, K op.key) :
    Sound W K (T.run ops) := by
  have hfold : ∀ {ops : List Table.Op} {m : Entries}, (∀ op ∈ ops, K op.key) → Sound W K m →
      Sound W K (ops.foldl T.step m) := by
    intro ops
    induction ops with
    | nil => exact fun _ hm => hm
    | cons op ops ih =>
      exact fun hops hm => ih (fun op' hop' => hops op' (List.mem_cons_of_mem op hop'))
        (sound_step T hm h (hops op List.mem_cons_self))
  exact hfold hops ⟨nofun, .nil⟩

/-- **Lookups.** In every state of a run on lawful keys all paths agree on every lawful key. -/
theorem lookupsAgree (T : Table W) (h : Lawful W K) {ops : List Table.Op} (hops : ∀ op ∈ ops, K op.key) (hk : K k) :
    T.LookupsAgree (T.run ops) k := lookupsAgree_of_sound T (sound_run T h hops) h hk

/-! ## Integers -/

def intOf : Key → Int
  | .tagged w => w.asInt.toInt
  | .ptr (.builtin (.integer _ n)) => n
  | .ptr _ => 0

/-- The integers, tagged or not, where `intAt` says which `PyInteger` is at an address. -/
def IntegerKey (intAt : Nat → Int) : Key → Prop
  | .tagged _ => True
  | .ptr (.builtin (.integer addr n)) => ∀ a, addr = some a → intAt a = n
  | .ptr _ => False

variable {intAt : Nat → Int} {a b : Key}

theorem boxObject_integer (hcached : ∀ n c, W.cached n = some c → intAt c = n) (ha : IntegerKey intAt a) :
    ∃ addr, W.boxObject a = .builtin (.integer addr (intOf a)) ∧ ∀ c, addr = some c → intAt c = intOf a := by
  unfold IntegerKey at ha
  split at ha
  next w => exact ⟨_, rfl, fun c hc => hcached _ c hc⟩
  next addr n => exact ⟨addr, rfl, ha⟩
  next => cases ha

theorem eqObject_integer (hcached : ∀ n c, W.cached n = some c → intAt c = n) (ha : IntegerKey intAt a)
    (hb : IntegerKey intAt b) :
    W.eqObject (W.boxObject a) (W.boxObject b) = .ok (.bool (decide (intOf a = intOf b))) := by
  obtain ⟨p, hp, hat⟩ := boxObject_integer hcached ha
  obtain ⟨q, hq, hat'⟩ := boxObject_integer hcached hb
  rw [hp, hq]
  show (match eq _ _ _ _ with
    | .ok result => Except.ok (Answer.bool result)
    | .error _ => .error ()) = _
  cases hsame : (PyObject.integer p (intOf a)).same (.integer q (intOf b)) with
  | false =>
    rw [eq_alike (x := .integer p (intOf a)) (y := .integer q (intOf b)) .integer hsame]
    rfl
  | true =>
    rw [show eq _ _ (.integer p (intOf a)) (.integer q (intOf b)) = .ok true from operate_same hsame]
    cases p with
    | none => cases hsame
    | some c =>
      cases q with
      | none => cases hsame
      | some d =>
        obtain rfl : c = d := by simpa [PyObject.same] using hsame
        rw [← hat c rfl, ← hat' c rfl, decide_eq_true rfl]

theorem sameKey_integer (ha : IntegerKey intAt a) (hb : IntegerKey intAt b) (h : KeyWorld.sameKey a b = true) :
    intOf a = intOf b := by
  unfold IntegerKey at ha hb
  split at ha
  next v =>
    split at hb
    next w =>
      obtain rfl : v = w := by simpa [KeyWorld.sameKey] using h
      rfl
    next => cases h
    next => cases h
  next p n =>
    split at hb
    next => cases h
    next q m =>
      cases p with
      | none => cases h
      | some c =>
        cases q with
        | none => cases h
        | some d =>
          obtain rfl : c = d := by simpa [KeyWorld.sameKey, KeyWorld.sameObject, PyObject.same] using h
          exact (ha c rfl).symm.trans (hb c rfl)
    next => cases hb
  next => cases ha

theorem rtValueEq_integer (hcached : ∀ n c, W.cached n = some c → intAt c = n) (ha : IntegerKey intAt a)
    (hb : IntegerKey intAt b) : W.rtValueEq a b = decide (intOf a = intOf b) := by
  have hrich : W.richcompareTrue (W.boxObject a) (W.boxObject b) = decide (intOf a = intOf b) := by
    unfold KeyWorld.richcompareTrue
    rw [eqObject_integer hcached ha hb]
    cases decide (intOf a = intOf b) <;> rfl
  unfold KeyWorld.rtValueEq
  split
  next hsame => rw [sameKey_integer ha hb hsame, decide_eq_true rfl]
  next =>
    split
    next l r => exact decide_eq_decide.2 BitVec.toInt_inj.symm
    next => exact hrich

theorem intOf_flattenKey (ha : IntegerKey intAt a) : IntegerKey intAt (flattenKey a) ∧ intOf (flattenKey a) = intOf a := by
  unfold IntegerKey at ha
  split at ha
  next w => exact ⟨trivial, rfl⟩
  next addr n =>
    have hbox : RtValue.box (if fitsSlong n && fitsTaggedInt n then .tagged (fromInt (BitVec.ofInt 64 n)) else .heap n) = n :=
      box_flatten (.heap n)
    have hflat : flattenKey (.ptr (.builtin (.integer addr n))) = if fitsSlong n && fitsTaggedInt n then
        .tagged (fromInt (BitVec.ofInt 64 n)) else .ptr (.builtin (.integer addr n)) := rfl
    rw [hflat]
    split at hbox
    next hfits =>
      rw [if_pos hfits]
      exact ⟨trivial, hbox⟩
    next hfits =>
      rw [if_neg hfits]
      exact ⟨ha, rfl⟩
  next => cases ha

theorem rtValueHash_integer (ha : IntegerKey intAt a) : W.rtValueHash a = BitVec.ofInt 64 (intHash (intOf a)) := by
  unfold IntegerKey at ha
  split at ha
  next w => exact congrArg (BitVec.ofInt 64) (hashBigInt_eq _)
  next addr n => exact congrArg (BitVec.ofInt 64) (pyIntegerHash_eq n)
  next => cases ha

/-- Integers are lawful keys. -/
theorem lawful_integers (hcached : ∀ n c, W.cached n = some c → intAt c = n) : Lawful W (IntegerKey intAt) where
  answers ha hb := by rw [eqObject_integer hcached ha hb, rtValueEq_integer hcached ha hb]
  symm ha hb hab := by
    rw [rtValueEq_integer hcached ha hb, decide_eq_true_iff] at hab
    rw [rtValueEq_integer hcached hb ha, hab, decide_eq_true rfl]
  trans ha hb hc hab hbc := by
    rw [rtValueEq_integer hcached ha hb, decide_eq_true_iff] at hab
    rw [rtValueEq_integer hcached hb hc, decide_eq_true_iff] at hbc
    rw [rtValueEq_integer hcached ha hc, hab, hbc, decide_eq_true rfl]
  hash ha hb hab := by
    rw [rtValueEq_integer hcached ha hb, decide_eq_true_iff] at hab
    rw [rtValueHash_integer ha, rtValueHash_integer hb, hab]
  box {a} ha := by
    obtain ⟨addr, hbox, hat⟩ := boxObject_integer hcached ha
    have hkey : IntegerKey intAt (W.box a) := by
      unfold KeyWorld.box
      rw [hbox]
      exact hat
    refine ⟨hkey, ?_⟩
    rw [rtValueEq_integer hcached ha hkey, KeyWorld.box, hbox]
    exact decide_eq_true rfl
  flatten ha := by
    obtain ⟨hkey, hvalue⟩ := intOf_flattenKey ha
    exact ⟨hkey, by rw [rtValueEq_integer hcached ha hkey, hvalue, decide_eq_true rfl]⟩

end

end

/-- The first entry of the same hash that the key is equal to. -/
def firstTable (W : KeyWorld) : Table W where
  find m k := m.findIdx? fun e => W.rtValueHash k == W.rtValueHash e.1 && W.rtValueEq k e.1
  found {m k i} hi := by
    obtain ⟨hlt, heq, -⟩ := List.findIdx?_eq_some_iff_getElem.1 hi
    rw [Bool.and_eq_true] at heq
    exact ⟨m[i], List.getElem?_eq_getElem hlt, heq.2⟩
  finds {m k e} he hhash heq hnone := by
    have hfalse := List.findIdx?_eq_none_iff.1 hnone e he
    simp [hhash, heq] at hfalse

/-- A world with no cache and no objects of other classes. -/
def plainWorld : KeyWorld where
  hasCurrent := true
  cached _ := none
  noneAddr := 0
  stringHash s := BitVec.ofNat 64 s.length
  otherEq _ _ := .error ()
  otherHash _ := 0

def one : Key := .tagged (fromInt 1)

/-- The object of 1, then its tagged word. -/
theorem lookupsAgree_one : (firstTable plainWorld).LookupsAgree
    ((firstTable plainWorld).run [.setitem (.ptr (.builtin (.integer none 1))) one, .setdefault one one]) one :=
  lookupsAgree (K := IntegerKey fun _ => 0) (firstTable plainWorld) (lawful_integers nofun)
    (fun op hop => by
      simp only [List.mem_cons, List.not_mem_nil, or_false] at hop
      rcases hop with rfl | rfl
      · exact nofun
      · exact trivial) trivial

def oneElement : List (Word PyObject) := [.tagged (fromInt 1)]

/-- A tuple of one element, at an address. -/
def tupleOfOne (addr : Nat) : Key := .ptr (.builtin (.tuple addr oneElement))

/-- Two tuples that are equal: subscription finds the one by the other, `in` does not. -/
theorem tuple_key_found_by_scan : ¬ ∀ (W : KeyWorld) (T : Table W) (ops : List Table.Op) (k : Key), T.LookupsAgree (T.run ops) k := by
  intro hall
  obtain ⟨v, hfinds, -⟩ := hall plainWorld (firstTable plainWorld) [.setitem (tupleOfOne 16) one] (tupleOfOne 32)
  have hpaths := hfinds (tupleOfOne 32) List.mem_cons_self
  have helements : plainWorld.equalElements oneElement oneElement = true := by
    rw [oneElement, Runtime.equalElements, richcompareEq_eq, Runtime.equalElements]
    rfl
  have heq : plainWorld.eqObject (plainWorld.boxObject (tupleOfOne 16)) (plainWorld.boxObject (tupleOfOne 32)) =
      .ok (.bool true) := by
    have hobjects : plainWorld.boxObject (tupleOfOne 16) = .builtin (.tuple 16 oneElement) ∧
        plainWorld.boxObject (tupleOfOne 32) = .builtin (.tuple 32 oneElement) := ⟨rfl, rfl⟩
    have hkeys (addr : Nat) : (PyObject.tuple addr oneElement).elements = oneElement := rfl
    rw [hobjects.1, hobjects.2, KeyWorld.eqObject, hkeys, hkeys, helements, eq_alike (x := .tuple 16 oneElement) (y := .tuple 32 oneElement) .tuple rfl]
    rfl
  have hequal : plainWorld.dictKeyEqual (tupleOfOne 16) (tupleOfOne 32) = true := by
    unfold KeyWorld.dictKeyEqual KeyWorld.richcompareTrue
    rw [heq]
    rfl
  -- their hashes are those of their addresses
  have hfind : (firstTable plainWorld).find [(tupleOfOne 16, one)] (tupleOfOne 32) = none := by
    show List.findIdx? _ _ = none
    rw [List.findIdx?_singleton, if_neg]
    rw [show (plainWorld.rtValueHash (tupleOfOne 32) == plainWorld.rtValueHash (tupleOfOne 16)) = false from rfl]
    exact Bool.false_ne_true
  have hmissed : (firstTable plainWorld).rtCompareInBool [(tupleOfOne 16, one)] (tupleOfOne 32) = false :=
    congrArg Option.isSome hfind
  have hfound : (firstTable plainWorld).lookup [(tupleOfOne 16, one)] (plainWorld.box (tupleOfOne 32)) = some one := by
    unfold Table.lookup Table.findDictKey
    rw [show (firstTable plainWorld).find _ (plainWorld.box (tupleOfOne 32)) = none from hfind]
    show ((List.findIdx? _ _).bind _) = _
    rw [List.findIdx?_singleton]
    show ((if plainWorld.dictKeyEqual (tupleOfOne 16) (tupleOfOne 32) = true then some 0 else none).bind _) = _
    rw [if_pos hequal]
    rfl
  have hnone := hmissed.symm.trans hpaths.rtCompareInBool
  rw [← hfound.symm.trans hpaths.lookup] at hnone
  cases hnone

end Pylang.Tagged
