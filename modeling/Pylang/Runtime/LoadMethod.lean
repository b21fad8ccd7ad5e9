/-
`MethodCache::load_method`: methods by the addresses of an object and of a
name. An entry is never dropped, so that a method is found that the object had
when its entry was made.
-/
import Mathlib.Logic.Function.Basic
import Mathlib.Data.List.Basic
import Pylang.Runtime.GlobalCache

namespace Pylang.Runtime.LoadMethod

/-- `MethodCacheEntry` -/
structure Entry where
  instance_ : Word
  name : Word
  boundMethod : Word

/-- `get_method_cache()`, by the index. -/
abbrev Cache := Nat → Entry

def empty : Cache := fun _ => ⟨0, 0, 0⟩

def index (obj name : Word) : Nat := ((obj >>> 4) ^^^ (name >>> 4)).toNat % 128

/-- What `get_method` gives for an object and the text at a name, in the current state; a method is no null pointer. -/
abbrev Methods := Word → Word → Option {method : Word // method ≠ 0}

/-- The null pointer is for an error. -/
def getMethod (methods : Methods) (obj name : Word) : Word := (methods obj name).elim 0 (·.1)

def loadMethod (methods : Methods) (cache : Cache) (obj name : Word) : Word × Cache :=
  let entry := cache (index obj name)
  if entry.instance_ = obj ∧ entry.name = name then (entry.boundMethod, cache)
  else
    match methods obj name with
    | none => (0, cache)
    | some m => (m, Function.update cache (index obj name) ⟨obj, name, m⟩)

/-- A call, of an object, in a state of the classes and instances: whatever has changed in between is in the methods. -/
structure Call where
  methods : Methods
  obj : Word
  name : Word
  obj_ne : obj ≠ 0

def Call.load (call : Call) (cache : Cache) : Word × Cache := loadMethod call.methods cache call.obj call.name

/-! ## Runs, the last call first -/

def after (past : List Call) : Cache := past.foldr (fun call cache => (call.load cache).2) empty

/-- The two calls are for one entry. -/
def Call.SameKey (call call' : Call) : Prop := call.obj = call'.obj ∧ call.name = call'.name

instance (call call' : Call) : Decidable (call.SameKey call') := inferInstanceAs (Decidable (_ ∧ _))

def Call.index (call : Call) : Nat := LoadMethod.index call.obj call.name

/-- What the object has, without a cache. -/
def Call.method (call : Call) : Option {method : Word // method ≠ 0} := call.methods call.obj call.name

/-- The call that has made the entry of a slot. -/
def maker (slot : Nat) : List Call → Option Call
  | [] => none
  | call :: past =>
    if call.index = slot ∧ call.method.isSome ∧ ¬ ∃ m ∈ maker slot past, m.SameKey call then some call
    else maker slot past

/-- Every call gives the method that the object has. -/
def Right (calls : List Call) : Prop :=
  ∀ past call, call :: past <:+ calls → (call.load (after past)).1 = getMethod call.methods call.obj call.name

/-- Where there is an entry for a call, the object still has the method that it had when the entry was made. -/
def Unchanged (calls : List Call) : Prop :=
  ∀ past call, call :: past <:+ calls → ∀ m, maker call.index past = some m → m.SameKey call → m.method = call.method

/-! ## The entries -/

/-- The entry that a call makes. -/
def Call.entry (call : Call) : Entry := ⟨call.obj, call.name, getMethod call.methods call.obj call.name⟩

/-- A slot is empty, or holds the entry of its maker. -/
def Made (past : List Call) (slot : Nat) : Prop :=
  maker slot past = none ∧ after past slot = ⟨0, 0, 0⟩ ∨
    ∃ m, maker slot past = some m ∧ m.method.isSome = true ∧ after past slot = m.entry

variable {call m : Call} {past calls : List Call} {slot : Nat}

theorem load_hit {cache : Cache} (h : (cache call.index).instance_ = call.obj ∧ (cache call.index).name = call.name) :
    call.load cache = ((cache call.index).boundMethod, cache) := if_pos h

theorem load_miss {cache : Cache} (h : ¬((cache call.index).instance_ = call.obj ∧ (cache call.index).name = call.name)) :
    call.load cache = match call.method with
      | none => (0, cache)
      | some m => (m, Function.update cache call.index ⟨call.obj, call.name, m⟩) := if_neg h

theorem hit_iff (h : Made past call.index) : ((after past call.index).instance_ = call.obj ∧
      (after past call.index).name = call.name) ↔ ∃ m ∈ maker call.index past, m.SameKey call := by
  rcases h with ⟨hnone, hempty⟩ | ⟨m, hm, -, hentry⟩
  · rw [hnone, hempty]
    refine iff_of_false (fun h => call.obj_ne h.1.symm) fun h => ?_
    obtain ⟨m, hm, -⟩ := h
    cases hm
  · rw [hm, hentry]
    constructor
    · exact fun h => ⟨m, rfl, h⟩
    · intro h
      obtain ⟨m', hm', h⟩ := h
      cases hm'
      exact h

theorem maker_of_kept (h : ¬(call.index = slot ∧ call.method.isSome ∧ ¬ ∃ m ∈ maker slot past, m.SameKey call)) :
    maker slot (call :: past) = maker slot past := if_neg h

theorem Made.kept (h : Made past slot) (hcache : after (call :: past) slot = after past slot)
    (hmaker : maker slot (call :: past) = maker slot past) : Made (call :: past) slot := by
  unfold Made
  rw [hcache, hmaker]
  exact h

theorem made (past : List Call) (slot : Nat) : Made past slot := by
  induction past generalizing slot with
  | nil => exact .inl ⟨rfl, rfl⟩
  | cons call past ih =>
    have hafter : after (call :: past) = (call.load (after past)).2 := rfl
    have hhit := hit_iff (ih call.index)
    by_cases h : (after past call.index).instance_ = call.obj ∧ (after past call.index).name = call.name
    · refine (ih slot).kept (by rw [hafter, load_hit h]) (maker_of_kept fun hnew => ?_)
      obtain ⟨rfl, -, hnot⟩ := hnew
      exact hnot (hhit.mp h)
    · rw [load_miss h] at hafter
      cases hm : call.method with
      | none =>
        rw [hm] at hafter
        refine (ih slot).kept (by rw [hafter]) (maker_of_kept fun hnew => ?_)
        obtain ⟨-, hsome, -⟩ := hnew
        rw [hm] at hsome
        cases hsome
      | some method =>
        rw [hm] at hafter
        by_cases hslot : call.index = slot
        · subst hslot
          have hnew : maker call.index (call :: past) = some call :=
            if_pos ⟨rfl, by rw [hm]; rfl, fun hex => h (hhit.mpr hex)⟩
          refine .inr ⟨call, hnew, by rw [hm]; rfl, ?_⟩
          rw [hafter]
          show Function.update _ _ _ _ = _
          rw [Function.update_self]
          unfold Call.entry getMethod
          rw [show call.methods call.obj call.name = some method from hm]
          rfl
        · refine (ih slot).kept ?_ (maker_of_kept fun hnew => hslot hnew.1)
          rw [hafter]
          exact Function.update_of_ne (Ne.symm hslot) _ _

/-! ## The methods -/

theorem getMethod_inj (hm : m.method.isSome = true) :
    getMethod m.methods m.obj m.name = getMethod call.methods call.obj call.name ↔ m.method = call.method := by
  show m.method.elim 0 (·.1) = call.method.elim 0 (·.1) ↔ _
  cases hmethod : m.method with
  | none =>
    rw [hmethod] at hm
    cases hm
  | some a =>
    cases call.method with
    | none => exact iff_of_false a.2 nofun
    | some b =>
      show a.1 = b.1 ↔ _
      rw [Option.some_inj, Subtype.ext_iff]

theorem load_right_iff (past : List Call) (call : Call) :
    (call.load (after past)).1 = getMethod call.methods call.obj call.name ↔
      ∀ m, maker call.index past = some m → m.SameKey call → m.method = call.method := by
  have hhit := hit_iff (made past call.index)
  by_cases h : (after past call.index).instance_ = call.obj ∧ (after past call.index).name = call.name
  · rw [load_hit h]
    obtain ⟨m, hm, hkey⟩ := hhit.mp h
    have hm : maker call.index past = some m := hm
    rcases made past call.index with ⟨hnone, -⟩ | ⟨m', hm', hsome, hentry⟩
    · cases hnone.symm.trans hm
    · obtain rfl := Option.some.inj (hm'.symm.trans hm)
      rw [hentry]
      refine (getMethod_inj hsome).trans ⟨fun heq m'' hm'' _ => ?_, fun h => h m' hm hkey⟩
      obtain rfl := Option.some.inj (hm.symm.trans hm'')
      exact heq
  · rw [load_miss h]
    refine iff_of_true ?_ fun m hm hkey => absurd (hhit.mpr ⟨m, hm, hkey⟩) h
    unfold getMethod
    rw [show call.methods call.obj call.name = call.method from rfl]
    cases call.method <;> rfl

/-- **Methods.** The cache gives what objects have exactly if no object with an entry has changed. -/
theorem methods_right_iff (calls : List Call) : Right calls ↔ Unchanged calls :=
  forall_congr' fun past => forall_congr' fun call => forall_congr' fun _ => load_right_iff past call

/-- The method `m` of an object, and after it is replaced in the class. -/
def replacedMethod : List Call :=
  [⟨fun _ _ => some ⟨64, by decide⟩, 16, 32, by decide⟩, ⟨fun _ _ => some ⟨48, by decide⟩, 16, 32, by decide⟩]

theorem replaced_not_seen : ¬ Right replacedMethod := by
  intro h
  exact absurd (h _ _ (List.suffix_refl _)) (by decide)

end Pylang.Runtime.LoadMethod
