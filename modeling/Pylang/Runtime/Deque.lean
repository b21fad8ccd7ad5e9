/-
`collections.deque`: the bound that each mutator keeps on its own, and rotation.

A bound of 0 is not kept: an element is taken from an empty deque before the new
one goes in. `__init__` sets a bound without looking at the elements, and
rotation divides by their number.
-/
import Mathlib.Data.Int.ModEq
import Mathlib.Data.List.Rotate
import Pylang.Tagged.RtValue

namespace Pylang.Runtime

open Tagged (fitsSlong fitsSlong_iff)

/-- How a call ends without a result. -/
inductive DequeStop (E : Type) where
  | typeError (message : String)
  /-- An error of an iterable. -/
  | raised (e : E)
  /-- An assertion fails, or the code ends in `TODO`. -/
  | abort
  | undefined
  deriving DecidableEq

/-- What an iteration gives: the items, then its end or an error. -/
structure Iteration (α E : Type) where
  items : List α
  error : Option E := none
  deriving DecidableEq

/-- The second argument of `__init__`. -/
inductive MaxlenArg where
  | int (n : Int)
  | none
  | other
  deriving DecidableEq

/-- The arguments of `__init__`; more than two are not looked at. -/
inductive DequeArgs (α E : Type) where
  | nothing
  | iterable (iterable : Iteration α E)
  | both (iterable : Iteration α E) (maxlen : MaxlenArg)
  | more
  deriving DecidableEq

def DequeArgs.iterable? {α E : Type} : DequeArgs α E → Option (Iteration α E)
  | .iterable it | .both it _ => some it
  | .nothing | .more => none

/-- `maxlen`, which has to fit an `unsigned int`. -/
def DequeArgs.maxlen {α E : Type} : DequeArgs α E → Except (DequeStop E) (Option Nat)
  | .both _ (.int n) =>
    if n < 0 then .error (.typeError "maxlen must be non-negative")
    else if n < 2 ^ 32 then .ok (some n.toNat)
    else .error .abort
  | .both _ .other => .error (.typeError "an integer is required")
  | _ => .ok none

/-- The argument of `rotate`; an object that is no integer with the name of its type. -/
inductive CountArg where
  | int (n : Int)
  | other (typeName : String)
  deriving DecidableEq

/-- `m_deque` and `m_maxlength`. -/
structure Deque (α : Type) where
  items : List α := []
  maxlength : Option Nat := none
  deriving DecidableEq

namespace Deque

variable {α E : Type}

/-- The deque that a call leaves, and how the call ends. -/
abbrev Reply (α E : Type) := Deque α × Except (DequeStop E) Unit

def pushBack (d : Deque α) (value : α) : Reply α E :=
  if d.maxlength.any (· < d.items.length) then (d, .error .abort)
  else if d.maxlength = some d.items.length then
    match d.items with
    | [] => (d, .error .undefined)
    | _ :: items => ({ d with items := items ++ [value] }, .ok ())
  else ({ d with items := d.items ++ [value] }, .ok ())

def pushFront (d : Deque α) (value : α) : Reply α E :=
  if d.maxlength.any (· < d.items.length) then (d, .error .abort)
  else if d.maxlength = some d.items.length then
    if d.items = [] then (d, .error .undefined) else ({ d with items := value :: d.items.dropLast }, .ok ())
  else ({ d with items := value :: d.items }, .ok ())

/-- The loop of `extend`. -/
def extendItems (error : Option E) : Deque α → List α → Reply α E
  | d, [] => (d, match error with | some e => .error (.raised e) | none => .ok ())
  | d, value :: values =>
    match d.pushBack value with
    | (d, .ok ()) => extendItems error d values
    | (d, .error e) => (d, .error e)

def extend (d : Deque α) (iterable : Iteration α E) : Reply α E := extendItems iterable.error d iterable.items

/-- `__init__`; with `kwargs`, keyword arguments are given. -/
def init (d : Deque α) (args : DequeArgs α E) (kwargs : Bool) : Reply α E :=
  match args.maxlen with
  | .error e => (d, .error e)
  | .ok maxlen =>
    if kwargs then (d, .error .abort)
    else
      let d := { d with maxlength := maxlen }
      match args.iterable? with
      | none => (d, .ok ())
      | some iterable => d.extend iterable

/-- `std::rotate`, of a whole container. -/
def stdRotate (middle : Nat) (l : List α) : List α := l.drop middle ++ l.take middle

/-- The division by the size is undefined for an empty deque, and so is `std::abs` of the least `long`. -/
def rotate (d : Deque α) : CountArg → Reply α E
  | .other typeName => (d, .error (.typeError s!"'{typeName}' object cannot be interpreted as an integer"))
  | .int n =>
    if fitsSlong n then
      if n < 0 then
        if n = -2 ^ 63 ∨ d.items = [] then (d, .error .undefined)
        else ({ d with items := stdRotate (n.natAbs % d.items.length) d.items }, .ok ())
      else if 0 < n then
        if d.items = [] then (d, .error .undefined)
        else ({ d with items := (stdRotate (n.toNat % d.items.length) d.items.reverse).reverse }, .ok ())
      else (d, .ok ())
    else (d, .error .abort)

/-! ## What is asked of it -/

/-- Each item of one deque is `n` positions further in the other, round the end. -/
structure Moves (n : Int) (d d' : Deque α) : Prop where
  maxlength : d'.maxlength = d.maxlength
  length : d'.items.length = d.items.length
  items : ∀ i < d.items.length, d'.items[((i + n) % d.items.length).toNat]? = d.items[i]?

/-- Rotations by `n`, by `m` and by their sum. -/
structure RotatesRight (E : Type) (d : Deque α) (n m : Int) : Prop where
  moves : ∀ k ∈ [n, m, n + m], ∃ d', d.rotate (E := E) (.int k) = (d', .ok ()) ∧ Moves k d d'
  sum : ∃ d₁ d₂, d.rotate (E := E) (.int n) = (d₁, .ok ()) ∧ d₁.rotate (E := E) (.int m) = (d₂, .ok ()) ∧
    d.rotate (E := E) (.int (n + m)) = (d₂, .ok ())

/-- A call of the constructor is one of `__init__`, on the deque that `__new__` makes. -/
inductive Call (α E : Type) where
  | init (args : DequeArgs α E) (kwargs : Bool)
  | append (x : α)
  | appendleft (x : α)
  | extend (iterable : Iteration α E)
  | rotate (n : CountArg)
  deriving DecidableEq

def call (d : Deque α) : Call α E → Reply α E
  | .init args kwargs => d.init args kwargs
  | .append x => d.pushBack x
  | .appendleft x => d.pushFront x
  | .extend iterable => d.extend iterable
  | .rotate n => d.rotate n

/-- What a call can leave: nothing where the program ends, and any deque where it is undefined. -/
inductive Step (d : Deque α) (c : Call α E) : Deque α → Prop where
  | returned {d' : Deque α} : d.call c = (d', .ok ()) → Step d c d'
  | typeError {d' : Deque α} (message : String) : d.call c = (d', .error (.typeError message)) → Step d c d'
  | raised {d' : Deque α} (e : E) : d.call c = (d', .error (.raised e)) → Step d c d'
  | undefined {d' : Deque α} : (d.call c).2 = .error .undefined → Step d c d'

/-- The states of the runs whose steps all meet `P`, with their calls. -/
inductive Reaches (P : Deque α → Call α E → Prop) : List (Call α E) → Deque α → Prop where
  | start : Reaches P [] {}
  | step {calls : List (Call α E)} {d d' : Deque α} {c : Call α E} :
      Reaches P calls d → P d c → Step d c d' → Reaches P (calls ++ [c]) d'

def Bounded (d : Deque α) : Prop := ∀ m, d.maxlength = some m → d.items.length ≤ m

/-- The last elements, as many as the bound lets stay. -/
def newest (maxlength : Option Nat) (l : List α) : List α :=
  match maxlength with
  | some m => l.drop (l.length - m)
  | none => l

/-! ## Rotation -/

section

variable {d d' : Deque α} {n m : Int}

/-- The items rotated to the left by what is `-n` round the end. -/
def rotated (d : Deque α) (n : Int) : Deque α := { d with items := d.items.rotate ((-n) % d.items.length).toNat }

/-- The deque that a call should leave: the last elements after one is added behind, the first after one in front. -/
def wanted (d : Deque α) : Call α E → Deque α
  | .init args kwargs =>
    match args.maxlen with
    | .ok maxlen =>
      if kwargs then d
      else { items := newest maxlen (d.items ++ ((args.iterable?.map (·.items)).getD [])), maxlength := maxlen }
    | .error _ => d
  | .append x => { d with items := newest d.maxlength (d.items ++ [x]) }
  | .appendleft x => { d with items := (newest d.maxlength (d.items.reverse ++ [x])).reverse }
  | .extend iterable => { d with items := newest d.maxlength (d.items ++ iterable.items) }
  | .rotate (.int n) => d.rotated n
  | .rotate (.other _) => d

/-- A bound of 0 is never added to, a new bound holds already, and what is rotated by a number other than 0 has
elements and its amount a magnitude of 64 bits. -/
def Proper (d : Deque α) : Call α E → Prop
  | .init args kwargs => ∀ m, args.maxlen = .ok (some m) → kwargs = false →
      d.items.length ≤ m ∧ ∀ it, args.iterable? = some it → it.items = [] ∨ m ≠ 0
  | .append _ | .appendleft _ => d.maxlength ≠ some 0
  | .extend iterable => iterable.items = [] ∨ d.maxlength ≠ some 0
  | .rotate (.int n) => n = 0 ∨ d.items ≠ [] ∧ n ≠ -2 ^ 63
  | .rotate (.other _) => True

theorem rotate_congr {l : List α} {a b : Nat} (h : (a : Int) % l.length = b % l.length) : l.rotate a = l.rotate b := by
  have hmod : a % l.length = b % l.length := by exact_mod_cast h
  rw [← List.rotate_mod l a, ← List.rotate_mod l b, hmod]

theorem toNat_emod {l : List α} (h : l ≠ []) (k : Int) : ((k % l.length).toNat : Int) = k % l.length :=
  Int.toNat_of_nonneg (Int.emod_nonneg k (by simpa using h))

theorem stdRotate_eq {l : List α} (h : l ≠ []) (k : Nat) : stdRotate (k % l.length) l = l.rotate k := by
  rw [← List.rotate_mod, List.rotate_eq_drop_append_take (Nat.mod_lt _ (List.length_pos_iff.mpr h)).le]
  rfl

theorem stdRotate_reverse {l : List α} (h : l ≠ []) (k : Nat) :
    (stdRotate (k % l.length) l.reverse).reverse = l.rotate ((-k : Int) % l.length).toNat := by
  have hrev := stdRotate_eq (l := l.reverse) (by simpa using h) k
  rw [List.length_reverse] at hrev
  rw [hrev, List.reverse_rotate, List.reverse_reverse, List.length_reverse]
  refine rotate_congr ?_
  have hlt := Nat.mod_lt k (List.length_pos_iff.mpr h)
  rw [toNat_emod h, Int.emod_emod_of_dvd _ (dvd_refl _), Nat.cast_sub hlt.le, Int.natCast_mod,
    Int.sub_emod, Int.emod_self, Int.emod_emod_of_dvd _ (dvd_refl _), Int.zero_sub]
  exact (Int.mod_modEq k l.length).neg

theorem rotate_of_lt (hneg : -2 ^ 63 < n) (hlt : n < 2 ^ 63) (h : d.items ≠ []) :
    d.rotate (E := E) (.int n) = (d.rotated n, .ok ()) := by
  unfold rotate
  dsimp only
  rw [if_pos (fitsSlong_iff.mpr ⟨Int.le_of_lt hneg, hlt⟩)]
  by_cases hn : n < 0
  · have habs : (n.natAbs : Int) = -n := by omega
    rw [if_pos hn, if_neg (not_or.mpr ⟨by omega, h⟩), stdRotate_eq h, rotated]
    rw [rotate_congr (a := n.natAbs) (b := ((-n) % d.items.length).toNat)]
    rw [toNat_emod h, Int.emod_emod_of_dvd _ (dvd_refl _), habs]
  · rw [if_neg hn]
    by_cases hpos : 0 < n
    · have hto : (n.toNat : Int) = n := by omega
      rw [if_pos hpos, if_neg h, stdRotate_reverse h, hto]
      rfl
    · obtain rfl : n = 0 := by omega
      rw [if_neg hpos, rotated]
      simp

theorem rotated_rotated (h : d.items ≠ []) (n m : Int) : (d.rotated n).rotated m = d.rotated (n + m) := by
  unfold rotated
  dsimp only
  rw [List.rotate_rotate, List.length_rotate]
  congr 1
  refine rotate_congr ?_
  rw [Nat.cast_add, toNat_emod h, toNat_emod h, toNat_emod h, ← Int.add_emod, Int.emod_emod_of_dvd _ (dvd_refl _)]
  congr 1
  omega

theorem moves_rotated (h : d.items ≠ []) (n : Int) : Moves n d (d.rotated n) where
  maxlength := rfl
  length := List.length_rotate ..
  items := by
    intro i hi
    have hpos := List.length_pos_iff.mpr h
    have hlt : ((i + n) % d.items.length).toNat < d.items.length := by
      have := Int.emod_lt_of_pos (i + n) (Int.natCast_pos.mpr hpos)
      omega
    rw [rotated, List.getElem?_rotate hlt]
    congr 1
    have hback : ((((i + n) % d.items.length).toNat + ((-n) % d.items.length).toNat : Nat) : Int) % d.items.length = i := by
      rw [Nat.cast_add, toNat_emod h, toNat_emod h, ← Int.add_emod, show (i : Int) + n + -n = i by omega]
      exact Int.emod_eq_of_lt (by omega) (by omega)
    exact_mod_cast hback

theorem rotate_nil (h : d.items = []) (d' : Deque α) : d.rotate (E := E) (.int n) = (d', .ok ()) ↔ n = 0 ∧ d' = d := by
  unfold rotate
  dsimp only
  constructor
  · intro hrotate
    split at hrotate
    next =>
      split at hrotate
      next =>
        rw [if_pos (Or.inr h)] at hrotate
        cases hrotate
      next hnonneg =>
        split at hrotate
        next => cases hrotate
        next hnot =>
          cases hrotate
          exact ⟨by omega, rfl⟩
    next => cases hrotate
  · intro hzero
    obtain ⟨rfl, rfl⟩ := hzero
    rfl

theorem fits_of_rotate (h : d.rotate (E := E) (.int n) = (d', .ok ())) : -2 ^ 63 < n ∧ n < 2 ^ 63 := by
  unfold rotate at h
  dsimp only at h
  split at h
  next hfits =>
    have hbounds := fitsSlong_iff.mp hfits
    refine ⟨lt_of_le_of_ne hbounds.1 fun hleast => ?_, hbounds.2⟩
    rw [if_pos (by omega), if_pos (Or.inl hleast.symm)] at h
    cases h
  next => cases h

/-- **Rotation** is right for amounts that fit 64 bits with their negation, of a deque that is not empty. -/
theorem rotatesRight_iff (d : Deque α) (n m : Int) : RotatesRight E d n m ↔
    d.items = [] ∧ n = 0 ∧ m = 0 ∨ d.items ≠ [] ∧ ∀ k ∈ [n, m, n + m], -2 ^ 63 < k ∧ k < 2 ^ 63 := by
  constructor
  · intro h
    by_cases hempty : d.items = []
    · obtain ⟨d₁, h₁, -⟩ := h.moves n (by simp)
      obtain ⟨d₂, h₂, -⟩ := h.moves m (by simp)
      exact .inl ⟨hempty, ((rotate_nil hempty d₁).mp h₁).1, ((rotate_nil hempty d₂).mp h₂).1⟩
    · refine .inr ⟨hempty, fun k hk => ?_⟩
      obtain ⟨d', hd', -⟩ := h.moves k hk
      exact fits_of_rotate hd'
  · intro h
    rcases h with ⟨hempty, rfl, rfl⟩ | ⟨hne, hfits⟩
    · have hzero : d.rotate (E := E) (.int 0) = (d, .ok ()) := rfl
      constructor
      · intro k hk
        obtain rfl : k = 0 := by simpa using hk
        exact ⟨d, hzero, rfl, rfl, by simp [hempty]⟩
      · exact ⟨d, d, hzero, hzero, hzero⟩
    · have hrotate : ∀ k ∈ [n, m, n + m], ∀ d₁ : Deque α, d₁.items ≠ [] →
          d₁.rotate (E := E) (.int k) = (d₁.rotated k, .ok ()) :=
        fun k hk d₁ h₁ => rotate_of_lt (hfits k hk).1 (hfits k hk).2 h₁
      constructor
      · exact fun k hk => ⟨d.rotated k, hrotate k hk d hne, moves_rotated hne k⟩
      · have hne' : (d.rotated n).items ≠ [] := by simpa [rotated] using hne
        refine ⟨d.rotated n, d.rotated (n + m), hrotate n (by simp) d hne, ?_, hrotate (n + m) (by simp) d hne⟩
        rw [hrotate m (by simp) _ hne', rotated_rotated hne]

/-- `deque().rotate(1)` divides by zero. -/
theorem rotate_empty : (⟨[], none⟩ : Deque Nat).rotate (E := Empty) (.int 1) = (⟨[], none⟩, .error .undefined) ∧
    ¬ RotatesRight Empty (⟨[], none⟩ : Deque Nat) 1 0 := by
  refine ⟨rfl, fun h => ?_⟩
  obtain ⟨d', hd', -⟩ := h.moves 1 (by simp)
  cases hd'

end

/-! ## The bound -/

section

variable {d d' : Deque α} {values : List α} {x : α} {m : Nat}

theorem newest_of_length_le (h : values.length ≤ m) : newest (some m) values = values := by
  rw [newest, Nat.sub_eq_zero_of_le h, List.drop_zero]

theorem newest_append (maxlength : Option Nat) (l r : List α) :
    newest maxlength (newest maxlength l ++ r) = newest maxlength (l ++ r) := by
  cases maxlength with
  | none => rfl
  | some m =>
    simp only [newest]
    have hcut : l.drop (l.length - m) ++ r = (l ++ r).drop (l.length - m) := by
      rw [List.drop_append_of_le_length (Nat.sub_le ..)]
    rw [hcut, List.drop_drop, List.length_drop, List.length_append]
    congr 1
    omega

theorem length_newest_le (m : Nat) (l : List α) : (newest (some m) l).length ≤ m := by
  simp only [newest, List.length_drop]
  omega

theorem Bounded.newest_eq (h : d.Bounded) : newest d.maxlength d.items = d.items := by
  cases hm : d.maxlength with
  | none => rfl
  | some m => exact newest_of_length_le (h m hm)

theorem bounded_newest (maxlength : Option Nat) (l : List α) :
    Bounded { items := newest maxlength l, maxlength := maxlength } := by
  intro m hm
  cases hm
  exact length_newest_le m l

theorem Bounded.any_eq_false (h : d.Bounded) : d.maxlength.any (· < d.items.length) = false := by
  cases hm : d.maxlength with
  | none => rfl
  | some m =>
    have := h m hm
    simpa using this

theorem Bounded.pushBack (h : d.Bounded) (hm : d.maxlength ≠ some 0) (x : α) :
    d.pushBack (E := E) x = ({ d with items := newest d.maxlength (d.items ++ [x]) }, .ok ()) := by
  unfold Deque.pushBack
  rw [h.any_eq_false, if_neg Bool.false_ne_true]
  by_cases hfull : d.maxlength = some d.items.length
  · rw [if_pos hfull]
    cases hitems : d.items with
    | nil => rw [hitems] at hfull; exact absurd hfull hm
    | cons first rest => simp [hfull, hitems, newest]
  · rw [if_neg hfull]
    cases hmax : d.maxlength with
    | none => rfl
    | some m =>
      have hlt : d.items.length < m := lt_of_le_of_ne (h m hmax) fun heq => hfull (by rw [hmax, heq])
      rw [newest_of_length_le (by simpa [Nat.succ_le_iff] using hlt)]

theorem Bounded.pushFront (h : d.Bounded) (hm : d.maxlength ≠ some 0) (x : α) :
    d.pushFront (E := E) x = ({ d with items := (newest d.maxlength (d.items.reverse ++ [x])).reverse }, .ok ()) := by
  unfold Deque.pushFront
  rw [h.any_eq_false, if_neg Bool.false_ne_true]
  by_cases hfull : d.maxlength = some d.items.length
  · have hne : d.items ≠ [] := fun hnil => hm (by rw [hfull, hnil]; rfl)
    have hpos := List.length_pos_iff.mpr hne
    rw [if_pos hfull, if_neg hne, hfull]
    simp [newest, List.drop_append_of_le_length, Nat.succ_le_of_lt hpos, List.dropLast_eq_take]
  · rw [if_neg hfull]
    cases hmax : d.maxlength with
    | none => simp [newest]
    | some m =>
      have hlt : d.items.length < m := lt_of_le_of_ne (h m hmax) fun heq => hfull (by rw [hmax, heq])
      rw [newest_of_length_le (by simpa [Nat.succ_le_iff] using hlt)]
      simp

theorem Bounded.extendItems (h : d.Bounded) (hm : values = [] ∨ d.maxlength ≠ some 0) (error : Option E) :
    d.extendItems error values = ({ d with items := newest d.maxlength (d.items ++ values) },
      match error with | some e => .error (.raised e) | none => .ok ()) := by
  induction values generalizing d with
  | nil => rw [List.append_nil, h.newest_eq]; rfl
  | cons value values ih =>
    have hm : d.maxlength ≠ some 0 := hm.resolve_left (List.cons_ne_nil _ _)
    rw [Deque.extendItems, h.pushBack hm]
    dsimp only
    rw [ih (bounded_newest d.maxlength (d.items ++ [value])) (.inr hm)]
    simp only [newest_append, List.append_assoc, List.singleton_append]

theorem Bounded.wanted {c : Call α E} (h : d.Bounded) (hc : d.Proper c) : (d.wanted c).Bounded := by
  cases c with
  | init args kwargs =>
    unfold Deque.wanted
    dsimp only
    split
    next =>
      split
      next => exact h
      next => exact bounded_newest _ _
    next => exact h
  | append x => exact bounded_newest _ (d.items ++ [x])
  | appendleft x =>
    intro m hm
    have := bounded_newest d.maxlength (d.items.reverse ++ [x]) m hm
    simpa [Deque.wanted] using this
  | extend iterable => exact bounded_newest _ (d.items ++ iterable.items)
  | rotate n =>
    cases n with
    | int n => intro m hm; simpa [Deque.wanted, rotated] using h m hm
    | other typeName => exact h

theorem maxlen_ne_undefined (args : DequeArgs α E) : args.maxlen ≠ .error .undefined := by
  unfold DequeArgs.maxlen
  split
  next => split_ifs <;> simp
  next => simp
  next => simp

theorem wanted_init_of_ok {args : DequeArgs α E} {maxlength : Option Nat} (h : args.maxlen = .ok maxlength) :
    d.wanted (.init args false) =
      { items := newest maxlength (d.items ++ ((args.iterable?.map (·.items)).getD [])), maxlength := maxlength } := by
  simp [Deque.wanted, h]

/-- The iterable of `__init__` goes into a deque with the new bound. -/
theorem init_of_proper {args : DequeArgs α E} {kwargs : Bool} (hc : d.Proper (.init args kwargs)) :
    (d.init args kwargs).2 = .error .abort ∨
      ∃ r, r ≠ .error .undefined ∧ d.init args kwargs = (d.wanted (.init args kwargs), r) := by
  cases hmaxlen : args.maxlen with
  | error e =>
    have hne : e ≠ .undefined := fun he => maxlen_ne_undefined args (he ▸ hmaxlen)
    exact .inr ⟨.error e, by simpa using hne, by simp [Deque.init, Deque.wanted, hmaxlen]⟩
  | ok maxlength =>
    cases kwargs with
    | true => exact .inl (by simp [Deque.init, hmaxlen])
    | false =>
      refine .inr ?_
      have hbounded : Bounded { d with maxlength := maxlength } := by
        intro m hm
        cases hm
        exact (hc m hmaxlen rfl).1
      rw [wanted_init_of_ok hmaxlen]
      cases hiterable : args.iterable? with
      | none =>
        refine ⟨.ok (), by simp, ?_⟩
        have hitems : newest maxlength d.items = d.items := hbounded.newest_eq
        simp [Deque.init, hmaxlen, hiterable, hitems]
      | some iterable =>
        have hadd : iterable.items = [] ∨ maxlength ≠ some 0 := by
          cases maxlength with
          | none => exact .inr (by simp)
          | some m => exact ((hc m hmaxlen rfl).2 iterable hiterable).imp_right (by simp)
        have hextend := hbounded.extendItems hadd iterable.error
        simp only [Deque.init, hmaxlen, hiterable, Deque.extend, hextend, Bool.false_eq_true, if_false]
        refine ⟨_, ?_, rfl⟩
        split <;> simp

theorem rotate_of_proper {n : CountArg} (hc : d.Proper (E := E) (.rotate n)) :
    (d.rotate (E := E) n).2 = .error .abort ∨
      ∃ r, r ≠ .error .undefined ∧ d.rotate (E := E) n = (d.wanted (E := E) (.rotate n), r) := by
  cases n with
  | other typeName => exact .inr ⟨_, by simp, rfl⟩
  | int n =>
    by_cases hfits : fitsSlong n
    · refine .inr ⟨.ok (), by simp, ?_⟩
      rcases hc with rfl | ⟨hne, hleast⟩
      · rw [show d.wanted (E := E) (.rotate (.int 0)) = d by simp [Deque.wanted, rotated]]
        rfl
      · have hbounds := fitsSlong_iff.mp hfits
        exact rotate_of_lt (lt_of_le_of_ne hbounds.1 hleast.symm) hbounds.2 hne
    · exact .inl (by simp [Deque.rotate, hfits])

theorem Bounded.call {c : Call α E} (h : d.Bounded) (hc : d.Proper c) :
    (d.call c).2 = .error .abort ∨ ∃ r, r ≠ .error .undefined ∧ d.call c = (d.wanted c, r) := by
  cases c with
  | init args kwargs => exact init_of_proper hc
  | append x => exact .inr ⟨_, by simp, h.pushBack hc x⟩
  | appendleft x => exact .inr ⟨_, by simp, h.pushFront hc x⟩
  | extend iterable =>
    refine .inr ⟨_, ?_, h.extendItems hc iterable.error⟩
    split <;> simp
  | rotate n => exact rotate_of_proper hc

theorem Bounded.step {c : Call α E} (h : d.Bounded) (hc : d.Proper c) (hstep : Step d c d') :
    d'.Bounded ∧ d' = d.wanted c := by
  have hd' : d' = d.wanted c := by
    rcases h.call hc with habort | ⟨r, hr, hcall⟩
    · cases hstep <;> simp_all
    · cases hstep with
      | returned hd' => exact congrArg Prod.fst (hd'.symm.trans hcall)
      | typeError message hd' => exact congrArg Prod.fst (hd'.symm.trans hcall)
      | raised e hd' => exact congrArg Prod.fst (hd'.symm.trans hcall)
      | undefined hundefined => rw [hcall] at hundefined; exact absurd hundefined hr
  exact ⟨hd' ▸ h.wanted hc, hd'⟩

/-- In a run of proper calls the **bound** holds, and the elements are those that were last added. -/
theorem bounded_of_reaches {calls : List (Call α E)} (h : Reaches Proper calls d) :
    d.Bounded ∧ d = calls.foldl wanted {} := by
  induction h with
  | start => exact ⟨fun m hm => (nomatch hm), rfl⟩
  | step hreach hc hstep ih =>
    have hd' := ih.1.step hc hstep
    refine ⟨hd'.1, ?_⟩
    rw [List.foldl_append, ← ih.2]
    exact hd'.2

/-- `deque("abc", 2)` and an `append`. -/
theorem bounded_of_reaches_two :
    Bounded ({ items := [3, 4], maxlength := some 2 } : Deque Nat) ∧
      ({ items := [3, 4], maxlength := some 2 } : Deque Nat) =
        [Call.init (.both ⟨[1, 2, 3], none⟩ (.int 2)) false, Call.append (E := Empty) 4].foldl wanted {} := by
  have hfirst : Reaches Proper [(Call.init (.both ⟨[1, 2, 3], none⟩ (.int 2)) false : Call Nat Empty)]
      ({ items := [2, 3], maxlength := some 2 } : Deque Nat) := by
    refine @Reaches.step _ Empty _ [] _ _ _ .start ?_ (.returned rfl)
    intro m hm _
    cases hm
    exact ⟨by decide, fun _ _ => .inr (by decide)⟩
  exact bounded_of_reaches (@Reaches.step _ Empty _ [_] _ _ _ hfirst (fun h => (nomatch h)) (.returned rfl))

/-- `__init__` sets a bound below the number of elements; with bound 0 `append` takes an element from an empty deque. -/
theorem init_twice :
    (∃ (calls : List (Call Nat Empty)) (d : Deque Nat), Reaches (fun _ _ => True) calls d ∧ ¬ d.Bounded) ∧
    (({ maxlength := some 0 } : Deque Nat).pushBack (E := Empty) 1).2 = .error .undefined := by
  refine ⟨⟨[.init (.iterable ⟨[1, 2], none⟩) false, .init (.both ⟨[], none⟩ (.int 1)) false],
    { items := [1, 2], maxlength := some 1 }, ?_, fun h => absurd (h 1 rfl) (by decide)⟩, rfl⟩
  exact @Reaches.step _ _ _ [_] _ _ _ (@Reaches.step _ _ _ [] _ _ _ .start trivial (.returned rfl)) trivial (.returned rfl)

end

end Deque

end Pylang.Runtime
