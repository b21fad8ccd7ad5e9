/-
`GlobalCache` and `AttrCache`: direct-mapped tables from a key, with the
versions it was stored at. In both, `lookup` and `update` have a static table
each, so that a lookup reads what nobody has written.
-/
import Mathlib.Logic.Function.Basic
import Mathlib.Data.List.Basic

namespace Pylang.Runtime

/-- An address, or a version. -/
abbrev Word := BitVec 64

namespace StaticCache

/-- The tables of a thread: that of `lookup`, and that of `update`. An entry has a key, its versions and a value. -/
structure Tables (κ φ : Type) where
  lookup : Nat → κ × φ × Word
  update : Nat → κ × φ × Word

section
variable {κ φ ψ : Type} [DecidableEq κ]

/-- An entry answers for its own key, if the versions are still those it was stored at. -/
def lookup (hash : κ → Nat) (current : φ → ψ → Bool) (T : Tables κ φ) (key : κ) (versions : ψ) : Word :=
  let e := T.lookup (hash key)
  if e.1 = key ∧ current e.2.1 versions then e.2.2 else 0

def update (hash : κ → Nat) (T : Tables κ φ) (key : κ) (value : Word) (versions : φ) : Tables κ φ :=
  { T with update := Function.update T.update (hash key) (key, versions, value) }

/-- A call, with the arguments it has. -/
inductive Call (κ φ ψ : Type)
  | lookup (key : κ) (versions : ψ)
  | update (key : κ) (value : Word) (versions : φ)

/-- What a call leaves. -/
def Call.step (hash : κ → Nat) (T : Tables κ φ) : Call κ φ ψ → Tables κ φ
  | .lookup _ _ => T
  | .update key value versions => StaticCache.update hash T key value versions

/-! ## A thread's calls, the last one first -/

variable (hash : κ → Nat) (current : φ → ψ → Bool)

/-- The tables after some calls. -/
def after (T : Tables κ φ) (past : List (Call κ φ ψ)) : Tables κ φ := past.foldr (fun call T => call.step hash T) T

/-- What the last update of a slot has stored. -/
def stored (slot : Nat) : List (Call κ φ ψ) → Option (κ × φ × Word)
  | [] => none
  | .lookup _ _ :: past => stored slot past
  | .update key value versions :: past => if hash key = slot then some (key, versions, value) else stored slot past

/-- What is asked of a lookup: it finds what its slot has for the key and the versions, and nothing that was stored for
others. -/
structure LookupRight (past : List (Call κ φ ψ)) (key : κ) (versions : ψ) (result : Word) : Prop where
  hit : ∀ at_ value, stored hash (hash key) past = some (key, at_, value) → current at_ versions = true → result = value
  sound : result ≠ 0 → ∃ at_, current at_ versions = true ∧ .update key result at_ ∈ past

/-- Every lookup of the calls is right. -/
def Right (T : Tables κ φ) (calls : List (Call κ φ ψ)) : Prop :=
  ∀ past key versions, .lookup key versions :: past <:+ calls →
    LookupRight hash current past key versions (lookup hash current (after hash T past) key versions)

/-- No lookup meets its key and versions in its slot, but with the null pointer. -/
def NeverHits (calls : List (Call κ φ ψ)) : Prop :=
  ∀ past key versions, .lookup key versions :: past <:+ calls → ∀ at_ value,
    stored hash (hash key) past = some (key, at_, value) → current at_ versions = true → value = 0

variable {hash current} {T : Tables κ φ} {key : κ} {versions : ψ} {calls : List (Call κ φ ψ)}

omit [DecidableEq κ] in
/-- No call writes the table of `lookup`. -/
theorem lookup_after (past : List (Call κ φ ψ)) : (after hash T past).lookup = T.lookup := by
  induction past with
  | nil => rfl
  | cons call past ih =>
    cases call with
    | lookup key versions => exact ih
    | update key value versions => exact ih

theorem lookup_eq_zero (hzero : ∀ slot, (T.lookup slot).2.2 = 0) (past : List (Call κ φ ψ)) :
    lookup hash current (after hash T past) key versions = 0 := by
  unfold lookup
  simp only [lookup_after]
  split
  · exact hzero _
  · rfl

theorem right_iff_neverHits (hzero : ∀ slot, (T.lookup slot).2.2 = 0) :
    Right hash current T calls ↔ NeverHits hash current calls := by
  constructor
  · intro h past key versions hpast at_ value hstored hcurrent
    rw [← (h past key versions hpast).hit at_ value hstored hcurrent]
    exact lookup_eq_zero hzero past
  · intro h past key versions hpast
    rw [lookup_eq_zero hzero]
    refine { hit := fun at_ value hstored hcurrent => ?_, sound := fun hne => absurd rfl hne }
    exact (h past key versions hpast at_ value hstored hcurrent).symm

end

/-! ## The two caches -/

namespace GlobalCache

def tableSize : Nat := 256 * 3

/-- Of the module and of the pointer to the name. -/
def hash (key : Word × Word) : Nat := (key.1 ^^^ key.2).toNat % tableSize

/-- The versions of the globals and of the builtins, which may be missing. -/
def current (at_ : Word × Word) (versions : Word × Option Word) : Bool :=
  versions.1 == at_.1 && versions.2.all (· == at_.2)

def tables : Tables (Word × Word) (Word × Word) where
  lookup _ := ((0, 0), (0, 0), 0)
  update _ := ((0, 0), (0, 0), 0)

end GlobalCache

namespace AttrCache

def tableSize : Nat := 256 * 3

/-- Of the type and of the pointer to the name. -/
def hash (key : Word × Word) : Nat := ((key.1 >>> 3) ^^^ key.2).toNat % tableSize

def current (at_ version : Word) : Bool := at_ == version

def tables : Tables (Word × Word) Word where
  lookup _ := ((0, 0), 0, 0)
  update _ := ((0, 0), 0, 0)

end AttrCache

/-- **The caches.** The lookups of a thread are right exactly if none is for what its slot has. -/
theorem lookups_right_iff (globals : List (Call (Word × Word) (Word × Word) (Word × Option Word)))
    (attrs : List (Call (Word × Word) Word Word)) :
    (Right GlobalCache.hash GlobalCache.current GlobalCache.tables globals ↔
      NeverHits GlobalCache.hash GlobalCache.current globals) ∧
    (Right AttrCache.hash AttrCache.current AttrCache.tables attrs ↔
      NeverHits AttrCache.hash AttrCache.current attrs) :=
  ⟨right_iff_neverHits fun _ => rfl, right_iff_neverHits fun _ => rfl⟩

/-- A global that was stored just before. -/
theorem stored_not_found : ¬ Right GlobalCache.hash GlobalCache.current GlobalCache.tables
    [.lookup (4096, 8192) (1, some 1), .update (4096, 8192) 12288 (1, 1)] := by
  intro h
  have hhit := (h _ _ _ (List.suffix_refl _)).hit (1, 1) 12288 (by decide) (by decide)
  exact absurd hhit (by decide)

end StaticCache

end Pylang.Runtime
