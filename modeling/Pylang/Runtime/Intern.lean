/-
The intern table of `PyString` and its single-character cache.

A string is a list of bytes, and a `PyString` a number. All strings come from
`intern`, which has an overload for a C string, one for a `std::string` that
hands on its `c_str()`, and one for an rvalue. The first two see the bytes up
to the first NUL only.
-/
import Mathlib.Logic.Function.Basic
import Mathlib.Data.List.TakeWhile

namespace Pylang.Runtime

abbrev Bytes := List UInt8

/-- What is read through `c_str()`. -/
def cString (s : Bytes) : Bytes := s.takeWhile (· ≠ 0)

theorem cString_eq_self {s : Bytes} : cString s = s ↔ 0 ∉ s := by
  rw [cString, List.takeWhile_eq_self_iff]
  simp only [decide_eq_true_eq]
  exact ⟨fun h hmem => h 0 hmem rfl, fun h b hb he => h (he ▸ hb)⟩

/-- The `PyString`s made so far by their values, `intern_table` and `get_char_cache`. -/
structure InternTable where
  values : List Bytes
  table : Bytes → Option Nat
  charCache : UInt8 → Option Nat

namespace InternTable

def empty : InternTable := ⟨[], fun _ => none, fun _ => none⟩

def value (T : InternTable) (obj : Nat) : Option Bytes := T.values[obj]?

variable (T : InternTable)

/-- A new object, in the table. -/
def add (s : Bytes) : InternTable × Nat :=
  (⟨T.values ++ [s], Function.update T.table s (some T.values.length), T.charCache⟩, T.values.length)

/-- `intern(const char *)`. -/
def internCStr (cstr : Bytes) : InternTable × Nat :=
  match cString cstr with
  | [c] =>
    match T.charCache c with
    | some cached => (T, cached)
    | none =>
      match T.table [c] with
      | some obj => (T, obj)
      | none =>
        let (T', obj) := T.add [c]
        ({ T' with charCache := Function.update T'.charCache c (some obj) }, obj)
  | sv =>
    match T.table sv with
    | some obj => (T, obj)
    | none => T.add sv

/-- `intern(const std::string &)`. -/
def internRef (s : Bytes) : InternTable × Nat := T.internCStr s

/-- `intern(std::string &&)`. -/
def internMove (s : Bytes) : InternTable × Nat :=
  match s with
  | [] => T.internCStr []
  | s =>
    match T.table s with
    | some obj => (T, obj)
    | none => T.add s

/-- `create(const std::string &)`. -/
def createRef (s : Bytes) : InternTable × Nat := T.internRef s

/-- `create(std::string &&)`. -/
def createMove (s : Bytes) : InternTable × Nat := T.internMove s

/-- `create_raw`: an object that is not in the table. -/
def createRaw (s : Bytes) : InternTable × Nat := ({ T with values := T.values ++ [s] }, T.values.length)

end InternTable

/-- The calls that make a string of the bytes `s`. -/
inductive StringCall where
  | internCStr (s : Bytes) | internRef (s : Bytes) | internMove (s : Bytes)
  | createRef (s : Bytes) | createMove (s : Bytes)
deriving DecidableEq

namespace StringCall

def text : StringCall → Bytes
  | internCStr s | internRef s | internMove s | createRef s | createMove s => s

/-- The text is handed on by its length. -/
def isMove : StringCall → Bool
  | internMove _ | createMove _ => true
  | _ => false

/-- What the table is asked for. -/
def key (c : StringCall) : Bytes := if c.isMove then c.text else cString c.text

def run (T : InternTable) : StringCall → InternTable × Nat
  | internCStr s => T.internCStr s
  | internRef s => T.internRef s
  | internMove s => T.internMove s
  | createRef s => T.createRef s
  | createMove s => T.createMove s

theorem key_eq_text {c : StringCall} : c.key = c.text ↔ c.isMove = true ∨ 0 ∉ c.text := by
  unfold key
  split
  next h => simp [h]
  next h => rw [cString_eq_self]; simp [h]

end StringCall

namespace InternTable

/-- What the calls can make of the table. -/
inductive Leads (T : InternTable) : InternTable → Prop where
  | refl : Leads T T
  | call {T'} (c : StringCall) : Leads T T' → Leads T (c.run T').1
  | raw {T'} (s : Bytes) : Leads T T' → Leads T (T'.createRaw s).1

/-- What holds of the table in every reachable state. -/
structure Inv (T : InternTable) : Prop where
  entry : ∀ {s obj}, T.table s = some obj → T.value obj = some s
  cached : ∀ {c obj}, T.charCache c = some obj → T.table [c] = some obj

/-- Nothing is taken out of the table, and no object changes. -/
structure Grows (T T' : InternTable) : Prop where
  table : ∀ {s obj}, T.table s = some obj → T'.table s = some obj
  value : ∀ {s obj}, T.value obj = some s → T'.value obj = some s

theorem Inv.empty : Inv empty := ⟨fun {s obj} h => (by cases h), fun {c obj} h => (by cases h)⟩

theorem Grows.refl (T : InternTable) : Grows T T := ⟨id, id⟩

theorem Grows.trans {T T' T'' : InternTable} (h : Grows T T') (h' : Grows T' T'') : Grows T T'' :=
  ⟨fun ht => h'.table (h.table ht), fun hv => h'.value (h.value hv)⟩

section
variable {T T' : InternTable} {s : Bytes}

theorem value_append {t : Bytes} {obj : Nat} (h : T.value obj = some s) : (T.values ++ [t])[obj]? = some s := by
  obtain ⟨hlt, -⟩ := List.getElem?_eq_some_iff.mp h
  rw [List.getElem?_append_left hlt]
  exact h

theorem add_grows (h : T.table s = none) : Grows T (T.add s).1 := by
  refine ⟨fun {t obj} ht => ?_, fun hv => value_append hv⟩
  have hne : t ≠ s := fun he => by rw [he, h] at ht; cases ht
  simpa [add, hne] using ht

theorem add_inv (hT : Inv T) (h : T.table s = none) : Inv (T.add s).1 ∧ (T.add s).1.table s = some (T.add s).2 := by
  refine ⟨⟨fun {t obj} ht => ?_, fun hc => (add_grows h).table (hT.cached hc)⟩, by simp [add]⟩
  by_cases he : t = s
  · subst he
    have hobj : T.values.length = obj := by simpa [add] using ht
    simp [add, value, ← hobj]
  · exact value_append (hT.entry (by simpa [add, he] using ht))

/-- What a call leaves: the table holds the object it returns under the text it looked for. -/
structure Holds (T : InternTable) (key : Bytes) (r : InternTable × Nat) : Prop where
  inv : Inv r.1
  grows : Grows T r.1
  entry : r.1.table key = some r.2

theorem Holds.found (hT : Inv T) {obj : Nat} (h : T.table s = some obj) : Holds T s (T, obj) := ⟨hT, .refl T, h⟩

theorem Holds.added (hT : Inv T) (h : T.table s = none) : Holds T s (T.add s) :=
  ⟨(add_inv hT h).1, add_grows h, (add_inv hT h).2⟩

theorem internCStr_holds (hT : Inv T) (cstr : Bytes) : Holds T (cString cstr) (T.internCStr cstr) := by
  unfold internCStr
  split
  next c heq =>
    rw [heq]
    split
    next cached hcached => exact .found hT (hT.cached hcached)
    next =>
      split
      next obj hobj => exact .found hT hobj
      next hnone =>
        have h := Holds.added hT hnone
        refine ⟨⟨h.inv.entry, fun {d obj} hd => ?_⟩, ⟨h.grows.table, h.grows.value⟩, h.entry⟩
        by_cases he : d = c
        · subst he
          have hobj : (T.add [d]).2 = obj := by simpa using hd
          rw [← hobj]
          exact h.entry
        · exact h.inv.cached (by simpa [he] using hd)
  next =>
    split
    next obj hobj => exact .found hT hobj
    next hnone => exact .added hT hnone

theorem internMove_holds (hT : Inv T) (s : Bytes) : Holds T s (T.internMove s) := by
  unfold internMove
  split
  next => exact internCStr_holds hT []
  next =>
    split
    next obj hobj => exact .found hT hobj
    next hnone => exact .added hT hnone

/-- **One call** returns the object the table holds for its key. -/
theorem run_holds (hT : Inv T) : ∀ c : StringCall, Holds T c.key (c.run T)
  | .internCStr s | .internRef s | .createRef s => internCStr_holds hT s
  | .internMove s | .createMove s => internMove_holds hT s

theorem createRaw_inv (hT : Inv T) : Inv (T.createRaw s).1 := ⟨fun ht => value_append (hT.entry ht), hT.cached⟩

theorem createRaw_grows : Grows T (T.createRaw s).1 := ⟨id, fun hv => value_append hv⟩

/-- **Any calls** keep the invariant and what is in the table. -/
theorem Leads.keeps (h : Leads T T') (hT : Inv T) : Inv T' ∧ Grows T T' := by
  induction h with
  | refl => exact ⟨hT, .refl T⟩
  | call c _ ih => exact ⟨(run_holds ih.1 c).inv, ih.2.trans (run_holds ih.1 c).grows⟩
  | raw s _ ih => exact ⟨createRaw_inv ih.1, ih.2.trans createRaw_grows⟩

theorem same_iff {T₁ : InternTable} (hT : Inv T) (c₁ c₂ : StringCall) (h : Leads (c₁.run T).1 T₁) :
    (c₁.run T).2 = (c₂.run T₁).2 ↔ c₁.key = c₂.key := by
  have h₁ := run_holds hT c₁
  obtain ⟨hinv, hgrows⟩ := h.keeps h₁.inv
  have h₂ := run_holds hinv c₂
  have hkept := h₂.grows.table (hgrows.table h₁.entry)
  refine ⟨fun he => ?_, fun he => ?_⟩
  · have hv₁ := h₂.inv.entry hkept
    have hv₂ := h₂.inv.entry h₂.entry
    rw [he, hv₂] at hv₁
    exact (Option.some.inj hv₁).symm
  · have hentry := h₂.entry
    rw [← he, hkept] at hentry
    exact Option.some.inj hentry

end

/-- **The strings of any two calls are the texts they were given, and one object exactly if the texts are equal**, if
and only if no text with a NUL was handed on as a C string. -/
theorem intern_exact {T T₁ : InternTable} (hT : Leads empty T) (c₁ c₂ : StringCall)
    (h₁ : Leads (c₁.run T).1 T₁) :
    ((c₁.run T).1.value (c₁.run T).2 = some c₁.text ∧ (c₂.run T₁).1.value (c₂.run T₁).2 = some c₂.text ∧
        ((c₁.run T).2 = (c₂.run T₁).2 ↔ c₁.text = c₂.text)) ↔
      (c₁.isMove = true ∨ 0 ∉ c₁.text) ∧ (c₂.isMove = true ∨ 0 ∉ c₂.text) := by
  have hinv := (hT.keeps .empty).1
  have hr₁ := run_holds hinv c₁
  have hr₂ := run_holds (h₁.keeps hr₁.inv).1 c₂
  rw [← StringCall.key_eq_text, ← StringCall.key_eq_text, hr₁.inv.entry hr₁.entry, hr₂.inv.entry hr₂.entry,
    Option.some.injEq, Option.some.injEq, same_iff hinv c₁ c₂ h₁]
  constructor
  · intro h
    obtain ⟨hk₁, hk₂, -⟩ := h
    exact ⟨hk₁, hk₂⟩
  · intro h
    obtain ⟨hk₁, hk₂⟩ := h
    rw [hk₁, hk₂]
    exact ⟨rfl, rfl, Iff.rfl⟩

/-- `create("a\0b")` and `create("a")` are one object, of value `a`. -/
theorem create_truncates :
    (StringCall.createRef [97, 0, 98]).run empty = (StringCall.createRef [97]).run empty ∧
      ((StringCall.createRef [97, 0, 98]).run empty).1.value ((StringCall.createRef [97, 0, 98]).run empty).2 = some [97] := by
  exact ⟨rfl, rfl⟩

/-- Two strings given as rvalues, the second with a NUL. -/
theorem intern_exact_move :
    ((StringCall.createMove [97]).run empty).1.value ((StringCall.createMove [97]).run empty).2 = some [97] :=
  ((intern_exact .refl (.createMove [97]) (.internMove [97, 0]) .refl).mpr ⟨.inl rfl, .inl rfl⟩).1

end InternTable

end Pylang.Runtime
