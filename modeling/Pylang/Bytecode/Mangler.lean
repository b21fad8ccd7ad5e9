/-
`DefaultMangler`: the names of functions and classes in a module, by where
they start. The names come back, and tell the definitions of a module apart
but for a function that is named like a wrapped class.
-/
import Mathlib.Data.List.Basic
import Pylang.Lex.State

namespace Pylang.Mangler

/-- `SourceLocation` -/
structure SourceLocation where
  start : Lex.Position
  stop : Lex.Position

/-- `{}:{}` -/
def place (p : Lex.Position) : List Char := Nat.toDigits 10 p.row ++ ':' :: Nat.toDigits 10 p.column

/-- `{}.{}.{}:{}` -/
def functionMangle (module functionName : List Char) (loc : SourceLocation) : List Char :=
  module ++ '.' :: (functionName ++ '.' :: place loc.start)

def wrapClass (className : List Char) : List Char := "__class__".toList ++ (className ++ "__".toList)

/-- `{}.__class__{}__.{}:{}` -/
def classMangle (module className : List Char) (loc : SourceLocation) : List Char :=
  module ++ '.' :: (wrapClass className ++ '.' :: place loc.start)

/-- The part between the last two dots. There is none where an assertion fails. -/
def lastPart (mangledName : List Char) : Option (List Char) := do
  let it := mangledName.reverse.idxOf '.'
  if it = mangledName.length then failure
  let stop := mangledName.length - it - 1
  let moduleFunction := mangledName.take stop
  let mfIt := moduleFunction.reverse.idxOf '.'
  if mfIt = moduleFunction.length then failure
  let start := moduleFunction.length - mfIt
  return (mangledName.take stop).drop start

def functionDemangle (mangledName : List Char) : Option (List Char) := lastPart mangledName

def classDemangle (mangledName : List Char) : Option (List Char) := do
  let mangledClass ← lastPart mangledName
  if !("__class__".toList.isPrefixOf mangledClass) then failure
  if !("__".toList.isSuffixOf mangledClass) then failure
  return (mangledClass.take (mangledClass.length - 2)).drop 9

/-! ## Separators -/

section
variable {c : Char} {a a' b b' : List Char} {p q : Lex.Position} {module functionName className : List Char}
  {loc loc' : SourceLocation}

theorem idxOf_reverse (h : c ∉ b) : (a ++ c :: b).reverse.idxOf c = b.length := by
  rw [List.reverse_append, List.reverse_cons, List.append_assoc, List.idxOf_append_of_notMem (by simpa using h)]
  simp

theorem append_cons_inj (hb : c ∉ b) (hb' : c ∉ b') (h : a ++ c :: b = a' ++ c :: b') : a = a' ∧ b = b' := by
  have hlength : b.length = b'.length := by
    rw [← idxOf_reverse (a := a) hb, ← idxOf_reverse (a := a') hb', h]
  obtain ⟨ha, htail⟩ := List.append_inj' h (by rw [List.length_cons, List.length_cons, hlength])
  exact ⟨ha, (List.cons.inj htail).2⟩

theorem toDigits_injective {m n : Nat} (h : Nat.toDigits 10 m = Nat.toDigits 10 n) : m = n := by
  rw [← Nat.ofDigitChars_ten_toDigits (n := m), h, Nat.ofDigitChars_ten_toDigits]

theorem not_mem_toDigits (hc : c.isDigit = false) (n : Nat) : c ∉ Nat.toDigits 10 n := by
  intro h
  rw [Nat.isDigit_of_mem_toDigits (by decide) (by decide) h] at hc
  cases hc

theorem dot_not_mem_place (p : Lex.Position) : '.' ∉ place p := by
  intro h
  rcases List.mem_append.mp h with h | h
  · exact not_mem_toDigits (by decide) _ h
  · rcases List.mem_cons.mp h with h | h
    · cases h
    · exact not_mem_toDigits (by decide) _ h

theorem place_injective (h : place p = place q) : p.row = q.row ∧ p.column = q.column := by
  obtain ⟨hrow, hcolumn⟩ := append_cons_inj (not_mem_toDigits (by decide) _) (not_mem_toDigits (by decide) _) h
  exact ⟨toDigits_injective hrow, toDigits_injective hcolumn⟩

theorem wrapClass_injective {className' : List Char} (h : wrapClass className = wrapClass className') :
    className = className' :=
  List.append_cancel_right (List.append_cancel_left h)

/-! ## Names -/

theorem lastPart_eq (ha : '.' ∉ a) (hb : '.' ∉ b) : lastPart (module ++ '.' :: (a ++ '.' :: b)) = some a := by
  have hsplit : module ++ '.' :: (a ++ '.' :: b) = (module ++ '.' :: a) ++ '.' :: b := by simp
  have htake : (module ++ '.' :: (a ++ '.' :: b)).take ((module ++ '.' :: (a ++ '.' :: b)).length - b.length - 1) =
      module ++ '.' :: a := by
    rw [hsplit, List.take_left']
    simp only [List.length_append, List.length_cons]
    omega
  have hit : (module ++ '.' :: (a ++ '.' :: b)).reverse.idxOf '.' = b.length := by
    rw [hsplit]
    exact idxOf_reverse hb
  have hstop : b.length ≠ (module ++ '.' :: (a ++ '.' :: b)).length := by
    simp only [List.length_append, List.length_cons]
    omega
  have hstart : a.length ≠ (module ++ '.' :: a).length := by
    simp only [List.length_append, List.length_cons]
    omega
  have hdrop : (module ++ '.' :: a).drop ((module ++ '.' :: a).length - a.length) = a := by
    rw [show module ++ '.' :: a = (module ++ ['.']) ++ a by simp, List.drop_left']
    simp only [List.length_append, List.length_cons, List.length_nil]
    omega
  unfold lastPart
  simp only [hit, htake, idxOf_reverse ha, if_neg hstop, if_neg hstart, hdrop]
  rfl

theorem functionDemangle_mangle (h : '.' ∉ functionName) :
    functionDemangle (functionMangle module functionName loc) = some functionName :=
  lastPart_eq h (dot_not_mem_place _)

theorem unwrap_wrapClass (className : List Char) :
    ((wrapClass className).take ((wrapClass className).length - 2)).drop 9 = className := by
  have hsplit : wrapClass className = ("__class__".toList ++ className) ++ "__".toList := (List.append_assoc _ _ _).symm
  have hlength : (wrapClass className).length - 2 = ("__class__".toList ++ className).length := by
    rw [hsplit, List.length_append]
    rfl
  rw [hlength, hsplit, List.take_left]
  rfl

theorem classDemangle_mangle (h : '.' ∉ className) :
    classDemangle (classMangle module className loc) = some className := by
  have hwrap : '.' ∉ wrapClass className := by
    intro hmem
    rcases List.mem_append.mp hmem with hmem | hmem
    · exact absurd hmem (by decide)
    · rcases List.mem_append.mp hmem with hmem | hmem
      · exact h hmem
      · exact absurd hmem (by decide)
  have hstart : "__class__".toList.isPrefixOf (wrapClass className) = true :=
    List.isPrefixOf_iff_prefix.mpr (List.prefix_append _ _)
  have hend : "__".toList.isSuffixOf (wrapClass className) = true :=
    List.isSuffixOf_iff_suffix.mpr ((List.suffix_append _ _).trans (List.suffix_append _ _))
  unfold classDemangle classMangle
  simp only [lastPart_eq hwrap (dot_not_mem_place _), Option.bind_eq_bind, Option.bind_some, hstart, hend, unwrap_wrapClass]
  rfl

theorem mangled_eq_iff : module ++ '.' :: (a ++ '.' :: place p) = module ++ '.' :: (b ++ '.' :: place q) ↔
    a = b ∧ p.row = q.row ∧ p.column = q.column := by
  constructor
  · intro h
    have htail := (List.cons.inj (List.append_cancel_left h)).2
    obtain ⟨hname, hplace⟩ := append_cons_inj (dot_not_mem_place p) (dot_not_mem_place q) htail
    exact ⟨hname, place_injective hplace⟩
  · intro h
    obtain ⟨rfl, hrow, hcolumn⟩ := h
    rw [place, place, hrow, hcolumn]

end

/-- The definitions start at the same row and column. -/
def SameStart (loc loc' : SourceLocation) : Prop := loc.start.row = loc'.start.row ∧ loc.start.column = loc'.start.column

/-- **Names.** Names come back; those of a module are the same only for one name at one start, or for a function that is
named like the wrapped class. -/
theorem names_told (module : List Char) {f g c d : List Char} (loc loc' : SourceLocation) (hf : '.' ∉ f) (hc : '.' ∉ c) :
    functionDemangle (functionMangle module f loc) = some f ∧ classDemangle (classMangle module c loc) = some c ∧
      (functionMangle module f loc = functionMangle module g loc' ↔ f = g ∧ SameStart loc loc') ∧
      (classMangle module c loc = classMangle module d loc' ↔ c = d ∧ SameStart loc loc') ∧
      (functionMangle module f loc = classMangle module c loc' ↔ f = wrapClass c ∧ SameStart loc loc') := by
  refine ⟨functionDemangle_mangle hf, classDemangle_mangle hc, mangled_eq_iff, ?_, mangled_eq_iff⟩
  refine mangled_eq_iff.trans (and_congr_left fun _ => ?_)
  exact ⟨wrapClass_injective, fun h => h ▸ rfl⟩

/-- `run` and `Task`, and `stop` and `Job` behind them, in a package. -/
theorem names_told_run :
    let start : SourceLocation := ⟨⟨3, 4, 9⟩, ⟨5, 0, 30⟩⟩
    let next : SourceLocation := ⟨⟨7, 4, 39⟩, ⟨9, 0, 60⟩⟩
    let package := "a.b".toList
    functionDemangle (functionMangle package "run".toList start) = some "run".toList ∧
      classDemangle (classMangle package "Task".toList start) = some "Task".toList ∧
      functionMangle package "run".toList start ≠ functionMangle package "stop".toList next ∧
      classMangle package "Task".toList start ≠ classMangle package "Job".toList next ∧
      functionMangle package "run".toList start ≠ classMangle package "Task".toList next := by
  intro start next package
  obtain ⟨hfunction, hclass, hfunctions, hclasses, hwrapped⟩ := names_told package (f := "run".toList) (g := "stop".toList)
    (c := "Task".toList) (d := "Job".toList) start next (by decide) (by decide)
  refine ⟨hfunction, hclass, fun h => ?_, fun h => ?_, fun h => ?_⟩
  · exact absurd (hfunctions.mp h).1 (by decide)
  · exact absurd (hclasses.mp h).1 (by decide)
  · exact absurd (hwrapped.mp h).1 (by decide)

/-- A function `__class__A__`, and a class `A`. -/
theorem wrapped_function_name : ¬ ∀ (module f c : List Char) (loc loc' : SourceLocation), f ≠ c ∨ loc ≠ loc' →
    functionMangle module f loc ≠ classMangle module c loc' := by
  intro h
  exact h [] "__class__A__".toList "A".toList ⟨⟨0, 0, 0⟩, ⟨0, 1, 1⟩⟩ ⟨⟨0, 0, 0⟩, ⟨0, 1, 1⟩⟩ (.inl (by decide)) rfl

end Pylang.Mangler
