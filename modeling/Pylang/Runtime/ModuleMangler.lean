/-
`ModuleMangler::mangle`: the symbol of a module. A letter or digit stands for
itself, any other byte for its two hex digits between underscores. No code of a
byte starts another, so that a symbol has one module.
-/
import Mathlib.Data.List.Basic
import Mathlib.Logic.Function.Basic

namespace Pylang.Runtime.ModuleMangler

/-- `std::isalnum` in the C locale. -/
def isalnum (c : UInt8) : Bool := 48 ≤ c && c ≤ 57 || 65 ≤ c && c ≤ 90 || 97 ≤ c && c ≤ 122

def underscore : UInt8 := 95

/-- A digit as `std::uppercase` and `std::hex` print it. -/
def hexDigit (n : Nat) : UInt8 := .ofNat (if n < 10 then 48 + n else 55 + n)

/-- Two digits, filled up with a zero. -/
def hex (c : UInt8) : List UInt8 := [hexDigit (c.toNat / 16), hexDigit (c.toNat % 16)]

/-- What is printed for a byte. -/
def code (c : UInt8) : List UInt8 := if isalnum c then [c] else underscore :: (hex c ++ [underscore])

/-- `PyInit_` -/
def init : List UInt8 := "PyInit_".toList.map fun c => .ofNat c.toNat

def mangle (moduleName : List UInt8) : List UInt8 := init ++ moduleName.flatMap code

/-! ## Characters -/

/-- A letter, a digit or an underscore. -/
def isSymbol (c : UInt8) : Bool := isalnum c || c == underscore

theorem hexDigit_isSymbol : ∀ n < 16, isSymbol (hexDigit n) = true := by decide

theorem hexDigit_injective : ∀ m < 16, ∀ n < 16, hexDigit m = hexDigit n → m = n := by decide

theorem init_isSymbol : ∀ c ∈ init, isSymbol c = true := List.all_eq_true.mp rfl

theorem code_isSymbol {c d : UInt8} (h : d ∈ code c) : isSymbol d = true := by
  have hlt := c.toNat_lt
  unfold code at h
  split at h
  next hc =>
    obtain rfl := List.mem_singleton.mp h
    simp [isSymbol, hc]
  next =>
    simp only [hex, List.mem_cons, List.cons_append, List.nil_append, List.not_mem_nil, or_false] at h
    rcases h with rfl | rfl | rfl | rfl
    · rfl
    · exact hexDigit_isSymbol _ (by omega)
    · exact hexDigit_isSymbol _ (by omega)
    · rfl

/-! ## The code -/

theorem hex_injective {c d : UInt8} (h : hex c = hex d) : c = d := by
  have hc := c.toNat_lt
  have hd := d.toNat_lt
  obtain ⟨hhigh, hlow⟩ := List.cons.inj h
  have hhigh := hexDigit_injective _ (by omega) _ (by omega) hhigh
  have hlow := hexDigit_injective _ (by omega) _ (by omega) (List.cons.inj hlow).1
  exact UInt8.toNat_inj.mp (by omega)

theorem code_of_alnum {c : UInt8} (h : isalnum c = true) : code c = [c] := if_pos h

theorem code_of_not_alnum {c : UInt8} (h : ¬ isalnum c = true) : code c = underscore :: (hex c ++ [underscore]) := if_neg h

theorem code_ne_nil (c : UInt8) : code c ≠ [] := by
  unfold code
  split
  · exact List.cons_ne_nil _ _
  · exact List.cons_ne_nil _ _

theorem code_append_inj {c d : UInt8} {s t : List UInt8} (h : code c ++ s = code d ++ t) : c = d ∧ s = t := by
  by_cases hc : isalnum c = true
  · rw [code_of_alnum hc] at h
    by_cases hd : isalnum d = true
    · rw [code_of_alnum hd] at h
      exact List.cons.inj h
    · rw [code_of_not_alnum hd] at h
      rw [(List.cons.inj h).1] at hc
      cases hc
  · rw [code_of_not_alnum hc] at h
    by_cases hd : isalnum d = true
    · rw [code_of_alnum hd] at h
      rw [← (List.cons.inj h).1] at hd
      cases hd
    · rw [code_of_not_alnum hd] at h
      have hrest : hex c ++ [underscore] ++ s = hex d ++ [underscore] ++ t := (List.cons.inj h).2
      rw [List.append_assoc, List.append_assoc] at hrest
      obtain ⟨hhex, htail⟩ := List.append_inj hrest rfl
      exact ⟨hex_injective hhex, (List.cons.inj htail).2⟩

theorem flatMap_code_inj {s t : List UInt8} (h : s.flatMap code = t.flatMap code) : s = t := by
  induction s generalizing t with
  | nil =>
    cases t with
    | nil => rfl
    | cons d t =>
      rw [List.flatMap_cons, List.flatMap_nil] at h
      exact absurd (List.append_eq_nil_iff.mp h.symm).1 (code_ne_nil d)
  | cons c s ih =>
    cases t with
    | nil =>
      rw [List.flatMap_cons, List.flatMap_nil] at h
      exact absurd (List.append_eq_nil_iff.mp h).1 (code_ne_nil c)
    | cons d t =>
      rw [List.flatMap_cons, List.flatMap_cons] at h
      obtain ⟨rfl, hrest⟩ := code_append_inj h
      rw [ih hrest]

/-- **Symbols.** Two modules have two symbols, of letters, digits and underscores. -/
theorem mangle_injective : Function.Injective mangle ∧ ∀ moduleName, ∀ c ∈ mangle moduleName, isSymbol c = true := by
  constructor
  · intro s t h
    exact flatMap_code_inj (List.append_cancel_left h)
  · intro moduleName c hc
    rcases List.mem_append.mp hc with hc | hc
    · exact init_isSymbol c hc
    · obtain ⟨d, -, hc⟩ := List.mem_flatMap.mp hc
      exact code_isSymbol hc

end Pylang.Runtime.ModuleMangler
