/-
UTF-8: the encoder of a code point, the decoder of a string and its length. The
value of a string is the encoding of a list of code points (`utf8`); a code point
is a `Char`, which is no surrogate.

The encoding of a string that is not empty stands in another only where its code
points do (`utf8_infix_parts`).
-/
import Mathlib
import Pylang.Lib.ListFacts
import Pylang.Runtime.StringIterator

namespace Pylang.Runtime

/-- An `int` as a `uint32_t`. -/
def toUInt32 (n : Int) : Nat := (n % 2 ^ 32).toNat

/-- `utf8::codepoint`, of the bytes of a string from a position on. -/
def codepoint (str : Bytes) (length : Nat) : Option Nat :=
  let u (i : Nat) : Int := (str.getD i 0).toNat
  if length < 1 then none
  else if u 0 ≤ 127 then some (toUInt32 (u 0))
  else if length < 2 then none
  else if 192 ≤ u 0 ∧ u 0 ≤ 223 then some (toUInt32 ((u 0 - 192) * 64 + (u 1 - 128)))
  else if u 0 = 0xed ∧ (u 1).toNat &&& 0xa0 = 0xa0 then some (toUInt32 (-1))
  else if length < 3 then none
  else if 224 ≤ u 0 ∧ u 0 ≤ 239 then some (toUInt32 ((u 0 - 224) * 4096 + (u 1 - 128) * 64 + (u 2 - 128)))
  else if length < 4 then none
  else if 240 ≤ u 0 ∧ u 0 ≤ 247 then
    some (toUInt32 ((u 0 - 240) * 262144 + (u 1 - 128) * 4096 + (u 2 - 128) * 64 + (u 3 - 128)))
  else none

/-- `utf8::utf8chr`. -/
def utf8chr (cp : Nat) : Option Bytes :=
  if cp ≤ 0x7F then some [.ofNat cp]
  else if cp ≤ 0x7FF then some [.ofNat ((cp >>> 6) + 192), .ofNat ((cp &&& 63) + 128)]
  else if 0xd800 ≤ cp ∧ cp ≤ 0xdfff then none
  else if cp ≤ 0xFFFF then
    some [.ofNat ((cp >>> 12) + 224), .ofNat (((cp >>> 6) &&& 63) + 128), .ofNat ((cp &&& 63) + 128)]
  else if cp ≤ 0x10FFFF then
    some [.ofNat ((cp >>> 18) + 240), .ofNat (((cp >>> 12) &&& 63) + 128), .ofNat (((cp >>> 6) &&& 63) + 128),
      .ofNat ((cp &&& 63) + 128)]
  else none

/-- The code points, one encoded after the other. -/
def encodeAll (cps : List Nat) : Option Bytes := (cps.mapM utf8chr).map List.flatten

/-- `PyString::codepoints`; `none` where the assertion fails. -/
def codepoints : Bytes → Option (List Nat)
  | [] => some []
  | c :: value =>
    match codepoint (c :: value) (codepointLength c) with
    | none => none
    | some cp => (codepoints ((c :: value).drop (codepointLength c))).map (cp :: ·)
termination_by value => value.length
decreasing_by
  have hpos := codepointLength_pos c
  simp only [List.length_drop, List.length_cons]
  omega

/-- `PyString::size`; `none` where the iterator passes the end. -/
def size : Bytes → Option Nat
  | [] => some 0
  | c :: value =>
    if codepointLength c ≤ (c :: value).length then (size ((c :: value).drop (codepointLength c))).map (· + 1) else none
termination_by value => value.length
decreasing_by
  have hpos := codepointLength_pos c
  simp only [List.length_drop, List.length_cons]
  omega

/-- `icu::UnicodeString::toUTF8String`, of code points; U+FFFD stands for a surrogate. -/
def toUTF8String (cps : List Nat) : Bytes := cps.flatMap fun cp => (utf8chr cp).getD [0xEF, 0xBF, 0xBD]

/-- The value of a string. -/
def utf8 (s : List Char) : Bytes := s.flatMap String.utf8EncodeChar

/-- The code points of a string, as the code has them. -/
def points (s : List Char) : List Nat := s.map Char.toNat

@[simp] theorem utf8_nil : utf8 [] = [] := rfl

@[simp] theorem utf8_cons (c : Char) (s : List Char) : utf8 (c :: s) = String.utf8EncodeChar c ++ utf8 s :=
  List.flatMap_cons

@[simp] theorem utf8_append (s t : List Char) : utf8 (s ++ t) = utf8 s ++ utf8 t := List.flatMap_append

@[simp] theorem points_cons (c : Char) (s : List Char) : points (c :: s) = c.toNat :: points s := rfl

@[simp] theorem points_append (s t : List Char) : points (s ++ t) = points s ++ points t := List.map_append

/-! ## One code point -/

theorem toUInt32_of_lt {n : Int} (h0 : 0 ≤ n) (h : n < 2 ^ 32) : toUInt32 n = n.toNat := by
  unfold toUInt32
  rw [Int.emod_eq_of_lt h0 h]

theorem toNat_valid (c : Char) : c.toNat < 0xd800 ∨ 0xdfff < c.toNat ∧ c.toNat < 0x110000 := c.valid

theorem utf8EncodeChar_eq (c : Char) : String.utf8EncodeChar c =
    if c.toNat ≤ 0x7F then [UInt8.ofNat c.toNat]
    else if c.toNat ≤ 0x7FF then [UInt8.ofNat (c.toNat / 64 + 192), UInt8.ofNat (c.toNat % 64 + 128)]
    else if c.toNat ≤ 0xFFFF then
      [UInt8.ofNat (c.toNat / 4096 + 224), UInt8.ofNat (c.toNat / 64 % 64 + 128), UInt8.ofNat (c.toNat % 64 + 128)]
    else [UInt8.ofNat (c.toNat / 262144 + 240), UInt8.ofNat (c.toNat / 4096 % 64 + 128),
      UInt8.ofNat (c.toNat / 64 % 64 + 128), UInt8.ofNat (c.toNat % 64 + 128)] := by
  have hvalid := toNat_valid c
  have hval : c.val.toNat = c.toNat := rfl
  unfold String.utf8EncodeChar
  simp only [hval]
  generalize c.toNat = v at *
  split
  next => rfl
  next =>
    split
    next => rw [show v / 64 % 0x20 = v / 64 by omega]
    next =>
      split
      next => rw [show v / 4096 % 0x10 = v / 4096 by omega]
      next => rw [show v / 262144 % 0x08 = v / 262144 by omega]

theorem utf8chr_toNat (c : Char) : utf8chr c.toNat = some (String.utf8EncodeChar c) := by
  have hvalid := toNat_valid c
  have hand (n : Nat) : n &&& 63 = n % 64 := Nat.and_two_pow_sub_one_eq_mod n 6
  rw [utf8EncodeChar_eq, utf8chr]
  simp only [Nat.shiftRight_eq_div_pow, hand]
  generalize c.toNat = v at *
  split
  next => rfl
  next =>
    split
    next => rfl
    next =>
      rw [if_neg (by omega)]
      split
      next => rfl
      next => rw [if_pos (by omega)]

theorem toNat_ofNat {n : Nat} (h : n < 256) : (UInt8.ofNat n).toNat = n := by
  rw [UInt8.toNat_ofNat', Nat.mod_eq_of_lt h]

theorem and_ne_of_lt : ∀ k < 32, (k + 128) &&& 0xa0 ≠ 0xa0 := by decide

section

variable {b₀ b₁ b₂ b₃ : UInt8} {rest : Bytes}

theorem codepoint_one (h : b₀.toNat ≤ 127) : codepoint (b₀ :: rest) 1 = some b₀.toNat := by
  unfold codepoint
  simp only [List.getD_cons_zero]
  rw [if_neg (by omega), if_pos (by omega), toUInt32_of_lt (by omega) (by omega), Int.toNat_natCast]

theorem codepoint_two (h : 192 ≤ b₀.toNat ∧ b₀.toNat ≤ 223) (h₁ : 128 ≤ b₁.toNat) :
    codepoint (b₀ :: b₁ :: rest) 2 = some ((b₀.toNat - 192) * 64 + (b₁.toNat - 128)) := by
  have hlt := b₁.toNat_lt
  unfold codepoint
  simp only [List.getD_cons_zero, List.getD_cons_succ]
  rw [if_neg (by omega), if_neg (by omega), if_neg (by omega), if_pos (by omega), toUInt32_of_lt (by omega) (by omega)]
  exact congrArg some (by omega)

theorem codepoint_three (h : 224 ≤ b₀.toNat ∧ b₀.toNat ≤ 239) (h₁ : 128 ≤ b₁.toNat) (h₂ : 128 ≤ b₂.toNat)
    (hsurrogate : b₀.toNat = 0xed → b₁.toNat &&& 0xa0 ≠ 0xa0) : codepoint (b₀ :: b₁ :: b₂ :: rest) 3 =
      some ((b₀.toNat - 224) * 4096 + (b₁.toNat - 128) * 64 + (b₂.toNat - 128)) := by
  have hlt₁ := b₁.toNat_lt
  have hlt₂ := b₂.toNat_lt
  unfold codepoint
  simp only [List.getD_cons_zero, List.getD_cons_succ, Int.toNat_natCast]
  rw [if_neg (by omega), if_neg (by omega), if_neg (by omega), if_neg (by omega),
    if_neg (fun heq => hsurrogate (by omega) heq.2), if_neg (by omega), if_pos (by omega),
    toUInt32_of_lt (by omega) (by omega)]
  exact congrArg some (by omega)

theorem codepoint_four (h : 240 ≤ b₀.toNat ∧ b₀.toNat ≤ 247) (h₁ : 128 ≤ b₁.toNat) (h₂ : 128 ≤ b₂.toNat)
    (h₃ : 128 ≤ b₃.toNat) : codepoint (b₀ :: b₁ :: b₂ :: b₃ :: rest) 4 =
      some ((b₀.toNat - 240) * 262144 + (b₁.toNat - 128) * 4096 + (b₂.toNat - 128) * 64 + (b₃.toNat - 128)) := by
  have hlt₁ := b₁.toNat_lt
  have hlt₂ := b₂.toNat_lt
  have hlt₃ := b₃.toNat_lt
  unfold codepoint
  simp only [List.getD_cons_zero, List.getD_cons_succ]
  rw [if_neg (by omega), if_neg (by omega), if_neg (by omega), if_neg (by omega), if_neg (by omega), if_neg (by omega),
    if_neg (by omega), if_neg (by omega), if_pos (by omega), toUInt32_of_lt (by omega) (by omega)]
  exact congrArg some (by omega)

end

theorem codepoint_utf8EncodeChar (c : Char) (rest : Bytes) :
    codepoint (String.utf8EncodeChar c ++ rest) (String.utf8EncodeChar c).length = some c.toNat := by
  have hvalid := toNat_valid c
  rw [utf8EncodeChar_eq]
  generalize c.toNat = v at *
  have hlast : (UInt8.ofNat (v % 64 + 128)).toNat = v % 64 + 128 := toNat_ofNat (by omega)
  have hmid : (UInt8.ofNat (v / 64 % 64 + 128)).toNat = v / 64 % 64 + 128 := toNat_ofNat (by omega)
  by_cases h1 : v ≤ 0x7F
  · have hfirst : (UInt8.ofNat v).toNat = v := toNat_ofNat (by omega)
    rw [if_pos h1]
    exact (codepoint_one (by omega)).trans (congrArg some hfirst)
  by_cases h2 : v ≤ 0x7FF
  · have hfirst : (UInt8.ofNat (v / 64 + 192)).toNat = v / 64 + 192 := toNat_ofNat (by omega)
    rw [if_neg h1, if_pos h2]
    exact (codepoint_two (by omega) (by omega)).trans (congrArg some (by omega))
  by_cases h3 : v ≤ 0xFFFF
  · have hfirst : (UInt8.ofNat (v / 4096 + 224)).toNat = v / 4096 + 224 := toNat_ofNat (by omega)
    rw [if_neg h1, if_neg h2, if_pos h3]
    refine (codepoint_three (by omega) (by omega) (by omega) fun heq => ?_).trans (congrArg some (by omega))
    rw [hmid]
    exact and_ne_of_lt _ (by omega)
  · have hfirst : (UInt8.ofNat (v / 262144 + 240)).toNat = v / 262144 + 240 := toNat_ofNat (by omega)
    have hthird : (UInt8.ofNat (v / 4096 % 64 + 128)).toNat = v / 4096 % 64 + 128 := toNat_ofNat (by omega)
    rw [if_neg h1, if_neg h2, if_neg h3]
    exact (codepoint_four (by omega) (by omega) (by omega) (by omega)).trans (congrArg some (by omega))

/-! ## A string -/

theorem codepoints_utf8 (s : List Char) : codepoints (utf8 s) = some (points s) := by
  induction s with
  | nil => rw [utf8_nil, codepoints]; rfl
  | cons c s ih =>
    obtain ⟨b, rest, heq, hlength⟩ := utf8EncodeChar_first c
    have hcodepoint := codepoint_utf8EncodeChar c (utf8 s)
    rw [heq] at hcodepoint
    rw [utf8_cons, heq, List.cons_append, codepoints, hlength, ← List.cons_append, ← List.length_cons, hcodepoint,
      List.drop_left, ih]
    rfl

theorem size_utf8 (s : List Char) : size (utf8 s) = some s.length := by
  induction s with
  | nil => rw [utf8_nil, size]; rfl
  | cons c s ih =>
    obtain ⟨b, rest, heq, hlength⟩ := utf8EncodeChar_first c
    have hle : rest.length + 1 ≤ (b :: (rest ++ utf8 s)).length := by simp
    rw [utf8_cons, heq, List.cons_append, size, hlength, if_pos hle, ← List.cons_append, ← List.length_cons (a := b),
      List.drop_left, ih]
    rfl

/-- **Encoding and decoding** give the code points back, and `size` counts them. -/
theorem codepoints_encodeAll (s : List Char) : ∃ value, encodeAll (points s) = some value ∧
    codepoints value = some (points s) ∧ size value = some (points s).length := by
  refine ⟨utf8 s, ?_, codepoints_utf8 s, by rw [size_utf8, points, List.length_map]⟩
  have hchr : (points s).mapM utf8chr = some (s.map String.utf8EncodeChar) := by
    rw [points, List.mapM_map]
    exact Lib.mapM_eq_pure fun c _ => utf8chr_toNat c
  rw [encodeAll, hchr]
  rfl

theorem toUTF8String_points (s : List Char) : toUTF8String (points s) = utf8 s := by
  rw [toUTF8String, points, List.flatMap_map, utf8]
  exact congrArg (s.flatMap ·) (funext fun c => by rw [utf8chr_toNat]; rfl)

/-! ## ASCII -/

/-- A character of one byte. -/
def isAscii (c : Char) : Bool := decide (c.toNat < 128)

theorem utf8EncodeChar_ascii {c : Char} (h : isAscii c = true) : String.utf8EncodeChar c = [UInt8.ofNat c.toNat] := by
  rw [isAscii, decide_eq_true_eq] at h
  rw [utf8EncodeChar_eq, if_pos (by omega)]

theorem utf8EncodeChar_not_ascii {c : Char} (h : isAscii c = false) : ∀ b ∈ String.utf8EncodeChar c, 128 ≤ b.toNat := by
  rw [isAscii, decide_eq_false_iff_not] at h
  have hvalid := toNat_valid c
  rw [utf8EncodeChar_eq, if_neg (by omega)]
  generalize c.toNat = v at *
  have hge {k : Nat} (hk : 128 ≤ k) (h : k < 256) : 128 ≤ (UInt8.ofNat k).toNat := by
    rw [toNat_ofNat h]
    exact hk
  split
  next =>
    exact List.forall_mem_cons.mpr ⟨hge (by omega) (by omega), List.forall_mem_singleton.mpr (hge (by omega) (by omega))⟩
  next =>
    split
    next =>
      exact List.forall_mem_cons.mpr ⟨hge (by omega) (by omega), List.forall_mem_cons.mpr ⟨hge (by omega) (by omega),
        List.forall_mem_singleton.mpr (hge (by omega) (by omega))⟩⟩
    next =>
      exact List.forall_mem_cons.mpr ⟨hge (by omega) (by omega), List.forall_mem_cons.mpr ⟨hge (by omega) (by omega),
        List.forall_mem_cons.mpr ⟨hge (by omega) (by omega), List.forall_mem_singleton.mpr (hge (by omega) (by omega))⟩⟩⟩

theorem length_utf8EncodeChar (c : Char) : 1 ≤ (String.utf8EncodeChar c).length ∧
    ((String.utf8EncodeChar c).length = 1 ↔ isAscii c = true) := by
  rw [isAscii, decide_eq_true_eq, utf8EncodeChar_eq]
  split
  next => exact ⟨Nat.le_refl 1, iff_of_true rfl (by omega)⟩
  next =>
    split
    next => exact ⟨by simp, iff_of_false (by simp) (by omega)⟩
    next =>
      split
      next => exact ⟨by simp, iff_of_false (by simp) (by omega)⟩
      next => exact ⟨by simp, iff_of_false (by simp) (by omega)⟩

theorem length_le_utf8 (s : List Char) : s.length ≤ (utf8 s).length := by
  induction s with
  | nil => exact Nat.le_refl 0
  | cons c s ih =>
    have hone := (length_utf8EncodeChar c).1
    rw [utf8_cons, List.length_append, List.length_cons]
    omega

theorem length_utf8_eq_iff {s : List Char} : (utf8 s).length = s.length ↔ ∀ c ∈ s, isAscii c = true := by
  induction s with
  | nil => exact iff_of_true rfl nofun
  | cons c s ih =>
    have hone := length_utf8EncodeChar c
    have hle := length_le_utf8 s
    rw [List.forall_mem_cons, ← ih, ← hone.2, utf8_cons, List.length_append, List.length_cons]
    omega

/-! ## Strings in strings -/

theorem toNat_injective : Function.Injective Char.toNat := fun _ _ h => Char.ext (UInt32.toNat_inj.mp h)

theorem points_injective : Function.Injective points := toNat_injective.list_map

theorem utf8_injective : Function.Injective utf8 := by
  intro s t h
  have hpoints := (codepoints_utf8 s).symm.trans ((congrArg codepoints h).trans (codepoints_utf8 t))
  exact points_injective (Option.some.inj hpoints)

theorem utf8EncodeChar_append {c d : Char} {x y : Bytes}
    (h : String.utf8EncodeChar c ++ x = String.utf8EncodeChar d ++ y) : c = d ∧ x = y := by
  obtain ⟨b, rest, hc, hlength⟩ := utf8EncodeChar_first c
  obtain ⟨b', rest', hd, hlength'⟩ := utf8EncodeChar_first d
  have hpoint := codepoint_utf8EncodeChar c x
  rw [h] at hpoint
  rw [hc, hd, List.cons_append, List.cons_append, List.cons.injEq] at h
  obtain ⟨rfl, hrest⟩ := h
  have heq : (String.utf8EncodeChar c).length = (String.utf8EncodeChar d).length := by
    rw [hc, hd, List.length_cons, List.length_cons, ← hlength, ← hlength']
  rw [heq, codepoint_utf8EncodeChar] at hpoint
  refine ⟨(toNat_injective (Option.some.inj hpoint)).symm, (List.append_inj hrest ?_).2⟩
  omega

theorem utf8_eq_append {p : List Char} : ∀ {t : List Char} {x : Bytes}, utf8 t = utf8 p ++ x →
    ∃ t', t = p ++ t' ∧ x = utf8 t' := by
  induction p with
  | nil => exact fun {t x} h => ⟨t, rfl, h.symm⟩
  | cons c p ih =>
    intro t x h
    obtain ⟨b, rest, hc, -⟩ := utf8EncodeChar_first c
    cases t with
    | nil => rw [utf8_cons, hc] at h; cases h
    | cons d t =>
      rw [utf8_cons, utf8_cons, List.append_assoc] at h
      obtain ⟨rfl, hrest⟩ := utf8EncodeChar_append h
      obtain ⟨t', rfl, hx⟩ := ih hrest
      exact ⟨t', rfl, hx⟩

theorem utf8_isPrefix {p t : List Char} : utf8 p <+: utf8 t ↔ p <+: t := by
  constructor
  · intro h
    obtain ⟨x, hx⟩ := h
    obtain ⟨t', rfl, -⟩ := utf8_eq_append hx.symm
    exact List.prefix_append _ _
  · intro h
    obtain ⟨t', rfl⟩ := h
    rw [utf8_append]
    exact List.prefix_append _ _

/-- A byte inside a code point. -/
def IsContinuation (b : UInt8) : Prop := 128 ≤ b.toNat ∧ b.toNat < 192

theorem utf8EncodeChar_bytes (c : Char) : ∃ b rest, String.utf8EncodeChar c = b :: rest ∧ ¬ IsContinuation b ∧
    ∀ r ∈ rest, IsContinuation r := by
  have hvalid := toNat_valid c
  rw [utf8EncodeChar_eq]
  generalize c.toNat = v at *
  have hcontinues {k : Nat} (hk : k < 64) : IsContinuation (UInt8.ofNat (k + 128)) := by
    unfold IsContinuation
    rw [toNat_ofNat (by omega)]
    omega
  have hstarts {k : Nat} (hk : k < 256) (h : k < 128 ∨ 192 ≤ k) : ¬ IsContinuation (UInt8.ofNat k) := by
    unfold IsContinuation
    rw [toNat_ofNat hk]
    omega
  split
  next => exact ⟨_, _, rfl, hstarts (by omega) (by omega), by simp⟩
  next =>
    split
    next => exact ⟨_, _, rfl, hstarts (by omega) (by omega), List.forall_mem_singleton.mpr (hcontinues (by omega))⟩
    next =>
      split
      next =>
        exact ⟨_, _, rfl, hstarts (by omega) (by omega),
          List.forall_mem_cons.mpr ⟨hcontinues (by omega), List.forall_mem_singleton.mpr (hcontinues (by omega))⟩⟩
      next =>
        exact ⟨_, _, rfl, hstarts (by omega) (by omega), List.forall_mem_cons.mpr ⟨hcontinues (by omega),
          List.forall_mem_cons.mpr ⟨hcontinues (by omega), List.forall_mem_singleton.mpr (hcontinues (by omega))⟩⟩⟩

theorem utf8_boundary {b : UInt8} {z : Bytes} (hb : ¬ IsContinuation b) : ∀ {t : List Char} {x : Bytes},
    utf8 t = x ++ b :: z → ∃ t₁ t₂, t = t₁ ++ t₂ ∧ x = utf8 t₁ ∧ b :: z = utf8 t₂ := by
  intro t
  induction t with
  | nil => exact fun {x} h => by simp at h
  | cons c t ih =>
    intro x h
    obtain ⟨b', rest, hc, -, hrest⟩ := utf8EncodeChar_bytes c
    cases x with
    | nil => exact ⟨[], c :: t, rfl, rfl, h.symm⟩
    | cons y x =>
      have hlength : (String.utf8EncodeChar c).length ≤ (y :: x).length := by
        by_contra hlt
        rw [utf8_cons, hc, List.cons_append, List.cons_append, List.cons.injEq] at h
        rw [hc, List.length_cons, List.length_cons] at hlt
        have hat : (rest ++ utf8 t)[x.length]? = some b := by
          rw [h.2, List.getElem?_append_right (Nat.le_refl _), Nat.sub_self, List.getElem?_cons_zero]
        rw [List.getElem?_append_left (by omega)] at hat
        exact hb (hrest b (List.mem_of_getElem? hat))
      have hbefore : y :: x <+: utf8 (c :: t) := ⟨b :: z, h.symm⟩
      obtain ⟨x', hx'⟩ := List.prefix_of_prefix_length_le (List.prefix_append _ (utf8 t)) hbefore hlength
      rw [← hx', utf8_cons, List.append_assoc] at h
      obtain ⟨t₁, t₂, rfl, rfl, hz⟩ := ih (List.append_cancel_left h)
      exact ⟨c :: t₁, t₂, rfl, by rw [← hx', utf8_cons], hz⟩

/-- **A string that is not empty** stands in another by its bytes where it does by its code points. -/
theorem utf8_infix_parts {p t : List Char} {x y : Bytes} (hp : p ≠ []) (h : utf8 t = x ++ (utf8 p ++ y)) :
    ∃ t₁ t₂, t = t₁ ++ (p ++ t₂) ∧ x = utf8 t₁ ∧ y = utf8 t₂ := by
  cases p with
  | nil => exact absurd rfl hp
  | cons c p =>
    obtain ⟨b, rest, hc, hb, -⟩ := utf8EncodeChar_bytes c
    rw [utf8_cons, hc, List.cons_append, List.cons_append] at h
    obtain ⟨t₁, t₂, rfl, rfl, hz⟩ := utf8_boundary hb h
    rw [← List.cons_append, ← List.cons_append, ← hc, ← utf8_cons] at hz
    obtain ⟨t', rfl, rfl⟩ := utf8_eq_append hz.symm
    exact ⟨t₁, t', rfl, rfl, rfl⟩

end Pylang.Runtime
