/-
`repr` of bytes and of strings, and the readers of literals. `PyBytes` escapes
what it prints and its reader undoes that; `PyString` prints the value between
quotes as it is.
-/
import Mathlib
import Pylang.Runtime.Utf8
import Pylang.Lex.Read

namespace Pylang.Runtime.Repr

/-! ## Escapes -/

/-- The escapes of one character that both readers have, and what they stand for. -/
def simpleEscapes : List (UInt8 × Bytes) :=
  [(10, []), (92, [92]), (39, [39]), (34, [34]), (98, [8]), (102, [12]), (116, [9]), (110, [10]), (114, [13]),
    (118, [11]), (97, [7])]

def isOctal (c : UInt8) : Bool := 48 ≤ c && c ≤ 55

/-- The octal digits from the first on, at most three, and how many there are behind the first. -/
def octal (first : UInt8) (str : Bytes) : Nat × Nat :=
  match str with
  | c :: d :: _ =>
    if isOctal c then
      if isOctal d then (((first.toNat - 48) * 8 + (c.toNat - 48)) * 8 + (d.toNat - 48), 2)
      else ((first.toNat - 48) * 8 + (c.toNat - 48), 1)
    else (first.toNat - 48, 0)
  | [c] => if isOctal c then ((first.toNat - 48) * 8 + (c.toNat - 48), 1) else (first.toNat - 48, 0)
  | [] => (first.toNat - 48, 0)

/-- The loop of `from_unescaped_string`. What follows a backslash gives the output, and how much more of the text it takes;
`none` where it aborts or is undefined. -/
def unescape (escape : UInt8 → Bytes → Option (Bytes × Nat)) : Bytes → Option Bytes
  | [] => some []
  | c :: str =>
    if c ≠ 92 then (unescape escape str).map (c :: ·)
    else
      match str with
      | [] => none
      | d :: str =>
        match escape d str with
        | none => none
        | some (output, skip) => (unescape escape (str.drop skip)).map (output ++ ·)
termination_by str => str.length
decreasing_by
  · exact Nat.lt_succ_self _
  · rw [List.length_drop, List.length_cons, List.length_cons]
    omega

theorem unescape_plain {escape : UInt8 → Bytes → Option (Bytes × Nat)} {c : UInt8} (h : c ≠ 92) (str : Bytes) :
    unescape escape (c :: str) = (unescape escape str).map (c :: ·) := by
  rw [unescape.eq_def]
  exact if_pos h

theorem unescape_escape {escape : UInt8 → Bytes → Option (Bytes × Nat)} {d : UInt8} {str : Bytes} (output : Bytes) (skip : Nat)
    (h : escape d str = some (output, skip)) :
    unescape escape (92 :: d :: str) = (unescape escape (str.drop skip)).map (output ++ ·) := by
  rw [unescape.eq_def]
  simp only [ne_eq, not_true_eq_false, if_false, h]

/-! ## Bytes -/

namespace PyBytes

def toDigitValue (value : UInt8) : Nat :=
  if 48 ≤ value ∧ value ≤ 57 then value.toNat - 48
  else if 97 ≤ value ∧ value ≤ 122 then value.toNat - 97 + 10
  else if 65 ≤ value ∧ value ≤ 90 then value.toNat - 65 + 10
  else 37

def escape (d : UInt8) (str : Bytes) : Option (Bytes × Nat) :=
  match simpleEscapes.lookup d with
  | some output => some (output, 0)
  | none =>
    if isOctal d then
      let (c, skip) := octal d str
      if c < 255 then some ([.ofNat c], skip) else none
    else if d = 120 then
      match str with
      | digit1 :: digit2 :: _ =>
        if toDigitValue digit1 < 16 ∧ toDigitValue digit2 < 16 then
          some ([.ofNat (toDigitValue digit1 * 16 + toDigitValue digit2)], 2)
        else some ([], 0)
      | _ => none
    else some ([92, d], 0)

def fromUnescapedString : Bytes → Option Bytes := unescape escape

/-- `std::hex`, of a digit. -/
def hexDigit (n : Nat) : UInt8 := .ofNat (if n < 10 then 48 + n else 87 + n)

def printByte (byte : UInt8) : Bytes :=
  if byte = 92 then [92, 92]
  else if byte = 39 then [92, 39]
  else if byte = 9 then [92, 116]
  else if byte = 10 then [92, 110]
  else if byte = 13 then [92, 114]
  else if byte < 32 ∨ 127 ≤ byte then [92, 120, hexDigit (byte.toNat / 16), hexDigit (byte.toNat % 16)]
  else [byte]

/-- What `to_string` prints between `b'` and `'`. -/
def body (value : Bytes) : Bytes := value.flatMap printByte

def toString (value : Bytes) : Bytes := [98, 39] ++ body value ++ [39]

theorem toDigitValue_hexDigit : ∀ n < 16, toDigitValue (hexDigit n) = n := by decide

theorem fromUnescapedString_printByte (b : UInt8) (str : Bytes) :
    fromUnescapedString (printByte b ++ str) = (fromUnescapedString str).map (b :: ·) := by
  unfold printByte fromUnescapedString
  have hsimple (d c : UInt8) (h : simpleEscapes.lookup d = some [c]) :
      unescape escape ([92, d] ++ str) = (unescape escape str).map (c :: ·) := by
    refine unescape_escape [c] 0 ?_
    unfold escape
    rw [h]
  split
  next h =>
    rw [h]
    exact hsimple 92 92 (by decide)
  split
  next h =>
    rw [h]
    exact hsimple 39 39 (by decide)
  split
  next h =>
    rw [h]
    exact hsimple 116 9 (by decide)
  split
  next h =>
    rw [h]
    exact hsimple 110 10 (by decide)
  split
  next h =>
    rw [h]
    exact hsimple 114 13 (by decide)
  split
  next =>
    have hlt := b.toNat_lt
    have hhigh := toDigitValue_hexDigit (b.toNat / 16) (by omega)
    have hlow := toDigitValue_hexDigit (b.toNat % 16) (by omega)
    refine unescape_escape [b] 2 ?_
    show (if toDigitValue (hexDigit (b.toNat / 16)) < 16 ∧ toDigitValue (hexDigit (b.toNat % 16)) < 16 then _ else _) = _
    rw [hhigh, hlow, if_pos ⟨by omega, by omega⟩, show b.toNat / 16 * 16 + b.toNat % 16 = b.toNat by omega,
      UInt8.ofNat_toNat]
  next hslash _ _ _ _ _ => exact unescape_plain hslash str

theorem fromUnescapedString_body (value : Bytes) : fromUnescapedString (body value) = some value := by
  induction value with
  | nil =>
    unfold body fromUnescapedString
    rw [List.flatMap_nil, unescape]
  | cons b value ih =>
    unfold body at ih ⊢
    rw [List.flatMap_cons, fromUnescapedString_printByte, ih]
    rfl

theorem fromUnescapedString_toString (value : Bytes) :
    fromUnescapedString ((toString value).drop 2).dropLast = some value := by
  have hbetween : ((toString value).drop 2).dropLast = body value := List.dropLast_concat
  rw [hbetween, fromUnescapedString_body]

end PyBytes

/-! ## Strings -/

namespace PyString

def isHex (c : UInt8) : Bool := (48 ≤ c && c ≤ 57) || (97 ≤ c && c ≤ 102) || (65 ≤ c && c ≤ 70)

def isSpace (c : UInt8) : Bool := c = 32 || (9 ≤ c && c ≤ 13)

/-- A sign, and what follows it. -/
def signed : Bytes → Bool × Bytes
  | [] => (false, [])
  | c :: s => if c = 45 then (true, s) else if c = 43 then (false, s) else (false, c :: s)

def hexNumber (digits : Bytes) : Nat := digits.foldl (fun n d => n * 16 + PyBytes.toDigitValue d) 0

/-- `std::istringstream(v) >> std::hex >> c` of two characters; blanks alone leave `c` without a value. -/
def readHex (v : Bytes) : Option Int :=
  let s := v.dropWhile isSpace
  if s.isEmpty then none
  else
    let (negative, digits) := signed s
    let n : Int := hexNumber (digits.takeWhile isHex)
    some (if negative then -n else n)

/-- `std::strtol` in base 16; `none` if there is no digit. -/
def strtol (s : Bytes) : Option Int :=
  let (negative, s) := signed (s.dropWhile isSpace)
  let prefixed := if s.take 2 = [48, 120] ∨ s.take 2 = [48, 88] then (s.drop 2).takeWhile isHex else []
  let digits := if prefixed.isEmpty then s.takeWhile isHex else prefixed
  let n : Int := hexNumber digits
  if digits.isEmpty then none else some (if negative then max (-2 ^ 63) (-n) else min (2 ^ 63 - 1) n)

/-- `UChar32(cp)` -/
def toChar32 (cp : Int) : Int := (cp + 2 ^ 31) % 2 ^ 32 - 2 ^ 31

/-- `icu::UnicodeString{ ch }.toUTF8String`: nothing for a number that is no code point. -/
def encode (ch : Int) : Bytes := if 0 ≤ ch ∧ ch ≤ 0x10FFFF then toUTF8String [ch.toNat] else []

section
variable (charFromName : Bytes → Option Int)

/-- A code point with so many digits. `strtol` is not told where they end. -/
def codePoint (digits : Nat) (str : Bytes) : Option (Bytes × Nat) :=
  if str.length < digits then none else (strtol str).map fun cp => (encode (toChar32 cp), digits)

def escape (d : UInt8) (str : Bytes) : Option (Bytes × Nat) :=
  match simpleEscapes.lookup d with
  | some output => some (output, 0)
  | none =>
    if isOctal d then
      let (c, skip) := octal d str
      if c ≤ 255 then some ([.ofNat c], skip) else none
    else if d = 120 then
      if str.length < 2 then none
      else
        match readHex (str.take 2) with
        | none => none
        | some c =>
          if 255 < c then none
          else if c ≤ 0x7F then some ([.ofNat (c % 256).toNat], 2)
          else some ([.ofNat (192 + c.toNat / 64), .ofNat (128 + c.toNat % 64)], 2)
    else if d = 117 then codePoint 4 str
    else if d = 85 then codePoint 8 str
    else if d = 78 then
      match str with
      | [] => none
      | c :: name =>
        if c ≠ 123 ∨ 125 ∉ name then none
        -- the name goes on to the last character but one of the text
        else (charFromName name.dropLast).map fun cp => (encode cp, 1)
    else some ([92, d], 0)

def fromUnescapedString : Bytes → Option Bytes := unescape (escape charFromName)

/-- `__repr__` -/
def repr (value : Bytes) : Bytes := [39] ++ value ++ [39]

end

/-! ### The constant of a token -/

inductive Constant
  | bytes (value : Bytes)
  | str (value : Bytes)
  deriving DecidableEq

def isQuote (c : UInt8) : Bool := c = 34 || c = 39

/-- Three quotes of any kind at the start. -/
def isTripleQuote (value : Bytes) : Bool := 3 ≤ value.length && (value.take 3).all isQuote

/-- `value.substr(pos, value.size() - less)`; a count below zero wraps, and takes all there is. -/
def substr (value : Bytes) (pos less : Nat) : Option Bytes :=
  if value.length < pos then none
  else some ((value.drop pos).take (if value.length < less then value.length else value.length - less))

/-- `parse_bytes`, behind the prefix. -/
def parseBytes (text : Bytes) : Option Bytes :=
  let quotes := if isTripleQuote text then 3 else 1
  if text.length < 2 * quotes then none
  else PyBytes.fromUnescapedString ((text.drop quotes).take (text.length - 2 * quotes))

/-- `StringPattern`, of the text of a token. -/
def constant (charFromName : Bytes → Option Int) (text : Bytes) : Option Constant :=
  match text with
  | [] => none
  | c :: rest =>
    if c = 98 ∨ c = 66 then (parseBytes rest).map .bytes
    else
      let isRaw : Bool := c = 114
      let value := if isRaw then rest else text
      let inner := if isTripleQuote value then substr value 3 6 else substr value 1 2
      if isRaw then inner.map .str else (inner.bind (fromUnescapedString charFromName)).map .str

/-! ### What escapes leave -/

/-- What makes an escape behind a backslash. -/
def isEscape (d : UInt8) : Bool :=
  (simpleEscapes.lookup d).isSome || isOctal d || d = 120 || d = 117 || d = 85 || d = 78

/-- A backslash counts twice. -/
def weight (s : Bytes) : Nat := s.length + s.count 92

@[simp] theorem weight_append (s t : Bytes) : weight (s ++ t) = weight s + weight t := by
  unfold weight
  rw [List.length_append, List.count_append]
  omega

theorem weight_cons (c : UInt8) (s : Bytes) : weight (c :: s) = weight [c] + weight s := weight_append [c] s

theorem length_le_weight (s : Bytes) : s.length ≤ weight s := Nat.le_add_right _ _

theorem weight_singleton (c : UInt8) : weight [c] = if c = 92 then 2 else 1 := by
  unfold weight
  rw [List.length_singleton, List.count_singleton]
  by_cases h : c = 92
  · simp [h]
  · simp [h]

theorem weight_drop {s : Bytes} {n : Nat} (h : n ≤ s.length) : n + weight (s.drop n) ≤ weight s := by
  have hsplit := weight_append (s.take n) (s.drop n)
  rw [List.take_append_drop] at hsplit
  have hle := length_le_weight (s.take n)
  rw [List.length_take, Nat.min_eq_left h] at hle
  omega

theorem weight_of_no_backslash {s : Bytes} (h : ∀ b ∈ s, 128 ≤ b.toNat) : weight s = s.length ∧ s.head? ≠ some 92 := by
  have hnot : (92 : UInt8) ∉ s := fun hmem => absurd (h 92 hmem) (by decide)
  refine ⟨by unfold weight; rw [List.count_eq_zero.mpr hnot, Nat.add_zero], fun hhead => hnot (List.mem_of_mem_head? hhead)⟩

theorem length_utf8EncodeChar_le (c : Char) : (String.utf8EncodeChar c).length ≤ 4 := by
  rw [utf8EncodeChar_eq]
  split
  next => exact (by decide : 1 ≤ 4)
  split
  next => exact (by decide : 2 ≤ 4)
  split
  next => exact (by decide : 3 ≤ 4)
  next => exact Nat.le_refl 4

/-- The bytes of a code point weigh no more than four, and less if the first is a backslash. -/
theorem weight_encode (ch : Int) : weight (encode ch) ≤ 4 ∧ (weight (encode ch) < 4 ∨ (encode ch).head? ≠ some 92) := by
  unfold encode
  split
  next hrange =>
    rw [toUTF8String, List.flatMap_singleton]
    by_cases hvalid : ch.toNat.isValidChar
    · have hc : (Char.ofNat ch.toNat).toNat = ch.toNat := by
        rw [Char.ofNat, dif_pos hvalid]
        rfl
      rw [← hc, utf8chr_toNat, Option.getD_some]
      generalize Char.ofNat ch.toNat = c
      cases hascii : isAscii c with
      | true =>
        rw [utf8EncodeChar_ascii hascii, weight_singleton]
        split
        next => exact ⟨by decide, .inl (by decide)⟩
        next => exact ⟨by decide, .inl (by decide)⟩
      | false =>
        obtain ⟨hweight, hhead⟩ := weight_of_no_backslash (utf8EncodeChar_not_ascii hascii)
        rw [hweight]
        exact ⟨length_utf8EncodeChar_le c, .inr hhead⟩
    · have hnone : utf8chr ch.toNat = none := by
        unfold Nat.isValidChar at hvalid
        unfold utf8chr
        rw [if_neg (by omega), if_neg (by omega), if_pos (by omega)]
      rw [hnone]
      exact ⟨by decide, .inl (by decide)⟩
  next => exact ⟨by decide, .inl (by decide)⟩

variable {charFromName : Bytes → Option Int} {d : UInt8} {str output : Bytes} {skip : Nat}

/-- What an escape stands for. -/
structure Escaped (d : UInt8) (str output : Bytes) (skip : Nat) : Prop where
  inside : skip ≤ str.length
  weight : weight output ≤ 3 + skip
  changes : isEscape d = true → PyString.weight output < 3 + skip ∨ output.head? ≠ some 92

theorem weight_byte (c : UInt8) : weight [c] ≤ 2 := by
  rw [weight_singleton]
  split <;> decide

theorem Escaped.byte {c : UInt8} (h : skip ≤ str.length) : Escaped d str [c] skip where
  inside := h
  weight := Nat.le_trans (weight_byte c) (by omega)
  changes := fun _ => .inl (Nat.lt_of_le_of_lt (weight_byte c) (by omega))

theorem Escaped.encode {ch : Int} (hskip : 1 ≤ skip) (h : skip ≤ str.length) :
    Escaped d str (encode ch) skip where
  inside := h
  weight := Nat.le_trans (weight_encode ch).1 (by omega)
  changes := fun _ => (weight_encode ch).2.imp (fun hlt => Nat.lt_of_lt_of_le hlt (by omega)) id

theorem octal_le (d : UInt8) (str : Bytes) : (octal d str).2 ≤ str.length := by
  unfold octal
  split
  next c e rest =>
    rw [List.length_cons, List.length_cons]
    split
    next => split <;> omega
    next => omega
  next => split <;> simp
  next => simp

theorem codePoint_some {digits : Nat} (h : codePoint digits str = some (output, skip)) :
    digits ≤ str.length ∧ skip = digits ∧ ∃ ch, output = encode ch := by
  unfold codePoint at h
  split at h
  next => cases h
  next hlength =>
    obtain ⟨cp, -, heq⟩ := Option.map_eq_some_iff.mp h
    cases heq
    exact ⟨by omega, rfl, _, rfl⟩

theorem weight_of_lookup {output : Bytes} (h : simpleEscapes.lookup d = some output) : PyString.weight output ≤ 2 := by
  obtain ⟨before, after, heq, -⟩ := List.lookup_eq_some_iff.mp h
  have hmem : (d, output) ∈ simpleEscapes := heq ▸ List.mem_append_right _ List.mem_cons_self
  exact (by decide : ∀ e ∈ simpleEscapes, PyString.weight e.2 ≤ 2) _ hmem

theorem escape_spec (h : escape charFromName d str = some (output, skip)) : Escaped d str output skip := by
  unfold escape at h
  split at h
  next simple hsimple =>
    cases h
    have hweight := weight_of_lookup hsimple
    exact { inside := Nat.zero_le _, weight := Nat.le_trans hweight (by decide),
            changes := fun _ => .inl (Nat.lt_succ_of_le hweight) }
  next hsimple =>
    have hescape : isEscape d = (isOctal d || d = 120 || d = 117 || d = 85 || d = 78) := by
      unfold isEscape
      rw [hsimple]
      rfl
    split at h
    next hoctal =>
      dsimp only at h
      split at h
      next =>
        cases h
        exact .byte (octal_le d str)
      next => cases h
    next hoctal =>
      split at h
      next hx =>
        split at h
        next => cases h
        next hlength =>
          split at h
          next => cases h
          next c hc =>
            split at h
            next => cases h
            next hle =>
              split at h
              next =>
                cases h
                exact .byte (by omega)
              next hgt =>
                cases h
                have hhigh : ∀ b ∈ ([.ofNat (192 + c.toNat / 64), .ofNat (128 + c.toNat % 64)] : Bytes), 128 ≤ b.toNat := by
                  refine List.forall_mem_cons.mpr ⟨?_, List.forall_mem_singleton.mpr ?_⟩
                  · rw [toNat_ofNat (by omega)]
                    exact Nat.le_trans (by decide) (Nat.le_add_right _ _)
                  · rw [toNat_ofNat (by omega)]
                    exact Nat.le_add_right _ _
                have hweight := (weight_of_no_backslash hhigh).1
                refine { inside := by omega, weight := ?_, changes := fun _ => .inl ?_ }
                · rw [hweight]
                  exact (by decide : 2 ≤ 5)
                · rw [hweight]
                  exact (by decide : 2 < 5)
      next hx =>
        split at h
        next hu =>
          obtain ⟨hlength, rfl, ch, rfl⟩ := codePoint_some h
          exact .encode (by decide) hlength
        next hu =>
          split at h
          next hU =>
            obtain ⟨hlength, rfl, ch, rfl⟩ := codePoint_some h
            exact .encode (by decide) hlength
          next hU =>
            split at h
            next hN =>
              split at h
              next => cases h
              next c name =>
                split at h
                next => cases h
                next =>
                  obtain ⟨cp, -, heq⟩ := Option.map_eq_some_iff.mp h
                  cases heq
                  exact .encode (Nat.le_refl 1) (by rw [List.length_cons]; omega)
            next hN =>
              cases h
              have hnot : isEscape d = false := by simp [hescape, hoctal, hx, hu, hU, hN]
              have hslash : d ≠ 92 := by
                intro heq
                subst heq
                cases hsimple
              have hweight : PyString.weight [92, d] = 3 := by
                rw [weight_cons, weight_singleton, weight_singleton, if_pos rfl, if_neg hslash]
              exact { inside := Nat.zero_le _, weight := Nat.le_of_eq hweight,
                      changes := fun hd => absurd (hnot.symm.trans hd) nofun }

/-- Reading a text makes it no heavier. -/
theorem unescape_weight {out : Bytes} (h : fromUnescapedString charFromName str = some out) : weight out ≤ weight str := by
  unfold fromUnescapedString at h
  induction hn : str.length using Nat.strongRecOn generalizing str out with
  | ind n ih =>
    cases str with
    | nil =>
      rw [unescape] at h
      cases h
      exact Nat.le_refl _
    | cons c str =>
      by_cases hc : c = 92
      · subst hc
        cases str with
        | nil =>
          rw [unescape] at h
          cases h
        | cons d str =>
          cases hescape : escape charFromName d str with
          | none =>
            rw [unescape.eq_def] at h
            simp [hescape] at h
          | some r =>
            obtain ⟨output, skip⟩ := r
            rw [unescape_escape _ _ hescape] at h
            obtain ⟨rest, hrest, rfl⟩ := Option.map_eq_some_iff.mp h
            have hspec := escape_spec hescape
            have hdrop := weight_drop hspec.inside
            have hweight := hspec.weight
            have hle := ih _ (by rw [← hn, List.length_drop, List.length_cons, List.length_cons]; omega) hrest rfl
            have hslash : weight [92] = 2 := rfl
            have hd := length_le_weight [d]
            rw [weight_append, weight_cons, weight_cons d]
            rw [List.length_singleton] at hd
            omega
      · rw [unescape_plain hc] at h
        obtain ⟨rest, hrest, rfl⟩ := Option.map_eq_some_iff.mp h
        have hle := ih _ (by rw [← hn, List.length_cons]; omega) hrest rfl
        rw [weight_cons, weight_cons c str]
        omega

theorem escape_of_not (charFromName : Bytes → Option Int) (str : Bytes) (hd : isEscape d = false) :
    escape charFromName d str = some ([92, d], 0) := by
  unfold isEscape at hd
  simp only [Bool.or_eq_false_iff, decide_eq_false_iff_not, Option.isSome_eq_false_iff, Option.isNone_iff_eq_none] at hd
  obtain ⟨⟨⟨⟨⟨hsimple, hoctal⟩, hx⟩, hu⟩, hU⟩, hN⟩ := hd
  unfold escape
  rw [hsimple]
  simp only [hoctal, Bool.false_eq_true, if_false, hx, hu, hU, hN]

/-- No backslash is at the end, or makes an escape. -/
def NoEscape (value : Bytes) : Prop := ∀ x y, value = x ++ 92 :: y → ∃ d z, y = d :: z ∧ isEscape d = false

theorem noEscape_cons {c : UInt8} (hc : c ≠ 92) : NoEscape (c :: str) ↔ NoEscape str := by
  constructor
  · intro h x y hxy
    exact h (c :: x) y (congrArg (c :: ·) hxy)
  · intro h x y hxy
    cases x with
    | nil => exact absurd (List.cons.inj hxy).1 hc
    | cons b x => exact h x y (List.cons.inj hxy).2

theorem noEscape_slash : NoEscape (92 :: d :: str) ↔ isEscape d = false ∧ NoEscape (d :: str) := by
  constructor
  · intro h
    obtain ⟨e, z, heq, he⟩ := h [] (d :: str) rfl
    obtain ⟨rfl, rfl⟩ := List.cons.inj heq
    exact ⟨he, fun x y hxy => h (92 :: x) y (congrArg (92 :: ·) hxy)⟩
  · intro h x y hxy
    cases x with
    | nil =>
      obtain ⟨-, rfl⟩ := List.cons.inj hxy
      exact ⟨d, str, rfl, h.1⟩
    | cons b x => exact h.2 x y (List.cons.inj hxy).2

/-- A text is read as itself exactly if it has no escape. -/
theorem unescape_eq_self_iff : fromUnescapedString charFromName str = some str ↔ NoEscape str := by
  unfold fromUnescapedString
  induction hn : str.length using Nat.strongRecOn generalizing str with
  | ind n ih =>
    cases str with
    | nil =>
      rw [unescape]
      exact iff_of_true rfl fun x y hxy => by simp at hxy
    | cons c str =>
      by_cases hc : c = 92
      · subst hc
        cases str with
        | nil =>
          rw [unescape]
          refine iff_of_false nofun fun h => ?_
          obtain ⟨d, z, hnil, -⟩ := h [] [] rfl
          cases hnil
        | cons d str =>
          rw [noEscape_slash]
          cases hd : isEscape d with
          | true =>
            refine iff_of_false (fun h => ?_) fun h => by cases h.1
            cases hescape : escape charFromName d str with
            | none =>
              rw [unescape.eq_def] at h
              simp [hescape] at h
            | some r =>
              obtain ⟨output, skip⟩ := r
              rw [unescape_escape _ _ hescape] at h
              obtain ⟨rest, hrest, heq⟩ := Option.map_eq_some_iff.mp h
              have hspec := escape_spec hescape
              have hle : weight rest ≤ weight (str.drop skip) := unescape_weight hrest
              have hdrop := weight_drop hspec.inside
              have hweights := congrArg weight heq
              have hlength := length_le_weight [d]
              have hslash : weight [92] = 2 := rfl
              rw [List.length_singleton] at hlength
              rw [weight_append, weight_cons, weight_cons d] at hweights
              rcases hspec.changes hd with hlt | hhead
              · omega
              · cases output with
                | nil =>
                  have hzero : weight [] = 0 := rfl
                  omega
                | cons b output => exact hhead (congrArg some (List.cons.inj heq).1)
          | false =>
            have hescape := escape_of_not charFromName str hd
            have hslash : d ≠ 92 := fun heq => by
              subst heq
              cases hd
            rw [unescape_escape _ _ hescape, List.drop_zero, and_iff_right rfl, noEscape_cons hslash,
              ← ih _ (by rw [← hn, List.length_cons, List.length_cons]; omega) rfl]
            constructor
            · intro h
              obtain ⟨rest, hrest, heq⟩ := Option.map_eq_some_iff.mp h
              exact hrest.trans (congrArg some (List.append_cancel_left heq))
            · intro h
              rw [h]
              rfl
      · rw [unescape_plain hc, noEscape_cons hc, ← ih _ (by rw [← hn, List.length_cons]; omega) rfl]
        constructor
        · intro h
          obtain ⟨rest, hrest, heq⟩ := Option.map_eq_some_iff.mp h
          exact hrest.trans (congrArg some (List.cons.inj heq).2)
        · intro h
          rw [h]
          rfl

/-! ### The literal -/

open Pylang.Lex (Lexer Token TokenType)

/-- The bytes as the lexer has them. -/
def asText (value : Bytes) : List Char := value.map fun b => Char.ofNat b.toNat

/-- The literal is one STRING token, and its constant is the string. -/
structure LexedBack (charFromName : Bytes → Option Int) (value : Bytes) : Prop where
  token : ∃ L t, Lexer.readMoreTokensLoop (asText (repr value) ++ ['\n']) {} = .ok (true, L) ∧ L.tokens = [t] ∧
    t.tokenType = .string ∧ t.start.pointer = 0 ∧ t.stop.pointer = (repr value).length
  constant : constant charFromName (repr value) = some (.str value)

/-- The strings that can be printed as they are. -/
structure Printable (value : Bytes) : Prop where
  noQuote : 39 ∉ value
  noEscape : NoEscape value
  notDoubled : ¬ [34, 34] <+: value
  notLone : value ≠ [34]

theorem toNat_asChar (b : UInt8) : (Char.ofNat b.toNat).toNat = b.toNat := by
  have hlt := b.toNat_lt
  have hvalid : b.toNat.isValidChar := .inl (by omega)
  rw [Char.ofNat, dif_pos hvalid]
  rfl

theorem asChar_eq_iff {b : UInt8} {c : Char} : Char.ofNat b.toNat = c ↔ b.toNat = c.toNat := by
  constructor
  · intro h
    rw [← h, toNat_asChar]
  · intro h
    exact toNat_injective ((toNat_asChar b).trans h)

section
variable (s : List Char)

theorem tryEmptyLine_quote : Lexer.tryEmptyLine ('\'' :: s) {} = .ok (false, {}) := by
  unfold Lexer.tryEmptyLine Lexer.advanceWhile
  simp [Lexer.peek, Lexer.rest, Lex.isSpace, Lex.isBlank, Lexer.incrementColumnPosition]
  rfl

theorem tryReadComment_quote : Lexer.tryReadComment ('\'' :: s) {} = .ok (false, {}) := by
  unfold Lexer.tryReadComment Lexer.commentStart
  simp [Lexer.peek, Lexer.rest]
  rfl

theorem tryReadIndent_quote : Lexer.tryReadIndent ('\'' :: s) {} = .ok (false, {}) := by
  rfl

theorem tryReadNewline_quote : Lexer.tryReadNewline ('\'' :: s) {} = .ok (false, {}) := by
  rfl

theorem tryReadSpace_quote : Lexer.tryReadSpace ('\'' :: s) {} = .ok {} := by
  unfold Lexer.tryReadSpace Lexer.advanceWhile
  simp [Lexer.rest, Lex.isBlank, Lexer.incrementColumnPosition]

theorem tryReadBackslash_quote : Lexer.tryReadBackslash ('\'' :: s) {} = .ok {} := by
  unfold Lexer.tryReadBackslash
  rw [tryReadSpace_quote]
  rfl

theorem readMoreTokensLoop_quote (h : ∀ L, Lexer.tryReadString ('\'' :: s) {} ≠ .ok (false, L)) :
    Lexer.readMoreTokensLoop ('\'' :: s) {} = Lexer.tryReadString ('\'' :: s) {} := by
  have hreads : Lexer.readMoreTokensLoop ('\'' :: s) {} =
      Lexer.orElse {} (·.tryEmptyLine ('\'' :: s)) (·.orElse (·.tryReadComment ('\'' :: s))
        (·.orElse (·.tryReadIndent ('\'' :: s)) (·.readTokens ('\'' :: s)))) := rfl
  rw [hreads, Lexer.orElse_false (tryEmptyLine_quote s), Lexer.orElse_false (tryReadComment_quote s),
    Lexer.orElse_false (tryReadIndent_quote s)]
  unfold Lexer.readTokens
  rw [Lexer.orElse_false (tryReadNewline_quote s), tryReadBackslash_quote]
  dsimp only [bind, Except.bind]
  rw [tryReadSpace_quote]
  cases hread : Lexer.tryReadString ('\'' :: s) {} with
  | error e =>
    unfold Lexer.orElse
    dsimp only [bind, Except.bind]
    rw [hread]
  | ok r =>
    obtain ⟨read, L⟩ := r
    cases read with
    | false => exact absurd hread (h L)
    | true =>
      unfold Lexer.orElse
      dsimp only [bind, Except.bind]
      rw [hread]
      rfl

theorem tryReadString_single {c d : Char} (rest : List Char) (h : ¬(c = '\'' ∧ d = '\'')) :
    Lexer.tryReadString ('\'' :: c :: d :: rest) {} =
      (Lexer.quotedString '\'' (c :: d :: rest) 1 {}).map fun read => (true, read.pushToken .string ⟨0, 0, 0⟩ read.position) := by
  have htriple : Lexer.isTripleQuote ('\'' :: c :: d :: rest) {} 0 '\'' = .ok false := by
    have heq : Lexer.isTripleQuote ('\'' :: c :: d :: rest) {} 0 '\'' =
      if c ≠ '\'' then .ok false else .ok (decide (d = '\'')) := rfl
    rw [heq]
    by_cases hc : c = '\''
    · rw [if_neg (not_not_intro hc), decide_eq_false fun hd => h ⟨hc, hd⟩]
    · rw [if_pos hc]
  have hread : Lexer.tryReadString ('\'' :: c :: d :: rest) {} = (do
    if ← Lexer.isTripleQuote ('\'' :: c :: d :: rest) {} 0 '\'' then
      let read ← Lexer.tripleQuotedString '\'' rest 3 {}
      return (true, read.pushToken .string ⟨0, 0, 0⟩ read.position)
    let read ← Lexer.quotedString '\'' (c :: d :: rest) 1 {}
    return (true, read.pushToken .string ⟨0, 0, 0⟩ read.position)) := rfl
  rw [hread, htriple]
  show (Lexer.quotedString '\'' (c :: d :: rest) 1 {}).bind _ = _
  cases Lexer.quotedString '\'' (c :: d :: rest) 1 {} <;> rfl

end

/-- A text without quotes and escapes is read up to the quote behind it. -/
theorem quotedString_printed {value : Bytes} (hquote : 39 ∉ value) (hescape : NoEscape value) (t : List Char) (n : Nat)
    (L : Lexer) : Lexer.quotedString '\'' (asText value ++ '\'' :: t) n L = .ok (L.advance (n + value.length + 1)) := by
  induction hn : value.length using Nat.strongRecOn generalizing value n with
  | ind m ih =>
    cases value with
    | nil =>
      subst hn
      show Lexer.quotedString '\'' ('\'' :: t) n L = _
      rw [Lexer.quotedString_cons (by decide), if_pos rfl]
      rfl
    | cons c value =>
      obtain ⟨hc, hvalue⟩ := not_or.mp (mt List.mem_cons.mpr hquote)
      have hnotQuote : Char.ofNat c.toNat ≠ '\'' := fun h => hc (UInt8.toNat_inj.mp (asChar_eq_iff.mp h)).symm
      by_cases hslash : c = 92
      · subst hslash
        obtain ⟨d, z, rfl, hd⟩ := hescape [] value rfl
        have hne : d ≠ 92 := fun heq => by
          subst heq
          cases hd
        have hrest := (noEscape_cons hne).mp (noEscape_slash.mp hescape).2
        have hline : Char.ofNat d.toNat ≠ '\n' := fun h => by
          have heq : d = 10 := UInt8.toNat_inj.mp (asChar_eq_iff.mp h)
          subst heq
          cases hd
        have hread := ih z.length (by rw [← hn, List.length_cons, List.length_cons]; omega)
          (mt (List.mem_cons_of_mem d) hvalue) hrest (n + 2) rfl
        show (if Char.ofNat d.toNat = '\n' then _ else Lexer.quotedString '\'' (asText z ++ '\'' :: t) (n + 2) L) = _
        rw [if_neg hline, hread, ← hn, List.length_cons, List.length_cons]
        exact congrArg (fun k => Except.ok (L.advance k)) (by omega)
      · have hnotSlash : Char.ofNat c.toNat ≠ '\\' := fun h => hslash (UInt8.toNat_inj.mp (asChar_eq_iff.mp h))
        have hread := ih value.length (by rw [← hn, List.length_cons]; omega) hvalue ((noEscape_cons hslash).mp hescape)
          (n + 1) rfl
        show Lexer.quotedString '\'' (Char.ofNat c.toNat :: (asText value ++ '\'' :: t)) n L = _
        rw [Lexer.quotedString_cons hnotSlash, if_neg hnotQuote, hread, ← hn, List.length_cons]
        exact congrArg (fun k => Except.ok (L.advance k)) (by omega)

/-! ### What the two readers make of what is printed -/

theorem asText_repr (value : Bytes) : asText (repr value) ++ ['\n'] = '\'' :: (asText value ++ ['\'', '\n']) := by
  unfold asText repr
  rw [List.map_append, List.map_append, List.append_assoc, List.append_assoc]
  rfl

theorem length_repr (value : Bytes) : (repr value).length = value.length + 2 := by
  unfold repr
  rw [List.length_append, List.length_append, List.length_singleton]
  omega

theorem isTripleQuote_one (c : UInt8) : isTripleQuote (repr [c]) = isQuote c := by
  show (true && (true && (isQuote c && (true && true)))) = _
  rw [Bool.true_and, Bool.true_and, Bool.and_true, Bool.and_true]

theorem isTripleQuote_cons (c d : UInt8) (value : Bytes) :
    isTripleQuote (repr (c :: d :: value)) = (isQuote c && isQuote d) := by
  have hlength : 3 ≤ (repr (c :: d :: value)).length := by
    rw [length_repr, List.length_cons, List.length_cons]
    omega
  unfold isTripleQuote
  rw [decide_eq_true hlength]
  show (true && (true && (isQuote c && (isQuote d && true)))) = _
  rw [Bool.true_and, Bool.true_and, Bool.and_true]

theorem constant_single (charFromName : Bytes → Option Int) {value : Bytes} (h : isTripleQuote (repr value) = false) :
    PyString.constant charFromName (repr value) = (fromUnescapedString charFromName value).map .str := by
  have hlength := length_repr value
  have hinner : substr (repr value) 1 2 = some value := by
    unfold substr
    rw [if_neg (by omega), if_neg (by omega), hlength, Nat.add_sub_cancel]
    exact congrArg some (List.take_left' rfl)
  show ((if isTripleQuote (repr value) = true then substr (repr value) 3 6 else substr (repr value) 1 2).bind _).map _ = _
  rw [h, if_neg nofun, hinner]
  rfl

/-- With three quotes at the start, too little is left for the value. -/
theorem constant_triple (charFromName : Bytes → Option Int) {value : Bytes} (h : isTripleQuote (repr value) = true) :
    PyString.constant charFromName (repr value) ≠ some (.str value) := by
  have hconstant : PyString.constant charFromName (repr value) =
      ((if isTripleQuote (repr value) = true then substr (repr value) 3 6 else substr (repr value) 1 2).bind
        (fromUnescapedString charFromName)).map .str := rfl
  rw [hconstant, if_pos h]
  intro hread
  obtain ⟨out, hout, heq⟩ := Option.map_eq_some_iff.mp hread
  obtain ⟨inner, hinner, hunescape⟩ := Option.bind_eq_some_iff.mp hout
  cases heq
  unfold substr at hinner
  split at hinner
  next => cases hinner
  next hlong =>
    cases hinner
    have htake (n : Nat) (s : Bytes) : weight (s.take n) ≤ weight s := by
      have hsplit := weight_append (s.take n) (s.drop n)
      rw [List.take_append_drop] at hsplit
      omega
    have hle := Nat.le_trans (unescape_weight hunescape) (htake _ _)
    have hdrop := weight_drop (Nat.le_of_not_lt hlong)
    have hrepr : weight (repr value) = weight value + 2 := by
      unfold repr
      rw [weight_append, weight_append, weight_singleton, if_neg (by decide)]
      omega
    omega

/-- The lexer's reading of what is printed. -/
theorem readMoreTokensLoop_repr {value : Bytes} (h : isTripleQuote (repr value) = false) {n : Nat}
    (hread : Lexer.quotedString '\'' (asText value ++ ['\'', '\n']) 1 {} = .ok (Lexer.advance {} n)) :
    Lexer.readMoreTokensLoop (asText (repr value) ++ ['\n']) {} =
      .ok (true, (Lexer.advance {} n).pushToken .string ⟨0, 0, 0⟩ ⟨0, n, n⟩) := by
  have hstep : Lexer.tryReadString ('\'' :: (asText value ++ ['\'', '\n'])) {} =
      (Lexer.quotedString '\'' (asText value ++ ['\'', '\n']) 1 {}).map fun read =>
        (true, read.pushToken .string ⟨0, 0, 0⟩ read.position) := by
    match value with
    | [] => exact tryReadString_single [] fun hquotes => absurd hquotes.2 (by decide)
    | [c] =>
      refine tryReadString_single ['\n'] fun hquotes => ?_
      have hc : c = 39 := UInt8.toNat_inj.mp (asChar_eq_iff.mp hquotes.1)
      subst hc
      cases h
    | c :: d :: value =>
      refine tryReadString_single (asText value ++ ['\'', '\n']) fun hquotes => ?_
      have hc : c = 39 := UInt8.toNat_inj.mp (asChar_eq_iff.mp hquotes.1)
      have hd : d = 39 := UInt8.toNat_inj.mp (asChar_eq_iff.mp hquotes.2)
      subst hc hd
      rw [isTripleQuote_cons] at h
      cases h
  rw [hread] at hstep
  have heq : (Except.ok (Lexer.advance {} n) : Except Lex.Stop Lexer).map (fun read =>
      (true, read.pushToken .string ⟨0, 0, 0⟩ read.position)) =
      .ok (true, (Lexer.advance {} n).pushToken .string ⟨0, 0, 0⟩ ⟨0, n, n⟩) := by
    unfold Lexer.advance Lexer.incrementColumnPosition
    simp [Except.map]
  rw [heq] at hstep
  have hread (L : Lexer) : Lexer.tryReadString ('\'' :: (asText value ++ ['\'', '\n'])) {} ≠ .ok (false, L) := by
    rw [hstep]
    nofun
  rw [asText_repr, readMoreTokensLoop_quote _ hread, hstep]

theorem Printable.single {value : Bytes} (h : Printable value) : isTripleQuote (repr value) = false := by
  have hquote {c : UInt8} (hc : c ∈ value) (hquote : isQuote c = true) : c = 34 := by
    unfold isQuote at hquote
    rw [Bool.or_eq_true, decide_eq_true_iff, decide_eq_true_iff] at hquote
    exact hquote.resolve_right fun heq => h.noQuote (heq ▸ hc)
  match value with
  | [] => rfl
  | [c] =>
    rw [isTripleQuote_one, Bool.eq_false_iff]
    intro hc
    exact h.notLone (congrArg (fun c => [c]) (hquote List.mem_cons_self hc))
  | c :: d :: value =>
    rw [isTripleQuote_cons, Bool.and_eq_false_imp]
    intro hc
    rw [Bool.eq_false_iff]
    intro hd
    have hfirst := hquote List.mem_cons_self hc
    have hsecond := hquote (List.mem_cons_of_mem _ List.mem_cons_self) hd
    subst hfirst hsecond
    exact h.notDoubled ⟨value, rfl⟩

theorem NoEscape.of_append {x y : Bytes} {c : UInt8} (h : NoEscape (x ++ c :: y)) (hc : isEscape c = true) :
    NoEscape x := by
  intro p q hpq
  subst hpq
  obtain ⟨d, z, heq, hd⟩ := h p (q ++ c :: y) (by rw [List.append_assoc, List.cons_append])
  cases q with
  | nil =>
    obtain ⟨rfl, -⟩ := List.cons.inj heq
    cases hd.symm.trans hc
  | cons b q =>
    obtain ⟨rfl, -⟩ := List.cons.inj heq
    exact ⟨b, q, rfl, hd⟩

/-- A string is read back from what is printed for it exactly if it can be printed as it is. -/
theorem lexedBack_iff (charFromName : Bytes → Option Int) (value : Bytes) :
    LexedBack charFromName value ↔ Printable value := by
  constructor
  · intro h
    have hsingle : isTripleQuote (repr value) = false :=
      Bool.eq_false_iff.mpr fun htriple => constant_triple charFromName htriple h.constant
    have hvalue := h.constant
    rw [constant_single charFromName hsingle] at hvalue
    obtain ⟨out, hout, heq⟩ := Option.map_eq_some_iff.mp hvalue
    cases heq
    have hescape := unescape_eq_self_iff.mp hout
    refine { noEscape := hescape, noQuote := fun hmem => ?_, notDoubled := ?_, notLone := ?_ }
    · obtain ⟨x, y, rfl, hx⟩ := List.eq_append_cons_of_mem hmem
      obtain ⟨L, t, hread, htokens, -, -, hstop⟩ := h.token
      have hquoted := quotedString_printed hx (hescape.of_append rfl) (asText y ++ ['\'', '\n']) 1 {}
      have htext : asText (x ++ 39 :: y) ++ ['\'', '\n'] = asText x ++ '\'' :: (asText y ++ ['\'', '\n']) := by
        unfold asText
        rw [List.map_append, List.append_assoc]
        rfl
      rw [readMoreTokensLoop_repr hsingle (htext ▸ hquoted)] at hread
      cases hread
      obtain ⟨rfl⟩ := List.cons.inj htokens
      rw [length_repr, List.length_append, List.length_cons] at hstop
      have hend : 1 + x.length + 1 = x.length + (y.length + 1) + 2 := hstop
      omega
    · intro hprefix
      obtain ⟨rest, rfl⟩ := hprefix
      cases hsingle.symm.trans (isTripleQuote_cons 34 34 rest)
    · intro heq
      subst heq
      cases hsingle
  · intro h
    have hquoted := quotedString_printed h.noQuote h.noEscape ['\n'] 1 {}
    refine { token := ⟨_, _, readMoreTokensLoop_repr h.single hquoted, rfl, rfl, rfl, ?_⟩, constant := ?_ }
    · rw [length_repr]
      exact (by omega : 1 + value.length + 1 = value.length + 2)
    · rw [constant_single charFromName h.single, unescape_eq_self_iff.mpr h.noEscape]
      rfl

end PyString

/-- The two halves of reading back what `repr` gives. -/
structure ReadBack (charFromName : Bytes → Option Int) (b value : Bytes) : Prop where
  bytes : PyBytes.fromUnescapedString ((PyBytes.toString b).drop 2).dropLast = some b
  str : PyString.LexedBack charFromName value

theorem readBack_iff (charFromName : Bytes → Option Int) (b value : Bytes) :
    ReadBack charFromName b value ↔ PyString.Printable value := by
  constructor
  · intro h
    exact (PyString.lexedBack_iff charFromName value).mp h.str
  · intro h
    exact ⟨PyBytes.fromUnescapedString_toString b, (PyString.lexedBack_iff charFromName value).mpr h⟩

/-- A backslash and an `n` are printed as they are, and read as a line feed. -/
theorem backslash_not_read_back : ¬ ∀ charFromName b value, ReadBack charFromName b value := by
  intro h
  have hread := (h (fun _ => none) [] [92, 110]).str.constant
  rw [PyString.constant_single _ rfl, PyString.fromUnescapedString, unescape_escape [10] 0 rfl] at hread
  rw [List.drop_zero, unescape] at hread
  cases hread

end Pylang.Runtime.Repr
