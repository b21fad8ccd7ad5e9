/-
The constant of a STRING token against Python's: what the prefix means, the text
between the quotes, and each escape in it.
-/
import Mathlib
import Pylang.Runtime.Repr

namespace Pylang.Runtime.StringLiteral

open Runtime.Repr PyString

/-! ## Literals -/

/-- The lexer's prefixes, but for those of f-strings. -/
def marks : List Bytes :=
  (Lex.Lexer.stringPossiblePrefixes.filter fun p => !(p.contains 'f' || p.contains 'F')).map fun p =>
    p.map fun c => UInt8.ofNat c.toNat

/-- A STRING token: its prefix, its quotes, and what stands between them. -/
structure StringToken where
  mark : Bytes
  quote : UInt8
  triple : Bool
  body : Bytes
  mark_mem : mark ∈ marks
  isQuote : isQuote quote = true

namespace StringToken

variable (L : StringToken)

def delimiter : Bytes := List.replicate (if L.triple then 3 else 1) L.quote

def quoted : Bytes := L.delimiter ++ L.body ++ L.delimiter

def text : Bytes := L.mark ++ L.quoted

def isBytes : Bool := L.mark.any fun c => c = 98 || c = 66

def isRaw : Bool := L.mark.any fun c => c = 114 || c = 82

end StringToken

/-! ## Python's escapes -/

namespace Python

/-- So many hexadecimal digits. -/
def hexDigits (digits : Nat) (str : Bytes) : Option Nat :=
  if digits ≤ str.length ∧ (str.take digits).all isHex then some (hexNumber (str.take digits)) else none

/-- A code point in UTF-8; a surrogate as three bytes, which are no UTF-8. -/
def encode (cp : Nat) : Bytes :=
  (utf8chr cp).getD [.ofNat (cp / 4096 + 224), .ofNat (cp / 64 % 64 + 128), .ofNat (cp % 64 + 128)]

/-- The escapes of a str, with the names of characters. -/
def strEscape (named : Bytes → Option Nat) (d : UInt8) (str : Bytes) : Option (Bytes × Nat) :=
  match simpleEscapes.lookup d with
  | some output => some (output, 0)
  | none =>
    if isOctal d then some (encode (octal d str).1, (octal d str).2)
    else if d = 120 then (hexDigits 2 str).map fun cp => (encode cp, 2)
    else if d = 117 then (hexDigits 4 str).map fun cp => (encode cp, 4)
    else if d = 85 then
      match hexDigits 8 str with
      | none => none
      | some cp => if cp ≤ 0x10FFFF then some (encode cp, 8) else none
    else if d = 78 then
      match str with
      | [] => none
      | c :: str =>
        let name := str.takeWhile (· ≠ 125)
        if c ≠ 123 ∨ 125 ∉ str then none else (named name).map fun cp => (encode cp, name.length + 2)
    else some ([92, d], 0)

/-- The escapes of bytes; of an octal number the low byte counts. -/
def bytesEscape (d : UInt8) (str : Bytes) : Option (Bytes × Nat) :=
  match simpleEscapes.lookup d with
  | some output => some (output, 0)
  | none =>
    if isOctal d then some ([.ofNat ((octal d str).1 % 256)], (octal d str).2)
    else if d = 120 then (hexDigits 2 str).map fun c => ([.ofNat c], 2)
    else some ([92, d], 0)

/-- A line feed that is not behind a backslash. -/
def hasLineFeed : Bytes → Bool
  | [] => false
  | c :: str =>
    if c = 92 then
      match str with
      | [] => false
      | _ :: str => hasLineFeed str
    else c = 10 || hasLineFeed str

end Python

section
variable (named : Bytes → Option Nat) (charFromName : Bytes → Option Int)

namespace StringToken

variable (L : StringToken)

def pythonEscape : UInt8 → Bytes → Option (Bytes × Nat) :=
  if L.isBytes then Python.bytesEscape else Python.strEscape named

/-- The constant that Python assigns; `none` where it takes no such literal. -/
def pythonConstant : Option Constant :=
  if (!L.triple && Python.hasLineFeed L.body) || (L.isBytes && L.body.any (128 ≤ ·)) then none
  else
    (if L.isRaw then some L.body else unescape (L.pythonEscape named) L.body).map (if L.isBytes then .bytes else .str)

/-- The escapes that the token's reader has. -/
def escape : UInt8 → Bytes → Option (Bytes × Nat) :=
  if L.isBytes then PyBytes.escape else PyString.escape charFromName

end StringToken

/-! ## What is asked -/

/-- `parse_bytes`: the text between the quotes. -/
def bytesText (text : Bytes) : Option Bytes :=
  let quotes := if isTripleQuote text then 3 else 1
  if text.length < 2 * quotes then none else some ((text.drop quotes).take (text.length - 2 * quotes))

/-- `StringPattern`: the text between the quotes. -/
def strText (value : Bytes) : Option Bytes := if isTripleQuote value then substr value 3 6 else substr value 1 2

/-- The text of a token that is decoded. -/
def innerText : Bytes → Option Bytes
  | [] => none
  | c :: rest => if c = 98 ∨ c = 66 then bytesText rest else strText (if c = 114 then rest else c :: rest)

/-- The escapes of a text, one read after the other: the character behind the backslash, and what follows it. -/
inductive Escapes (escape : UInt8 → Bytes → Option (Bytes × Nat)) : Bytes → UInt8 → Bytes → Prop
  | here (d : UInt8) (str : Bytes) : Escapes escape (92 :: d :: str) d str
  | plain {c d : UInt8} {s str : Bytes} : c ≠ 92 → Escapes escape s d str → Escapes escape (c :: s) d str
  | after {c d : UInt8} {s str output : Bytes} {skip : Nat} : escape c s = some (output, skip) →
      Escapes escape (s.drop skip) d str → Escapes escape (92 :: c :: s) d str

/-- What is asked of the reading of a token. -/
structure LiteralRight (L : StringToken) : Prop where
  /-- Exactly the text between the quotes is decoded. -/
  text : innerText L.text = some L.body
  /-- Each escape is what it is for Python. -/
  escapes : L.isRaw = false → ∀ d str, Escapes (L.pythonEscape named) L.body d str → ∀ r, L.pythonEscape named d str = some r →
    L.escape charFromName d str = some r
  constant : ∀ c, L.pythonConstant named = some c → PyString.constant charFromName L.text = some c

end

/-- The number that is shown for all the hexadecimal digits from a point on: kept to 63 bits, cut to 32 bits, and U+FFFD for a
surrogate. -/
def shown (str : Bytes) : Int :=
  let cp := toChar32 (min (2 ^ 63 - 1) (hexNumber (str.takeWhile isHex) : Int))
  if 0xD800 ≤ cp ∧ cp ≤ 0xDFFF then 0xFFFD else cp

/-- The escapes that are read as Python reads them: octal numbers below 0o200 (in bytes, below 0o377), and code points whose
digits are not made another number by those that follow; no names. -/
def EscapeOk (isBytes : Bool) (d : UInt8) (str : Bytes) : Prop :=
  if isBytes then isOctal d = true → (octal d str).1 < 255
  else (isOctal d = true → (octal d str).1 < 128) ∧ (d = 117 → shown str = hexNumber (str.take 4)) ∧
    (d = 85 → shown str = hexNumber (str.take 8)) ∧ d ≠ 78

/-- The literals that are read as Python reads them. -/
structure Readable (named : Bytes → Option Nat) (L : StringToken) : Prop where
  mark : L.mark ∈ [[], [98], [66], [114]]
  /-- Three quotes of any kinds only where there are three quotes. -/
  quotes : L.triple = false → isTripleQuote L.quoted = false
  escapes : L.isRaw = false → ∀ d str, Escapes (L.pythonEscape named) L.body d str →
    (L.pythonEscape named d str).isSome = true → EscapeOk L.isBytes d str

variable {named : Bytes → Option Nat} {charFromName : Bytes → Option Int} {L : StringToken} {d : UInt8} {str : Bytes}

/-! ## Code points -/

theorem encode_char (c : Char) : Python.encode c.toNat = String.utf8EncodeChar c := by
  rw [Python.encode, utf8chr_toNat, Option.getD_some]

theorem utf8EncodeChar_injective {c c' : Char} (h : String.utf8EncodeChar c = String.utf8EncodeChar c') : c = c' := by
  refine (utf8EncodeChar_append (x := []) (y := []) ?_).1
  rw [h]

theorem exists_char {n : Nat} (h : n < 0xD800 ∨ 0xDFFF < n ∧ n < 0x110000) : ∃ c : Char, c.toNat = n := by
  refine ⟨Char.ofNat n, ?_⟩
  have hvalid : n.isValidChar := h
  rw [Char.ofNat, dif_pos hvalid]
  rfl

theorem encode_surrogate {n : Nat} (h : 0xD800 ≤ n ∧ n ≤ 0xDFFF) (c : Char) : Python.encode n ≠ String.utf8EncodeChar c := by
  have hnone : utf8chr n = none := by
    unfold utf8chr
    rw [if_neg (by omega), if_neg (by omega), if_pos h]
  rw [Python.encode, hnone, Option.getD_none, utf8EncodeChar_eq]
  have hvalid := toNat_valid c
  split
  next => simp
  next =>
    split
    next => simp
    next =>
      split
      next hsmall =>
        intro heq
        simp only [List.cons.injEq, and_true] at heq
        have h0 := congrArg UInt8.toNat heq.1
        have h1 := congrArg UInt8.toNat heq.2.1
        have h2 := congrArg UInt8.toNat heq.2.2
        rw [toNat_ofNat (by omega), toNat_ofNat (by omega)] at h0
        rw [toNat_ofNat (by omega), toNat_ofNat (by omega)] at h1 h2
        omega
      next => simp

/-- The character that ICU appends. -/
theorem encode_eq_iff (x : Int) {cp : Nat} (hcp : cp ≤ 0x10FFFF) :
    PyString.encode x = Python.encode cp ↔ (if 0xD800 ≤ x ∧ x ≤ 0xDFFF then 0xFFFD else x) = (cp : Int) := by
  have hright (c : Char) : String.utf8EncodeChar c = Python.encode cp ↔ c.toNat = cp := by
    by_cases hsurrogate : 0xD800 ≤ cp ∧ cp ≤ 0xDFFF
    · refine iff_of_false (fun h => encode_surrogate hsurrogate c h.symm) fun h => ?_
      have hvalid := toNat_valid c
      omega
    · obtain ⟨c', rfl⟩ := exists_char (n := cp) (by omega)
      rw [encode_char]
      exact ⟨fun h => congrArg Char.toNat (utf8EncodeChar_injective h), fun h => congrArg _ (toNat_injective h)⟩
  unfold PyString.encode
  split
  next hrange =>
    rw [toUTF8String, List.flatMap_singleton]
    by_cases hsurrogate : 0xD800 ≤ x ∧ x ≤ 0xDFFF
    · have hnone : utf8chr x.toNat = none := by
        unfold utf8chr
        rw [if_neg (by omega), if_neg (by omega), if_pos (by omega)]
      have hchar : String.utf8EncodeChar (Char.ofNat 0xFFFD) = [0xEF, 0xBF, 0xBD] := by decide
      rw [hnone, Option.getD_none, if_pos hsurrogate, ← hchar, hright]
      show (0xFFFD : Nat) = cp ↔ _
      omega
    · obtain ⟨c, hc⟩ := exists_char (n := x.toNat) (by omega)
      rw [if_neg hsurrogate, ← hc, utf8chr_toNat, Option.getD_some, hright, hc]
      omega
  next hrange =>
    rw [if_neg (by omega)]
    refine iff_of_false (fun h => ?_) (by omega)
    have hlength := congrArg List.length h
    by_cases hsurrogate : 0xD800 ≤ cp ∧ cp ≤ 0xDFFF
    · have hnone : utf8chr cp = none := by
        unfold utf8chr
        rw [if_neg (by omega), if_neg (by omega), if_pos hsurrogate]
      rw [Python.encode, hnone] at h
      cases h
    · obtain ⟨c, rfl⟩ := exists_char (n := cp) (by omega)
      rw [encode_char] at hlength
      have hpos := (length_utf8EncodeChar c).1
      rw [← hlength] at hpos
      exact absurd hpos (by decide)

/-! ## One escape -/

theorem simple_ne {output : Bytes} (h : simpleEscapes.lookup d = some output) :
    isOctal d = false ∧ d ≠ 117 ∧ d ≠ 85 ∧ d ≠ 78 := by
  obtain ⟨front, back, heq, -⟩ := List.lookup_eq_some_iff.mp h
  have hall : ∀ p ∈ simpleEscapes, isOctal p.1 = false ∧ p.1 ≠ 117 ∧ p.1 ≠ 85 ∧ p.1 ≠ 78 := by decide
  exact hall (d, output) (by rw [heq]; exact List.mem_append_right _ List.mem_cons_self)

theorem octal_lt (hd : isOctal d = true) (str : Bytes) : (octal d str).1 < 512 := by
  have hdigit {c : UInt8} (hc : isOctal c = true) : c.toNat - 48 ≤ 7 := by
    unfold isOctal at hc
    simp only [Bool.and_eq_true, decide_eq_true_eq, UInt8.le_iff_toNat_le] at hc
    have hhigh : c.toNat ≤ 55 := hc.2
    omega
  have hfirst := hdigit hd
  unfold octal
  split
  next c e rest =>
    split
    next hc =>
      have hsecond := hdigit hc
      split
      next he =>
        have hthird := hdigit he
        show ((d.toNat - 48) * 8 + (c.toNat - 48)) * 8 + (e.toNat - 48) < 512
        omega
      next =>
        show (d.toNat - 48) * 8 + (c.toNat - 48) < 512
        omega
    next => exact Nat.lt_of_le_of_lt hfirst (by decide)
  next c =>
    split
    next hc =>
      have hsecond := hdigit hc
      show (d.toNat - 48) * 8 + (c.toNat - 48) < 512
      omega
    next => exact Nat.lt_of_le_of_lt hfirst (by decide)
  next => exact Nat.lt_of_le_of_lt hfirst (by decide)

theorem hexDigits_some {digits n : Nat} (h : Python.hexDigits digits str = some n) :
    digits ≤ str.length ∧ (str.take digits).all isHex = true ∧ n = hexNumber (str.take digits) := by
  unfold Python.hexDigits at h
  split at h
  next hdigits => exact ⟨hdigits.1, hdigits.2, (Option.some.inj h).symm⟩
  next => cases h

theorem isHex_bounds {c : UInt8} (h : isHex c = true) :
    48 ≤ c.toNat ∧ c.toNat ≤ 57 ∨ 97 ≤ c.toNat ∧ c.toNat ≤ 102 ∨ 65 ≤ c.toNat ∧ c.toNat ≤ 70 := by
  unfold isHex at h
  simp only [Bool.or_eq_true, Bool.and_eq_true, decide_eq_true_eq, UInt8.le_iff_toNat_le] at h
  rcases h with (h | h) | h
  · exact .inl h
  · exact .inr (.inl h)
  · exact .inr (.inr h)

theorem isHex_ne {c : UInt8} (h : isHex c = true) : isSpace c = false ∧ c ≠ 45 ∧ c ≠ 43 ∧ c ≠ 120 ∧ c ≠ 88 := by
  have hbounds := isHex_bounds h
  have hne {k : UInt8} (hk : c = k) : c.toNat = k.toNat := congrArg UInt8.toNat hk
  refine ⟨?_, fun hk => ?_, fun hk => ?_, fun hk => ?_, fun hk => ?_⟩
  · unfold isSpace
    simp only [Bool.or_eq_false_iff, Bool.and_eq_false_iff, decide_eq_false_iff_not, UInt8.le_iff_toNat_le]
    refine ⟨fun hk => ?_, .inr ?_⟩
    · have := hne hk
      rw [show (32 : UInt8).toNat = 32 from rfl] at this
      omega
    · rw [show (13 : UInt8).toNat = 13 from rfl]
      omega
  · have := hne hk
    rw [show (45 : UInt8).toNat = 45 from rfl] at this
    omega
  · have := hne hk
    rw [show (43 : UInt8).toNat = 43 from rfl] at this
    omega
  · have := hne hk
    rw [show (120 : UInt8).toNat = 120 from rfl] at this
    omega
  · have := hne hk
    rw [show (88 : UInt8).toNat = 88 from rfl] at this
    omega

theorem toDigitValue_lt_iff {c : UInt8} : PyBytes.toDigitValue c < 16 ↔ isHex c = true := by
  unfold PyBytes.toDigitValue isHex
  simp only [UInt8.le_iff_toNat_le, Bool.or_eq_true, Bool.and_eq_true, decide_eq_true_eq]
  rw [show (48 : UInt8).toNat = 48 from rfl, show (57 : UInt8).toNat = 57 from rfl, show (97 : UInt8).toNat = 97 from rfl,
    show (122 : UInt8).toNat = 122 from rfl, show (65 : UInt8).toNat = 65 from rfl, show (90 : UInt8).toNat = 90 from rfl,
    show (102 : UInt8).toNat = 102 from rfl, show (70 : UInt8).toNat = 70 from rfl]
  split
  next => omega
  next =>
    split
    next => omega
    next =>
      split
      next => omega
      next => omega

theorem strtol_hex {c e : UInt8} (hc : isHex c = true) (he : isHex e = true) (str : Bytes) :
    strtol (c :: e :: str) = some (min (2 ^ 63 - 1) (hexNumber ((c :: e :: str).takeWhile isHex) : Int)) := by
  obtain ⟨hspace, hminus, hplus, -⟩ := isHex_ne hc
  obtain ⟨-, -, -, hx, hX⟩ := isHex_ne he
  have hdrop : (c :: e :: str).dropWhile isSpace = c :: e :: str := List.dropWhile_cons_of_neg (by rw [hspace]; nofun)
  have hsigned : signed (c :: e :: str) = (false, c :: e :: str) := by
    unfold signed
    dsimp only
    rw [if_neg hminus, if_neg hplus]
  have hprefixed : ¬(([c, e] : Bytes) = [48, 120] ∨ ([c, e] : Bytes) = [48, 88]) := by
    intro h
    rcases h with h | h
    · exact hx (List.cons.inj (List.cons.inj h).2).1
    · exact hX (List.cons.inj (List.cons.inj h).2).1
  have hdigits : (c :: e :: str).takeWhile isHex ≠ [] := by
    rw [List.takeWhile_cons_of_pos hc]
    nofun
  unfold strtol
  rw [hdrop, hsigned]
  dsimp only [List.take]
  simp only [hprefixed, List.isEmpty_nil, if_true, List.isEmpty_eq_false_iff.mpr hdigits, Bool.false_eq_true, if_false]

/-- A code point of at least two digits is Python's exactly if the number that is shown is that of its digits. -/
theorem codePoint_eq_iff {digits n : Nat} (hdigits : 2 ≤ digits) (h : Python.hexDigits digits str = some n)
    (hn : n ≤ 0x10FFFF) : codePoint digits str = some (Python.encode n, digits) ↔ shown str = hexNumber (str.take digits) := by
  obtain ⟨hlength, hhex, rfl⟩ := hexDigits_some h
  match str with
  | [] => exact absurd hlength (by simp; omega)
  | [_] => exact absurd hlength (by simp; omega)
  | c :: e :: rest =>
    have hmem {b : UInt8} (hb : b ∈ (c :: e :: rest).take digits) : isHex b = true := List.all_eq_true.mp hhex b hb
    obtain ⟨m, rfl⟩ := Nat.exists_eq_add_of_le' hdigits
    have hstrtol := strtol_hex (hmem (b := c) (by simp)) (hmem (b := e) (by simp)) rest
    unfold codePoint shown
    rw [if_neg (Nat.not_lt.mpr hlength), hstrtol, Option.map_some, Option.some.injEq, Prod.mk.injEq, and_iff_left rfl]
    exact encode_eq_iff _ hn

theorem readHex_pair {c e : UInt8} (hc : isHex c = true) (he : isHex e = true) :
    readHex [c, e] = some (hexNumber [c, e] : Int) := by
  obtain ⟨hspace, hminus, hplus, -⟩ := isHex_ne hc
  unfold readHex
  rw [List.dropWhile_cons_of_neg (by rw [hspace]; nofun)]
  unfold signed
  simp only [List.isEmpty_cons, Bool.false_eq_true, if_false, hminus, hplus, List.takeWhile_cons_of_pos hc,
    List.takeWhile_cons_of_pos he, List.takeWhile_nil]

theorem hexNumber_pair (c e : UInt8) : hexNumber [c, e] = PyBytes.toDigitValue c * 16 + PyBytes.toDigitValue e := by
  show (0 * 16 + PyBytes.toDigitValue c) * 16 + PyBytes.toDigitValue e = _
  rw [Nat.zero_mul, Nat.zero_add]

theorem hexNumber_lt {digits : Bytes} (h : digits.all isHex = true) : hexNumber digits < 16 ^ digits.length := by
  have hfold (n : Nat) : digits.foldl (fun n d => n * 16 + PyBytes.toDigitValue d) n < (n + 1) * 16 ^ digits.length := by
    induction digits generalizing n with
    | nil => simp
    | cons c digits ih =>
      obtain ⟨hc, hrest⟩ := Bool.and_eq_true_iff.mp h
      have hdigit := toDigitValue_lt_iff.mpr hc
      refine Nat.lt_of_lt_of_le (ih hrest (n * 16 + PyBytes.toDigitValue c)) ?_
      rw [List.length_cons, Nat.pow_succ, Nat.mul_comm (16 ^ digits.length), ← Nat.mul_assoc]
      exact Nat.mul_le_mul_right _ (by omega)
  exact Nat.lt_of_lt_of_eq (hfold 0) (by rw [Nat.zero_add, Nat.one_mul])

theorem encode_small {n : Nat} (h : n < 256) :
    Python.encode n = if n < 128 then [.ofNat n] else [.ofNat (192 + n / 64), .ofNat (128 + n % 64)] := by
  obtain ⟨c, rfl⟩ := exists_char (n := n) (.inl (by omega))
  rw [encode_char, utf8EncodeChar_eq]
  split
  next hsmall => rw [if_pos (by omega)]
  next hlarge => rw [if_pos (by omega), if_neg (by omega), Nat.add_comm 192, Nat.add_comm 128]

theorem bytes_escape_iff {r : Bytes × Nat} (h : Python.bytesEscape d str = some r) :
    PyBytes.escape d str = some r ↔ EscapeOk true d str := by
  show _ ↔ (isOctal d = true → (octal d str).1 < 255)
  unfold Python.bytesEscape at h
  unfold PyBytes.escape
  cases hsimple : simpleEscapes.lookup d with
  | some output =>
    rw [hsimple] at h
    exact iff_of_true h fun hoctal => absurd ((simple_ne hsimple).1.symm.trans hoctal) nofun
  | none =>
    rw [hsimple] at h
    dsimp only at h ⊢
    cases hoctal : isOctal d with
    | true =>
      rw [hoctal, if_pos rfl] at h
      cases h
      rw [if_pos rfl]
      constructor
      · intro h _
        by_contra hlt
        rw [if_neg hlt] at h
        cases h
      · intro hlt
        have hlt := hlt rfl
        rw [if_pos hlt, Nat.mod_eq_of_lt (by omega)]
    | false =>
      rw [hoctal, if_neg nofun] at h
      rw [if_neg nofun]
      refine iff_of_true ?_ nofun
      split at h
      next hx =>
        obtain ⟨n, hn, rfl⟩ := Option.map_eq_some_iff.mp h
        obtain ⟨hlength, hhex, rfl⟩ := hexDigits_some hn
        rw [if_pos hx]
        match str with
        | [] => exact absurd hlength (by decide)
        | [_] => exact absurd hlength (Nat.not_succ_le_self 1)
        | c :: e :: rest =>
          have hmem {b : UInt8} (hb : b ∈ [c, e]) : PyBytes.toDigitValue b < 16 :=
            toDigitValue_lt_iff.mpr (List.all_eq_true.mp hhex b hb)
          show (if _ then _ else _) = some ([UInt8.ofNat (hexNumber [c, e])], 2)
          rw [if_pos ⟨hmem (by simp), hmem (by simp)⟩, hexNumber_pair]
      next hx =>
        rw [if_neg hx]
        exact h

theorem str_escape_iff {r : Bytes × Nat} (h : Python.strEscape named d str = some r) :
    PyString.escape charFromName d str = some r ↔ EscapeOk false d str := by
  show _ ↔ (isOctal d = true → (octal d str).1 < 128) ∧ (d = 117 → shown str = hexNumber (str.take 4)) ∧
    (d = 85 → shown str = hexNumber (str.take 8)) ∧ d ≠ 78
  unfold Python.strEscape at h
  unfold PyString.escape
  cases hsimple : simpleEscapes.lookup d with
  | some output =>
    rw [hsimple] at h
    obtain ⟨hoctal, hu, hU, hN⟩ := simple_ne hsimple
    exact iff_of_true h ⟨fun hd => absurd (hoctal.symm.trans hd) Bool.false_ne_true, fun hd => absurd hd hu, fun hd => absurd hd hU, hN⟩
  | none =>
    rw [hsimple] at h
    dsimp only at h ⊢
    cases hoctal : isOctal d with
    | true =>
      have hne : d ≠ 117 ∧ d ≠ 85 ∧ d ≠ 78 := by
        refine ⟨?_, ?_, ?_⟩
        all_goals
          intro heq
          subst heq
          cases hoctal
      rw [hoctal, if_pos rfl] at h
      cases h
      rw [if_pos rfl]
      have hlt := octal_lt hoctal str
      constructor
      · intro h
        refine ⟨fun _ => ?_, fun hd => absurd hd hne.1, fun hd => absurd hd hne.2.1, hne.2.2⟩
        split at h
        next hle =>
          have hencode := (Prod.mk.inj (Option.some.inj h)).1
          rw [encode_small (by omega)] at hencode
          by_contra hlarge
          rw [if_neg hlarge] at hencode
          simp at hencode
        next => cases h
      · intro hok
        have hsmall := hok.1 rfl
        rw [if_pos (by omega), encode_small (by omega), if_pos hsmall]
    | false =>
      rw [hoctal, if_neg Bool.false_ne_true] at h
      rw [if_neg Bool.false_ne_true]
      simp only [Bool.false_eq_true, false_implies, true_and]
      split at h
      next hx =>
        subst hx
        obtain ⟨n, hn, rfl⟩ := Option.map_eq_some_iff.mp h
        obtain ⟨hlength, hhex, rfl⟩ := hexDigits_some hn
        refine iff_of_true ?_ ⟨fun h => absurd h (by decide), fun h => absurd h (by decide), by decide⟩
        rw [if_pos rfl, if_neg (Nat.not_lt.mpr hlength)]
        rcases str with _ | ⟨c, _ | ⟨e, rest⟩⟩
        · exact absurd hlength (by decide)
        · exact absurd hlength (Nat.not_succ_le_self 1)
        · have hmem {b : UInt8} (hb : b ∈ [c, e]) : isHex b = true := List.all_eq_true.mp hhex b hb
          have hsmall : hexNumber [c, e] < 256 := by
            rw [hexNumber_pair]
            have hc := toDigitValue_lt_iff.mpr (hmem (b := c) (by simp))
            have he := toDigitValue_lt_iff.mpr (hmem (b := e) (by simp))
            omega
          rw [List.take_succ_cons, List.take_succ_cons, List.take_zero, readHex_pair (hmem (by simp)) (hmem (by simp)), encode_small hsmall]
          dsimp only
          rw [if_neg (by omega)]
          by_cases hlow : hexNumber [c, e] < 128
          · rw [if_pos (by omega), if_pos hlow]
            have hmod : ((hexNumber [c, e] : Int) % 256).toNat = hexNumber [c, e] := by omega
            rw [hmod]
          · rw [if_neg (by omega), if_neg hlow, Int.toNat_natCast]
      next hx =>
        rw [if_neg hx]
        split at h
        next hu =>
          subst hu
          obtain ⟨n, hn, rfl⟩ := Option.map_eq_some_iff.mp h
          have hle : n ≤ 0x10FFFF := by
            obtain ⟨hlength, hhex, rfl⟩ := hexDigits_some hn
            have hlt := hexNumber_lt hhex
            rw [List.length_take, Nat.min_eq_left hlength] at hlt
            omega
          rw [if_pos rfl, codePoint_eq_iff (by decide) hn hle]
          exact ⟨fun h => ⟨fun _ => h, fun h => absurd h (by decide), by decide⟩, fun h => h.1 rfl⟩
        next hu =>
          rw [if_neg hu]
          split at h
          next hU =>
            subst hU
            split at h
            next => cases h
            next n hn =>
              split at h
              next hle =>
                cases h
                rw [if_pos rfl, codePoint_eq_iff (by decide) hn hle]
                exact ⟨fun h => ⟨fun h => absurd h (by decide), fun _ => h, by decide⟩, fun h => h.2.1 rfl⟩
              next => cases h
          next hU =>
            rw [if_neg hU]
            split at h
            next hN =>
              subst hN
              rw [if_pos rfl]
              refine iff_of_false (fun hread => ?_) fun h => h.2.2 rfl
              rcases str with _ | ⟨c, name⟩
              · cases h
              · dsimp only at h hread
                split at h
                next => cases h
                next =>
                  split at hread
                  next => cases hread
                  next =>
                    obtain ⟨cp, -, rfl⟩ := Option.map_eq_some_iff.mp h
                    obtain ⟨cp', -, heq⟩ := Option.map_eq_some_iff.mp hread
                    have hskip := (Prod.mk.inj heq).2
                    omega
            next hN =>
              rw [if_neg hN]
              exact iff_of_true h ⟨fun hd => absurd hd hu, fun hd => absurd hd hU, hN⟩

theorem escape_iff {r : Bytes × Nat} (h : L.pythonEscape named d str = some r) :
    L.escape charFromName d str = some r ↔ EscapeOk L.isBytes d str := by
  unfold StringToken.pythonEscape at h
  unfold StringToken.escape
  cases hbytes : L.isBytes with
  | true =>
    rw [hbytes, if_pos rfl] at h
    rw [if_pos rfl]
    exact bytes_escape_iff h
  | false =>
    rw [hbytes, if_neg nofun] at h
    rw [if_neg nofun]
    exact str_escape_iff h

/-- Where all escapes are read alike, so is the text. -/
theorem unescape_of_escapes {escape escape' : UInt8 → Bytes → Option (Bytes × Nat)} {s output : Bytes}
    (hescapes : ∀ d str, Escapes escape s d str → ∀ r, escape d str = some r → escape' d str = some r)
    (h : unescape escape s = some output) : unescape escape' s = some output := by
  induction hn : s.length using Nat.strongRecOn generalizing s output with
  | ind n ih =>
    cases s with
    | nil =>
      rw [unescape] at h ⊢
      exact h
    | cons c s =>
      by_cases hc : c = 92
      · subst hc
        cases s with
        | nil =>
          rw [unescape] at h
          cases h
        | cons d s =>
          cases hescape : escape d s with
          | none =>
            rw [unescape.eq_def] at h
            simp [hescape] at h
          | some r =>
            obtain ⟨out, skip⟩ := r
            rw [unescape_escape out skip hescape] at h
            rw [unescape_escape out skip (hescapes d s (.here d s) _ hescape)]
            obtain ⟨rest, hrest, rfl⟩ := Option.map_eq_some_iff.mp h
            rw [ih _ (by rw [← hn, List.length_drop, List.length_cons, List.length_cons]; omega)
              (fun e str he => hescapes e str (.after hescape he)) hrest rfl]
            rfl
      · rw [unescape_plain hc] at h ⊢
        obtain ⟨rest, hrest, rfl⟩ := Option.map_eq_some_iff.mp h
        rw [ih _ (by rw [← hn, List.length_cons]; omega) (fun e str he => hescapes e str (.plain hc he)) hrest rfl]
        rfl

/-! ## The text between the quotes -/

theorem length_quoted (L : StringToken) : L.quoted.length = L.body.length + 2 * (if L.triple then 3 else 1) := by
  unfold StringToken.quoted StringToken.delimiter
  rw [List.length_append, List.length_append, List.length_replicate]
  omega

theorem isTripleQuote_triple (h : L.triple = true) : isTripleQuote L.quoted = true := by
  have hlength := length_quoted L
  rw [h, if_pos rfl] at hlength
  have htake : L.quoted.take 3 = [L.quote, L.quote, L.quote] := by
    unfold StringToken.quoted StringToken.delimiter
    rw [h, if_pos rfl]
    rfl
  unfold isTripleQuote
  rw [decide_eq_true (by omega), htake]
  simp [L.isQuote]

theorem isTripleQuote_letter {c : UInt8} (h : isQuote c = false) (rest : Bytes) : isTripleQuote (c :: rest) = false := by
  unfold isTripleQuote
  rw [List.take_succ_cons, List.all_cons, h, Bool.false_and, Bool.and_false]

theorem bytesText_length {text inner : Bytes} (h : bytesText text = some inner) :
    inner.length + (if isTripleQuote text then 3 else 2) ≤ text.length ∧
      (isTripleQuote text = false → inner.length + 2 = text.length) := by
  unfold bytesText at h
  cases htriple : isTripleQuote text with
  | true =>
    simp only [htriple, if_true] at h
    split at h
    next => cases h
    next hlength =>
      cases h
      rw [if_pos rfl, List.length_take, List.length_drop]
      exact ⟨by omega, nofun⟩
  | false =>
    simp only [htriple, Bool.false_eq_true, if_false] at h
    split at h
    next => cases h
    next hlength =>
      cases h
      rw [if_neg Bool.false_ne_true, List.length_take, List.length_drop]
      exact ⟨by omega, fun _ => by omega⟩

theorem strText_length {text inner : Bytes} (htext : 2 ≤ text.length) (h : strText text = some inner) :
    inner.length + (if isTripleQuote text then 3 else 2) ≤ text.length ∧
      (isTripleQuote text = false → inner.length + 2 = text.length) := by
  unfold strText substr at h
  cases htriple : isTripleQuote text with
  | true =>
    rw [htriple, if_pos rfl] at h
    split at h
    next => cases h
    next hlength =>
      cases h
      rw [if_pos rfl, List.length_take, List.length_drop]
      exact ⟨by omega, nofun⟩
  | false =>
    rw [htriple, if_neg nofun, if_neg (by omega), if_neg (by omega)] at h
    cases h
    rw [if_neg nofun, List.length_take, List.length_drop]
    exact ⟨by omega, fun _ => by omega⟩

theorem take_quoted (n : Nat) (hn : n = if L.triple then 3 else 1) :
    (L.quoted.drop n).take (L.quoted.length - 2 * n) = L.body := by
  have hlength := length_quoted L
  rw [← hn] at hlength
  have hdrop : L.quoted.drop n = L.body ++ L.delimiter := by
    unfold StringToken.quoted
    rw [List.append_assoc]
    exact List.drop_left' (by rw [StringToken.delimiter, List.length_replicate, hn])
  rw [hdrop, hlength, Nat.add_sub_cancel]
  exact List.take_left' rfl

/-- The quotes are taken for what they are. -/
def QuotesSeen (L : StringToken) : Prop := L.triple = false → isTripleQuote L.quoted = false

theorem isTripleQuote_eq (h : QuotesSeen L) : isTripleQuote L.quoted = L.triple := by
  cases htriple : L.triple with
  | true => exact isTripleQuote_triple htriple
  | false => exact h htriple

theorem bytesText_quoted_iff : bytesText L.quoted = some L.body ↔ QuotesSeen L := by
  have hlength := length_quoted L
  constructor
  · intro h htriple
    rw [htriple] at hlength
    by_contra hseen
    rw [Bool.not_eq_false] at hseen
    have hinner := (bytesText_length h).1
    rw [hseen, if_pos rfl] at hinner
    simp only [Bool.false_eq_true, if_false] at hlength
    omega
  · intro h
    unfold bytesText
    rw [isTripleQuote_eq h, if_neg (by omega)]
    exact congrArg some (take_quoted _ rfl)

theorem strText_quoted_iff : strText L.quoted = some L.body ↔ QuotesSeen L := by
  have hlength := length_quoted L
  constructor
  · intro h htriple
    rw [htriple] at hlength
    simp only [Bool.false_eq_true, if_false] at hlength
    by_contra hseen
    rw [Bool.not_eq_false] at hseen
    have hinner := (strText_length (by omega) h).1
    rw [hseen, if_pos rfl] at hinner
    omega
  · intro h
    have htake := take_quoted (L := L) _ rfl
    unfold strText
    rw [isTripleQuote_eq h]
    cases htriple : L.triple with
    | true =>
      rw [htriple, if_pos rfl] at hlength htake
      rw [if_pos rfl, substr, if_neg (by omega), if_neg (by omega), htake]
    | false =>
      rw [htriple, if_neg nofun] at hlength htake
      rw [if_neg nofun, substr, if_neg (by omega), if_neg (by omega), htake]

/-- What is left of a prefix. -/
def leftOver : Bytes → Bytes
  | [] => []
  | c :: rest => if c = 98 ∨ c = 66 ∨ c = 114 then rest else c :: rest

theorem marks_leftOver : ∀ mark ∈ marks, (leftOver mark = [] ↔ mark ∈ ([[], [98], [66], [114]] : List Bytes)) ∧
    ∀ c ∈ leftOver mark, isQuote c = false := by decide +kernel

theorem innerText_text (L : StringToken) : innerText L.text = bytesText (leftOver L.mark ++ L.quoted) ∨
    innerText L.text = strText (leftOver L.mark ++ L.quoted) := by
  unfold StringToken.text
  cases L.mark with
  | nil =>
    have hquoted : L.quoted = L.quote :: L.quoted.tail := by
      unfold StringToken.quoted StringToken.delimiter
      split <;> rfl
    have hne {c : UInt8} (hc : isQuote c = false) : L.quote ≠ c := fun h => by
      rw [← h, L.isQuote] at hc
      cases hc
    refine .inr ?_
    show innerText L.quoted = strText L.quoted
    rw [hquoted]
    show (if L.quote = 98 ∨ L.quote = 66 then _ else strText (if L.quote = 114 then _ else _)) = _
    rw [if_neg (not_or.mpr ⟨hne (by decide), hne (by decide)⟩), if_neg (hne (by decide))]
  | cons c rest =>
    have htext : innerText (c :: rest ++ L.quoted) = if c = 98 ∨ c = 66 then bytesText (rest ++ L.quoted)
      else strText (if c = 114 then rest ++ L.quoted else c :: (rest ++ L.quoted)) := rfl
    rw [htext]
    have hpos (h : c = 98 ∨ c = 66 ∨ c = 114) : leftOver (c :: rest) = rest := if_pos h
    have hneg (h : ¬(c = 98 ∨ c = 66 ∨ c = 114)) : leftOver (c :: rest) = c :: rest := if_neg h
    by_cases hbytes : c = 98 ∨ c = 66
    · rw [if_pos hbytes, hpos (or_assoc.mp (.inl hbytes))]
      exact .inl rfl
    · rw [if_neg hbytes]
      by_cases hraw : c = 114
      · rw [if_pos hraw, hpos (.inr (.inr hraw))]
        exact .inr rfl
      · rw [if_neg hraw, hneg fun h => (or_assoc.mpr h).elim hbytes hraw]
        exact .inr rfl

/-- The letters of a prefix that are left over stay in the text. -/
theorem text_iff : innerText L.text = some L.body ↔ L.mark ∈ ([[], [98], [66], [114]] : List Bytes) ∧ QuotesSeen L := by
  obtain ⟨hmark, hletters⟩ := marks_leftOver L.mark L.mark_mem
  have hlength := length_quoted L
  have hfirst : innerText L.text = bytesText (leftOver L.mark ++ L.quoted) ∨
      innerText L.text = strText (leftOver L.mark ++ L.quoted) := innerText_text L
  rw [← hmark]
  cases hleft : leftOver L.mark with
  | nil =>
    rw [hleft, List.nil_append] at hfirst
    rw [and_iff_right rfl]
    rcases hfirst with hfirst | hfirst
    · rw [hfirst]
      exact bytesText_quoted_iff
    · rw [hfirst]
      exact strText_quoted_iff
  | cons c rest =>
    refine iff_of_false (fun h => ?_) fun h => by cases h.1
    rw [hleft] at hfirst hletters
    have hsingle : isTripleQuote (c :: rest ++ L.quoted) = false :=
      isTripleQuote_letter (hletters c List.mem_cons_self) _
    have htotal : (c :: rest ++ L.quoted).length = rest.length + 1 + L.quoted.length := by
      rw [List.length_append, List.length_cons]
    have hone : 1 ≤ if L.triple then 3 else 1 := by
      split <;> decide
    rcases hfirst with hfirst | hfirst
    · have hinner := (bytesText_length (hfirst.symm.trans h)).2 hsingle
      omega
    · have hinner := (strText_length (by omega) (hfirst.symm.trans h)).2 hsingle
      omega

/-! ## The constant -/

theorem parseBytes_eq (text : Bytes) : parseBytes text = (bytesText text).bind PyBytes.fromUnescapedString := by
  unfold parseBytes bytesText
  dsimp only
  split <;> split <;> rfl

/-- The constant of a token whose text is found. -/
theorem constant_text (charFromName : Bytes → Option Int) (hmark : L.mark ∈ ([[], [98], [66], [114]] : List Bytes))
    (hquotes : QuotesSeen L) : PyString.constant charFromName L.text =
      (if L.isRaw then some L.body else unescape (L.escape charFromName) L.body).map
        (if L.isBytes then .bytes else .str) := by
  have hbytes := bytesText_quoted_iff.mpr hquotes
  have hstr := strText_quoted_iff.mpr hquotes
  have hquoted : L.quoted = L.quote :: L.quoted.tail := by
    unfold StringToken.quoted StringToken.delimiter
    split <;> rfl
  have hletters := L.isQuote
  obtain ⟨mark, quote, triple, body, hmem, hquote⟩ := L
  simp only [List.mem_cons, List.not_mem_nil, or_false] at hmark
  rcases hmark with rfl | rfl | rfl | rfl
  · have hne {c : UInt8} (hc : isQuote c = false) : quote ≠ c := fun h => by
      have hquote : isQuote quote = true := hletters
      rw [h, hc] at hquote
      cases hquote
    have hraw : decide (quote = 114) = false := decide_eq_false (hne (by decide))
    show PyString.constant charFromName (StringToken.quoted ⟨[], quote, triple, body, hmem, hquote⟩) = _
    rw [hquoted] at hstr ⊢
    unfold PyString.constant
    dsimp only
    rw [if_neg (not_or.mpr ⟨hne (by decide), hne (by decide)⟩), hraw]
    simp only [Bool.false_eq_true, if_false]
    show ((strText _).bind _).map _ = _
    rw [hstr]
    rfl
  · show (parseBytes (StringToken.quoted ⟨[98], quote, triple, body, hmem, hquote⟩)).map Constant.bytes = _
    rw [parseBytes_eq, hbytes]
    rfl
  · show (parseBytes (StringToken.quoted ⟨[66], quote, triple, body, hmem, hquote⟩)).map Constant.bytes = _
    rw [parseBytes_eq, hbytes]
    rfl
  · show (strText (StringToken.quoted ⟨[114], quote, triple, body, hmem, hquote⟩)).map Constant.str = _
    rw [hstr]
    rfl

/-- **Literals.** A token is read as Python reads it exactly if it is readable. -/
theorem literalRight_iff (named : Bytes → Option Nat) (charFromName : Bytes → Option Int) (L : StringToken) :
    LiteralRight named charFromName L ↔ Readable named L := by
  constructor
  · intro h
    obtain ⟨hmark, hquotes⟩ := text_iff.mp h.text
    refine { mark := hmark, quotes := hquotes, escapes := fun hraw d str hd hsome => ?_ }
    obtain ⟨r, hr⟩ := Option.isSome_iff_exists.mp hsome
    exact (escape_iff hr).mp (h.escapes hraw d str hd r hr)
  · intro h
    have hescapes (hraw : L.isRaw = false) (d : UInt8) (str : Bytes) (hd : Escapes (L.pythonEscape named) L.body d str)
        (r : Bytes × Nat) (hr : L.pythonEscape named d str = some r) : L.escape charFromName d str = some r :=
      (escape_iff hr).mpr (h.escapes hraw d str hd (Option.isSome_iff_exists.mpr ⟨r, hr⟩))
    refine { text := text_iff.mpr ⟨h.mark, h.quotes⟩, escapes := hescapes, constant := fun c hc => ?_ }
    unfold StringToken.pythonConstant at hc
    split at hc
    next => cases hc
    next =>
      obtain ⟨output, houtput, rfl⟩ := Option.map_eq_some_iff.mp hc
      rw [constant_text charFromName h.mark h.quotes]
      cases hraw : L.isRaw with
      | true =>
        rw [hraw, if_pos rfl] at houtput
        rw [if_pos rfl, houtput]
        rfl
      | false =>
        rw [hraw, if_neg Bool.false_ne_true] at houtput
        rw [if_neg Bool.false_ne_true, unescape_of_escapes (hescapes hraw) houtput]
        rfl

/-- `u'a'` -/
def markedU : StringToken := ⟨[117], 39, false, [97], by decide, rfl⟩

/-- The prefix `u` leaves a quote in the string. -/
theorem markedU_not_right : (∃ L : Lex.Lexer, Lex.Lexer.readTimes ['u', '\'', 'a', '\'', '\n'] 1 {} = .ok L ∧
      L.tokens = [⟨.string, ⟨0, 0, 0⟩, ⟨0, 4, 4⟩⟩]) ∧
    markedU.text = [117, 39, 97, 39] ∧ ¬ ∀ named charFromName, LiteralRight named charFromName markedU := by
  refine ⟨⟨_, rfl, rfl⟩, rfl, fun h => ?_⟩
  exact absurd (h (fun _ => none) fun _ => none).text (by decide)

end Pylang.Runtime.StringLiteral
