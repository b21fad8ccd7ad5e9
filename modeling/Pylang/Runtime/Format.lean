/-
`PyString::format`, and the templates it fills in as Python does.

The loop keeps a place in the bytes and one in the code points, and looks for
the end of a field from the place in the bytes among the code points: a field
behind a character of more than one byte is lost. A doubled closing brace is
copied as it stands, a lone one as well, and a field has no index, no accessor
and no format specification.
-/
import Mathlib
import Pylang.Lib.ListFacts
import Pylang.Runtime.Utf8

namespace Pylang.Runtime.Format

inductive Conversion where
  | repr | str | ascii
deriving DecidableEq

/-- `PyString::ReplacementField`; nothing sets its format specification. -/
structure ReplacementField where
  fieldName : Option Bytes := none
  conversion : Option Conversion := none
  formatSpec : Option Bytes := none
  start : Nat
  stop : Nat
deriving DecidableEq

/-- How a call ends without a string; `raised` is an exception of `str`, `repr` or `ascii`. -/
inductive FormatStop (E : Type) where
  | valueError (message : String)
  | indexError (message : String)
  | keyError (name : Bytes)
  | notImplementedError (message : String)
  | notImplementedField (field : Bytes)
  | raised (e : E)
  | abort
  | undefined
deriving DecidableEq

/-- A character of one byte, as a `char`. -/
def byte (c : Char) : UInt8 := UInt8.ofNat c.toNat

/-- `utf8::codepoint_length`, of a code point; `none` where the assertion fails. -/
def pointLength (cp : Nat) : Option Nat :=
  if cp ≤ 0x7F then some 1
  else if cp ≤ 0x7FF then some 2
  else if cp ≤ 0xFFFF then some 3
  else if cp ≤ 0x10FFFF then some 4
  else none

/-- `ReplacementField::get_conversion`. -/
def getConversion (c : UInt8) : Option Conversion :=
  if c = byte 'r' then some .repr
  else if c = byte 's' then some .str
  else if c = byte 'a' then some .ascii
  else none

section
variable {E : Type}

/-- `parse_format`, behind the field name. -/
def parseConversion (field : ReplacementField) : Bytes → Except (FormatStop E) ReplacementField
  | [] => .ok field
  | c :: str =>
    if c = byte '!' then
      match str with
      | [] => .error .undefined
      | d :: _ =>
        match getConversion d with
        | none => .error .undefined
        | some conversion =>
          if str.contains (byte ':') then .error (.notImplementedError "Format spec in str.format not implemented")
          else .ok { field with conversion := some conversion }
    else if c = byte ':' then .error (.notImplementedError "Format spec in str.format not implemented")
    else .error .abort

def parseFormat (str : Bytes) (start stop : Nat) : Except (FormatStop E) ReplacementField :=
  if str.head? ≠ some (byte '{') ∨ str.getLast? ≠ some (byte '}') then .error .abort
  else
    let field : ReplacementField := { start := start, stop := stop }
    let str := (str.drop 1).take (str.length - 2)
    let name := str.takeWhile fun c => !(c = byte '!' || c = byte ':')
    if name = [] then parseConversion field str
    else parseConversion { field with fieldName := some name } (str.drop name.length)

/-- The place in the bytes and the place in the code points. -/
structure Cursor where
  start : Nat
  index : Nat
deriving DecidableEq

def increment (value : Bytes) (cps : List Nat) : Nat → Cursor → Except (FormatStop E) Cursor
  | 0, cursor => .ok cursor
  | count + 1, cursor =>
    match cps[cursor.index]? with
    | none => .error .abort
    | some cp =>
      if cursor.start < value.length then
        match pointLength cp with
        | none => .error .abort
        | some n => increment value cps count ⟨cursor.start + n, cursor.index + 1⟩
      else .error .abort

end

section
variable {Obj E : Type}

/-- What `str`, `repr` and `ascii` of an object are. -/
structure Texts (Obj E : Type) where
  str : Obj → Except E Bytes
  repr : Obj → Except E Bytes
  ascii : Obj → Except E Bytes

def Texts.convert (texts : Texts Obj E) : Option Conversion → Obj → Except E Bytes
  | some .repr => texts.repr
  | some .ascii => texts.ascii
  | some .str => texts.str
  | none => texts.str

/-- The argument of a field, and the positional arguments that are taken then. -/
def fieldArgument (args : Option (List Obj)) (kwargs : Option (Bytes → Option Obj)) (argsIndex : Nat) :
    Option Bytes → Except (FormatStop E) (Obj × Nat)
  | some name =>
    match kwargs.bind (· name) with
    | none => .error (.keyError name)
    | some obj => .ok (obj, argsIndex)
  | none =>
    match (args.getD [])[argsIndex]? with
    | none => .error 
      (.indexError ("Replacement index " ++ toString argsIndex ++ " out of range for positional args tuple"))
    | some obj => .ok (obj, argsIndex + 1)

section
variable (value : Bytes) (cps : List Nat) (texts : Texts Obj E) (args : Option (List Obj))
  (kwargs : Option (Bytes → Option Obj))

/-- The text of a field, and the positional arguments that are taken then. -/
def fieldText (field : ReplacementField) (argsIndex : Nat) : Except (FormatStop E) (Bytes × Nat) := do
  let (obj, argsIndex) ← fieldArgument args kwargs argsIndex field.fieldName
  let text ← (texts.convert field.conversion obj).mapError .raised
  if field.formatSpec.isSome then .error (.notImplementedField ((value.drop (field.start + 1)).take (field.stop - field.start - 2)))
  else .ok (text, argsIndex)

/-- The loop of `format`. Every turn moves the cursor, so that one turn more than there are code points is enough. -/
def formatLoop : Nat → Cursor → Nat → Bytes → Except (FormatStop E) Bytes
  | 0, _, _, _ => .error .abort
  | fuel + 1, cursor, argsIndex, newString =>
    match cps[cursor.index]? with
    | none => .ok newString
    | some cp =>
      if cp = '{'.toNat then
        match cps[cursor.index + 1]? with
        | none => .error .undefined
        | some next =>
          if next = '{'.toNat then do
            let cursor ← increment value cps 2 cursor
            formatLoop fuel cursor argsIndex (newString ++ [byte '{'])
          else if cps.length < cursor.start then .error .undefined
          else
            match (cps.drop cursor.start).findIdx? (· = '}'.toNat) with
            | none => .error (.valueError "Single '\x7b' encountered in format string")
            | some distance => do
              let stop := distance + 1
              let field ← parseFormat ((value.drop cursor.start).take stop) cursor.start (cursor.start + stop)
              let (text, argsIndex) ← fieldText value texts args kwargs field argsIndex
              let cursor ← increment value cps (field.stop - cursor.start - 1 + 1) cursor
              formatLoop fuel cursor argsIndex (newString ++ text)
      else
        match pointLength cp with
        | none => .error .abort
        | some n => do
          let newString := newString ++ (value.drop cursor.start).take n
          let cursor ← increment value cps 1 cursor
          formatLoop fuel cursor argsIndex newString

end

/-- `PyString::format`. -/
def format (value : Bytes) (texts : Texts Obj E) (args : Option (List Obj)) (kwargs : Option (Bytes → Option Obj)) :
    Except (FormatStop E) Bytes :=
  match codepoints value with
  | none => .error .abort
  | some cps => formatLoop value cps texts args kwargs (cps.length + 1) ⟨0, 0⟩ 0 []

end

/-! ## Templates -/

/-- The characters that mean something in a field. -/
def isSpecial (c : Char) : Bool := ['{', '}', '[', ']', '.', '!', ':'].contains c

/-- What a field names: the next positional argument, one by its index, or a keyword. -/
inductive Arg where
  | auto
  | index (digits : List Char) (h : digits ≠ [] ∧ ∀ c ∈ digits, c.isDigit = true)
  | named (name : List Char) (h : (∃ c ∈ name.head?, c.isDigit = false) ∧ ∀ c ∈ name, isSpecial c = false)

inductive Accessor where
  | attributeName (name : List Char) (h : name ≠ [] ∧ ∀ c ∈ name, isSpecial c = false)
  | elementIndex (key : List Char) (h : key ≠ [] ∧ ']' ∉ key)

/-- The braces of a format specification are those of fields within it. -/
def balanced : Nat → List Char → Bool
  | depth, [] => depth = 0
  | depth, c :: s =>
    if c = '{' then balanced (depth + 1) s
    else if c = '}' then
      match depth with
      | 0 => false
      | depth + 1 => balanced depth s
    else balanced depth s

structure Field where
  arg : Arg
  accessors : List Accessor
  conversion : Option Conversion
  spec : Option {spec : List Char // balanced 0 spec = true}

inductive Piece where
  | char (c : Char) (h : c ≠ '{' ∧ c ≠ '}')
  | openBrace
  | closeBrace
  | field (f : Field)

/-- What comes behind the pieces: nothing, or a brace that opens no field or closes none, and any text. -/
inductive Tail where
  | done
  | loneOpen (rest : List Char) (h : rest.head? ≠ some '{' ∧ '}' ∉ rest)
  | loneClose (rest : List Char) (h : rest.head? ≠ some '}')

structure Template where
  pieces : List Piece
  tail : Tail
  /-- Fields that are numbered and fields that are not do not go together. -/
  numbering : (∀ f, .field f ∈ pieces → f.arg ≠ .auto) ∨ ∀ f, .field f ∈ pieces → ∀ digits h, f.arg ≠ .index digits h

/-! ### Their text -/

def Arg.text : Arg → List Char
  | .auto => []
  | .index digits _ => digits
  | .named name _ => name

def Accessor.text : Accessor → List Char
  | .attributeName name _ => '.' :: name
  | .elementIndex key _ => '[' :: (key ++ [']'])

def Conversion.letter : Conversion → Char
  | .repr => 'r'
  | .str => 's'
  | .ascii => 'a'

def conversionText : Option Conversion → List Char
  | none => []
  | some c => ['!', c.letter]

def specText : Option {spec : List Char // balanced 0 spec = true} → List Char
  | none => []
  | some spec => ':' :: spec

/-- A field without its braces. -/
def Field.inner (f : Field) : List Char :=
  f.arg.text ++ (f.accessors.flatMap Accessor.text ++ (conversionText f.conversion ++ specText f.spec))

def Piece.text : Piece → List Char
  | .char c _ => [c]
  | .openBrace => ['{', '{']
  | .closeBrace => ['}', '}']
  | .field f => '{' :: (f.inner ++ ['}'])

def Tail.text : Tail → List Char
  | .done => []
  | .loneOpen rest _ => '{' :: rest
  | .loneClose rest _ => '}' :: rest

def piecesText (ps : List Piece) : List Char := ps.flatMap Piece.text

def Template.text (t : Template) : List Char := piecesText t.pieces ++ t.tail.text

/-! ### Their meaning -/

/-- What the objects are, as far as a field asks for it. -/
structure World (Obj E : Type) where
  str : Obj → Except E (List Char)
  repr : Obj → Except E (List Char)
  ascii : Obj → Except E (List Char)
  access : Obj → Accessor → Option Obj
  /-- With a specification; without one, the format of an object is its `str`. -/
  format : Obj → List Char → Option (List Char)
  formatText : List Char → List Char → Option (List Char)

section
variable {Obj E : Type} (world : World Obj E)

def World.texts : Texts Obj E where
  str := fun obj => (world.str obj).map utf8
  repr := fun obj => (world.repr obj).map utf8
  ascii := fun obj => (world.ascii obj).map utf8

def World.convert (obj : Obj) : Conversion → Option (List Char)
  | .repr => (world.repr obj).toOption
  | .str => (world.str obj).toOption
  | .ascii => (world.ascii obj).toOption

section
variable (args : Option (List Obj)) (kwargs : Option (Bytes → Option Obj))

/-- The argument a field names, where `next` of the positional ones are taken. -/
def Arg.object (next : Nat) : Arg → Option Obj
  | .auto => (args.getD [])[next]?
  | .index digits _ => (args.getD [])[digits.foldl (fun n c => 10 * n + (c.toNat - '0'.toNat)) 0]?
  | .named name _ => kwargs.bind (· (utf8 name))

def Field.value (f : Field) (next : Nat) : Option (List Char) := do
  let obj ← f.arg.object args kwargs next
  let obj ← f.accessors.foldlM world.access obj
  match f.conversion, f.spec with
  | none, none => (world.str obj).toOption
  | none, some spec => world.format obj spec
  | some c, none => world.convert obj c
  | some c, some spec => do world.formatText (← world.convert obj c) spec

def Arg.uses : Arg → Nat
  | .auto => 1
  | .index _ _ => 0
  | .named _ _ => 0

def Piece.uses : Piece → Nat
  | .field f => f.arg.uses
  | _ => 0

/-- What stands for a piece, `close` for a doubled closing brace. -/
def Piece.value (close : List Char) (next : Nat) : Piece → Option (List Char)
  | .char c _ => some [c]
  | .openBrace => some ['{']
  | .closeBrace => some close
  | .field f => f.value world args kwargs next

/-- The pieces in a row; `none` where the arguments do not match the fields. -/
def piecesValue (close : List Char) : Nat → List Piece → Option (List Char)
  | _, [] => some []
  | next, p :: ps => do
    let v ← p.value world args kwargs close next
    let vs ← piecesValue close (next + p.uses) ps
    some (v ++ vs)

end

end

/-- With arguments that match its fields, the template is filled in, and a lone brace raises `ValueError`. -/
def FormatsRight (t : Template) : Prop :=
  ∀ (Obj E : Type) (world : World Obj E) (args : Option (List Obj)) (kwargs : Option (Bytes → Option Obj))
    (v : List Char), piecesValue world args kwargs ['}'] 0 t.pieces = some v →
    match t.tail with
    | .done => format (utf8 t.text) world.texts args kwargs = .ok (utf8 v)
    | _ => ∃ message, format (utf8 t.text) world.texts args kwargs = .error (.valueError message)

/-! ## What the code does with them -/

/-- A field that is automatic or names a keyword, and has no accessor and no specification. -/
def Field.Supported (f : Field) : Prop :=
  (∀ digits h, f.arg ≠ .index digits h) ∧ f.accessors = [] ∧ f.spec = none

/-- Every field is supported and stands behind and consists of characters of one byte; no closing brace is doubled, or a
lone brace opens and has text of no closing brace behind it. -/
structure Formattable (t : Template) : Prop where
  fields : ∀ f, .field f ∈ t.pieces → f.Supported
  ascii : ∀ pre f post, t.pieces = pre ++ .field f :: post → ∀ c ∈ piecesText (pre ++ [.field f]), isAscii c = true
  tail : match t.tail with
    | .done => .closeBrace ∉ t.pieces
    | .loneOpen rest _ => rest ≠ [] ∧ ∀ c ∈ piecesText t.pieces, isAscii c = true
    | .loneClose _ _ => False

/-! ## One turn -/

/-- The place behind some of the text. -/
def place (pre : List Char) : Cursor := ⟨(utf8 pre).length, pre.length⟩

theorem pointLength_toNat (c : Char) : pointLength c.toNat = some (String.utf8EncodeChar c).length := by
  have hvalid := toNat_valid c
  rw [pointLength, utf8EncodeChar_eq]
  split
  · rfl
  split
  · rfl
  split
  · rfl
  · rw [if_pos (by omega)]
    rfl

theorem points_get (pre suf : List Char) (c : Char) : (points (pre ++ c :: suf))[pre.length]? = some c.toNat := by
  simp [points]

section
variable {Obj E : Type}

theorem increment_utf8 {s : List Char} : ∀ (mid pre suf : List Char), s = pre ++ (mid ++ suf) →
    increment (E := E) (utf8 s) (points s) mid.length (place pre) = .ok (place (pre ++ mid)) := by
  intro mid
  induction mid with
  | nil =>
    intro pre suf hs
    rw [List.append_nil]
    rfl
  | cons c mid ih =>
    intro pre suf hs
    have hget : (points s)[(place pre).index]? = some c.toNat := by
      rw [hs]
      exact points_get pre (mid ++ suf) c
    have hlt : (place pre).start < (utf8 s).length := by
      have hone := (length_utf8EncodeChar c).1
      rw [hs, utf8_append, List.cons_append, utf8_cons]
      simp only [List.length_append, place]
      omega
    have hnext : place (pre ++ [c]) = ⟨(place pre).start + (String.utf8EncodeChar c).length, (place pre).index + 1⟩ := by
      simp [place, utf8]
    rw [List.length_cons, increment, hget]
    dsimp only
    rw [if_pos hlt, pointLength_toNat]
    dsimp only
    rw [← hnext, ih (pre ++ [c]) suf (by rw [hs, List.append_assoc]; rfl), List.append_assoc]
    rfl

variable {s pre suf : List Char} (texts : Texts Obj E) (args : Option (List Obj)) (kwargs : Option (Bytes → Option Obj))
  (fuel n : Nat) (out : Bytes)

theorem turn_char {c : Char} (hs : s = pre ++ c :: suf) (hc : c ≠ '{') :
    formatLoop (utf8 s) (points s) texts args kwargs (fuel + 1) (place pre) n out =
      formatLoop (utf8 s) (points s) texts args kwargs fuel (place (pre ++ [c])) n (out ++ utf8 [c]) := by
  have hget : (points s)[(place pre).index]? = some c.toNat := by
    rw [hs]
    exact points_get pre suf c
  have htake : ((utf8 s).drop (place pre).start).take (String.utf8EncodeChar c).length = utf8 [c] := by
    rw [hs, utf8_append, utf8_cons]
    simp [place, utf8]
  have hstep := increment_utf8 (E := E) [c] pre suf hs
  rw [formatLoop, hget]
  dsimp only
  rw [if_neg fun h => hc (toNat_injective h), pointLength_toNat]
  dsimp only
  rw [htake]
  exact congrArg (· >>= fun cursor => formatLoop (utf8 s) (points s) texts args kwargs fuel cursor n (out ++ utf8 [c])) hstep

theorem turn_open (hs : s = pre ++ '{' :: '{' :: suf) :
    formatLoop (utf8 s) (points s) texts args kwargs (fuel + 1) (place pre) n out =
      formatLoop (utf8 s) (points s) texts args kwargs fuel (place (pre ++ ['{', '{'])) n (out ++ utf8 ['{']) := by
  have hget : (points s)[(place pre).index]? = some '{'.toNat := by
    rw [hs]
    exact points_get pre _ '{'
  have hnext : (points s)[(place pre).index + 1]? = some '{'.toNat := by
    rw [hs]
    simp [points, place]
  have hstep := increment_utf8 (E := E) ['{', '{'] pre suf hs
  rw [formatLoop, hget]
  dsimp only
  rw [if_pos rfl, hnext]
  dsimp only
  rw [if_pos rfl]
  exact congrArg (· >>= fun cursor => formatLoop (utf8 s) (points s) texts args kwargs fuel cursor n (out ++ [byte '{'])) hstep

theorem place_ascii (h : ∀ c ∈ pre, isAscii c = true) : (place pre).start = pre.length := length_utf8_eq_iff.2 h

theorem findIdx?_close {l : List Char} (h : '}' ∉ l) (suf : List Char) :
    (points (l ++ '}' :: suf)).findIdx? (· = '}'.toNat) = some l.length := by
  induction l with
  | nil => rfl
  | cons c l ih =>
    obtain ⟨hc, hl⟩ : '}' ≠ c ∧ '}' ∉ l := by simpa using h
    have hne : ¬ c.toNat = '}'.toNat := fun heq => hc (toNat_injective heq.symm)
    rw [List.cons_append, points_cons, List.findIdx?_cons, if_neg (by simpa using hne), ih hl]
    rfl

theorem findIdx?_none {l : List Char} (h : '}' ∉ l) : (points l).findIdx? (· = '}'.toNat) = none := by
  rw [List.findIdx?_eq_none_iff]
  intro x hx
  obtain ⟨c, hc, rfl⟩ := List.mem_map.1 hx
  have hne : ¬ c.toNat = '}'.toNat := fun heq => h (toNat_injective heq ▸ hc)
  simpa using hne

theorem points_drop (hpre : ∀ c ∈ pre, isAscii c = true) : (points (pre ++ suf)).drop (place pre).start = points suf := by
  rw [place_ascii hpre, points_append]
  exact List.drop_left' (by simp [points])

/-- Behind ASCII characters a field is what stands before the next closing brace. -/
theorem turn_field {inner : List Char} (hs : s = pre ++ '{' :: (inner ++ '}' :: suf)) (hpre : ∀ c ∈ pre, isAscii c = true)
    (hinner : ∀ c ∈ inner, isAscii c = true) (hclose : '}' ∉ inner) (hopen : inner.head? ≠ some '{') :
    formatLoop (utf8 s) (points s) texts args kwargs (fuel + 1) (place pre) n out = (do
      let field ← parseFormat (utf8 ('{' :: (inner ++ ['}']))) (place pre).start ((place pre).start + (inner.length + 2))
      let (text, n) ← fieldText (utf8 s) texts args kwargs field n
      let cursor ← increment (utf8 s) (points s) (field.stop - (place pre).start - 1 + 1) (place pre)
      formatLoop (utf8 s) (points s) texts args kwargs fuel cursor n (out ++ text)) := by
  have hget : (points s)[(place pre).index]? = some '{'.toNat := by
    rw [hs]
    exact points_get pre _ '{'
  obtain ⟨x, hx, hnext⟩ : ∃ x : Char, x ≠ '{' ∧ (points s)[(place pre).index + 1]? = some x.toNat := by
    cases inner with
    | nil => exact ⟨'}', by decide, by rw [hs]; simp [points, place]⟩
    | cons c inner => exact ⟨c, fun h => hopen (by rw [h]; rfl), by rw [hs]; simp [points, place]⟩
  have hsize : ¬ (points s).length < (place pre).start := by
    rw [place_ascii hpre, hs]
    simp [points]
  have hfind : ((points s).drop (place pre).start).findIdx? (· = '}'.toNat) = some (inner.length + 1) := by
    rw [hs, points_drop hpre]
    exact findIdx?_close (l := '{' :: inner) (by simpa using hclose) suf
  have hbytes : (utf8 ('{' :: (inner ++ ['}']))).length = inner.length + 2 := by
    have hall : ∀ c ∈ '{' :: (inner ++ ['}']), isAscii c = true := by
      intro c hc
      rcases List.mem_cons.1 hc with rfl | hc
      · rfl
      rcases List.mem_append.1 hc with hc | hc
      · exact hinner c hc
      · rw [List.mem_singleton.1 hc]
        rfl
    rw [length_utf8_eq_iff.2 hall]
    simp
  have htake : ((utf8 s).drop (place pre).start).take (inner.length + 2) = utf8 ('{' :: (inner ++ ['}'])) := by
    have hsplit : utf8 s = utf8 pre ++ (utf8 ('{' :: (inner ++ ['}'])) ++ utf8 suf) := by
      rw [hs, ← utf8_append, ← utf8_append]
      simp
    rw [hsplit, show (place pre).start = (utf8 pre).length from rfl, List.drop_left, ← hbytes, List.take_left]
  rw [formatLoop, hget]
  dsimp only
  rw [if_pos rfl, hnext]
  dsimp only
  rw [if_neg fun h => hx (toNat_injective h), if_neg hsize, hfind]
  dsimp only
  rw [show inner.length + 1 + 1 = inner.length + 2 from rfl, htake]

/-- Behind ASCII characters an opening brace that no brace closes is reported, unless it is the last character. -/
theorem turn_loneOpen {rest : List Char} (hs : s = pre ++ '{' :: rest) (hpre : ∀ c ∈ pre, isAscii c = true)
    (hopen : rest.head? ≠ some '{') (hclose : '}' ∉ rest) :
    formatLoop (utf8 s) (points s) texts args kwargs (fuel + 1) (place pre) n out =
      if rest = [] then .error .undefined else .error (.valueError "Single '\x7b' encountered in format string") := by
  have hget : (points s)[(place pre).index]? = some '{'.toNat := by
    rw [hs]
    exact points_get pre _ '{'
  rw [formatLoop, hget]
  dsimp only
  rw [if_pos rfl]
  cases rest with
  | nil =>
    have hnext : (points s)[(place pre).index + 1]? = none := by
      rw [hs]
      simp [points, place]
    rw [hnext]
    rfl
  | cons c rest =>
    have hnext : (points s)[(place pre).index + 1]? = some c.toNat := by
      rw [hs]
      simp [points, place]
    have hsize : ¬ (points s).length < (place pre).start := by
      rw [place_ascii hpre, hs]
      simp [points]
    have hfind : ((points s).drop (place pre).start).findIdx? (· = '}'.toNat) = none := by
      rw [hs, points_drop hpre]
      exact findIdx?_none (by simpa using hclose)
    rw [hnext]
    dsimp only
    rw [if_neg fun h => hopen (by rw [toNat_injective h]; rfl), if_neg hsize, hfind]
    rfl

end

/-! ## Fields -/

section
variable {Obj E : Type} {args : Option (List Obj)} {kwargs : Option (Bytes → Option Obj)} {n : Nat}

theorem utf8_eq_map {l : List Char} (h : ∀ c ∈ l, isAscii c = true) : utf8 l = l.map byte := by
  induction l with
  | nil => rfl
  | cons c l ih =>
    obtain ⟨hc, hl⟩ := List.forall_mem_cons.1 h
    rw [utf8_cons, utf8EncodeChar_ascii hc, ih hl]
    rfl

theorem byte_eq_iff {c d : Char} (hc : isAscii c = true) (hd : isAscii d = true) : byte c = byte d ↔ c = d := by
  rw [isAscii, decide_eq_true_eq] at hc hd
  refine ⟨fun h => toNat_injective ?_, fun h => by rw [h]⟩
  have hnat := congrArg UInt8.toNat h
  rwa [byte, byte, toNat_ofNat (by omega), toNat_ofNat (by omega)] at hnat

/-- The part of a field before its conversion and its specification. -/
def isName (c : Char) : Bool := !(c = '!' || c = ':')

theorem takeWhile_name {l : List Char} (h : ∀ c ∈ l, isAscii c = true) :
    (l.map byte).takeWhile (fun c => !(c = byte '!' || c = byte ':')) = (l.takeWhile isName).map byte := by
  induction l with
  | nil => rfl
  | cons c l ih =>
    obtain ⟨hc, hl⟩ := List.forall_mem_cons.1 h
    have hiff : (!(byte c = byte '!' || byte c = byte ':') : Bool) = isName c := by
      unfold isName
      simp only [byte_eq_iff hc (show isAscii '!' = true from rfl), byte_eq_iff hc (show isAscii ':' = true from rfl)]
    rw [List.map_cons, List.takeWhile_cons, List.takeWhile_cons, hiff]
    cases isName c with
    | true => exact congrArg (byte c :: ·) (ih hl)
    | false => rfl

/-- `parse_format`, of what stands between the braces. -/
theorem parseFormat_inner {inner : List Char} (h : ∀ c ∈ inner, isAscii c = true) (start stop : Nat) :
    parseFormat (E := E) (utf8 ('{' :: (inner ++ ['}']))) start stop =
      if inner.takeWhile isName = [] then parseConversion { start := start, stop := stop } (utf8 inner)
      else parseConversion { start := start, stop := stop, fieldName := some (utf8 (inner.takeWhile isName)) }
        (utf8 (inner.dropWhile isName)) := by
  have hbraces : utf8 ('{' :: (inner ++ ['}'])) = byte '{' :: (utf8 inner ++ [byte '}']) := by
    rw [utf8_cons, utf8_append]
    rfl
  have hmiddle : ((byte '{' :: (utf8 inner ++ [byte '}'])).drop 1).take
      ((byte '{' :: (utf8 inner ++ [byte '}'])).length - 2) = utf8 inner := by
    rw [List.drop_one, List.tail_cons]
    simp
  have hname : (utf8 inner).takeWhile (fun c => !(c = byte '!' || c = byte ':')) = utf8 (inner.takeWhile isName) := by
    rw [utf8_eq_map h, takeWhile_name h]
    exact (utf8_eq_map fun c hc => h c ((List.takeWhile_sublist isName).mem hc)).symm
  have hnil : utf8 (inner.takeWhile isName) = [] ↔ inner.takeWhile isName = [] := by
    refine ⟨fun heq => utf8_injective (heq.trans utf8_nil.symm), fun heq => by rw [heq]; rfl⟩
  have hrest : (utf8 inner).drop (utf8 (inner.takeWhile isName)).length = utf8 (inner.dropWhile isName) := by
    have hsplit : utf8 inner = utf8 (inner.takeWhile isName) ++ utf8 (inner.dropWhile isName) := by
      rw [← utf8_append, List.takeWhile_append_dropWhile]
    rw [hsplit, List.drop_left]
  have hends : ¬ ((byte '{' :: (utf8 inner ++ [byte '}'])).head? ≠ some (byte '{') ∨
      (byte '{' :: (utf8 inner ++ [byte '}'])).getLast? ≠ some (byte '}')) := by
    rw [← List.cons_append, List.getLast?_concat]
    simp
  unfold parseFormat
  rw [hbraces, if_neg hends]
  dsimp only
  rw [hmiddle, hname]
  simp only [hnil]
  split
  · rfl
  · rw [hrest]

/-- What `parse_format` makes of a field it supports. -/
def Field.parsed (f : Field) (start stop : Nat) : ReplacementField where
  fieldName := if f.arg.text = [] then none else some (utf8 f.arg.text)
  conversion := f.conversion
  start := start
  stop := stop

theorem parseConversion_text (field : ReplacementField) (c : Option Conversion) (hfield : field.conversion = none) :
    parseConversion (E := E) field (utf8 (conversionText c)) = .ok { field with conversion := c } := by
  obtain ⟨name, conversion, spec, start, stop⟩ := field
  obtain rfl : conversion = none := hfield
  cases c with
  | none => rfl
  | some c =>
    cases c with
    | repr => rfl
    | str => rfl
    | ascii => rfl

theorem Field.Supported.inner_eq {f : Field} (h : f.Supported) : f.inner = f.arg.text ++ conversionText f.conversion := by
  rw [Field.inner, h.2.1, h.2.2]
  simp [specText]

theorem isName_of_not_special {c : Char} (h : isSpecial c = false) : isName c = true := by
  have hne : c ≠ '!' ∧ c ≠ ':' := by
    constructor
    · intro heq
      rw [heq] at h
      exact absurd h (by decide)
    · intro heq
      rw [heq] at h
      exact absurd h (by decide)
  simp [isName, hne.1, hne.2]

theorem Arg.text_isName : ∀ (a : Arg), ∀ c ∈ a.text, isName c = true
  | .auto, _, hc => absurd hc List.not_mem_nil
  | .index digits h, c, hc => by
    have hdigit := h.2 c hc
    have hne : c ≠ '!' ∧ c ≠ ':' := by
      constructor
      · intro heq
        rw [heq] at hdigit
        exact absurd hdigit (by decide)
      · intro heq
        rw [heq] at hdigit
        exact absurd hdigit (by decide)
    simp [isName, hne.1, hne.2]
  | .named _ h, c, hc => isName_of_not_special (h.2 c hc)

theorem takeWhile_conversion (c : Option Conversion) : (conversionText c).takeWhile isName = [] ∧
    (conversionText c).dropWhile isName = conversionText c := by
  cases c with
  | none => exact ⟨rfl, rfl⟩
  | some c => exact ⟨rfl, rfl⟩

theorem parseFormat_supported {f : Field} (hf : f.Supported) (h : ∀ c ∈ f.inner, isAscii c = true) (start stop : Nat) :
    parseFormat (E := E) (utf8 ('{' :: (f.inner ++ ['}']))) start stop = .ok (f.parsed start stop) := by
  have hinner := hf.inner_eq
  obtain ⟨htake, hdrop⟩ := takeWhile_conversion f.conversion
  have hname : f.inner.takeWhile isName = f.arg.text := by
    rw [hinner, List.takeWhile_append_of_pos f.arg.text_isName, htake, List.append_nil]
  have hrest : f.inner.dropWhile isName = conversionText f.conversion := by
    rw [hinner, List.dropWhile_append_of_pos f.arg.text_isName, hdrop]
  rw [parseFormat_inner h, hname, hrest]
  unfold Field.parsed
  split
  next hnil =>
    have hwhole : f.inner = conversionText f.conversion := by rw [hinner, hnil, List.nil_append]
    rw [hwhole, parseConversion_text _ _ rfl]
  next => rw [parseConversion_text _ _ rfl]

/-- A supported field takes the argument it names and converts it. -/
theorem fieldText_supported {world : World Obj E} {f : Field} (hf : f.Supported) {v : List Char}
    (hv : f.value world args kwargs n = some v) (value : Bytes) (start stop : Nat) :
    fieldText value world.texts args kwargs (f.parsed start stop) n = .ok (utf8 v, n + f.arg.uses) := by
  obtain ⟨arg, accessors, conversion, spec⟩ := f
  obtain ⟨hindex, hnil, hspec⟩ := hf
  dsimp only at hindex hnil hspec
  obtain rfl := hnil
  obtain rfl := hspec
  obtain ⟨obj, hobj, hconvert⟩ : ∃ obj, arg.object args kwargs n = some obj ∧
      (world.texts.convert conversion obj) = .ok (utf8 v) := by
    cases hobj : arg.object args kwargs n with
    | none => simp [Field.value, hobj] at hv
    | some obj =>
      refine ⟨obj, rfl, ?_⟩
      have htext : ∀ {x : Except E (List Char)}, x.toOption = some v → x.map utf8 = .ok (utf8 v) := by
        intro x hx
        cases x with
        | error e => cases hx
        | ok t =>
          obtain rfl : t = v := Option.some.inj hx
          rfl
      cases conversion with
      | none => exact htext (by simpa [Field.value, hobj] using hv)
      | some c =>
        cases c with
        | repr => exact htext (by simpa [Field.value, hobj, World.convert] using hv)
        | str => exact htext (by simpa [Field.value, hobj, World.convert] using hv)
        | ascii => exact htext (by simpa [Field.value, hobj, World.convert] using hv)
  have hargument : fieldArgument (E := E) args kwargs n (if arg.text = [] then none else some (utf8 arg.text)) =
      .ok (obj, n + arg.uses) := by
    cases arg with
    | auto =>
      rw [Arg.object] at hobj
      show fieldArgument args kwargs n none = _
      rw [fieldArgument, hobj]
      rfl
    | index digits h => exact absurd rfl (hindex digits h)
    | named name h =>
      have hne : ¬ (Arg.named name h).text = [] := by
        intro hnil
        obtain ⟨c, hc, -⟩ := h.1
        rw [show name = [] from hnil] at hc
        cases hc
      rw [Arg.object] at hobj
      rw [if_neg hne, fieldArgument, show (Arg.named name h).text = name from rfl, hobj]
      rfl
  unfold fieldText Field.parsed
  rw [hargument]
  show ((world.texts.convert conversion obj).mapError FormatStop.raised >>= _) = _
  rw [hconvert]
  rfl

end

/-! ## A run over pieces -/

def Piece.turns : Piece → Nat
  | .closeBrace => 2
  | _ => 1

def piecesTurns (ps : List Piece) : Nat := (ps.map Piece.turns).sum

section
variable {Obj E : Type} {world : World Obj E} {args : Option (List Obj)} {kwargs : Option (Bytes → Option Obj)}
  {s pre suf : List Char} {n : Nat}

theorem Arg.not_mem_text {c : Char} (hspecial : isSpecial c = true) (hdigit : c.isDigit = false) : ∀ a : Arg, c ∉ a.text
  | .auto => List.not_mem_nil
  | .index digits h => fun hc => by
    have hd := h.2 c hc
    rw [hdigit] at hd
    cases hd
  | .named name h => fun hc => by
    have hs := h.2 c hc
    rw [hspecial] at hs
    cases hs

theorem head?_append {α : Type} {x : α} {l l' : List α} (h : x ∉ l) (h' : l'.head? ≠ some x) : (l ++ l').head? ≠ some x := by
  cases l with
  | nil => exact h'
  | cons y l =>
    intro heq
    obtain rfl : y = x := Option.some.inj heq
    exact h List.mem_cons_self

theorem head_accessors (as : List Accessor) {l : List Char} (h : l.head? ≠ some '{') :
    (as.flatMap Accessor.text ++ l).head? ≠ some '{' := by
  cases as with
  | nil => exact h
  | cons a as =>
    cases a with
    | attributeName name h => exact fun heq => absurd (Option.some.inj heq) (by decide)
    | elementIndex key h => exact fun heq => absurd (Option.some.inj heq) (by decide)

theorem head_inner (f : Field) : f.inner.head? ≠ some '{' := by
  refine head?_append (Arg.not_mem_text (by decide) (by decide) f.arg) (head_accessors f.accessors ?_)
  cases f.conversion with
  | some c => exact fun heq => absurd (Option.some.inj heq) (by decide)
  | none =>
    cases f.spec with
    | none => exact nofun
    | some spec => exact fun heq => absurd (Option.some.inj heq) (by decide)

theorem Field.Supported.not_mem_close {f : Field} (hf : f.Supported) : '}' ∉ f.inner := by
  rw [hf.inner_eq, List.mem_append, not_or]
  refine ⟨Arg.not_mem_text (by decide) (by decide) f.arg, ?_⟩
  cases f.conversion with
  | none => exact List.not_mem_nil
  | some c => cases c <;> decide

theorem turn_piece (fuel : Nat) (out : Bytes) {p : Piece} {v : List Char} (hs : s = pre ++ (p.text ++ suf))
    (hfield : ∀ f, p = .field f → f.Supported ∧ ∀ c ∈ pre ++ p.text, isAscii c = true)
    (hv : p.value world args kwargs ['}', '}'] n = some v) :
    formatLoop (utf8 s) (points s) world.texts args kwargs (fuel + p.turns) (place pre) n out =
      formatLoop (utf8 s) (points s) world.texts args kwargs fuel (place (pre ++ p.text)) (n + p.uses) (out ++ utf8 v) := by
  cases p with
  | char c h =>
    obtain rfl : [c] = v := Option.some.inj hv
    exact turn_char _ _ _ _ _ _ hs h.1
  | openBrace =>
    obtain rfl : ['{'] = v := Option.some.inj hv
    exact turn_open _ _ _ _ _ _ hs
  | closeBrace =>
    obtain rfl : ['}', '}'] = v := Option.some.inj hv
    have hfirst := turn_char world.texts args kwargs (fuel + 1) n out (c := '}') hs (by decide)
    have hnext : s = pre ++ ['}'] ++ '}' :: suf := by
      rw [hs]
      simp [Piece.text]
    have hsecond := turn_char world.texts args kwargs fuel n (out ++ utf8 ['}']) hnext (by decide)
    rw [List.append_assoc, List.append_assoc, ← utf8_append] at hsecond
    exact hfirst.trans hsecond
  | field f =>
    obtain ⟨hf, hascii⟩ := hfield f rfl
    have hpre : ∀ c ∈ pre, isAscii c = true := fun c hc => hascii c (List.mem_append_left _ hc)
    have hinner : ∀ c ∈ f.inner, isAscii c = true := fun c hc =>
      hascii c (List.mem_append_right _ (List.mem_cons_of_mem _ (List.mem_append_left _ hc)))
    have hs' : s = pre ++ '{' :: (f.inner ++ '}' :: suf) := by
      rw [hs]
      simp [Piece.text]
    have hcount : (f.parsed (place pre).start ((place pre).start + (f.inner.length + 2))).stop - (place pre).start - 1 + 1 =
        (Piece.field f).text.length := by
      show (place pre).start + (f.inner.length + 2) - (place pre).start - 1 + 1 = ('{' :: (f.inner ++ ['}'])).length
      simp
    rw [show fuel + (Piece.field f).turns = fuel + 1 from rfl,
      turn_field _ _ _ _ _ _ hs' hpre hinner hf.not_mem_close (head_inner f), parseFormat_supported hf hinner]
    show (fieldText (utf8 s) world.texts args kwargs (f.parsed _ _) n >>= _) = _
    rw [fieldText_supported hf hv]
    show (increment (utf8 s) (points s) _ (place pre) >>= _) = _
    rw [hcount, increment_utf8 (Piece.field f).text pre suf hs]
    rfl

/-- Over pieces that are supported each one is copied or filled in, a doubled closing brace as it stands. -/
theorem run_pieces (fuel : Nat) (out : Bytes) {ps : List Piece} {v : List Char} (hs : s = pre ++ (piecesText ps ++ suf))
    (hfields : ∀ ps₁ f ps₂, ps = ps₁ ++ .field f :: ps₂ → f.Supported ∧
      ∀ c ∈ pre ++ piecesText (ps₁ ++ [.field f]), isAscii c = true)
    (hv : piecesValue world args kwargs ['}', '}'] n ps = some v) :
    ∃ n', formatLoop (utf8 s) (points s) world.texts args kwargs (fuel + piecesTurns ps) (place pre) n out =
      formatLoop (utf8 s) (points s) world.texts args kwargs fuel (place (pre ++ piecesText ps)) n' (out ++ utf8 v) := by
  induction ps generalizing pre n out v with
  | nil =>
    obtain rfl : [] = v := Option.some.inj hv
    exact ⟨n, by simp [piecesTurns, piecesText]⟩
  | cons p ps ih =>
    obtain ⟨w, hw, ws, hws, rfl⟩ : ∃ w, p.value world args kwargs ['}', '}'] n = some w ∧
        ∃ ws, piecesValue world args kwargs ['}', '}'] (n + p.uses) ps = some ws ∧ w ++ ws = v := by
      simpa [piecesValue, Option.bind_eq_some_iff] using hv
    have htext : piecesText (p :: ps) = p.text ++ piecesText ps := List.flatMap_cons
    have hturns : fuel + piecesTurns (p :: ps) = fuel + piecesTurns ps + p.turns := by
      simp only [piecesTurns, List.map_cons, List.sum_cons]
      omega
    have hs' : s = pre ++ p.text ++ (piecesText ps ++ suf) := by
      rw [hs, htext]
      simp
    have hfield : ∀ f, p = .field f → f.Supported ∧ ∀ c ∈ pre ++ p.text, isAscii c = true := by
      intro f hf
      obtain ⟨hsupported, hascii⟩ := hfields [] f ps (by rw [hf]; rfl)
      refine ⟨hsupported, fun c hc => hascii c ?_⟩
      rw [hf] at hc
      simpa [piecesText] using hc
    have hfirst := turn_piece (fuel + piecesTurns ps) out (hs'.trans (List.append_assoc _ _ _)) hfield hw
    have hrest : ∀ ps₁ f ps₂, ps = ps₁ ++ .field f :: ps₂ → f.Supported ∧
        ∀ c ∈ pre ++ p.text ++ piecesText (ps₁ ++ [.field f]), isAscii c = true := by
      intro ps₁ f ps₂ heq
      obtain ⟨hsupported, hascii⟩ := hfields (p :: ps₁) f ps₂ (by rw [heq]; rfl)
      refine ⟨hsupported, fun c hc => hascii c ?_⟩
      rw [List.append_assoc] at hc
      exact hc
    obtain ⟨n', hn'⟩ := ih (out ++ utf8 w) hs' hrest hws
    refine ⟨n', ?_⟩
    rw [hturns, hfirst, hn', htext, utf8_append, List.append_assoc, List.append_assoc]

theorem piecesTurns_le (ps : List Piece) : piecesTurns ps ≤ (piecesText ps).length := by
  induction ps with
  | nil => exact Nat.le_refl 0
  | cons p ps ih =>
    have hone : p.turns ≤ p.text.length := by
      cases p with
      | char c h => exact Nat.le_refl 1
      | openBrace => exact Nat.le_succ 1
      | closeBrace => exact Nat.le_refl 2
      | field f => exact Nat.succ_le_succ (Nat.zero_le _)
    simp only [piecesTurns, piecesText, List.map_cons, List.sum_cons, List.flatMap_cons, List.length_append] at ih ⊢
    omega

theorem piecesValue_congr {close close' : List Char} {ps : List Piece} (h : .closeBrace ∉ ps) (n : Nat) :
    piecesValue world args kwargs close n ps = piecesValue world args kwargs close' n ps := by
  induction ps generalizing n with
  | nil => rfl
  | cons p ps ih =>
    obtain ⟨hp, hps⟩ : Piece.closeBrace ≠ p ∧ .closeBrace ∉ ps := by simpa using h
    have hvalue : p.value world args kwargs close n = p.value world args kwargs close' n := by
      cases p with
      | closeBrace => exact absurd rfl hp
      | char c h => rfl
      | openBrace => rfl
      | field f => rfl
    rw [piecesValue, piecesValue, hvalue, ih hps]

/-- A doubled closing brace is copied where the pieces are filled in. -/
theorem piecesValue_some {close : List Char} (close' : List Char) {ps : List Piece} {n : Nat} {v : List Char}
    (h : piecesValue world args kwargs close n ps = some v) :
    ∃ w, piecesValue world args kwargs close' n ps = some w ∧
      w.length + close.length * ps.countP (· matches .closeBrace) = v.length + close'.length * ps.countP (· matches .closeBrace) := by
  induction ps generalizing n v with
  | nil =>
    obtain rfl : [] = v := Option.some.inj h
    exact ⟨[], rfl, rfl⟩
  | cons p ps ih =>
    obtain ⟨x, hx, xs, hxs, rfl⟩ : ∃ x, p.value world args kwargs close n = some x ∧
        ∃ xs, piecesValue world args kwargs close (n + p.uses) ps = some xs ∧ x ++ xs = v := by
      simpa [piecesValue, Option.bind_eq_some_iff] using h
    obtain ⟨ws, hws, hlength⟩ := ih hxs
    have hjoin : ∀ {y}, p.value world args kwargs close' n = some y →
        piecesValue world args kwargs close' n (p :: ps) = some (y ++ ws) := by
      intro y hy
      rw [piecesValue, hy, Option.bind_eq_bind, Option.bind_some, hws]
      rfl
    cases p with
    | closeBrace =>
      obtain rfl : close = x := Option.some.inj hx
      refine ⟨close' ++ ws, hjoin rfl, ?_⟩
      simp only [List.length_append, List.countP_cons, Nat.mul_add]
      simp
      omega
    | char c hc =>
      refine ⟨x ++ ws, hjoin hx, ?_⟩
      simp only [List.length_append, List.countP_cons]
      simp
      omega
    | openBrace =>
      refine ⟨x ++ ws, hjoin hx, ?_⟩
      simp only [List.length_append, List.countP_cons]
      simp
      omega
    | field f =>
      refine ⟨x ++ ws, hjoin hx, ?_⟩
      simp only [List.length_append, List.countP_cons]
      simp
      omega

theorem format_pieces {t : Template} {v : List Char} (hfields : ∀ ps₁ f ps₂, t.pieces = ps₁ ++ .field f :: ps₂ →
      f.Supported ∧ ∀ c ∈ piecesText (ps₁ ++ [.field f]), isAscii c = true)
    (hv : piecesValue world args kwargs ['}', '}'] 0 t.pieces = some v) :
    ∃ n' fuel, t.tail.text.length ≤ fuel ∧ format (utf8 t.text) world.texts args kwargs =
      formatLoop (utf8 t.text) (points t.text) world.texts args kwargs (fuel + 1) (place (piecesText t.pieces)) n' (utf8 v) := by
  have hle := piecesTurns_le t.pieces
  have hlength : t.text.length = (piecesText t.pieces).length + t.tail.text.length := List.length_append
  have htext : t.text = [] ++ (piecesText t.pieces ++ t.tail.text) := rfl
  obtain ⟨n', hn'⟩ := run_pieces (t.text.length - piecesTurns t.pieces + 1) [] htext hfields hv
  refine ⟨n', t.text.length - piecesTurns t.pieces, by omega, ?_⟩
  unfold format
  rw [codepoints_utf8]
  dsimp only
  rw [show (points t.text).length + 1 = t.text.length - piecesTurns t.pieces + 1 + piecesTurns t.pieces by
    rw [points, List.length_map]; omega]
  exact hn'

theorem formatLoop_end (hs : s = pre) (texts : Texts Obj E) (fuel : Nat) (out : Bytes) :
    formatLoop (utf8 s) (points s) texts args kwargs (fuel + 1) (place pre) n out = .ok out := by
  have hget : (points s)[(place pre).index]? = none := by
    rw [hs]
    simp [points, place]
  rw [formatLoop, hget]

theorem Formattable.formatsRight {t : Template} (h : Formattable t) : FormatsRight t := by
  intro Obj E world args kwargs v hv
  obtain ⟨w, hw, -⟩ := piecesValue_some ['}', '}'] hv
  obtain ⟨n', fuel, hfuel, hformat⟩ := format_pieces (t := t)
    (fun ps₁ f ps₂ heq => ⟨h.fields f (by rw [heq]; simp), h.ascii ps₁ f ps₂ heq⟩) hw
  have htail := h.tail
  rw [hformat]
  cases hcase : t.tail with
  | done =>
    rw [hcase] at htail
    have hsame : some w = some v := by rw [← hw, ← hv, piecesValue_congr htail]
    have htext : t.text = piecesText t.pieces := by
      rw [Template.text, hcase]
      exact List.append_nil _
    rw [formatLoop_end htext, Option.some.inj hsame]
  | loneOpen rest hrest =>
    rw [hcase] at htail
    have htext : t.text = piecesText t.pieces ++ '{' :: rest := by
      rw [Template.text, hcase]
      rfl
    rw [turn_loneOpen _ _ _ _ _ _ htext htail.2 hrest.1 hrest.2, if_neg htail.1]
    exact ⟨_, rfl⟩
  | loneClose rest hrest =>
    rw [hcase] at htail
    exact htail.elim

end

/-! ## Fields that are not supported -/

/-- A key that no keyword of a field is: it starts with a digit, or has an accessor in it. -/
def IsAccess (name : List Char) : Prop := (∃ c ∈ name.head?, c.isDigit = true) ∨ '.' ∈ name ∨ '[' ∈ name

section
variable {E : Type}

theorem parseConversion_cases (field : ReplacementField) (str : Bytes) :
    (∃ e, parseConversion (E := E) field str = .error e ∧ ∀ message, e ≠ .valueError message) ∨
      ∃ field', parseConversion (E := E) field str = .ok field' ∧ field'.fieldName = field.fieldName := by
  cases str with
  | nil => exact .inr ⟨field, rfl, rfl⟩
  | cons c str =>
    unfold parseConversion
    dsimp only
    split
    · cases str with
      | nil => exact .inl ⟨_, rfl, nofun⟩
      | cons d str =>
        dsimp only
        cases getConversion d with
        | none => exact .inl ⟨_, rfl, nofun⟩
        | some conversion =>
          dsimp only
          split
          · exact .inl ⟨_, rfl, nofun⟩
          · exact .inr ⟨_, rfl, rfl⟩
    · split
      · exact .inl ⟨_, rfl, nofun⟩
      · exact .inl ⟨_, rfl, nofun⟩

theorem parseConversion_spec (field : ReplacementField) (c : Option Conversion) (spec : List Char) :
    ∃ message, parseConversion (E := E) field (utf8 (conversionText c ++ ':' :: spec)) =
      .error (.notImplementedError message) := by
  cases c with
  | none => exact ⟨_, rfl⟩
  | some c =>
    refine ⟨"Format spec in str.format not implemented", ?_⟩
    have hcontains : (byte c.letter :: (byte ':' :: utf8 spec)).contains (byte ':') = true := by simp
    have htext : utf8 (conversionText (some c) ++ ':' :: spec) = byte '!' :: byte c.letter :: byte ':' :: utf8 spec := by
      cases c <;> rfl
    have hletter : getConversion (byte c.letter) = some c := by cases c <;> decide
    rw [htext]
    unfold parseConversion
    dsimp only
    rw [if_pos rfl, hletter]
    dsimp only
    rw [if_pos hcontains]

end

/-- The part of a field before its first closing brace. -/
def Field.front (f : Field) : List Char := f.inner.takeWhile (· ≠ '}')

theorem Field.front_eq (f : Field) : f.front = f.arg.text ++
    (f.accessors.flatMap Accessor.text ++ (conversionText f.conversion ++ specText f.spec)).takeWhile (· ≠ '}') := by
  refine List.takeWhile_append_of_pos fun c hc => ?_
  have hne : c ≠ '}' := fun h => Arg.not_mem_text (by decide) (by decide) f.arg (h ▸ hc)
  simpa using hne

theorem Field.front_split (f : Field) (suf : List Char) : ∃ suf', f.inner ++ '}' :: suf = f.front ++ '}' :: suf' := by
  have hsplit := List.takeWhile_append_dropWhile (p := fun c => decide (c ≠ '}')) (l := f.inner)
  cases hdrop : f.inner.dropWhile (fun c => decide (c ≠ '}')) with
  | nil =>
    rw [hdrop, List.append_nil] at hsplit
    exact ⟨suf, by rw [Field.front, hsplit]⟩
  | cons c l =>
    have hhead := List.head?_dropWhile_not (fun c => decide (c ≠ '}')) f.inner
    rw [hdrop] at hhead hsplit
    obtain rfl : c = '}' := by simpa using hhead
    refine ⟨l ++ '}' :: suf, ?_⟩
    rw [Field.front]
    conv_lhs => rw [← hsplit]
    simp

theorem Field.isAccess {f : Field} (h : (∃ digits h, f.arg = .index digits h) ∨ f.accessors ≠ []) :
    IsAccess (f.front.takeWhile isName) := by
  rw [f.front_eq, List.takeWhile_append_of_pos f.arg.text_isName]
  rcases h with ⟨digits, hdigits, harg⟩ | hne
  · rw [harg]
    cases digits with
    | nil => exact absurd rfl hdigits.1
    | cons d digits => exact .inl ⟨d, rfl, hdigits.2 d List.mem_cons_self⟩
  · cases haccessors : f.accessors with
    | nil => exact absurd haccessors hne
    | cons a as =>
      cases a with
      | attributeName name h => exact .inr (.inl (List.mem_append_right _ List.mem_cons_self))
      | elementIndex key h => exact .inr (.inr (List.mem_append_right _ List.mem_cons_self))

theorem takeWhile_conversionText (c : Option Conversion) (l : List Char) :
    (conversionText c ++ l).takeWhile (· ≠ '}') = conversionText c ++ l.takeWhile (· ≠ '}') := by
  refine List.takeWhile_append_of_pos fun x hx => ?_
  cases c with
  | none => cases hx
  | some c =>
    have hne : x ≠ '}' := by
      cases c with
      | repr | str | ascii =>
        rcases List.mem_cons.1 hx with rfl | hx
        · decide
        · rw [List.mem_singleton.1 hx]
          decide
    simpa using hne

section
variable {Obj E : Type} {texts : Texts Obj E} {args : Option (List Obj)} {kwargs : Option (Bytes → Option Obj)}
  {s pre suf : List Char} {n : Nat}

/-- A field that is not supported raises something else than `ValueError`, where no keyword is looked up in its stead. -/
theorem turn_unsupported (fuel : Nat) (out : Bytes) {f : Field} (hf : ¬ f.Supported) (hs : s = pre ++ '{' :: (f.inner ++ '}' :: suf))
    (hascii : ∀ c ∈ s, isAscii c = true) (hkwargs : ∀ name, IsAccess name → kwargs.bind (· (utf8 name)) = none) :
    ∃ e, formatLoop (utf8 s) (points s) texts args kwargs (fuel + 1) (place pre) n out = .error e ∧
      ∀ message, e ≠ .valueError message := by
  obtain ⟨suf', hsuf⟩ := f.front_split suf
  have hfront : ∀ c ∈ f.front, isAscii c = true := fun c hc => hascii c (by
    rw [hs, hsuf]
    simp [hc])
  have hclose : '}' ∉ f.front := fun h => by simpa using List.mem_takeWhile_imp h
  have hopen : f.front.head? ≠ some '{' := by
    have hhead := head_inner f
    unfold Field.front
    cases hinner : f.inner with
    | nil => exact nofun
    | cons c l =>
      rw [hinner] at hhead
      rw [List.takeWhile_cons]
      split
      · exact hhead
      · exact nofun
  have hturn := turn_field texts args kwargs fuel n out (hs.trans (by rw [hsuf])) (fun c hc => hascii c (by rw [hs]; simp [hc])) hfront hclose hopen
  rw [hturn, parseFormat_inner hfront]
  by_cases haccess : (∃ digits h, f.arg = .index digits h) ∨ f.accessors ≠ []
  · have hname := f.isAccess haccess
    have hne : ¬ f.front.takeWhile isName = [] := by
      intro hnil
      rw [hnil] at hname
      rcases hname with ⟨c, hc, -⟩ | hc | hc
      · cases hc
      · cases hc
      · cases hc
    rw [if_neg hne]
    let parsed : ReplacementField :=
      { fieldName := some (utf8 (f.front.takeWhile isName)), start := (place pre).start
        stop := (place pre).start + (f.front.length + 2) }
    rcases parseConversion_cases (E := E) parsed (utf8 (f.front.dropWhile isName)) with
      ⟨e, herror, hne⟩ | ⟨field, hok, hfield⟩
    · rw [herror]
      exact ⟨e, rfl, hne⟩
    · rw [hok]
      refine ⟨.keyError (utf8 (f.front.takeWhile isName)), ?_, nofun⟩
      have hargument : fieldArgument (E := E) args kwargs n field.fieldName =
          .error (.keyError (utf8 (f.front.takeWhile isName))) := by
        rw [hfield, fieldArgument, hkwargs _ hname]
      show (fieldText (utf8 s) texts args kwargs field n >>= _) = _
      unfold fieldText
      rw [hargument]
      rfl
  · obtain ⟨hindex, hnil⟩ : (¬ ∃ digits h, f.arg = .index digits h) ∧ f.accessors = [] := by
      simpa only [not_or, not_not] using haccess
    cases hspec : f.spec with
    | none => exact absurd ⟨fun digits h harg => hindex ⟨digits, h, harg⟩, hnil, hspec⟩ hf
    | some spec =>
      have hfront_eq : f.front = f.arg.text ++ (conversionText f.conversion ++ ':' :: spec.1.takeWhile (· ≠ '}')) := by
        rw [f.front_eq, hnil, hspec, List.flatMap_nil, List.nil_append, takeWhile_conversionText]
        rfl
      obtain ⟨hname, hrest⟩ : f.front.takeWhile isName = f.arg.text ∧
          f.front.dropWhile isName = conversionText f.conversion ++ ':' :: spec.1.takeWhile (· ≠ '}') := by
        rw [hfront_eq, List.takeWhile_append_of_pos f.arg.text_isName, List.dropWhile_append_of_pos f.arg.text_isName]
        cases f.conversion with
        | none => exact ⟨List.append_nil _, rfl⟩
        | some c => exact ⟨List.append_nil _, rfl⟩
      rw [hname, hrest]
      split
      next harg =>
        have hwhole : f.front = conversionText f.conversion ++ ':' :: spec.1.takeWhile (· ≠ '}') := by
          rw [hfront_eq, harg, List.nil_append]
        obtain ⟨message, herror⟩ := parseConversion_spec (E := E)
          { start := (place pre).start, stop := (place pre).start + (f.front.length + 2) } f.conversion
          (spec.1.takeWhile (· ≠ '}'))
        rw [← hwhole] at herror
        rw [herror]
        exact ⟨_, rfl, nofun⟩
      next =>
        let parsed : ReplacementField :=
          { fieldName := some (utf8 f.arg.text), start := (place pre).start
            stop := (place pre).start + (f.front.length + 2) }
        obtain ⟨message, herror⟩ := parseConversion_spec (E := E) parsed f.conversion (spec.1.takeWhile (· ≠ '}'))
        rw [herror]
        exact ⟨_, rfl, nofun⟩

theorem run_chars {fuel : Nat} {out : Bytes} {l : List Char} (hs : s = pre ++ l) (hl : '{' ∉ l) (hfuel : l.length ≤ fuel) :
    formatLoop (utf8 s) (points s) texts args kwargs (fuel + 1) (place pre) n out = .ok (out ++ utf8 l) := by
  induction l generalizing pre fuel out with
  | nil =>
    rw [formatLoop_end (hs.trans (List.append_nil pre)), utf8_nil, List.append_nil]
  | cons c l ih =>
    obtain ⟨hc, hl⟩ : '{' ≠ c ∧ '{' ∉ l := by simpa using hl
    cases fuel with
    | zero => cases hfuel
    | succ fuel =>
      rw [turn_char _ _ _ _ _ _ hs hc.symm, ih (by rw [hs]; simp) hl (Nat.le_of_succ_le_succ hfuel), List.append_assoc,
        ← utf8_append]
      rfl

end

/-! ## Which templates are filled in -/

/-- Objects whose texts are all empty. -/
def blankWorld : World Unit Empty where
  str := fun _ => .ok []
  repr := fun _ => .ok []
  ascii := fun _ => .ok []
  access := fun _ _ => some ()
  format := fun _ _ => some []
  formatText := fun _ _ => some []

theorem foldlM_access (as : List Accessor) : as.foldlM blankWorld.access () = some () := by
  induction as with
  | nil => rfl
  | cons a as ih => exact ih

theorem blank_field {args : Option (List Unit)} {kwargs : Option (Bytes → Option Unit)} {f : Field} {n : Nat}
    (h : f.arg.object args kwargs n = some ()) : f.value blankWorld args kwargs n = some [] := by
  obtain ⟨arg, accessors, conversion, spec⟩ := f
  unfold Field.value
  rw [show arg.object args kwargs n = some () from h]
  show (accessors.foldlM blankWorld.access () >>= _) = _
  rw [foldlM_access]
  cases conversion with
  | none => cases spec <;> rfl
  | some c => cases c <;> cases spec <;> rfl

section
variable {kwargs : Option (Bytes → Option Unit)}

theorem named_not_access {name : List Char}
    (h : (∃ c ∈ name.head?, c.isDigit = false) ∧ ∀ c ∈ name, isSpecial c = false) : ¬ IsAccess name := by
  intro haccess
  rcases haccess with ⟨c, hc, hdigit⟩ | hdot | hbracket
  · obtain ⟨d, hd, hnot⟩ := h.1
    obtain rfl : c = d := Option.some.inj (hc.symm.trans hd)
    rw [hdigit] at hnot
    cases hnot
  · exact absurd (h.2 '.' hdot) (by decide)
  · exact absurd (h.2 '[' hbracket) (by decide)

/-- With positional arguments enough, blank objects match every template. -/
theorem blank_matches (hkwargs : ∀ name, ¬ IsAccess name → kwargs.bind (· (utf8 name)) = some ()) (close : List Char)
    (ps : List Piece) (n : Nat) : ∃ k, ∀ count, k ≤ count →
      ∃ v, piecesValue blankWorld (some (List.replicate count ())) kwargs close n ps = some v := by
  induction ps generalizing n with
  | nil => exact ⟨0, fun _ _ => ⟨[], rfl⟩⟩
  | cons p ps ih =>
    obtain ⟨k, hk⟩ := ih (n + p.uses)
    obtain ⟨k', hk'⟩ : ∃ k', ∀ count, k' ≤ count →
        ∃ v, p.value blankWorld (some (List.replicate count ())) kwargs close n = some v := by
      cases p with
      | char c h => exact ⟨0, fun _ _ => ⟨[c], rfl⟩⟩
      | openBrace => exact ⟨0, fun _ _ => ⟨['{'], rfl⟩⟩
      | closeBrace => exact ⟨0, fun _ _ => ⟨close, rfl⟩⟩
      | field f =>
        have hobject : ∃ k', ∀ count, k' ≤ count →
            f.arg.object (some (List.replicate count ())) kwargs n = some () := by
          cases f.arg with
          | auto =>
            refine ⟨n + 1, fun count hcount => ?_⟩
            rw [Arg.object, Option.getD_some, List.getElem?_replicate, if_pos (by omega)]
          | index digits h =>
            refine ⟨digits.foldl (fun n c => 10 * n + (c.toNat - '0'.toNat)) 0 + 1, fun count hcount => ?_⟩
            rw [Arg.object, Option.getD_some, List.getElem?_replicate, if_pos (Nat.lt_of_succ_le hcount)]
          | named name h => exact ⟨0, fun _ _ => hkwargs name (named_not_access h)⟩
        obtain ⟨k', hk'⟩ := hobject
        exact ⟨k', fun count hcount => ⟨[], blank_field (hk' count hcount)⟩⟩
    refine ⟨max k k', fun count hcount => ?_⟩
    obtain ⟨v, hv⟩ := hk' count (by omega)
    obtain ⟨vs, hvs⟩ := hk count (by omega)
    refine ⟨v ++ vs, ?_⟩
    rw [piecesValue, hv, Option.bind_eq_bind, Option.bind_some, hvs]
    rfl

end

theorem exists_unsupported {ps : List Piece} (h : ∃ f, .field f ∈ ps ∧ ¬ f.Supported) :
    ∃ ps₁ f ps₂, ps = ps₁ ++ .field f :: ps₂ ∧ ¬ f.Supported ∧ ∀ g, .field g ∈ ps₁ → g.Supported := by
  induction ps with
  | nil =>
    obtain ⟨f, hf, -⟩ := h
    cases hf
  | cons p ps ih =>
    by_cases hp : ∃ f, p = .field f ∧ ¬ f.Supported
    · obtain ⟨f, rfl, hf⟩ := hp
      exact ⟨[], f, ps, rfl, hf, nofun⟩
    · obtain ⟨g, hg, hnot⟩ := h
      have hrest : ∃ f, .field f ∈ ps ∧ ¬ f.Supported := by
        rcases List.mem_cons.1 hg with heq | hg
        · exact absurd ⟨g, heq.symm, hnot⟩ hp
        · exact ⟨g, hg, hnot⟩
      obtain ⟨ps₁, f, ps₂, rfl, hf, hall⟩ := ih hrest
      refine ⟨p :: ps₁, f, ps₂, rfl, hf, fun g hg => ?_⟩
      rcases List.mem_cons.1 hg with heq | hg
      · by_contra hnot
        exact hp ⟨g, heq.symm, hnot⟩
      · exact hall g hg

theorem piecesValue_append {Obj E : Type} {world : World Obj E} {args : Option (List Obj)}
    {kwargs : Option (Bytes → Option Obj)} {close : List Char} {ps qs : List Piece} {n : Nat} {v : List Char}
    (h : piecesValue world args kwargs close n (ps ++ qs) = some v) :
    ∃ w, piecesValue world args kwargs close n ps = some w := by
  induction ps generalizing n v with
  | nil => exact ⟨[], rfl⟩
  | cons p ps ih =>
    obtain ⟨x, hx, xs, hxs, -⟩ : ∃ x, p.value world args kwargs close n = some x ∧
        ∃ xs, piecesValue world args kwargs close (n + p.uses) (ps ++ qs) = some xs ∧ x ++ xs = v := by
      simpa [piecesValue, Option.bind_eq_some_iff] using h
    obtain ⟨w, hw⟩ := ih hxs
    refine ⟨x ++ w, ?_⟩
    rw [piecesValue, hx, Option.bind_eq_bind, Option.bind_some, hw]
    rfl

theorem ascii_pieces {t : Template} (h : ∀ c ∈ t.text, isAscii c = true) : ∀ c ∈ piecesText t.pieces, isAscii c = true :=
  fun c hc => h c (List.mem_append_left _ hc)

theorem ascii_front {t : Template} (h : ∀ c ∈ t.text, isAscii c = true) {ps₁ ps₂ : List Piece} {p : Piece}
    (heq : t.pieces = ps₁ ++ p :: ps₂) : ∀ c ∈ piecesText (ps₁ ++ [p]), isAscii c = true := by
  refine fun c hc => ascii_pieces h c ?_
  have happ : t.pieces = (ps₁ ++ [p]) ++ ps₂ := by rw [heq]; simp
  rw [happ, piecesText, List.flatMap_append]
  exact List.mem_append_left _ hc

/-- A template of ASCII characters is filled in only if it is supported: blank objects, under keywords that are no
accesses, tell. -/
theorem FormatsRight.formattable {t : Template} (h : FormatsRight t) (hascii : ∀ c ∈ t.text, isAscii c = true)
    (hclose : ∀ rest hrest, t.tail = .loneClose rest hrest → '{' ∉ rest) : Formattable t := by
  classical
  let map : Bytes → Option Unit := fun key => if ∃ name, key = utf8 name ∧ IsAccess name then none else some ()
  have hnone : ∀ name, IsAccess name → (some map).bind (· (utf8 name)) = none := fun name hname =>
    if_pos ⟨name, rfl, hname⟩
  have hsome : ∀ name, ¬ IsAccess name → (some map).bind (· (utf8 name)) = some () := by
    refine fun name hname => if_neg fun ⟨name', heq, hname'⟩ => hname ?_
    rwa [utf8_injective heq]
  obtain ⟨k, hk⟩ := blank_matches hsome ['}'] t.pieces 0
  obtain ⟨v, hv⟩ := hk k (Nat.le_refl k)
  have hright := h Unit Empty blankWorld (some (List.replicate k ())) (some map) v hv
  have hsupported : ∀ f, .field f ∈ t.pieces → f.Supported := by
    intro f hf
    by_contra hnot
    obtain ⟨ps₁, g, ps₂, heq, hg, hall⟩ := exists_unsupported ⟨f, hf, hnot⟩
    obtain ⟨w, hw⟩ := piecesValue_append (heq ▸ hv)
    obtain ⟨w', hw', -⟩ := piecesValue_some ['}', '}'] hw
    have htext : t.text = piecesText ps₁ ++ '{' :: (g.inner ++ '}' :: (piecesText ps₂ ++ t.tail.text)) := by
      rw [Template.text, heq]
      simp [piecesText, Piece.text]
    have hfields : ∀ qs₁ f qs₂, ps₁ = qs₁ ++ .field f :: qs₂ → f.Supported ∧
        ∀ c ∈ piecesText (qs₁ ++ [.field f]), isAscii c = true := by
      intro qs₁ f qs₂ hps
      refine ⟨hall f (by rw [hps]; simp), ?_⟩
      have hsplit : t.pieces = qs₁ ++ .field f :: (qs₂ ++ .field g :: ps₂) := by
        rw [heq, hps]
        simp
      exact ascii_front hascii hsplit
    have hturns := piecesTurns_le ps₁
    have hlength : (piecesText ps₁).length ≤ t.text.length := by
      rw [htext, List.length_append]
      omega
    have hsplit : t.text = [] ++ (piecesText ps₁ ++ '{' :: (g.inner ++ '}' :: (piecesText ps₂ ++ t.tail.text))) := htext
    obtain ⟨n', hrun⟩ := run_pieces (t.text.length - piecesTurns ps₁ + 1) [] hsplit hfields hw'
    have hformat : format (utf8 t.text) blankWorld.texts (some (List.replicate k ())) (some map) =
        formatLoop (utf8 t.text) (points t.text) blankWorld.texts (some (List.replicate k ())) (some map)
          (t.text.length - piecesTurns ps₁ + 1) (place (piecesText ps₁)) n' (utf8 w') := by
      unfold format
      rw [codepoints_utf8]
      dsimp only
      rw [show (points t.text).length + 1 = t.text.length - piecesTurns ps₁ + 1 + piecesTurns ps₁ by
        rw [points, List.length_map]; omega]
      exact hrun
    obtain ⟨e, herror, hne⟩ := turn_unsupported (t.text.length - piecesTurns ps₁) (utf8 w') hg htext hascii hnone
    rw [hformat, herror] at hright
    cases htail : t.tail with
    | done =>
      rw [htail] at hright
      cases hright
    | loneOpen rest hrest =>
      rw [htail] at hright
      obtain ⟨message, hmessage⟩ := hright
      exact hne message (Except.error.inj hmessage)
    | loneClose rest hrest =>
      rw [htail] at hright
      obtain ⟨message, hmessage⟩ := hright
      exact hne message (Except.error.inj hmessage)
  refine ⟨hsupported, fun pre f post heq => ascii_front hascii heq, ?_⟩
  obtain ⟨w, hw, hlength⟩ := piecesValue_some ['}', '}'] hv
  obtain ⟨n', fuel, hfuel, hformat⟩ := format_pieces (t := t)
    (fun ps₁ f ps₂ heq => ⟨hsupported f (by rw [heq]; simp), ascii_front hascii heq⟩) hw
  rw [hformat] at hright
  cases htail : t.tail with
  | done =>
    rw [htail] at hright
    have htext : t.text = piecesText t.pieces := by
      rw [Template.text, htail]
      exact List.append_nil _
    rw [formatLoop_end htext] at hright
    obtain rfl : w = v := utf8_injective (Except.ok.inj hright)
    intro hmem
    have hcount : 0 < t.pieces.countP (· matches .closeBrace) := List.countP_pos_iff.2 ⟨.closeBrace, hmem, rfl⟩
    simp only [List.length_cons, List.length_nil] at hlength
    omega
  | loneOpen rest hrest =>
    rw [htail] at hright
    refine ⟨fun hnil => ?_, ascii_pieces hascii⟩
    have htext : t.text = piecesText t.pieces ++ '{' :: rest := by
      rw [Template.text, htail]
      rfl
    rw [turn_loneOpen _ _ _ _ _ _ htext (ascii_pieces hascii) hrest.1 hrest.2, if_pos hnil] at hright
    obtain ⟨message, hmessage⟩ := hright
    cases hmessage
  | loneClose rest hrest =>
    rw [htail] at hright hfuel
    have htext : t.text = piecesText t.pieces ++ '}' :: rest := by
      rw [Template.text, htail]
      rfl
    rw [run_chars htext (by simpa using hclose rest hrest htail) hfuel] at hright
    obtain ⟨message, hmessage⟩ := hright
    cases hmessage

/-- **`str.format`.** A template that is `Formattable` is filled in, for all arguments; of the templates of ASCII
characters, with no opening brace behind a lone closing one, no others are. -/
theorem formatsRight_iff (t : Template) : (Formattable t → FormatsRight t) ∧
    ((∀ c ∈ t.text, isAscii c = true) → (∀ rest h, t.tail = .loneClose rest h → '{' ∉ rest) →
      (FormatsRight t ↔ Formattable t)) :=
  ⟨Formattable.formatsRight, fun hascii hclose =>
    ⟨fun h => h.formattable hascii hclose, Formattable.formatsRight⟩⟩

/-- A doubled opening brace before a field. -/
def bracedField : Template where
  pieces := [.openBrace, .field { arg := .auto, accessors := [], conversion := some .repr, spec := none }]
  tail := .done
  numbering := .inr (by simp)

theorem bracedField_right : FormatsRight bracedField := by
  have hascii : ∀ c ∈ bracedField.text, isAscii c = true := List.all_eq_true.mp rfl
  refine (formatsRight_iff bracedField).1 ⟨fun f hf => ?_, fun pre f post heq => ascii_front hascii heq, by simp [bracedField]⟩
  obtain rfl : f = { arg := .auto, accessors := [], conversion := some .repr, spec := none } := by
    simpa [bracedField] using hf
  exact ⟨nofun, rfl, rfl⟩

/-- Two closing braces. -/
def doubledClose : Template where
  pieces := [.closeBrace]
  tail := .done
  numbering := .inl (by simp)

theorem doubledClose_kept : ¬ FormatsRight doubledClose := by
  intro h
  have hright : format (utf8 ['}', '}']) blankWorld.texts none none = .ok (utf8 ['}']) :=
    h Unit Empty blankWorld none none ['}'] rfl
  unfold format at hright
  rw [codepoints_utf8] at hright
  exact absurd hright (by decide)

end Pylang.Runtime.Format
