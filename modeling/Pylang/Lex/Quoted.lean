/-
Strings and f-strings.

The two nested loops that read a string are one pass over what is left of the
program; `n` is the distance from the cursor, which moves at the end and at a
line continuation only.
-/
import Pylang.Lex.State

namespace Pylang.Lex

namespace Lexer

/-- `single_quote_string` and `double_quote_string`, from the distance `n` on. -/
def quotedString (quote : Char) : List Char → Nat → Lexer → Except Stop Lexer
  | [], _, _ => .error .assertion
  | c :: s, n, L =>
    if c = '\\' then
      match s with
      | [] => .error .assertion
      | d :: s =>
        if d = '\n' then quotedString quote s 0 (L.advance (n + 2)).incrementRowPosition
        else quotedString quote s (n + 2) L
    else if c = quote then .ok (L.advance (n + 1))
    else quotedString quote s (n + 1) L

/-- `single_triple_quote_string` and `double_triple_quote_string`. A line feed starts a row while the cursor is still at
the start of the string. -/
def tripleQuotedString (quote : Char) : List Char → Nat → Lexer → Except Stop Lexer
  | [], _, _ => .error .assertion
  | c :: s, n, L =>
    if c = '\\' then
      match s with
      | [] => .error .assertion
      | d :: s =>
        if d = '\n' then tripleQuotedString quote s 0 (L.advance (n + 2)).incrementRowPosition
        else tripleQuotedString quote s (n + 2) L
    else if c = quote then
      match s with
      | [] => .error .assertion
      | d :: s' =>
        if d = quote then
          match s' with
          | [] => .error .assertion
          | e :: _ => if e = quote then .ok (L.advance (n + 3)) else tripleQuotedString quote s (n + 1) L
        else tripleQuotedString quote s (n + 1) L
    else if c = '\n' then tripleQuotedString quote s (n + 1) L.incrementRowPosition
    else tripleQuotedString quote s (n + 1) L

def stringPossiblePrefixes : List (List Char) :=
  [[], ['b', 'r'], ['f'], ['r', 'B'], ['u'], ['r', 'F'], ['U'], ['f', 'r'], ['R', 'F'], ['f', 'R'], ['B', 'R'],
    ['R', 'B'], ['b', 'R'], ['r', 'b'], ['F'], ['r', 'f'], ['F', 'r'], ['R'], ['b'], ['B', 'r'], ['B'], ['r'],
    ['F', 'R'], ['R', 'f'], ['R', 'b']]

section
variable (program : List Char) (L : Lexer)

/-- The characters from a distance on, as far as they match; a read past the end stops. -/
def peekPrefix : List Char → Nat → Except Stop Bool
  | [], i => do
    let c ← L.peek program i
    if c = '\'' then return true
    return c = '"'
  | p :: ps, i => do
    if (← L.peek program i) ≠ p then return false else peekPrefix ps (i + 1)

/-- `find_if` over the prefixes. -/
def findPrefix : List (List Char) → Except Stop (Option (List Char))
  | [] => .ok none
  | p :: ps => do if ← L.peekPrefix program p 0 then return some p else findPrefix ps

def isTripleQuote (idx : Nat) (quote : Char) : Except Stop Bool := do
  if (← L.peek program idx) ≠ quote then return false
  if (← L.peek program (idx + 1)) ≠ quote then return false
  return (← L.peek program (idx + 2)) = quote

/-- `push_string_token`: the lexer `read` at the end of a string that starts where this one is, or, for an f-string,
this one behind the first quotes. -/
def pushStringToken (isFstring : Bool) (quote : Quote) (skip : Nat) (read : Lexer) : Lexer :=
  if isFstring then
    let start : Lexer := { read with cursor := L.cursor, position := L.position, quote := quote :: read.quote }
    let moved := start.advance skip
    let pushed := moved.pushToken .fstringStart L.position moved.position
    { pushed with
      mode := .fstring :: pushed.mode
      fstringParenLevel := pushed.parenthesisLevel :: pushed.fstringParenLevel }
  else read.pushToken .string L.position read.position

def tryReadString : Except Stop (Bool × Lexer) := do
  if program.length ≤ L.cursor then return (false, L)
  let some found ← L.findPrefix program stringPossiblePrefixes | return (false, L)
  let idx := found.length
  let isFstring := found.contains 'f' || found.contains 'F'
  if ← L.isTripleQuote program idx '\'' then
    let read ← tripleQuotedString '\'' (program.drop (L.cursor + (idx + 3))) (idx + 3) L
    return (true, L.pushStringToken isFstring .tripleSingleQuote (idx + 3) read)
  if ← L.isTripleQuote program idx '"' then
    let read ← tripleQuotedString '"' (program.drop (L.cursor + (idx + 3))) (idx + 3) L
    return (true, L.pushStringToken isFstring .tripleDoubleQuote (idx + 3) read)
  if (← L.peek program idx) = '\'' then
    let read ← quotedString '\'' (program.drop (L.cursor + (idx + 1))) (idx + 1) L
    return (true, L.pushStringToken isFstring .singleSingleQuote (idx + 1) read)
  let read ← quotedString '"' (program.drop (L.cursor + (idx + 1))) (idx + 1) L
  return (true, L.pushStringToken isFstring .singleDoubleQuote (idx + 1) read)

/-! ## The text of an f-string -/

/-- The end of a piece: `FSTRING_MIDDLE` from `start`, and the token that follows it. -/
def pushPiece (start : Position) (type : TokenType) (length : Nat) : Lexer :=
  let middle := L.pushToken .fstringMiddle start L.position
  let moved := middle.advance length
  moved.pushToken type L.position moved.position

def popFstring : Lexer :=
  { L with mode := L.mode.tail, quote := L.quote.tail, fstringParenLevel := L.fstringParenLevel.tail }

def isQuoteAt (quote : Char) : Except Stop Bool := do
  if (← L.peek program 0) ≠ quote then return false
  if (← L.peek program 1) ≠ quote then return false
  return (← L.peek program 2) = quote

/-- The quotes that were found are those on top of `m_quote`, which is read only if some were. -/
def endsWith (found : Bool) (kind : Quote) : Except Stop Bool :=
  if found then
    match L.quote with
    | [] => .error .undefined
    | q :: _ => .ok (q = kind)
  else .ok false

/-- Whether the quotes that end the f-string follow, and how many. -/
def endQuotes : Except Stop (Option Nat) := do
  let c ← L.peek program 0
  if ← L.endsWith (c = '\'') .singleSingleQuote then return some 1
  if ← L.endsWith (c = '"') .singleDoubleQuote then return some 1
  if ← L.endsWith (← L.isQuoteAt program '\'') .tripleSingleQuote then return some 3
  if ← L.endsWith (← L.isQuoteAt program '"') .tripleDoubleQuote then return some 3
  return none

/-- `reached_end`, from the position of the first character of the piece. -/
def reachedEnd (start : Position) : Except Stop (Bool × Lexer) := do
  if L.cursor + 1 < program.length && program[L.cursor]? = some '}' then
    if (← L.peek program 1) ≠ '}' then return (true, L.pushPiece start .rbrace 1)
    else return (false, L.advance 2)
  if let some length ← L.endQuotes program then
    return (true, (L.pushPiece start .fstringEnd length).popFstring)
  if (← L.peek program 0) = '{' then
    if (← L.peek program 1) ≠ '{' then
      let pushed := L.pushPiece start .lbrace 1
      return (true, { pushed with mode := .normal :: pushed.mode })
    else return (false, L.advance 2)
  if (← L.peek program 0) = '\\' then return (false, (L.advance 1).advance 1)
  return (false, L.advance 1)

/-- The loop of `try_fstring`. Every turn moves the cursor, so that the length of the program is enough fuel. -/
def fstringLoop (start : Position) : Nat → Lexer → Except Stop Lexer
  | 0, _ => .error .assertion
  | fuel + 1, L => do
    let (reached, L) ← L.reachedEnd program start
    if reached then return L
    if ← L.peekNewline program then throw .assertion
    fstringLoop start fuel L

def tryFstring : Except Stop (Bool × Lexer) := do
  return (true, ← fstringLoop program L.position (program.length + 1) L)

end

theorem quotedString_cons {quote c : Char} (hc : c ≠ '\\') (s : List Char) (n : Nat) (L : Lexer) :
    quotedString quote (c :: s) n L = if c = quote then .ok (L.advance (n + 1)) else quotedString quote s (n + 1) L := by
  rw [quotedString.eq_def]
  dsimp only
  rw [if_neg hc]

/-! ## What the readers leave alone -/

section
variable {program : List Char} {E : Stop → Prop}

theorem same_continued (L : Lexer) (n : Nat) : Same L (L.advance n).incrementRowPosition :=
  (same_incrementColumnPosition L n).trans (same_incrementRowPosition _)

theorem ensures_quotedString (hE : Aborts E) (q : Char) (s : List Char) (n : Nat) (L : Lexer) :
    Ensures E (quotedString q s n L) (Same L) := by
  fun_induction quotedString q s n L with
  | case1 | case2 => exact hE.assertion
  | case3 _ _ _ ih => exact ih.mono fun _ h => (same_continued _ _).trans h
  | case4 _ _ _ _ _ ih => exact ih
  | case5 => exact same_incrementColumnPosition _ _
  | case6 _ _ _ _ _ _ ih => exact ih

theorem ensures_tripleQuotedString (hE : Aborts E) (q : Char) (s : List Char) (n : Nat) (L : Lexer) :
    Ensures E (tripleQuotedString q s n L) (Same L) := by
  fun_induction tripleQuotedString q s n L with
  | case1 | case2 | case5 | case6 => exact hE.assertion
  | case3 _ _ _ ih => exact ih.mono fun _ h => (same_continued _ _).trans h
  | case4 | case8 | case9 | case11 => assumption
  | case7 => exact same_incrementColumnPosition _ _
  | case10 _ _ _ _ _ ih => exact ih.mono fun _ h => (same_incrementRowPosition _).trans h

end

end Lexer

end Pylang.Lex
