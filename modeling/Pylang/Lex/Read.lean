/-
The other token readers, the step `read_more_tokens_loop` that tries them in
turn, and the states it reaches.
-/
import Pylang.Lex.Number
import Pylang.Lex.Quoted

namespace Pylang.Lex

def tabSize : Nat := 8

namespace Lexer

/-! ## Lines, comments and indentation -/

/-- The loop of `comment_start`. -/
def commentScan : List Char → Nat → Except Stop (Option Nat)
  | [], _ => .error .assertion
  | c :: s, n =>
    if isBlank c then
      match s with
      | [] => .error .assertion
      | d :: _ => if d = '#' then .ok (some (n + 1)) else commentScan s (n + 1)
    else .ok none

/-- `compute_indent_level`: the width of the blanks and their number, added to what is given. -/
def computeIndentLevel : List Char → Nat → Nat → Except Stop (Nat × Nat)
  | [], _, _ => .error .assertion
  | c :: s, value, pos =>
    if isBlank c then computeIndentLevel s (value + if c = '\t' then tabSize else 1) (pos + 1)
    else .ok (value, pos)

/-- The loop that leaves blocks until the top of the stack is the indentation that was read. -/
def dedent (value : Nat) (start stop : Position) : List Nat → Lexer → Except Stop Lexer
  | [], _ => .error .noIndent
  | top :: below, L =>
    if value ≠ top then dedent value start stop below { L.pushToken .dedent start stop with indentValues := below }
    else .ok L

/-- The loop that leaves every block at the end of the program. -/
def dedentAll : List Nat → Lexer → Lexer
  | _ :: below :: rest, L =>
    dedentAll (below :: rest) { L.pushToken .dedent L.position L.position with indentValues := below :: rest }
  | _, L => L

section
variable (program : List Char) (L : Lexer)

def commentStart : Except Stop (Option Nat) := do
  if program.length ≤ L.cursor then return none
  if (← L.peek program 0) = '#' then return some 0
  commentScan (L.rest program) 0

def tryReadComment : Except Stop (Bool × Lexer) := do
  let some start ← L.commentStart program | return (false, L)
  let hash := L.advance start
  let read ← (hash.advance 1).advanceWhile program fun c => c.isAlphanum || c ≠ '\n'
  let pushed := read.pushToken .comment hash.position read.position
  if pushed.currentLineTokens.length = 1 then return (true, pushed.pushEmptyLine)
  else return (true, pushed.pushNewLine)

/-- At the end of the program the blanks stay consumed. -/
def tryEmptyLine : Except Stop (Bool × Lexer) := do
  let c ← L.peek program 0
  if isSpace c && !isBlank c then
    if L.position.column = 0 then return (true, L.pushEmptyLine) else return (false, L)
  let skipped ← L.advanceWhile program isBlank
  if program.length ≤ skipped.cursor then return (false, skipped)
  if isSpace (← skipped.peek program 0) then return (true, skipped.pushEmptyLine)
  return (false, { skipped with cursor := L.cursor, position := L.position })

def tryReadIndent : Except Stop (Bool × Lexer) := do
  if L.position.column = 0 && L.parenthesisLevel = 0 then
    let (value, increment) ← computeIndentLevel (L.rest program) 0 0
    let moved := L.incrementColumnPosition increment
    match L.indentValues with
    | [] => throw .noIndent
    | top :: _ =>
      if top < value then
        let pushed := moved.pushToken .indent L.position moved.position
        return (true, { pushed with indentValues := value :: pushed.indentValues })
      else if value < top then
        return (true, ← dedent value L.position moved.position moved.indentValues moved)
      else return (false, moved)
  else return (false, L)

def tryReadNewline : Except Stop (Bool × Lexer) := do
  if ← L.peekNewline program then return (true, L.pushNewLine) else return (false, L)

def tryReadSpace : Except Stop Lexer := L.advanceWhile program isBlank

def tryReadBackslash : Except Stop Lexer := do
  let L ← L.tryReadSpace program
  let (backslash, L) ← L.advanceIf program (· = '\\')
  if backslash then
    let (newline, L) ← L.advanceIf program (· = '\n')
    if newline then return L.incrementRowPosition else throw .todo
  return L

/-! ## Names and operators -/

def validStartName (c : Char) : Bool := c.isAlpha || c = '_'
def validName (c : Char) : Bool := c.isAlphanum || c = '_'

def tryReadName : Except Stop (Bool × Lexer) := do
  if program.length ≤ L.cursor then return (false, L)
  if !validStartName (← L.peek program 0) then return (false, L)
  let (first, read) ← L.advanceIf program validStartName
  if !first then return (false, read)
  let read ← read.advanceWhile program validName
  return (true, read.pushToken .name L.position read.position)

/-- The operators of one length. -/
def lookupOperation (table : List (List Char × TokenType)) (size : Nat) : Option TokenType :=
  if program.length < L.cursor + size then none
  else
    let characters := (L.rest program).take size
    if characters.any Char.isAlphanum then none
    else (table.find? fun entry => entry.1 = characters).map fun entry => entry.2

def tryReadOperationWithThreeCharacters : Option TokenType :=
  L.lookupOperation program
    [(['<', '<', '='], .leftshiftequal), (['>', '>', '='], .rightshiftequal), (['*', '*', '='], .doublestarequal),
      (['/', '/', '='], .doubleslashequal), (['.', '.', '.'], .ellipsis)] 3

def tryReadOperationWithTwoCharacters : Option TokenType :=
  L.lookupOperation program
    [(['=', '='], .eqequal), (['!', '='], .notequal), (['<', '='], .lessequal), (['>', '='], .greaterequal),
      (['<', '<'], .leftshift), (['>', '>'], .rightshift), (['*', '*'], .doublestar), (['+', '='], .plusequal),
      (['-', '='], .minequal), (['*', '='], .starequal), (['/', '='], .slashequal), (['%', '='], .percentequal),
      (['&', '='], .amperequal), (['|', '='], .vbarequal), (['^', '='], .circumflexequal), (['/', '/'], .doubleslash),
      ([':', '='], .colonequal), (['@', '='], .atequal), (['-', '>'], .rarrow)] 2

def openParenthesis (type : TokenType) : Except Stop (Option TokenType × Lexer) :=
  .ok (some type, { L with parenthesisLevel := L.parenthesisLevel + 1 })

def closeParenthesis (type : TokenType) : Except Stop (Option TokenType × Lexer) :=
  if 0 < L.parenthesisLevel then .ok (some type, { L with parenthesisLevel := L.parenthesisLevel - 1 })
  else .error .assertion

/-- Back from the code of a replacement field into its f-string. -/
def popNormal (type : TokenType) : Except Stop (Option TokenType × Lexer) :=
  match L.mode with
  | .normal :: .fstring :: below => .ok (some type, { L with mode := .fstring :: below })
  | _ => .error .assertion

def simpleOperations : List (Char × TokenType) :=
  [(',', .comma), (';', .semi), ('+', .plus), ('-', .minus), ('*', .star), ('/', .slash), ('|', .vbar), ('&', .amper),
    ('<', .less), ('>', .greater), ('=', .equal), ('.', .dot), ('%', .percent), ('~', .tilde), ('^', .circumflex),
    ('@', .at), ('!', .exclamation)]

def tryReadOperationWithOneCharacter : Except Stop (Option TokenType × Lexer) := do
  let c ← L.peek program 0
  if c.isAlphanum then return (none, L)
  if c = '(' then L.openParenthesis .lparen
  else if c = ')' then L.closeParenthesis .rparen
  else if c = '[' then L.openParenthesis .lsqb
  else if c = ']' then L.closeParenthesis .rsqb
  else if c = '{' then L.openParenthesis .lbrace
  else if c = '}' then
    if 1 < L.mode.length then L.popNormal .rbrace else L.closeParenthesis .rbrace
  else if c = ':' then
    if 1 < L.mode.length then
      match L.fstringParenLevel with
      | [] => throw .undefined
      | level :: _ => if L.parenthesisLevel = level then L.popNormal .colon else return (some .colon, L)
    else return (some .colon, L)
  else return ((simpleOperations.find? fun entry => entry.1 = c).map fun entry => entry.2, L)

/-- The token of an operator of a length, from the state its reader leaves. -/
def pushOperation (read : Lexer) (type : TokenType) (length : Nat) : Bool × Lexer :=
  let moved := read.advance length
  (true, moved.pushToken type L.position moved.position)

def tryReadOperation : Except Stop (Bool × Lexer) := do
  if program.length ≤ L.cursor then return (false, L)
  match L.tryReadOperationWithThreeCharacters program with
  | some type => return L.pushOperation L type 3
  | none =>
    match L.tryReadOperationWithTwoCharacters program with
    | some type => return L.pushOperation L type 2
    | none =>
      match ← L.tryReadOperationWithOneCharacter program with
      | (some type, read) => return L.pushOperation read type 1
      | (none, read) => return (false, read)

/-! ## The step -/

/-- A reader, and what comes after it if it has read no token. -/
def orElse (reader : Lexer → Except Stop (Bool × Lexer)) (next : Lexer → Except Stop (Bool × Lexer)) :
    Except Stop (Bool × Lexer) := do
  let (read, L) ← reader L
  if read then return (true, L) else next L

/-- The branch of the end of the program. -/
def readEnd : Lexer :=
  let next := { L.incrementRowPosition with cursor := L.cursor + 1 }
  let left := dedentAll next.indentValues next
  left.pushToken .endmarker L.position left.position

/-- The readers after the indentation. -/
def readTokens : Except Stop (Bool × Lexer) :=
  L.orElse (·.tryReadNewline program) fun L => do
    let L ← L.tryReadBackslash program
    let L ← L.tryReadSpace program
    L.orElse (·.tryReadString program) (·.orElse (·.tryReadName program)
      (·.orElse (·.tryReadOperation program) (·.tryReadNumber program)))

def readMoreTokensLoop : Except Stop (Bool × Lexer) :=
  if program.length < L.cursor then .ok (false, L)
  else if L.cursor = program.length then .ok (true, L.readEnd)
  else
    match L.mode with
    | [] => .error .undefined
    | .normal :: _ =>
      L.orElse (·.tryEmptyLine program) (·.orElse (·.tryReadComment program)
        (·.orElse (·.tryReadIndent program) (·.readTokens program)))
    | .fstring :: _ => L.tryFstring program

/-- The states that steps lead to, from the one the lexer is created in; a step that has read nothing may have moved the
cursor over blanks all the same. -/
inductive Reaches : Lexer → Prop
  | create : Reaches {}
  | step {L L' : Lexer} {read : Bool} : Reaches L → L.readMoreTokensLoop program = .ok (read, L') → Reaches L'

/-- The state after some steps. -/
def readTimes : Nat → Lexer → Except Stop Lexer
  | 0, L => .ok L
  | n + 1, L => do
    let (_, L) ← L.readMoreTokensLoop program
    readTimes n L

/-- The tokens that `read_more_tokens` leaves to be emitted. -/
def emitted (ignoreComments ignoreNl : Bool) : List Token :=
  L.tokens.filter fun token =>
    !(ignoreComments && token.tokenType = .comment) && !(ignoreNl && token.tokenType = .nl)

end

section
variable {program : List Char}

/-- The step that fails is one from a state that is reached. -/
theorem Reaches.fails {L : Lexer} (h : Reaches program L) {n : Nat} {e : Stop}
    (hrun : readTimes program n L = .error e) :
    ∃ M, Reaches program M ∧ M.readMoreTokensLoop program = .error e := by
  induction n generalizing L with
  | zero => cases hrun
  | succ n ih =>
    unfold readTimes at hrun
    cases hstep : L.readMoreTokensLoop program with
    | error e' =>
      rw [hstep] at hrun
      obtain rfl : e' = e := Except.error.inj hrun
      exact ⟨L, h, hstep⟩
    | ok r =>
      obtain ⟨read, L'⟩ := r
      rw [hstep] at hrun
      exact ih (.step h hstep) hrun

theorem Reaches.times {L L' : Lexer} (h : Reaches program L) {n : Nat} (hrun : readTimes program n L = .ok L') :
    Reaches program L' := by
  induction n generalizing L with
  | zero =>
    obtain rfl := Except.ok.inj hrun
    exact h
  | succ n ih =>
    unfold readTimes at hrun
    cases hstep : L.readMoreTokensLoop program with
    | error e =>
      rw [hstep] at hrun
      cases hrun
    | ok r =>
      obtain ⟨read, M⟩ := r
      rw [hstep] at hrun
      exact ih (.step h hstep) hrun

variable {reader next : Lexer → Except Stop (Bool × Lexer)} {L M : Lexer}

theorem orElse_false (h : reader L = .ok (false, M)) : L.orElse reader next = next M := by
  unfold orElse
  rw [h]
  rfl

theorem orElse_error {e : Stop} (h : reader L = .error e) : L.orElse reader next = .error e := by
  unfold orElse
  rw [h]
  rfl

end

end Lexer

end Pylang.Lex
