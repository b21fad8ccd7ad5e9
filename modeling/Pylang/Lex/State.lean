/-
The lexer's state, and the steps every token reader takes: look ahead, move
on, start a row, push a token.

The text is a list of characters, each of them a byte of the source. Whatever
aborts the lexer (`ASSERT`, `TODO`) or leaves it undefined (a read past the
terminating zero, `back` of an empty vector) is a `Stop`.
-/
import Pylang.Lib.Ensures
import Mathlib.Data.List.Basic

namespace Pylang.Lex

structure Position where
  row : Nat
  column : Nat
  /-- The offset that `pointer_to_program` has in the program. -/
  pointer : Nat
deriving DecidableEq

inductive TokenType where
  | endmarker | comment | name | number | string | newline | nl | indent | dedent
  | lparen | rparen | lsqb | rsqb | colon | comma | semi | plus | minus | star | slash | vbar | amper | less | greater
  | equal | dot | percent | lbrace | rbrace | eqequal | notequal | lessequal | greaterequal | tilde | circumflex
  | leftshift | rightshift | doublestar | plusequal | minequal | starequal | slashequal | percentequal | amperequal
  | vbarequal | circumflexequal | leftshiftequal | rightshiftequal | doublestarequal | doubleslash | doubleslashequal
  | at | atequal | rarrow | ellipsis | colonequal | exclamation
  | fstringStart | fstringMiddle | fstringEnd
deriving DecidableEq

structure Token where
  tokenType : TokenType
  start : Position
  stop : Position
deriving DecidableEq

inductive Mode where
  | normal | fstring
deriving DecidableEq

inductive Quote where
  | singleSingleQuote | singleDoubleQuote | tripleSingleQuote | tripleDoubleQuote
deriving DecidableEq

inductive Stop where
  | assertion
  | todo
  /-- A read past the zero that ends the program, or the top of an empty stack. -/
  | undefined
  /-- The last of `m_indent_values` when there is none left. -/
  | noIndent
deriving DecidableEq

/-- The stacks have their top first; `tokens` are all that were pushed, in order. -/
structure Lexer where
  tokens : List Token := []
  cursor : Nat := 0
  position : Position := ⟨0, 0, 0⟩
  indentValues : List Nat := [0]
  currentLineTokens : List Token := []
  parenthesisLevel : Nat := 0
  mode : List Mode := [.normal]
  quote : List Quote := []
  fstringParenLevel : List Nat := []
deriving DecidableEq

/-! ## Characters, as the C library has them for ASCII -/

def isBlank (c : Char) : Bool := c = ' ' || c = '\t'

def isSpace (c : Char) : Bool :=
  c = ' ' || c = '\t' || c = '\n' || c = Char.ofNat 11 || c = Char.ofNat 12 || c = '\r'

namespace Lexer

/-! ## Steps -/

section
variable (L : Lexer)

def pushToken (type : TokenType) (start stop : Position) : Lexer :=
  { L with
    tokens := L.tokens ++ [⟨type, start, stop⟩]
    currentLineTokens := L.currentLineTokens ++ [⟨type, start, stop⟩] }

def incrementRowPosition : Lexer :=
  { L with position := ⟨L.position.row + 1, 0, L.cursor⟩, currentLineTokens := [] }

def incrementColumnPosition (idx : Nat) : Lexer :=
  { L with cursor := L.cursor + idx, position := ⟨L.position.row, L.position.column + idx, L.cursor + idx⟩ }

def advance (positions : Nat) : Lexer := L.incrementColumnPosition positions

def pushNewLine : Lexer :=
  let moved := L.incrementColumnPosition 1
  let type := if 0 < L.parenthesisLevel then .nl else .newline
  (moved.pushToken type L.position moved.position).incrementRowPosition

def pushEmptyLine : Lexer :=
  let moved := L.incrementColumnPosition 1
  (moved.pushToken .nl L.position moved.position).incrementRowPosition

end

section
variable (program : List Char) (L : Lexer)

/-- What is left of the program. -/
def rest : List Char := program.drop L.cursor

/-- `peek(i)`. -/
def peek (i : Nat) : Except Stop Char :=
  match program[L.cursor + i]? with
  | some c => .ok c
  | none => .error .assertion

/-- `m_program[m_cursor]`, where the zero after the last character can be read as well. -/
def current : Except Stop Char :=
  match program[L.cursor]? with
  | some c => .ok c
  | none => if L.cursor = program.length then .ok (Char.ofNat 0) else .error .undefined

/-- `peek("\n")`. -/
def peekNewline : Except Stop Bool := do
  return (← L.current program) = '\n'

/-- `advance_if`, of a condition or of a character. -/
def advanceIf (condition : Char → Bool) : Except Stop (Bool × Lexer) := do
  if condition (← L.current program) then return (true, L.incrementColumnPosition 1) else return (false, L)

/-- `advance_while`, without the number of characters it returns. -/
def advanceWhile (condition : Char → Bool) : Except Stop Lexer :=
  let n := ((L.rest program).takeWhile condition).length
  if (L.rest program).length = n ∧ condition (Char.ofNat 0) = true then .error .undefined
  else if program.length < L.cursor then .error .undefined
  else .ok (L.incrementColumnPosition n)

end

/-! ## What the steps ensure -/

/-- The predicates of `Stop` that hold of what aborts a reader. -/
structure Aborts (E : Stop → Prop) : Prop where
  assertion : E .assertion
  todo : E .todo
  undefined : E .undefined

/-- The characters of a stretch of the program, none of which is a line feed. -/
def Clear (program : List Char) (a b : Nat) : Prop := ∀ i, a ≤ i → i < b → ∃ c, program[i]? = some c ∧ c ≠ '\n'

theorem Clear.append {program : List Char} {a b c : Nat} (h : Clear program a b) (h' : Clear program b c) :
    Clear program a c := fun i hi hic => by
  by_cases hib : i < b
  · exact h i hi hib
  · exact h' i (by omega) hic

theorem Clear.nil (program : List Char) (a : Nat) : Clear program a a := fun i hi hia => by omega

theorem Clear.one {program : List Char} {a : Nat} {c : Char} (h : program[a]? = some c) (hc : c ≠ '\n') :
    Clear program a (a + 1) := fun i hi hia => by
  obtain rfl : i = a := by omega
  exact ⟨c, h, hc⟩

section
variable {program : List Char} {E : Stop → Prop}

theorem ensures_peek (hE : Aborts E) {L : Lexer} {i : Nat} {P : Char → Prop}
    (h : ∀ c, program[L.cursor + i]? = some c → P c) : Ensures E (L.peek program i) P := by
  unfold peek
  cases hc : program[L.cursor + i]? with
  | none => exact hE.assertion
  | some c => exact h c hc

theorem ensures_current (hE : Aborts E) (L : Lexer) :
    Ensures E (L.current program) fun c =>
      program[L.cursor]? = some c ∨ L.cursor = program.length ∧ c = Char.ofNat 0 := by
  unfold current
  cases h : program[L.cursor]? with
  | none =>
    dsimp only
    split
    next heq => exact .inr ⟨heq, rfl⟩
    next => exact hE.undefined
  | some c => exact .inl rfl

theorem ensures_advanceIf (hE : Aborts E) (L : Lexer) {condition : Char → Bool}
    (hzero : condition (Char.ofNat 0) = false) :
    Ensures E (L.advanceIf program condition) fun r =>
      r = (false, L) ∧ (∀ c, program[L.cursor]? = some c → condition c = false) ∨
        ∃ c, program[L.cursor]? = some c ∧ condition c = true ∧ r = (true, L.incrementColumnPosition 1) := by
  unfold advanceIf
  rw [ensures_bind]
  refine (ensures_current hE L).mono fun c hc => ?_
  split
  next htrue =>
    rcases hc with hc | ⟨-, rfl⟩
    · exact .inr ⟨c, hc, htrue, rfl⟩
    · rw [hzero] at htrue
      cases htrue
  next hfalse =>
    refine .inl ⟨rfl, fun d hd => ?_⟩
    rcases hc with hc | ⟨hend, -⟩
    · obtain rfl : c = d := Option.some.inj (hc.symm.trans hd)
      simpa using hfalse
    · rw [hend, List.getElem?_eq_none (Nat.le_refl _)] at hd
      cases hd

theorem rest_length (program : List Char) (L : Lexer) : (L.rest program).length = program.length - L.cursor :=
  List.length_drop

/-- `advance_while` moves over characters that meet the condition, and stops inside the program. -/
theorem ensures_advanceWhile (hE : Aborts E) (L : Lexer) (condition : Char → Bool) :
    Ensures E (L.advanceWhile program condition) fun L' =>
      ∃ n, L' = L.incrementColumnPosition n ∧ L.cursor + n ≤ program.length ∧
        ∀ i, L.cursor ≤ i → i < L.cursor + n → ∃ c, program[i]? = some c ∧ condition c = true := by
  unfold advanceWhile
  dsimp only
  split
  next => exact hE.undefined
  next =>
    split
    next => exact hE.undefined
    next hle =>
      have hlen : ((L.rest program).takeWhile condition).length ≤ (L.rest program).length :=
        (List.takeWhile_sublist condition).length_le
      have hrest := rest_length program L
      refine ⟨_, rfl, by omega, fun i hi hlt => ?_⟩
      obtain ⟨k, rfl⟩ := Nat.exists_eq_add_of_le hi
      have hk : k < ((L.rest program).takeWhile condition).length := by omega
      refine ⟨((L.rest program).takeWhile condition)[k], ?_,
        List.all_eq_true.1 List.all_takeWhile _ (List.getElem_mem hk)⟩
      have hget := (List.takeWhile_prefix condition (l := L.rest program)).getElem hk
      rw [hget, ← List.getElem?_drop]
      exact List.getElem?_eq_getElem _

/-- It stops at a character that does not meet the condition, if the zero at the end meets it. -/
theorem ensures_advanceWhile_stops (hE : Aborts E) (L : Lexer) {condition : Char → Bool}
    (hzero : condition (Char.ofNat 0) = true) :
    Ensures E (L.advanceWhile program condition) fun L' =>
      ∃ c, program[L'.cursor]? = some c ∧ condition c = false := by
  unfold advanceWhile
  dsimp only
  split
  next => exact hE.undefined
  next hshort =>
    split
    next => exact hE.undefined
    next =>
      have hsplit := List.takeWhile_append_dropWhile (p := condition) (l := L.rest program)
      cases hd : (L.rest program).dropWhile condition with
      | nil =>
        rw [hd, List.append_nil] at hsplit
        exact absurd ⟨congrArg List.length hsplit.symm, hzero⟩ hshort
      | cons c s =>
        have hhead := List.head?_dropWhile_not condition (L.rest program)
        rw [hd] at hsplit hhead
        refine ⟨c, ?_, by simpa using hhead⟩
        show program[L.cursor + _]? = some c
        rw [← List.getElem?_drop]
        show (L.rest program)[_]? = some c
        have hget : ((L.rest program).takeWhile condition ++ c :: s)[((L.rest program).takeWhile condition).length]? =
            some c := by
          rw [List.getElem?_append_right (Nat.le_refl _), Nat.sub_self]
          rfl
        rwa [hsplit] at hget

end

/-- Only the position has moved. -/
structure Same (L L' : Lexer) : Prop where
  tokens : L'.tokens = L.tokens
  indentValues : L'.indentValues = L.indentValues
  parenthesisLevel : L'.parenthesisLevel = L.parenthesisLevel
  mode : L'.mode = L.mode
  quote : L'.quote = L.quote
  fstringParenLevel : L'.fstringParenLevel = L.fstringParenLevel

theorem Same.trans {L L' L'' : Lexer} (h : Same L L') (h' : Same L' L'') : Same L L'' :=
  ⟨h'.tokens.trans h.tokens, h'.indentValues.trans h.indentValues, h'.parenthesisLevel.trans h.parenthesisLevel,
    h'.mode.trans h.mode, h'.quote.trans h.quote, h'.fstringParenLevel.trans h.fstringParenLevel⟩

theorem same_incrementColumnPosition (L : Lexer) (n : Nat) : Same L (L.incrementColumnPosition n) :=
  ⟨rfl, rfl, rfl, rfl, rfl, rfl⟩

theorem same_incrementRowPosition (L : Lexer) : Same L L.incrementRowPosition := ⟨rfl, rfl, rfl, rfl, rfl, rfl⟩

end Lexer

end Pylang.Lex
