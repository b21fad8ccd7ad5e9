/-
The parser's engine: patterns, the memo table, and what `match` and `matches`
do. Each instantiation of a template is a struct of its own with a `typeid` of
its own, so a pattern is a name here and the grammar has what it is.

A step that reads a token there is none of, or a table entry that has no value,
has no result, and neither has a run that does not end.
-/
import Mathlib
import Pylang.Lex.State

namespace Pylang.Parse

open Pylang.Lex (TokenType Token)

/-- What the parser reads: the lexer's tokens, and the program their texts are in. -/
structure Input where
  program : List Char
  tokens : List Token

namespace Input

variable (I : Input)

/-- `lexer().peek_token(i)`. -/
def peekToken (i : Nat) : Option Token := I.tokens[i]?

/-- The text from the token's start to its end. -/
def text (t : Token) : List Char := (I.program.drop t.start.pointer).take (t.stop.pointer - t.start.pointer)

end Input

/-! ## Patterns -/

/-- What a pattern is: an instance of a template, or a rule, whose `matches_impl` tries its alternatives in their order
and makes a result of the parts of the first that matches (and of the positions before and after them). -/
inductive Body (P V : Type)
  | singleToken (types : List TokenType)
  | andLiteral (types : List TokenType) (literal : List Char → Bool)
  | notAt (literals : List Char → Bool)
  | alternatives (as : List (List P × (List V → Nat → Nat → Option V)))
  | oneOrMore (parts : List P)
  | zeroOrMore (parts : List P)
  | zeroOrOne (parts : List P)
  | applyInBetween (main between : P)
  | lookAhead (p : P)
  | negativeLookAhead (p : P)

/-- The results that are not a rule's own. -/
structure Values (V : Type) where
  token : Token → V
  monostate : V
  tuple : List V → V
  vector : List V → V
  optional : Option V → V

/-- A pack of one pattern has the result of that pattern. -/
def Values.pack {V : Type} (R : Values V) : List V → V
  | [v] => v
  | vs => R.tuple vs

structure Grammar (P V : Type) extends Values V where
  body : P → Body P V
  /-- The result type is one of `ValueTypes`. -/
  memoized : P → Bool

/-- `advance_by` where the pattern has it. -/
def Body.advanceBy {P V : Type} : Body P V → Nat
  | .singleToken _ | .andLiteral _ _ => 1
  | _ => 0

/-- The patterns a pattern is made of. -/
def Body.uses {P V : Type} : Body P V → List P
  | .singleToken _ | .andLiteral _ _ | .notAt _ => []
  | .alternatives as => as.flatMap Prod.fst
  | .oneOrMore parts | .zeroOrMore parts | .zeroOrOne parts => parts
  | .applyInBetween main between => [main, between]
  | .lookAhead p | .negativeLookAhead p => [p]

/-- The rules, and what they are made of. -/
inductive Grammar.Occurs {P V : Type} (G : Grammar P V) (rules : P → Prop) : P → Prop
  | rule {p : P} : rules p → G.Occurs rules p
  | uses {p q : P} : G.Occurs rules p → q ∈ (G.body p).uses → G.Occurs rules q

/-! ## Tokens -/

/-- `SingleTokenPattern_::match`: the position it leaves, if a type matches. -/
def singleToken (I : Input) : List TokenType → Nat → Option (Option Nat)
  | [], _ => some none
  | head :: tail, i => do
    let this ← I.peekToken i
    if head = this.tokenType then some (some i)
    else return (← singleToken I tail i).map (· + 1)

/-- `SingleTokenPatternV2::matches`: the token it answers and the position. -/
def singleTokenAt (I : Input) (types : List TokenType) (i : Nat) : Option (Option (Token × Nat)) := do
  match ← singleToken I types i with
  | none => some none
  | some j => some ((I.peekToken j).map (·, j))

def andLiteralAt (I : Input) (types : List TokenType) (literal : List Char → Bool) (i : Nat) :
    Option (Option (Token × Nat)) := do
  match ← singleTokenAt I types i with
  | none => some none
  | some (_, j) =>
    let token ← I.peekToken j
    some (if literal (I.text token) then some (token, j) else none)

/-! ## The parser -/

/-- `CacheKey`, as `CacheEqual` compares it. -/
abbrev Key (P : Type) := P × Nat × TokenType

def key {P : Type} (p : P) (t : Token) : Key P := (p, t.start.pointer, t.tokenType)

/-- An entry of the table. A rule that failed has no value. -/
inductive CacheValue (V : Type)
  | failure
  | seed (leftRecursion : Bool) (position : Nat)
  | result (value : V) (position : Nat)

structure Parser (P V : Type) where
  position : Nat := 0
  cache : Key P → Option (CacheValue V) := fun _ => none

variable {P V : Type} [DecidableEq P]

def Parser.at (s : Parser P V) (position : Nat) : Parser P V := { s with position := position }

def Parser.store (s : Parser P V) (k : Key P) (value : CacheValue V) : Parser P V :=
  { s with cache := Function.update s.cache k (some value) }

/-- The position of an entry that has a value. -/
def CacheValue.position? : CacheValue V → Option Nat
  | .failure => none
  | .seed _ position | .result _ position => some position

/-- Where growth stops: what the entry has, at its position. -/
def CacheValue.stop (entry : CacheValue V) (position : Nat) (s : Parser P V) : Option V × Parser P V :=
  (match entry with | .result v _ => some v | _ => none, s.at position)

/-! ## Matching -/

section Matching

variable (G : Grammar P V) (I : Input)

mutual

/-- The loop of `ApplyInBetweenPatternV2`, from a match of the main pattern on. -/
def _inBetween (main between : P) (s : Parser P V) : Option (Option (List V) × Parser P V) := do
  let (r, s) ← matchPack [main] s
  match r with
  | none => some (none, s)
  | some vs =>
    let (b, s') ← matchPack [between] s
    match b with
    | none => some (some vs, s')
    | some _ =>
      let (rest, s') ← _inBetween main between s'
      match rest with
      | some ws => some (some (vs ++ ws), s')
      | none => some (some vs, s'.at s.position)
partial_fixpoint

/-- `PatternV2::matches`. -/
def «matches» (p : P) (s : Parser P V) : Option (Option V × Parser P V) :=
  if G.memoized p then do
    let t ← I.peekToken s.position
    let (r, s') ← matchesImpl (G.body p) (s.store (key p t) (.seed false s.position))
    match r with
    | none => some (none, s'.at s.position)
    | some v =>
      match ← s'.cache (key p t) with
      | .failure => none
      | .seed true _ => growLr p (key p t) s.position s'
      | _ => some (some v, s')
  else do
    let (r, s') ← matchesImpl (G.body p) s
    match r with
    | none => some (none, s'.at s.position)
    | some v => some (some v, s')
partial_fixpoint

/-- `grow_lr`. The entry is read where the code has its reference. -/
def growLr (p : P) (k : Key P) (start : Nat) (s : Parser P V) : Option (Option V × Parser P V) := do
  let (r, s) ← matchesImpl (G.body p) (s.at start)
  let entry ← s.cache k
  let position ← entry.position?
  match r with
  | none => some (entry.stop position s)
  | some v =>
    if s.position ≤ position then some (entry.stop position s)
    else growLr p k start (s.store k (.result v s.position))
partial_fixpoint

/-- `PatternMatchV2_::match` for the head of a pack, up to the tail. -/
def matchHead (p : P) (s : Parser P V) : Option (Option V × Parser P V) :=
  match I.peekToken s.position with
  | none => some (none, s)
  | some t =>
    match if G.memoized p then s.cache (key p t) else none with
    | some .failure => some (none, s)
    | some (.seed _ position) => some (none, (s.store (key p t) (.seed true position)).at position)
    | some (.result v position) => some (some v, s.at (position + (G.body p).advanceBy))
    | none => do
      let (r, s') ← «matches» p s
      match r with
      | some v =>
        let s' := if G.memoized p then s'.store (key p t) (.result v s'.position) else s'
        some (some v, s'.at (s'.position + (G.body p).advanceBy))
      | none =>
        let s' := if G.memoized p then s'.store (key p t) .failure else s'
        some (none, s'.at s.position)
partial_fixpoint

def matchAll (parts : List P) (s : Parser P V) : Option (Option (List V) × Parser P V) :=
  match parts with
  | [] => some (some [], s)
  | p :: ps => do
    let (r, s) ← matchHead p s
    match r with
    | none => some (none, s)
    | some v =>
      let (rs, s) ← matchAll ps s
      some (rs.map (v :: ·), s)
partial_fixpoint

/-- `PatternMatchV2::match`. -/
def matchPack (parts : List P) (s : Parser P V) : Option (Option (List V) × Parser P V) := do
  let (r, s') ← matchAll parts s
  match r with
  | some vs => some (some vs, s')
  | none => some (none, s'.at s.position)
partial_fixpoint

/-- The alternatives of a rule. One that matches ends it, even where it makes no result. -/
def oneOf (as : List (List P × (List V → Nat → Nat → Option V))) (s : Parser P V) : Option (Option V × Parser P V) :=
  match as with
  | [] => some (none, s)
  | (parts, act) :: as => do
    let (r, s') ← matchPack parts s
    match r with
    | some vs => some (act vs s.position s'.position, s')
    | none => oneOf as s'
partial_fixpoint

/-- The loop of `OneOrMorePatternV2` and `ZeroOrMorePatternV2`. -/
def repeated (parts : List P) (s : Parser P V) : Option (List V × Parser P V) := do
  let (r, s) ← matchPack parts s
  match r with
  | none => some ([], s)
  | some vs =>
    let (rest, s) ← repeated parts s
    some (G.pack vs :: rest, s)
partial_fixpoint

/-- `matches_impl`. -/
def matchesImpl (body : Body P V) (s : Parser P V) : Option (Option V × Parser P V) :=
  match body with
  | .singleToken types => do
    match ← singleTokenAt I types s.position with
    | none => some (none, s)
    | some (t, i) => some (some (G.token t), s.at i)
  | .andLiteral types literal => do
    match ← andLiteralAt I types literal s.position with
    | none => some (none, s)
    | some (t, i) => some (some (G.token t), s.at i)
  | .notAt literals => do
    let t ← I.peekToken s.position
    some (if literals (I.text t) then none else some G.monostate, s)
  | .alternatives as => oneOf as s
  | .oneOrMore parts => do
    let (r, s) ← matchPack parts s
    match r with
    | none => some (none, s)
    | some vs =>
      let (rest, s) ← repeated parts s
      some (some (G.vector (G.pack vs :: rest)), s)
  | .zeroOrMore parts => do
    let (vs, s) ← repeated parts s
    some (some (G.vector vs), s)
  | .zeroOrOne parts => do
    let (r, s) ← matchPack parts s
    some (some (G.optional (r.map G.pack)), s)
  | .applyInBetween main between => do
    let (r, s) ← _inBetween main between s
    some (r.map G.vector, s)
  | .lookAhead p => do
    let (r, s') ← «matches» p s
    some (if r.isSome then some G.monostate else none, s'.at s.position)
  | .negativeLookAhead p => do
    let (r, s') ← «matches» p s
    some (if r.isSome then none else some G.monostate, s'.at s.position)
partial_fixpoint

end

end Matching

end Pylang.Parse
