/-
The patterns without a table: a PEG over the tokens, in which a rule that
starts with itself stands for its longest growth to the left, each round with
the last result in the place of the rule.
-/
import Mathlib
import Pylang.Parser.Engine

namespace Pylang.Parse

open Pylang.Lex (TokenType Token)

variable {P V : Type} [DecidableEq P]

/-- The first alternative of the rule starts with the rule. -/
def Grammar.leftRecursive (G : Grammar P V) (p : P) : Bool :=
  match G.body p with
  | .alternatives ((q :: _, _) :: _) => q = p
  | _ => false

section Reference

variable (G : Grammar P V) (I : Input)

/-- What a match gives, and where it ends. -/
abbrev Found (V : Type) := Option (V × Nat)

/-- A pattern at a position with what it has grown to. -/
structure Own (P V : Type) where
  pattern : P
  start : Nat
  grown : Found V

/-- A pattern at a token, `advance_by` included. -/
def found (advanceBy : Nat) (r : Found V) : Found V := r.map fun (v, i) => (v, i + advanceBy)

mutual

def _parseInBetween (own : Own P V) (main between : P) (i : Nat) : Option (Option (List V × Nat)) := do
  match ← parseAll own [main] i with
  | none => some none
  | some (vs, j) =>
    match ← parseAll own [between] j with
    | none => some (some (vs, j))
    | some (_, k) =>
      match ← _parseInBetween own main between k with
      | none => some (some (vs, j))
      | some (ws, l) => some (some (vs ++ ws, l))
partial_fixpoint

def parse (p : P) (i : Nat) : Option (Found V) := do
  match ← parseBody ⟨p, i, none⟩ (G.body p) i with
  | none => some none
  | some (v, j) => if G.leftRecursive p then grow p i v j else some (some (v, j))
partial_fixpoint

def grow (p : P) (i : Nat) (v : V) (j : Nat) : Option (Found V) := do
  match ← parseBody ⟨p, i, some (v, j)⟩ (G.body p) i with
  | none => some (some (v, j))
  | some (w, k) => if k ≤ j then some (some (v, j)) else grow p i w k
partial_fixpoint

def parseHead (own : Own P V) (p : P) (i : Nat) : Option (Found V) :=
  match I.peekToken i with
  | none => some none
  | some _ =>
    if p = own.pattern ∧ i = own.start then some (found (G.body p).advanceBy own.grown)
    else do return found (G.body p).advanceBy (← parse p i)
partial_fixpoint

def parseAll (own : Own P V) (ps : List P) (i : Nat) : Option (Option (List V × Nat)) :=
  match ps with
  | [] => some (some ([], i))
  | p :: ps => do
    match ← parseHead own p i with
    | none => some none
    | some (v, j) =>
      match ← parseAll own ps j with
      | none => some none
      | some (vs, k) => some (some (v :: vs, k))
partial_fixpoint

def parseOneOf (own : Own P V) (as : List (List P × (List V → Nat → Nat → Option V))) (i : Nat) : Option (Found V) :=
  match as with
  | [] => some none
  | (parts, act) :: as => do
    match ← parseAll own parts i with
    | none => parseOneOf own as i
    | some (vs, j) => some ((act vs i j).map (·, j))
partial_fixpoint

def parseRepeated (own : Own P V) (parts : List P) (i : Nat) : Option (List V × Nat) := do
  match ← parseAll own parts i with
  | none => some ([], i)
  | some (vs, j) =>
    let (rest, k) ← parseRepeated own parts j
    some (G.pack vs :: rest, k)
partial_fixpoint

def parseBody (own : Own P V) (body : Body P V) (i : Nat) : Option (Found V) :=
  match body with
  | .singleToken types => do return (← singleTokenAt I types i).map fun (t, j) => (G.token t, j)
  | .andLiteral types literal => do return (← andLiteralAt I types literal i).map fun (t, j) => (G.token t, j)
  | .notAt literals => do
    let t ← I.peekToken i
    some (if literals (I.text t) then none else some (G.monostate, i))
  | .alternatives as => parseOneOf own as i
  | .oneOrMore parts => do
    match ← parseAll own parts i with
    | none => some none
    | some (vs, j) =>
      let (rest, k) ← parseRepeated own parts j
      some (some (G.vector (G.pack vs :: rest), k))
  | .zeroOrMore parts => do
    let (vs, j) ← parseRepeated own parts i
    some (some (G.vector vs, j))
  | .zeroOrOne parts => do
    match ← parseAll own parts i with
    | none => some (some (G.optional none, i))
    | some (vs, j) => some (some (G.optional (some (G.pack vs)), j))
  | .applyInBetween main between => do
    match ← _parseInBetween own main between i with
    | none => some none
    | some (vs, j) => some (some (G.vector vs, j))
  | .lookAhead p => do
    let r ← parse p i
    some (if r.isSome then some (G.monostate, i) else none)
  | .negativeLookAhead p => do
    let r ← parse p i
    some (if r.isSome then none else some (G.monostate, i))
partial_fixpoint

end

end Reference

end Pylang.Parse
