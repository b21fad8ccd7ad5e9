/-
Parameters of `def`: what the rules make of what they match, down to the
`Arguments` node, and Python's parameter lists over the same tokens. The nodes
of expressions are of any type, and what the rules of expressions make of a
match is left open.
-/
import Pylang.Parser.MemoFaithful
import Pylang.Parser.Reading

namespace Pylang.Parse

open Pylang.Lex (TokenType Token)

/-! ## The nodes -/

/-- `ast::Argument` -/
structure Argument (N : Type) where
  name : List Char
  annotation : Option N

/-- `ast::Arguments`. A default of a keyword-only parameter may be null. -/
structure Arguments (N : Type) where
  posonlyargs : List (Argument N) := []
  args : List (Argument N) := []
  vararg : Option (Argument N) := none
  kwonlyargs : List (Argument N) := []
  kwDefaults : List (Option N) := []
  kwarg : Option (Argument N) := none
  defaults : List N := []

/-- The results of the patterns. -/
inductive Value (N : Type)
  | token (t : Token)
  | monostate
  | tuple (vs : List (Value N))
  | vector (vs : List (Value N))
  | optional (v : Option (Value N))
  | node (n : N)
  | argument (a : Argument N)
  | param (a : Argument N) (default : Option N)
  | starEtc (vararg : Option (Argument N)) (params : List (Argument N × Option N)) (kwds : Option (Argument N))
  | arguments (a : Arguments N)

namespace Value

variable {N : Type}

/-! A result's type is that of its pattern, so these read what is there. -/

def node? : Value N → Option N
  | .node n => some n
  | _ => none

def argument? : Value N → Option (Argument N)
  | .argument a => some a
  | _ => none

def param? : Value N → Option (Argument N × Option N)
  | .param a default => some (a, default)
  | _ => none

def value? : Value N → Option (Value N)
  | .optional v => v
  | _ => none

def items : Value N → List (Value N)
  | .vector vs => vs
  | _ => []

def argumentList (v : Value N) : List (Argument N) := v.items.filterMap argument?

def paramList (v : Value N) : List (Argument N × Option N) := v.items.filterMap param?

end Value

namespace Arguments

variable {N : Type}

/-- The parameters without a default, then those with one. -/
def withArgs (a : Arguments N) (noDefault withDefault : Value N) : Arguments N :=
  { a with
    args := noDefault.argumentList ++ withDefault.paramList.map Prod.fst
    defaults := a.defaults ++ withDefault.paramList.filterMap Prod.snd }

/-- `star_etc`, where it matched. -/
def withStarEtc (a : Arguments N) : Option (Value N) → Arguments N
  | some (.starEtc vararg params kwds) =>
    { a with vararg := vararg, kwonlyargs := params.map Prod.fst, kwDefaults := params.map Prod.snd, kwarg := kwds }
  | _ => a

end Arguments

/-! ## The rules -/

def Rule.ofParameters : Rule → Bool
  | .name | .annotationPattern | .param | .paramNoDefault | .default | .paramWithDefault | .paramMaybeDefault
  | .keywords | .starEtc | .slashWithDefault | .slashNoDefault | .parameters | .params => true
  | _ => false

section
variable {N : Type} (I : Input)

/-- What the rules of parameters make of the parts of an alternative. -/
def parameterNode : Rule → Nat → List (Value N) → Option (Value N)
  | .name, _, [_, name] => some name
  | .annotationPattern, _, [_, expression] => some expression
  | .param, _, [.token name, annotation] => some (.argument ⟨I.text name, annotation.value?.bind (·.node?)⟩)
  | .paramNoDefault, _, [param, _] => some param
  | .default, _, [_, expression] => some expression
  | .paramWithDefault, _, [.argument param, default, _] => some (.param param default.node?)
  | .paramMaybeDefault, _, [.argument param, default, _] => some (.param param (default.value?.bind (·.node?)))
  | .keywords, _, [_, .argument param] => some (.argument ⟨param.name, param.annotation⟩)
  | .starEtc, 0, [_, .argument param, params, kwds] =>
    some (.starEtc (some param) params.paramList (kwds.value?.bind (·.argument?)))
  | .starEtc, 1, [_, _, params, kwds] => some (.starEtc none params.paramList (kwds.value?.bind (·.argument?)))
  | .starEtc, 2, [kwds] => some (.starEtc none [] kwds.argument?)
  | .slashWithDefault, _, [noDefault, withDefault, _, _] => some (.tuple [noDefault, withDefault])
  | .slashNoDefault, _, [noDefault, _, _] => some noDefault
  | .parameters, 0, [slash, noDefault, withDefault, star] =>
    some (.arguments ((({ posonlyargs := slash.argumentList } : Arguments N).withArgs noDefault withDefault).withStarEtc
      star.value?))
  | .parameters, 1, [.tuple [noDefault, posonly], withDefault, star] =>
    some (.arguments ((({ posonlyargs := noDefault.argumentList ++ posonly.paramList.map Prod.fst
                          defaults := posonly.paramList.filterMap Prod.snd } : Arguments N).withArgs
      (.vector []) withDefault).withStarEtc star.value?))
  | .parameters, 2, [noDefault, withDefault, star] =>
    some (.arguments ((({} : Arguments N).withArgs noDefault withDefault).withStarEtc star.value?))
  | .parameters, 3, [withDefault, star] =>
    some (.arguments ((({} : Arguments N).withArgs (.vector []) withDefault).withStarEtc star.value?))
  | .parameters, 4, [star] => some (.arguments (({} : Arguments N).withStarEtc (some star)))
  | .params, _, [parameters] => some parameters
  | _, _, _ => none

/-- What the rules make of their matches. All others than those of parameters make nodes. -/
def parameterActions (other : Rule → Nat → List (Value N) → Nat → Nat → Option N) : Actions (Value N) where
  token := .token
  monostate := .monostate
  tuple := .tuple
  vector := .vector
  optional := .optional
  node r n vs i j := if r.ofParameters then parameterNode I r n vs else (other r n vs i j).map .node

abbrev parameterGrammar (other : Rule → Nat → List (Value N) → Nat → Nat → Option N) : Grammar Pattern (Value N) :=
  (parameterActions I other).grammar

end

/-! ## Python's parameter lists -/

/-- What stands between the commas. -/
inductive Entry (N : Type)
  | param (a : Argument N) (default : Option N)
  | slash
  | star
  | vararg (a : Argument N)
  | kwarg (a : Argument N)

/-- The parameters of a list. The star is none, or bare, or that of `*args`. -/
structure ParameterList (N : Type) where
  posonly : List (Argument N × Option N) := []
  args : List (Argument N × Option N) := []
  star : Option (Option (Argument N)) := none
  kwonly : List (Argument N × Option N) := []
  kwarg : Option (Argument N) := none

namespace ParameterList

variable {N : Type} (L : ParameterList N)

def params (ps : List (Argument N × Option N)) : List (Entry N) := ps.map fun p => .param p.1 p.2

def starEntries : List (Entry N) :=
  match L.star with
  | none => []
  | some none => [.star]
  | some (some a) => [.vararg a]

def slashEntries : List (Entry N) := if L.posonly.isEmpty then [] else [.slash]

def starEtcEntries : List (Entry N) := L.starEntries ++ (params L.kwonly ++ L.kwarg.toList.map .kwarg)

/-- In the order of the source. -/
def entries : List (Entry N) := params L.posonly ++ (L.slashEntries ++ (params L.args ++ L.starEtcEntries))

def arguments : List (Argument N) :=
  L.posonly.map Prod.fst ++ L.args.map Prod.fst ++ L.star.join.toList ++ L.kwonly.map Prod.fst ++ L.kwarg.toList

/-- The node of the list. -/
def node : Arguments N where
  posonlyargs := L.posonly.map Prod.fst
  args := L.args.map Prod.fst
  vararg := L.star.join
  kwonlyargs := L.kwonly.map Prod.fst
  kwDefaults := L.kwonly.map Prod.snd
  kwarg := L.kwarg
  defaults := (L.posonly ++ L.args).filterMap Prod.snd

/-- No parameter without a default comes after one with a default. -/
def DefaultsLast (ps : List (Argument N × Option N)) : Prop := ps.Pairwise fun p q => p.2.isSome = true → q.2.isSome = true

/-- A list, but for what follows a bare star and for the names. -/
structure Ordered : Prop where
  nonempty : L.entries ≠ []
  defaults : DefaultsLast (L.posonly ++ L.args)
  kwonly : L.star = none → L.kwonly = []

/-- Keywords of Python that are not among the reserved words. -/
def constants : List String := ["False", "None", "True"]

/-- A bare star is followed by a parameter, and the names are names. -/
structure Proper : Prop where
  bare : L.star = some none → L.kwonly ≠ []
  names : ∀ a ∈ L.arguments, ∀ word ∈ constants, a.name ≠ word.toList

/-- What Python's grammar takes. -/
def Valid : Prop := L.Ordered ∧ L.Proper

end ParameterList

/-! ## Their tokens -/

section
variable {N : Type} (I : Input) (other : Rule → Nat → List (Value N) → Nat → Nat → Option N)

/-- A name that is no reserved word. -/
def NameAt (name : List Char) (i : Nat) : Prop :=
  ∃ t, I.peekToken i = some t ∧ t.tokenType = .name ∧ I.text t = name ∧ ∀ word ∈ reservedKeywords, name ≠ word.toList

/-- An expression, with its node. -/
def ExpressionAt (i : Nat) (n : N) (j : Nat) : Prop :=
  Reads (parameterGrammar I other) I (.rule .expression) i (.node n) j

inductive ParamAt : Nat → Argument N → Nat → Prop
  | plain {name : List Char} {i : Nat} : NameAt I name i → ParamAt i ⟨name, none⟩ (i + 1)
  | annotated {name : List Char} {i j : Nat} {n : N} : NameAt I name i → TokenAt I .colon (i + 1) →
      ExpressionAt I other (i + 2) n j → ParamAt i ⟨name, some n⟩ j

/-- A comma, or the end of the list. -/
inductive SeparatorAt : Nat → Nat → Prop
  | comma {i : Nat} : TokenAt I .comma i → SeparatorAt i (i + 1)
  | last {i : Nat} : TokenAt I .rparen i → SeparatorAt i i

/-- An entry with what separates it from the next. The rules read a bare star with its comma only. -/
inductive EntryAt : Nat → Entry N → Nat → Prop
  | param {a : Argument N} {i j k : Nat} : ParamAt I other i a j → SeparatorAt I j k → EntryAt i (.param a none) k
  | withDefault {a : Argument N} {n : N} {i j k l : Nat} : ParamAt I other i a j → TokenAt I .equal j →
      ExpressionAt I other (j + 1) n k → SeparatorAt I k l → EntryAt i (.param a (some n)) l
  | slash {i j : Nat} : TokenAt I .slash i → SeparatorAt I (i + 1) j → EntryAt i .slash j
  | star {i : Nat} : TokenAt I .star i → TokenAt I .comma (i + 1) → EntryAt i .star (i + 2)
  | vararg {a : Argument N} {i j k : Nat} : TokenAt I .star i → ParamAt I other (i + 1) a j → SeparatorAt I j k →
      EntryAt i (.vararg a) k
  | kwarg {a : Argument N} {i j k : Nat} : TokenAt I .doublestar i → ParamAt I other (i + 1) a j → SeparatorAt I j k →
      EntryAt i (.kwarg a) k

inductive EntriesTo : Nat → List (Entry N) → Nat → Prop
  | nil {i : Nat} : EntriesTo i [] i
  | cons {e : Entry N} {es : List (Entry N)} {i j k : Nat} : EntryAt I other i e j → EntriesTo j es k →
      EntriesTo i (e :: es) k

/-- The list ends in a bare star that has no comma, as that of `def f(a, *)` does. -/
def EndsInStar (i : Nat) (es : List (Entry N)) (k : Nat) : Prop :=
  ∃ front j, es = front ++ [.star] ∧ EntriesTo I other i front j ∧ TokenAt I .star j ∧ k = j + 1

/-- A list of parameters stands from one position to another. -/
def ListTo (i : Nat) (es : List (Entry N)) (k : Nat) : Prop := EntriesTo I other i es k ∨ EndsInStar I other i es k

end

end Pylang.Parse
