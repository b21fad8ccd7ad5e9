/-
The syntax the ahead-of-time compiler's front end works on, shared by the
variable resolver and the code generator. Positions are kept where either of
them reads one.
-/
import Mathlib.Data.List.Basic

namespace Pylang.Front

/-- `SourceLocation::start`. -/
structure Loc where
  row : Nat
  column : Nat
  deriving DecidableEq

inductive Constant
  | int (i : Int)
  | float | str | bytes | bool | none | ellipsis
  deriving DecidableEq

inductive CmpOp
  | eq | notEq | lt | ltE | gt | gtE | is | isNot | «in» | notIn
  deriving DecidableEq

/-- The parameters of a function or lambda; `args` are the ones the generated
body binds. -/
structure Parameters where
  posonlyargs : List String
  args : List String
  kwonlyargs : List String
  vararg : Option String
  kwarg : Option String
  deriving DecidableEq

inductive CompKind
  | listComp | setComp | dictComp | generatorExp
  deriving DecidableEq

mutual

inductive Expr
  | constant (value : Constant)
  | name (id : String)
  | binary (lhs rhs : Expr)
  | unary (not : Bool) (operand : Expr)
  | compare (lhs : Expr) (ops : List CmpOp) (comparators : List Expr)
  | boolOp (and : Bool) (values : List Expr)
  /-- `names` are those of the keywords; `**value` has none. -/
  | call (function : Expr) (args : List Expr) (names : List (Option String)) (keywords : List Expr)
  | attribute (value : Expr) (attr : String)
  | subscript (value key : Expr)
  /-- A subscript by a slice; an absent bound is the constant `None`. -/
  | slice (value lower upper step : Expr)
  | ifExpr (test body orelse : Expr)
  | list (elements : List Expr)
  | tuple (elements : List Expr)
  | set (elements : List Expr)
  | dict (keys values : List Expr)
  | starred (value : Expr)
  | namedExpr (target : String) (value : Expr)
  | lambda (loc : Loc) (params : Parameters) (defaults kwDefaults : List Expr) (body : Expr)
  /-- `elts` is one element, or the key and the value of a dict comprehension. -/
  | comp (kind : CompKind) (loc : Loc) (elts : List Expr) (generators : List Generator)
  /-- `await`, `yield` and f-strings, which the code generator does not compile. -/
  | unsupported (operands : List Expr)

/-- `Comprehension`: one `for target in iter if ifs`. -/
inductive Generator
  | mk (target iter : Expr) (ifs : List Expr)

end

mutual

inductive Stmt
  | expression (value : Expr)
  | assign (targets : List Expr) (value : Expr)
  | augAssign (target value : Expr)
  | «return» (value : Option Expr)
  | delete (targets : List Expr)
  | «if» (test : Expr) (body orelse : List Stmt)
  | «while» (test : Expr) (body orelse : List Stmt)
  | «for» (target iter : Expr) (body orelse : List Stmt)
  | «break»
  | «continue»
  | pass
  /-- `annotations` are those of the parameters. -/
  | functionDef (name : String) (loc : Loc) (params : Parameters) (annotations : List Expr) (returns : Option Expr)
      (defaults kwDefaults : List Expr) (body : List Stmt) (decorators : List Expr)
  | classDef (name : String) (loc : Loc) (bases : List Expr) (names : List (Option String))
      (keywords : List Expr) (body : List Stmt) (decorators : List Expr)
  /-- The names that are bound, one for each alias. -/
  | «import» (stored : List String)
  | importFrom (stored : List String)
  | raise (exception cause : Option Expr)
  | assert (test : Expr) (msg : Option Expr)
  | «global» (names : List String)
  | nonlocal (names : List String)
  | «try» (body : List Stmt) (handlers : List Handler) (orelse finalbody : List Stmt)
  | «with» (items : List (Expr × Option Expr)) (body : List Stmt)

/-- `ExceptHandler`. -/
inductive Handler
  | mk (type : Option Expr) (name : Option String) (body : List Stmt)

end

/-- Whether the statement leaves its block with a terminator: `generate_body`
emits nothing after one. -/
def Stmt.terminates : Stmt → Bool
  | .return _ | .break | .continue => true
  | _ => false

/-- Whether the block is still open after `generate_body`. -/
def bodyFallsThrough (body : List Stmt) : Bool := body.all (!·.terminates)

end Pylang.Front
