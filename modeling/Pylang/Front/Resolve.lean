/-
`VariablesResolver` on the symbols of the scopes: `store`, `load`, `delete_`
and the annotation of free and cell variables, as the source writes them, over
the run of a module.
-/
import Pylang.Front.Walk
import Pylang.Front.Skeleton

namespace Pylang.Front

namespace SymbolMap

def contains (m : SymbolMap) (n : String) : Bool := m.any (·.1 == n)

/-- `get_symbol`. -/
def get (m : SymbolMap) (n : String) : Option Visibility := (m.find? (·.1 == n)).map (·.2)

/-- `get_hidden_symbol`. -/
def hasHidden (m : SymbolMap) (n : String) : Bool := m.any fun s => s.1 == n && s.2 == .hidden

/-- `add_symbol`. -/
def add (m : SymbolMap) (n : String) (v : Visibility) : SymbolMap :=
  if v = .hidden then if m.hasHidden n then m else m ++ [(n, v)]
  else if (m.visible n).isSome then m else m ++ [(n, v)]

/-- `delete_symbol`: the first symbol of that name. -/
def erase (m : SymbolMap) (n : String) : SymbolMap := m.eraseP (·.1 == n)

end SymbolMap

/-- What the resolver changes in a scope. -/
structure Entry where
  symbols : SymbolMap
  captures : List String

abbrev Scopes := ScopeId → Entry

def typeOf : ScopeId → ScopeType
  | [] => .module
  | s :: _ => s.2

/-- The scopes around a scope, the nearest first. -/
def outers : ScopeId → List ScopeId
  | [] | [_] => []
  | _ :: s :: p => (s :: p) :: outers (s :: p)

namespace Scopes

variable (σ : Scopes)

def visible (id : ScopeId) (n : String) : Option Visibility := (σ id).symbols.visible n

def modify (id : ScopeId) (f : SymbolMap → SymbolMap) : Scopes :=
  fun q => if q = id then { σ q with symbols := f (σ q).symbols } else σ q

def add (id : ScopeId) (n : String) (v : Visibility) : Scopes := σ.modify id (·.add n v)

/-- `delete_symbol` and `add_symbol`. -/
def replace (id : ScopeId) (n : String) (v : Visibility) : Scopes := σ.modify id fun m => (m.erase n).add n v

/-- `top_level_node`: the nearest scope around, the module left out, that has
the name. -/
def topLevelNode (id : ScopeId) (n : String) : Option ScopeId :=
  (outers id).dropLast.find? fun q => (σ.visible q n).isSome

/-- The scopes from `id` up to `top`, which is left out. -/
def chain (id top : ScopeId) : List ScopeId := id :: (outers id).takeWhile (· != top)

/-- `annotate_free_and_cell_variables`. -/
def annotate (id : ScopeId) (n : String) : Scopes :=
  match σ.topLevelNode id n with
  | none => σ.add id n .implicitGlobal
  | some top => fun q =>
    if q ∈ chain id top then
      { symbols := (σ q).symbols.add n .free, captures := n :: (σ q).captures }
    else if q = top ∧ σ.visible top n ≠ some .free then
      { σ q with symbols := ((σ q).symbols.erase n).add n .cell }
    else σ q

/-- The nearest symbol around that `p` does not pass over. -/
def nearest (id : ScopeId) (n : String) (p : Visibility → Bool) : Option Visibility :=
  (outers id).findSome? fun q => (σ.visible q n).filter p

/-- `store`. -/
def store (id : ScopeId) (n : String) : Scopes :=
  match typeOf id with
  | .module => if (σ id).symbols.contains n then σ else σ.add id n .implicitGlobal
  | .function =>
    match (σ id).symbols.get n with
    | some .implicitGlobal => σ.replace id n .local
    | some _ => σ
    | none => σ.add id n .local
  | .closure =>
    if (σ id).symbols.contains n then σ
    else match σ.nearest id n (fun _ => true) with
      | some .cell => σ.annotate id n
      | some .implicitGlobal | some .explicitGlobal | some .free => σ
      | _ => σ.add id n .local
  | .class => if (σ id).symbols.contains n then σ else σ.add id n .hidden

/-- `delete_` has the code of `store`. -/
def delete (id : ScopeId) (n : String) : Scopes := σ.store id n

/-- The symbols for which the search of `load` ends. -/
def stopsLoad : Visibility → Bool
  | .implicitGlobal | .explicitGlobal | .cell | .local | .free => true
  | .name | .hidden => false

/-- `load` after its special names. -/
def loadPlain (id : ScopeId) (n : String) : Scopes :=
  match typeOf id with
  | .module => σ.add id n .name
  | .function => σ.add id n .implicitGlobal
  | .closure | .class =>
    match σ.nearest id n stopsLoad with
    | some .explicitGlobal => σ.add id n .explicitGlobal
    | some .implicitGlobal | none => σ.add id n .implicitGlobal
    | some _ => σ.annotate id n

/-- `load` of `__class__` in the class scope `cls`. -/
def loadClassRef (id cls : ScopeId) : Scopes :=
  if (σ id).symbols.contains "__class__" then σ
  else (σ.annotate id "__class__").add cls "__classcell__" .hidden

/-- `load`. -/
def load (id : ScopeId) (n : String) : Scopes :=
  if (σ id).symbols.contains n then σ
  else match (outers id).find? (typeOf · == .class) with
    | none => σ.loadPlain id n
    | some cls =>
      if n = "super" then (σ.loadClassRef id cls).loadPlain id n
      else if n = "__class__" then σ.loadClassRef id cls
      else σ.loadPlain id n

/-- One name of a `global` statement. -/
def declareGlobal (id : ScopeId) (n : String) : Option Scopes :=
  match σ.visible id n with
  | some .name | some .local | some .cell | some .free => none
  | _ => some (σ.add id n .explicitGlobal)

/-- One name of a `nonlocal` statement. -/
def declareNonlocal (id : ScopeId) (n : String) : Option Scopes :=
  match σ.visible id n with
  | some .explicitGlobal | some .name | some .local | some .cell | some .free => none
  | _ => some (σ.annotate id n)

/-- One operation; `none` is an abort. -/
def step (id : ScopeId) : Op → Option Scopes
  | .param n => if (σ.visible id n).isSome then none else some (σ.add id n .local)
  | .target n => some (σ.add id n .local)
  | .store n | .storeAnonymous n => some (σ.store id n)
  | .delete n => some (σ.delete id n)
  | .load n | .handlerName n => some (σ.load id n)
  | .classCell => some (σ.add id "__class__" .cell)
  | .global n => σ.declareGlobal id n
  | .nonlocal n => σ.declareNonlocal id n
  | .abort => none

/-- A run of the resolver. -/
def run : Scopes → List (ScopeId × Op) → Option Scopes
  | σ, [] => some σ
  | σ, s :: rest => (σ.step s.1 s.2).bind fun σ' => run σ' rest

end Scopes

/-- `resolve`. -/
def resolve (body : List Stmt) : Option Scopes := Scopes.run (fun _ => ⟨[], []⟩) (resolverRun body)

end Pylang.Front
