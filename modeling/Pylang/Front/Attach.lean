/-
The scope of the resolver that the code generator attaches to the body of a
function, lambda, class or comprehension. The resolver keys a scope by the
dotted namespace around it; the code generator looks functions up by that key,
classes by their namespace and comprehensions by the name it mangled itself.
-/
import Pylang.Front.Walk

namespace Pylang.Front

/-- A part of a dotted name. Identifiers have no dots or angle brackets. -/
inductive Part
  | ident (n : String)
  | lambda
  | comp (kind : CompKind)
  /-- `<module>`. -/
  | module
  /-- `__class__n__`. -/
  | classOf (n : String)
  | location (loc : Loc)
  deriving DecidableEq

/-- A dotted name, the last part first. -/
abbrev Dotted := List Part

/-- The name of a node in `function_mangle`. -/
def Node.part (node : Node) : Part :=
  match node.kind with
  | .function | .class => .ident node.name
  | .lambda => .lambda
  | .comp kind => .comp kind

/-- `function_mangle`, with the name of the node. -/
def functionMangle (ns : Dotted) (node : Node) : Dotted := .location node.loc :: node.part :: ns

/-- The key the resolver gives a scope: `class_mangle` for a class. -/
def Node.key (ns : Dotted) (node : Node) : Dotted :=
  match node.kind with
  | .class => .location node.loc :: .classOf node.name :: ns
  | _ => functionMangle ns node

/-- A `VariablesResolver::Scope`, with its key in the visibility map. -/
structure Created where
  id : ScopeId
  node : Node
  /-- `namespace_`. -/
  ns : Dotted
  key : Dotted
  deriving DecidableEq

def Created.isClass (c : Created) : Bool := c.node.kind = .class

def Created.isComp (c : Created) : Bool :=
  match c.node.kind with
  | .comp _ => true
  | _ => false

/-- The scope of the `k`-th node in the scope `id`. -/
def createScope (id : ScopeId) (ns : Dotted) (k : Nat) (node : Node) (type : ScopeType) : Created :=
  { id := (k, type) :: id, node := node, ns := node.part :: ns, key := node.key ns }

mutual

/-- The scopes created by an event, by depth. -/
def eventCreated (id : ScopeId) (ns : Dotted) (k : Nat) : Event → List (List Created)
  | .op _ => []
  | .scope node type _ body =>
    let c := createScope id ns k node type
    [c] :: createdLevels c.id c.ns 0 body

def createdLevels (id : ScopeId) (ns : Dotted) (k : Nat) : List Event → List (List Created)
  | [] => []
  | e :: rest => mergeLevels (eventCreated id ns k e) (createdLevels id ns (k + e.scopes) rest)

end

/-- `m_visibility`: the key of a function, lambda or class must be new, a
comprehension's replaces an older one. -/
def register : List Created → List Created → Option (List Created)
  | entries, [] => some entries
  | entries, c :: cs =>
    if c.isComp then register (c :: entries.filter (·.key != c.key)) cs
    else if entries.any (·.key == c.key) then none
    else register (c :: entries) cs

/-- The visibility map after `resolve`, for a file with this stem. -/
def visibilityMap (stem : String) (body : List Stmt) : Option (List Created) :=
  register [] (createdLevels moduleId [.ident stem] 0 (walkModule body)).flatten

/-- The `ScopeContext` around a node. -/
structure Enclosing where
  mangled : Dotted
  /-- `var_scope`; the module's scope is given by its namespace. -/
  varScope : Option (ScopeId × Dotted)

section Lookup

-- the map, in the order an iteration over it takes
variable (entries : List Created)

def findKey (key : Dotted) : Option Created := entries.find? (·.key == key)

/-- The lookup in `compile_function_body`. -/
def functionScope (E : Enclosing) (node : Node) : Option Created :=
  (E.varScope.bind fun s => findKey entries (functionMangle s.2 node)) <|>
  findKey entries (functionMangle E.mangled node) <|>
  E.varScope.bind fun s =>
    entries.find? fun c => !c.isClass && c.id.tail == s.1 && c.ns.head? == some node.part

/-- The lookup in `compile_class_body`. -/
def classScope (E : Enclosing) (node : Node) : Option Created :=
  (E.varScope.bind fun s => entries.find? fun c => c.isClass && c.ns == node.part :: s.2) <|>
  findKey entries (functionMangle E.mangled node) <|>
  entries.find? fun c => c.isClass && c.ns.head? == some node.part

/-- The lookup in `compile_comprehension_impl`. -/
def comprehensionScope (E : Enclosing) (node : Node) : Option Created :=
  findKey entries (functionMangle E.mangled node)

def attachedScope (E : Enclosing) (node : Node) : Option Created :=
  match node.kind with
  | .function | .lambda => functionScope entries E node
  | .class => classScope entries E node
  | .comp _ => comprehensionScope entries E node

mutual

/-- The nodes of an event that are compiled, each with the scope attached to
it. Generator expressions are not compiled. -/
def eventAttachments (id : ScopeId) (ns : Dotted) (E : Enclosing) (k : Nat) :
    Event → List (Created × Option Created)
  | .op _ => []
  | .scope node type _ body =>
    let c := createScope id ns k node type
    let found := attachedScope entries E node
    let inner : Enclosing :=
      { mangled := functionMangle E.mangled node, varScope := found.map fun s => (s.id, s.ns) }
    if node.kind = .comp .generatorExp then [] else (c, found) :: attachments c.id c.ns inner 0 body

def attachments (id : ScopeId) (ns : Dotted) (E : Enclosing) (k : Nat) :
    List Event → List (Created × Option Created)
  | [] => []
  | e :: rest => eventAttachments id ns E k e ++ attachments id ns E (k + e.scopes) rest

end

end Lookup

/-- The code generator on a module: its own module name need not be the stem.
The module's scope is found by its type. -/
def moduleAttachments (entries : List Created) (stem moduleName : String) (loc : Loc) (body : List Stmt) :
    List (Created × Option Created) :=
  attachments entries moduleId [.ident stem]
    { mangled := [.location loc, .module, .ident moduleName], varScope := some (moduleId, [.ident stem]) }
    0 (walkModule body)

/-- Every body gets the scope of its own node, whatever the order of the map. -/
def AttachesOwnScopes (map : List Created) (stem moduleName : String) (loc : Loc) (body : List Stmt) : Prop :=
  ∀ entries, entries.Perm map → ∀ a ∈ moduleAttachments entries stem moduleName loc body, a.2 = some a.1

end Pylang.Front
