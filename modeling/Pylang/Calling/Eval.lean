/-
`PyCode::eval` up to the call: the six passes that move a positional tuple and
a keyword dictionary into the slots and cells of the new frame. What the call
passes are tagged integers and objects; a slot or a cell is null until a pass
fills it, and `is_heap_object` is false of null.
-/
import Pylang.Calling.Code

namespace Pylang.Calling

/-- A value of a call. -/
inductive Value where
  | int (n : Int)
  | object (id : Nat)
  deriving DecidableEq

/-- What a slot or a cell holds: one of the call's values, or what `eval` makes for `*args` and `**kwargs`. -/
inductive Content where
  | null
  | value (v : Value)
  | tuple (items : List Value)
  | dict (items : List (String × Value))
  deriving DecidableEq

namespace Content

/-- `is_heap_object()`: the tag bit is clear and the word is not zero. -/
def isHeapObject : Content → Bool
  | .null => false
  | .value (.int _) => false
  | .value (.object _) => true
  | .tuple _ => true
  | .dict _ => true

/-- Whether `as_ptr()` is a null pointer. -/
def asPtrIsNull : Content → Bool
  | .null => true
  | _ => false

/-- The test for a slot or cell without a value: a heap object whose pointer is null. -/
def testsUnset (c : Content) : Bool := c.isHeapObject && c.asPtrIsNull

@[simp] theorem testsUnset_eq (c : Content) : c.testsUnset = false := by
  cases c with
  | value v => cases v <;> rfl
  | _ => rfl

@[simp] theorem isHeapObject_null : null.isHeapObject = false := rfl

end Content

/-- The slots of the stack frame and the contents of its cells. -/
structure Frame where
  slots : Nat → Content
  cells : Nat → Content

namespace Frame

def empty : Frame := ⟨fun _ => .null, fun _ => .null⟩

def get (fr : Frame) : Place → Content
  | .slot i => fr.slots i
  | .cell i => fr.cells i

def put (fr : Frame) (p : Place) (c : Content) : Frame :=
  match p with
  | .slot i => { fr with slots := Function.update fr.slots i c }
  | .cell i => { fr with cells := Function.update fr.cells i c }

@[simp] theorem get_empty (p : Place) : empty.get p = .null := by
  cases p <;> rfl

theorem get_put (fr : Frame) (p q : Place) (c : Content) : (fr.put p c).get q = if q = p then c else fr.get q := by
  cases p <;> cases q <;> simp [put, get, Function.update_apply]

@[simp] theorem get_put_self (fr : Frame) (p : Place) (c : Content) : (fr.put p c).get p = c := by simp [get_put]

theorem get_put_of_ne (fr : Frame) {p q : Place} (c : Content) (h : q ≠ p) : (fr.put p c).get q = fr.get q := by
  rw [get_put, if_neg h]

/-- The value at several places, in order. -/
def putAll (fr : Frame) (ps : List Place) (c : Content) : Frame := ps.foldl (·.put · c) fr

theorem get_putAll (c : Content) : ∀ (ps : List Place) (fr : Frame) (q : Place),
    (fr.putAll ps c).get q = if q ∈ ps then c else fr.get q
  | [], fr, q => by simp [putAll]
  | p :: ps, fr, q => by
    have ih := get_putAll c ps (fr.put p c) q
    unfold putAll at ih ⊢
    rw [List.foldl_cons, ih, get_put]
    by_cases hq : q ∈ ps <;> by_cases hp : q = p <;> simp [hq, hp]

end Frame

/-- The three TypeErrors of `eval`. -/
inductive BindError where
  | unexpectedKeyword (key : String)
  | multipleValues (key : String)
  | tooManyPositional (takes given : Nat)
  deriving DecidableEq

def BindError.text (name : String) : BindError → String
  | .unexpectedKeyword key => name ++ "() got an unexpected keyword argument '" ++ key ++ "'"
  | .multipleValues key => name ++ "() got multiple values for argument '" ++ key ++ "'"
  | .tooManyPositional takes given =>
    name ++ "() takes " ++ toString takes ++ " positional arguments but " ++ toString given ++ " given"

/-- How `eval` ends without a frame: a TypeError, or a failing assertion. -/
inductive Stop where
  | typeError (e : BindError)
  | abort
  deriving DecidableEq

namespace Code
variable (c : Code)

/-- `total_named_arguments_count`. -/
def namedCount : Nat := c.argCount + c.kwonlyArgCount

/-- `total_arguments_count`. -/
def totalCount : Nat := c.namedCount + c.varargs.toNat + c.varkeywords.toNat

/-- `arg_cells_count`. -/
def argCellsCount : Nat := c.cell2arg.countP (· ≠ c.totalCount)

/-- `std::find` of an argument in `m_cell2arg`: its cell. -/
def argCell (i : Nat) : Option Nat := if i ∈ c.cell2arg then some (c.cell2arg.idxOf i) else none

/-- `arg_stack_offset[i]`: the argument cells up to `i`. -/
def argStackOffset : Nat → Nat
  | 0 => (c.argCell 0).isSome.toNat
  | i + 1 => argStackOffset i + (c.argCell (i + 1)).isSome.toNat

/-- Where the passes over the defaults look for an argument. -/
def argPlace (i : Nat) : Place :=
  match c.argCell i with
  | some cell => .cell cell
  | none => .slot (i - c.argStackOffset i)

/-- Where the pass over the keywords puts the value for the argument at `j` of `m_varnames`, when it has placed
`kwargsCount` others: the cell is looked up by that count. -/
def keywordPlaces (j kwargsCount : Nat) : List Place := ((c.argCell kwargsCount).map Place.cell).toList ++ [.slot j]

/-- `local_index` for `*args` and `**kwargs`: a `size_t` that must not wrap around. -/
def restSlot (i : Nat) : Option Place := if c.argCellsCount ≤ i then some (.slot (i - c.argCellsCount)) else none

/-- The positional arguments. -/
def bindPositional : Nat → Nat → List Value → Frame → Frame
  | _, _, [], fr => fr
  | idx, stackLocalIndex, obj :: args, fr =>
    match c.argCell idx with
    | some cell => bindPositional (idx + 1) stackLocalIndex args (fr.put (.cell cell) (.value obj))
    | none => bindPositional (idx + 1) (stackLocalIndex + 1) args (fr.put (.slot stackLocalIndex) (.value obj))

/-- The keyword arguments. -/
def bindKeywords : Nat → List (String × Value) → Frame → Except Stop Frame
  | _, [], fr => .ok fr
  | kwargsCount, (key, value) :: kwargs, fr =>
    if key ∉ c.varnames then
      if c.varkeywords then bindKeywords kwargsCount kwargs fr else .error (.typeError (.unexpectedKeyword key))
    else
      let j := c.varnames.idxOf key
      if (fr.get (.slot j)).isHeapObject then .error (.typeError (.multipleValues key))
      else bindKeywords (kwargsCount + 1) kwargs (fr.putAll (c.keywordPlaces j kwargsCount) (.value value))

/-- The loops over the defaults, from the last: `remaining` is `i + 1`. -/
def bindDefaults : Nat → List Value → Frame → Except Stop Frame
  | _, [], fr => .ok fr
  | 0, _ :: _, _ => .error .abort
  | i + 1, default :: defaults, fr =>
    bindDefaults i defaults (if (fr.get (c.argPlace i)).testsUnset then fr.put (c.argPlace i) (.value default) else fr)

/-- `*args` and `**kwargs`: a cell is filled if it tests unset, a slot always. -/
def bindRest (i : Nat) (rest : Content) (fr : Frame) : Except Stop Frame :=
  match c.argCell i with
  | some cell => .ok (if (fr.get (.cell cell)).testsUnset then fr.put (.cell cell) rest else fr)
  | none =>
    match c.restSlot i with
    | some p => .ok (fr.put p rest)
    | none => .error .abort

/-- `*args`, or the check of the number of positional arguments. -/
def bindVarargs (args : List Value) (fr : Frame) : Except Stop Frame :=
  let argsCount := min args.length c.argCount
  if c.varargs then c.bindRest c.namedCount (.tuple (args.drop argsCount)) fr
  else if argsCount < args.length then .error (.typeError (.tooManyPositional argsCount args.length))
  else .ok fr

/-- `**kwargs`. -/
def bindVarkeywords (kwargs : List (String × Value)) (fr : Frame) : Except Stop Frame :=
  if c.varkeywords then
    c.bindRest (c.namedCount + c.varargs.toNat) (.dict (kwargs.filter (·.1 ∉ c.varnames))) fr
  else .ok fr

/-- `PyCode::eval`: the frame in which the function is called. -/
def eval (args : List Value) (kwargs : List (String × Value)) (defaults kwDefaults : List Value) :
    Except Stop Frame := do
  let argsCount := min args.length c.argCount
  let fr := c.bindPositional 0 0 (args.take argsCount) .empty
  let fr ← c.bindKeywords 0 kwargs fr
  let fr ← if 0 < c.argCount ∧ defaults ≠ [] then c.bindDefaults c.argCount defaults.reverse fr else .ok fr
  let fr ← if 0 < c.namedCount ∧ kwDefaults ≠ [] then c.bindDefaults c.namedCount kwDefaults.reverse fr else .ok fr
  let fr ← c.bindVarargs args fr
  c.bindVarkeywords kwargs fr

end Code

end Pylang.Calling
