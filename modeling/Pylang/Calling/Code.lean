/-
A function as the bytecode compiler lays out its frame. The uncaptured names
live in stack slots and the captured ones in cells; `enter_function_op` says
which arguments are cells, `get_local_idx` and `get_cell_index` where the
body's instructions look for a name.
-/
import Mathlib.Data.List.Nodup
import Mathlib.Logic.Function.Basic

namespace Pylang.Calling

/-- The parameters of a function and the names of its body. -/
structure Function where
  posonlyargs : List String
  args : List String
  kwonlyargs : List String
  vararg : Option String
  kwarg : Option String
  /-- The other names the body keeps with STORE_FAST. -/
  locals : List String
  cellvars : List String
  freevars : List String
  isClass : Bool
  varnames_nodup : (posonlyargs ++ args ++ kwonlyargs ++ vararg.toList ++ kwarg.toList ++ locals).Nodup
  cellvars_nodup : cellvars.Nodup
  freevars_nodup : freevars.Nodup
  locals_uncaptured : ∀ n ∈ locals, n ∉ cellvars
  freevars_foreign : ∀ n ∈ freevars, n ∉ cellvars ∧
    n ∉ posonlyargs ++ args ++ kwonlyargs ++ vararg.toList ++ kwarg.toList ++ locals

theorem noLocals_uncaptured : ∀ n ∈ ([] : List String), n ∉ ([] : List String) := List.forall_mem_nil _

namespace Function

/-- `Arguments::argument_names`. -/
def argumentNames (f : Function) : List String := f.posonlyargs ++ f.args

def named (f : Function) : List String := f.argumentNames ++ f.kwonlyargs

/-- The inputs of the `func.func`, in its order. -/
def parameters (f : Function) : List String := f.named ++ f.vararg.toList ++ f.kwarg.toList

/-- The `locals` attribute: `populate_arguments` runs before any store is lowered. -/
def varnames (f : Function) : List String := f.parameters ++ f.locals

end Function

/-- The flags, counts and tables of a `PyCode`. -/
structure Code where
  varnames : List String
  cellvars : List String
  freevars : List String
  argCount : Nat
  kwonlyArgCount : Nat
  varargs : Bool
  varkeywords : Bool
  isClass : Bool
  cell2arg : List Nat

/-- `m_cell2arg[cell_idx] = arg_idx`, if the argument is captured. -/
def setCell2arg (cellvars : List String) (cell2arg : List Nat) (argName : String) (argIdx : Nat) : List Nat :=
  if argName ∈ cellvars then cell2arg.set (cellvars.idxOf argName) argIdx else cell2arg

/-- The loop over the positional arguments in `enter_function_op`. -/
def setArguments (cellvars : List String) : List String → Nat → List Nat → List Nat
  | [], _, cell2arg => cell2arg
  | argName :: names, argIdx, cell2arg =>
    setArguments cellvars names (argIdx + 1) (setCell2arg cellvars cell2arg argName argIdx)

/-- `enter_function_op`. Keyword-only arguments are not entered. -/
def enterFunctionOp (f : Function) : Code :=
  let argCount := f.argumentNames.length
  let cell2arg := List.replicate f.cellvars.length f.parameters.length
  let cell2arg := setArguments f.cellvars f.argumentNames 0 cell2arg
  let cell2arg := match f.vararg with
    | some argName => setCell2arg f.cellvars cell2arg argName argCount
    | none => cell2arg
  let cell2arg := match f.kwarg with
    | some argName => setCell2arg f.cellvars cell2arg argName (argCount + f.vararg.isSome.toNat)
    | none => cell2arg
  { varnames := f.varnames, cellvars := f.cellvars, freevars := f.freevars
    argCount := argCount, kwonlyArgCount := f.kwonlyargs.length
    varargs := f.vararg.isSome, varkeywords := f.kwarg.isSome, isClass := f.isClass, cell2arg := cell2arg }

/-- Where the frame keeps a name: a slot of the stack, or a cell of `freevars()`. -/
inductive Place where
  | slot (idx : Nat)
  | cell (idx : Nat)
  deriving DecidableEq

namespace Code

/-- `get_local_idx`. -/
def getLocalIdx (c : Code) (name : String) : Nat :=
  (c.varnames.take (c.varnames.idxOf name)).countP (· ∉ c.cellvars)

/-- `get_cell_index`. -/
def getCellIndex (c : Code) (name : String) : Nat :=
  if name ∈ c.cellvars then c.cellvars.idxOf name else c.freevars.idxOf name + c.cellvars.length

/-- Where the body's instructions look for a name: LOAD_DEREF for a captured or free one, else LOAD_FAST. -/
def readPlace (c : Code) (name : String) : Place :=
  if name ∈ c.cellvars ∨ name ∈ c.freevars then .cell (c.getCellIndex name) else .slot (c.getLocalIdx name)

end Code

/-! ## The table of `enter_function_op` -/

theorem set_idxOf_map {cellvars : List String} (hnodup : cellvars.Nodup) (g : String → Nat) (name : String) (v : Nat) :
    setCell2arg cellvars (cellvars.map g) name v = cellvars.map (Function.update g name v) := by
  unfold setCell2arg
  split
  next hmem =>
    refine List.ext_getElem (by simp) fun i h₁ h₂ => ?_
    have hi : i < cellvars.length := by simpa using h₂
    rw [List.getElem_set, List.getElem_map, List.getElem_map]
    by_cases h : cellvars.idxOf name = i
    · have hname : cellvars[i] = name := by
        subst h
        exact List.getElem_idxOf _
      rw [if_pos h, hname, Function.update_self]
    · have hname : cellvars[i] ≠ name := fun he => h (by rw [← he, hnodup.idxOf_getElem])
      rw [if_neg h, Function.update_of_ne hname]
  next hmem =>
    refine List.map_congr_left fun n hn => ?_
    have hne : n ≠ name := fun he => hmem (he ▸ hn)
    exact (Function.update_of_ne hne _ _).symm

/-- What the loop over the positional arguments leaves in the table. -/
def numbered (g : String → Nat) (names : List String) (start : Nat) (n : String) : Nat :=
  if n ∈ names then start + names.idxOf n else g n

theorem setArguments_map {cellvars : List String} (hnodup : cellvars.Nodup) :
    ∀ (names : List String) (start : Nat) (g : String → Nat), names.Nodup →
      setArguments cellvars names start (cellvars.map g) = cellvars.map (numbered g names start)
  | [], start, g, _ => by
    have h : numbered g [] start = g := by
      funext n
      simp [numbered]
    rw [h]
    rfl
  | name :: names, start, g, hn => by
    obtain ⟨hname, hn⟩ := List.nodup_cons.mp hn
    rw [setArguments, set_idxOf_map hnodup, setArguments_map hnodup names (start + 1) _ hn]
    refine List.map_congr_left fun n _ => ?_
    by_cases he : n = name
    · subst he
      simp [numbered, hname]
    · have hne : name ≠ n := fun h => he h.symm
      simp only [numbered, List.mem_cons, he, false_or, List.idxOf_cons_ne _ hne, Function.update_of_ne he]
      split <;> omega

namespace Function
variable (f : Function)

def code : Code := enterFunctionOp f

/-- The number `cell2arg` gives for a captured name: its position among the positional arguments, the number of
those for `*args` whatever keyword-only arguments there are, or the number of parameters if it is none of them. -/
def argOf (n : String) : Nat :=
  if f.kwarg = some n then f.argumentNames.length + f.vararg.isSome.toNat
  else if f.vararg = some n then f.argumentNames.length
  else if n ∈ f.argumentNames then f.argumentNames.idxOf n
  else f.parameters.length

theorem argumentNames_nodup : f.argumentNames.Nodup := by
  have h := f.varnames_nodup
  simp only [List.append_assoc] at h
  unfold argumentNames
  rw [← List.append_assoc] at h
  exact h.of_append_left

theorem cell2arg_eq : f.code.cell2arg = f.cellvars.map f.argOf := by
  have hrep : List.replicate f.cellvars.length f.parameters.length = f.cellvars.map fun _ => f.parameters.length := by
    simp
  unfold code enterFunctionOp
  simp only [hrep, setArguments_map f.cellvars_nodup _ _ _ f.argumentNames_nodup]
  cases hv : f.vararg <;> cases hk : f.kwarg <;> simp only [set_idxOf_map f.cellvars_nodup] <;>
    refine List.map_congr_left fun n _ => ?_ <;> simp only [argOf, hv, hk, numbered, Function.update_apply] <;>
    simp [eq_comm]

@[simp] theorem code_varnames : f.code.varnames = f.varnames := rfl
@[simp] theorem code_cellvars : f.code.cellvars = f.cellvars := rfl
@[simp] theorem code_freevars : f.code.freevars = f.freevars := rfl
@[simp] theorem code_argCount : f.code.argCount = f.argumentNames.length := rfl
@[simp] theorem code_kwonlyArgCount : f.code.kwonlyArgCount = f.kwonlyargs.length := rfl
@[simp] theorem code_varargs : f.code.varargs = f.vararg.isSome := rfl
@[simp] theorem code_varkeywords : f.code.varkeywords = f.kwarg.isSome := rfl
@[simp] theorem code_isClass : f.code.isClass = f.isClass := rfl

theorem nodup : f.varnames.Nodup := by
  simpa [varnames, parameters, named, argumentNames] using f.varnames_nodup

end Function

end Pylang.Calling
