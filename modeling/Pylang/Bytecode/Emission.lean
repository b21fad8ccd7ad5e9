/-
The emission of bytecode: `PythonBytecodeEmitter` over the blocks of the
functions of a module, in the order of `getBlocksSortedByDominance`, with a new
label for each use of a block, and the relocation of the labels at the end.
Functions are operations of the module, and what an operation that is no jump
emits is given.
-/
import Mathlib

namespace Pylang.Bytecode

abbrev Register := Nat

/-- The types that instructions hold offsets in. -/
inductive OffsetType
  | int32
  | uint32
  deriving DecidableEq

/-- An `int64_t` stored as one of the types. -/
def OffsetType.store : OffsetType → Int → Int
  | .int32, n => n.bmod (2 ^ 32)
  | .uint32, n => n % 2 ^ 32

/-- The instructions, with labels or offsets for where they go. -/
inductive Instruction (α ℓ : Type)
  | other (i : α)
  | jump (target : ℓ)
  | jumpIfFalse (test : Register) (target : ℓ)
  | jumpIfTrue (test : Register) (target : ℓ)
  | jumpIfExceptionMatch (exceptionType : Register) (target : ℓ)
  | jumpIfNotExceptionMatch (exceptionType : Register) (target : ℓ)
  | forIter (dst src : Register) (body exit : ℓ)
  | setupExceptionHandling (target : ℓ)
  | setupWith (target : ℓ)
  deriving DecidableEq

namespace Instruction

variable {α ℓ ℓ' ℓ'' : Type}

/-- Other targets. -/
def traverse (f : ℓ → Option ℓ') : Instruction α ℓ → Option (Instruction α ℓ')
  | .other i => some (.other i)
  | .jump target => (f target).map .jump
  | .jumpIfFalse test target => (f target).map (.jumpIfFalse test)
  | .jumpIfTrue test target => (f target).map (.jumpIfTrue test)
  | .jumpIfExceptionMatch exceptionType target => (f target).map (.jumpIfExceptionMatch exceptionType)
  | .jumpIfNotExceptionMatch exceptionType target => (f target).map (.jumpIfNotExceptionMatch exceptionType)
  | .forIter dst src body exit => (f exit).bind fun e => (f body).map fun b => .forIter dst src b e
  | .setupExceptionHandling target => (f target).map .setupExceptionHandling
  | .setupWith target => (f target).map .setupWith

def targets : Instruction α ℓ → List ℓ
  | .other _ => []
  | .jump target => [target]
  | .jumpIfFalse _ target => [target]
  | .jumpIfTrue _ target => [target]
  | .jumpIfExceptionMatch _ target => [target]
  | .jumpIfNotExceptionMatch _ target => [target]
  | .forIter _ _ body exit => [body, exit]
  | .setupExceptionHandling target => [target]
  | .setupWith target => [target]

/-- The type of `m_offset`, and of the `m_body_offset` of `ForIter`. -/
def offsetType : Instruction α ℓ → OffsetType
  | .jumpIfExceptionMatch _ _ | .jumpIfNotExceptionMatch _ _ | .setupExceptionHandling _ | .setupWith _ => .uint32
  | _ => .int32

/-- `relocate`. -/
def relocate (position : ℓ → Option Nat) (instruction_idx : Nat) (i : Instruction α ℓ) : Option (Instruction α Int) :=
  i.traverse fun label => (position label).map fun (p : Nat) => i.offsetType.store ((p : Int) - instruction_idx - 1)

/-- What an instruction asks. -/
inductive Test
  | truthy (r : Register)
  /-- Is the active exception of the type? -/
  | exceptionMatches (exceptionType : Register)
  /-- Is there a next value? -/
  | hasNext (dst src : Register)
  deriving DecidableEq

def test : Instruction α ℓ → Option Test
  | .jumpIfFalse r _ => some (.truthy r)
  | .jumpIfTrue r _ => some (.truthy r)
  | .jumpIfExceptionMatch r _ => some (.exceptionMatches r)
  | .jumpIfNotExceptionMatch r _ => some (.exceptionMatches r)
  | .forIter dst src _ _ => some (.hasNext dst src)
  | _ => none

/-- `execute`, then the `std::next` of `eval_loop`: the instruction after `ip`, by the answer to the test. -/
def next (answer : Bool) (ip : Nat) : Instruction α Int → Int
  | .other _ => ip + 1
  | .jump offset => ip + offset + 1
  | .jumpIfFalse _ offset => if answer then (ip : Int) + 1 else ip + offset + 1
  | .jumpIfTrue _ offset => if answer then ip + offset + 1 else (ip : Int) + 1
  | .jumpIfExceptionMatch _ offset => if answer then ip + offset + 1 else (ip : Int) + 1
  | .jumpIfNotExceptionMatch _ offset => if answer then (ip : Int) + 1 else ip + offset + 1
  | .forIter _ _ body exit => if answer then ip + body + 1 else ip + exit + 1
  | .setupExceptionHandling _ => ip + 1
  | .setupWith _ => ip + 1

/-- Where an exception goes on, after `set_cleanup`. -/
def handler (ip : Nat) : Instruction α Int → Option Int
  | .setupExceptionHandling offset => some (ip + offset + 1)
  | .setupWith offset => some (ip + offset + 1)
  | _ => none

end Instruction

/-- The last operation of a block. -/
inductive Terminator (α β : Type)
  | branch (dest : β)
  | jumpIfFalse (cond : Register) (trueDest falseDest : β)
  | jumpIfNotException (objectType : Register) (trueDest falseDest : β)
  | forIter (output iterator : Register) (body continuation : β)
  | setupExceptionHandle (body handler : β)
  | setupWith (body handler : β)
  /-- A return, a raise and so on, which leave the function. -/
  | leave (code : List α)

/-- A block, with what the operations before the last emit. -/
structure Block (α β : Type) where
  body : List (List α)
  terminator : Terminator α β

/-- The blocks an operation names. -/
def Terminator.successors {α β : Type} : Terminator α β → List β
  | .branch dest => [dest]
  | .jumpIfFalse _ trueDest falseDest => [trueDest, falseDest]
  | .jumpIfNotException _ trueDest falseDest => [trueDest, falseDest]
  | .forIter _ _ body continuation => [body, continuation]
  | .setupExceptionHandle body handler => [body, handler]
  | .setupWith body handler => [body, handler]
  | .leave _ => []

/-- A function; its `sortedBlocks` are those of `getBlocksSortedByDominance`. -/
structure FuncOp (α β : Type) where
  symName : String
  isPrivate : Bool
  block : β → Block α β
  sortedBlocks : List β
  nodup : sortedBlocks.Nodup
  closed : ∀ b ∈ sortedBlocks, ∀ d ∈ (block b).terminator.successors, d ∈ sortedBlocks

def FuncOp.isModuleEntry {α β : Type} (fn : FuncOp α β) : Bool := fn.isPrivate && fn.symName = "__hidden_init__"

/-- A verified module. -/
structure ModuleOp (α β : Type) where
  functions : List (FuncOp α β)
  symbols : functions.Pairwise fun fn fn' => fn.symName ≠ fn'.symName
  disjoint : functions.Pairwise fun fn fn' => List.Disjoint fn.sortedBlocks fn'.sortedBlocks
  entry : ∃ fn ∈ functions, fn.isModuleEntry = true

/-! ## The emitter -/

section Emitter

variable {α β : Type} [DecidableEq β]

/-- The emitter in a function. A label is its index in `m_block_labels`, which has the block. -/
structure Emitter (α β : Type) where
  blockLabels : List β
  blockOffsets : List (β × Nat)
  instructions : List (Instruction α Nat)

namespace Emitter

variable (E : Emitter α β)

/-- A new label and an instruction that goes there. -/
def emitTo (bb : β) (instruction : Nat → Instruction α Nat) : Emitter α β :=
  { E with blockLabels := E.blockLabels ++ [bb], instructions := E.instructions ++ [instruction E.blockLabels.length] }

/-- The conditional jumps: the block after this one has to be one of the two. -/
def emitConditional (sortedBlocks : List β) (this trueDest falseDest : β) (toFalse toTrue : Nat → Instruction α Nat) :
    Option (Emitter α β) :=
  match sortedBlocks[sortedBlocks.idxOf this + 1]? with
  | none => none
  | some next =>
    if next = falseDest ∨ next = trueDest then
      if next = trueDest then some (E.emitTo falseDest toFalse) else some (E.emitTo trueDest toTrue)
    else none

/-- `emitOperation` of a terminator; none where an assertion fails. -/
def emitTerminator (sortedBlocks : List β) (this : β) : Terminator α β → Option (Emitter α β)
  | .branch dest => some (E.emitTo dest .jump)
  | .jumpIfFalse cond trueDest falseDest =>
    E.emitConditional sortedBlocks this trueDest falseDest (.jumpIfFalse cond) (.jumpIfTrue cond)
  | .jumpIfNotException objectType trueDest falseDest =>
    E.emitConditional sortedBlocks this trueDest falseDest (.jumpIfExceptionMatch objectType) (.jumpIfNotExceptionMatch objectType)
  | .forIter output iterator body continuation =>
    some { E with
      blockLabels := E.blockLabels ++ [continuation, body]
      instructions := E.instructions ++ [.forIter output iterator (E.blockLabels.length + 1) E.blockLabels.length] }
  | .setupExceptionHandle body handler => some ((E.emitTo handler .setupExceptionHandling).emitTo body .jump)
  | .setupWith body handler => some ((E.emitTo handler .setupWith).emitTo body .jump)
  | .leave code => some { E with instructions := E.instructions ++ code.map Instruction.other }

/-- The operations of a block. -/
def emitBlock (sortedBlocks : List β) (this : β) (block : Block α β) : Option (Emitter α β) :=
  { E with instructions := E.instructions ++ block.body.flatten.map Instruction.other }.emitTerminator sortedBlocks this
    block.terminator

end Emitter

/-- The loop over the blocks of a function. -/
def emitBlocks (fn : FuncOp α β) : List β → Nat → Emitter α β → Option (Emitter α β)
  | [], _, E => some E
  | b :: blocks, op_idx, E =>
    let start := E.instructions.length
    match { E with blockOffsets := E.blockOffsets ++ [(b, op_idx)] }.emitBlock fn.sortedBlocks b (fn.block b) with
    | none => none
    | some E' => emitBlocks fn blocks (op_idx + (E'.instructions.length - start)) E'

/-- The emitter between functions: `m_module` is under none, `m_function_map` under the names. -/
structure Translation (α β : Type) where
  blockLabels : List β
  blockOffsets : List (β × Nat)
  info : Option String → List (Instruction α Nat)

def FuncOp.key (fn : FuncOp α β) : Option String := if fn.isModuleEntry then none else some fn.symName

/-- `emitOperation` of a function. -/
def Translation.emitFunction (T : Translation α β) (fn : FuncOp α β) : Option (Translation α β) :=
  (emitBlocks fn fn.sortedBlocks 0 ⟨T.blockLabels, T.blockOffsets, T.info fn.key⟩).map fun E =>
    ⟨E.blockLabels, E.blockOffsets, Function.update T.info fn.key E.instructions⟩

/-- The first offset of a block. -/
def Translation.offset? (T : Translation α β) (bb : β) : Option Nat := (T.blockOffsets.find? (·.1 = bb)).map (·.2)

def Translation.position (T : Translation α β) (label : Nat) : Option Nat := (T.blockLabels[label]?).bind T.offset?

/-- `relocate` of the instructions of a function. -/
def relocateAll {ℓ : Type} (position : ℓ → Option Nat) : Nat → List (Instruction α ℓ) → Option (List (Instruction α Int))
  | _, [] => some []
  | instruction_idx, i :: is =>
    (i.relocate position instruction_idx).bind fun j =>
      (relocateAll position (instruction_idx + 1) is).map (j :: ·)

/-- `emitOperation` of a module, first the function of the module itself. -/
def emitModule (M : ModuleOp α β) : Option (Option String → Option (List (Instruction α Int))) :=
  (M.functions.find? FuncOp.isModuleEntry).bind fun entry =>
    ((entry :: M.functions.filter (!·.isModuleEntry)).foldlM Translation.emitFunction ⟨[], [], fun _ => []⟩).bind fun T =>
      if T.blockLabels.all fun bb => (T.offset? bb).isSome then some fun key => relocateAll T.position 0 (T.info key)
      else none

end Emitter

end Pylang.Bytecode
