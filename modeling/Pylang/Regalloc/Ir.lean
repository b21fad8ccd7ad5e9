/-
The bytecode dialect as register allocation sees it: blocks of operations in
the order `getBlocksSortedByDominance` and `sortTopologically` leave them,
each operation with its results, its operands and the operands it forwards to
its successors. What an operation computes is left out; what it may write is in
`Regalloc.Machine`.

SSA values are the addresses of their implementation objects (the order
`ValueMapping` sorts by), a block is its position in the sorted blocks, and a
timestep is a position in the concatenation of the blocks.
-/
import Mathlib
import Pylang.Lib.OrdMap

namespace Pylang.Regalloc

abbrev Value := Nat
abbrev OpId := Nat
abbrev BlockId := Nat
abbrev Reg := Nat

/-- `std::variant<mlir::Value, ForwardedOutput>`: an SSA value, or the output an
operation hands to a successor's block argument without naming it. -/
inductive Var where
  | value (v : Value)
  | forwarded (op : OpId) (idx : Nat)
deriving DecidableEq

/-- `ValueMapping`'s comparator: by alternative, then by address. -/
def Var.key : Var → Nat ×ₗ Nat ×ₗ Nat
  | .value v => toLex (0, toLex (v, 0))
  | .forwarded op i => toLex (1, toLex (op, i))

theorem Var.key_injective : Function.Injective Var.key := by
  intro x y h
  cases x <;> cases y <;> simp_all [Var.key, Prod.ext_iff]

instance : LinearOrder Var := LinearOrder.lift' Var.key Var.key_injective

/-- `ValueMapping<ValueT>`. -/
abbrev ValueMapping (α : Type) := Lib.OrdMap Var α

/-- The operations, as far as allocation and register effects tell them apart. `unguarded` are those that may run
Python code without saving register 0 around it (`BUILD_DICT`, `BUILD_SET`, `DICT_ADD`, `DICT_UPDATE`,
`FORMAT_VALUE`, `LIST_EXTEND`, `SET_ADD`, `SET_UPDATE`, `IMPORT_NAME`, `IMPORT_STAR`, and `LOAD_NAME`, `LOAD_GLOBAL` and
`LOAD_BUILD_CLASS`, whose look-ups may call a `__getitem__` or `__eq__`); `guarded` is every other operation. -/
inductive OpKind where
  | functionCall | functionCallEx | functionCallWithKeywords
  | withExceptStart | yield | yieldFrom
  | getIter | forIter
  | jumpIfFalse | branch | jumpIfNotException
  | setup
  | raise | ret
  | inplaceOp
  | unguarded
  | guarded
deriving DecidableEq

structure Operation where
  id : OpId
  kind : OpKind
  results : List Value
  operands : List Value
  /-- The successors, each with the operands forwarded to its block arguments. -/
  successors : List (BlockId × List Value)
deriving DecidableEq

structure Block where
  args : List Value
  ops : List Operation
deriving DecidableEq

namespace OpKind

def isTerminator : OpKind → Bool
  | forIter | jumpIfFalse | branch | jumpIfNotException | setup | raise | ret => true
  | _ => false

/-- `is_function_call` of a value's defining operation. -/
def isFunctionCall : OpKind → Bool
  | functionCall | functionCallEx | functionCallWithKeywords => true
  | _ => false

/-- `clobbers_r0` of a value's defining operation. -/
def clobbersR0 (k : OpKind) : Bool :=
  k.isFunctionCall || (match k with | withExceptStart | yield | yieldFrom => true | _ => false)

end OpKind

/-- `getOperands()`: the operation's own operands, then those it forwards. -/
def Operation.allOperands (o : Operation) : List Value := o.operands ++ o.successors.flatMap Prod.snd

/-- What an operation mentions: its results, then its operands, then the output a `FOR_ITER` forwards. -/
def Operation.mentions (o : Operation) : List Var :=
  (o.results ++ o.allOperands).map .value ++ if o.kind = .forIter then [.forwarded o.id 0] else []

/-- A function, with what MLIR promises of it: every value has one definition, an operation is in the function
once, and the operations that leave their result in register 0 have one result. -/
structure Func where
  blocks : List Block
  results_nodup : ((blocks.flatMap (·.ops)).flatMap (·.results)).Nodup
  ids_nodup : ((blocks.flatMap (·.ops)).map (·.id)).Nodup
  single : ∀ o ∈ blocks.flatMap (·.ops), o.kind.clobbersR0 = true → o.results.length = 1

namespace Func

/-- The operations in timestep order. -/
def ops (fn : Func) : List Operation := fn.blocks.flatMap (·.ops)

/-- `blocks_span`: the first timestep of a block. -/
def start (fn : Func) (b : BlockId) : Nat := ((fn.blocks.take b).map (·.ops.length)).sum

/-- `blocks_span`: one past the last timestep of a block. -/
def stop (fn : Func) (b : BlockId) : Nat := fn.start (b + 1)

/-- `getOwner` of a block argument. -/
def owner (fn : Func) (v : Value) : Option BlockId := fn.blocks.findIdx? (fun b => decide (v ∈ b.args))

/-- `isa<BlockArgument>`. -/
def isBlockArgument (fn : Func) (v : Value) : Bool := (fn.owner v).isSome

/-- `getDefiningOp`. -/
def definingOp (fn : Func) (v : Value) : Option Operation := fn.ops.find? (fun o => decide (v ∈ o.results))

/-- `clobbers_r0`, guarded by `getDefiningOp` as every use of it is. -/
def clobbersR0 (fn : Func) (v : Value) : Bool := (fn.definingOp v).any (·.kind.clobbersR0)

theorem definingOp_eq {fn : Func} {o : Operation} {v : Value} (ho : o ∈ fn.ops) (hv : v ∈ o.results) :
    fn.definingOp v = some o := by
  cases hf : fn.definingOp v with
  | none =>
    simp only [definingOp, List.find?_eq_none, decide_eq_true_eq] at hf
    exact absurd hv (hf o ho)
  | some o' =>
    have hv' : v ∈ o'.results := by simpa using List.find?_some hf
    by_cases he : o' = o
    · rw [he]
    · have : Std.Symm (Function.onFun List.Disjoint fun o : Operation => o.results) :=
        ⟨fun _ _ h _ hb ha => h ha hb⟩
      have hd := (List.nodup_flatMap.mp fn.results_nodup).2.forall (List.mem_of_find?_eq_some hf) ho he
      exact absurd hv (hd hv')

theorem definingOp_mem {fn : Func} {o : Operation} {v : Value} (h : fn.definingOp v = some o) :
    o ∈ fn.ops ∧ v ∈ o.results :=
  ⟨List.mem_of_find?_eq_some h, by simpa using List.find?_some h⟩

theorem clobbersR0_iff {fn : Func} {o : Operation} {v : Value} (ho : o ∈ fn.ops) (hv : v ∈ o.results) :
    fn.clobbersR0 v = o.kind.clobbersR0 := by
  simp [clobbersR0, definingOp_eq ho hv]

theorem eq_of_id {fn : Func} {o o' : Operation} (ho : o ∈ fn.ops) (ho' : o' ∈ fn.ops) (h : o.id = o'.id) : o = o' :=
  List.inj_on_of_nodup_map fn.ids_nodup ho ho' h

end Func

end Pylang.Regalloc
