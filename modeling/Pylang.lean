import Pylang.Lib.IntervalGraph
import Pylang.Lib.IntBits
import Pylang.Lib.ListFacts
import Pylang.Lib.OrdMap
import Pylang.Regalloc.Ir
import Pylang.Regalloc.Interval
import Pylang.Regalloc.BlockArguments
import Pylang.Regalloc.Assignment
import Pylang.Regalloc.AllocationSpec
import Pylang.Regalloc.Emitter.LiveAnalysis
import Pylang.Regalloc.Emitter.LinearScan
import Pylang.Regalloc.Emitter.ScanFacts
import Pylang.Regalloc.Emitter.Machine
import Pylang.Regalloc.Emitter.NoClobber
import Pylang.Regalloc.Header.LiveAnalysis
import Pylang.Regalloc.Header.LinearScan
import Pylang.Regalloc.Header.ScanFacts
import Pylang.Regalloc.Header.Disjoint
import Pylang.Lib.Steps
import Pylang.Aot.Ast
import Pylang.Aot.Codegen
import Pylang.Aot.Machine
import Pylang.Aot.Layout
import Pylang.Aot.Guard
import Pylang.Aot.Exec
import Pylang.Aot.Parts
import Pylang.Aot.Places
import Pylang.Aot.Simulation
import Pylang.Aot.Finally
import Pylang.Tagged.RtOp
import Pylang.Tagged.Agree
import Pylang.Tagged.Errors
import Pylang.Aot.LoopExit
import Pylang.Calling.Code
import Pylang.Calling.Eval
import Pylang.Calling.Slots
import Pylang.Calling.Rule
import Pylang.Calling.Locals
import Pylang.Calling.Prologue
import Pylang.Calling.Bind
import Pylang.Calling.Exact
import Pylang.Calling.Defaults
import Pylang.Lib.PathTrace
import Pylang.Front.Ast
import Pylang.Front.Skeleton
import Pylang.Front.Emit
import Pylang.Front.Containment
import Pylang.Front.Order
import Pylang.Front.OrderExact
import Pylang.Front.Walk
import Pylang.Front.Attach
import Pylang.Front.AttachExact
import Pylang.Front.Resolve
import Pylang.Front.Classify
import Pylang.Lib.Merge
import Pylang.Runtime.Mro
import Pylang.Runtime.BinaryOp
import Pylang.Runtime.SlotLayout
import Pylang.Runtime.Super
import Pylang.Runtime.ObjectStore
import Pylang.Runtime.MethodCache
import Pylang.Runtime.MethodCall
import Pylang.Runtime.AttrCache
import Pylang.Runtime.TypeSlots
import Pylang.Runtime.SlotDispatch
import Pylang.Lib.Refine
import Pylang.Aot.Condition
import Pylang.Aot.With
import Pylang.Vm.StackFrame
import Pylang.Vm.Isolation
import Pylang.Regalloc.Emitter.StackDepth
import Pylang.Runtime.Intern
import Pylang.Runtime.StringIterator
import Pylang.Runtime.Utf8
import Pylang.Runtime.ListStorage
import Pylang.Tagged.IntKey
import Pylang.Tagged.Equality
import Pylang.Tagged.DictLookup
import Pylang.Serialization.Instruction
import Pylang.Serialization.InstructionFormat
import Pylang.Serialization.Program
import Pylang.Lib.Codec
import Pylang.Lib.Ensures
import Pylang.Lex.State
import Pylang.Lex.Number
import Pylang.Lex.Quoted
import Pylang.Lex.Read
import Pylang.Lex.Frame
import Pylang.Lex.Indent
import Pylang.Lex.Nesting
import Pylang.Lex.Positions
import Pylang.Lex.Starts
import Pylang.Lex.Lookahead
import Pylang.Lex.Digits
import Pylang.Lex.Literal
import Pylang.Lex.NumberText
import Pylang.Lex.NumberFine
import Pylang.Lex.NumberExact
import Pylang.Lex.Pieces
import Pylang.Lex.Total
import Pylang.Lib.Drains
import Pylang.Runtime.Range
import Pylang.Runtime.Slice
import Pylang.Runtime.RangeSlice
import Pylang.Runtime.ListDelete
import Pylang.Runtime.ListAssign
import Pylang.Runtime.ListInsert
import Pylang.Runtime.Intrinsics
import Pylang.Runtime.ListSort
import Pylang.Runtime.IntBytes
import Pylang.Runtime.IntParse
import Pylang.Runtime.InplaceOp
import Pylang.Runtime.Format
import Pylang.Runtime.GlobalCache
import Pylang.Runtime.LoadMethod
import Pylang.Runtime.ModuleMangler
import Pylang.Lib.StableSort
import Pylang.Lib.Arrangements
import Pylang.Lib.Cuts
import Pylang.Lib.Cartesian
import Pylang.Lib.RoundRobin
import Pylang.Regalloc.Header.Liveness
import Pylang.Regalloc.Header.Chains
import Pylang.Tagged.DictVersion
import Pylang.Tagged.DictMerge
import Pylang.Tagged.SetAlgebra
import Pylang.Runtime.ModuleRegistry
import Pylang.Runtime.ShapeTree
import Pylang.Runtime.InstanceAttrs
import Pylang.Runtime.Deque
import Pylang.Runtime.Unpack
import Pylang.Bytecode.Emission
import Pylang.Bytecode.Mangler
import Pylang.Bytecode.Jumps
import Pylang.Bytecode.ConstPool
import Pylang.Aot.StoreTarget
import Pylang.Aot.StoreTargetExact
import Pylang.Parser.Engine
import Pylang.Parser.Reference
import Pylang.Parser.WellFormed
import Pylang.Parser.Memo
import Pylang.Parser.Grammar
import Pylang.Parser.MemoFaithful
import Pylang.Parser.Restore
import Pylang.Parser.Progress
import Pylang.Parser.Reading
import Pylang.Parser.SyntaxError
import Pylang.Parser.EntryPoints
import Pylang.Parser.Parameters
import Pylang.Parser.ParameterRules
import Pylang.Parser.ParametersExact
import Pylang.Runtime.Permutations
import Pylang.Runtime.Product
import Pylang.Runtime.Islice
import Pylang.Runtime.StrItem
import Pylang.Runtime.Translate
import Pylang.Runtime.Replace
import Pylang.Runtime.StrSplit
import Pylang.Runtime.Strip
import Pylang.Runtime.Affix
import Pylang.Runtime.StrFind
import Pylang.Runtime.StrOrder
import Pylang.Runtime.Import
import Pylang.Runtime.Repr
import Pylang.Runtime.StringLiteral
import Pylang.Memory.Arena
import Pylang.Memory.Collector
import Pylang.Memory.Mutator
import Pylang.Memory.Chunk
