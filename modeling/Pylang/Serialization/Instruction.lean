/-
The instructions of the bytecode and their bytes: the `serialize` of each class
against the one `deserialize` over the operation codes. Some operation codes
have no case in the switch, and `UnpackExpand` has the code of another
instruction.
-/
import Pylang.Lib.Codec

namespace Pylang.Serialization

open Pylang.Reader (byte word vec)

abbrev Register := Byte

abbrev SizeT := BitVec 64

/-- A `std::string`. -/
abbrev Str := Vec Byte

/-- The operation codes. -/
inductive Opcode
  | binaryOperation | binarySubscript | buildDict | buildList | buildTuple | clearExceptionState | compareOp
  | deleteName | dictMerge | forIter | functionCall | functionCallEx | functionCallWithKw | getIter
  | importName | jump | jumpForward | jumpIfFalse | jumpIfFalseOrPop | jumpIfNotExceptionMatch | jumpIfTrue
  | jumpIfTrueOrPop | listExtend | listToTuple | loadAssertionError | loadAttr | loadBuildClass | loadClosure
  | loadConst | loadDeref | loadFast | loadGlobal | loadMethod | loadName | makeFunction | methodCall | move
  | raiseVarargs | returnValue | setupExceptionHandling | storeAttr | storeDeref | storeFast | storeGlobal
  | storeName | storeSubscript | unary | unpackSequence | continue_ | reraise | withExceptStart
  | leaveExceptionHandling | deleteSubscript | setupWith | clearTopCleanup | listAppend | setAdd | buildSet
  | importFrom | buildSlice | inplaceOp | yieldValue | dictUpdate | dictAdd | yieldLoad | getYieldFromIter
  | yieldFrom | importStar | getAwaitable | buildString | formatValue | push | pop | deleteFast
  | deleteGlobal | jumpIfExceptionMatch | toBool | setUpdate | deleteAttr | unpackExpand | deleteDeref
  deriving DecidableEq

def Opcode.code : Opcode → Byte
  | .binaryOperation => 0
  | .binarySubscript => 1
  | .buildDict => 2
  | .buildList => 3
  | .buildTuple => 4
  | .clearExceptionState => 5
  | .compareOp => 6
  | .deleteName => 7
  | .dictMerge => 8
  | .forIter => 9
  | .functionCall => 10
  | .functionCallEx => 11
  | .functionCallWithKw => 12
  | .getIter => 13
  | .importName => 14
  | .jump => 17
  | .jumpForward => 18
  | .jumpIfFalse => 19
  | .jumpIfFalseOrPop => 20
  | .jumpIfNotExceptionMatch => 21
  | .jumpIfTrue => 22
  | .jumpIfTrueOrPop => 23
  | .listExtend => 24
  | .listToTuple => 25
  | .loadAssertionError => 26
  | .loadAttr => 27
  | .loadBuildClass => 28
  | .loadClosure => 29
  | .loadConst => 30
  | .loadDeref => 31
  | .loadFast => 32
  | .loadGlobal => 33
  | .loadMethod => 34
  | .loadName => 35
  | .makeFunction => 36
  | .methodCall => 38
  | .move => 39
  | .raiseVarargs => 40
  | .returnValue => 41
  | .setupExceptionHandling => 42
  | .storeAttr => 43
  | .storeDeref => 44
  | .storeFast => 45
  | .storeGlobal => 46
  | .storeName => 47
  | .storeSubscript => 48
  | .unary => 49
  | .unpackSequence => 50
  | .continue_ => 51
  | .reraise => 52
  | .withExceptStart => 53
  | .leaveExceptionHandling => 54
  | .deleteSubscript => 55
  | .setupWith => 56
  | .clearTopCleanup => 57
  | .listAppend => 58
  | .setAdd => 59
  | .buildSet => 60
  | .importFrom => 61
  | .buildSlice => 62
  | .inplaceOp => 63
  | .yieldValue => 64
  | .dictUpdate => 65
  | .dictAdd => 66
  | .yieldLoad => 67
  | .getYieldFromIter => 68
  | .yieldFrom => 69
  | .importStar => 70
  | .getAwaitable => 71
  | .buildString => 72
  | .formatValue => 73
  | .push => 74
  | .pop => 75
  | .deleteFast => 76
  | .deleteGlobal => 77
  | .jumpIfExceptionMatch => 78
  | .toBool => 79
  | .setUpdate => 80
  | .deleteAttr => 81
  | .unpackExpand => 82
  | .deleteDeref => 83

def Opcode.all : List Opcode :=
  [.binaryOperation, .binarySubscript, .buildDict, .buildList, .buildTuple, .clearExceptionState,
    .compareOp, .deleteName, .dictMerge, .forIter, .functionCall, .functionCallEx, .functionCallWithKw,
    .getIter, .importName, .jump, .jumpForward, .jumpIfFalse, .jumpIfFalseOrPop, .jumpIfNotExceptionMatch,
    .jumpIfTrue, .jumpIfTrueOrPop, .listExtend, .listToTuple, .loadAssertionError, .loadAttr,
    .loadBuildClass, .loadClosure, .loadConst, .loadDeref, .loadFast, .loadGlobal, .loadMethod, .loadName,
    .makeFunction, .methodCall, .move, .raiseVarargs, .returnValue, .setupExceptionHandling, .storeAttr,
    .storeDeref, .storeFast, .storeGlobal, .storeName, .storeSubscript, .unary, .unpackSequence,
    .continue_, .reraise, .withExceptStart, .leaveExceptionHandling, .deleteSubscript, .setupWith,
    .clearTopCleanup, .listAppend, .setAdd, .buildSet, .importFrom, .buildSlice, .inplaceOp, .yieldValue,
    .dictUpdate, .dictAdd, .yieldLoad, .getYieldFromIter, .yieldFrom, .importStar, .getAwaitable,
    .buildString, .formatValue, .push, .pop, .deleteFast, .deleteGlobal, .jumpIfExceptionMatch, .toBool,
    .setUpdate, .deleteAttr, .unpackExpand, .deleteDeref]

def Opcode.ofByte (b : Byte) : Option Opcode := Opcode.all.find? (·.code = b)

/-- `Unary::Operation`. -/
inductive UnaryOperation
  | positive
  | negative
  | invert
  | not
  deriving DecidableEq

def UnaryOperation.code : UnaryOperation → Byte
  | .positive => 0
  | .negative => 1
  | .invert => 2
  | .not => 3

/-- The cast behind `ASSERT(op < 4)`. -/
def UnaryOperation.ofByte (b : Byte) : Option UnaryOperation :=
  [.positive, .negative, .invert, .not].find? (·.code = b)

/-- The instructions, with what their constructors keep. The other operations
and the conversion are given by their values, which `deserialize` does not check;
an offset is set once the labels are placed. -/
inductive Instruction
  | binaryOperation (destination lhs rhs : Register) (operation : Byte)
  | binarySubscript (dst src index : Register)
  | buildDict (dst : Register) (size : SizeT)
  | buildList (dst : Register) (size : SizeT)
  | buildSet (dst : Register) (size : SizeT)
  | buildSlice (dst : Register) (start end_ step : Option Register)
  | buildString (dst : Register) (size : SizeT)
  | buildTuple (dst : Register) (size : SizeT)
  | clearExceptionState
  | clearTopCleanup
  | compareOperation (dst lhs rhs : Register) (comparisson : Byte)
  | deleteAttr (self attrName : Register)
  | deleteDeref (src : Register)
  | deleteFast (stackIndex : Register)
  | deleteGlobal (name : Register)
  | deleteName (name : Register)
  | deleteSubscript (value index : Register)
  | dictAdd (dict key value : Register)
  | dictMerge (thisDict otherDict : Register)
  | dictUpdate (dst src : Register)
  | forIter (dst src : Register) (offset bodyOffset : Option (BitVec 32))
  | formatValue (dst src : Register) (conversion : Byte)
  | functionCall (functionName : Register) (size stackOffset : SizeT)
  | functionCallEx (function args kwargs : Register) (expandArgs expandKwargs : Bool)
  | functionCallWithKeywords (functionName : Register) (args kwargs keywords : Vec Register)
  | getAwaitable (dst src : Register)
  | getIter (dst src : Register)
  | getYieldFromIter (dst src : Register)
  | importFrom (destination name from_ : Register)
  | importName (destination name fromList level : Register)
  | importStar (src : Register)
  | inplaceOp (lhs rhs : Register) (operation : Byte)
  | jump (offset : Option (BitVec 32))
  | jumpForward (offset : Option (BitVec 32))
  | jumpIfExceptionMatch (exceptionTypeReg : Register) (offset : Option (BitVec 32))
  | jumpIfFalse (testRegister : Register) (offset : Option (BitVec 32))
  | jumpIfFalseOrPop (testRegister resultRegister : Register) (offset : Option (BitVec 32))
  | jumpIfNotExceptionMatch (exceptionTypeReg : Register) (offset : Option (BitVec 32))
  | jumpIfTrue (testRegister : Register) (offset : Option (BitVec 32))
  | jumpIfTrueOrPop (testRegister resultRegister : Register) (offset : Option (BitVec 32))
  | leaveExceptionHandling
  | listAppend (list value : Register)
  | listExtend (list value : Register)
  | listToTuple (tuple list : Register)
  | loadAssertionError (assertionLocation : Register)
  | loadAttr (destination valueSource attrName : Register)
  | loadBuildClass (dst : Register)
  | loadClosure (destination source : Register)
  | loadConst (destination : Register) (staticValueIndex : SizeT)
  | loadDeref (destination source : Register)
  | loadFast (destination stackIndex : Register) (objectName : Str)
  | loadGlobal (destination objectName : Register)
  | loadMethod (destination valueSource methodName : Register)
  | loadName (destination : Register) (objectName : Str)
  | makeFunction (dst name : Register) (defaultsSize kwDefaultsSize : SizeT) (capturesTuple : Option Register)
  | methodCall (caller : Register) (args : Vec Register)
  | move (destination source : Register)
  | pop (discard : Bool) (dst : Register)
  | push (source : Register)
  | raiseVarargs (exception cause : Option Register)
  | reRaise
  | returnValue (source : Register)
  | setAdd (set value : Register)
  | setUpdate (set iterable : Register)
  | setupExceptionHandling (offset : Option (BitVec 32))
  | setupWith (offset : Option (BitVec 32))
  | storeAttr (dst src attrName : Register)
  | storeDeref (dst src : Register)
  | storeFast (stackIndex src : Register)
  | storeGlobal (objectName source : Register)
  | storeName (objectName : Str) (source : Register)
  | storeSubscript (obj slice src : Register)
  | toBool (dst src : Register)
  | unary (destination source : Register) (operation : UnaryOperation)
  | unpackExpand (destination : Vec Register) (rest source : Register)
  | unpackSequence (destination : Vec Register) (source : Register)
  | withExceptStart (result exitMethod : Register)
  | yieldFrom (dst receiver value : Register)
  | yieldLoad (dst : Register)
  | yieldValue (source : Register)
  deriving DecidableEq

/-- A size behind `ASSERT(size < 255)`. -/
def smallSize (n : SizeT) : Option Byte := if n.toNat < 255 then some (n.setWidth 8) else none

/-- An offset behind `ASSERT(m_offset.has_value())`. -/
def relocated (offset : Option (BitVec 32)) : Option (List Byte) := offset.bind (Encoder.word 32)

def encodeVec : Encoder (Vec Byte) := Encoder.vec Encoder.byte

def flag (b : Bool) : Byte := if b then 1 else 0

/-- The `serialize` of the instructions; `none` is a failed `ASSERT`. -/
def Instruction.serialize : Encoder Instruction
  | .binaryOperation destination lhs rhs operation =>
    some [Opcode.binaryOperation.code, destination, lhs, rhs, operation]
  | .binarySubscript dst src index => some [Opcode.binarySubscript.code, dst, src, index]
  | .buildDict dst size => do
    let size ← smallSize size
    some [Opcode.buildDict.code, dst, size]
  | .buildList dst size => do
    let size ← smallSize size
    some [Opcode.buildList.code, dst, size]
  | .buildSet dst size => do
    let size ← smallSize size
    some [Opcode.buildSet.code, dst, size]
  | .buildSlice dst start end_ step =>
    match start, end_, step with
    | some start, some end_, some step => some [Opcode.buildSlice.code, dst, 3, start, end_, step]
    | some start, some end_, none => some [Opcode.buildSlice.code, dst, 2, start, end_]
    | _, _, _ => none
  | .buildString dst size => do
    let size ← smallSize size
    some [Opcode.buildString.code, dst, size]
  | .buildTuple dst size => do
    let size ← smallSize size
    some [Opcode.buildTuple.code, dst, size]
  | .clearExceptionState => some [Opcode.clearExceptionState.code]
  | .clearTopCleanup => some [Opcode.clearTopCleanup.code]
  | .compareOperation dst lhs rhs comparisson => some [Opcode.compareOp.code, dst, lhs, rhs, comparisson]
  | .deleteAttr self attrName => some [Opcode.deleteAttr.code, self, attrName]
  | .deleteDeref src => some [Opcode.deleteDeref.code, src]
  | .deleteFast stackIndex => some [Opcode.deleteFast.code, stackIndex]
  | .deleteGlobal name => some [Opcode.deleteGlobal.code, name]
  | .deleteName name => some [Opcode.deleteName.code, name]
  | .deleteSubscript value index => some [Opcode.deleteSubscript.code, value, index]
  | .dictAdd dict key value => some [Opcode.dictAdd.code, dict, key, value]
  | .dictMerge thisDict otherDict => some [Opcode.dictMerge.code, thisDict, otherDict]
  | .dictUpdate dst src => some [Opcode.dictUpdate.code, dst, src]
  | .forIter dst src offset bodyOffset =>
    concat [some [Opcode.forIter.code, dst, src], relocated offset, relocated bodyOffset]
  | .formatValue dst src conversion => some [Opcode.formatValue.code, dst, src, conversion]
  | .functionCall functionName size stackOffset => do
    let size ← smallSize size
    let stackOffset ← smallSize stackOffset
    some [Opcode.functionCall.code, functionName, size, stackOffset]
  | .functionCallEx function args kwargs expandArgs expandKwargs =>
    some [Opcode.functionCallEx.code, function, args, kwargs, flag expandArgs, flag expandKwargs]
  | .functionCallWithKeywords functionName args kwargs keywords =>
    concat [some [Opcode.functionCallWithKw.code, functionName], encodeVec args, encodeVec kwargs, encodeVec keywords]
  | .getAwaitable dst src => some [Opcode.getAwaitable.code, dst, src]
  | .getIter dst src => some [Opcode.getIter.code, dst, src]
  | .getYieldFromIter dst src => some [Opcode.getYieldFromIter.code, dst, src]
  | .importFrom destination name from_ => some [Opcode.importFrom.code, destination, name, from_]
  | .importName destination name fromList level => some [Opcode.importName.code, destination, name, fromList, level]
  | .importStar src => some [Opcode.importStar.code, src]
  | .inplaceOp lhs rhs operation => some [Opcode.inplaceOp.code, lhs, rhs, operation]
  | .jump offset => concat [some [Opcode.jump.code], relocated offset]
  | .jumpForward offset => concat [some [Opcode.jumpForward.code], relocated offset]
  | .jumpIfExceptionMatch exceptionTypeReg offset =>
    concat [some [Opcode.jumpIfExceptionMatch.code, exceptionTypeReg], relocated offset]
  | .jumpIfFalse testRegister offset => concat [some [Opcode.jumpIfFalse.code, testRegister], relocated offset]
  | .jumpIfFalseOrPop testRegister resultRegister offset =>
    concat [some [Opcode.jumpIfFalseOrPop.code, testRegister, resultRegister], relocated offset]
  | .jumpIfNotExceptionMatch exceptionTypeReg offset =>
    concat [some [Opcode.jumpIfNotExceptionMatch.code, exceptionTypeReg], relocated offset]
  | .jumpIfTrue testRegister offset => concat [some [Opcode.jumpIfTrue.code, testRegister], relocated offset]
  | .jumpIfTrueOrPop testRegister resultRegister offset =>
    concat [some [Opcode.jumpIfTrueOrPop.code, testRegister, resultRegister], relocated offset]
  | .leaveExceptionHandling => some [Opcode.leaveExceptionHandling.code]
  | .listAppend list value => some [Opcode.listAppend.code, list, value]
  | .listExtend list value => some [Opcode.listExtend.code, list, value]
  | .listToTuple tuple list => some [Opcode.listToTuple.code, tuple, list]
  | .loadAssertionError assertionLocation => some [Opcode.loadAssertionError.code, assertionLocation]
  | .loadAttr destination valueSource attrName => some [Opcode.loadAttr.code, destination, valueSource, attrName]
  | .loadBuildClass dst => some [Opcode.loadBuildClass.code, dst]
  | .loadClosure destination source => some [Opcode.loadClosure.code, destination, source]
  | .loadConst destination staticValueIndex => do
    let staticValueIndex ← smallSize staticValueIndex
    some [Opcode.loadConst.code, destination, staticValueIndex]
  | .loadDeref destination source => some [Opcode.loadDeref.code, destination, source]
  | .loadFast destination stackIndex _ => some [Opcode.loadFast.code, destination, stackIndex]
  | .loadGlobal destination objectName => some [Opcode.loadGlobal.code, destination, objectName]
  | .loadMethod destination valueSource methodName =>
    some [Opcode.loadMethod.code, destination, valueSource, methodName]
  | .loadName destination objectName => concat [some [Opcode.loadName.code, destination], encodeVec objectName]
  | .makeFunction dst name defaultsSize kwDefaultsSize capturesTuple => do
    let defaultsSize ← smallSize defaultsSize
    let kwDefaultsSize ← smallSize kwDefaultsSize
    some [Opcode.makeFunction.code, dst, name, defaultsSize, kwDefaultsSize, flag capturesTuple.isSome,
      capturesTuple.getD 0]
  | .methodCall caller args => concat [some [Opcode.methodCall.code, caller], encodeVec args]
  | .move destination source => some [Opcode.move.code, destination, source]
  | .pop discard dst => some [Opcode.pop.code, flag discard, dst]
  | .push source => some [Opcode.push.code, source]
  | .raiseVarargs exception cause =>
    some (Opcode.raiseVarargs.code :: BitVec.ofNat 8 (exception.toList.length + cause.toList.length) ::
      (exception.toList ++ cause.toList))
  | .reRaise => some [Opcode.reraise.code]
  | .returnValue source => some [Opcode.returnValue.code, source]
  | .setAdd set value => some [Opcode.setAdd.code, set, value]
  | .setUpdate set iterable => some [Opcode.setUpdate.code, set, iterable]
  | .setupExceptionHandling offset => concat [some [Opcode.setupExceptionHandling.code], relocated offset]
  | .setupWith offset => concat [some [Opcode.setupWith.code], relocated offset]
  | .storeAttr dst src attrName => some [Opcode.storeAttr.code, dst, src, attrName]
  | .storeDeref dst src => some [Opcode.storeDeref.code, dst, src]
  | .storeFast stackIndex src => some [Opcode.storeFast.code, stackIndex, src]
  | .storeGlobal objectName source => some [Opcode.storeGlobal.code, objectName, source]
  | .storeName objectName source => concat [some [Opcode.storeName.code, source], encodeVec objectName]
  | .storeSubscript obj slice src => some [Opcode.storeSubscript.code, obj, slice, src]
  | .toBool dst src => some [Opcode.toBool.code, dst, src]
  | .unary destination source operation => some [Opcode.unary.code, destination, source, operation.code]
  | .unpackExpand destination rest source =>
    concat [some [Opcode.unpackSequence.code], encodeVec destination, some [rest, source]]
  | .unpackSequence destination source =>
    concat [some [Opcode.unpackSequence.code], encodeVec destination, some [source]]
  | .withExceptStart result exitMethod => some [Opcode.withExceptStart.code, result, exitMethod]
  | .yieldFrom dst receiver value => some [Opcode.yieldFrom.code, dst, receiver, value]
  | .yieldLoad dst => some [Opcode.yieldLoad.code, dst]
  | .yieldValue source => some [Opcode.yieldValue.code, source]

/-- "NOT_IMPLEMENTED", the name that `deserialize` gives a `LoadFast`. -/
def notImplemented : Str where
  elements := "NOT_IMPLEMENTED".toList.map fun c => BitVec.ofNat 8 c.toNat
  length_lt := by decide

def size : Reader SizeT := (·.setWidth 64) <$> byte

def offset : Reader (Option (BitVec 32)) := some <$> word 32

/-- The operands of an instruction, in the order of `deserialize`. -/
def Opcode.operands : Opcode → Reader Instruction
  | .loadName => return .loadName (← byte) (← vec byte)
  | .loadConst => return .loadConst (← byte) (← size)
  | .functionCall => return .functionCall (← byte) (← size) (← size)
  | .returnValue => return .returnValue (← byte)
  | .move => return .move (← byte) (← byte)
  | .makeFunction => do
    let dst ← byte
    let name ← byte
    let defaultSize ← size
    let kwDefaultSize ← size
    let hasCapturesTuple ← byte
    let value ← byte
    return .makeFunction dst name defaultSize kwDefaultSize (if hasCapturesTuple ≠ 0 then some value else none)
  | .storeName => do
    let src ← byte
    let name ← vec byte
    return .storeName name src
  | .compareOp => return .compareOperation (← byte) (← byte) (← byte) (← byte)
  | .jumpIfTrue => return .jumpIfTrue (← byte) (← offset)
  | .raiseVarargs => do
    let count ← byte
    let exception ← if 0 < count.toNat then some <$> byte else pure none
    let cause ← if 1 < count.toNat then some <$> byte else pure none
    return .raiseVarargs exception cause
  | .loadAssertionError => return .loadAssertionError (← byte)
  | .loadFast => return .loadFast (← byte) (← byte) notImplemented
  | .binaryOperation => return .binaryOperation (← byte) (← byte) (← byte) (← byte)
  | .loadAttr => return .loadAttr (← byte) (← byte) (← byte)
  | .loadGlobal => return .loadGlobal (← byte) (← byte)
  | .reraise => return .reRaise
  | .loadMethod => return .loadMethod (← byte) (← byte) (← byte)
  | .methodCall => return .methodCall (← byte) (← vec byte)
  | .storeAttr => return .storeAttr (← byte) (← byte) (← byte)
  | .storeFast => return .storeFast (← byte) (← byte)
  | .withExceptStart => return .withExceptStart (← byte) (← byte)
  | .loadClosure => return .loadClosure (← byte) (← byte)
  | .functionCallWithKw => return .functionCallWithKeywords (← byte) (← vec byte) (← vec byte) (← vec byte)
  | .storeGlobal => return .storeGlobal (← byte) (← byte)
  | .importName => return .importName (← byte) (← byte) (← byte) (← byte)
  | .importFrom => return .importFrom (← byte) (← byte) (← byte)
  | .buildDict => return .buildDict (← byte) (← size)
  | .dictUpdate => return .dictUpdate (← byte) (← byte)
  | .buildSlice => do
    let dst ← byte
    let argcount ← byte
    if argcount = 2 then return .buildSlice dst (← byte) (← byte) none
    else if argcount = 3 then return .buildSlice dst (← byte) (← byte) (← byte)
    else failure
  | .clearExceptionState => return .clearExceptionState
  | .deleteName => return .deleteName (← byte)
  | .listExtend => return .listExtend (← byte) (← byte)
  | .forIter => return .forIter (← byte) (← byte) (← offset) (← offset)
  | .getIter => return .getIter (← byte) (← byte)
  | .loadBuildClass => return .loadBuildClass (← byte)
  | .buildTuple => return .buildTuple (← byte) (← size)
  | .buildList => return .buildList (← byte) (← size)
  | .setupExceptionHandling => return .setupExceptionHandling (← offset)
  | .jumpForward => return .jumpForward (← offset)
  | .jumpIfNotExceptionMatch => return .jumpIfNotExceptionMatch (← byte) (← offset)
  | .jumpIfFalse => return .jumpIfFalse (← byte) (← offset)
  | .jump => return .jump (← offset)
  | .storeSubscript => return .storeSubscript (← byte) (← byte) (← byte)
  | .binarySubscript => return .binarySubscript (← byte) (← byte) (← byte)
  | .jumpIfTrueOrPop => return .jumpIfTrueOrPop (← byte) (← byte) (← offset)
  | .jumpIfFalseOrPop => return .jumpIfFalseOrPop (← byte) (← byte) (← offset)
  | .inplaceOp => return .inplaceOp (← byte) (← byte) (← byte)
  | .listToTuple => return .listToTuple (← byte) (← byte)
  | .dictMerge => return .dictMerge (← byte) (← byte)
  | .functionCallEx =>
    return .functionCallEx (← byte) (← byte) (← byte) (decide ((← byte) = 1)) (decide ((← byte) = 1))
  | .unary => do
    let dst ← byte
    let src ← byte
    let op ← byte
    match UnaryOperation.ofByte op with
    | none => failure
    | some op => return .unary dst src op
  | .loadDeref => return .loadDeref (← byte) (← byte)
  | .leaveExceptionHandling => return .leaveExceptionHandling
  | .deleteSubscript => return .deleteSubscript (← byte) (← byte)
  | .setupWith => return .setupWith (← offset)
  | .clearTopCleanup => return .clearTopCleanup
  | .unpackSequence => return .unpackSequence (← vec byte) (← byte)
  | .listAppend => return .listAppend (← byte) (← byte)
  | .setAdd => return .setAdd (← byte) (← byte)
  | .buildSet => return .buildSet (← byte) (← size)
  | .storeDeref => return .storeDeref (← byte) (← byte)
  | .yieldValue => return .yieldValue (← byte)
  | .yieldLoad => return .yieldLoad (← byte)
  | .buildString => return .buildString (← byte) (← size)
  | .formatValue => return .formatValue (← byte) (← byte) (← byte)
  | .push => return .push (← byte)
  | .pop => do
    let discard ← byte
    let dst ← byte
    return .pop (decide (discard ≠ 0)) dst
  | .getYieldFromIter => return .getYieldFromIter (← byte) (← byte)
  | .jumpIfExceptionMatch => return .jumpIfExceptionMatch (← byte) (← offset)
  | .toBool => return .toBool (← byte) (← byte)
  | .setUpdate => return .setUpdate (← byte) (← byte)
  -- an operation code that the switch lacks
  | .continue_ | .dictAdd | .yieldFrom | .importStar | .getAwaitable | .deleteFast | .deleteGlobal | .deleteAttr |
    .unpackExpand | .deleteDeref => failure

/-- `deserialize`. A missing operation code gives a null pointer, on which `Bytecode::deserialize` aborts. -/
def Instruction.deserialize : Reader Instruction := do
  let instructionCode ← byte
  match Opcode.ofByte instructionCode with
  | none => failure
  | some o => o.operands

/-- The instructions that come back: their operation code has a case of its own
in the switch, sizes are small, operands and offsets set, and a `LoadFast` has
the name it is given on the way back. -/
def Instruction.comesBack : Instruction → Bool
  | .buildDict _ size | .buildList _ size | .buildSet _ size | .buildString _ size | .buildTuple _ size |
    .loadConst _ size => size.toNat < 255
  | .functionCall _ size stackOffset => size.toNat < 255 && stackOffset.toNat < 255
  | .makeFunction _ _ defaultsSize kwDefaultsSize _ => defaultsSize.toNat < 255 && kwDefaultsSize.toNat < 255
  | .buildSlice _ start end_ _ => start.isSome && end_.isSome
  | .raiseVarargs exception cause => exception.isSome || cause.isNone
  | .forIter _ _ offset bodyOffset => offset.isSome && bodyOffset.isSome
  | .jump offset | .jumpForward offset | .jumpIfExceptionMatch _ offset | .jumpIfFalse _ offset |
    .jumpIfFalseOrPop _ _ offset | .jumpIfNotExceptionMatch _ offset | .jumpIfTrue _ offset |
    .jumpIfTrueOrPop _ _ offset | .setupExceptionHandling offset | .setupWith offset => offset.isSome
  | .loadFast _ _ objectName => objectName = notImplemented
  | .deleteAttr .. | .deleteDeref .. | .deleteFast .. | .deleteGlobal .. | .dictAdd .. | .getAwaitable .. |
    .importStar .. | .yieldFrom .. | .unpackExpand .. => false
  | _ => true

end Pylang.Serialization
