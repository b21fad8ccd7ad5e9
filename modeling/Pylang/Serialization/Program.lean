/-
A program of bytecode and its bytes: the constants, `Bytecode`, `PyCode` and
`BytecodeProgram`. A program comes back from its bytes if and only if its
instructions and its constants do.
-/
import Pylang.Serialization.InstructionFormat
import Pylang.Tagged.RtValue

namespace Pylang.Serialization

open Pylang.Reader (byte word vec)
open Pylang.Tagged (TaggedWord I64 fitsTaggedInt fromInt)

/-! ### Constants -/

inductive Value
  | tagged (w : TaggedWord)
  /-- A `PyInteger`. -/
  | integer (n : Int)
  | float (bits : BitVec 64)
  | str (value : Str)
  | bytes (value : Vec Byte)
  | ellipsis
  | none
  | bool (b : Bool)
  | tuple (elements : List Value)
  /-- Any other object. -/
  | object (o : Nat)

inductive ValueType
  | int64
  | f64
  | string
  | bytes
  | ellipsis
  | none
  | bool
  | object
  | tuple
  deriving DecidableEq

def ValueType.code : ValueType → Byte
  | .int64 => 0
  | .f64 => 1
  | .string => 2
  | .bytes => 3
  | .ellipsis => 4
  | .none => 5
  | .bool => 6
  | .object => 7
  | .tuple => 8

def ValueType.ofByte (b : Byte) : Option ValueType :=
  [.int64, .f64, .string, .bytes, .ellipsis, .none, .bool, .object, .tuple].find? (·.code = b)

/-- `serialize<Value>`; `none` is a `TODO()`. -/
def Value.serialize : Encoder Value
  | .tagged w => concat [some [ValueType.int64.code], Encoder.word 64 w.asInt]
  | .float bits => concat [some [ValueType.f64.code], Encoder.word 64 bits]
  | .str value => concat [some [ValueType.string.code], encodeVec value]
  | .none => some [ValueType.none.code]
  | .bool b => some [ValueType.bool.code, flag b]
  | .ellipsis => some [ValueType.ellipsis.code]
  | .integer _ | .bytes _ | .tuple _ | .object _ => Option.none

/-- `RtValue::from_int_or_box`. -/
def fromIntOrBox (value : I64) : Value :=
  if fitsTaggedInt value.toInt then .tagged (fromInt value) else .integer value.toInt

/-- What follows the type of a value, whose elements are read by `element`. -/
def ValueType.payload (element : Reader Value) : ValueType → Reader Value
  | .int64 => return fromIntOrBox (← word 64)
  | .f64 => return .float (← word 64)
  | .string => return .str (← vec byte)
  | .bytes => return .bytes (← vec byte)
  | .ellipsis => return .ellipsis
  | .none => return .none
  | .bool => return .bool (decide ((← byte) = 1))
  | .object => failure
  | .tuple => return .tuple (← vec element).elements

/-- Values nested at most so deep. -/
def Value.read : Nat → Reader Value
  | 0 => failure
  | depth + 1 => do
    match ValueType.ofByte (← byte) with
    | Option.none => failure
    | some type => type.payload (Value.read depth)

/-- `deserialize<Value>`. A value is nested no deeper than it has bytes. -/
def Value.deserialize : Reader Value := fun s => (Value.read (s.length + 1)).run s

/-- The constants that `serialize` has a case for. -/
def Value.comesBack : Value → Bool
  | .integer _ | .bytes _ | .tuple _ | .object _ => false
  | _ => true

/-! ### Functions and programs -/

/-- A `Bytecode`, whose backend is always `BYTECODE`. -/
structure Bytecode where
  registerCount : SizeT
  localsCount : SizeT
  stackSize : SizeT
  functionName : Str
  instructions : Vec Instruction

structure PyCode where
  function : Bytecode
  cell2arg : Vec SizeT
  argCount : SizeT
  cellvars : Vec Str
  consts : Vec Value
  filename : Str
  firstLineNumber : SizeT
  /-- The eight `CodeFlags`. -/
  flags : Byte
  freevars : Vec Str
  positionalOnlyArgCount : SizeT
  kwonlyArgCount : SizeT
  stackSize : SizeT
  name : Str
  names : Vec Str
  nlocals : SizeT
  varnames : Vec Str

/-- A `BytecodeProgram` without other backends. -/
structure BytecodeProgram where
  mainFunction : PyCode
  functions : List PyCode

/-- What `serialize` writes, in order. -/
def Bytecode.parts (b : Bytecode) : List (Option (List Byte)) :=
  [Encoder.word 64 b.registerCount, Encoder.word 64 b.localsCount, Encoder.word 64 b.stackSize,
    encodeVec b.functionName, some [0], Encoder.vec Instruction.serialize b.instructions]

def Bytecode.serialize : Encoder Bytecode := fun b => concat b.parts

def Bytecode.deserialize : Reader Bytecode := do
  let registerCount ← word 64
  let localsCount ← word 64
  let stackSize ← word 64
  let functionName ← vec byte
  let _backend ← byte
  let instructions ← vec Instruction.deserialize
  return ⟨registerCount, localsCount, stackSize, functionName, instructions⟩

/-- What `serialize` writes, in order. -/
def PyCode.parts (c : PyCode) : List (Option (List Byte)) :=
  [c.function.serialize, Encoder.vec (Encoder.word 64) c.cell2arg, Encoder.word 64 c.argCount,
    Encoder.vec encodeVec c.cellvars, Encoder.vec Value.serialize c.consts, encodeVec c.filename,
    Encoder.word 64 c.firstLineNumber, some [c.flags], Encoder.vec encodeVec c.freevars,
    Encoder.word 64 c.positionalOnlyArgCount, Encoder.word 64 c.kwonlyArgCount, Encoder.word 64 c.stackSize,
    encodeVec c.name, Encoder.vec encodeVec c.names, Encoder.word 64 c.nlocals, Encoder.vec encodeVec c.varnames]

def PyCode.serialize : Encoder PyCode := fun c => concat c.parts

def PyCode.deserialize : Reader PyCode := do
  let function ← Bytecode.deserialize
  let cell2arg ← vec (word 64)
  let argCount ← word 64
  let cellvars ← vec (vec byte)
  let consts ← vec Value.deserialize
  let filename ← vec byte
  let firstLineNumber ← word 64
  let flags ← byte
  let freevars ← vec (vec byte)
  let positionalOnlyArgCount ← word 64
  let kwonlyArgCount ← word 64
  let stackSize ← word 64
  let name ← vec byte
  let names ← vec (vec byte)
  let nlocals ← word 64
  let varnames ← vec (vec byte)
  return ⟨function, cell2arg, argCount, cellvars, consts, filename, firstLineNumber, flags, freevars,
    positionalOnlyArgCount, kwonlyArgCount, stackSize, name, names, nlocals, varnames⟩

def BytecodeProgram.serialize : Encoder BytecodeProgram := fun p =>
  concat (p.mainFunction.serialize :: p.functions.map PyCode.serialize)

/-- `BytecodeProgram::deserialize`: the functions go on to the end of the buffer, each with bytes of its own. -/
def BytecodeProgram.deserialize (buffer : List Byte) : Option BytecodeProgram := do
  let (mainFunction, span) ← PyCode.deserialize.run buffer
  let functions ← Reader.untilEnd PyCode.deserialize span.length span
  return ⟨mainFunction, functions⟩

def Bytecode.comesBack (b : Bytecode) : Prop := ∀ i ∈ b.instructions.elements, i.comesBack = true

def PyCode.comesBack (c : PyCode) : Prop := c.function.comesBack ∧ ∀ v ∈ c.consts.elements, v.comesBack = true

def BytecodeProgram.comesBack (p : BytecodeProgram) : Prop :=
  p.mainFunction.comesBack ∧ ∀ c ∈ p.functions, c.comesBack

/-! ### What comes back -/

theorem ValueType.ofByte_code (t : ValueType) : ValueType.ofByte t.code = some t := by
  cases t <;> rfl

theorem value_run (t : ValueType) (s : List Byte) :
    Value.deserialize.run (t.code :: s) = (t.payload (Value.read (s.length + 1))).run s := by
  show (match ValueType.ofByte t.code with
    | Option.none => failure
    | some type => type.payload (Value.read (s.length + 1)) : Reader Value).run s = _
  rw [ValueType.ofByte_code]

/-- After the type comes the payload. -/
theorem reads_value {t : ValueType} {bytes : List Byte} {v : Value}
    (h : ∀ element, Reads (t.payload element) bytes v) : Reads Value.deserialize (t.code :: bytes) v := by
  intro rest
  rw [List.cons_append, value_run, h]

theorem fromInt_asInt (w : TaggedWord) : fromInt w.asInt = w := by
  have hbits : w.bits.sshiftRight 1 <<< 1 ||| 1#64 = w.bits := by
    have htag := congrArg (·.getLsbD 0) w.tag
    ext i hi
    cases i with
    | zero => simpa using htag.symm
    | succ i => simp [BitVec.getElem_sshiftRight, Nat.add_comm, hi]
  obtain ⟨bits, tag⟩ := w
  simpa [fromInt, TaggedWord.asInt] using hbits

theorem fromIntOrBox_asInt (w : TaggedWord) : fromIntOrBox w.asInt = .tagged w := by
  rw [fromIntOrBox, if_pos w.fits, fromInt_asInt]

theorem value_reads {v : Value} (h : v.comesBack = true) :
    ∃ bytes, v.serialize = some bytes ∧ Reads Value.deserialize bytes v := by
  cases v with
  | tagged w =>
    have hread := (reads_word (by decide) w.asInt).map fromIntOrBox
    rw [fromIntOrBox_asInt] at hread
    exact ⟨_, concat_two _ _, reads_value fun _ => hread⟩
  | float bits => exact ⟨_, concat_two _ _, reads_value fun _ => (reads_word (by decide) bits).map _⟩
  | str value =>
    obtain ⟨y, hy, hread⟩ := reads_vec value
    rw [Value.serialize, hy]
    exact ⟨_, concat_two _ _, reads_value fun _ => hread.map _⟩
  | none => exact ⟨_, rfl, reads_value fun _ _ => rfl⟩
  | ellipsis => exact ⟨_, rfl, reads_value fun _ _ => rfl⟩
  | bool b => cases b <;> exact ⟨_, rfl, reads_value fun _ _ => rfl⟩
  | integer | bytes | tuple | object => cases h

theorem keeps_value : Keeps Value.serialize Value.deserialize (·.comesBack = true) :=
  .of_reads (fun _ => value_reads) fun {v bytes} h hb => by
    cases v with
    | integer | bytes | tuple | object => cases hb
    | tagged | float | str | none | ellipsis | bool => exact absurd rfl h

theorem keeps_size : Keeps (Encoder.word 64) (word 64) fun _ => True := keeps_word (by decide)

theorem keeps_str : Keeps encodeVec (vec byte) fun _ => True := keeps_byte.vec_all

/-- A function comes back if its instructions do. -/
theorem keeps_bytecode : Keeps Bytecode.serialize Bytecode.deserialize Bytecode.comesBack where
  encodes := fun {b} h => concat_isSome <| by
    simp only [Bytecode.parts, List.forall_mem_cons, List.not_mem_nil, false_imp_iff, implies_true, and_true]
    exact ⟨⟨_, rfl⟩, ⟨_, rfl⟩, ⟨_, rfl⟩, keeps_str.encodes trivial, ⟨_, rfl⟩, keeps_instruction.vec.encodes h⟩
  reads := fun {b bytes} h => by
    have hall : ReadsAll b.parts Bytecode.deserialize b :=
      .cons (keeps_size.reads trivial) <| .cons (keeps_size.reads trivial) <| .cons (keeps_size.reads trivial) <|
      .cons (keeps_str.reads trivial) <| .cons (keeps_byte.reads trivial) <|
      .cons (keeps_instruction.vec.reads h) <| .nil b
    exact hall bytes
  misses := fun {b bytes} h => by
    have hsome : MissesSome b.parts Bytecode.deserialize b :=
      .tail (keeps_size.reads trivial) <| .tail (keeps_size.reads trivial) <| .tail (keeps_size.reads trivial) <|
      .tail (keeps_str.reads trivial) <| .tail (keeps_byte.reads trivial) <|
      .head (keeps_instruction.vec.misses h) fun hrun => by
        obtain ⟨hb, -⟩ := Reader.pure_eq_some.mp hrun
        exact congrArg Bytecode.instructions hb
    exact hsome bytes

/-- The code of a function comes back if its instructions and its constants do. -/
theorem keeps_code : Keeps PyCode.serialize PyCode.deserialize PyCode.comesBack where
  encodes := fun {c} h => concat_isSome <| by
    have hsizes := (keeps_size.vec_all.encodes (a := c.cell2arg)) trivial
    have hnames (v : Vec Str) := (keeps_str.vec_all.encodes (a := v)) trivial
    simp only [PyCode.parts, List.forall_mem_cons, List.not_mem_nil, false_imp_iff, implies_true, and_true]
    exact ⟨keeps_bytecode.encodes h.1, hsizes, ⟨_, rfl⟩, hnames _, keeps_value.vec.encodes h.2,
      keeps_str.encodes trivial, ⟨_, rfl⟩, ⟨_, rfl⟩, hnames _, ⟨_, rfl⟩, ⟨_, rfl⟩, ⟨_, rfl⟩, keeps_str.encodes trivial,
      hnames _, ⟨_, rfl⟩, hnames _⟩
  reads := fun {c bytes} h => by
    have hall : ReadsAll c.parts PyCode.deserialize c :=
      .cons (keeps_bytecode.reads h.1) <| .cons (keeps_size.vec_all.reads trivial) <|
      .cons (keeps_size.reads trivial) <| .cons (keeps_str.vec_all.reads trivial) <|
      .cons (keeps_value.vec.reads h.2) <| .cons (keeps_str.reads trivial) <| .cons (keeps_size.reads trivial) <|
      .cons (keeps_byte.reads trivial) <| .cons (keeps_str.vec_all.reads trivial) <|
      .cons (keeps_size.reads trivial) <| .cons (keeps_size.reads trivial) <| .cons (keeps_size.reads trivial) <|
      .cons (keeps_str.reads trivial) <| .cons (keeps_str.vec_all.reads trivial) <|
      .cons (keeps_size.reads trivial) <| .cons (keeps_str.vec_all.reads trivial) <| .nil c
    exact hall bytes
  misses := fun {c bytes} h => by
    have hsome : MissesSome c.parts PyCode.deserialize c := by
      by_cases hf : c.function.comesBack
      · refine .tail (keeps_bytecode.reads hf) <| .tail (keeps_size.vec_all.reads trivial) <|
          .tail (keeps_size.reads trivial) <| .tail (keeps_str.vec_all.reads trivial) <|
          .head (keeps_value.vec.misses fun hv => h ⟨hf, hv⟩) fun hrun => ?_
        iterate 11 obtain ⟨_, _, -, hrun⟩ := Reader.bind_eq_some.mp hrun
        obtain ⟨hc, -⟩ := Reader.pure_eq_some.mp hrun
        exact congrArg PyCode.consts hc
      · refine .head (keeps_bytecode.misses hf) fun hrun => ?_
        iterate 15 obtain ⟨_, _, -, hrun⟩ := Reader.bind_eq_some.mp hrun
        obtain ⟨hc, -⟩ := Reader.pure_eq_some.mp hrun
        exact congrArg PyCode.function hc
    exact hsome bytes

theorem bytecode_ne_nil (b : Bytecode) : b.serialize ≠ some [] := by
  intro h
  obtain ⟨x, y, hx, -, hnil⟩ := concat_cons_eq_some.mp h
  obtain rfl := (List.append_eq_nil_iff.mp hnil.symm).1
  cases hx

theorem code_ne_nil (c : PyCode) : c.serialize ≠ some [] := by
  intro h
  obtain ⟨x, y, hx, -, hnil⟩ := concat_cons_eq_some.mp h
  obtain rfl := (List.append_eq_nil_iff.mp hnil.symm).1
  exact bytecode_ne_nil c.function hx

/-- **A program comes back from its bytes** if and only if its instructions and its constants do. -/
theorem program_comesBack_iff (p : BytecodeProgram) :
    p.serialize.bind BytecodeProgram.deserialize = some p ↔ p.comesBack := by
  cases hs : p.serialize with
  | none =>
    refine iff_of_false (fun h => nomatch h) fun h => ?_
    obtain ⟨x, hx⟩ := keeps_code.encodes h.1
    obtain ⟨y, hy⟩ := keeps_code.encodes_all h.2
    rw [BytecodeProgram.serialize, concat_cons_eq_some.mpr ⟨x, y, hx, hy, rfl⟩] at hs
    cases hs
  | some buffer =>
    obtain ⟨x, y, hx, hy, rfl⟩ := concat_cons_eq_some.mp hs
    rw [Option.bind_some, BytecodeProgram.deserialize]
    by_cases hmain : p.mainFunction.comesBack
    · rw [keeps_code.reads hmain hx y]
      have hfunctions := keeps_code.untilEnd_eq_some code_ne_nil hy (length_le_concat code_ne_nil hy)
      rw [BytecodeProgram.comesBack, ← hfunctions]
      obtain ⟨mainFunction, functions⟩ := p
      cases hrest : Reader.untilEnd PyCode.deserialize y.length y <;> simp [hmain, hrest]
    · refine iff_of_false (fun h => ?_) fun h => hmain h.1
      obtain ⟨⟨mainFunction, span⟩, hrun, h⟩ := Option.bind_eq_some_iff.mp h
      obtain ⟨functions, -, h⟩ := Option.bind_eq_some_iff.mp h
      obtain rfl := Option.some.inj h
      exact keeps_code.misses hmain hx y span hrun

/-- The module `global x; del x`. -/
def deletesGlobal : BytecodeProgram where
  mainFunction :=
    { function :=
        { registerCount := 2, localsCount := 0, stackSize := 0, functionName := ⟨[], by decide⟩
          instructions := ⟨[.deleteGlobal 0, .loadConst 1 1, .returnValue 1], by decide⟩ }
      cell2arg := ⟨[], by decide⟩, argCount := 0, cellvars := ⟨[], by decide⟩
      consts := ⟨[.str ⟨[120], by decide⟩, .none], by decide⟩, filename := ⟨[], by decide⟩, firstLineNumber := 0, flags := 0
      freevars := ⟨[], by decide⟩, positionalOnlyArgCount := 0, kwonlyArgCount := 0, stackSize := 0
      name := ⟨[], by decide⟩, names := ⟨[], by decide⟩, nlocals := 0
      varnames := ⟨[], by decide⟩ }
  functions := []

/-- `DELETE_GLOBAL` is written and not read. -/
theorem deletesGlobal_lost :
    deletesGlobal.serialize.isSome = true ∧
      (deletesGlobal.serialize.bind BytecodeProgram.deserialize).isNone = true := by
  decide

end Pylang.Serialization
