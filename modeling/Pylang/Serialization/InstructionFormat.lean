/-
Which instructions `deserialize` gives back from their bytes: those of
`comesBack`, and no other.
-/
import Pylang.Serialization.Instruction

namespace Pylang.Serialization

open Pylang.Reader (byte word vec)

variable {i : Instruction} {o : Opcode} {bytes : List Byte}

theorem Opcode.ofByte_code (o : Opcode) : Opcode.ofByte o.code = some o := by
  cases o <;> rfl

theorem deserialize_run (o : Opcode) (s : List Byte) :
    Instruction.deserialize.run (o.code :: s) = o.operands.run s := by
  cases o <;> rfl

/-- After the operation code come the operands. -/
theorem reads_code (h : Reads o.operands bytes i) : Reads Instruction.deserialize (o.code :: bytes) i := by
  intro rest
  rw [List.cons_append, deserialize_run, h]

theorem misses_code (h : Misses o.operands bytes i) : Misses Instruction.deserialize (o.code :: bytes) i := by
  intro rest rest'
  rw [List.cons_append, deserialize_run]
  exact h rest rest'

theorem smallSize_eq_some {n : SizeT} {b : Byte} : smallSize n = some b ↔ n.toNat < 255 ∧ b = n.setWidth 8 := by
  unfold smallSize
  split <;> simp_all [eq_comm]

theorem reads_size {n : SizeT} (h : n.toNat < 255) : Reads size [n.setWidth 8] n := by
  have hn : (n.setWidth 8).setWidth 64 = n := by
    apply BitVec.eq_of_toNat_eq
    simp only [BitVec.toNat_setWidth]
    omega
  intro rest
  show some ((n.setWidth 8).setWidth 64, rest) = _
  rw [hn]

theorem reads_offset (x : BitVec 32) : Reads offset (Encoder.toBytes 4 x.toNat) (some x) :=
  (reads_word (by decide) x).map some

theorem reads_vec (v : Vec Byte) : ∃ bytes, encodeVec v = some bytes ∧ Reads (vec byte) bytes v := by
  obtain ⟨bytes, hbytes⟩ := keeps_byte.vec.encodes (a := v) fun _ _ => trivial
  exact ⟨bytes, hbytes, keeps_byte.vec.reads (fun _ _ => trivial) hbytes⟩

theorem concat_two (x y : List Byte) : concat [some x, some y] = some (x ++ y) := by
  simp [concat]

theorem concat_three (x y z : List Byte) : concat [some x, some y, some z] = some (x ++ (y ++ z)) := by
  simp [concat]

theorem smallSize_bind {n : SizeT} (h : n.toNat < 255) (f : Byte → Option (List Byte)) :
    (smallSize n >>= f) = f (n.setWidth 8) := by
  rw [smallSize_eq_some.mpr ⟨h, rfl⟩]
  rfl

/-- An instruction of a register and a size. -/
theorem reads_sized {n : SizeT} {dst : Register} {mk : Register → SizeT → Instruction} (h : n.toNat < 255)
    (ho : o.operands = (do return mk (← byte) (← size))) :
    ∃ bytes, (smallSize n >>= fun n => some [o.code, dst, n]) = some bytes ∧
      Reads Instruction.deserialize bytes (mk dst n) := by
  refine ⟨_, smallSize_bind h _, reads_code ?_⟩
  rw [ho]
  exact (reads_byte dst).bind ((reads_size h).map (mk dst))

/-- An instruction whose last operand is an offset. -/
theorem reads_relocated {offset : Option (BitVec 32)} {registers : List Register}
    {mk : Option (BitVec 32) → Instruction} (h : offset.isSome = true)
    (ho : ∀ x, Reads o.operands (registers ++ Encoder.toBytes 4 x.toNat) (mk (some x))) :
    ∃ bytes, concat [some (o.code :: registers), relocated offset] = some bytes ∧
      Reads Instruction.deserialize bytes (mk offset) := by
  obtain ⟨x, rfl⟩ := Option.isSome_iff_exists.mp h
  exact ⟨_, concat_two _ _, reads_code (ho x)⟩

/-- An instruction whose last operand is a vector. -/
theorem reads_vector {v : Vec Byte} (o : Opcode) (registers : List Register) (mk : Vec Byte → Instruction)
    (ho : ∀ y, Reads (vec byte) y v → Reads o.operands (registers ++ y) (mk v)) :
    ∃ bytes, concat [some (o.code :: registers), encodeVec v] = some bytes ∧
      Reads Instruction.deserialize bytes (mk v) := by
  obtain ⟨y, hy, hread⟩ := reads_vec v
  rw [hy]
  exact ⟨_, concat_two _ _, reads_code (ho y hread)⟩

/-- What comes back. -/
theorem serialize_reads (h : i.comesBack = true) :
    ∃ bytes, i.serialize = some bytes ∧ Reads Instruction.deserialize bytes i := by
  cases i with
  | binaryOperation | binarySubscript | clearExceptionState | clearTopCleanup | compareOperation
  | deleteName | deleteSubscript | dictMerge | dictUpdate | formatValue | getIter | getYieldFromIter
  | importFrom | importName | inplaceOp | leaveExceptionHandling | listAppend | listExtend | listToTuple
  | loadAssertionError | loadAttr | loadBuildClass | loadClosure | loadDeref | loadGlobal | loadMethod
  | move | push | reRaise | returnValue | setAdd | setUpdate | storeAttr | storeDeref | storeFast
  | storeGlobal | storeSubscript | toBool | withExceptStart | yieldLoad | yieldValue =>
    exact ⟨_, rfl, reads_code fun _ => rfl⟩
  | pop discard => cases discard <;> exact ⟨_, rfl, reads_code fun _ => rfl⟩
  | functionCallEx function args kwargs expandArgs expandKwargs =>
    cases expandArgs <;> cases expandKwargs <;> exact ⟨_, rfl, reads_code fun _ => rfl⟩
  | unary destination source operation => cases operation <;> exact ⟨_, rfl, reads_code fun _ => rfl⟩
  | buildDict | buildList | buildSet | buildString | buildTuple | loadConst =>
    exact reads_sized (of_decide_eq_true h) rfl
  | functionCall functionName size stackOffset =>
    simp only [Instruction.comesBack, Bool.and_eq_true, decide_eq_true_eq] at h
    refine ⟨[Opcode.functionCall.code, functionName, size.setWidth 8, stackOffset.setWidth 8], ?_, reads_code ?_⟩
    · simp only [Instruction.serialize, smallSize_bind h.1, smallSize_bind h.2]
    · exact (reads_byte functionName).bind ((reads_size h.1).bind ((reads_size h.2).map _))
  | makeFunction dst name defaultsSize kwDefaultsSize capturesTuple =>
    simp only [Instruction.comesBack, Bool.and_eq_true, decide_eq_true_eq] at h
    refine ⟨Opcode.makeFunction.code :: dst :: name :: defaultsSize.setWidth 8 :: kwDefaultsSize.setWidth 8 ::
      [flag capturesTuple.isSome, capturesTuple.getD 0], ?_, reads_code ?_⟩
    · simp only [Instruction.serialize, smallSize_bind h.1, smallSize_bind h.2]
    · refine (reads_byte dst).bind ((reads_byte name).bind ((reads_size h.1).bind ((reads_size h.2).bind ?_)))
      cases capturesTuple <;> exact fun _ => rfl
  | buildSlice dst start end_ step =>
    simp only [Instruction.comesBack, Bool.and_eq_true] at h
    obtain ⟨start, rfl⟩ := Option.isSome_iff_exists.mp h.1
    obtain ⟨end_, rfl⟩ := Option.isSome_iff_exists.mp h.2
    cases step <;> exact ⟨_, rfl, reads_code fun _ => rfl⟩
  | raiseVarargs exception cause =>
    cases exception with
    | none =>
      cases cause with
      | none => exact ⟨_, rfl, reads_code fun _ => rfl⟩
      | some cause => cases h
    | some exception => cases cause <;> exact ⟨_, rfl, reads_code fun _ => rfl⟩
  | loadFast destination stackIndex objectName =>
    obtain rfl := of_decide_eq_true h
    exact ⟨_, rfl, reads_code fun _ => rfl⟩
  | forIter dst src offset bodyOffset =>
    simp only [Instruction.comesBack, Bool.and_eq_true] at h
    obtain ⟨x, rfl⟩ := Option.isSome_iff_exists.mp h.1
    obtain ⟨y, rfl⟩ := Option.isSome_iff_exists.mp h.2
    exact ⟨_, concat_three _ _ _, reads_code ((reads_byte dst).bind ((reads_byte src).bind
      ((reads_offset x).bind ((reads_offset y).map _))))⟩
  | jump | jumpForward | setupExceptionHandling | setupWith => exact reads_relocated h fun x => (reads_offset x).map _
  | jumpIfExceptionMatch register | jumpIfFalse register | jumpIfNotExceptionMatch register
  | jumpIfTrue register =>
    exact reads_relocated h fun x => (reads_byte register).bind ((reads_offset x).map _)
  | jumpIfFalseOrPop test result | jumpIfTrueOrPop test result =>
    exact reads_relocated h fun x => (reads_byte test).bind ((reads_byte result).bind ((reads_offset x).map _))
  | loadName register name =>
    exact reads_vector .loadName [register] (.loadName register) fun y hy => (reads_byte register).bind (hy.map _)
  | methodCall register args =>
    exact reads_vector .methodCall [register] (.methodCall register) fun y hy => (reads_byte register).bind (hy.map _)
  | storeName name register =>
    exact reads_vector .storeName [register] (.storeName · register) fun y hy => (reads_byte register).bind (hy.map _)
  | unpackSequence destination source =>
    obtain ⟨y, hy, hread⟩ := reads_vec destination
    refine ⟨Opcode.unpackSequence.code :: (y ++ [source]), ?_, reads_code (hread.bind fun _ => rfl)⟩
    rw [Instruction.serialize, hy]
    exact concat_three _ _ _
  | functionCallWithKeywords functionName args kwargs keywords =>
    obtain ⟨x, hx, hargs⟩ := reads_vec args
    obtain ⟨y, hy, hkwargs⟩ := reads_vec kwargs
    obtain ⟨z, hz, hkeywords⟩ := reads_vec keywords
    refine ⟨Opcode.functionCallWithKw.code :: functionName :: (x ++ (y ++ z)), ?_,
      reads_code ((reads_byte functionName).bind (hargs.bind (hkwargs.bind (hkeywords.map _))))⟩
    rw [Instruction.serialize, hx, hy, hz]
    simp [concat]
  | deleteAttr | deleteDeref | deleteFast | deleteGlobal | dictAdd | getAwaitable | importStar
  | yieldFrom | unpackExpand => cases h

theorem reads_misses {r : Reader Instruction} {i' : Instruction} (h : Reads r bytes i') (hne : i' ≠ i) :
    Misses r bytes i := by
  intro rest rest' hrun
  rw [h rest] at hrun
  cases hrun
  exact hne rfl

/-- What does not. -/
theorem serialize_misses (h : i.comesBack = false) (hb : i.serialize = some bytes) :
    Misses Instruction.deserialize bytes i := by
  cases i with
  | binaryOperation | binarySubscript | clearExceptionState | clearTopCleanup | compareOperation
  | deleteName | deleteSubscript | dictMerge | dictUpdate | formatValue | getIter | getYieldFromIter
  | importFrom | importName | inplaceOp | leaveExceptionHandling | listAppend | listExtend | listToTuple
  | loadAssertionError | loadAttr | loadBuildClass | loadClosure | loadDeref | loadGlobal | loadMethod
  | move | push | reRaise | returnValue | setAdd | setUpdate | storeAttr | storeDeref | storeFast
  | storeGlobal | storeSubscript | toBool | withExceptStart | yieldLoad | yieldValue | pop
  | functionCallEx | unary | functionCallWithKeywords | loadName | methodCall | storeName
  | unpackSequence => cases h
  | deleteAttr | deleteDeref | deleteFast | deleteGlobal | dictAdd | getAwaitable | importStar
  | yieldFrom =>
    cases hb
    exact misses_code fun _ _ hrun => nomatch hrun
  | unpackExpand destination rest source =>
    obtain ⟨y, hy, hread⟩ := reads_vec destination
    rw [Instruction.serialize, hy, concat_three] at hb
    obtain rfl := Option.some.inj hb
    show Misses _ (Opcode.unpackSequence.code :: (y ++ [rest, source])) _
    refine misses_code fun tail tail' hrun => ?_
    rw [List.append_assoc, Opcode.operands, hread.run_bind] at hrun
    cases hrun
  | loadFast destination stackIndex objectName =>
    cases hb
    refine reads_misses (reads_code fun _ => rfl) fun heq => ?_
    exact of_decide_eq_false h (Instruction.loadFast.inj heq).2.2.symm
  | buildDict | buildList | buildSet | buildString | buildTuple | loadConst =>
    rw [Instruction.serialize, smallSize, if_neg (of_decide_eq_false h)] at hb
    cases hb
  | functionCall functionName size stackOffset | makeFunction functionName name size stackOffset =>
    obtain ⟨x, hx, hb⟩ := Option.bind_eq_some_iff.mp hb
    obtain ⟨y, hy, hb⟩ := Option.bind_eq_some_iff.mp hb
    simp [Instruction.comesBack, (smallSize_eq_some.mp hx).1, (smallSize_eq_some.mp hy).1] at h
  | buildSlice dst start end_ step =>
    cases start with
    | none => cases hb
    | some start =>
      cases end_ with
      | none => cases hb
      | some end_ => cases h
  | raiseVarargs exception cause =>
    cases exception with
    | some exception => cases h
    | none =>
      cases cause with
      | none => cases h
      | some cause =>
        cases hb
        exact reads_misses (reads_code fun _ => rfl) fun heq => nomatch heq
  | forIter dst src offset bodyOffset =>
    cases offset with
    | none => cases hb
    | some x =>
      cases bodyOffset with
      | none => cases hb
      | some y => cases h
  | jump offset | jumpForward offset | setupExceptionHandling offset | setupWith offset =>
    cases offset with
    | none => cases hb
    | some x => cases h
  | jumpIfExceptionMatch register offset | jumpIfFalse register offset
  | jumpIfNotExceptionMatch register offset | jumpIfTrue register offset =>
    cases offset with
    | none => cases hb
    | some x => cases h
  | jumpIfFalseOrPop register result offset | jumpIfTrueOrPop register result offset =>
    cases offset with
    | none => cases hb
    | some x => cases h

/-- The instructions that come back, and no other. -/
theorem keeps_instruction : Keeps Instruction.serialize Instruction.deserialize (·.comesBack = true) :=
  .of_reads (fun _ => serialize_reads) fun h => serialize_misses (Bool.eq_false_iff.mpr h)

end Pylang.Serialization
