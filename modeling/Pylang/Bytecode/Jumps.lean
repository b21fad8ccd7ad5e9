/-
Where the jumps of emitted bytecode go. The code of a function with blocks for
targets is what the emitter writes with labels; after relocation a jump goes to
the first instruction of its block, as long as each conditional jump is laid
out before one of its two blocks and each jump's offset is one that its
instruction can hold: four instructions hold unsigned ones.
-/
import Mathlib
import Pylang.Bytecode.Emission

namespace Pylang.Bytecode

variable {α β ℓ ℓ' ℓ'' : Type}

/-! ## Code with blocks for targets -/

section Code

variable [DecidableEq β]

/-- The instruction of a conditional jump, by the block after it. -/
def conditional (next : Option β) (trueDest falseDest : β) (toFalse toTrue : Instruction α β) : Option (Instruction α β) :=
  if next = some trueDest then some toFalse else if next = some falseDest then some toTrue else none

def Terminator.code (next : Option β) : Terminator α β → Option (List (Instruction α β))
  | .branch dest => some [.jump dest]
  | .jumpIfFalse cond t f => (conditional next t f (.jumpIfFalse cond f) (.jumpIfTrue cond t)).map ([·])
  | .jumpIfNotException type t f =>
    (conditional next t f (.jumpIfExceptionMatch type f) (.jumpIfNotExceptionMatch type t)).map ([·])
  | .forIter output iterator body continuation => some [.forIter output iterator body continuation]
  | .setupExceptionHandle body handler => some [.setupExceptionHandling handler, .jump body]
  | .setupWith body handler => some [.setupWith handler, .jump body]
  | .leave code => some (code.map .other)

/-- The number of instructions of a terminator. -/
def Terminator.size : Terminator α β → Nat
  | .leave code => code.length
  | .setupExceptionHandle _ _ | .setupWith _ _ => 2
  | _ => 1

namespace FuncOp

variable (fn : FuncOp α β)

/-- The block laid out after a block. -/
def nextBlock (b : β) : Option β := fn.sortedBlocks[fn.sortedBlocks.idxOf b + 1]?

def bodySize (b : β) : Nat := (fn.block b).body.flatten.length

def size (b : β) : Nat := fn.bodySize b + (fn.block b).terminator.size

def blockCode (b : β) : Option (List (Instruction α β)) :=
  ((fn.block b).terminator.code (fn.nextBlock b)).map ((fn.block b).body.flatten.map .other ++ ·)

def codeOf : List β → Option (List (Instruction α β))
  | [] => some []
  | b :: bs => (fn.blockCode b).bind fun c => (codeOf bs).map (c ++ ·)

/-- Where a block starts among blocks laid out in order. -/
def startIn (bs : List β) (b : β) : Nat := ((bs.take (bs.idxOf b)).map fn.size).sum

def start (b : β) : Nat := fn.startIn fn.sortedBlocks b

def offsetsFrom : List β → Nat → List (β × Nat)
  | [], _ => []
  | b :: bs, n => (b, n) :: offsetsFrom bs (n + fn.size b)

end FuncOp

end Code

/-! ## Emission -/

section Emission

namespace Instruction

theorem traverse_mono {f g : ℓ → Option ℓ'} (h : ∀ l v, f l = some v → g l = some v) {i : Instruction α ℓ}
    {j : Instruction α ℓ'} (hi : i.traverse f = some j) : i.traverse g = some j := by
  cases i with
  | other => exact hi
  | forIter dst src body exit =>
    obtain ⟨e, he, hi⟩ := Option.bind_eq_some_iff.mp hi
    obtain ⟨b, hb, rfl⟩ := Option.map_eq_some_iff.mp hi
    simp [traverse, h _ _ he, h _ _ hb]
  | _ =>
    obtain ⟨t, ht, rfl⟩ := Option.map_eq_some_iff.mp hi
    simp [traverse, h _ _ ht]

theorem traverse_bind {f : ℓ → Option ℓ'} {g : ℓ' → Option ℓ''} {i : Instruction α ℓ} {j : Instruction α ℓ'}
    (hi : i.traverse f = some j) : (i.traverse fun l => (f l).bind g) = j.traverse g := by
  cases i with
  | other =>
    cases hi
    rfl
  | forIter dst src body exit =>
    obtain ⟨e, he, hi⟩ := Option.bind_eq_some_iff.mp hi
    obtain ⟨b, hb, rfl⟩ := Option.map_eq_some_iff.mp hi
    simp [traverse, he, hb]
  | _ =>
    obtain ⟨t, ht, rfl⟩ := Option.map_eq_some_iff.mp hi
    simp [traverse, ht]

end Instruction

/-- An instruction with labels stands for one with blocks. -/
def Refers (labels : List β) (i : Instruction α Nat) (j : Instruction α β) : Prop := i.traverse (labels[·]?) = some j

theorem Refers.append {labels more : List β} {i : Instruction α Nat} {j : Instruction α β} (h : Refers labels i j) :
    Refers (labels ++ more) i j := by
  refine Instruction.traverse_mono (fun l v hl => ?_) h
  rw [List.getElem?_append_left (List.getElem?_eq_some_iff.mp hl).1]
  exact hl

theorem refers_other {labels : List β} (is : List α) :
    List.Forall₂ (Refers labels) (is.map Instruction.other) (is.map Instruction.other) := by
  induction is with
  | nil => exact .nil
  | cons i is ih => exact .cons rfl ih

/-- The emitter has written code and noted the offsets of blocks. -/
structure Emits (E : Emitter α β) (code : List (Instruction α β)) (offsets : List (β × Nat)) (E' : Emitter α β) : Prop where
  labels : ∃ new, E'.blockLabels = E.blockLabels ++ new ∧ ∀ b ∈ new, ∃ i ∈ code, b ∈ i.targets
  offsets : E'.blockOffsets = E.blockOffsets ++ offsets
  instructions : ∃ is, E'.instructions = E.instructions ++ is ∧ List.Forall₂ (Refers E'.blockLabels) is code

theorem Emits.trans {E E' E'' : Emitter α β} {code code' : List (Instruction α β)} {offsets offsets' : List (β × Nat)}
    (h : Emits E code offsets E') (h' : Emits E' code' offsets' E'') :
    Emits E (code ++ code') (offsets ++ offsets') E'' := by
  obtain ⟨new, hnew, htargets⟩ := h.labels
  obtain ⟨new', hnew', htargets'⟩ := h'.labels
  obtain ⟨is, his, hrefers⟩ := h.instructions
  obtain ⟨is', his', hrefers'⟩ := h'.instructions
  refine ⟨⟨new ++ new', ?_, fun b hb => ?_⟩, ?_, ⟨is ++ is', ?_, ?_⟩⟩
  · rw [hnew', hnew, List.append_assoc]
  · rcases List.mem_append.mp hb with hb | hb
    · obtain ⟨i, hi, ht⟩ := htargets b hb
      exact ⟨i, List.mem_append_left _ hi, ht⟩
    · obtain ⟨i, hi, ht⟩ := htargets' b hb
      exact ⟨i, List.mem_append_right _ hi, ht⟩
  · rw [h'.offsets, h.offsets, List.append_assoc]
  · rw [his', his, List.append_assoc]
  · refine List.rel_append (hrefers.imp fun i j hij => ?_) hrefers'
    rw [hnew']
    exact hij.append

theorem Emits.others (E : Emitter α β) (is : List α) :
    Emits E (is.map .other) [] { E with instructions := E.instructions ++ is.map Instruction.other } :=
  ⟨⟨[], (List.append_nil _).symm, fun _ hb => (by cases hb)⟩, (List.append_nil _).symm, ⟨_, rfl, refers_other is⟩⟩

theorem emits_emitTo (E : Emitter α β) {bb : β} {mk : Nat → Instruction α Nat} {i : Instruction α β}
    (hmk : ∀ (n : Nat) (f : Nat → Option β), f n = some bb → (mk n).traverse f = some i) (hin : bb ∈ i.targets) :
    Emits E [i] [] (E.emitTo bb mk) :=
  ⟨⟨[bb], rfl, fun _ hb => ⟨i, List.mem_singleton_self i, List.mem_singleton.mp hb ▸ hin⟩⟩, (List.append_nil _).symm,
    ⟨_, rfl, .cons (hmk _ _ List.getElem?_concat_length) .nil⟩⟩

variable [DecidableEq β] (fn : FuncOp α β) (b : β) (E : Emitter α β)

/-- What the emitter does for code that may not be there. -/
def Does (E : Emitter α β) (code : Option (List (Instruction α β))) (offsets : List (β × Nat)) (r : Option (Emitter α β)) : Prop :=
  match code with
  | none => r = none
  | some c => ∃ E', r = some E' ∧ Emits E c offsets E'

variable {fn} {b} {E} in
theorem emitConditional_does {t f : β} {toFalse toTrue : Nat → Instruction α Nat} {i j : Instruction α β}
    (hi : ∀ (n : Nat) (g : Nat → Option β), g n = some f → (toFalse n).traverse g = some i) (hf : f ∈ i.targets)
    (hj : ∀ (n : Nat) (g : Nat → Option β), g n = some t → (toTrue n).traverse g = some j) (ht : t ∈ j.targets) :
    Does E ((conditional (fn.nextBlock b) t f i j).map ([·])) [] (E.emitConditional fn.sortedBlocks b t f toFalse toTrue) := by
  unfold Emitter.emitConditional conditional FuncOp.nextBlock
  cases fn.sortedBlocks[fn.sortedBlocks.idxOf b + 1]? with
  | none => exact rfl
  | some next =>
    by_cases htrue : next = t
    · simp only [htrue, or_true, if_true, Option.map_some]
      exact ⟨_, rfl, emits_emitTo E hi hf⟩
    · by_cases hfalse : next = f
      · simp only [hfalse, true_or, if_true, Option.some.injEq]
        rw [if_neg (hfalse ▸ htrue), if_neg (hfalse ▸ htrue)]
        exact ⟨_, rfl, emits_emitTo E hj ht⟩
      · simp [htrue, hfalse, Does]

theorem emitTerminator_does (t : Terminator α β) :
    Does E (t.code (fn.nextBlock b)) [] (E.emitTerminator fn.sortedBlocks b t) := by
  cases t with
  | branch dest =>
    exact ⟨_, rfl, emits_emitTo E (fun n f hn => by simp [Instruction.traverse, hn]) (List.mem_singleton_self _)⟩
  | jumpIfFalse cond t f =>
    exact emitConditional_does (fun n g hn => by simp [Instruction.traverse, hn]) (List.mem_singleton_self _)
      (fun n g hn => by simp [Instruction.traverse, hn]) (List.mem_singleton_self _)
  | jumpIfNotException type t f =>
    exact emitConditional_does (fun n g hn => by simp [Instruction.traverse, hn]) (List.mem_singleton_self _)
      (fun n g hn => by simp [Instruction.traverse, hn]) (List.mem_singleton_self _)
  | forIter output iterator body continuation =>
    refine ⟨_, rfl, ⟨[continuation, body], rfl, fun d hd => ⟨_, List.mem_singleton_self _, ?_⟩⟩, (List.append_nil _).symm,
      ⟨_, rfl, .cons ?_ .nil⟩⟩
    · simpa [Instruction.targets, or_comm] using hd
    · simp [Refers, Instruction.traverse]
  | setupExceptionHandle body handler =>
    exact ⟨_, rfl, (emits_emitTo E (i := .setupExceptionHandling handler)
      (fun n f hn => by simp [Instruction.traverse, hn]) (List.mem_singleton_self _)).trans
        (emits_emitTo _ (i := .jump body) (fun n f hn => by simp [Instruction.traverse, hn]) (List.mem_singleton_self _))⟩
  | setupWith body handler =>
    exact ⟨_, rfl, (emits_emitTo E (i := .setupWith handler)
      (fun n f hn => by simp [Instruction.traverse, hn]) (List.mem_singleton_self _)).trans
        (emits_emitTo _ (i := .jump body) (fun n f hn => by simp [Instruction.traverse, hn]) (List.mem_singleton_self _))⟩
  | leave code => exact ⟨_, rfl, .others E code⟩

theorem emitBlock_does : Does E (fn.blockCode b) [] (E.emitBlock fn.sortedBlocks b (fn.block b)) := by
  have hterminator := emitTerminator_does fn b
    { E with instructions := E.instructions ++ (fn.block b).body.flatten.map Instruction.other } (fn.block b).terminator
  unfold FuncOp.blockCode Emitter.emitBlock
  cases hcode : (fn.block b).terminator.code (fn.nextBlock b) with
  | none =>
    rw [hcode] at hterminator
    exact hterminator
  | some c =>
    rw [hcode] at hterminator
    obtain ⟨E', hE', hemits⟩ := hterminator
    exact ⟨E', hE', (Emits.others E _).trans hemits⟩

variable {fn} {b}

theorem code_size {t : Terminator α β} {next : Option β} {c : List (Instruction α β)} (h : t.code next = some c) :
    c.length = t.size := by
  cases t with
  | jumpIfFalse =>
    obtain ⟨i, -, rfl⟩ := Option.map_eq_some_iff.mp h
    rfl
  | jumpIfNotException =>
    obtain ⟨i, -, rfl⟩ := Option.map_eq_some_iff.mp h
    rfl
  | leave code =>
    cases h
    exact List.length_map ..
  | _ =>
    cases h
    rfl

theorem conditional_targets {next : Option β} {t f : β} {toFalse toTrue i : Instruction α β}
    (h : conditional next t f toFalse toTrue = some i) : i = toFalse ∨ i = toTrue := by
  unfold conditional at h
  split at h
  · exact Or.inl (Option.some.inj h).symm
  · split at h
    · exact Or.inr (Option.some.inj h).symm
    · cases h

theorem code_targets {t : Terminator α β} {next : Option β} {c : List (Instruction α β)} (h : t.code next = some c)
    {i : Instruction α β} (hi : i ∈ c) {d : β} (hd : d ∈ i.targets) : d ∈ t.successors := by
  cases t with
  | jumpIfFalse cond t f =>
    obtain ⟨j, hj, rfl⟩ := Option.map_eq_some_iff.mp h
    obtain rfl := List.mem_singleton.mp hi
    rcases conditional_targets hj with rfl | rfl <;> simp_all [Instruction.targets, Terminator.successors]
  | jumpIfNotException type t f =>
    obtain ⟨j, hj, rfl⟩ := Option.map_eq_some_iff.mp h
    obtain rfl := List.mem_singleton.mp hi
    rcases conditional_targets hj with rfl | rfl <;> simp_all [Instruction.targets, Terminator.successors]
  | leave code =>
    cases h
    obtain ⟨o, -, rfl⟩ := List.mem_map.mp hi
    cases hd
  | branch dest =>
    cases h
    obtain rfl := List.mem_singleton.mp hi
    exact hd
  | forIter output iterator body continuation =>
    cases h
    obtain rfl := List.mem_singleton.mp hi
    exact hd
  | setupExceptionHandle body handler =>
    cases h
    rcases List.mem_cons.mp hi with rfl | hi
    · exact List.mem_cons_of_mem _ hd
    · obtain rfl := List.mem_singleton.mp hi
      exact List.mem_cons.mpr (Or.inl (List.mem_singleton.mp hd))
  | setupWith body handler =>
    cases h
    rcases List.mem_cons.mp hi with rfl | hi
    · exact List.mem_cons_of_mem _ hd
    · obtain rfl := List.mem_singleton.mp hi
      exact List.mem_cons.mpr (Or.inl (List.mem_singleton.mp hd))

theorem blockCode_size {c : List (Instruction α β)} (h : fn.blockCode b = some c) : c.length = fn.size b := by
  obtain ⟨c', hc', rfl⟩ := Option.map_eq_some_iff.mp h
  rw [List.length_append, List.length_map, code_size hc']
  rfl

/-- **The code of a function**: what the loop over its blocks emits, and where they start. -/
theorem emitBlocks_does (fn : FuncOp α β) (bs : List β) (op_idx : Nat) (E : Emitter α β) :
    Does E (fn.codeOf bs) (fn.offsetsFrom bs op_idx) (emitBlocks fn bs op_idx E) := by
  induction bs generalizing op_idx E with
  | nil => exact ⟨E, rfl, ⟨[], (List.append_nil _).symm, fun _ hb => (by cases hb)⟩, (List.append_nil _).symm,
      ⟨[], (List.append_nil _).symm, .nil⟩⟩
  | cons b bs ih =>
    have hblock := emitBlock_does fn b { E with blockOffsets := E.blockOffsets ++ [(b, op_idx)] }
    unfold emitBlocks FuncOp.codeOf
    cases hcode : fn.blockCode b with
    | none =>
      rw [hcode] at hblock
      rw [show _ = none from hblock]
      rfl
    | some c =>
      rw [hcode] at hblock
      obtain ⟨E', hE', hemits⟩ := hblock
      obtain ⟨is, his, hrefers⟩ := hemits.instructions
      have hsize : op_idx + (E'.instructions.length - E.instructions.length) = op_idx + fn.size b := by
        rw [his, List.length_append, hrefers.length_eq, blockCode_size hcode]
        dsimp only
        omega
      dsimp only
      rw [hE']
      dsimp only
      rw [hsize]
      have hrest := ih (op_idx + fn.size b) E'
      have hhead : Emits E c [(b, op_idx)] E' :=
        ⟨hemits.labels, by rw [hemits.offsets, List.append_nil], hemits.instructions⟩
      cases hcodes : fn.codeOf bs with
      | none =>
        rw [hcodes] at hrest
        exact hrest
      | some cs =>
        rw [hcodes] at hrest
        obtain ⟨E'', hE'', hrest⟩ := hrest
        exact ⟨E'', hE'', hhead.trans hrest⟩

/-! ## Where the blocks are -/

theorem offsetsFrom_find (bs : List β) (n : Nat) :
    (fn.offsetsFrom bs n).find? (·.1 = b) = if b ∈ bs then some (b, n + fn.startIn bs b) else none := by
  induction bs generalizing n with
  | nil => rfl
  | cons d bs ih =>
    unfold FuncOp.offsetsFrom
    by_cases hd : d = b
    · subst hd
      simp [FuncOp.startIn]
    · have hb : b ≠ d := fun h => hd h.symm
      rw [List.find?_cons_of_neg (by simpa using hd), ih]
      by_cases hin : b ∈ bs
      · rw [if_pos hin, if_pos (List.mem_cons_of_mem _ hin)]
        simp only [FuncOp.startIn, List.idxOf_cons_ne _ hd, List.take_succ_cons, List.map_cons, List.sum_cons]
        rw [Nat.add_assoc]
      · rw [if_neg hin, if_neg (by simp [hb, hin])]

/-- A block's code is where the block starts. -/
theorem codeOf_get {bs : List β} {code part : List (Instruction α β)} (hcode : fn.codeOf bs = some code) (hb : b ∈ bs)
    (hc : fn.blockCode b = some part) {k : Nat} (hk : k < part.length) : code[fn.startIn bs b + k]? = part[k]? := by
  induction bs generalizing code with
  | nil => cases hb
  | cons d bs ih =>
    obtain ⟨cd, hcd, hcode⟩ := Option.bind_eq_some_iff.mp hcode
    obtain ⟨rest, hrest, rfl⟩ := Option.map_eq_some_iff.mp hcode
    by_cases hd : d = b
    · subst hd
      obtain rfl := Option.some.inj (hcd.symm.trans hc)
      simp only [FuncOp.startIn, List.idxOf_cons_self, List.take_zero, List.map_nil, List.sum_nil, Nat.zero_add]
      exact List.getElem?_append_left hk
    · have hin := (List.mem_cons.mp hb).resolve_left fun h => hd h.symm
      simp only [FuncOp.startIn, List.idxOf_cons_ne _ hd, List.take_succ_cons, List.map_cons, List.sum_cons]
      rw [List.getElem?_append_right (by rw [blockCode_size hcd]; omega), blockCode_size hcd]
      have hsub : fn.size d + ((bs.take (bs.idxOf b)).map fn.size).sum + k - fn.size d = fn.startIn bs b + k := by
        unfold FuncOp.startIn
        omega
      rw [hsub]
      exact ih hrest hin

theorem codeOf_isSome (bs : List β) : (fn.codeOf bs).isSome ↔ ∀ b ∈ bs, (fn.blockCode b).isSome := by
  induction bs with
  | nil => simp [FuncOp.codeOf]
  | cons d bs ih =>
    unfold FuncOp.codeOf
    cases hd : fn.blockCode d with
    | none => simp [hd]
    | some c => simp [hd, ih]

theorem start_next {next : β} (hb : b ∈ fn.sortedBlocks) (h : fn.nextBlock b = some next) :
    fn.start next = fn.start b + fn.size b := by
  unfold FuncOp.nextBlock at h
  obtain ⟨hlt, hget⟩ := List.getElem?_eq_some_iff.mp h
  have hidx : fn.sortedBlocks.idxOf next = fn.sortedBlocks.idxOf b + 1 := by
    rw [← hget]
    exact fn.nodup.idxOf_getElem _ hlt
  unfold FuncOp.start FuncOp.startIn
  rw [hidx, List.take_add_one, List.map_append, List.sum_append, List.getElem?_idxOf hb]
  simp

/-- The targets of code are blocks the terminators name. -/
theorem codeOf_targets {bs : List β} {code : List (Instruction α β)} (hcode : fn.codeOf bs = some code)
    (hbs : ∀ b ∈ bs, b ∈ fn.sortedBlocks) {i : Instruction α β} (hi : i ∈ code) {d : β} (hd : d ∈ i.targets) :
    d ∈ fn.sortedBlocks := by
  induction bs generalizing code with
  | nil =>
    cases hcode
    cases hi
  | cons b bs ih =>
    obtain ⟨c, hc, hcode⟩ := Option.bind_eq_some_iff.mp hcode
    obtain ⟨rest, hrest, rfl⟩ := Option.map_eq_some_iff.mp hcode
    rcases List.mem_append.mp hi with hi | hi
    · obtain ⟨ct, hct, rfl⟩ := Option.map_eq_some_iff.mp hc
      refine fn.closed b (hbs b List.mem_cons_self) d ?_
      rcases List.mem_append.mp hi with hi | hi
      · obtain ⟨o, -, rfl⟩ := List.mem_map.mp hi
        cases hd
      · exact code_targets hct hi hd
    · exact ih hrest (fun b hb => hbs b (List.mem_cons_of_mem _ hb)) hi

end Emission

/-! ## Relocation -/

section Relocation

theorem Instruction.traverse_congr {f g : ℓ → Option ℓ'} {i : Instruction α ℓ} (h : ∀ l ∈ i.targets, f l = g l) :
    i.traverse f = i.traverse g := by
  cases i <;> simp_all [Instruction.targets, Instruction.traverse]

theorem Instruction.traverse_offsetType {f : ℓ → Option ℓ'} {i : Instruction α ℓ} {j : Instruction α ℓ'}
    (h : i.traverse f = some j) : i.offsetType = j.offsetType := by
  cases i with
  | other =>
    cases h
    rfl
  | forIter dst src body exit =>
    obtain ⟨e, -, h⟩ := Option.bind_eq_some_iff.mp h
    obtain ⟨b, -, rfl⟩ := Option.map_eq_some_iff.mp h
    rfl
  | _ =>
    obtain ⟨t, -, rfl⟩ := Option.map_eq_some_iff.mp h
    rfl

theorem Instruction.traverse_total (f : ℓ → ℓ') (i : Instruction α ℓ) : (i.traverse fun l => some (f l)).isSome := by
  cases i <;> rfl

theorem relocateAll_total (f : ℓ → Nat) (n : Nat) (is : List (Instruction α ℓ)) :
    (relocateAll (fun l => some (f l)) n is).isSome := by
  induction is generalizing n with
  | nil => rfl
  | cons i is ih =>
    obtain ⟨j, hj⟩ := Option.isSome_iff_exists.mp (i.traverse_total fun l => i.offsetType.store ((f l : Int) - n - 1))
    obtain ⟨js, hjs⟩ := Option.isSome_iff_exists.mp (ih (n + 1))
    unfold relocateAll
    rw [show i.relocate (fun l => some (f l)) n = some j from hj, hjs]
    rfl

theorem relocateAll_get {position : ℓ → Option Nat} {n k : Nat} {is : List (Instruction α ℓ)} {js : List (Instruction α Int)}
    (h : relocateAll position n is = some js) : js[k]? = (is[k]?).bind (·.relocate position (n + k)) := by
  induction is generalizing n k js with
  | nil =>
    cases h
    rfl
  | cons i is ih =>
    obtain ⟨j, hj, h⟩ := Option.bind_eq_some_iff.mp h
    obtain ⟨rest, hrest, rfl⟩ := Option.map_eq_some_iff.mp h
    cases k with
    | zero => simpa using hj.symm
    | succ k =>
      rw [List.getElem?_cons_succ, List.getElem?_cons_succ, ih hrest, Nat.add_right_comm, Nat.add_assoc]

/-- Labels resolve to the offsets of their blocks. -/
theorem relocateAll_refers {labels : List β} {offset start : β → Option Nat} {n : Nat} {is : List (Instruction α Nat)}
    {code : List (Instruction α β)} (h : List.Forall₂ (Refers labels) is code)
    (hoffset : ∀ i ∈ code, ∀ d ∈ i.targets, offset d = start d) :
    relocateAll (fun l => (labels[l]?).bind offset) n is = relocateAll start n code := by
  induction h generalizing n with
  | nil => rfl
  | @cons i j is code hij _ ih =>
    have hhead : i.relocate (fun l => (labels[l]?).bind offset) n = j.relocate start n := by
      unfold Instruction.relocate
      simp only [Option.map_bind]
      rw [Instruction.traverse_bind hij, Instruction.traverse_offsetType hij]
      refine Instruction.traverse_congr fun d hd => ?_
      rw [Function.comp_apply, hoffset j List.mem_cons_self d hd]
    unfold relocateAll
    rw [hhead, ih fun i hi => hoffset i (List.mem_cons_of_mem _ hi)]

end Relocation

/-! ## Modules -/

section Modules

variable [DecidableEq β]

/-- Functions have been emitted. -/
structure Emitted (T : Translation α β) (fs : List (FuncOp α β)) (T' : Translation α β) : Prop where
  labels : ∃ new, T'.blockLabels = T.blockLabels ++ new ∧ ∀ b ∈ new, ∃ fn ∈ fs, b ∈ fn.sortedBlocks
  offsets : T'.blockOffsets = T.blockOffsets ++ fs.flatMap fun fn => fn.offsetsFrom fn.sortedBlocks 0
  info : ∀ fn ∈ fs, ∀ code, fn.codeOf fn.sortedBlocks = some code →
    List.Forall₂ (Refers T'.blockLabels) (T'.info fn.key) code
  others : ∀ key, (∀ fn ∈ fs, fn.key ≠ key) → T'.info key = T.info key

theorem emitFunction_none {T : Translation α β} {fn : FuncOp α β} (h : fn.codeOf fn.sortedBlocks = none) :
    T.emitFunction fn = none := by
  have hblocks := emitBlocks_does fn fn.sortedBlocks 0 ⟨T.blockLabels, T.blockOffsets, T.info fn.key⟩
  rw [h] at hblocks
  unfold Translation.emitFunction
  rw [show emitBlocks fn fn.sortedBlocks 0 _ = none from hblocks, Option.map_none]

theorem emitFunction_some {T : Translation α β} {fn : FuncOp α β} {code : List (Instruction α β)}
    (h : fn.codeOf fn.sortedBlocks = some code) (hempty : T.info fn.key = []) :
    ∃ T', T.emitFunction fn = some T' ∧ Emitted T [fn] T' := by
  have hblocks := emitBlocks_does fn fn.sortedBlocks 0 ⟨T.blockLabels, T.blockOffsets, T.info fn.key⟩
  rw [h] at hblocks
  obtain ⟨E', hE', hemits⟩ := hblocks
  obtain ⟨new, hnew, htargets⟩ := hemits.labels
  obtain ⟨is, his, hrefers⟩ := hemits.instructions
  refine ⟨⟨E'.blockLabels, E'.blockOffsets, Function.update T.info fn.key E'.instructions⟩, ?_, ⟨new, hnew, fun b hb => ?_⟩,
    ?_, fun fn' hfn' code' hcode' => ?_, fun key hkey => ?_⟩
  · unfold Translation.emitFunction
    rw [hE', Option.map_some]
  · obtain ⟨i, hi, ht⟩ := htargets b hb
    exact ⟨fn, List.mem_singleton_self fn, codeOf_targets h (fun _ hb => hb) hi ht⟩
  · rw [hemits.offsets, List.flatMap_singleton]
  · obtain rfl := List.mem_singleton.mp hfn'
    obtain rfl := Option.some.inj (h.symm.trans hcode')
    dsimp only
    rw [Function.update_self, his]
    dsimp only
    rw [hempty, List.nil_append]
    exact hrefers
  · exact Function.update_of_ne (fun he => hkey fn (List.mem_singleton_self fn) he.symm) ..

theorem Emitted.cons {T T' T'' : Translation α β} {fn : FuncOp α β} {fs : List (FuncOp α β)} (h : Emitted T [fn] T')
    (hkeys : ∀ fn' ∈ fs, fn'.key ≠ fn.key) (h' : Emitted T' fs T'') : Emitted T (fn :: fs) T'' := by
  obtain ⟨new, hnew, howned⟩ := h.labels
  obtain ⟨new', hnew', howned'⟩ := h'.labels
  refine ⟨⟨new ++ new', ?_, fun b hb => ?_⟩, ?_, fun g hg code hcode => ?_, fun key hkey => ?_⟩
  · rw [hnew', hnew, List.append_assoc]
  · rcases List.mem_append.mp hb with hb | hb
    · obtain ⟨g, hg, hin⟩ := howned b hb
      exact ⟨g, List.mem_singleton.mp hg ▸ List.mem_cons_self, hin⟩
    · obtain ⟨g, hg, hin⟩ := howned' b hb
      exact ⟨g, List.mem_cons_of_mem _ hg, hin⟩
  · rw [h'.offsets, h.offsets, List.append_assoc, List.flatMap_singleton, List.flatMap_cons]
  · rcases List.mem_cons.mp hg with rfl | hg
    · rw [h'.others g.key hkeys, hnew']
      exact (h.info g (List.mem_singleton_self g) code hcode).imp fun _ _ hij => hij.append
    · exact h'.info g hg code hcode
  · rw [h'.others key fun g hg => hkey g (List.mem_cons_of_mem _ hg)]
    exact h.others key fun g hg => hkey g (List.mem_singleton.mp hg ▸ List.mem_cons_self)

theorem emitFunctions {fs : List (FuncOp α β)} (hkeys : fs.Pairwise fun fn fn' => fn.key ≠ fn'.key)
    (hcode : ∀ fn ∈ fs, (fn.codeOf fn.sortedBlocks).isSome) (T : Translation α β) (hempty : ∀ fn ∈ fs, T.info fn.key = []) :
    ∃ T', fs.foldlM Translation.emitFunction T = some T' ∧ Emitted T fs T' := by
  induction fs generalizing T with
  | nil =>
    exact ⟨T, rfl, ⟨[], (List.append_nil _).symm, fun _ hb => (by cases hb)⟩, (List.append_nil _).symm,
      fun _ hfn => (by cases hfn), fun _ _ => rfl⟩
  | cons fn fs ih =>
    obtain ⟨hfirst, hrest⟩ := List.pairwise_cons.mp hkeys
    obtain ⟨code, hc⟩ := Option.isSome_iff_exists.mp (hcode fn List.mem_cons_self)
    obtain ⟨T', hT', hemitted⟩ := emitFunction_some hc (hempty fn List.mem_cons_self)
    obtain ⟨T'', hT'', hothers⟩ := ih hrest (fun g hg => hcode g (List.mem_cons_of_mem _ hg)) T' fun g hg => by
      rw [hemitted.others g.key fun g' hg' => List.mem_singleton.mp hg' ▸ hfirst g hg]
      exact hempty g (List.mem_cons_of_mem _ hg)
    refine ⟨T'', ?_, hemitted.cons (fun g hg he => hfirst g hg he.symm) hothers⟩
    rw [List.foldlM_cons, hT']
    exact hT''

theorem emitFunctions_none {fs : List (FuncOp α β)} {fn : FuncOp α β} (hfn : fn ∈ fs)
    (hcode : fn.codeOf fn.sortedBlocks = none) (T : Translation α β) : fs.foldlM Translation.emitFunction T = none := by
  induction fs generalizing T with
  | nil => cases hfn
  | cons g fs ih =>
    rw [List.foldlM_cons]
    rcases List.mem_cons.mp hfn with rfl | hfn
    · rw [emitFunction_none hcode]
      rfl
    · cases T.emitFunction g with
      | none => rfl
      | some T' => exact ih hfn T'

/-- The offset that a block has is that in its function. -/
theorem find_offset {fs : List (FuncOp α β)} {fn : FuncOp α β} {b : β} (hfn : fn ∈ fs) (hb : b ∈ fn.sortedBlocks)
    (howner : ∀ g ∈ fs, b ∈ g.sortedBlocks → g = fn) :
    (fs.flatMap fun fn => fn.offsetsFrom fn.sortedBlocks 0).find? (·.1 = b) = some (b, fn.start b) := by
  induction fs with
  | nil => cases hfn
  | cons g fs ih =>
    rw [List.flatMap_cons, List.find?_append, offsetsFrom_find]
    by_cases hg : b ∈ g.sortedBlocks
    · obtain rfl := howner g List.mem_cons_self hg
      rw [if_pos hg, Option.some_or, Nat.zero_add]
      rfl
    · rw [if_neg hg, Option.none_or]
      have hin : fn ∈ fs := (List.mem_cons.mp hfn).resolve_left fun h => hg (h ▸ hb)
      exact ih hin fun g hg => howner g (List.mem_cons_of_mem _ hg)

variable (M : ModuleOp α β)

omit [DecidableEq β] in
/-- The functions in the order of their emission. -/
theorem ModuleOp.emissionOrder : ∃ entry fs, M.functions.find? FuncOp.isModuleEntry = some entry ∧
    entry :: M.functions.filter (!·.isModuleEntry) = fs ∧ (∀ fn, fn ∈ fs ↔ fn ∈ M.functions) ∧
    fs.Pairwise fun fn fn' => fn.key ≠ fn'.key := by
  obtain ⟨e, he, hentry⟩ := M.entry
  obtain ⟨entry, hfind⟩ := Option.isSome_iff_exists.mp (List.find?_isSome.mpr ⟨e, he, hentry⟩)
  have hentry := List.find?_some hfind
  have hin := List.mem_of_find?_eq_some hfind
  have hname {fn : FuncOp α β} (h : fn.isModuleEntry = true) : fn.symName = "__hidden_init__" := by
    simp only [FuncOp.isModuleEntry, Bool.and_eq_true, decide_eq_true_eq] at h
    exact h.2
  refine ⟨entry, _, hfind, rfl, fun fn => ⟨fun h => ?_, fun h => ?_⟩, List.pairwise_cons.mpr ⟨fun fn hfn he => ?_, ?_⟩⟩
  · rcases List.mem_cons.mp h with rfl | h
    · exact hin
    · exact List.mem_of_mem_filter h
  · cases hm : fn.isModuleEntry with
    | false => exact List.mem_cons_of_mem _ (List.mem_filter.mpr ⟨h, by rw [hm]; rfl⟩)
    | true =>
      refine List.mem_cons.mpr (Or.inl (by_contra fun hne => ?_))
      have : Std.Symm fun fn fn' : FuncOp α β => fn.symName ≠ fn'.symName := ⟨fun _ _ h => h.symm⟩
      exact M.symbols.forall h hin hne ((hname hm).trans (hname hentry).symm)
  · have hm := (List.mem_filter.mp hfn).2
    simp only [Bool.not_eq_true'] at hm
    simp [FuncOp.key, hentry, hm] at he
  · refine (M.symbols.filter _).imp_of_mem fun {fn fn'} h h' hne he => ?_
    have hm := (List.mem_filter.mp h).2
    have hm' := (List.mem_filter.mp h').2
    simp only [Bool.not_eq_true'] at hm hm'
    simp only [FuncOp.key, hm, hm', Bool.false_eq_true, if_false, Option.some.injEq] at he
    exact hne he

omit [DecidableEq β] in
theorem ModuleOp.owner {fn g : FuncOp α β} {b : β} (hfn : fn ∈ M.functions) (hg : g ∈ M.functions)
    (hb : b ∈ fn.sortedBlocks) (hb' : b ∈ g.sortedBlocks) : g = fn := by
  have : Std.Symm fun fn fn' : FuncOp α β => List.Disjoint fn.sortedBlocks fn'.sortedBlocks := ⟨fun _ _ h _ ha ha' => h ha' ha⟩
  exact by_contra fun hne => M.disjoint.forall hg hfn hne hb' hb

/-- **Emission and relocation of a module**: it fails where a function has no code, and else a function has its code, with
the starts of the blocks for targets. -/
theorem emitModule_some (hcode : ∀ fn ∈ M.functions, (fn.codeOf fn.sortedBlocks).isSome) :
    ∃ P, emitModule M = some P ∧ ∀ fn ∈ M.functions, ∀ code, fn.codeOf fn.sortedBlocks = some code →
      P fn.key = relocateAll (fun d => some (fn.start d)) 0 code := by
  obtain ⟨entry, fs, hfind, hfs, hmem, hkeys⟩ := M.emissionOrder
  obtain ⟨T, hT, hemitted⟩ := emitFunctions hkeys (fun fn hfn => hcode fn ((hmem fn).mp hfn))
    ⟨[], [], fun _ => []⟩ fun _ _ => rfl
  have hoffset {fn : FuncOp α β} {d : β} (hfn : fn ∈ fs) (hd : d ∈ fn.sortedBlocks) : T.offset? d = some (fn.start d) := by
    unfold Translation.offset?
    rw [hemitted.offsets, List.nil_append, find_offset hfn hd fun g hg hin =>
      M.owner ((hmem fn).mp hfn) ((hmem g).mp hg) hd hin]
    rfl
  refine ⟨fun key => relocateAll T.position 0 (T.info key), ?_, fun fn hfn code hc => ?_⟩
  · unfold emitModule
    rw [hfind, Option.bind_some, hfs, hT, Option.bind_some, if_pos]
    obtain ⟨new, hnew, howned⟩ := hemitted.labels
    refine List.all_eq_true.mpr fun b hb => ?_
    rw [hnew] at hb
    obtain ⟨fn, hfn, hin⟩ := howned b hb
    rw [hoffset hfn hin]
    rfl
  · have hin := (hmem fn).mpr hfn
    exact relocateAll_refers (hemitted.info fn hin code hc) fun i hi d hd =>
      hoffset hin (codeOf_targets hc (fun _ hb => hb) hi hd)

theorem emitModule_none {fn : FuncOp α β} (hfn : fn ∈ M.functions) (hcode : fn.codeOf fn.sortedBlocks = none) :
    emitModule M = none := by
  obtain ⟨entry, fs, hfind, hfs, hmem, -⟩ := M.emissionOrder
  unfold emitModule
  rw [hfind, Option.bind_some, hfs, emitFunctions_none ((hmem fn).mpr hfn) hcode, Option.bind_none]

end Modules

/-! ## Where control goes -/

section Control

variable [DecidableEq β]

/-- What the last operation of a block asks. -/
def Terminator.test : Terminator α β → Option Instruction.Test
  | .jumpIfFalse cond _ _ => some (.truthy cond)
  | .jumpIfNotException objectType _ _ => some (.exceptionMatches objectType)
  | .forIter output iterator _ _ => some (.hasNext output iterator)
  | _ => none

/-- The block it names for an answer. -/
def Terminator.dest (answer : Bool) : Terminator α β → Option β
  | .branch dest => some dest
  | .jumpIfFalse _ trueDest falseDest => some (if answer then trueDest else falseDest)
  | .jumpIfNotException _ trueDest falseDest => some (if answer then falseDest else trueDest)
  | .forIter _ _ body continuation => some (if answer then body else continuation)
  | .setupExceptionHandle body _ => some body
  | .setupWith body _ => some body
  | .leave _ => none

/-- The two blocks of a conditional jump. -/
def Terminator.branches : Terminator α β → Option (β × β)
  | .jumpIfFalse _ trueDest falseDest => some (trueDest, falseDest)
  | .jumpIfNotException _ trueDest falseDest => some (trueDest, falseDest)
  | _ => none

/-- The values of a type. -/
def OffsetType.Holds : OffsetType → Int → Prop
  | .int32, n => -2 ^ 31 ≤ n ∧ n < 2 ^ 31
  | .uint32, n => 0 ≤ n ∧ n < 2 ^ 32

/-- The jumps of a terminator: from which of its instructions, with which type
of offset, and to which block. -/
def Terminator.jumps : Terminator α β → List (Nat × OffsetType × β)
  | .branch dest => [(0, .int32, dest)]
  | .jumpIfFalse _ trueDest falseDest => [(0, .int32, trueDest), (0, .int32, falseDest)]
  | .jumpIfNotException _ trueDest falseDest => [(0, .uint32, trueDest), (0, .uint32, falseDest)]
  | .forIter _ _ body continuation => [(0, .int32, body), (0, .int32, continuation)]
  | .setupExceptionHandle body handler => [(0, .uint32, handler), (1, .int32, body)]
  | .setupWith body handler => [(0, .uint32, handler), (1, .int32, body)]
  | .leave _ => []

namespace FuncOp

variable (fn : FuncOp α β) (code : List (Instruction α Int))

/-- A setup instruction at `p` and the jump after it. -/
def SetupAt (p : Nat) (setup : Int → Instruction α Int) (body handler : β) : Prop :=
  (∃ offset, code[p]? = some (setup offset) ∧ (setup offset).handler p = some (fn.start handler : Int) ∧
    ∀ answer, (setup offset).next answer p = p + 1) ∧
  ∃ i, code[p + 1]? = some i ∧ ∀ answer, i.next answer (p + 1) = fn.start body

/-- The instructions of a terminator at `p` do what it says. -/
def ControlAt (p : Nat) (t : Terminator α β) : Prop :=
  match t with
  | .setupExceptionHandle body handler => fn.SetupAt code p .setupExceptionHandling body handler
  | .setupWith body handler => fn.SetupAt code p .setupWith body handler
  | .leave is => ∀ k i, is[k]? = some i → code[p + k]? = some (.other i)
  | t => ∃ i, code[p]? = some i ∧ i.test = t.test ∧ ∀ answer d, t.dest answer = some d → i.next answer p = fn.start d

/-- A block is where it starts, and control leaves it for the blocks it names. -/
structure Placed (b : β) : Prop where
  body : ∀ k i, (fn.block b).body.flatten[k]? = some i → code[fn.start b + k]? = some (.other i)
  control : fn.ControlAt code (fn.start b + fn.bodySize b) (fn.block b).terminator

/-- One block of each conditional jump is laid out next. -/
def LaidOut : Prop :=
  ∀ b ∈ fn.sortedBlocks, ∀ t f, (fn.block b).terminator.branches = some (t, f) → fn.nextBlock b = some t ∨ fn.nextBlock b = some f

/-- Each jump's offset is one that its instruction holds. -/
def Near : Prop :=
  ∀ b ∈ fn.sortedBlocks, ∀ k τ d, (k, τ, d) ∈ (fn.block b).terminator.jumps →
    τ.Holds ((fn.start d : Int) - (fn.start b + fn.bodySize b + k : Nat) - 1)

end FuncOp

/-- Emission and relocation succeed, and control goes where the operations say. -/
def JumpsRight (M : ModuleOp α β) : Prop :=
  ∃ P, emitModule M = some P ∧ ∀ fn ∈ M.functions, ∃ code, P fn.key = some code ∧ ∀ b ∈ fn.sortedBlocks, fn.Placed code b

variable {fn : FuncOp α β} {b : β}

theorem store_eq_iff {τ : OffsetType} {n : Int} : τ.store n = n ↔ τ.Holds n := by
  cases τ with
  | int32 =>
    unfold OffsetType.store OffsetType.Holds Int.bmod
    dsimp only
    split <;> omega
  | uint32 =>
    unfold OffsetType.store OffsetType.Holds
    dsimp only
    omega

theorem lands_iff {τ : OffsetType} {p d : Nat} :
    (p : Int) + τ.store ((d : Int) - p - 1) + 1 = d ↔ τ.Holds ((d : Int) - p - 1) := by
  rw [← store_eq_iff]
  constructor
  · intro h
    omega
  · intro h
    rw [h]
    omega

theorem conditional_isSome {next : Option β} {t f : β} {toFalse toTrue : Instruction α β} :
    (conditional next t f toFalse toTrue).isSome ↔ next = some t ∨ next = some f := by
  unfold conditional
  split
  · next h => simp [h]
  · split
    · next h => simp [h]
    · next h h' => simp [h, h']

/-- A function has code if it is laid out well. -/
theorem codeOf_isSome_iff : (fn.codeOf fn.sortedBlocks).isSome ↔ fn.LaidOut := by
  rw [codeOf_isSome]
  refine forall₂_congr fun b _ => ?_
  unfold FuncOp.blockCode
  rw [Option.isSome_map]
  cases (fn.block b).terminator with
  | jumpIfFalse cond t f =>
    simp only [Terminator.code, Option.isSome_map, conditional_isSome, Terminator.branches, Option.some.injEq, Prod.mk.injEq]
    exact ⟨fun h t' f' he => he.1 ▸ he.2 ▸ h, fun h => h t f ⟨rfl, rfl⟩⟩
  | jumpIfNotException type t f =>
    simp only [Terminator.code, Option.isSome_map, conditional_isSome, Terminator.branches, Option.some.injEq, Prod.mk.injEq]
    exact ⟨fun h t' f' he => he.1 ▸ he.2 ▸ h, fun h => h t f ⟨rfl, rfl⟩⟩
  | _ => simp [Terminator.code, Terminator.branches]

theorem placed_get {code part : List (Instruction α β)} {r : List (Instruction α Int)}
    (hcode : fn.codeOf fn.sortedBlocks = some code) (hr : relocateAll (fun d => some (fn.start d)) 0 code = some r)
    (hb : b ∈ fn.sortedBlocks) (hc : fn.blockCode b = some part) {k : Nat} {i : Instruction α β} (hi : part[k]? = some i) :
    r[fn.start b + k]? =
      i.traverse fun d => some (i.offsetType.store ((fn.start d : Int) - (fn.start b + k : Nat) - 1)) := by
  rw [relocateAll_get hr, FuncOp.start, codeOf_get hcode hb hc (List.getElem?_eq_some_iff.mp hi).1, hi, Option.bind_some,
    Nat.zero_add]
  rfl

/-- The offsets of a terminator at `p` are held. -/
def NearAt (fn : FuncOp α β) (p : Nat) (t : Terminator α β) : Prop :=
  ∀ k τ d, (k, τ, d) ∈ t.jumps → τ.Holds ((fn.start d : Int) - (p + k : Nat) - 1)

section Terminators

variable {r : List (Instruction α Int)} {p : Nat} {t f : β} {next : Option β} {τ : OffsetType}

theorem nearAt_branches {s : Terminator α β} (hjumps : s.jumps = [(0, τ, t), (0, τ, f)]) :
    NearAt fn p s ↔ τ.Holds ((fn.start t : Int) - p - 1) ∧ τ.Holds ((fn.start f : Int) - p - 1) := by
  unfold NearAt
  rw [hjumps]
  constructor
  · intro h
    exact ⟨h 0 τ t (by simp), h 0 τ f (by simp)⟩
  · intro h k τ' d hkd
    obtain ⟨ht, hf⟩ := h
    obtain ⟨rfl, rfl, rfl⟩ | ⟨rfl, rfl, rfl⟩ : k = 0 ∧ τ' = τ ∧ d = t ∨ k = 0 ∧ τ' = τ ∧ d = f := by simpa using hkd
    · exact ht
    · exact hf

theorem near_next {d : β} (h : fn.start d = p + 1) : τ.Holds ((fn.start d : Int) - p - 1) := by
  rw [h]
  cases τ with
  | int32 =>
    unfold OffsetType.Holds
    dsimp only
    omega
  | uint32 =>
    unfold OffsetType.Holds
    dsimp only
    omega

/-- The jump of a conditional terminator, as relocated, against the two blocks. -/
theorem conditional_iff (taken : Bool) {s : Terminator α β} {toFalse toTrue i : Instruction α β}
    (hjumps : s.jumps = [(0, τ, t), (0, τ, f)])
    (hdest : ∀ answer, s.dest answer = some (if answer = taken then f else t))
    (hnext : ∀ d, next = some d → fn.start d = p + 1) (hi : conditional next t f toFalse toTrue = some i)
    (hfalse : ∃ j, (toFalse.traverse fun d => some (τ.store ((fn.start d : Int) - p - 1))) = some j ∧
      j.test = s.test ∧ ∀ answer, j.next answer p =
        if answer = taken then (p : Int) + τ.store ((fn.start f : Int) - p - 1) + 1 else p + 1)
    (htrue : ∃ j, (toTrue.traverse fun d => some (τ.store ((fn.start d : Int) - p - 1))) = some j ∧
      j.test = s.test ∧ ∀ answer, j.next answer p =
        if answer = taken then (p : Int) + 1 else p + τ.store ((fn.start t : Int) - p - 1) + 1)
    (hr : r[p]? = i.traverse fun d => some (τ.store ((fn.start d : Int) - p - 1))) :
    (∃ i, r[p]? = some i ∧ i.test = s.test ∧ ∀ answer d, s.dest answer = some d → i.next answer p = fn.start d) ↔
      NearAt fn p s := by
  rw [nearAt_branches hjumps]
  have hother : (!taken) ≠ taken := by cases taken <;> decide
  unfold conditional at hi
  split at hi
  next ht =>
    cases hi
    obtain ⟨j, hj, htest, hj'⟩ := hfalse
    have hstart := hnext t ht
    rw [hr, hj]
    constructor
    · intro h
      obtain ⟨i, hi, -, h⟩ := h
      cases hi
      have hf := h taken f (by rw [hdest, if_pos rfl])
      rw [hj', if_pos rfl] at hf
      exact ⟨near_next hstart, lands_iff.mp hf⟩
    · intro h
      obtain ⟨-, hf⟩ := h
      refine ⟨j, rfl, htest, fun answer d hd => ?_⟩
      rw [hj']
      rw [hdest] at hd
      split at hd
      · rw [if_pos ‹_›]
        cases hd
        exact lands_iff.mpr hf
      · rw [if_neg ‹_›]
        cases hd
        rw [hstart]
        rfl
  next =>
    split at hi
    next hf =>
      cases hi
      obtain ⟨j, hj, htest, hj'⟩ := htrue
      have hstart := hnext f hf
      rw [hr, hj]
      constructor
      · intro h
        obtain ⟨i, hi, -, h⟩ := h
        cases hi
        have ht := h (!taken) t (by rw [hdest, if_neg hother])
        rw [hj', if_neg hother] at ht
        exact ⟨lands_iff.mp ht, near_next hstart⟩
      · intro h
        obtain ⟨ht, -⟩ := h
        refine ⟨j, rfl, htest, fun answer d hd => ?_⟩
        rw [hj']
        rw [hdest] at hd
        split at hd
        · rw [if_pos ‹_›]
          cases hd
          rw [hstart]
          rfl
        · rw [if_neg ‹_›]
          cases hd
          exact lands_iff.mpr ht
    next => cases hi

/-- A setup and the jump after it, as relocated, against the two blocks. -/
theorem setup_iff {s : Terminator α β} {setup : Int → Instruction α Int} {body handler : β}
    (hjumps : s.jumps = [(0, .uint32, handler), (1, .int32, body)])
    (hsetup : ∀ offset, (setup offset).handler p = some ((p : Int) + offset + 1) ∧
      ∀ answer, (setup offset).next answer p = p + 1) (hinj : Function.Injective setup)
    (hr : r[p]? = some (setup (OffsetType.uint32.store ((fn.start handler : Int) - p - 1))))
    (hr' : r[p + 1]? = some (.jump (OffsetType.int32.store ((fn.start body : Int) - (p + 1 : Nat) - 1)))) :
    fn.SetupAt r p setup body handler ↔ NearAt fn p s := by
  unfold FuncOp.SetupAt NearAt
  rw [hjumps, hr, hr']
  constructor
  · intro h k τ d hkd
    obtain ⟨⟨offset, hoffset, hhandler, -⟩, i, hi, hbody⟩ := h
    obtain rfl := hinj (Option.some.inj hoffset)
    cases hi
    rw [(hsetup _).1] at hhandler
    obtain ⟨rfl, rfl, rfl⟩ | ⟨rfl, rfl, rfl⟩ :
        k = 0 ∧ τ = .uint32 ∧ d = handler ∨ k = 1 ∧ τ = .int32 ∧ d = body := by simpa using hkd
    · exact lands_iff.mp (Option.some.inj hhandler)
    · exact lands_iff.mp (hbody true)
  · intro h
    refine ⟨⟨_, rfl, ?_, (hsetup _).2⟩, _, rfl, fun answer => ?_⟩
    · rw [(hsetup _).1]
      exact congrArg some (lands_iff.mpr (h 0 .uint32 handler (by simp)))
    · exact lands_iff.mpr (h 1 .int32 body (by simp))

/-- **Relocated terminators**: control goes where they say if their offsets are held. -/
theorem controlAt_iff (fn : FuncOp α β) (r : List (Instruction α Int)) (p : Nat) {s : Terminator α β}
    {part : List (Instruction α β)} (hc : s.code next = some part)
    (hnext : ∀ d, next = some d → fn.start d = p + s.size)
    (hr : ∀ (k : Nat) (i : Instruction α β), part[k]? = some i →
      r[p + k]? = i.traverse fun d => some (i.offsetType.store ((fn.start d : Int) - (p + k : Nat) - 1))) :
    fn.ControlAt r p s ↔ NearAt fn p s := by
  cases s with
  | branch dest =>
    cases hc
    have hj : r[p]? = some (.jump (OffsetType.int32.store ((fn.start dest : Int) - p - 1))) := hr 0 _ rfl
    unfold FuncOp.ControlAt NearAt
    dsimp only
    rw [hj]
    constructor
    · intro h k τ d hkd
      obtain ⟨i, hi, -, h⟩ := h
      cases hi
      obtain ⟨rfl, rfl, rfl⟩ : k = 0 ∧ τ = .int32 ∧ d = dest := by simpa [Terminator.jumps] using hkd
      exact lands_iff.mp (h true d rfl)
    · intro h
      refine ⟨_, rfl, rfl, fun answer d hd => ?_⟩
      cases hd
      exact lands_iff.mpr (h 0 .int32 dest (List.mem_singleton_self _))
  | jumpIfFalse cond t f =>
    obtain ⟨i, hi, rfl⟩ := Option.map_eq_some_iff.mp hc
    have htype : i.offsetType = .int32 := by rcases conditional_targets hi with rfl | rfl <;> rfl
    have hi' := hr 0 i rfl
    rw [htype] at hi'
    exact conditional_iff false rfl (fun answer => by cases answer <;> rfl) hnext hi
      ⟨_, rfl, rfl, fun answer => by cases answer <;> rfl⟩ ⟨_, rfl, rfl, fun answer => by cases answer <;> rfl⟩ hi'
  | jumpIfNotException type t f =>
    obtain ⟨i, hi, rfl⟩ := Option.map_eq_some_iff.mp hc
    have htype : i.offsetType = .uint32 := by rcases conditional_targets hi with rfl | rfl <;> rfl
    have hi' := hr 0 i rfl
    rw [htype] at hi'
    exact conditional_iff true rfl (fun answer => by cases answer <;> rfl) hnext hi
      ⟨_, rfl, rfl, fun answer => by cases answer <;> rfl⟩ ⟨_, rfl, rfl, fun answer => by cases answer <;> rfl⟩ hi'
  | forIter output iterator body continuation =>
    cases hc
    have hj : r[p]? = some (.forIter output iterator (OffsetType.int32.store ((fn.start body : Int) - p - 1))
        (OffsetType.int32.store ((fn.start continuation : Int) - p - 1))) := hr 0 _ rfl
    rw [nearAt_branches rfl]
    unfold FuncOp.ControlAt
    dsimp only
    rw [hj]
    constructor
    · intro h
      obtain ⟨i, hi, -, h⟩ := h
      cases hi
      exact ⟨lands_iff.mp (h true body rfl), lands_iff.mp (h false continuation rfl)⟩
    · intro h
      obtain ⟨hbody, hexit⟩ := h
      refine ⟨_, rfl, rfl, fun answer d hd => ?_⟩
      cases answer with
      | true =>
        cases hd
        exact lands_iff.mpr hbody
      | false =>
        cases hd
        exact lands_iff.mpr hexit
  | setupExceptionHandle body handler =>
    cases hc
    exact setup_iff rfl (fun offset => ⟨rfl, fun _ => rfl⟩) (fun _ _ h => Instruction.setupExceptionHandling.inj h)
      (hr 0 _ rfl) (hr 1 _ rfl)
  | setupWith body handler =>
    cases hc
    exact setup_iff rfl (fun offset => ⟨rfl, fun _ => rfl⟩) (fun _ _ h => Instruction.setupWith.inj h)
      (hr 0 _ rfl) (hr 1 _ rfl)
  | leave is =>
    cases hc
    refine ⟨fun _ k τ d hkd => (by cases hkd), fun _ k i hi => ?_⟩
    exact hr k (.other i) (by rw [List.getElem?_map, hi, Option.map_some])

end Terminators

/-- A function's blocks are placed and left as they say if the offsets are held. -/
theorem placed_iff {code : List (Instruction α β)} {r : List (Instruction α Int)}
    (hcode : fn.codeOf fn.sortedBlocks = some code) (hr : relocateAll (fun d => some (fn.start d)) 0 code = some r) :
    (∀ b ∈ fn.sortedBlocks, fn.Placed r b) ↔ fn.Near := by
  refine forall₂_congr fun b hb => ?_
  obtain ⟨part, hc⟩ := Option.isSome_iff_exists.mp ((codeOf_isSome _).mp (Option.isSome_of_eq_some hcode) b hb)
  obtain ⟨ct, hct, hsplit⟩ := Option.map_eq_some_iff.mp hc
  have hget {k : Nat} {i : Instruction α β} (hi : part[k]? = some i) := placed_get hcode hr hb hc hi
  have hlen : ((fn.block b).body.flatten.map fun i => (.other i : Instruction α β)).length = fn.bodySize b := List.length_map ..
  have hbody (k : Nat) (i : α) (hi : (fn.block b).body.flatten[k]? = some i) : r[fn.start b + k]? = some (.other i) := by
    refine hget (i := .other i) ?_
    have hlt : k < fn.bodySize b := (List.getElem?_eq_some_iff.mp hi).1
    rw [← hsplit, List.getElem?_append_left (by rw [hlen]; exact hlt), List.getElem?_map, hi, Option.map_some]
  have hcontrol := controlAt_iff fn r (fn.start b + fn.bodySize b) hct
    (fun d hd => by rw [start_next hb hd, FuncOp.size, Nat.add_assoc]) fun k i hi => by
      have hk : part[fn.bodySize b + k]? = some i := by
        rw [← hsplit, List.getElem?_append_right (by rw [hlen]; exact Nat.le_add_right _ _), hlen, Nat.add_sub_cancel_left]
        exact hi
      rw [Nat.add_assoc, hget hk]
  exact ⟨fun h => hcontrol.mp h.control, fun h => ⟨hbody, hcontrol.mpr h⟩⟩

/-- **Emission, exactly**: all control goes where the operations say if in each function one block of every conditional
jump is laid out next, which the emitter asserts, and each instruction holds its offset. -/
theorem jumpsRight_iff (M : ModuleOp α β) : JumpsRight M ↔ ∀ fn ∈ M.functions, fn.LaidOut ∧ fn.Near := by
  by_cases hcodes : ∀ fn ∈ M.functions, (fn.codeOf fn.sortedBlocks).isSome
  · obtain ⟨P, hP, hcode⟩ := emitModule_some M hcodes
    have hcode (fn : FuncOp α β) (hfn : fn ∈ M.functions) : ∃ r, P fn.key = some r ∧
        ((∀ b ∈ fn.sortedBlocks, fn.Placed r b) ↔ fn.Near) := by
      obtain ⟨code, hc⟩ := Option.isSome_iff_exists.mp (hcodes fn hfn)
      obtain ⟨r, hr⟩ := Option.isSome_iff_exists.mp (relocateAll_total fn.start 0 code)
      exact ⟨r, (hcode fn hfn code hc).trans hr, placed_iff hc hr⟩
    constructor
    · intro h fn hfn
      obtain ⟨P', hP', h⟩ := h
      obtain rfl := Option.some.inj (hP.symm.trans hP')
      obtain ⟨r, hr, hplaced⟩ := hcode fn hfn
      obtain ⟨r', hr', hall⟩ := h fn hfn
      obtain rfl := Option.some.inj (hr.symm.trans hr')
      exact ⟨codeOf_isSome_iff.mp (hcodes fn hfn), hplaced.mp hall⟩
    · intro h
      refine ⟨P, hP, fun fn hfn => ?_⟩
      obtain ⟨r, hr, hplaced⟩ := hcode fn hfn
      exact ⟨r, hr, hplaced.mpr (h fn hfn).2⟩
  · constructor
    · intro h
      obtain ⟨P, hP, -⟩ := h
      refine absurd (fun fn hfn => ?_) hcodes
      cases hc : fn.codeOf fn.sortedBlocks with
      | some code => rfl
      | none => cases (emitModule_none M hfn hc).symm.trans hP
    · intro h
      exact absurd (fun fn hfn => codeOf_isSome_iff.mpr (h fn hfn).1) hcodes

end Control

/-! ### A loop -/

/-- The paths of a function. -/
inductive FuncOp.Path (fn : FuncOp α β) : β → β → List β → Prop
  | refl (b : β) : Path fn b b [b]
  | step {b d e : β} {p : List β} : d ∈ (fn.block b).terminator.successors → Path fn d e p → Path fn b e (b :: p)

/-- The order of the blocks has dominators first. -/
def FuncOp.DominatorsFirst [DecidableEq β] (fn : FuncOp α β) (entry : β) : Prop :=
  ∀ a b, a ∈ fn.sortedBlocks → b ∈ fn.sortedBlocks → (∀ p, fn.Path entry b p → a ∈ p) →
    fn.sortedBlocks.idxOf a ≤ fn.sortedBlocks.idxOf b

/-- Block 1 is a loop with two ways out: through 2, and from 3, which goes back or leaves. -/
def loopBlock : Nat → Block Unit Nat
  | 0 => ⟨[], .branch 1⟩
  | 1 => ⟨[], .jumpIfFalse 0 2 3⟩
  | 2 => ⟨[], .branch 4⟩
  | 3 => ⟨[], .jumpIfFalse 0 1 4⟩
  | _ => ⟨[], .leave [()]⟩

/-- The blocks in reverse postorder. -/
def loopFunction : FuncOp Unit Nat := ⟨"__hidden_init__", true, loopBlock, [0, 1, 3, 2, 4], by decide, by decide⟩

def loopModule : ModuleOp Unit Nat :=
  ⟨[loopFunction], List.pairwise_singleton _ _, List.pairwise_singleton _ _, ⟨_, List.mem_singleton_self _, rfl⟩⟩

theorem loopFunction_dominatorsFirst : loopFunction.DominatorsFirst 0 := by
  have hto1 {e : Nat} {p : List Nat} (h : loopFunction.Path 1 e p) : loopFunction.Path 0 e (0 :: p) := .step (by decide) h
  have hpath (b : Nat) (hb : b ∈ loopFunction.sortedBlocks) : ∃ p, loopFunction.Path 0 b p ∧
      ∀ a ∈ p, loopFunction.sortedBlocks.idxOf a ≤ loopFunction.sortedBlocks.idxOf b := by
    obtain rfl | rfl | rfl | rfl | rfl : b = 0 ∨ b = 1 ∨ b = 3 ∨ b = 2 ∨ b = 4 := by simpa [loopFunction] using hb
    · exact ⟨_, .refl 0, by decide⟩
    · exact ⟨_, hto1 (.refl 1), by decide⟩
    · exact ⟨_, hto1 (.step (by decide) (.refl 3)), by decide⟩
    · exact ⟨_, hto1 (.step (by decide) (.refl 2)), by decide⟩
    · exact ⟨_, hto1 (.step (d := 2) (by decide) (.step (by decide) (.refl 4))), by decide⟩
  intro a b _ hb hdom
  obtain ⟨p, hp, hle⟩ := hpath b hb
  exact hle a (hdom p hp)

/-- After block 3 comes block 2, and the assertion fails. -/
theorem loopModule_asserts : loopFunction.sortedBlocks.Perm [0, 1, 2, 3, 4] ∧ loopFunction.DominatorsFirst 0 ∧
    (emitModule loopModule).isNone ∧ ¬ JumpsRight loopModule := by
  have hnone : (emitModule loopModule).isNone := by decide
  refine ⟨by decide, loopFunction_dominatorsFirst, hnone, ?_⟩
  intro h
  obtain ⟨P, hP, -⟩ := h
  rw [hP] at hnone
  cases hnone

end Pylang.Bytecode
