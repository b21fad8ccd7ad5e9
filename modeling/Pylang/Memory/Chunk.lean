/-
A block of the slab below the model of the collector: chunks of 64 cells with a
bit for each, of which the first clear one is given out, and new chunks when all
are taken.
-/
import Pylang.Memory.Mutator

namespace Pylang.Memory

/-- The memory of 64 cells and which of them are occupied (`m_occupied_chunks`). -/
structure Chunk where
  memory : Nat
  objectSize : Nat
  mask : Fin 64 → Bool

namespace Chunk

variable (k : Chunk)

def address (i : Fin 64) : Nat := k.memory + i * k.objectSize

def cells : List Nat := (List.finRange 64).map k.address

def nextFreeChunk : Option (Fin 64) := (List.finRange 64).find? (!k.mask ·)

def setBit (i : Fin 64) (value : Bool) : Chunk := { k with mask := Function.update k.mask i value }

def allocate : Option (Nat × Chunk) := k.nextFreeChunk.map fun i => (k.address i, k.setBit i true)

/-- The bit of an address that is that of a cell. -/
def bit? (a : Nat) : Option (Fin 64) :=
  if (a - k.memory) % k.objectSize = 0 then
    if h : (a - k.memory) / k.objectSize < 64 then some ⟨(a - k.memory) / k.objectSize, h⟩ else none
  else none

def hasAddress (a : Nat) : Bool :=
  if a < k.memory ∨ k.memory + k.objectSize * 64 ≤ a then false
  else (k.bit? a).any k.mask

/-- `none` where an assertion fails. -/
def deallocate (a : Nat) : Option Chunk :=
  if k.memory ≤ a ∧ a < k.memory + (k.objectSize + 1) * 64 then
    (k.bit? a).bind fun i => if k.mask i then some (k.setBit i false) else none
  else none

end Chunk

namespace HeapBlock

/-- `Block::allocate` as long as a chunk has a free cell. -/
def allocateIn : List Chunk → Option (Nat × List Chunk)
  | [] => none
  | k :: ks =>
    match k.allocate with
    | some (p, k') => some (p, k' :: ks)
    | none => (allocateIn ks).map fun r => (r.1, k :: r.2)

/-- The chunks in new memory. -/
def chunksAt (memory objectSize count : Nat) : List Chunk :=
  (List.range count).map fun i => ⟨memory + i * (objectSize * 64), objectSize, fun _ => false⟩

/-- `Block::allocate`; the golden ratio gives the number of new chunks, the allocator their memory. -/
def allocate (ks : List Chunk) (objectSize memory count : Nat) : Option (Nat × List Chunk) :=
  -- the chunks before the new ones are full, so the second search ends in `m_chunks[old_chunk_count]`
  (allocateIn ks).or (allocateIn (ks ++ chunksAt memory objectSize count))

def hasAddress (ks : List Chunk) (a : Nat) : Bool := ks.any (·.hasAddress a)

/-- What the sweep does with a cell: its own chunk deallocates it. -/
def deallocate : List Chunk → Nat → Option (List Chunk)
  | [], _ => none
  | k :: ks, a =>
    if k.hasAddress a then (k.deallocate a).map (· :: ks) else (deallocate ks a).map (k :: ·)

/-- The sweep over the cells of a block: those that are alive and white are deallocated. -/
def sweep (white : Nat → Bool) : List Chunk → List Nat → Option (List Chunk)
  | ks, [] => some ks
  | ks, a :: as => if hasAddress ks a && white a then (deallocate ks a).bind (sweep white · as) else sweep white ks as

end HeapBlock

/-! ## Chunks -/

namespace Chunk

variable {k : Chunk} {i j : Fin 64} {a : Nat}

@[simp] theorem setBit_address (value : Bool) : (k.setBit i value).address j = k.address j := rfl

theorem bit?_address (hsize : 0 < k.objectSize) : k.bit? (k.address i) = some i := by
  have hsub : k.address i - k.memory = i * k.objectSize := Nat.add_sub_cancel_left ..
  have hdiv : i * k.objectSize / k.objectSize = i.val := Nat.mul_div_cancel _ hsize
  unfold bit?
  rw [hsub, if_pos (Nat.mul_mod_left ..)]
  simp [hdiv]

theorem address_bit? (hle : k.memory ≤ a) (h : k.bit? a = some i) : k.address i = a := by
  unfold bit? at h
  split at h
  next hmod =>
    split at h
    next hlt =>
      cases h
      have hdiv := Nat.div_mul_cancel (Nat.dvd_of_mod_eq_zero hmod)
      show k.memory + (a - k.memory) / k.objectSize * k.objectSize = a
      omega
    next => cases h
  next => cases h

theorem address_lt (k : Chunk) (i : Fin 64) :
    k.memory ≤ k.address i ∧ k.address i + k.objectSize ≤ k.memory + k.objectSize * 64 := by
  have hle : i.val * k.objectSize + k.objectSize ≤ 64 * k.objectSize := by
    rw [← Nat.succ_mul]
    exact Nat.mul_le_mul_right _ i.isLt
  unfold address
  constructor
  · omega
  · rw [Nat.mul_comm k.objectSize]
    omega

theorem address_inj (hsize : 0 < k.objectSize) (h : k.address i = k.address j) : i = j := by
  have hi := bit?_address (k := k) (i := i) hsize
  rw [h, bit?_address hsize] at hi
  exact (Option.some.inj hi).symm

/-- The addresses of the occupied cells. -/
def Occupied (k : Chunk) (a : Nat) : Prop := ∃ i, k.mask i = true ∧ k.address i = a

theorem hasAddress_iff (hsize : 0 < k.objectSize) : k.hasAddress a = true ↔ k.Occupied a := by
  unfold hasAddress
  constructor
  · intro h
    split at h
    next => cases h
    next hin =>
      cases hbit : k.bit? a with
      | none =>
        rw [hbit] at h
        cases h
      | some i =>
        rw [hbit] at h
        exact ⟨i, h, address_bit? (by omega) hbit⟩
  · intro h
    obtain ⟨i, hmask, rfl⟩ := h
    obtain ⟨hle, hlt⟩ := address_lt k i
    rw [if_neg (by omega), bit?_address hsize]
    exact hmask

theorem occupied_setBit (hsize : 0 < k.objectSize) (value : Bool) :
    (k.setBit i value).Occupied a ↔ if a = k.address i then value = true else k.Occupied a := by
  constructor
  · intro h
    obtain ⟨j, hmask, rfl⟩ := h
    have hmask : Function.update k.mask i value j = true := hmask
    by_cases hji : j = i
    · subst hji
      rw [Function.update_self] at hmask
      simp [hmask]
    · rw [Function.update_of_ne hji] at hmask
      rw [setBit_address, if_neg fun h => hji (address_inj hsize h)]
      exact ⟨j, hmask, rfl⟩
  · intro h
    by_cases ha : a = k.address i
    · rw [if_pos ha] at h
      exact ⟨i, (Function.update_self ..).trans h, ha.symm⟩
    · rw [if_neg ha] at h
      obtain ⟨j, hmask, rfl⟩ := h
      have hji : j ≠ i := fun h => ha (congrArg k.address h)
      exact ⟨j, (Function.update_of_ne hji ..).trans hmask, rfl⟩

theorem allocate_some {p : Nat} {k' : Chunk} (h : k.allocate = some (p, k')) :
    ∃ i, p = k.address i ∧ k.mask i = false ∧ k' = k.setBit i true := by
  unfold allocate nextFreeChunk at h
  cases hfind : (List.finRange 64).find? (!k.mask ·) with
  | none =>
    rw [hfind] at h
    cases h
  | some i =>
    rw [hfind] at h
    cases h
    exact ⟨i, rfl, by simpa using List.find?_some hfind, rfl⟩

theorem deallocate_occupied (hsize : 0 < k.objectSize) (hmask : k.mask i = true) :
    k.deallocate (k.address i) = some (k.setBit i false) := by
  obtain ⟨hle, hlt⟩ := address_lt k i
  unfold deallocate
  rw [if_pos ⟨hle, by omega⟩, bit?_address hsize]
  exact if_pos hmask

end Chunk

/-! ## Blocks -/

namespace HeapBlock

variable {ks ks' : List Chunk} {k : Chunk} {size a b p memory count : Nat} {value : Bool}

/-- The memory of two chunks does not overlap. -/
def Apart (size : Nat) (k k' : Chunk) : Prop :=
  k.memory + size * 64 ≤ k'.memory ∨ k'.memory + size * 64 ≤ k.memory

structure Sound (size : Nat) (ks : List Chunk) : Prop where
  positive : 0 < size
  sizes : ∀ k ∈ ks, k.objectSize = size
  apart : ks.Pairwise (Apart size)

/-- The addresses of the occupied cells. -/
def Occupied (ks : List Chunk) (a : Nat) : Prop := ∃ k ∈ ks, k.Occupied a

theorem occupied_cons : Occupied (k :: ks) a ↔ k.Occupied a ∨ Occupied ks a := by
  simp [Occupied]

theorem Sound.tail (h : Sound size (k :: ks)) : Sound size ks :=
  ⟨h.positive, fun l hl => h.sizes l (List.mem_cons_of_mem k hl), (List.pairwise_cons.mp h.apart).2⟩

theorem Sound.objectSize_pos (h : Sound size ks) (hk : k ∈ ks) : 0 < k.objectSize := by
  rw [h.sizes k hk]
  exact h.positive

/-- An address in the memory of a chunk, with room for a cell. -/
def Within (size : Nat) (k : Chunk) (a : Nat) : Prop := k.memory ≤ a ∧ a + size ≤ k.memory + size * 64

theorem Sound.within (h : Sound size ks) (hk : k ∈ ks) (i : Fin 64) : Within size k (k.address i) := by
  have hlt := Chunk.address_lt k i
  rwa [h.sizes k hk] at hlt

theorem Sound.occupied_within (h : Sound size ks) (ha : Occupied ks a) : ∃ k ∈ ks, Within size k a := by
  obtain ⟨k, hk, i, -, rfl⟩ := ha
  exact ⟨k, hk, h.within hk i⟩

theorem Sound.not_both (h : Sound size (k :: ks)) {l : Chunk} (hl : l ∈ ks) (hk : Within size k a) :
    ¬ Within size l a := by
  intro hl'
  have hpos := h.positive
  obtain ⟨hk₁, hk₂⟩ := hk
  obtain ⟨hl₁, hl₂⟩ := hl'
  rcases (List.pairwise_cons.mp h.apart).1 l hl with happart | happart
  · omega
  · omega

theorem Sound.elsewhere (h : Sound size (k :: ks)) (hk : Within size k a) : ¬ Occupied ks a := by
  intro ha
  obtain ⟨l, hl, hin⟩ := h.tail.occupied_within ha
  exact h.not_both hl hk hin

theorem hasAddress_iff (h : Sound size ks) : hasAddress ks a = true ↔ Occupied ks a := by
  unfold hasAddress Occupied
  rw [List.any_eq_true]
  constructor
  · intro ha
    obtain ⟨k, hk, ha⟩ := ha
    exact ⟨k, hk, (Chunk.hasAddress_iff (h.objectSize_pos hk)).mp ha⟩
  · intro ha
    obtain ⟨k, hk, ha⟩ := ha
    exact ⟨k, hk, (Chunk.hasAddress_iff (h.objectSize_pos hk)).mpr ha⟩

/-- One bit is set or cleared, that of the cell at the address. -/
inductive Updates (value : Bool) : List Chunk → Nat → List Chunk → Prop
  | head {k : Chunk} {ks : List Chunk} (i : Fin 64) : Updates value (k :: ks) (k.address i) (k.setBit i value :: ks)
  | tail {k : Chunk} {ks : List Chunk} {p : Nat} {ks' : List Chunk} : Updates value ks p ks' →
      Updates value (k :: ks) p (k :: ks')

theorem Updates.within (hup : Updates value ks p ks') (h : Sound size ks) : ∃ k ∈ ks, Within size k p := by
  induction hup with
  | head i => exact ⟨_, List.mem_cons_self, h.within List.mem_cons_self i⟩
  | tail _ ih =>
    obtain ⟨l, hl, hin⟩ := ih h.tail
    exact ⟨l, List.mem_cons_of_mem _ hl, hin⟩

theorem Updates.mem (hup : Updates value ks p ks') {k' : Chunk} (hk' : k' ∈ ks') :
    ∃ k ∈ ks, k.memory = k'.memory ∧ k.objectSize = k'.objectSize := by
  induction hup with
  | @head k ks i =>
    rcases List.mem_cons.mp hk' with rfl | hk'
    · exact ⟨k, List.mem_cons_self, rfl, rfl⟩
    · exact ⟨k', List.mem_cons_of_mem k hk', rfl, rfl⟩
  | @tail k ks p ks' _ ih =>
    rcases List.mem_cons.mp hk' with rfl | hk'
    · exact ⟨_, List.mem_cons_self, rfl, rfl⟩
    · obtain ⟨l, hl, heq⟩ := ih hk'
      exact ⟨l, List.mem_cons_of_mem k hl, heq⟩

theorem Updates.sound (hup : Updates value ks p ks') (h : Sound size ks) : Sound size ks' := by
  refine ⟨h.positive, fun k' hk' => ?_, ?_⟩
  · obtain ⟨k, hk, -, hsize⟩ := hup.mem hk'
    rw [← hsize, h.sizes k hk]
  · induction hup with
    | head i =>
      obtain ⟨hhead, htail⟩ := List.pairwise_cons.mp h.apart
      exact List.pairwise_cons.mpr ⟨fun l hl => hhead l hl, htail⟩
    | tail hup ih =>
      refine List.pairwise_cons.mpr ⟨fun l hl => ?_, ih h.tail⟩
      obtain ⟨l', hl', hmemory, -⟩ := hup.mem hl
      have happart := (List.pairwise_cons.mp h.apart).1 l' hl'
      unfold Apart at happart ⊢
      rwa [← hmemory]

theorem Updates.occupied (hup : Updates value ks p ks') (h : Sound size ks) :
    Occupied ks' a ↔ if a = p then value = true else Occupied ks a := by
  induction hup with
  | @head k ks i =>
    rw [occupied_cons, Chunk.occupied_setBit (h.objectSize_pos List.mem_cons_self), occupied_cons]
    by_cases ha : a = k.address i
    · have hnot := h.elsewhere (h.within List.mem_cons_self i)
      simp [ha, hnot]
    · simp [ha]
  | @tail k ks p ks' hup ih =>
    rw [occupied_cons, ih h.tail, occupied_cons]
    by_cases ha : a = p
    · have hnot : ¬ k.Occupied p := by
        intro hk
        obtain ⟨i, -, rfl⟩ := hk
        obtain ⟨l, hl, hin⟩ := hup.within h.tail
        exact h.not_both hl (h.within List.mem_cons_self i) hin
      simp [ha, hnot]
    · simp [ha]

/-! ## Allocation and deallocation -/

theorem allocateIn_updates (h : Sound size ks) (halloc : allocateIn ks = some (p, ks')) :
    Updates true ks p ks' ∧ ¬ Occupied ks p := by
  induction ks generalizing ks' with
  | nil => cases halloc
  | cons k ks ih =>
    have hpos := h.objectSize_pos List.mem_cons_self
    unfold allocateIn at halloc
    cases hk : k.allocate with
    | some r =>
      rw [hk] at halloc
      cases halloc
      obtain ⟨i, hp, hmask, hset⟩ := Chunk.allocate_some hk
      rw [hp, hset, occupied_cons]
      refine ⟨.head i, fun hocc => ?_⟩
      rcases hocc with hocc | hocc
      · obtain ⟨j, hj, heq⟩ := hocc
        rw [Chunk.address_inj hpos heq, hmask] at hj
        cases hj
      · exact h.elsewhere (h.within List.mem_cons_self i) hocc
    | none =>
      rw [hk] at halloc
      obtain ⟨r, hr, heq⟩ := Option.map_eq_some_iff.mp halloc
      cases heq
      obtain ⟨hup, hfree⟩ := ih h.tail hr
      refine ⟨.tail hup, fun hocc => ?_⟩
      rcases occupied_cons.mp hocc with hocc | hocc
      · obtain ⟨i, -, heq⟩ := hocc
        obtain ⟨l, hl, hin⟩ := hup.within h.tail
        rw [← heq] at hin
        exact h.not_both hl (h.within List.mem_cons_self i) hin
      · exact hfree hocc

theorem deallocate_updates (h : Sound size ks) (ha : Occupied ks a) :
    ∃ ks', deallocate ks a = some ks' ∧ Updates false ks a ks' := by
  induction ks with
  | nil =>
    obtain ⟨k, hk, -⟩ := ha
    cases hk
  | cons k ks ih =>
    have hpos := h.objectSize_pos List.mem_cons_self
    unfold deallocate
    by_cases hk : k.hasAddress a = true
    · obtain ⟨i, hmask, rfl⟩ := (Chunk.hasAddress_iff hpos).mp hk
      rw [if_pos hk, Chunk.deallocate_occupied hpos hmask]
      exact ⟨_, rfl, .head i⟩
    · rw [if_neg hk]
      have hks := (occupied_cons.mp ha).resolve_left fun hocc => hk ((Chunk.hasAddress_iff hpos).mpr hocc)
      obtain ⟨ks', hrun, hup⟩ := ih h.tail hks
      exact ⟨k :: ks', by rw [hrun]; rfl, .tail hup⟩

/-- New memory does not overlap that of the block. -/
def NewMemory (size : Nat) (ks : List Chunk) (memory count : Nat) : Prop :=
  0 < count ∧ ∀ k ∈ ks, k.memory + size * 64 ≤ memory ∨ memory + count * (size * 64) ≤ k.memory

theorem mem_chunksAt (hk : k ∈ chunksAt memory size count) :
    ∃ i < count, k = ⟨memory + i * (size * 64), size, fun _ => false⟩ := by
  obtain ⟨i, hi, rfl⟩ := List.mem_map.mp hk
  exact ⟨i, List.mem_range.mp hi, rfl⟩

theorem sound_chunksAt (hsize : 0 < size) : Sound size (chunksAt memory size count) := by
  refine ⟨hsize, fun k hk => ?_, ?_⟩
  · obtain ⟨i, -, rfl⟩ := mem_chunksAt hk
    rfl
  · refine List.Pairwise.map _ (fun i j hij => ?_) List.pairwise_lt_range
    have hle : i * (size * 64) + size * 64 ≤ j * (size * 64) := by
      rw [← Nat.succ_mul]
      exact Nat.mul_le_mul_right _ hij
    left
    show memory + i * (size * 64) + size * 64 ≤ memory + j * (size * 64)
    omega

theorem Sound.grown (h : Sound size ks) (hnew : NewMemory size ks memory count) :
    Sound size (ks ++ chunksAt memory size count) := by
  have hnewSound : Sound size (chunksAt memory size count) := sound_chunksAt h.positive
  refine ⟨h.positive, fun k hk => ?_, List.pairwise_append.mpr ⟨h.apart, hnewSound.apart, fun k hk l hl => ?_⟩⟩
  · exact (List.mem_append.mp hk).elim (h.sizes k) (hnewSound.sizes k)
  · obtain ⟨i, hi, rfl⟩ := mem_chunksAt hl
    have hle : i * (size * 64) + size * 64 ≤ count * (size * 64) := by
      rw [← Nat.succ_mul]
      exact Nat.mul_le_mul_right _ hi
    unfold Apart
    dsimp only
    rcases hnew.2 k hk with happart | happart
    · left
      omega
    · right
      omega

theorem occupied_grown : Occupied (ks ++ chunksAt memory size count) a ↔ Occupied ks a := by
  constructor
  · intro ha
    obtain ⟨k, hk, hocc⟩ := ha
    rcases List.mem_append.mp hk with hk | hk
    · exact ⟨k, hk, hocc⟩
    · obtain ⟨i, -, rfl⟩ := mem_chunksAt hk
      obtain ⟨j, hj, -⟩ := hocc
      cases hj
  · intro ha
    obtain ⟨k, hk, hocc⟩ := ha
    exact ⟨k, List.mem_append_left _ hk, hocc⟩

theorem chunksAt_cons (hcount : 0 < count) :
    ∃ ks, chunksAt memory size count = ⟨memory, size, fun _ => false⟩ :: ks := by
  obtain ⟨n, rfl⟩ := Nat.exists_eq_add_of_lt hcount
  refine ⟨(List.range n).map fun i => ⟨memory + (i + 1) * (size * 64), size, fun _ => false⟩, ?_⟩
  unfold chunksAt
  rw [Nat.zero_add, List.range_succ_eq_map, List.map_cons, List.map_map]
  simp [Function.comp_def]

/-- A full block gives the first cell of the new memory. -/
theorem allocateIn_grown (hcount : 0 < count) (hfull : allocateIn ks = none) :
    ∃ ks', allocateIn (ks ++ chunksAt memory size count) = some (memory, ks') := by
  induction ks with
  | nil =>
    obtain ⟨ks, hks⟩ := @chunksAt_cons size memory count hcount
    have hfirst : (⟨memory, size, fun _ => false⟩ : Chunk).nextFreeChunk = some 0 := rfl
    rw [List.nil_append, hks, allocateIn, Chunk.allocate, hfirst]
    exact ⟨_, by simp [Chunk.address]; rfl⟩
  | cons k ks ih =>
    unfold allocateIn at hfull
    rw [List.cons_append, allocateIn]
    cases hk : k.allocate with
    | some r =>
      rw [hk] at hfull
      cases hfull
    | none =>
      rw [hk] at hfull
      obtain ⟨ks', hrun⟩ := ih (Option.map_eq_none_iff.mp hfull)
      exact ⟨k :: ks', by rw [hrun]; rfl⟩

theorem allocate_updates (h : Sound size ks) (hnew : NewMemory size ks memory count) :
    ∃ p ks', allocate ks size memory count = some (p, ks') ∧ Sound size ks' ∧ ¬ Occupied ks p ∧
      ∀ a, Occupied ks' a ↔ a = p ∨ Occupied ks a := by
  unfold allocate
  cases hrun : allocateIn ks with
  | some r =>
    obtain ⟨hup, hfree⟩ := allocateIn_updates h hrun
    refine ⟨r.1, r.2, rfl, hup.sound h, hfree, fun a => ?_⟩
    rw [hup.occupied h]
    by_cases ha : a = r.1 <;> simp [ha]
  | none =>
    obtain ⟨ks', hgrown⟩ := @allocateIn_grown ks size memory count hnew.1 hrun
    have hsound := h.grown hnew
    obtain ⟨hup, hfree⟩ := allocateIn_updates hsound hgrown
    rw [occupied_grown] at hfree
    refine ⟨memory, ks', hgrown, hup.sound hsound, hfree, fun a => ?_⟩
    rw [hup.occupied hsound, occupied_grown]
    by_cases ha : a = memory <;> simp [ha]

/-! ## Runs -/

/-- The runs of a block, with the cells that are given out. -/
inductive Run (size : Nat) : List Chunk → List Nat → Prop
  | start {memory count : Nat} : 0 < count → Run size (chunksAt memory size count) []
  | allocate {ks : List Chunk} {given : List Nat} {memory count p : Nat} {ks' : List Chunk} : Run size ks given →
      NewMemory size ks memory count → allocate ks size memory count = some (p, ks') → Run size ks' (p :: given)
  | deallocate {ks : List Chunk} {given : List Nat} {a : Nat} {ks' : List Chunk} : Run size ks given → a ∈ given →
      deallocate ks a = some ks' → Run size ks' (given.erase a)

structure Inv (size : Nat) (ks : List Chunk) (given : List Nat) : Prop where
  sound : Sound size ks
  nodup : given.Nodup
  occupied : ∀ a, Occupied ks a ↔ a ∈ given

theorem Run.inv {given : List Nat} (hsize : 0 < size) (hrun : Run size ks given) : Inv size ks given := by
  induction hrun with
  | @start memory count _ =>
    refine ⟨sound_chunksAt hsize, List.nodup_nil, fun a => ?_⟩
    have hnone := @occupied_grown [] size a memory count
    rw [List.nil_append] at hnone
    rw [hnone]
    simp [Occupied]
  | @allocate ks given memory count p ks' _ hnew halloc ih =>
    obtain ⟨q, ls, hq, hsound, hfree, hocc⟩ := allocate_updates ih.sound hnew
    rw [halloc] at hq
    cases hq
    refine ⟨hsound, List.nodup_cons.mpr ⟨fun hp => hfree ((ih.occupied p).mpr hp), ih.nodup⟩, fun a => ?_⟩
    rw [hocc, ih.occupied, List.mem_cons]
  | @deallocate ks given a ks' _ ha hfree ih =>
    obtain ⟨ls, hls, hup⟩ := deallocate_updates ih.sound ((ih.occupied a).mpr ha)
    rw [hfree] at hls
    cases hls
    refine ⟨hup.sound ih.sound, ih.nodup.erase a, fun b => ?_⟩
    rw [hup.occupied ih.sound, ih.occupied, ih.nodup.mem_erase_iff]
    by_cases hba : b = a <;> simp [hba]

theorem Sound.apart_of_occupied (h : Sound size ks) (ha : Occupied ks a) (hb : Occupied ks b) (hne : a ≠ b) :
    a + size ≤ b ∨ b + size ≤ a := by
  induction ks with
  | nil =>
    obtain ⟨k, hk, -⟩ := ha
    cases hk
  | cons k ks ih =>
    have hk : k.objectSize = size := h.sizes k List.mem_cons_self
    have hother {c d : Nat} (hc : k.Occupied c) (hd : Occupied ks d) : c + size ≤ d ∨ d + size ≤ c := by
      obtain ⟨i, -, rfl⟩ := hc
      obtain ⟨l, hl, hin⟩ := h.tail.occupied_within hd
      obtain ⟨hi₁, hi₂⟩ := h.within List.mem_cons_self i
      obtain ⟨hl₁, hl₂⟩ := hin
      rcases (List.pairwise_cons.mp h.apart).1 l hl with happart | happart
      · left
        omega
      · right
        omega
    rcases occupied_cons.mp ha with ha | ha
    · rcases occupied_cons.mp hb with hb | hb
      · obtain ⟨i, -, rfl⟩ := ha
        obtain ⟨j, -, rfl⟩ := hb
        have hstep {i j : Fin 64} (hij : i < j) : k.address i + size ≤ k.address j := by
          have hle : i.val * size + size ≤ j.val * size := by
            rw [← Nat.succ_mul]
            exact Nat.mul_le_mul_right _ hij
          unfold Chunk.address
          rw [hk]
          omega
        rcases lt_trichotomy i j with hij | hij | hij
        · exact .inl (hstep hij)
        · exact absurd (congrArg k.address hij) hne
        · exact .inr (hstep hij)
      · exact hother ha hb
    · rcases occupied_cons.mp hb with hb | hb
      · exact (hother hb ha).symm
      · exact ih h.tail ha hb

/-- **Cells never overlap.** In every run of a block, the cells that are given out lie apart, the addresses that it knows
are theirs, each of them can be given back, and there is always another. -/
theorem run_apart {given : List Nat} (hsize : 0 < size) (hrun : Run size ks given) :
    given.Pairwise (fun p q => p + size ≤ q ∨ q + size ≤ p) ∧ (∀ a, hasAddress ks a = true ↔ a ∈ given) ∧
      (∀ a ∈ given, ∃ ks', deallocate ks a = some ks') ∧
      ∀ memory count, NewMemory size ks memory count →
        ∃ p ks', allocate ks size memory count = some (p, ks') ∧ p ∉ given := by
  have hinv := hrun.inv hsize
  refine ⟨hinv.nodup.imp_of_mem fun ha hb hne => ?_, fun a => ?_, fun a ha => ?_, fun memory count hnew => ?_⟩
  · exact hinv.sound.apart_of_occupied ((hinv.occupied _).mpr ha) ((hinv.occupied _).mpr hb) hne
  · rw [hasAddress_iff hinv.sound, hinv.occupied]
  · obtain ⟨ks', hfree, -⟩ := deallocate_updates hinv.sound ((hinv.occupied a).mpr ha)
    exact ⟨ks', hfree⟩
  · obtain ⟨p, ks', halloc, -, hfree, -⟩ := allocate_updates hinv.sound hnew
    exact ⟨p, ks', halloc, fun hp => hfree ((hinv.occupied p).mpr hp)⟩

theorem run_apart_first :
    ∃ ks', allocate (chunksAt 0 16 1) 16 2048 1 = some (0, ks') ∧
      [0].Pairwise (fun p q => p + 16 ≤ q ∨ q + 16 ≤ p) ∧ (∀ a, hasAddress ks' a = true ↔ a ∈ [0]) ∧
      (∀ a ∈ [0], ∃ ls, deallocate ks' a = some ls) ∧
      ∀ memory count, NewMemory 16 ks' memory count →
        ∃ p ls, allocate ks' 16 memory count = some (p, ls) ∧ p ∉ [0] := by
  have hnew : NewMemory 16 (chunksAt 0 16 1) 2048 1 := ⟨by decide, by decide⟩
  exact ⟨_, rfl, run_apart (by decide) (.allocate (.start (by decide)) hnew rfl)⟩

/-! ## The cells of the heap -/

/-- The cells of the chunks in their order, as the model of the collector has them. -/
def cells (ks : List Chunk) : List Nat := ks.flatMap Chunk.cells

theorem hasAddress_cons (ks : List Chunk) (a : Nat) : hasAddress (k :: ks) a = (k.hasAddress a || hasAddress ks a) :=
  List.any_cons

theorem Sound.hasAddress_address (h : Sound size (k :: ks)) (i : Fin 64) :
    hasAddress (k :: ks) (k.address i) = k.mask i := by
  rw [Bool.eq_iff_iff, hasAddress_iff h, occupied_cons]
  constructor
  · intro hocc
    obtain ⟨j, hj, heq⟩ := hocc.resolve_right (h.elsewhere (h.within List.mem_cons_self i))
    rwa [← Chunk.address_inj (h.objectSize_pos List.mem_cons_self) heq]
  · exact fun hmask => .inl ⟨i, hmask, rfl⟩

theorem Sound.cells_within (h : Sound size ks) (ha : a ∈ cells ks) : ∃ k ∈ ks, Within size k a := by
  obtain ⟨k, hk, ha⟩ := List.mem_flatMap.mp ha
  obtain ⟨i, -, rfl⟩ := List.mem_map.mp ha
  exact ⟨k, hk, h.within hk i⟩

theorem Sound.hasAddress_rest (h : Sound size (k :: ks)) (ha : a ∈ cells ks) :
    hasAddress (k :: ks) a = hasAddress ks a := by
  obtain ⟨l, hl, hin⟩ := h.tail.cells_within ha
  have hnot : k.hasAddress a = false := by
    refine Bool.eq_false_iff.mpr fun hk => ?_
    obtain ⟨i, -, heq⟩ := (Chunk.hasAddress_iff (h.objectSize_pos List.mem_cons_self)).mp hk
    rw [← heq] at hin
    exact h.not_both hl (h.within List.mem_cons_self i) hin
  rw [hasAddress_cons, hnot, Bool.false_or]

/-- The cell of an allocation is the first that is free. -/
theorem allocateIn_find (h : Sound size ks) :
    (allocateIn ks).map Prod.fst = (cells ks).find? (!hasAddress ks ·) := by
  induction ks with
  | nil => rfl
  | cons k ks ih =>
    have hfirst : k.cells.find? (!hasAddress (k :: ks) ·) = k.nextFreeChunk.map k.address := by
      have hbits : ((fun a => !hasAddress (k :: ks) a) ∘ k.address) = fun i => !k.mask i := by
        funext i
        rw [Function.comp_apply, h.hasAddress_address]
      rw [Chunk.cells, List.find?_map, hbits]
      rfl
    have hrest : (cells ks).find? (!hasAddress (k :: ks) ·) = (cells ks).find? (!hasAddress ks ·) :=
      List.find?_congr fun a ha => by rw [h.hasAddress_rest ha]
    have hcells : cells (k :: ks) = k.cells ++ cells ks := List.flatMap_cons
    rw [hcells, List.find?_append, hfirst, hrest, ← ih h.tail, allocateIn, Chunk.allocate]
    cases k.nextFreeChunk with
    | some i => rfl
    | none => cases allocateIn ks <;> rfl

/-- The chunks stand for the block of the heap: they have its cells, and their bits say which are occupied. -/
structure Refines (size : Nat) (ks : List Chunk) (h : Heap Nat) (block : Nat) : Prop where
  sound : Sound size ks
  cells : h.slab[block]? = some (cells ks)
  occupied : ∀ a ∈ HeapBlock.cells ks, h.occupied a = hasAddress ks a

theorem Updates.cells (hup : Updates value ks p ks') : cells ks' = cells ks := by
  induction hup with
  | head i => rfl
  | @tail k ks p ks' _ ih =>
    show k.cells ++ HeapBlock.cells ks' = k.cells ++ HeapBlock.cells ks
    rw [ih]

theorem Updates.refines {h h' : Heap Nat} {block : Nat} (hup : Updates value ks p ks') (hr : Refines size ks h block)
    (hslab : h'.slab = h.slab) (hoccupied : h'.occupied = Function.update h.occupied p value) :
    Refines size ks' h' block := by
  have hsound := hup.sound hr.sound
  refine ⟨hsound, by rw [hslab, hup.cells, hr.cells], fun a ha => ?_⟩
  rw [hup.cells] at ha
  rw [Bool.eq_iff_iff, hoccupied, hasAddress_iff hsound, hup.occupied hr.sound]
  by_cases hap : a = p
  · rw [if_pos hap, hap, Function.update_self]
  · rw [if_neg hap, Function.update_of_ne hap, hr.occupied a ha, hasAddress_iff hr.sound]

theorem Sound.new_apart (h : Sound size ks) (hnew : NewMemory size ks memory count)
    (ha : a ∈ cells (chunksAt memory size count)) : ¬ Occupied ks a := by
  intro hocc
  have happart := (List.pairwise_append.mp (h.grown hnew).apart).2.2
  obtain ⟨k, hk, hk₁, hk₂⟩ := h.occupied_within hocc
  obtain ⟨l, hl, hl₁, hl₂⟩ := (sound_chunksAt h.positive).cells_within ha
  have hpos := h.positive
  rcases happart k hk l hl with hle | hle
  · omega
  · omega

theorem Refines.grown {h : Heap Nat} {block : Nat} (hr : Refines size ks h block) (hnew : NewMemory size ks memory count)
    (hfresh : ∀ a ∈ HeapBlock.cells (chunksAt memory size count), h.occupied a = false) :
    Refines size (ks ++ chunksAt memory size count)
      { h with slab := h.slab.set block (HeapBlock.cells ks ++ HeapBlock.cells (chunksAt memory size count)) } block := by
  have hsound := hr.sound.grown hnew
  have hcells : HeapBlock.cells (ks ++ chunksAt memory size count) =
      HeapBlock.cells ks ++ HeapBlock.cells (chunksAt memory size count) := List.flatMap_append
  obtain ⟨hlt, -⟩ := List.getElem?_eq_some_iff.mp hr.cells
  refine ⟨hsound, by rw [hcells]; exact List.getElem?_set_self hlt, fun a ha => ?_⟩
  rw [Bool.eq_iff_iff, hasAddress_iff hsound, occupied_grown]
  rw [hcells] at ha
  rcases List.mem_append.mp ha with ha | ha
  · rw [← hasAddress_iff hr.sound, ← hr.occupied a ha]
  · have hnot := hr.sound.new_apart hnew ha
    simp [hfresh a ha, hnot]

/-- **The block refines the heap.** Over the chunks and their bits an allocation gives the cell that the model of the
collector gives over the list of cells, and the chunks stand for its block again. -/
theorem allocate_refines {h : Heap Nat} {block : Nat} (hr : Refines size ks h block)
    (hnew : NewMemory size ks memory count)
    (hfresh : ∀ a ∈ cells (chunksAt memory size count), h.occupied a = false) :
    ∃ p ks' h', allocate ks size memory count = some (p, ks') ∧
      h.allocateCell block (cells (chunksAt memory size count)) = some (p, h') ∧ Refines size ks' h' block := by
  have hfind : (cells ks).find? (!h.occupied ·) = (allocateIn ks).map Prod.fst := by
    rw [allocateIn_find hr.sound]
    exact List.find?_congr fun a ha => by rw [hr.occupied a ha]
  have hnext : ∃ rest, cells (chunksAt memory size count) = memory :: rest := by
    obtain ⟨ls, hls⟩ := @chunksAt_cons size memory count hnew.1
    have hzero : memory + 0 * size = memory := by rw [Nat.zero_mul, Nat.add_zero]
    rw [hls, cells, List.flatMap_cons, Chunk.cells, List.finRange_succ, List.map_cons, List.cons_append]
    exact ⟨_, congrArg (· :: _) hzero⟩
  have hgrown := hr.grown hnew hfresh
  obtain ⟨rest, hnext⟩ := hnext
  unfold allocate Heap.allocateCell
  rw [hr.cells]
  cases hrun : allocateIn ks with
  | some r =>
    obtain ⟨hup, -⟩ := allocateIn_updates hr.sound hrun
    refine ⟨r.1, r.2, h.take r.1, rfl, ?_, hup.refines hr rfl rfl⟩
    simp only [Option.bind_eq_bind, Option.bind_some, hfind, hrun, Option.map_some]
  | none =>
    obtain ⟨ks', hnew'⟩ := @allocateIn_grown ks size memory count hnew.1 hrun
    obtain ⟨hup, -⟩ := allocateIn_updates hgrown.sound hnew'
    refine ⟨memory, ks', Heap.take { h with slab := _ } memory, hnew', ?_, hup.refines hgrown rfl rfl⟩
    simp only [Option.bind_eq_bind, Option.bind_some, hfind, hrun, Option.map_none, hnext]

/-- A heap of one block of which nothing is occupied. -/
def emptyHeap (ks : List Chunk) : Heap Nat :=
  ⟨[cells ks], fun _ => false, fun _ => .mark .white, fun _ => [], fun _ => none, fun _ => none⟩

theorem refines_empty (hsize : 0 < size) :
    Refines size (chunksAt memory size count) (emptyHeap (chunksAt memory size count)) 0 := by
  have hsound : Sound size (chunksAt memory size count) := sound_chunksAt hsize
  refine ⟨hsound, rfl, fun a _ => (Bool.eq_false_iff.mpr fun ha => ?_).symm⟩
  obtain ⟨k, hk, i, hmask, -⟩ := (hasAddress_iff hsound).mp ha
  obtain ⟨j, -, rfl⟩ := mem_chunksAt hk
  cases hmask

theorem allocate_refines_first :
    ∃ p ks' h', allocate (chunksAt 0 16 1) 16 2048 1 = some (p, ks') ∧
      (emptyHeap (chunksAt 0 16 1)).allocateCell 0 (cells (chunksAt 2048 16 1)) = some (p, h') ∧ Refines 16 ks' h' 0 :=
  allocate_refines (refines_empty (by decide)) ⟨by decide, by decide⟩ fun _ _ => rfl

theorem sweepCell_white (h : Heap Nat) (a b : Nat) : ((h.sweepCell a).header b).white = (h.header b).white := by
  unfold Heap.sweepCell
  split
  next ha =>
    obtain ⟨-, hwhite⟩ := Bool.and_eq_true_iff.mp ha
    by_cases hba : b = a
    · subst hba
      simp only [Function.update_self, hwhite]
      rfl
    · simp only [Function.update_of_ne hba]
  next => rfl

theorem sweep_foldl {h : Heap Nat} {block : Nat} {as : List Nat} (hr : Refines size ks h block)
    (has : ∀ a ∈ as, a ∈ cells ks) :
    ∃ ks', sweep (fun a => (h.header a).white) ks as = some ks' ∧ Refines size ks' (as.foldl Heap.sweepCell h) block := by
  induction as generalizing ks h with
  | nil => exact ⟨ks, rfl, hr⟩
  | cons a as ih =>
    have ha := has a List.mem_cons_self
    have has := fun b hb => has b (List.mem_cons_of_mem a hb)
    have hwhite : (fun b => ((h.sweepCell a).header b).white) = fun b => (h.header b).white :=
      funext (sweepCell_white h a)
    rw [List.foldl_cons, sweep, ← hr.occupied a ha]
    by_cases hsweep : (h.occupied a && (h.header a).white) = true
    · rw [hr.occupied a ha] at hsweep
      obtain ⟨haddress, -⟩ := Bool.and_eq_true_iff.mp hsweep
      obtain ⟨ks', hrun, hup⟩ := deallocate_updates hr.sound ((hasAddress_iff hr.sound).mp haddress)
      rw [← hr.occupied a ha] at hsweep
      have hcell : (h.sweepCell a).slab = h.slab ∧ (h.sweepCell a).occupied = Function.update h.occupied a false := by
        rw [Heap.sweepCell, if_pos hsweep]
        exact ⟨rfl, rfl⟩
      have hr' := hup.refines hr hcell.1 hcell.2
      rw [if_pos hsweep, hrun, Option.bind_some, ← hwhite]
      exact ih hr' fun b hb => by rw [hup.cells]; exact has b hb
    · have hcell : h.sweepCell a = h := if_neg hsweep
      rw [if_neg hsweep, hcell]
      exact ih hr has

/-- **The sweep refines that of the heap.** Over the chunks the sweep passes every assertion, and it clears the bits of the
cells that the sweep of the heap frees. -/
theorem sweep_refines {h : Heap Nat} {block : Nat} (hr : Refines size ks h block) :
    ∃ ks', sweep (fun a => (h.header a).white) ks (cells ks) = some ks' ∧
      Refines size ks' ((cells ks).foldl Heap.sweepCell h) block :=
  sweep_foldl hr fun _ ha => ha

theorem sweep_refines_first :
    ∃ ks', sweep (fun a => (((emptyHeap (chunksAt 0 16 1)).take 0).header a).white)
        [(⟨0, 16, fun _ => false⟩ : Chunk).setBit 0 true]
        (cells [(⟨0, 16, fun _ => false⟩ : Chunk).setBit 0 true]) = some ks' ∧
      Refines 16 ks' ((cells [(⟨0, 16, fun _ => false⟩ : Chunk).setBit 0 true]).foldl Heap.sweepCell
        ((emptyHeap (chunksAt 0 16 1)).take 0)) 0 := by
  have hempty : Refines 16 (chunksAt 0 16 1) (emptyHeap (chunksAt 0 16 1)) 0 := refines_empty (by decide)
  have hset : Updates true (chunksAt 0 16 1) 0 [(⟨0, 16, fun _ => false⟩ : Chunk).setBit 0 true] := .head 0
  exact sweep_refines (hset.refines hempty rfl rfl)

end HeapBlock

end Pylang.Memory
