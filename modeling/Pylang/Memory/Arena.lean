/-
`Arena` as a bump allocator: blocks of memory, filled from their start, and
points to which it is taken back. A region lies in its block below the offset,
so that the regions are disjoint; what a save point saw is still there below
what came after it.
-/
import Mathlib

namespace Pylang.Memory

/-- A sum of `size_t`. -/
def wrap (n : Nat) : Nat := n % 2 ^ 64

structure Block where
  memory : Nat
  capacity : Nat
  offset : Nat
deriving DecidableEq

/-- The blocks and the objects to destroy, the last ones first. -/
structure Arena where
  blocks : List Block := []
  destructors : List Nat := []
  defaultBlockSize : Nat := 64 * 1024
  totalAllocated : Nat := 0
deriving DecidableEq

structure SavePoint where
  blockCount : Nat
  blockOffset : Nat
  dtorCount : Nat
  totalAllocated : Nat
deriving DecidableEq

/-- `alignof(std::max_align_t)` -/
def maxAlign : Nat := 16

def maxBlockSize : Nat := 4 * 1024 * 1024

/-- `(offset + align - 1) & ~(align - 1)` -/
def alignUp (offset align : Nat) : Nat :=
  (BitVec.ofNat 64 (offset + align - 1) &&& ~~~ BitVec.ofNat 64 (align - 1)).toNat

namespace Arena

/-- The size of the next block. -/
def nextBlockSize (a : Arena) (minSize : Nat) : Nat :=
  let blockSize := match a.blocks with
    | [] => a.defaultBlockSize
    | back :: _ => min (wrap (back.capacity * 2)) maxBlockSize
  max blockSize (wrap (minSize + maxAlign))

/-- `memory` is what `operator new` returns. -/
def newBlock (a : Arena) (minSize memory : Nat) : Block := ⟨memory, a.nextBlockSize minSize, 0⟩

def addBlock (a : Arena) (minSize memory : Nat) : Arena :=
  { a with blocks := a.newBlock minSize memory :: a.blocks }

/-- The last block has room for the region. -/
def hasRoom (a : Arena) (size align : Nat) : Bool :=
  match a.blocks with
  | [] => false
  | current :: _ => wrap (alignUp current.offset align + size) ≤ current.capacity

/-- Takes the region from the last block. -/
def place (a : Arena) (size align : Nat) : Nat × Arena :=
  match a.blocks with
  | [] => (0, a)
  | current :: blocks =>
    let alignedOffset := alignUp current.offset align
    (current.memory + alignedOffset,
      { a with
        blocks := { current with offset := wrap (alignedOffset + size) } :: blocks
        totalAllocated := wrap (a.totalAllocated + size) })

def bumpAllocate (a : Arena) (size align memory : Nat) : Nat × Arena :=
  if a.hasRoom size align then a.place size align else (a.addBlock size memory).place size align

/-- `allocate_raw` -/
def allocateRaw (a : Arena) (size align memory : Nat) : Nat × Arena := a.bumpAllocate size align memory

/-- `allocate`, of a type of this size and alignment, whose destructor may be trivial. -/
def allocate (a : Arena) (size align : Nat) (trivial : Bool) (memory : Nat) : Nat × Arena :=
  let (ptr, a) := a.bumpAllocate size align memory
  (ptr, if trivial then a else { a with destructors := ptr :: a.destructors })

def save (a : Arena) : SavePoint :=
  ⟨a.blocks.length, a.blocks.head?.elim 0 (·.offset), a.destructors.length, a.totalAllocated⟩

/-- What is destroyed, in that order, and the arena. -/
def restore (a : Arena) (sp : SavePoint) : List Nat × Arena :=
  let blocks := a.blocks.drop (a.blocks.length - sp.blockCount)
  (a.destructors.take (a.destructors.length - sp.dtorCount),
    { a with
      destructors := a.destructors.drop (a.destructors.length - sp.dtorCount)
      blocks := match blocks with
        | [] => []
        | back :: rest => if blocks.length = sp.blockCount then { back with offset := sp.blockOffset } :: rest else blocks
      totalAllocated := sp.totalAllocated })

end Arena

/-! ## Arithmetic -/

/-- A power of two, up to that of `std::max_align_t`. -/
def Alignment (align : Nat) : Prop := ∃ k ≤ 4, align = 2 ^ k

theorem mask_eq (x : BitVec 64) (k : Nat) : x &&& ~~~ BitVec.ofNat 64 (2 ^ k - 1) = (x >>> k) <<< k := by
  apply BitVec.eq_of_getLsbD_eq
  intro i hi
  simp only [BitVec.getLsbD_and, BitVec.getLsbD_not, BitVec.getLsbD_ofNat, BitVec.getLsbD_shiftLeft,
    BitVec.getLsbD_ushiftRight, Nat.testBit_two_pow_sub_one, hi, decide_true, Bool.true_and]
  by_cases h : i < k
  · simp [h]
  · simp [h, Nat.add_sub_cancel' (Nat.le_of_not_lt h)]

theorem alignUp_eq {offset align : Nat} (ha : Alignment align) (hlt : offset + maxAlign < 2 ^ 64) :
    alignUp offset align = (offset + align - 1) / align * align := by
  obtain ⟨k, hk, rfl⟩ := ha
  have hpow : 2 ^ k ≤ 2 ^ 4 := Nat.pow_le_pow_right (by decide) hk
  have hle : (offset + 2 ^ k - 1) / 2 ^ k * 2 ^ k ≤ offset + 2 ^ k - 1 := Nat.div_mul_le_self _ _
  unfold maxAlign at hlt
  have hoffset : (BitVec.ofNat 64 (offset + 2 ^ k - 1)).toNat = offset + 2 ^ k - 1 := by
    rw [BitVec.toNat_ofNat, Nat.mod_eq_of_lt (by omega)]
  unfold alignUp
  rw [mask_eq, BitVec.toNat_shiftLeft, BitVec.toNat_ushiftRight, Nat.shiftLeft_eq, Nat.shiftRight_eq_div_pow, hoffset,
    Nat.mod_eq_of_lt (by omega)]

theorem Alignment.pos {align : Nat} (h : Alignment align) : 0 < align := by
  obtain ⟨k, -, rfl⟩ := h
  exact Nat.two_pow_pos k

theorem Alignment.dvd {align : Nat} (h : Alignment align) : align ∣ maxAlign := by
  obtain ⟨k, hk, rfl⟩ := h
  exact Nat.pow_dvd_pow 2 hk

theorem alignUp_spec {offset align : Nat} (ha : Alignment align) (hlt : offset + maxAlign < 2 ^ 64) :
    offset ≤ alignUp offset align ∧ alignUp offset align < offset + maxAlign ∧ align ∣ alignUp offset align := by
  have hpos := ha.pos
  have hle := Nat.le_of_dvd (by decide) ha.dvd
  have hdiv := Nat.div_add_mod (offset + align - 1) align
  have hmod := Nat.mod_lt (offset + align - 1) hpos
  rw [alignUp_eq ha hlt, Nat.mul_comm]
  refine ⟨by omega, by omega, Nat.dvd_mul_right _ _⟩

/-! ## What is allocated -/

structure Region where
  start : Nat
  size : Nat

def Region.Apart (r r' : Region) : Prop := r.start + r.size ≤ r'.start ∨ r'.start + r'.size ≤ r.start

def Block.Apart (b b' : Block) : Prop := b.memory + b.capacity ≤ b'.memory ∨ b'.memory + b'.capacity ≤ b.memory

/-- The region lies in what the block has given away. -/
def Region.In (r : Region) (b : Block) : Prop := b.memory ≤ r.start ∧ r.start + r.size ≤ b.memory + b.offset

/-- A block as `operator new` returns it, filled up to its offset. -/
structure Block.Real (b : Block) : Prop where
  pos : 0 < b.memory
  aligned : maxAlign ∣ b.memory
  bound : b.memory + b.capacity ≤ 2 ^ 64
  offset : b.offset ≤ b.capacity

/-- An arena, and the regions that are allocated, the last one first. -/
structure Snapshot where
  arena : Arena
  live : List Region

structure Snapshot.Good (S : Snapshot) : Prop where
  real : ∀ b ∈ S.arena.blocks, b.Real
  blocks : S.arena.blocks.Pairwise Block.Apart
  inside : ∀ r ∈ S.live, ∃ b ∈ S.arena.blocks, r.In b
  apart : S.live.Pairwise Region.Apart
  total : S.arena.totalAllocated = (S.live.map (·.size)).sum
  used : (S.live.map (·.size)).sum ≤ (S.arena.blocks.map (·.offset)).sum

/-! ### The memory of the blocks -/

/-- Blocks that are apart fill no more than the address space. -/
theorem sum_capacity_lt {blocks : List Block} (hreal : ∀ b ∈ blocks, b.Real) (hapart : blocks.Pairwise Block.Apart) :
    (blocks.map (·.capacity)).sum < 2 ^ 64 := by
  have hcover : ∃ s : Finset Nat, s.card = (blocks.map (·.capacity)).sum ∧
      ∀ x, x ∈ s ↔ ∃ b ∈ blocks, b.memory ≤ x ∧ x < b.memory + b.capacity := by
    induction blocks with
    | nil => exact ⟨∅, rfl, by simp⟩
    | cons b blocks ih =>
      obtain ⟨hb, hblocks⟩ := List.pairwise_cons.mp hapart
      obtain ⟨s, hcard, hmem⟩ := ih (fun c hc => hreal c (List.mem_cons_of_mem _ hc)) hblocks
      have hdisjoint : Disjoint (Finset.Ico b.memory (b.memory + b.capacity)) s := by
        refine Finset.disjoint_left.mpr fun x hx hxs => ?_
        obtain ⟨c, hc, hle, hlt⟩ := (hmem x).mp hxs
        have hx := Finset.mem_Ico.mp hx
        rcases hb c hc with h | h
        · omega
        · omega
      refine ⟨Finset.Ico b.memory (b.memory + b.capacity) ∪ s, ?_, fun x => ?_⟩
      · rw [Finset.card_union_of_disjoint hdisjoint, Nat.card_Ico, hcard, List.map_cons, List.sum_cons]
        omega
      · simp [hmem]
  obtain ⟨s, hcard, hmem⟩ := hcover
  have hsub : s ⊆ Finset.Ico 1 (2 ^ 64) := by
    intro x hx
    obtain ⟨b, hb, hle, hlt⟩ := (hmem x).mp hx
    have hpos := (hreal b hb).pos
    have hbound := (hreal b hb).bound
    exact Finset.mem_Ico.mpr ⟨by omega, by omega⟩
  have hle := Finset.card_le_card hsub
  rw [hcard, Nat.card_Ico] at hle
  omega

theorem sum_offset_le {blocks : List Block} (hreal : ∀ b ∈ blocks, b.Real) :
    (blocks.map (·.offset)).sum ≤ (blocks.map (·.capacity)).sum := by
  induction blocks with
  | nil => exact Nat.le_refl _
  | cons b blocks ih =>
    have hb := (hreal b List.mem_cons_self).offset
    have hrest := ih fun c hc => hreal c (List.mem_cons_of_mem _ hc)
    simp only [List.map_cons, List.sum_cons]
    omega

/-! ## A region is taken -/

/-- A call that `size_t` can count, and for which `operator new`, where it is called, returns memory of its own. -/
structure Allowed (a : Arena) (size align memory : Nat) : Prop where
  alignment : Alignment align
  fits : a.blocks.head?.elim 0 (·.offset) + maxAlign + size < 2 ^ 64
  memory : a.hasRoom size align = false →
    (a.newBlock size memory).Real ∧ ∀ b ∈ a.blocks, (a.newBlock size memory).Apart b

/-- What a region is asked to be. -/
structure Region.Given (r : Region) (a : Arena) (align : Nat) (live : List Region) : Prop where
  inside : ∃ b ∈ a.blocks, r.In b ∧ b.offset ≤ b.capacity
  aligned : align ∣ r.start
  apart : ∀ r' ∈ live, r.Apart r'

section
variable {a : Arena} {live : List Region} {current : Block} {blocks : List Block} {size align memory : Nat}

/-- The last block has the region behind its offset. -/
theorem place_good (hS : Snapshot.Good ⟨a, live⟩) (hblocks : a.blocks = current :: blocks) (ha : Alignment align)
    (hlt : current.offset + maxAlign < 2 ^ 64) (hroom : alignUp current.offset align + size ≤ current.capacity) :
    Snapshot.Good ⟨(a.place size align).2, ⟨(a.place size align).1, size⟩ :: live⟩ ∧
      Region.Given ⟨(a.place size align).1, size⟩ (a.place size align).2 align live := by
  obtain ⟨hle, -, hdvd⟩ := alignUp_spec ha hlt
  have hcurrent : current.Real := hS.real current (by rw [hblocks]; exact List.mem_cons_self)
  have hbound := hcurrent.bound
  have hpos := hcurrent.pos
  have hwrap : wrap (alignUp current.offset align + size) = alignUp current.offset align + size :=
    Nat.mod_eq_of_lt (by omega)
  have hplace : a.place size align = (current.memory + alignUp current.offset align,
      { a with
        blocks := { current with offset := alignUp current.offset align + size } :: blocks
        totalAllocated := wrap (a.totalAllocated + size) }) := by
    unfold Arena.place
    rw [hblocks]
    simp only [hwrap]
  have hreal : ∀ b ∈ { current with offset := alignUp current.offset align + size } :: blocks, b.Real := by
    intro b hb
    rcases List.mem_cons.mp hb with rfl | hb
    · exact { hcurrent with offset := hroom }
    · exact hS.real b (by rw [hblocks]; exact List.mem_cons_of_mem _ hb)
  have hpairs := hS.blocks
  rw [hblocks, List.pairwise_cons] at hpairs
  have hpairs' : ({ current with offset := alignUp current.offset align + size } :: blocks).Pairwise Block.Apart :=
    List.pairwise_cons.mpr ⟨hpairs.1, hpairs.2⟩
  have hused : size + (live.map (·.size)).sum ≤
      (({ current with offset := alignUp current.offset align + size } :: blocks).map (·.offset)).sum := by
    have hused := hS.used
    rw [hblocks] at hused
    simp only [List.map_cons, List.sum_cons] at hused ⊢
    omega
  have hapart : ∀ r ∈ live, Region.Apart ⟨current.memory + alignUp current.offset align, size⟩ r := by
    intro r hr
    obtain ⟨b, hb, hlow, hhigh⟩ := hS.inside r hr
    rw [hblocks] at hb
    rcases List.mem_cons.mp hb with rfl | hb
    · exact .inr (by dsimp only; omega)
    · have hoffset := (hS.real b (by rw [hblocks]; exact List.mem_cons_of_mem _ hb)).offset
      rcases hpairs.1 b hb with h | h
      · exact .inl (by dsimp only; omega)
      · exact .inr (by dsimp only; omega)
  have hin : Region.In ⟨current.memory + alignUp current.offset align, size⟩
      { current with offset := alignUp current.offset align + size } :=
    ⟨Nat.le_add_right _ _, by dsimp only; omega⟩
  rw [hplace]
  refine ⟨{ real := hreal, blocks := hpairs', inside := ?_, apart := List.pairwise_cons.mpr ⟨hapart, hS.apart⟩, total := ?_,
            used := hused }, { inside := ⟨_, List.mem_cons_self, hin, hroom⟩, aligned := ?_, apart := hapart }⟩
  · intro r hr
    rcases List.mem_cons.mp hr with rfl | hr
    · exact ⟨_, List.mem_cons_self, hin⟩
    · obtain ⟨b, hb, hlow, hhigh⟩ := hS.inside r hr
      rw [hblocks] at hb
      rcases List.mem_cons.mp hb with rfl | hb
      · exact ⟨_, List.mem_cons_self, hlow, by dsimp only; omega⟩
      · exact ⟨b, List.mem_cons_of_mem _ hb, hlow, hhigh⟩
  · have hlt := sum_capacity_lt hreal hpairs'
    have hoffsets := sum_offset_le hreal
    have htotal : a.totalAllocated = (live.map (·.size)).sum := hS.total
    show wrap (a.totalAllocated + size) = size + (live.map (·.size)).sum
    rw [htotal, Nat.add_comm]
    exact Nat.mod_eq_of_lt (by omega)
  · exact Nat.dvd_add (ha.dvd.trans hcurrent.aligned) hdvd

/-- A block that is added has nothing yet. -/
theorem addBlock_good (hS : Snapshot.Good ⟨a, live⟩) (hreal : (a.newBlock size memory).Real)
    (hapart : ∀ b ∈ a.blocks, (a.newBlock size memory).Apart b) : Snapshot.Good ⟨a.addBlock size memory, live⟩ where
  real b hb := by
    rcases List.mem_cons.mp hb with rfl | hb
    · exact hreal
    · exact hS.real b hb
  blocks := List.pairwise_cons.mpr ⟨hapart, hS.blocks⟩
  inside r hr := by
    obtain ⟨b, hb, hin⟩ := hS.inside r hr
    exact ⟨b, List.mem_cons_of_mem _ hb, hin⟩
  apart := hS.apart
  total := hS.total
  used := by
    show _ ≤ ((a.newBlock size memory :: a.blocks).map (·.offset)).sum
    rw [List.map_cons, List.sum_cons]
    exact Nat.le_trans hS.used (Nat.le_add_left _ _)

theorem alignUp_zero (ha : Alignment align) : alignUp 0 align = 0 := by
  have hle := Nat.le_of_dvd (by decide) ha.dvd
  have hpos := ha.pos
  rw [alignUp_eq ha (by decide), Nat.div_eq_of_lt (by omega), Nat.zero_mul]

theorem le_nextBlockSize (h : size + maxAlign < 2 ^ 64) : size ≤ a.nextBlockSize size := by
  have hwrap : wrap (size + maxAlign) = size + maxAlign := Nat.mod_eq_of_lt h
  unfold Arena.nextBlockSize
  rw [hwrap]
  exact Nat.le_trans (Nat.le_add_right _ _) (Nat.le_max_right _ _)

theorem bumpAllocate_good (hS : Snapshot.Good ⟨a, live⟩) (h : Allowed a size align memory) :
    Snapshot.Good ⟨(a.bumpAllocate size align memory).2, ⟨(a.bumpAllocate size align memory).1, size⟩ :: live⟩ ∧
      Region.Given ⟨(a.bumpAllocate size align memory).1, size⟩ (a.bumpAllocate size align memory).2 align live := by
  have hfits := h.fits
  unfold Arena.bumpAllocate
  cases hroom : a.hasRoom size align with
  | true =>
    cases hblocks : a.blocks with
    | nil =>
      unfold Arena.hasRoom at hroom
      rw [hblocks] at hroom
      cases hroom
    | cons current blocks =>
      rw [hblocks] at hfits
      have hfits : current.offset + maxAlign + size < 2 ^ 64 := hfits
      have hlt : current.offset + maxAlign < 2 ^ 64 := by omega
      have hspec := alignUp_spec h.alignment hlt
      have hroom : wrap (alignUp current.offset align + size) ≤ current.capacity := by
        unfold Arena.hasRoom at hroom
        rw [hblocks] at hroom
        simpa using hroom
      rw [show wrap (alignUp current.offset align + size) = alignUp current.offset align + size from
        Nat.mod_eq_of_lt (by omega)] at hroom
      exact place_good hS hblocks h.alignment hlt hroom
  | false =>
    obtain ⟨hreal, hapart⟩ := h.memory hroom
    refine place_good (addBlock_good hS hreal hapart) rfl h.alignment (show 0 + maxAlign < 2 ^ 64 by decide) ?_
    show alignUp 0 align + size ≤ a.nextBlockSize size
    rw [alignUp_zero h.alignment, Nat.zero_add]
    exact le_nextBlockSize (by omega)

end

/-! ## Save points -/

/-- What a save point saw is still there, below what came after it: in the last block of then, only the offset has moved. -/
structure Extends (S T : Snapshot) : Prop where
  blocks : S.arena.blocks = [] ∨ ∃ front b offset rest, S.arena.blocks = b :: rest ∧
    T.arena.blocks = front ++ { b with offset := offset } :: rest
  destructors : S.arena.destructors <:+ T.arena.destructors
  live : S.live <:+ T.live
  size : S.arena.defaultBlockSize = T.arena.defaultBlockSize

theorem Extends.refl (S : Snapshot) : Extends S S where
  blocks := by
    cases h : S.arena.blocks with
    | nil => exact .inl rfl
    | cons b rest => exact .inr ⟨[], b, b.offset, rest, rfl, rfl⟩
  destructors := List.suffix_refl _
  live := List.suffix_refl _
  size := rfl

theorem Extends.trans {S T U : Snapshot} (h : Extends S T) (h' : Extends T U) : Extends S U where
  blocks := by
    rcases h.blocks with hnil | ⟨front, b, offset, rest, hS, hT⟩
    · exact .inl hnil
    · rcases h'.blocks with hnil | ⟨front', b', offset', rest', hT', hU⟩
      · rw [hT] at hnil
        exact absurd (List.append_eq_nil_iff.mp hnil).2 (List.cons_ne_nil _ _)
      · rw [hT] at hT'
        cases front with
        | nil =>
          obtain ⟨rfl, rfl⟩ := List.cons.inj hT'
          exact .inr ⟨front', b, offset', rest, hS, hU⟩
        | cons c front =>
          obtain ⟨rfl, rfl⟩ := List.cons.inj hT'
          exact .inr ⟨front' ++ { c with offset := offset' } :: front, b, offset, rest, hS, by rw [hU]; simp⟩
  destructors := h.destructors.trans h'.destructors
  live := h.live.trans h'.live
  size := h.size.trans h'.size

theorem drop_suffix {α : Type} {s t : List α} (h : s <:+ t) : t.drop (t.length - s.length) = s := by
  obtain ⟨w, rfl⟩ := h
  rw [List.length_append, Nat.add_sub_cancel]
  exact List.drop_left

theorem restore_blocks {S T : Snapshot} (h : Extends S T) :
    (T.arena.restore S.arena.save).2.blocks = S.arena.blocks := by
  unfold Arena.restore Arena.save
  dsimp only
  rcases h.blocks with hnil | ⟨front, b, offset, rest, hS, hT⟩
  · rw [hnil, List.length_nil, Nat.sub_zero, List.drop_length]
  · have hdrop : T.arena.blocks.drop (T.arena.blocks.length - S.arena.blocks.length) = { b with offset := offset } :: rest := by
      rw [hT, hS, List.length_append, List.length_cons, List.length_cons, Nat.add_sub_cancel]
      exact List.drop_left
    rw [hdrop, hS]
    simp

/-- **Restoring** gives the arena of the save point, and destroys what was made since. -/
theorem restore_save {S T : Snapshot} (h : Extends S T) : (T.arena.restore S.arena.save).2 = S.arena ∧
    (T.arena.restore S.arena.save).1 ++ S.arena.destructors = T.arena.destructors := by
  have hdrop := drop_suffix h.destructors
  constructor
  · have hblocks := restore_blocks h
    obtain ⟨⟨blocks, destructors, size, total⟩, live⟩ := S
    show Arena.mk (T.arena.restore _).2.blocks (T.arena.destructors.drop (T.arena.destructors.length - destructors.length))
      T.arena.defaultBlockSize total = _
    rw [hblocks, hdrop, ← h.size]
  · refine Eq.trans ?_ (List.take_append_drop (T.arena.destructors.length - S.arena.destructors.length) T.arena.destructors)
    rw [hdrop]
    rfl

theorem place_extends {a : Arena} {live : List Region} {size align : Nat} (r : Region) :
    Extends ⟨a, live⟩ ⟨(a.place size align).2, r :: live⟩ := by
  unfold Arena.place
  split
  next hnil =>
    exact { blocks := .inl hnil, destructors := List.suffix_refl _, live := List.suffix_cons _ _, size := rfl }
  next current blocks hblocks =>
    exact { blocks := .inr ⟨[], current, _, blocks, hblocks, rfl⟩, destructors := List.suffix_refl _,
            live := List.suffix_cons _ _, size := rfl }

theorem addBlock_extends {a : Arena} {live : List Region} {size memory : Nat} :
    Extends ⟨a, live⟩ ⟨a.addBlock size memory, live⟩ where
  blocks := by
    cases h : a.blocks with
    | nil => exact .inl rfl
    | cons b rest => exact .inr ⟨[a.newBlock size memory], b, b.offset, rest, rfl, by rw [Arena.addBlock, h]; rfl⟩
  destructors := List.suffix_refl _
  live := List.suffix_refl _
  size := rfl

theorem bumpAllocate_extends (a : Arena) (live : List Region) (size align memory : Nat) (r : Region) :
    Extends ⟨a, live⟩ ⟨(a.bumpAllocate size align memory).2, r :: live⟩ := by
  unfold Arena.bumpAllocate
  split
  · exact place_extends r
  · exact addBlock_extends.trans (place_extends r)

/-! ## Runs -/

inductive Op
  | allocateRaw (size align memory : Nat)
  | allocate (size align : Nat) (trivial : Bool) (memory : Nat)
  | save
  /-- To the n-th of the save points that no restore has taken back, the last one first. -/
  | restore (n : Nat)

/-- The arena with its regions, now and at each save point that is left. -/
structure State where
  now : Snapshot
  saves : List Snapshot

/-- An arena with blocks of a size. -/
def State.start (defaultBlockSize : Nat) : State := ⟨⟨{ defaultBlockSize }, []⟩, []⟩

/-- The region that a call returns, with the arena. -/
def State.allocated (S : State) (size : Nat) (r : Nat × Arena) : State := { S with now := ⟨r.2, ⟨r.1, size⟩ :: S.now.live⟩ }

def State.step (S : State) : Op → State
  | .allocateRaw size align memory => S.allocated size (S.now.arena.allocateRaw size align memory)
  | .allocate size align trivial memory => S.allocated size (S.now.arena.allocate size align trivial memory)
  | .save => { S with saves := S.now :: S.saves }
  | .restore n =>
    match S.saves.drop n with
    | [] => S
    | saved :: older => ⟨⟨(S.now.arena.restore saved.arena.save).2, saved.live⟩, saved :: older⟩

def State.Allows (S : State) : Op → Prop
  | .allocateRaw size align memory | .allocate size align _ memory => Allowed S.now.arena size align memory
  | .save => True
  | .restore n => n < S.saves.length

inductive Reachable (defaultBlockSize : Nat) : State → Prop
  | start : Reachable defaultBlockSize (.start defaultBlockSize)
  | step {S : State} {op : Op} : Reachable defaultBlockSize S → S.Allows op → Reachable defaultBlockSize (S.step op)

/-- What is asked of a call. -/
def State.StepRight (S : State) : Op → Prop
  | .allocateRaw size align memory =>
    Region.Given ⟨(S.now.arena.allocateRaw size align memory).1, size⟩ (S.now.arena.allocateRaw size align memory).2 align
      S.now.live
  | .allocate size align trivial memory =>
    Region.Given ⟨(S.now.arena.allocate size align trivial memory).1, size⟩
      (S.now.arena.allocate size align trivial memory).2 align S.now.live
  | .save => True
  | .restore n => ∀ saved ∈ (S.saves.drop n).head?,
    (S.now.arena.restore saved.arena.save).2 = saved.arena ∧
      (S.now.arena.restore saved.arena.save).1 ++ saved.arena.destructors = S.now.arena.destructors

/-- The arena is good now and at each save point, and each extends the older ones. -/
structure State.Inv (S : State) : Prop where
  good : ∀ T ∈ S.now :: S.saves, T.Good
  extends_ : (S.now :: S.saves).Pairwise fun newer older => Extends older newer

theorem allocate_extends {a : Arena} {live : List Region} {size align memory : Nat} {trivial : Bool} (r : Region) :
    Extends ⟨a, live⟩ ⟨(a.allocate size align trivial memory).2, r :: live⟩ := by
  have h := bumpAllocate_extends a live size align memory r
  cases trivial with
  | true => exact h
  | false => exact { h with destructors := h.destructors.trans (List.suffix_cons _ _) }

theorem allocate_good {a : Arena} {live : List Region} {size align memory : Nat} {trivial : Bool}
    (hS : Snapshot.Good ⟨a, live⟩) (h : Allowed a size align memory) :
    Snapshot.Good ⟨(a.allocate size align trivial memory).2, ⟨(a.allocate size align trivial memory).1, size⟩ :: live⟩ ∧
      Region.Given ⟨(a.allocate size align trivial memory).1, size⟩ (a.allocate size align trivial memory).2 align live := by
  obtain ⟨hgood, hgiven⟩ := bumpAllocate_good hS h
  cases trivial with
  | true => exact ⟨hgood, hgiven⟩
  | false => exact ⟨{ hgood with }, { hgiven with }⟩

theorem State.Inv.grown {S : State} {T : Snapshot} (h : S.Inv) (hgood : T.Good) (hext : Extends S.now T) :
    State.Inv { S with now := T } where
  good U hU := by
    rcases List.mem_cons.mp hU with rfl | hU
    · exact hgood
    · exact h.good U (List.mem_cons_of_mem _ hU)
  extends_ := by
    obtain ⟨hnow, hsaves⟩ := List.pairwise_cons.mp h.extends_
    exact List.pairwise_cons.mpr ⟨fun U hU => (hnow U hU).trans hext, hsaves⟩

theorem step_inv {S : State} {op : Op} (h : S.Inv) (hallows : S.Allows op) : (S.step op).Inv := by
  have hnow := h.good S.now List.mem_cons_self
  cases op with
  | allocateRaw size align memory =>
    exact h.grown (bumpAllocate_good hnow hallows).1 (bumpAllocate_extends _ _ _ _ _ _)
  | allocate size align trivial memory =>
    exact h.grown (allocate_good hnow hallows).1 (allocate_extends _)
  | save =>
    refine { good := fun T hT => ?_, extends_ := ?_ }
    · rcases List.mem_cons.mp hT with rfl | hT
      · exact hnow
      · exact h.good T hT
    · refine List.pairwise_cons.mpr ⟨fun T hT => ?_, h.extends_⟩
      rcases List.mem_cons.mp hT with rfl | hT
      · exact Extends.refl _
      · exact (List.pairwise_cons.mp h.extends_).1 T hT
  | restore n =>
    unfold State.step
    dsimp only
    split
    next => exact h
    next saved older hdrop =>
      have hsuffix : saved :: older <:+ S.saves := hdrop ▸ List.drop_suffix _ _
      have hmem : saved ∈ S.saves := hsuffix.subset List.mem_cons_self
      have hrestored := (restore_save ((List.pairwise_cons.mp h.extends_).1 saved hmem)).1
      rw [hrestored]
      have hpairs := (List.pairwise_cons.mp h.extends_).2.sublist hsuffix.sublist
      refine { good := fun T hT => ?_, extends_ := List.pairwise_cons.mpr ⟨fun T hT => ?_, hpairs⟩ }
      · rcases List.mem_cons.mp hT with rfl | hT
        · exact h.good saved (List.mem_cons_of_mem _ hmem)
        · exact h.good T (List.mem_cons_of_mem _ (hsuffix.subset hT))
      · rcases List.mem_cons.mp hT with rfl | hT
        · exact Extends.refl _
        · exact (List.pairwise_cons.mp hpairs).1 T hT

theorem reachable_inv {defaultBlockSize : Nat} {S : State} (h : Reachable defaultBlockSize S) : S.Inv := by
  induction h with
  | start =>
    refine { good := fun T hT => ?_, extends_ := List.pairwise_singleton _ _ }
    obtain rfl := List.mem_singleton.mp hT
    exact { real := nofun, blocks := .nil, inside := nofun, apart := .nil, total := rfl, used := Nat.le_refl _ }
  | step _ hallows ih => exact step_inv ih hallows

/-- **The arena.** In every state of a run the regions lie in their blocks, apart from each other, and their sizes add up to
`bytes_allocated`; a call returns an aligned region apart from these, and a restore gives back what was saved. -/
theorem arena_right {defaultBlockSize : Nat} {S : State} (h : Reachable defaultBlockSize S) :
    S.now.Good ∧ ∀ op, S.Allows op → S.StepRight op := by
  have hinv := reachable_inv h
  have hnow := hinv.good S.now List.mem_cons_self
  refine ⟨hnow, fun op hallows => ?_⟩
  cases op with
  | allocateRaw size align memory => exact (bumpAllocate_good hnow hallows).2
  | allocate size align trivial memory => exact (allocate_good hnow hallows).2
  | save => trivial
  | restore n =>
    intro saved hsaved
    have hmem : saved ∈ S.saves := List.mem_of_mem_drop (List.mem_of_mem_head? hsaved)
    exact restore_save ((List.pairwise_cons.mp hinv.extends_).1 saved hmem)

/-- The first region of an arena, and a restore to before it. -/
theorem arena_right_first : ((State.start 65536).step .save |>.step (.allocateRaw 24 8 4096)).now.Good ∧
    ((State.start 65536).step .save |>.step (.allocateRaw 24 8 4096)).StepRight (.restore 0) := by
  have hallows : ((State.start 65536).step .save).Allows (.allocateRaw 24 8 4096) :=
    { alignment := ⟨3, by decide, rfl⟩, fits := by decide,
      memory := fun _ => ⟨⟨by decide, by decide, by decide, by decide⟩, nofun⟩ }
  have hsaved : Reachable 65536 ((State.start 65536).step .save) := .step .start True.intro
  have h := arena_right (.step hsaved hallows)
  exact ⟨h.1, h.2 (.restore 0) Nat.zero_lt_one⟩

/-- A save point that a restore to an older one has taken back: its block is gone. -/
theorem restored_too_late : ∃ first second : Arena, second = (first.allocateRaw 24 8 4096).2 ∧
    (((second.restore first.save).2.restore second.save).2.blocks.length ≠ second.save.blockCount) :=
  ⟨{}, _, rfl, by decide⟩

end Pylang.Memory
