/-
Byte formats. A reader takes what it needs off the front of a stream and may
fail; an encoder may refuse a value. `Keeps` says which values of an encoder
its reader gives back whatever follows them, and that it gives back no other.
-/
import Mathlib.Data.List.Basic
import Mathlib.Algebra.Order.Group.Nat

namespace Pylang

abbrev Byte := BitVec 8

/-- What is read and what is left of the stream, or a failure. -/
abbrev Reader := StateT (List Byte) Option

/-- The bytes of a value, unless it is refused. -/
abbrev Encoder (α : Type) := α → Option (List Byte)

/-- The reader takes these bytes off for that value. -/
def Reads {α : Type} (r : Reader α) (bytes : List Byte) (a : α) : Prop := ∀ rest, r.run (bytes ++ rest) = some (a, rest)

/-- From these bytes the reader never gets that value. -/
def Misses {α : Type} (r : Reader α) (bytes : List Byte) (a : α) : Prop :=
  ∀ rest rest', r.run (bytes ++ rest) ≠ some (a, rest')

/-- The reader gives back the values of `K`, and no other. -/
structure Keeps {α : Type} (e : Encoder α) (r : Reader α) (K : α → Prop) : Prop where
  encodes : ∀ {a}, K a → ∃ bytes, e a = some bytes
  reads : ∀ {a bytes}, K a → e a = some bytes → Reads r bytes a
  misses : ∀ {a bytes}, ¬ K a → e a = some bytes → Misses r bytes a

/-- The bytes of parts that follow each other. -/
def concat : List (Option (List Byte)) → Option (List Byte)
  | [] => some []
  | part :: parts => do
    let bytes ← part
    let rest ← concat parts
    some (bytes ++ rest)

/-- A vector, with a length of 64 bits. -/
structure Vec (α : Type) where
  elements : List α
  length_lt : elements.length < 2 ^ 64
  deriving DecidableEq

namespace Reader

def byte : Reader Byte := fun
  | [] => none
  | b :: rest => some (b, rest)

def times {α : Type} (r : Reader α) : Nat → Reader (List α)
  | 0 => pure []
  | n + 1 => do
    let a ← r
    let l ← times r n
    pure (a :: l)

/-- The number whose bytes these are, the lowest first. -/
def ofBytes : List Byte → Nat
  | [] => 0
  | b :: rest => b.toNat + 256 * ofBytes rest

def word (w : Nat) : Reader (BitVec w) := do
  let l ← times byte (w / 8)
  pure (BitVec.ofNat w (ofBytes l))

def vec {α : Type} (r : Reader α) : Reader (Vec α) := do
  let n ← word 64
  let l ← times r n.toNat
  if h : l.length < 2 ^ 64 then pure ⟨l, h⟩ else failure

/-- Values up to the end of the stream, at most `n`. -/
def untilEnd {α : Type} (r : Reader α) : Nat → List Byte → Option (List α)
  | _, [] => some []
  | 0, _ :: _ => none
  | n + 1, b :: s =>
    match r.run (b :: s) with
    | none => none
    | some (a, s') => (untilEnd r n s').map (a :: ·)

end Reader

namespace Encoder

def byte : Encoder Byte := fun b => some [b]

def toBytes : Nat → Nat → List Byte
  | 0, _ => []
  | n + 1, v => BitVec.ofNat 8 v :: toBytes n (v / 256)

def word (w : Nat) : Encoder (BitVec w) := fun x => some (toBytes (w / 8) x.toNat)

def vec {α : Type} (e : Encoder α) : Encoder (Vec α) := fun v =>
  concat [word 64 (BitVec.ofNat 64 v.elements.length), concat (v.elements.map e)]

end Encoder

variable {α β : Type} {r : Reader α} {f : α → Reader β} {e : Encoder α} {K : α → Prop} {a : α} {b : β}
  {bytes bytes' s s' : List Byte}

theorem Reader.bind_eq_some :
    (r >>= f).run s = some (b, s') ↔ ∃ a s₁, r.run s = some (a, s₁) ∧ (f a).run s₁ = some (b, s') := by
  rw [StateT.run_bind]
  cases r.run s with
  | none => simp
  | some p =>
    obtain ⟨a, s₁⟩ := p
    simp

theorem Reader.pure_eq_some {a' : α} : (pure a : Reader α).run s = some (a', s') ↔ a = a' ∧ s = s' := by
  rw [StateT.run_pure]
  simp

theorem Reads.pure (a : α) : Reads (Pure.pure a) [] a := fun _ => rfl

theorem Reads.run_bind (h : Reads r bytes a) (rest : List Byte) : (r >>= f).run (bytes ++ rest) = (f a).run rest := by
  rw [StateT.run_bind, h]
  rfl

theorem Reads.map {γ : Type} (h : Reads r bytes a) (g : α → γ) : Reads (r >>= fun a => Pure.pure (g a)) bytes (g a) := by
  intro rest
  rw [h.run_bind]
  rfl

/-- Bytes that follow each other. -/
theorem Reads.bind (h : Reads r bytes a) (h' : Reads (f a) bytes' b) : Reads (r >>= f) (bytes ++ bytes') b := by
  intro rest
  rw [List.append_assoc, h.run_bind]
  exact h' rest

theorem concat_cons_eq_some {part : Option (List Byte)} {parts : List (Option (List Byte))} :
    concat (part :: parts) = some bytes ↔ ∃ x y, part = some x ∧ concat parts = some y ∧ bytes = x ++ y := by
  rw [concat]
  cases part with
  | none => simp
  | some x =>
    cases concat parts with
    | none => simp
    | some y => simp [eq_comm]

/-! ### Parts that follow each other -/

theorem concat_isSome {parts : List (Option (List Byte))} (h : ∀ part ∈ parts, ∃ bytes, part = some bytes) :
    ∃ bytes, concat parts = some bytes := by
  induction parts with
  | nil => exact ⟨[], rfl⟩
  | cons part parts ih =>
    obtain ⟨x, rfl⟩ := h part List.mem_cons_self
    obtain ⟨y, hy⟩ := ih fun p hp => h p (List.mem_cons_of_mem _ hp)
    exact ⟨x ++ y, concat_cons_eq_some.mpr ⟨x, y, rfl, hy, rfl⟩⟩

section Parts

variable {part : Option (List Byte)} {parts : List (Option (List Byte))}

/-- The parts are given back one after the other. -/
def ReadsAll (parts : List (Option (List Byte))) (r : Reader α) (a : α) : Prop :=
  ∀ bytes, concat parts = some bytes → Reads r bytes a

theorem ReadsAll.nil (a : α) : ReadsAll [] (pure a) a := fun _ h => by
  cases h
  exact .pure a

theorem ReadsAll.cons (h : ∀ {x}, part = some x → Reads r x a) (hs : ReadsAll parts (f a) b) :
    ReadsAll (part :: parts) (r >>= f) b := fun _ hb => by
  obtain ⟨x, y, hx, hy, rfl⟩ := concat_cons_eq_some.mp hb
  exact (h hx).bind (hs y hy)

/-- A part is not given back. -/
def MissesSome (parts : List (Option (List Byte))) (r : Reader α) (a : α) : Prop :=
  ∀ bytes, concat parts = some bytes → Misses r bytes a

theorem MissesSome.tail (h : ∀ {x}, part = some x → Reads r x a) (hs : MissesSome parts (f a) b) :
    MissesSome (part :: parts) (r >>= f) b := fun _ hb rest rest' hrun => by
  obtain ⟨x, y, hx, hy, rfl⟩ := concat_cons_eq_some.mp hb
  rw [List.append_assoc, (h hx).run_bind] at hrun
  exact hs y hy rest rest' hrun

/-- What follows a part keeps it in the result. -/
theorem MissesSome.head (h : ∀ {x}, part = some x → Misses r x a)
    (hkeep : ∀ {a' s s'}, (f a').run s = some (b, s') → a' = a) : MissesSome (part :: parts) (r >>= f) b :=
  fun _ hb rest rest' hrun => by
    obtain ⟨x, y, hx, hy, rfl⟩ := concat_cons_eq_some.mp hb
    obtain ⟨a', s, ha, hrun⟩ := Reader.bind_eq_some.mp hrun
    obtain rfl := hkeep hrun
    rw [List.append_assoc] at ha
    exact h hx _ _ ha

end Parts

/-! ### Bytes and words -/

theorem Keeps.of_reads (h : ∀ a, K a → ∃ bytes, e a = some bytes ∧ Reads r bytes a)
    (hm : ∀ {a bytes}, ¬ K a → e a = some bytes → Misses r bytes a) : Keeps e r K where
  encodes := fun {a} hk => by
    obtain ⟨bytes, hb, -⟩ := h a hk
    exact ⟨bytes, hb⟩
  reads := fun {a bytes} hk hb => by
    obtain ⟨bytes', hb', hread⟩ := h a hk
    rw [hb'] at hb
    exact Option.some.inj hb ▸ hread
  misses := hm

theorem keeps_of_reads (h : ∀ a, ∃ bytes, e a = some bytes ∧ Reads r bytes a) : Keeps e r fun _ => True :=
  .of_reads (fun a _ => h a) fun hk => absurd trivial hk

theorem length_toBytes (n v : Nat) : (Encoder.toBytes n v).length = n := by
  induction n generalizing v with
  | zero => rfl
  | succ n ih => simp [Encoder.toBytes, ih]

theorem ofBytes_toBytes (n v : Nat) : Reader.ofBytes (Encoder.toBytes n v) = v % 256 ^ n := by
  induction n generalizing v with
  | zero => simp [Encoder.toBytes, Reader.ofBytes, Nat.mod_one]
  | succ n ih =>
    have hbyte : 2 ^ 8 = 256 := rfl
    rw [Encoder.toBytes, Reader.ofBytes, ih, BitVec.toNat_ofNat, hbyte, pow_succ' 256 n, Nat.mod_mul]

theorem reads_byte (b : Byte) : Reads Reader.byte [b] b := fun _ => rfl

theorem keeps_byte : Keeps Encoder.byte Reader.byte fun _ => True := keeps_of_reads fun b => ⟨_, rfl, reads_byte b⟩

theorem reads_bytes (l : List Byte) : Reads (Reader.byte.times l.length) l l := by
  induction l with
  | nil => exact .pure _
  | cons b l ih => exact (reads_byte b).bind (ih.map (b :: ·))

theorem reads_word {w : Nat} (hw : 8 ∣ w) (x : BitVec w) :
    Reads (Reader.word w) (Encoder.toBytes (w / 8) x.toNat) x := by
  have hread := reads_bytes (Encoder.toBytes (w / 8) x.toNat)
  rw [length_toBytes] at hread
  have hvalue : BitVec.ofNat w (Reader.ofBytes (Encoder.toBytes (w / 8) x.toNat)) = x := by
    have hpow : 256 ^ (w / 8) = 2 ^ w := by
      rw [show 256 = 2 ^ 8 from rfl, ← pow_mul, Nat.mul_div_cancel' hw]
    rw [ofBytes_toBytes, hpow, Nat.mod_eq_of_lt x.isLt, BitVec.ofNat_toNat, BitVec.setWidth_eq]
  have hmap := hread.map fun l => BitVec.ofNat w (Reader.ofBytes l)
  rwa [hvalue] at hmap

theorem keeps_word {w : Nat} (hw : 8 ∣ w) : Keeps (Encoder.word w) (Reader.word w) fun _ => True :=
  keeps_of_reads fun x => ⟨_, rfl, reads_word hw x⟩

/-! ### Lists and vectors -/

/-- Where each element is given back, so is the list. -/
theorem Keeps.reads_times (h : Keeps e r K) {l : List α} (hl : ∀ a ∈ l, K a) :
    ∀ {bytes}, concat (l.map e) = some bytes → Reads (r.times l.length) bytes l := by
  induction l with
  | nil =>
    intro bytes hb
    cases hb
    exact .pure _
  | cons a l ih =>
    intro bytes hb
    obtain ⟨x, y, hx, hy, rfl⟩ := concat_cons_eq_some.mp hb
    have htail := ih (fun b hm => hl b (List.mem_cons_of_mem a hm)) hy
    exact (h.reads (hl a List.mem_cons_self) hx).bind (htail.map (a :: ·))

/-- Where one is not, neither is the list. -/
theorem Keeps.misses_times (h : Keeps e r K) {l : List α} (hl : ¬ ∀ a ∈ l, K a) :
    ∀ {bytes}, concat (l.map e) = some bytes → Misses (r.times l.length) bytes l := by
  induction l with
  | nil => exact absurd (fun _ hm => nomatch hm) hl
  | cons a l ih =>
    intro bytes hb rest rest' hrun
    obtain ⟨x, y, hx, hy, rfl⟩ := concat_cons_eq_some.mp hb
    obtain ⟨a', s, ha, hrun⟩ := Reader.bind_eq_some.mp hrun
    obtain ⟨l', s', hl', hrun⟩ := Reader.bind_eq_some.mp hrun
    obtain ⟨hcons, rfl⟩ := Reader.pure_eq_some.mp hrun
    obtain ⟨rfl, rfl⟩ := List.cons_eq_cons.mp hcons
    rw [List.append_assoc] at ha
    by_cases hk : K a'
    · rw [h.reads hk hx] at ha
      cases ha
      exact ih (fun hall => hl (List.forall_mem_cons.mpr ⟨hk, hall⟩)) hy rest _ hl'
    · exact h.misses hk hx _ _ ha

theorem Keeps.encodes_all (h : Keeps e r K) {l : List α} (hl : ∀ a ∈ l, K a) : ∃ bytes, concat (l.map e) = some bytes := by
  refine concat_isSome fun part hpart => ?_
  obtain ⟨a, ha, rfl⟩ := List.mem_map.mp hpart
  exact h.encodes (hl a ha)

theorem vec_eq_some {v : Vec α} :
    Encoder.vec e v = some bytes ↔
      ∃ y, concat (v.elements.map e) = some y ∧
        bytes = Encoder.toBytes 8 (BitVec.ofNat 64 v.elements.length).toNat ++ y := by
  unfold Encoder.vec
  rw [concat_cons_eq_some]
  constructor
  · intro h
    obtain ⟨x, z, hx, hz, rfl⟩ := h
    obtain ⟨y, w, hy, hw, rfl⟩ := concat_cons_eq_some.mp hz
    cases hx
    cases hw
    exact ⟨y, hy, by simp⟩
  · intro h
    obtain ⟨y, hy, rfl⟩ := h
    exact ⟨_, y, rfl, concat_cons_eq_some.mpr ⟨y, [], hy, rfl, by simp⟩, rfl⟩

theorem length_toNat (v : Vec α) : (BitVec.ofNat 64 v.elements.length).toNat = v.elements.length := by
  rw [BitVec.toNat_ofNat, Nat.mod_eq_of_lt v.length_lt]

theorem Keeps.vec (h : Keeps e r K) : Keeps (Encoder.vec e) (Reader.vec r) fun v => ∀ a ∈ v.elements, K a where
  encodes := fun hv => by
    obtain ⟨y, hy⟩ := h.encodes_all hv
    exact ⟨_, vec_eq_some.mpr ⟨y, hy, rfl⟩⟩
  reads := fun {v bytes} hv hb => by
    obtain ⟨y, hy, rfl⟩ := vec_eq_some.mp hb
    refine (reads_word (by decide) _).bind ?_
    rw [length_toNat]
    have hlength := v.length_lt
    intro rest
    rw [StateT.run_bind, h.reads_times hv hy]
    simp only [Option.bind_eq_bind, Option.bind_some, dif_pos hlength]
    rfl
  misses := fun {v bytes} hv hb rest rest' hrun => by
    obtain ⟨y, hy, rfl⟩ := vec_eq_some.mp hb
    rw [List.append_assoc] at hrun
    unfold Reader.vec at hrun
    rw [(reads_word (by decide) (BitVec.ofNat 64 v.elements.length)).run_bind] at hrun
    obtain ⟨l, s, hl, hrun⟩ := Reader.bind_eq_some.mp hrun
    rw [length_toNat] at hl
    split at hrun
    · obtain ⟨rfl, -⟩ := Reader.pure_eq_some.mp hrun
      exact h.misses_times hv hy rest s hl
    · cases hrun

/-- A vector of what always comes back. -/
theorem Keeps.vec_all (h : Keeps e r fun _ => True) : Keeps (Encoder.vec e) (Reader.vec r) fun _ => True :=
  keeps_of_reads fun v => by
    obtain ⟨bytes, hb⟩ := h.vec.encodes (a := v) fun _ _ => trivial
    exact ⟨bytes, hb, h.vec.reads (fun _ _ => trivial) hb⟩

/-! ### Values up to the end -/

theorem length_le_concat (hne : ∀ a, e a ≠ some []) {l : List α} :
    ∀ {bytes}, concat (l.map e) = some bytes → l.length ≤ bytes.length := by
  induction l with
  | nil => exact fun _ => Nat.zero_le _
  | cons a l ih =>
    intro bytes hb
    obtain ⟨x, y, hx, hy, rfl⟩ := concat_cons_eq_some.mp hb
    have hpos : 0 < x.length := List.length_pos_iff.mpr fun hnil => hne a (hnil ▸ hx)
    have hle := ih hy
    rw [List.length_cons, List.length_append]
    omega

/-- All are given back if and only if each is. -/
theorem Keeps.untilEnd_eq_some (h : Keeps e r K) (hne : ∀ a, e a ≠ some []) {l : List α} :
    ∀ {bytes n}, concat (l.map e) = some bytes → l.length ≤ n →
      (Reader.untilEnd r n bytes = some l ↔ ∀ a ∈ l, K a) := by
  induction l with
  | nil =>
    intro bytes n hb hn
    cases hb
    exact iff_of_true (by cases n <;> rfl) fun _ hm => nomatch hm
  | cons a l ih =>
    intro bytes n hb hn
    obtain ⟨x, y, hx, hy, rfl⟩ := concat_cons_eq_some.mp hb
    obtain ⟨b, x, rfl⟩ : ∃ b z, x = b :: z := List.exists_cons_of_ne_nil fun hnil => hne a (hnil ▸ hx)
    obtain ⟨n, rfl⟩ : ∃ m, n = m + 1 := ⟨n - 1, by simp at hn; omega⟩
    rw [List.forall_mem_cons, List.cons_append, Reader.untilEnd]
    by_cases hk : K a
    · have hrun := h.reads hk hx y
      rw [List.cons_append] at hrun
      simp only [hrun, Option.map_eq_some_iff, hk, true_and, ← ih hy (Nat.le_of_succ_le_succ hn)]
      simp
    · refine iff_of_false (fun hsome => ?_) fun hall => hk hall.1
      split at hsome
      · cases hsome
      · next a' s hrun =>
        obtain ⟨l', -, hcons⟩ := Option.map_eq_some_iff.mp hsome
        obtain ⟨rfl, rfl⟩ := List.cons_eq_cons.mp hcons
        exact h.misses hk hx y s hrun

end Pylang
