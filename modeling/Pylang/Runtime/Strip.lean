/-
`PyString::strip` and `PyString::rstrip`. The scans for characters of a set stop
at one that is not in it, and nowhere else; there is no `lstrip`.
-/
import Pylang.Runtime.StrSplit

namespace Pylang.Runtime.Strip

open StrSplit (isspace isAsciiSpace isspace_ascii not_isspace)

inductive StripStop where
  | typeError (message : String)
  | attributeError (message : String)
  /-- An assertion fails. -/
  | abort
  /-- An iterator is read at the end, or a string is made of an inverted range. -/
  | undefined
  deriving DecidableEq

/-- The argument; `none` where there is none. -/
inductive CharsArg where
  | none
  | str (value : Bytes)
  | other
  deriving DecidableEq

def codepointsOf (value : Bytes) : Except StripStop (List Nat) :=
  match codepoints value with
  | some cps => .ok cps
  | none => .error .abort

def charsOf : CharsArg → Except StripStop (List Nat)
  | .none => .ok []
  | .str value => codepointsOf value
  | .other => .error (.typeError "")

/-- `utf8::codepoint_length` of a code point. -/
def codepointBytes (cp : Nat) : Except StripStop Nat :=
  if cp ≤ 0x7F then .ok 1
  else if cp ≤ 0x7FF then .ok 2
  else if cp ≤ 0xFFFF then .ok 3
  else if cp ≤ 0x10FFFF then .ok 4
  else .error .abort

/-- `while (contains(*it))`, with the bytes that it passes. -/
def scan (patterns : List Nat) : List Nat → Nat → Except StripStop Nat
  | [], _ => .error .undefined
  | cp :: cps, index =>
    if cp ∈ patterns then do
      let length ← codepointBytes cp
      scan patterns cps (index + length)
    else .ok index

/-- The number of bytes before the first that is no space. -/
def leadingSpace (value : Bytes) : Nat := (value.takeWhile isspace).length

/-- `PyString::strip`. -/
def strip (value : Bytes) (charsArg : CharsArg) : Except StripStop Bytes := do
  let chars ← charsOf charsArg
  if chars = [] then
    let start := leadingSpace value
    let stop := value.length - leadingSpace value.reverse
    if start = 0 ∧ stop = 0 then .ok value
    else if stop < start then .error .undefined
    else .ok ((value.drop start).take (stop - start))
  else do
    let cps ← codepointsOf value
    let start ← scan chars cps 0
    let skipped ← scan chars cps.reverse 0
    let stop := value.length - skipped
    if start = 0 ∧ stop = value.length then .ok value
    else if stop < start then .error .abort
    else .ok ((value.drop start).take (stop - start))

/-- `PyString::rstrip`. -/
def rstrip (value : Bytes) (charsArg : CharsArg) : Except StripStop Bytes := do
  let chars ← charsOf charsArg
  if chars = [] then
    let idx := value.length - leadingSpace value.reverse
    if idx ≠ 0 then .ok (value.take idx) else .ok value
  else do
    let cps ← codepointsOf value
    let skipped ← scan chars cps.reverse 0
    if skipped = 0 then .ok value else .ok (value.take (value.length - skipped))

inductive Method where
  | strip
  | rstrip
  | lstrip
  deriving DecidableEq

def Method.name : Method → String
  | strip => "strip"
  | rstrip => "rstrip"
  | lstrip => "lstrip"

/-- The method that `str` has under the name; `lstrip` is not among those that `klass<PyString>` is given. -/
def method? : Method → Option (Bytes → CharsArg → Except StripStop Bytes)
  | .strip => some strip
  | .rstrip => some rstrip
  | .lstrip => none

def call (value : Bytes) (method : Method) (arg : CharsArg) : Except StripStop Bytes :=
  match method? method with
  | some f => f value arg
  | none => .error (.attributeError s!"'str' object has no attribute '{method.name}'")

/-! ## What they are for -/

/-- The characters to strip: those of a string, or the whitespace of ASCII. -/
inductive StripSet where
  | whitespace
  | chars (cs : List Char)

def StripSet.has : StripSet → Char → Bool
  | whitespace, c => isAsciiSpace c
  | chars cs, c => decide (c ∈ cs)

def StripSet.arg : StripSet → CharsArg
  | whitespace => .none
  | chars cs => .str (utf8 cs)

/-- `t` does not start with a character of the set, and does not end with one. -/
def StartsClean (set : StripSet) (t : List Char) : Prop := ∀ c ∈ t.head?, set.has c = false

def EndsClean (set : StripSet) (t : List Char) : Prop := ∀ c ∈ t.getLast?, set.has c = false

/-- What is asked of `s.strip(set)`: the longest substring that is clean at both ends. -/
def StripsRight (s : List Char) (set : StripSet) : Prop :=
  ∃ t, call (utf8 s) .strip set.arg = .ok (utf8 t) ∧ (t <:+: s ∧ StartsClean set t ∧ EndsClean set t) ∧
    ∀ t', t' <:+: s → StartsClean set t' → EndsClean set t' → t'.length ≤ t.length

/-- What is asked of `s.rstrip(set)`: the longest beginning that is clean at its end. -/
def RstripsRight (s : List Char) (set : StripSet) : Prop :=
  ∃ t, call (utf8 s) .rstrip set.arg = .ok (utf8 t) ∧ (t <+: s ∧ EndsClean set t) ∧
    ∀ t', t' <+: s → EndsClean set t' → t'.length ≤ t.length

/-- The set is not empty and leaves a character of the string, or the string is empty and its whitespace is stripped. -/
def Leaves (s : List Char) (set : StripSet) : Prop :=
  set.arg ≠ .str [] ∧ ((∃ c ∈ s, set.has c = false) ∨ s = [] ∧ set.arg = .none)

/-! ## The ends -/

section
variable {s t a b : List Char} {set : StripSet}

/-- What is stripped, around what is left. -/
structure Parts (set : StripSet) (s a t b : List Char) : Prop where
  eq : s = a ++ (t ++ b)
  before : ∀ c ∈ a, set.has c = true
  after : ∀ c ∈ b, set.has c = true
  ne : t ≠ []
  starts : StartsClean set t
  ends : EndsClean set t

/-- The part up to the last character that is left. -/
theorem exists_end : ∀ {s : List Char}, (∃ c ∈ s, set.has c = false) →
    ∃ t b, s = t ++ b ∧ (∀ c ∈ b, set.has c = true) ∧ t ≠ [] ∧ EndsClean set t := by
  intro s
  induction s using List.reverseRecOn with
  | nil =>
    intro h
    obtain ⟨c, hc, -⟩ := h
    cases hc
  | append_singleton s d ih =>
    intro h
    cases hd : set.has d with
    | false =>
      refine ⟨s ++ [d], [], (List.append_nil _).symm, nofun, by simp, fun c hc => ?_⟩
      rw [List.getLast?_concat] at hc
      cases hc
      exact hd
    | true =>
      have hinner : ∃ c ∈ s, set.has c = false := by
        obtain ⟨c, hc, hclean⟩ := h
        rcases List.mem_append.mp hc with hc | hc
        · exact ⟨c, hc, hclean⟩
        · cases List.mem_singleton.mp hc
          cases hd.symm.trans hclean
      obtain ⟨t, b, rfl, hb, hne, hends⟩ := ih hinner
      refine ⟨t, b ++ [d], List.append_assoc .., fun c hc => ?_, hne, hends⟩
      rcases List.mem_append.mp hc with hc | hc
      · exact hb c hc
      · cases List.mem_singleton.mp hc
        exact hd

theorem exists_parts : ∀ {s : List Char}, (∃ c ∈ s, set.has c = false) → ∃ a t b, Parts set s a t b := by
  intro s
  induction s with
  | nil =>
    intro h
    obtain ⟨c, hc, -⟩ := h
    cases hc
  | cons d s ih =>
    intro h
    cases hd : set.has d with
    | false =>
      obtain ⟨t, b, heq, hb, hne, hends⟩ := exists_end h
      refine ⟨[], t, b, { eq := heq, before := nofun, after := hb, ne := hne, starts := fun c hc => ?_, ends := hends }⟩
      obtain ⟨d', t, rfl⟩ := List.exists_cons_of_ne_nil hne
      cases hc
      cases heq
      exact hd
    | true =>
      have hinner : ∃ c ∈ s, set.has c = false := by
        obtain ⟨c, hc, hclean⟩ := h
        rcases List.mem_cons.mp hc with rfl | hc
        · cases hd.symm.trans hclean
        · exact ⟨c, hc, hclean⟩
      obtain ⟨a, t, b, hparts⟩ := ih hinner
      exact ⟨d :: a, t, b, { hparts with eq := congrArg (d :: ·) hparts.eq,
                                         before := List.forall_mem_cons.mpr ⟨hd, hparts.before⟩ }⟩

theorem length_before_le {x t' y : List Char} (ha : ∀ c ∈ a, set.has c = true) (hne : t' ≠ []) (hclean : StartsClean set t')
    (heq : a ++ t = x ++ (t' ++ y)) : a.length ≤ x.length := by
  obtain ⟨c, t', rfl⟩ := List.exists_cons_of_ne_nil hne
  by_contra hlt
  have hat : (a ++ t)[x.length]? = some c := by
    rw [heq, List.getElem?_append_right (Nat.le_refl _), Nat.sub_self]
    rfl
  rw [List.getElem?_append_left (by omega)] at hat
  cases (ha c (List.mem_of_getElem? hat)).symm.trans (hclean c rfl)

theorem length_after_le {x t' y : List Char} (hb : ∀ c ∈ b, set.has c = true) (hne : t' ≠ []) (hclean : EndsClean set t')
    (heq : t ++ b = x ++ (t' ++ y)) : b.length ≤ y.length := by
  have hreverse := congrArg List.reverse heq
  simp only [List.reverse_append] at hreverse
  rw [List.append_assoc] at hreverse
  have hbefore : ∀ c ∈ b.reverse, set.has c = true := fun c hc => hb c (List.mem_reverse.mp hc)
  have hstarts : StartsClean set t'.reverse := fun c hc => hclean c (by rwa [List.head?_reverse] at hc)
  have hle := length_before_le hbefore (List.reverse_eq_nil_iff.not.mpr hne) hstarts hreverse
  rwa [List.length_reverse, List.length_reverse] at hle

theorem Parts.longest (h : Parts set s a t b) {t' : List Char} (hmatch : t' <:+: s) (hstarts : StartsClean set t')
    (hends : EndsClean set t') : t'.length ≤ t.length := by
  by_cases hne : t' = []
  · rw [hne]
    exact Nat.zero_le _
  obtain ⟨x, y, hxy⟩ := hmatch
  have heq : a ++ (t ++ b) = x ++ (t' ++ y) := by rw [← h.eq, ← hxy, List.append_assoc]
  have hbefore := length_before_le h.before hne hstarts heq
  have hafter := length_after_le h.after hne hends ((List.append_assoc a t b).trans heq)
  have hlength := congrArg List.length heq
  simp only [List.length_append] at hlength
  omega

theorem Parts.longestStart (h : Parts set s a t b) {t' : List Char} (hfront : t' <+: s) (hends : EndsClean set t') :
    t'.length ≤ (a ++ t).length := by
  by_cases hne : t' = []
  · rw [hne]
    exact Nat.zero_le _
  obtain ⟨y, hy⟩ := hfront
  have heq : a ++ t ++ b = [] ++ (t' ++ y) := by rw [List.nil_append, hy, h.eq, List.append_assoc]
  have hafter := length_after_le h.after hne hends heq
  have hlength := congrArg List.length heq
  simp only [List.length_append, List.length_nil] at hlength
  rw [List.length_append]
  omega

end

/-! ## The scans -/

theorem codepointsOf_utf8 (s : List Char) : codepointsOf (utf8 s) = .ok (points s) := by
  rw [codepointsOf, codepoints_utf8]

theorem codepointBytes_toNat (c : Char) : codepointBytes c.toNat = .ok (String.utf8EncodeChar c).length := by
  have hvalid := toNat_valid c
  rw [codepointBytes, utf8EncodeChar_eq]
  by_cases h1 : c.toNat ≤ 0x7F
  · rw [if_pos h1, if_pos h1]
    rfl
  by_cases h2 : c.toNat ≤ 0x7FF
  · rw [if_neg h1, if_pos h2, if_neg h1, if_pos h2]
    rfl
  by_cases h3 : c.toNat ≤ 0xFFFF
  · rw [if_neg h1, if_neg h2, if_pos h3, if_neg h1, if_neg h2, if_pos h3]
    rfl
  · rw [if_neg h1, if_neg h2, if_neg h3, if_pos (by omega), if_neg h1, if_neg h2, if_neg h3]
    rfl

theorem length_utf8_reverse (s : List Char) : (utf8 s.reverse).length = (utf8 s).length := by
  induction s with
  | nil => rfl
  | cons c s ih =>
    simp only [List.reverse_cons, utf8_append, utf8_cons, utf8_nil, List.length_append, List.length_nil, ih]
    omega

theorem mem_points {cs : List Char} {c : Char} : c.toNat ∈ points cs ↔ c ∈ cs :=
  List.mem_map_of_injective toNat_injective

theorem scan_points {cs : List Char} {d : Char} (hd : d ∉ cs) (s : List Char) : ∀ {a : List Char} {index : Nat},
    (∀ c ∈ a, c ∈ cs) → scan (points cs) (points (a ++ d :: s)) index = .ok (index + (utf8 a).length) := by
  intro a
  induction a with
  | nil =>
    intro index _
    rw [List.nil_append, points_cons, scan, if_neg (mem_points.not.mpr hd)]
    rfl
  | cons c a ih =>
    intro index ha
    obtain ⟨hc, ha⟩ := List.forall_mem_cons.mp ha
    rw [List.cons_append, points_cons, scan, if_pos (mem_points.mpr hc), codepointBytes_toNat]
    refine (ih ha).trans ?_
    rw [utf8_cons, List.length_append, Nat.add_assoc]

/-- The bytes of the characters of ASCII whitespace are spaces, and those of the others are not. -/
theorem leadingSpace_utf8 {a : List Char} (ha : ∀ c ∈ a, isAsciiSpace c = true) {b : UInt8} (hb : isspace b = false)
    (rest : Bytes) : leadingSpace (utf8 a ++ b :: rest) = (utf8 a).length := by
  have hspaces : ∀ x ∈ utf8 a, isspace x = true := by
    intro x hx
    obtain ⟨c, hc, hx⟩ := List.mem_flatMap.mp hx
    obtain ⟨y, hy, hspace⟩ := isspace_ascii (ha c hc)
    rw [hy] at hx
    cases List.mem_singleton.mp hx
    exact hspace
  rw [leadingSpace, List.takeWhile_append_of_pos hspaces, List.takeWhile_cons_of_neg (by simp [hb]), List.append_nil]

section
variable {s t a b : List Char} {cs : List Char}

theorem Parts.scanFront (h : Parts (.chars cs) s a t b) : scan (points cs) (points s) 0 = .ok (utf8 a).length := by
  obtain ⟨d, t', rfl⟩ := List.exists_cons_of_ne_nil h.ne
  have hd := of_decide_eq_false (h.starts d rfl)
  have hscan : scan (points cs) (points (a ++ d :: (t' ++ b))) 0 = .ok (0 + (utf8 a).length) :=
    scan_points hd (t' ++ b) fun c hc => of_decide_eq_true (h.before c hc)
  rw [h.eq, List.cons_append, hscan, Nat.zero_add]

theorem Parts.scanBack (h : Parts (.chars cs) s a t b) : scan (points cs) (points s).reverse 0 = .ok (utf8 b).length := by
  obtain ⟨t', d, rfl⟩ := List.eq_nil_or_concat t |>.resolve_left h.ne
  rw [List.concat_eq_append] at h
  have hd := of_decide_eq_false (h.ends d (List.getLast?_concat ..))
  have hscan : scan (points cs) (points (b.reverse ++ d :: (t'.reverse ++ a.reverse))) 0 =
      .ok (0 + (utf8 b.reverse).length) :=
    scan_points hd (t'.reverse ++ a.reverse) fun c hc => of_decide_eq_true (h.after c (List.mem_reverse.mp hc))
  have hreverse : (points s).reverse = points (b.reverse ++ d :: (t'.reverse ++ a.reverse)) := by
    rw [points, ← List.map_reverse, h.eq, points]
    simp
  rw [hreverse, hscan, length_utf8_reverse, Nat.zero_add]

theorem Parts.spaceFront (h : Parts .whitespace s a t b) : leadingSpace (utf8 s) = (utf8 a).length := by
  obtain ⟨d, t', rfl⟩ := List.exists_cons_of_ne_nil h.ne
  obtain ⟨hne, hnot⟩ := not_isspace (h.starts d rfl)
  obtain ⟨x, xs, hx⟩ := List.exists_cons_of_ne_nil hne
  rw [h.eq, utf8_append, List.cons_append, utf8_cons, hx]
  exact leadingSpace_utf8 h.before (hnot x (hx ▸ List.mem_cons_self)) _

theorem Parts.spaceBack (h : Parts .whitespace s a t b) : leadingSpace (utf8 s).reverse = (utf8 b).length := by
  obtain ⟨t', d, rfl⟩ := List.eq_nil_or_concat t |>.resolve_left h.ne
  rw [List.concat_eq_append] at h
  obtain ⟨hne, hnot⟩ := not_isspace (h.ends d (List.getLast?_concat ..))
  obtain ⟨xs, x, hx⟩ := List.eq_nil_or_concat (String.utf8EncodeChar d) |>.resolve_left hne
  rw [List.concat_eq_append] at hx
  have hspaces : ∀ y ∈ (utf8 b).reverse, isspace y = true := by
    intro y hy
    obtain ⟨c, hc, hy⟩ := List.mem_flatMap.mp (List.mem_reverse.mp hy)
    obtain ⟨z, hz, hspace⟩ := isspace_ascii (h.after c hc)
    rw [hz] at hy
    cases List.mem_singleton.mp hy
    exact hspace
  have hreverse : (utf8 s).reverse = (utf8 b).reverse ++ x :: (xs.reverse ++ (utf8 (a ++ t')).reverse) := by
    rw [h.eq]
    simp [hx]
  have hlast : isspace x = false := hnot x (by rw [hx]; simp)
  rw [hreverse, leadingSpace, List.takeWhile_append_of_pos hspaces, List.takeWhile_cons_of_neg (by simp [hlast]),
    List.append_nil, List.length_reverse]

end

/-! ## What is left -/

section
variable {s t a b : List Char} {set : StripSet}

theorem Parts.length (h : Parts set s a t b) : (utf8 s).length = (utf8 a).length + (utf8 t).length + (utf8 b).length := by
  rw [h.eq, utf8_append, utf8_append, List.length_append, List.length_append, Nat.add_assoc]

theorem Parts.left_pos (h : Parts set s a t b) : 0 < (utf8 t).length :=
  Nat.lt_of_lt_of_le (List.length_pos_iff.mpr h.ne) (length_le_utf8 t)

theorem Parts.between (h : Parts set s a t b) :
    ((utf8 s).drop (utf8 a).length).take ((utf8 s).length - (utf8 b).length - (utf8 a).length) = utf8 t := by
  have hlength := h.length
  rw [show (utf8 s).length - (utf8 b).length - (utf8 a).length = (utf8 t).length by omega, h.eq, utf8_append, utf8_append,
    List.drop_left, List.take_left]

theorem Parts.upTo (h : Parts set s a t b) : (utf8 s).take ((utf8 s).length - (utf8 b).length) = utf8 (a ++ t) := by
  have hlength := h.length
  have hfront : (utf8 s).length - (utf8 b).length = (utf8 (a ++ t)).length := by
    rw [utf8_append, List.length_append]
    omega
  rw [hfront, h.eq, ← List.append_assoc, utf8_append (a ++ t), List.take_left]

theorem Parts.whole (h : Parts set s a t b) (ha : (utf8 a).length = 0) (hb : (utf8 b).length = 0) : utf8 s = utf8 t := by
  rw [h.eq, utf8_append, utf8_append, List.length_eq_zero_iff.mp ha, List.length_eq_zero_iff.mp hb, List.nil_append,
    List.append_nil]

theorem Parts.strip_eq (h : Parts set s a t b) (hset : set.arg ≠ .str []) : strip (utf8 s) set.arg = .ok (utf8 t) := by
  have hlength := h.length
  have hpos := h.left_pos
  unfold strip
  cases set with
  | whitespace =>
    show (if leadingSpace (utf8 s) = 0 ∧ (utf8 s).length - leadingSpace (utf8 s).reverse = 0 then _ else _) = _
    rw [h.spaceFront, h.spaceBack, if_neg (by omega), if_neg (by omega), h.between]
  | chars cs =>
    have hcs : points cs ≠ [] := fun hnil => hset (by rw [StripSet.arg, List.map_eq_nil_iff.mp hnil]; rfl)
    rw [StripSet.arg, charsOf, codepointsOf_utf8]
    show (if points cs = [] then _ else _) = _
    rw [if_neg hcs, codepointsOf_utf8]
    show (do let start ← scan (points cs) (points s) 0; _) = _
    rw [h.scanFront]
    show (do let skipped ← scan (points cs) (points s).reverse 0; _) = _
    rw [h.scanBack]
    show (if (utf8 a).length = 0 ∧ (utf8 s).length - (utf8 b).length = (utf8 s).length then _ else _) = _
    by_cases hself : (utf8 a).length = 0 ∧ (utf8 s).length - (utf8 b).length = (utf8 s).length
    · rw [if_pos hself, h.whole hself.1 (by omega)]
    · rw [if_neg hself, if_neg (by omega), h.between]

theorem Parts.rstrip_eq (h : Parts set s a t b) (hset : set.arg ≠ .str []) :
    rstrip (utf8 s) set.arg = .ok (utf8 (a ++ t)) := by
  have hlength := h.length
  have hpos := h.left_pos
  unfold rstrip
  cases set with
  | whitespace =>
    show (if (utf8 s).length - leadingSpace (utf8 s).reverse ≠ 0 then _ else _) = _
    rw [h.spaceBack, if_pos (by omega), h.upTo]
  | chars cs =>
    have hcs : points cs ≠ [] := fun hnil => hset (by rw [StripSet.arg, List.map_eq_nil_iff.mp hnil]; rfl)
    rw [StripSet.arg, charsOf, codepointsOf_utf8]
    show (if points cs = [] then _ else _) = _
    rw [if_neg hcs, codepointsOf_utf8]
    show (do let skipped ← scan (points cs) (points s).reverse 0; _) = _
    rw [h.scanBack]
    show (if (utf8 b).length = 0 then _ else _) = _
    by_cases hself : (utf8 b).length = 0
    · rw [if_pos hself, ← h.upTo, hself, Nat.sub_zero, List.take_length]
    · rw [if_neg hself, h.upTo]

end

/-- **`strip` and `rstrip` are right** where the set leaves a character of the string, and there is no `lstrip`. -/
theorem strips_right (s : List Char) (set : StripSet) (hset : Leaves s set) :
    StripsRight s set ∧ RstripsRight s set ∧
      ∀ arg, call (utf8 s) .lstrip arg = .error (.attributeError "'str' object has no attribute 'lstrip'") := by
  obtain ⟨hne, hleaves⟩ := hset
  rcases hleaves with hleaves | ⟨rfl, harg⟩
  · obtain ⟨a, t, b, h⟩ := exists_parts hleaves
    have hmatch : t <:+: s := ⟨a, b, by rw [h.eq, List.append_assoc]⟩
    have hfront : a ++ t <+: s := ⟨b, by rw [h.eq, List.append_assoc]⟩
    have hends : EndsClean set (a ++ t) := fun c hc => h.ends c (by rwa [List.getLast?_append_of_ne_nil _ h.ne] at hc)
    exact ⟨⟨t, h.strip_eq hne, ⟨hmatch, h.starts, h.ends⟩, fun t' => h.longest⟩,
      ⟨a ++ t, h.rstrip_eq hne, ⟨hfront, hends⟩, fun t' => h.longestStart⟩, fun _ => rfl⟩
  · have hstrip : call (utf8 []) .strip set.arg = .ok (utf8 []) := by rw [harg]; rfl
    have hrstrip : call (utf8 []) .rstrip set.arg = .ok (utf8 []) := by rw [harg]; rfl
    exact ⟨⟨[], hstrip, ⟨List.infix_refl _, nofun, nofun⟩, fun t' h _ _ => h.length_le⟩,
      ⟨[], hrstrip, ⟨List.prefix_refl _, nofun⟩, fun t' h _ => h.length_le⟩, fun _ => rfl⟩

/-- `"xay"` without `"xy"`. -/
theorem strips_right_both : StripsRight ['x', 'a', 'y'] (.chars ['x', 'y']) ∧
    RstripsRight ['x', 'a', 'y'] (.chars ['x', 'y']) := by
  have hleaves : Leaves ['x', 'a', 'y'] (.chars ['x', 'y']) := ⟨by decide, .inl ⟨'a', by decide, by decide⟩⟩
  have h := strips_right _ _ hleaves
  exact ⟨h.1, h.2.1⟩

/-- `"a".lstrip()` is an error. -/
theorem lstrip_absent :
    call (utf8 ['a']) .lstrip .none = .error (.attributeError "'str' object has no attribute 'lstrip'") ∧
      ¬ ∃ t, call (utf8 ['a']) .lstrip .none = .ok (utf8 t) := by
  refine ⟨rfl, fun h => ?_⟩
  obtain ⟨t, ht⟩ := h
  cases ht

end Pylang.Runtime.Strip
