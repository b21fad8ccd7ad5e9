/-
`str_iterator`, and the one iterator `PyString::__iter__` keeps to use it again.

Every call of `iter` is a handle that is due the characters of its string. The
kept iterator is handed out anew as soon as it stands at the end of its string,
whoever still holds it, so a handle is due nothing any more once a later call
has got its object (`Superseded`).
-/
import Pylang.Runtime.Intern
import Mathlib.Data.List.Infix

namespace Pylang.Runtime

/-- `utf8::codepoint_length` of a first byte. -/
def codepointLength (c : UInt8) : Nat :=
  if c &&& 0xf8 = 0xf0 then 4 else if c &&& 0xf0 = 0xe0 then 3 else if c &&& 0xe0 = 0xc0 then 2 else 1

theorem codepointLength_pos (c : UInt8) : 0 < codepointLength c := by
  unfold codepointLength
  split
  · omega
  · split
    · omega
    · split <;> omega

/-- The characters of a string. -/
def chars : Bytes → List Bytes
  | [] => []
  | c :: s => (c :: s).take (codepointLength c) :: chars ((c :: s).drop (codepointLength c))
termination_by s => s.length
decreasing_by
  have hpos := codepointLength_pos c
  simp only [List.length_drop, List.length_cons]
  omega

theorem utf8EncodeChar_first (c : Char) :
    ∃ b rest, String.utf8EncodeChar c = b :: rest ∧ codepointLength b = rest.length + 1 := by
  have two : ∀ k < 32, codepointLength (UInt8.ofNat (k + 0xc0)) = 2 := by decide
  have three : ∀ k < 16, codepointLength (UInt8.ofNat (k + 0xe0)) = 3 := by decide
  have four : ∀ k < 8, codepointLength (UInt8.ofNat (k + 0xf0)) = 4 := by decide
  have one : ∀ k < 128, codepointLength (UInt8.ofNat k) = 1 := by decide
  unfold String.utf8EncodeChar
  simp only
  split
  next h => exact ⟨_, _, rfl, one _ (by omega)⟩
  next =>
    split
    next => exact ⟨_, _, rfl, two _ (by omega)⟩
    next =>
      split
      next => exact ⟨_, _, rfl, three _ (by omega)⟩
      next => exact ⟨_, _, rfl, four _ (by omega)⟩

theorem chars_utf8 (cs : List Char) : chars (cs.flatMap String.utf8EncodeChar) = cs.map String.utf8EncodeChar := by
  induction cs with
  | nil => rw [List.flatMap_nil, chars, List.map_nil]
  | cons c cs ih =>
    obtain ⟨b, rest, heq, hlen⟩ := utf8EncodeChar_first c
    rw [List.flatMap_cons, heq, List.cons_append, chars, hlen, List.map_cons, heq]
    simp [ih]

structure StringIterator where
  pystring : Bytes
  currentIndex : Nat
deriving DecidableEq

namespace StringIterator

def exhausted (it : StringIterator) : Bool := it.pystring.length ≤ it.currentIndex

/-- `next_raw`, with the value of the string it returns; one byte goes through `intern(const char *)`, more through
`create(const std::string &)`. -/
def nextRaw (it : StringIterator) : StringIterator × Option Bytes :=
  match it.pystring[it.currentIndex]? with
  | none => (it, none)
  | some c =>
    let len := codepointLength c
    if len = 1 then ({ it with currentIndex := it.currentIndex + 1 }, some (cString [c]))
    else ({ it with currentIndex := it.currentIndex + len }, some (cString ((it.pystring.drop it.currentIndex).take len)))

def remaining (it : StringIterator) : List Bytes := chars (it.pystring.drop it.currentIndex)

theorem nextRaw_spec (it : StringIterator) :
    it.nextRaw.2 = it.remaining.head?.map cString ∧ it.nextRaw.1.remaining = it.remaining.tail := by
  unfold nextRaw remaining
  cases hget : it.pystring[it.currentIndex]? with
  | none =>
    have hdrop : it.pystring.drop it.currentIndex = [] := List.drop_eq_nil_iff.mpr (List.getElem?_eq_none_iff.mp hget)
    simp only [hdrop]
    rw [chars]
    exact ⟨rfl, rfl⟩
  | some c =>
    obtain ⟨hlt, hc⟩ := List.getElem?_eq_some_iff.mp hget
    have hdrop : it.pystring.drop it.currentIndex = c :: it.pystring.drop (it.currentIndex + 1) := by
      rw [List.drop_eq_getElem_cons hlt, hc]
    have hchars : chars (it.pystring.drop it.currentIndex) =
        (it.pystring.drop it.currentIndex).take (codepointLength c) ::
          chars (it.pystring.drop (it.currentIndex + codepointLength c)) := by
      rw [hdrop, chars, ← hdrop, List.drop_drop]
    rw [hchars]
    dsimp only
    split
    next hone =>
      rw [hone, hdrop]
      exact ⟨rfl, rfl⟩
    next => exact ⟨rfl, rfl⟩

theorem remaining_iterate (it : StringIterator) (n : Nat) :
    ((fun it : StringIterator => it.nextRaw.1)^[n] it).remaining = it.remaining.drop n := by
  induction n generalizing it with
  | zero => rfl
  | succ n ih =>
    rw [Function.iterate_succ_apply, ih, (nextRaw_spec it).2]
    exact List.drop_tail

/-- **The code points in their order.** On a text in UTF-8, each call gives the next code point, whichever of the two paths
makes the string, and the calls after the last give nothing. -/
theorem nextRaw_codepoints (cs : List Char) (n : Nat) :
    ((fun it : StringIterator => it.nextRaw.1)^[n] ⟨cs.flatMap String.utf8EncodeChar, 0⟩).nextRaw.2 =
      cs[n]?.map fun c => cString (String.utf8EncodeChar c) := by
  have hstart : (⟨cs.flatMap String.utf8EncodeChar, 0⟩ : StringIterator).remaining = cs.map String.utf8EncodeChar :=
    chars_utf8 cs
  rw [(nextRaw_spec _).1, remaining_iterate, hstart, List.head?_drop, List.getElem?_map, Option.map_map]
  rfl

end StringIterator

/-- The iterators made so far by number, the first `count` of them, and `s_cached_iter`. -/
structure IteratorState where
  iterators : Nat → StringIterator
  count : Nat
  cachedIter : Option Nat

namespace IteratorState

def start : IteratorState := ⟨fun _ => ⟨[], 0⟩, 0, none⟩

variable (st : IteratorState)

/-- `PYLANG_ALLOC(PyStringIterator, s)`. -/
def alloc (s : Bytes) : IteratorState × Nat :=
  ({ st with iterators := Function.update st.iterators st.count ⟨s, 0⟩, count := st.count + 1 }, st.count)

/-- `PyString::__iter__`. -/
def iter (s : Bytes) : IteratorState × Nat :=
  match st.cachedIter with
  | none => ({ (st.alloc s).1 with cachedIter := some (st.alloc s).2 }, (st.alloc s).2)
  | some i =>
    if (st.iterators i).exhausted then ({ st with iterators := Function.update st.iterators i ⟨s, 0⟩ }, i)
    else st.alloc s

/-- `__next__`; `none` is `StopIteration`. -/
def next (i : Nat) : IteratorState × Option Bytes :=
  ({ st with iterators := Function.update st.iterators i (st.iterators i).nextRaw.1 }, (st.iterators i).nextRaw.2)

end IteratorState

/-- A call of `iter`: the object it returned and the characters that are due. -/
structure Handle where
  object : Nat
  due : List Bytes
deriving DecidableEq

structure IteratorWorld where
  state : IteratorState
  handles : List Handle

inductive IterAction where
  | iter (s : Bytes)
  | next (h : Nat)

namespace IteratorWorld

def start : IteratorWorld := ⟨.start, []⟩

def step (w : IteratorWorld) : IterAction → IteratorWorld
  | .iter s => ⟨(w.state.iter s).1, w.handles ++ [⟨(w.state.iter s).2, chars s⟩]⟩
  | .next h =>
    match w.handles[h]? with
    | none => w
    | some hd => ⟨(w.state.next hd.object).1, w.handles.set h { hd with due := hd.due.tail }⟩

/-- What a call of `next` returns. -/
def result (w : IteratorWorld) (hd : Handle) : Option Bytes := (w.state.next hd.object).2

/-- A later call of `iter` has got the object of the handle. -/
def Superseded (w : IteratorWorld) (h : Nat) : Prop :=
  ∃ hd hd' h', w.handles[h]? = some hd ∧ w.handles[h']? = some hd' ∧ h < h' ∧ hd'.object = hd.object

/-- A condition on a step, to be read off the state before it. -/
def Tidy (w : IteratorWorld) : IterAction → Prop
  | .iter _ => True
  | .next h => ¬w.Superseded h ∧ ∀ hd, w.handles[h]? = some hd → ∀ c ∈ hd.due.head?, 0 ∉ c

inductive TidyRun : IteratorWorld → Prop where
  | start : TidyRun start
  | step {w} (a : IterAction) : TidyRun w → w.Tidy a → TidyRun (w.step a)

/-- What holds of the iterators: the newest handle of an object is due what the object has left. -/
structure Inv (w : IteratorWorld) : Prop where
  lt : ∀ hd ∈ w.handles, hd.object < w.state.count
  cached : ∀ i ∈ w.state.cachedIter, i < w.state.count
  due : ∀ h hd, w.handles[h]? = some hd → ¬w.Superseded h → (w.state.iterators hd.object).remaining = hd.due

section
variable {w : IteratorWorld}

theorem Inv.start : Inv start := ⟨by simp [IteratorWorld.start], by simp [IteratorWorld.start, IteratorState.start], by simp [IteratorWorld.start]⟩

/-- What `iter` does: it makes a new object or uses one again, for its string, and leaves the others alone. -/
theorem iter_cases (st : IteratorState) (s : Bytes) (hcached : ∀ i ∈ st.cachedIter, i < st.count) :
    ((st.iter s).1.iterators (st.iter s).2).remaining = chars s ∧
      (∀ i, i ≠ (st.iter s).2 → (st.iter s).1.iterators i = st.iterators i) ∧ (st.iter s).2 < (st.iter s).1.count ∧
      st.count ≤ (st.iter s).1.count ∧ ∀ i ∈ (st.iter s).1.cachedIter, i < (st.iter s).1.count := by
  unfold IteratorState.iter
  cases hc : st.cachedIter with
  | none =>
    refine ⟨by simp [IteratorState.alloc, StringIterator.remaining], fun i hi => Function.update_of_ne hi ..,
      Nat.lt_succ_self _, Nat.le_succ _, ?_⟩
    intro i hi
    cases hi
    exact Nat.lt_succ_self _
  | some j =>
    have hj := hcached j (by simp [hc])
    dsimp only
    split
    next =>
      exact ⟨by simp [StringIterator.remaining], fun i hi => Function.update_of_ne hi .., hj, Nat.le_refl _,
        fun i hi => hcached i (hc ▸ hi)⟩
    next =>
      exact ⟨by simp [IteratorState.alloc, StringIterator.remaining], fun i hi => Function.update_of_ne hi ..,
        Nat.lt_succ_self _, Nat.le_succ _, fun i hi => Nat.lt_succ_of_lt (hcached i hi)⟩

/-- **`iter`** keeps the invariant. -/
theorem Inv.iter (h : Inv w) (s : Bytes) : Inv (w.step (.iter s)) := by
  obtain ⟨hnew, hother, hlt, hcount, hcached⟩ := iter_cases w.state s h.cached
  refine ⟨fun hd hmem => ?_, hcached, fun n hd hn hsup => ?_⟩
  · cases List.mem_append.mp hmem with
    | inl hold => exact Nat.lt_of_lt_of_le (h.lt hd hold) hcount
    | inr hlast =>
      rw [List.mem_singleton.mp hlast]
      exact hlt
  · have hget : (w.handles ++ [⟨(w.state.iter s).2, chars s⟩])[n]? = some hd := hn
    rcases Nat.lt_trichotomy n w.handles.length with hlen | hlen | hlen
    · rw [List.getElem?_append_left hlen] at hget
      have hne : hd.object ≠ (w.state.iter s).2 := by
        intro he
        refine hsup ⟨hd, ⟨(w.state.iter s).2, chars s⟩, w.handles.length, hn, ?_, hlen, he.symm⟩
        show (w.handles ++ [_])[w.handles.length]? = _
        rw [List.getElem?_concat_length]
      have hold : ¬w.Superseded n := by
        intro h
        obtain ⟨hd₁, hd', n', hn₁, hn', hlt', he⟩ := h
        refine hsup ⟨hd₁, hd', n', ?_, ?_, hlt', he⟩
        · show (w.handles ++ [_])[n]? = _
          rw [List.getElem?_append_left hlen]
          exact hn₁
        · show (w.handles ++ [_])[n']? = _
          rw [List.getElem?_append_left (List.getElem?_eq_some_iff.mp hn').1]
          exact hn'
      show ((w.state.iter s).1.iterators hd.object).remaining = hd.due
      rw [hother _ hne]
      exact h.due n hd hget hold
    · rw [hlen, List.getElem?_concat_length] at hget
      cases hget
      exact hnew
    · rw [List.getElem?_eq_none_iff.mpr (by simp; omega)] at hget
      cases hget

/-- **`next`** on a handle that is not superseded keeps the invariant. -/
theorem Inv.next (h : Inv w) {n : Nat} (hn : ¬w.Superseded n) : Inv (w.step (.next n)) := by
  cases hget : w.handles[n]? with
  | none =>
    have hstep : w.step (.next n) = w := by simp [step, hget]
    rwa [hstep]
  | some hd =>
    have hstep : w.step (.next n) =
        ⟨(w.state.next hd.object).1, w.handles.set n { hd with due := hd.due.tail }⟩ := by simp [step, hget]
    rw [hstep]
    obtain ⟨hlt, hhd⟩ := List.getElem?_eq_some_iff.mp hget
    have hsame : ∀ (m : Nat) (hd' : Handle), (w.handles.set n { hd with due := hd.due.tail })[m]? = some hd' →
        ∃ hd₀, w.handles[m]? = some hd₀ ∧ hd₀.object = hd'.object ∧ (m ≠ n → hd₀ = hd') := by
      intro m hd' hm
      by_cases he : m = n
      · subst he
        rw [List.getElem?_set_self hlt] at hm
        cases hm
        exact ⟨hd, hget, rfl, fun hne => absurd rfl hne⟩
      · rw [List.getElem?_set_ne (Ne.symm he)] at hm
        exact ⟨hd', hm, rfl, fun _ => rfl⟩
    have hback : ∀ (m : Nat) (hd₀ : Handle), w.handles[m]? = some hd₀ →
        ∃ hd', (w.handles.set n { hd with due := hd.due.tail })[m]? = some hd' ∧ hd'.object = hd₀.object := by
      intro m hd₀ hm
      by_cases he : m = n
      · subst he
        rw [hget] at hm
        cases hm
        exact ⟨_, List.getElem?_set_self hlt, rfl⟩
      · exact ⟨hd₀, (List.getElem?_set_ne (Ne.symm he)).trans hm, rfl⟩
    refine ⟨fun hd' hmem => ?_, h.cached, fun m hd' hm hsup => ?_⟩
    · obtain ⟨m, hm⟩ := List.mem_iff_getElem?.mp hmem
      obtain ⟨hd₀, hm₀, hobj, -⟩ := hsame m hd' hm
      rw [← hobj]
      exact h.lt hd₀ (List.mem_of_getElem? hm₀)
    · obtain ⟨hd₀, hm₀, hobj, heq⟩ := hsame m hd' hm
      have hold : ¬w.Superseded m := by
        intro h
        obtain ⟨hd₁, hd₂, m', hm₁, hm₂, hlt', he⟩ := h
        obtain ⟨hd₁', hm₁', ho₁⟩ := hback m hd₁ hm₁
        obtain ⟨hd₂', hm₂', ho₂⟩ := hback m' hd₂ hm₂
        exact hsup ⟨hd₁', hd₂', m', hm₁', hm₂', hlt', by rw [ho₁, ho₂, he]⟩
      have hdue := h.due m hd₀ hm₀ hold
      by_cases he : m = n
      · subst he
        rw [List.getElem?_set_self hlt] at hm
        cases hm
        rw [hget] at hm₀
        cases hm₀
        show ((Function.update w.state.iterators hd.object _) hd.object).remaining = _
        rw [Function.update_self, (StringIterator.nextRaw_spec _).2, hdue]
      · have hne : hd₀.object ≠ hd.object := by
          intro hobj₀
          rcases Nat.lt_or_gt_of_ne he with hlt' | hgt
          · exact hold ⟨hd₀, hd, n, hm₀, hget, hlt', hobj₀.symm⟩
          · exact hn ⟨hd, hd₀, m, hget, hm₀, hgt, hobj₀⟩
        rw [heq he] at hdue hne
        show ((Function.update w.state.iterators hd.object _) hd'.object).remaining = _
        rw [Function.update_of_ne hne, hdue]

/-- **Every run** whose steps meet the condition keeps the invariant. -/
theorem TidyRun.inv (h : TidyRun w) : Inv w := by
  induction h with
  | start => exact .start
  | step a _ ha ih =>
    cases a with
    | iter s => exact ih.iter s
    | next n => exact ih.next ha.1

end

/-- **Every iterator yields its own characters.** In a run whose steps meet the condition a call of `next` that meets it
returns the next character that is due, or reports `StopIteration` if none is. -/
theorem next_exact {w : IteratorWorld} (h : TidyRun w) {n : Nat} (hn : w.Tidy (.next n)) {hd : Handle}
    (hget : w.handles[n]? = some hd) : w.result hd = hd.due.head? := by
  have hdue := h.inv.due n hd hget hn.1
  unfold result IteratorState.next
  rw [(StringIterator.nextRaw_spec _).1, hdue]
  have hnul := hn.2 hd hget
  cases hhead : hd.due.head? with
  | none => rfl
  | some c =>
    rw [Option.map_some, cString_eq_self.mpr (hnul c hhead)]

theorem chars_letter {c : UInt8} (hlen : codepointLength c = 1) : chars [c] = [[c]] := by
  rw [chars, hlen, List.drop_one, List.tail_cons, chars]
  rfl

theorem tidy_first : (start.step (.iter [97])).Tidy (.next 0) := by
  refine ⟨?_, fun hd hhd c hc => ?_⟩
  · intro h
    obtain ⟨hd, hd', n', -, hn', hlt, -⟩ := h
    have hlen := (List.getElem?_eq_some_iff.mp hn').1
    simp only [IteratorWorld.step, start, List.nil_append, List.length_singleton] at hlen
    omega
  · simp only [IteratorWorld.step, start, List.nil_append, List.getElem?_cons_zero, Option.some.injEq] at hhd
    subst hhd
    rw [chars_letter (by decide)] at hc
    cases hc
    decide

/-- `it = iter("a")`, `next(it)` and `iter("b")`: `it` should be exhausted for ever. -/
def reused : IteratorWorld := ((start.step (.iter [97])).step (.next 0)).step (.iter [98])

theorem reused_yields : TidyRun reused ∧ reused.handles[0]? = some ⟨0, []⟩ ∧ reused.result ⟨0, []⟩ = some [98] := by
  have h₁ : TidyRun (start.step (.iter [97])) := .step _ .start trivial
  refine ⟨.step _ (.step _ h₁ tidy_first) trivial, ?_, ?_⟩
  · simp [reused, IteratorWorld.step, start, chars_letter (show codepointLength 97 = 1 by decide), IteratorState.start, IteratorState.iter, IteratorState.alloc]
  · decide

/-- `iter("a")` and `iter("b")`, both in use. -/
def both : IteratorWorld := (start.step (.iter [97])).step (.iter [98])

theorem both_handles : both.handles = [⟨0, chars [97]⟩, ⟨1, chars [98]⟩] := rfl

theorem both_tidy (n : Nat) : both.Tidy (.next n) := by
  constructor
  · intro h
    obtain ⟨hd, hd', n', hn, hn', hlt, hobject⟩ := h
    rw [both_handles] at hn hn'
    have hlen : n' < 2 := (List.getElem?_eq_some_iff.mp hn').1
    obtain rfl : n' = 1 := by omega
    obtain rfl : n = 0 := by omega
    cases hn
    cases hn'
    cases hobject
  · intro hd hhd c hc
    rw [both_handles] at hhd
    rcases n with _ | _ | n
    · cases hhd
      rw [chars_letter (by decide)] at hc
      cases hc
      decide
    · cases hhd
      rw [chars_letter (by decide)] at hc
      cases hc
      decide
    · cases hhd

/-- Each of the two yields its own character. -/
theorem next_exact_first : both.result ⟨0, chars [97]⟩ = some [97] ∧ both.result ⟨1, chars [98]⟩ = some [98] := by
  have hrun : TidyRun both := .step (.iter [98]) (.step (.iter [97]) .start trivial) trivial
  have hfirst := next_exact hrun (both_tidy 0) (congrArg (·[0]?) both_handles)
  have hsecond := next_exact hrun (both_tidy 1) (congrArg (·[1]?) both_handles)
  rw [hfirst, hsecond, chars_letter (by decide), chars_letter (by decide)]
  exact ⟨rfl, rfl⟩

end IteratorWorld

end Pylang.Runtime
