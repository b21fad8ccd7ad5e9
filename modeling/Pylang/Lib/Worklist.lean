/-
Searching a graph with a worklist: an element is seen when it is pushed, and an
element that is popped pushes its unseen successors. The search ends within as
many pops as there are elements to push, and has then seen what can be reached
from the elements it started with.
-/
import Mathlib

namespace Pylang.Lib.Worklist

variable {α : Type}

/-- What can be reached from a start. -/
inductive Reach (next : α → List α) (start : α → Prop) : α → Prop
  | start {x} : start x → Reach next start x
  | next {x y} : Reach next start x → y ∈ next x → Reach next start y

theorem Reach.mono {next next' : α → List α} {start start' : α → Prop} (hstart : ∀ x, start x → Reach next' start' x)
    (hnext : ∀ x, ∀ y ∈ next x, Reach next' start' x → Reach next' start' y) {x : α} (h : Reach next start x) :
    Reach next' start' x := by
  induction h with
  | start hx => exact hstart _ hx
  | next _ hy ih => exact hnext _ _ hy ih

variable [DecidableEq α]

/-- Push what is not seen. -/
def push (seen : α → Bool) (stack : List α) : List α → (α → Bool) × List α
  | [] => (seen, stack)
  | x :: xs => if seen x then push seen stack xs else push (Function.update seen x true) (x :: stack) xs

def search (next : α → List α) : Nat → (α → Bool) → List α → Option (α → Bool)
  | _, seen, [] => some seen
  | 0, _, _ :: _ => none
  | n + 1, seen, x :: stack =>
    let (seen, stack) := push seen stack (next x)
    search next n seen stack

section
variable {next : α → List α} {start : α → Prop} {seen : α → Bool} {stack xs : List α}

theorem push_seen (y : α) : (push seen stack xs).1 y = true ↔ seen y = true ∨ y ∈ xs := by
  induction xs generalizing seen stack with
  | nil => simp [push]
  | cons x xs ih =>
    unfold push
    split
    next hx =>
      rw [ih, List.mem_cons]
      constructor
      · exact fun h => h.imp_right .inr
      · intro h
        rcases h with h | rfl | h
        · exact .inl h
        · exact .inl hx
        · exact .inr h
    next =>
      rw [ih, List.mem_cons]
      by_cases hyx : y = x
      · simp [hyx]
      · simp [hyx]

theorem mem_push {y : α} (h : y ∈ (push seen stack xs).2) : y ∈ stack ∨ y ∈ xs := by
  induction xs generalizing seen stack with
  | nil => exact .inl h
  | cons x xs ih =>
    unfold push at h
    split at h
    · exact (ih h).imp_right (List.mem_cons_of_mem x)
    · rcases ih h with h | h
      · rcases List.mem_cons.mp h with rfl | h
        · exact .inr List.mem_cons_self
        · exact .inl h
      · exact .inr (List.mem_cons_of_mem x h)

theorem stack_push {y : α} (h : y ∈ stack) : y ∈ (push seen stack xs).2 := by
  induction xs generalizing seen stack with
  | nil => exact h
  | cons x xs ih =>
    unfold push
    split
    · exact ih h
    · exact ih (List.mem_cons_of_mem x h)

/-- What was not seen and is now is on the stack. -/
theorem pushed {y : α} (hnot : seen y = false) (h : (push seen stack xs).1 y = true) : y ∈ (push seen stack xs).2 := by
  induction xs generalizing seen stack with
  | nil => exact absurd (hnot.symm.trans h) (by simp)
  | cons x xs ih =>
    unfold push at h ⊢
    split
    next hx =>
      rw [if_pos hx] at h
      exact ih hnot h
    next hx =>
      rw [if_neg hx] at h
      by_cases hyx : y = x
      · subst hyx
        exact stack_push List.mem_cons_self
      · exact ih (by rwa [Function.update_of_ne hyx]) h

/-! ## What is found -/

/-- What the loop keeps: the stack is seen, what is seen and off the stack has its successors seen, and only what can be
reached is seen. -/
structure Inv (next : α → List α) (start : α → Prop) (seen : α → Bool) (stack : List α) : Prop where
  stacked : ∀ y ∈ stack, seen y = true
  closed : ∀ y, seen y = true → y ∉ stack → ∀ z ∈ next y, seen z = true
  started : ∀ y, start y → seen y = true
  reached : ∀ y, seen y = true → Reach next start y

theorem Inv.pop {x : α} (h : Inv next start seen (x :: stack)) :
    Inv next start (push seen stack (next x)).1 (push seen stack (next x)).2 where
  stacked y hy := by
    rw [push_seen]
    exact (mem_push hy).imp_left fun hy => h.stacked y (List.mem_cons_of_mem x hy)
  closed y hy hoff z hz := by
    rw [push_seen]
    by_cases hyx : y = x
    · exact .inr (hyx ▸ hz)
    · have hold : seen y = true := by
        by_contra hnot
        exact hoff (pushed (Bool.eq_false_iff.mpr hnot) hy)
      refine .inl (h.closed y hold (fun hmem => ?_) z hz)
      rcases List.mem_cons.mp hmem with heq | hmem
      · exact hyx heq
      · exact hoff (stack_push hmem)
  started y hy := push_seen y |>.mpr (.inl (h.started y hy))
  reached y hy := by
    rcases (push_seen y).mp hy with hy | hy
    · exact h.reached y hy
    · exact .next (h.reached x (h.stacked x List.mem_cons_self)) hy

omit [DecidableEq α] in
theorem Inv.ended (h : Inv next start seen []) (y : α) : seen y = true ↔ Reach next start y := by
  refine ⟨h.reached y, fun hy => ?_⟩
  induction hy with
  | start hx => exact h.started _ hx
  | next _ hz ih => exact h.closed _ ih List.not_mem_nil _ hz

theorem search_seen {n : Nat} {seen' : α → Bool} (h : Inv next start seen stack)
    (hrun : search next n seen stack = some seen') (y : α) : seen' y = true ↔ Reach next start y := by
  induction n generalizing seen stack with
  | zero =>
    cases stack with
    | nil =>
      cases hrun
      exact h.ended y
    | cons x stack => cases hrun
  | succ n ih =>
    cases stack with
    | nil =>
      cases hrun
      exact h.ended y
    | cons x stack => exact ih h.pop hrun

/-! ## It ends -/

/-- The elements of `all` that are not seen yet. -/
def unseen (all : List α) (seen : α → Bool) : Nat := all.countP (!seen ·)

theorem unseen_update {all : List α} {x : α} (hx : x ∈ all) (hnot : seen x = false) :
    unseen all (Function.update seen x true) + 1 ≤ unseen all seen := by
  unfold unseen
  induction all with
  | nil => cases hx
  | cons u us ih =>
    have hle : us.countP (!Function.update seen x true ·) ≤ us.countP (!seen ·) := by
      refine List.countP_mono_left fun y _ hy => ?_
      by_cases hyx : y = x
      · rw [hyx, hnot]
        rfl
      · rwa [Function.update_of_ne hyx] at hy
    by_cases hux : u = x
    · subst hux
      rw [List.countP_cons_of_neg (by simp), List.countP_cons_of_pos (by simp [hnot])]
      omega
    · have hmem : x ∈ us := (List.mem_cons.mp hx).resolve_left fun h => hux h.symm
      have ih := ih hmem
      rw [List.countP_cons, List.countP_cons, Function.update_of_ne hux]
      omega

theorem length_push {all : List α} (hxs : ∀ x ∈ xs, x ∈ all) :
    (push seen stack xs).2.length + unseen all (push seen stack xs).1 ≤ stack.length + unseen all seen := by
  induction xs generalizing seen stack with
  | nil => exact Nat.le_refl _
  | cons x xs ih =>
    have hrest := fun y hy => hxs y (List.mem_cons_of_mem x hy)
    unfold push
    split
    · exact ih hrest
    next hx =>
      have hlt := unseen_update (hxs x List.mem_cons_self) (Bool.eq_false_iff.mpr hx)
      have hle := @ih (Function.update seen x true) (x :: stack) hrest
      rw [List.length_cons] at hle
      omega

theorem search_ends {all : List α} {n : Nat} (h : Inv next start seen stack)
    (hall : ∀ y, Reach next start y → y ∈ all) (hn : stack.length + unseen all seen ≤ n) :
    ∃ seen', search next n seen stack = some seen' := by
  induction n generalizing seen stack with
  | zero =>
    cases stack with
    | nil => exact ⟨seen, rfl⟩
    | cons x stack =>
      rw [List.length_cons] at hn
      omega
  | succ n ih =>
    cases stack with
    | nil => exact ⟨seen, rfl⟩
    | cons x stack =>
      have hx := h.reached x (h.stacked x List.mem_cons_self)
      have hle := @length_push _ _ seen stack (next x) all fun y hy => hall y (.next hx hy)
      rw [List.length_cons] at hn
      exact ih h.pop (by omega)

end

end Pylang.Lib.Worklist
