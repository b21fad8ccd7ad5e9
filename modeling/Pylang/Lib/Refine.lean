/-
Programs that leave some behaviour open: a run is undetermined from the point
where the behaviour is left open. A program refines an open one if it does the
same wherever that is determined.
-/

namespace Pylang.Refine

variable {σ ε α β γ : Type}

/-- A program with errors and a state, undetermined where it is `none`. -/
def Open (σ ε α : Type) := σ → Option (EStateM.Result ε σ α)

namespace Open

/-- A program that is determined everywhere. -/
def lift (x : EStateM ε σ α) : Open σ ε α := fun s => some (x s)

def bind (x : Open σ ε α) (f : α → Open σ ε β) : Open σ ε β := fun s =>
  match x s with
  | none => none
  | some (.ok a s') => f a s'
  | some (.error e s') => some (.error e s')

open Classical in
/-- Undetermined in the states with the property. -/
noncomputable def except (p : σ → Prop) (x : Open σ ε α) : Open σ ε α := fun s => if p s then none else x s

/-- Undetermined where the program fails. -/
def total (x : EStateM ε σ α) : Open σ ε α := fun s =>
  match x s with
  | .ok a s' => some (.ok a s')
  | .error _ _ => none

end Open

theorem bind_ok {x : EStateM ε σ α} {f : α → EStateM ε σ β} {s s' : σ} {a : α} (h : x s = .ok a s') :
    (x >>= f) s = f a s' := by
  show EStateM.bind x f s = f a s'
  unfold EStateM.bind
  rw [h]

theorem bind_error {x : EStateM ε σ α} {f : α → EStateM ε σ β} {s s' : σ} {e : ε} (h : x s = .error e s') :
    (x >>= f) s = .error e s' := by
  show EStateM.bind x f s = .error e s'
  unfold EStateM.bind
  rw [h]

/-- The program does what the open one determines. -/
def Refines (p : Open σ ε α) (x : EStateM ε σ α) : Prop := ∀ s r, p s = some r → x s = r

namespace Refines

variable {p : Open σ ε α} {x : EStateM ε σ α} {f : α → Open σ ε β} {g : α → EStateM ε σ β}

theorem lift : Refines (.lift x) x := fun _ _ h => Option.some.inj h

theorem bind (h : Refines p x) (hf : ∀ a, Refines (f a) (g a)) : Refines (p.bind f) (x >>= g) := by
  intro s r hr
  unfold Open.bind at hr
  split at hr
  · cases hr
  · next a s' hp =>
    rw [bind_ok (h s _ hp)]
    exact hf a s' r hr
  · next e s' hp =>
    cases hr
    exact bind_error (h s _ hp)

theorem except {q : σ → Prop} (h : ∀ s r, ¬ q s → p s = some r → x s = r) :
    Refines (p.except q) x := by
  intro s r hr
  unfold Open.except at hr
  split at hr
  · cases hr
  · next hq => exact h s r hq hr

/-- A program that agrees where the other does not fail. -/
theorem total {y : EStateM ε σ α} (h : ∀ s a s', y s = .ok a s' → x s = .ok a s') : Refines (.total y) x := by
  intro s r hr
  unfold Open.total at hr
  split at hr
  · next a s' hy =>
    cases hr
    exact h s a s' hy
  · cases hr

end Refines

end Pylang.Refine
