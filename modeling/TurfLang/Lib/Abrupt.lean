import Mathlib.Tactic

/-!
# Programs with a state and abrupt ends

A run takes a state to a value or to a jump, and a new state. Sequence passes jumps on, a loop
catches those that are meant for it, and cleanup code runs at every end but one that cuts the
program off. `none` is a run that has used up its rounds. A program that never comes to its end
stays one whatever stands before or after it.
-/

namespace Abrupt

/-- The ends of a run other than its own. -/
inductive Jump
  | breaks
  | continues
  | returns
  | fails
  | halts
  deriving DecidableEq

/-- How a run ends. -/
inductive Ended (α : Type)
  | value (a : α)
  | jump (j : Jump)

/-- A program. -/
def Run (σ α : Type) : Type := σ → Option (Ended α × σ)

namespace Run

variable {σ α β : Type}

instance : Monad (Run σ) where
  pure a s := some (.value a, s)
  bind a k s :=
    match a s with
    | none => none
    | some (.value v, s') => k v s'
    | some (.jump j, s') => some (.jump j, s')

/-- Leave by a jump. -/
def leave (j : Jump) : Run σ α := fun s => some (.jump j, s)

/-- A program without runs. -/
def stuck : Run σ α := fun _ => none

def modify (f : σ → σ) : Run σ Unit := fun s => some (.value (), f s)

/-- An operation, cut off where it has no result. -/
def op (f : σ → Option (α × σ)) : Run σ α := fun s =>
  match f s with
  | some (v, s') => some (.value v, s')
  | none => some (.jump .halts, s)

/-- `a`, and `d` at every end of it that is not cut off. A jump of `d` takes the place of the end
that was under way. -/
def cleanup (a : Run σ α) (d : Run σ Unit) : Run σ α := fun s =>
  match a s with
  | none => none
  | some (.jump .halts, s') => some (.jump .halts, s')
  | some (r, s') =>
    match d s' with
    | none => none
    | some (.value _, s'') => some (r, s'')
    | some (.jump j, s'') => some (.jump j, s'')

/-- One round of a loop: whether the loop goes on. -/
def round (body : Run σ Unit) : Run σ Bool := fun s =>
  match body s with
  | none => none
  | some (.value _, s') | some (.jump .continues, s') => some (.value true, s')
  | some (.jump .breaks, s') => some (.value false, s')
  | some (.jump j, s') => some (.jump j, s')

/-- Rounds as long as the test before each of them holds, at most so many. -/
def loop (test : Run σ Bool) (body step : Run σ Unit) : ℕ → Run σ Unit
  | 0 => stuck
  | n + 1 => do
    if ← test then
      if ← body.round then
        step
        loop test body step n
      else pure ()
    else pure ()

/-- A program that never comes to its end. -/
def Diverts (a : Run σ α) : Prop := ∀ s v s', a s ≠ some (.value v, s')

theorem diverts_leave (j : Jump) : Diverts (leave j : Run σ α) := nofun

theorem diverts_stuck : Diverts (stuck : Run σ α) := nofun

theorem bind_eq_value {a : Run σ α} {k : α → Run σ β} {s s' : σ} {v : β} :
    (a >>= k) s = some (.value v, s') ↔
      ∃ u t, a s = some (.value u, t) ∧ k u t = some (.value v, s') := by
  show (match a s with
    | none => none
    | some (.value v, s') => k v s'
    | some (.jump j, s') => some (.jump j, s')) = _ ↔ _
  obtain _ | ⟨_ | _, _⟩ := a s <;> simp

theorem Diverts.bind_left {a : Run σ α} (h : Diverts a) (k : α → Run σ β) :
    Diverts (a >>= k) := by
  intro s v s' heq
  obtain ⟨u, t, ha, -⟩ := bind_eq_value.mp heq
  exact h s u t ha

theorem Diverts.bind_right (a : Run σ α) {k : α → Run σ β} (h : ∀ u, Diverts (k u)) :
    Diverts (a >>= k) := by
  intro s v s' heq
  obtain ⟨u, t, -, hk⟩ := bind_eq_value.mp heq
  exact h u t v s' hk

theorem Diverts.ite {c : Prop} [Decidable c] {a b : Run σ α} (ha : Diverts a) (hb : Diverts b) :
    Diverts (if c then a else b) := by
  split_ifs
  · exact ha
  · exact hb

theorem Diverts.cleanup {a : Run σ α} (h : Diverts a) (d : Run σ Unit) :
    Diverts (a.cleanup d) := by
  intro s v s' heq
  unfold Run.cleanup at heq
  cases ha : a s with
  | none => simp [ha] at heq
  | some r =>
    obtain ⟨_ | j, t⟩ := r
    · exact h s _ _ ha
    · rw [ha] at heq
      cases hd : d t with
      | none => cases j <;> simp [hd] at heq
      | some r' => obtain ⟨_ | j', t'⟩ := r' <;> cases j <;> simp [hd] at heq

end Run

end Abrupt
