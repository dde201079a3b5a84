import Mathlib.Tactic

/-!
# Code that may raise

Computations over a state that return a value or leave by an exception, and then keep what they
have done to the state. `Meets x s Q E` is the weakest condition: from `s`, what `x` returns
satisfies `Q`, or it raises in a state that satisfies `E`. The lemmas compute it along the code.
-/

namespace Raising

variable {ε σ α β : Type}

/-- From `s` on, `x` returns with `Q` or raises with `E`. -/
def Meets (x : EStateM ε σ α) (s : σ) (Q : α → σ → Prop) (E : σ → Prop) : Prop :=
  match x s with
  | .ok a s' => Q a s'
  | .error _ s' => E s'

variable {x : EStateM ε σ α} {s s' : σ} {Q Q' : α → σ → Prop} {E E' : σ → Prop}

theorem Meets.ok (h : Meets x s Q E) {a : α} (hx : x s = .ok a s') : Q a s' := by
  rwa [Meets, hx] at h

theorem Meets.error (h : Meets x s Q E) {e : ε} (hx : x s = .error e s') : E s' := by
  rwa [Meets, hx] at h

theorem Meets.mono (h : Meets x s Q E) (hQ : ∀ a s', Q a s' → Q' a s') (hE : ∀ s', E s' → E' s') :
    Meets x s Q' E' := by
  unfold Meets at h ⊢
  split at h
  case h_1 a s' _ => exact hQ a s' h
  case h_2 e s' _ => exact hE s' h

/-- What holds whatever happens. -/
theorem Meets.of_forall (hQ : ∀ a s', Q a s') (hE : ∀ s', E s') : Meets x s Q E := by
  unfold Meets
  split
  · exact hQ _ _
  · exact hE _

theorem meets_bind {f : α → EStateM ε σ β} {Q : β → σ → Prop} :
    Meets (x >>= f) s Q E ↔ Meets x s (fun a s' => Meets (f a) s' Q E) E := by
  simp only [Meets, bind, EStateM.bind]
  cases x s <;> exact Iff.rfl

@[simp] theorem meets_pure {a : α} : Meets (pure a : EStateM ε σ α) s Q E ↔ Q a s := Iff.rfl

@[simp] theorem meets_get {Q : σ → σ → Prop} : Meets (get : EStateM ε σ σ) s Q E ↔ Q s s := Iff.rfl

@[simp] theorem meets_modify {f : σ → σ} {Q : PUnit → σ → Prop} :
    Meets (modify f : EStateM ε σ PUnit) s Q E ↔ Q ⟨⟩ (f s) := Iff.rfl

@[simp] theorem meets_throw {e : ε} : Meets (throw e : EStateM ε σ α) s Q E ↔ E s := Iff.rfl

theorem meets_ite {p : Prop} [Decidable p] {y : EStateM ε σ α} :
    Meets (if p then x else y) s Q E ↔ (p → Meets x s Q E) ∧ (¬ p → Meets y s Q E) := by
  by_cases hp : p <;> simp [hp]

end Raising
