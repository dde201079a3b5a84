import Mathlib.Tactic

/-!
# Forward dataflow

Walks through a flow graph, and the iteration that recomputes nodes from a queue until the
queue is empty: then no node would change any more.
-/

namespace Dataflow

variable {succs : ℕ → List ℕ} {entry : ℕ}

/-! ### Walks -/

/-- `Walk succs entry bs b`: from `entry`, the nodes `bs` one after the other, and then at `b`. -/
inductive Walk (succs : ℕ → List ℕ) (entry : ℕ) : List ℕ → ℕ → Prop
  | entry : Walk succs entry [] entry
  | step {bs : List ℕ} {b c : ℕ} (h : Walk succs entry bs b) (hc : c ∈ succs b) :
      Walk succs entry (bs ++ [b]) c

/-- A node on a walk was reached by a walk that had not met it before. -/
theorem Walk.exists_first_of_mem {bs : List ℕ} {b c : ℕ} (h : Walk succs entry bs c) (hb : b ∈ bs) :
    ∃ bs', Walk succs entry bs' b ∧ b ∉ bs' := by
  induction h with
  | entry => cases hb
  | @step bs d c h hc ih =>
    by_cases hmem : b ∈ bs
    · exact ih hmem
    · obtain rfl : b = d := by simpa [hmem] using hb
      exact ⟨bs, h, hmem⟩

/-- A node that is reached is reached by a walk that meets it for the first time. -/
theorem Walk.exists_first {bs : List ℕ} {b : ℕ} (h : Walk succs entry bs b) :
    ∃ bs', Walk succs entry bs' b ∧ b ∉ bs' := by
  by_cases hb : b ∈ bs
  · exact h.exists_first_of_mem hb
  · exact ⟨bs, h, hb⟩

/-! ### Iteration with a queue -/

variable {σ : Type*}

/-- Take a node off the queue and process it; when that changed something for its successors, they
join the queue. -/
def solve (succs : ℕ → List ℕ) (process : ℕ → σ → σ × Bool) : ℕ → List ℕ → σ → Option σ
  | _, [], s => some s
  | 0, _ :: _, _ => none
  | fuel + 1, b :: work, s =>
    let (s, changed) := process b s
    solve succs process fuel (if changed then work ++ succs b else work) s

/-- Processing a node makes it stable, and can make unstable only its successors, and those only
when it reports a change. -/
structure Settles (succs : ℕ → List ℕ) (process : ℕ → σ → σ × Bool) (Stable : ℕ → σ → Prop) :
    Prop where
  step : ∀ b s c, c = b ∨ Stable c s → ((process b s).2 = true → c ∉ succs b) →
    Stable c (process b s).1

/-- When the queue is empty every node is stable. -/
theorem Settles.solve_stable {process : ℕ → σ → σ × Bool} {Stable : ℕ → σ → Prop}
    (hsettles : Settles succs process Stable) {n fuel : ℕ} {work : List ℕ} {s t : σ}
    (h : solve succs process fuel work s = some t)
    (hs : ∀ c < n, c ∉ work → Stable c s) : ∀ c < n, Stable c t := by
  induction fuel generalizing work s with
  | zero =>
    cases work with
    | nil =>
      obtain rfl := Option.some.inj h
      exact fun c hc => hs c hc (List.not_mem_nil)
    | cons b work => cases h
  | succ fuel ih =>
    cases work with
    | nil =>
      obtain rfl := Option.some.inj h
      exact fun c hc => hs c hc (List.not_mem_nil)
    | cons b work =>
      refine ih h fun c hc hmem => hsettles.step b s c ?_ fun hchanged => ?_
      · rcases eq_or_ne c b with rfl | hne
        · exact .inl rfl
        · refine .inr (hs c hc fun hcw => ?_)
          have hcw' : c ∈ work := (List.mem_cons.1 hcw).resolve_left hne
          split_ifs at hmem
          · exact hmem (List.mem_append_left _ hcw')
          · exact hmem hcw'
      · rw [if_pos hchanged, List.mem_append, not_or] at hmem
        exact hmem.2

/-- Processing a node keeps the invariant, and when it reports a change a bounded rank rises. -/
structure Climbs (process : ℕ → σ → σ × Bool) (Inv : σ → Prop) (rank : σ → ℕ) (top : ℕ) :
    Prop where
  keeps : ∀ b s, Inv s → Inv (process b s).1
  bounded : ∀ s, Inv s → rank s ≤ top
  rises : ∀ b s, Inv s → (process b s).2 = true → rank s < rank (process b s).1
  holds : ∀ b s, Inv s → (process b s).2 = false → rank (process b s).1 = rank s

theorem solve_mono {process : ℕ → σ → σ × Bool} {fuel fuel' : ℕ} (hle : fuel ≤ fuel')
    {work : List ℕ} {s t : σ} (h : solve succs process fuel work s = some t) :
    solve succs process fuel' work s = some t := by
  induction fuel generalizing fuel' work s with
  | zero =>
    cases work with
    | nil => cases fuel' <;> exact h
    | cons b work => cases h
  | succ fuel ih =>
    obtain ⟨fuel', rfl⟩ : ∃ m, fuel' = m + 1 := ⟨fuel' - 1, by omega⟩
    cases work with
    | nil => exact h
    | cons b work =>
      have hrest : solve succs process fuel
          (if (process b s).2 = true then work ++ succs b else work) (process b s).1 = some t := h
      exact ih (Nat.le_of_succ_le_succ hle) hrest

/-! ### The configurations of a run -/

/-- `Turns succs process work₀ s₀ work s`: from the queue `work₀` and the state `s₀`, the iteration
comes to the queue `work` and the state `s`. -/
inductive Turns (succs : ℕ → List ℕ) (process : ℕ → σ → σ × Bool) (work₀ : List ℕ) (s₀ : σ) :
    List ℕ → σ → Prop
  | start : Turns succs process work₀ s₀ work₀ s₀
  | turn {b : ℕ} {work : List ℕ} {s : σ} (h : Turns succs process work₀ s₀ (b :: work) s) :
      Turns succs process work₀ s₀ (if (process b s).2 then work ++ succs b else work)
        (process b s).1

section Run

variable {process : ℕ → σ → σ × Bool} {work₀ : List ℕ} {s₀ : σ}

/-- Where every turn keeps a property of the queue and the state, every configuration has it. -/
theorem Turns.invariant {P : List ℕ → σ → Prop} (h₀ : P work₀ s₀)
    (hstep : ∀ b work s, Turns succs process work₀ s₀ (b :: work) s → P (b :: work) s →
      P (if (process b s).2 then work ++ succs b else work) (process b s).1)
    {work : List ℕ} {s : σ} (h : Turns succs process work₀ s₀ work s) : P work s := by
  induction h with
  | start => exact h₀
  | turn h ih => exact hstep _ _ _ h ih

/-- The queue empties when every change raises a bounded rank: it pays for the successors that it
puts on the queue. -/
theorem Turns.exists_solve {rank : σ → ℕ} {top d : ℕ}
    (hd : ∀ b work s, Turns succs process work₀ s₀ (b :: work) s → (succs b).length ≤ d)
    (hbounded : ∀ work s, Turns succs process work₀ s₀ work s → rank s ≤ top)
    (hrises : ∀ b work s, Turns succs process work₀ s₀ (b :: work) s → (process b s).2 = true →
      rank s < rank (process b s).1)
    (hholds : ∀ b work s, Turns succs process work₀ s₀ (b :: work) s → (process b s).2 = false →
      rank (process b s).1 = rank s)
    {fuel : ℕ} {work : List ℕ} {s : σ} (h : Turns succs process work₀ s₀ work s)
    (hfuel : (top - rank s) * (d + 1) + work.length ≤ fuel) :
    ∃ t, solve succs process fuel work s = some t ∧ Turns succs process work₀ s₀ [] t := by
  induction fuel generalizing work s with
  | zero =>
    obtain rfl : work = [] := List.eq_nil_of_length_eq_zero (by omega)
    exact ⟨s, rfl, h⟩
  | succ fuel ih =>
    cases work with
    | nil => exact ⟨s, rfl, h⟩
    | cons b work =>
      have hnext := h.turn
      refine ih hnext ?_
      rw [List.length_cons] at hfuel
      cases hc : (process b s).2 with
      | true =>
        have hlt := hrises b work s h hc
        have htop := hbounded _ _ hnext
        have hb := hd b work s h
        have hmul : (top - rank (process b s).1 + 1) * (d + 1) ≤ (top - rank s) * (d + 1) :=
          Nat.mul_le_mul_right _ (by omega)
        rw [Nat.add_mul] at hmul
        rw [if_pos rfl, List.length_append]
        omega
      | false =>
        rw [hholds b work s h hc, if_neg (by simp)]
        omega

/-- The queue never empties when it never runs out in a set of configurations that no turn
leaves. -/
theorem solve_eq_none {P : List ℕ → σ → Prop} (hnil : ∀ s, ¬ P [] s)
    (hstep : ∀ b work s, P (b :: work) s →
      P (if (process b s).2 then work ++ succs b else work) (process b s).1) (fuel : ℕ)
    {work : List ℕ} {s : σ} (h : P work s) : solve succs process fuel work s = none := by
  induction fuel generalizing work s with
  | zero =>
    cases work with
    | nil => exact absurd h (hnil s)
    | cons b work => rfl
  | succ fuel ih =>
    cases work with
    | nil => exact absurd h (hnil s)
    | cons b work => exact ih (hstep b work s h)

end Run

/-- The queue empties: every change pays for the successors it puts on the queue. -/
theorem Climbs.exists_solve {process : ℕ → σ → σ × Bool} {Inv : σ → Prop} {rank : σ → ℕ} {top : ℕ}
    (h : Climbs process Inv rank top) {d : ℕ} (hd : ∀ b, (succs b).length ≤ d) {fuel : ℕ}
    {work : List ℕ} {s : σ} (hs : Inv s) (hfuel : (top - rank s) * (d + 1) + work.length ≤ fuel) :
    ∃ t, solve succs process fuel work s = some t ∧ Inv t := by
  have hinv {work' : List ℕ} {s' : σ} (hrun : Turns succs process work s work' s') : Inv s' :=
    hrun.invariant (P := fun _ s => Inv s) hs fun b _ s _ hs => h.keeps b s hs
  obtain ⟨t, hsolve, hrun⟩ := Turns.exists_solve (fun b _ _ _ => hd b)
    (fun _ s hrun => h.bounded s (hinv hrun)) (fun b _ s hrun => h.rises b s (hinv hrun))
    (fun b _ s hrun => h.holds b s (hinv hrun)) .start hfuel
  exact ⟨t, hsolve, hinv hrun⟩

end Dataflow
