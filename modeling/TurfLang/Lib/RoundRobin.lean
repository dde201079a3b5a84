import Mathlib.Tactic

/-!
# Round robin

Nodes are visited one after the other, each visit says whether it changed anything, and the round
is repeated until none of its visits did. When every change lowers a measure, the rounds end, in a
state that no visit changes.
-/

namespace RoundRobin

variable {σ : Type*} (visit : ℕ → σ → σ × Bool) (n : ℕ)

/-- The visits of one round to the given nodes. -/
def round : List ℕ → σ × Bool → σ × Bool
  | [], r => r
  | b :: bs, (s, changed) => round bs ((visit b s).1, changed || (visit b s).2)

/-- `while (changed)`, for at most `fuel` rounds. -/
def run : ℕ → σ → Option σ
  | 0, _ => none
  | fuel + 1, s =>
    if (round visit (List.range n) (s, false)).2 then
      run fuel (round visit (List.range n) (s, false)).1
    else some (round visit (List.range n) (s, false)).1

/-- A visit keeps the invariant, lowers the measure when it reports a change, and changes nothing
when it does not. -/
structure Descends (Inv : σ → Prop) (measure : σ → ℕ) : Prop where
  keeps : ∀ b < n, ∀ s, Inv s → Inv (visit b s).1
  drops : ∀ b < n, ∀ s, Inv s → (visit b s).2 = true → measure (visit b s).1 < measure s
  quiet : ∀ b < n, ∀ s, Inv s → (visit b s).2 = false → (visit b s).1 = s

variable {visit n}

theorem run_mono {fuel fuel' : ℕ} (hle : fuel ≤ fuel') {s t : σ} (h : run visit n fuel s = some t) :
    run visit n fuel' s = some t := by
  induction fuel generalizing fuel' s with
  | zero => simp [run] at h
  | succ fuel ih =>
    obtain ⟨fuel', rfl⟩ : ∃ m, fuel' = m + 1 := ⟨fuel' - 1, by omega⟩
    unfold run at h ⊢
    split at h
    case isTrue hc => rw [if_pos hc]; exact ih (by omega) h
    case isFalse hc => rw [if_neg hc]; exact h

namespace Descends

variable {Inv : σ → Prop} {measure : σ → ℕ}

/-- After a round the invariant holds; either the measure is lower, or nothing has changed and
nothing would. -/
theorem round_spec (h : Descends visit n Inv measure) : ∀ (bs : List ℕ), (∀ b ∈ bs, b < n) →
    ∀ (s : σ) (changed : Bool), Inv s →
      Inv (round visit bs (s, changed)).1 ∧
      measure (round visit bs (s, changed)).1 ≤ measure s ∧
      ((round visit bs (s, changed)).2 = true →
        changed = true ∨ measure (round visit bs (s, changed)).1 < measure s) ∧
      ((round visit bs (s, changed)).2 = false →
        changed = false ∧ (round visit bs (s, changed)).1 = s ∧ ∀ b ∈ bs, (visit b s).2 = false)
  | [], _, s, changed, hs => ⟨hs, le_rfl, .inl, fun hc => ⟨hc, rfl, by simp⟩⟩
  | b :: bs, hbs, s, changed, hs => by
    have hb := hbs b List.mem_cons_self
    have hs' := h.keeps b hb s hs
    obtain ⟨hinv, hle, hlow, hquiet⟩ := round_spec h bs
      (fun c hc => hbs c (List.mem_cons_of_mem _ hc)) (visit b s).1 (changed || (visit b s).2) hs'
    rw [round]
    cases hv : (visit b s).2 with
    | true =>
      rw [hv, Bool.or_true] at hinv hle hlow hquiet
      have hlt := h.drops b hb s hs hv
      rw [Bool.or_true]
      exact ⟨hinv, by omega, fun _ => .inr (by omega), fun hf => absurd (hquiet hf).1 (by simp)⟩
    | false =>
      have heq := h.quiet b hb s hs hv
      rw [hv, Bool.or_false, heq] at hinv hle hlow hquiet
      rw [Bool.or_false, heq]
      refine ⟨hinv, hle, hlow, fun hf => ?_⟩
      obtain ⟨hc, hr, hall⟩ := hquiet hf
      refine ⟨hc, hr, fun c hc => ?_⟩
      rcases List.mem_cons.mp hc with rfl | hc
      · exact hv
      · exact hall c hc

/-- The rounds end, and then no visit changes anything. -/
theorem exists_run (h : Descends visit n Inv measure) {fuel : ℕ} {s : σ} (hs : Inv s)
    (hfuel : measure s < fuel) :
    ∃ t, run visit n fuel s = some t ∧ Inv t ∧ ∀ b < n, (visit b t).2 = false := by
  induction fuel generalizing s with
  | zero => omega
  | succ fuel ih =>
    obtain ⟨hinv, -, hlow, hquiet⟩ := h.round_spec (List.range n)
      (fun b hb => List.mem_range.mp hb) s false hs
    rw [run]
    by_cases hc : (round visit (List.range n) (s, false)).2 = true
    · rw [if_pos hc]
      have hlt := (hlow hc).resolve_left (by simp)
      exact ih hinv (by omega)
    · obtain ⟨-, heq, hall⟩ := hquiet (by simpa using hc)
      rw [if_neg hc, heq]
      exact ⟨s, rfl, hs, fun b hb => hall b (List.mem_range.mpr hb)⟩

end Descends

end RoundRobin
