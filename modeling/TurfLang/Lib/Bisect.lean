import Mathlib.Tactic

/-!
# Bisection

The two binary searches over positions `lo ≤ i < hi`: for the point where a predicate that
holds on an initial part stops holding, and for the position a three-way comparison calls
equal.
-/

namespace Bisect

/-! ### The partition point -/

/-- `while (lo < hi) { mid = lo + (hi - lo) / 2; if (p(mid)) lo = mid + 1; else hi = mid; }`,
returning `lo`. -/
def partitionPoint (p : ℕ → Bool) (lo hi : ℕ) : ℕ :=
  if lo < hi then
    let mid := lo + (hi - lo) / 2
    if p mid then partitionPoint p (mid + 1) hi else partitionPoint p lo mid
  else lo
termination_by hi - lo
decreasing_by all_goals omega

/-- The partition point of a predicate that holds on an initial part. -/
theorem partitionPoint_spec {p : ℕ → Bool} {lo hi : ℕ} (hle : lo ≤ hi)
    (hp : ∀ i j, i < j → j < hi → p j = true → p i = true) :
    lo ≤ partitionPoint p lo hi ∧ partitionPoint p lo hi ≤ hi ∧
      (∀ i, lo ≤ i → i < partitionPoint p lo hi → p i = true) ∧
      ∀ i, partitionPoint p lo hi ≤ i → i < hi → p i = false := by
  fun_induction partitionPoint p lo hi with
  | case1 lo hi hlt mid hmid ih =>
    have hm : lo ≤ mid ∧ mid < hi := ⟨by omega, by omega⟩
    obtain ⟨h₁, h₂, h₃, h₄⟩ := ih (by omega) hp
    refine ⟨by omega, h₂, fun i hi' hir => ?_, h₄⟩
    rcases Nat.lt_or_ge mid i with h | h
    · exact h₃ i (by omega) hir
    · rcases Nat.lt_or_eq_of_le h with h | rfl
      · exact hp i mid h hm.2 hmid
      · exact hmid
  | case2 lo hi hlt mid hmid ih =>
    have hm : lo ≤ mid ∧ mid < hi := ⟨by omega, by omega⟩
    obtain ⟨h₁, h₂, h₃, h₄⟩ := ih (by omega) fun i j hij hj => hp i j hij (by omega)
    refine ⟨h₁, by omega, h₃, fun i hir hi' => ?_⟩
    rcases Nat.lt_or_ge i mid with h | h
    · exact h₄ i hir h
    · rcases Nat.lt_or_eq_of_le h with h | rfl
      · by_contra hpi
        exact hmid (hp mid i h hi' (by simpa using hpi))
      · simpa using hmid
  | case3 lo hi hlt => exact ⟨le_rfl, hle, by omega, by omega⟩

/-! ### An exact match -/

/-- The bisection that returns the first middle position `c` calls equal. -/
def search (c : ℕ → Ordering) (lo hi : ℕ) : Option ℕ :=
  if lo < hi then
    let mid := lo + (hi - lo) / 2
    match c mid with
    | .eq => some mid
    | .lt => search c (mid + 1) hi
    | .gt => search c lo mid
  else none
termination_by hi - lo
decreasing_by all_goals omega

theorem of_search {c : ℕ → Ordering} {lo hi i : ℕ} (h : search c lo hi = some i) :
    lo ≤ i ∧ i < hi ∧ c i = .eq := by
  fun_induction search c lo hi with
  | case1 lo hi hlt mid hc =>
    obtain rfl : mid = i := by simpa using h
    exact ⟨by omega, by omega, hc⟩
  | case2 lo hi hlt mid hc ih =>
    obtain ⟨h₁, h₂, h₃⟩ := ih h
    exact ⟨by omega, h₂, h₃⟩
  | case3 lo hi hlt mid hc ih =>
    obtain ⟨h₁, h₂, h₃⟩ := ih h
    exact ⟨h₁, by omega, h₃⟩
  | case4 => cases h

/-- The only equal position is found when those before it are smaller and those after it
greater. -/
theorem search_eq_some {c : ℕ → Ordering} {lo hi i : ℕ} (hlo : lo ≤ i) (hhi : i < hi)
    (heq : c i = .eq) (hlt : ∀ j < i, c j = .lt) (hgt : ∀ j, i < j → j < hi → c j = .gt) :
    search c lo hi = some i := by
  fun_induction search c lo hi with
  | case1 lo hi hlh mid hc =>
    rcases Nat.lt_trichotomy mid i with h | h | h
    · simp [hlt mid h] at hc
    · rw [h]
    · simp [hgt mid h (by omega)] at hc
  | case2 lo hi hlh mid hc ih =>
    refine ih ?_ hhi hgt
    rcases Nat.lt_trichotomy mid i with h | h | h
    · omega
    · simp [h, heq] at hc
    · simp [hgt mid h (by omega)] at hc
  | case3 lo hi hlh mid hc ih =>
    refine ih hlo ?_ fun j hj hjm => hgt j hj (by omega)
    rcases Nat.lt_trichotomy mid i with h | h | h
    · simp [hlt mid h] at hc
    · simp [h, heq] at hc
    · exact h
  | case4 lo hi hlh => omega

end Bisect
