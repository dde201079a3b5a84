import Mathlib.Tactic

/-!
# Taking elements away one by one, up to an equivalence

Each element of a list takes the first equivalent one away from another list. This succeeds to
the end when every class has at least as many elements there: which of the equivalent elements
is taken never matters.
-/

namespace TakeAway

variable {α : Type*} (r : α → α → Bool)

/-- Whether every element of the second list finds one to take away. -/
def takeAll : List α → List α → Bool
  | _, [] => true
  | pool, x :: xs => if pool.any (r · x) then takeAll (pool.eraseP (r · x)) xs else false

variable {r} (hr : Equivalence fun x y => r x y = true)

include hr

/-- Equivalent elements are equivalent to the same ones. -/
theorem congr_right {x y : α} (h : r x y = true) (z : α) : r z x = r z y := by
  rw [Bool.eq_iff_iff]
  exact ⟨fun hz => hr.trans hz h, fun hz => hr.trans hz (hr.symm h)⟩

theorem congr_left {x y : α} (h : r x y = true) (z : α) : r x z = r y z := by
  rw [Bool.eq_iff_iff]
  exact ⟨fun hz => hr.trans (hr.symm h) hz, fun hz => hr.trans h hz⟩

/-- The class of the element taken away loses one, and no other does. -/
theorem countP_eraseP {pool : List α} {x : α} (hx : pool.any (r · x) = true) (z : α) :
    (pool.eraseP (r · x)).countP (r · z) + (if r x z then 1 else 0) = pool.countP (r · z) := by
  obtain ⟨y, hy, hyx⟩ := List.any_eq_true.mp hx
  obtain ⟨b, l₁, l₂, -, hb, rfl, herase⟩ := List.exists_of_eraseP (p := fun y => r y x) hy hyx
  rw [herase, ← congr_left hr hb z]
  simp only [List.countP_append, List.countP_cons]
  split <;> omega

/-- The greedy choice is enough: every class is counted, and none has to have more. -/
theorem takeAll_iff (xs : List α) : ∀ pool, takeAll r pool xs = true ↔
    ∀ z, xs.countP (r · z) ≤ pool.countP (r · z) := by
  induction xs with
  | nil => simp [takeAll]
  | cons x xs ih =>
    intro pool
    rw [takeAll]
    by_cases hx : pool.any (r · x) = true
    · rw [if_pos hx, ih]
      refine forall_congr' fun z => ?_
      have hcount := countP_eraseP hr hx z
      rw [List.countP_cons]
      omega
    · rw [if_neg hx]
      refine ⟨fun h => (nomatch h), fun h => (hx ?_).elim⟩
      have hpos : 0 < pool.countP (r · x) := by
        refine lt_of_lt_of_le ?_ (h x)
        rw [List.countP_cons, if_pos (hr.refl x)]
        exact Nat.succ_pos _
      obtain ⟨y, hy, hyx⟩ := List.countP_pos_iff.mp hpos
      exact List.any_eq_true.mpr ⟨y, hy, hyx⟩

end TakeAway
