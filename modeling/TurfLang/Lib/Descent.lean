import Mathlib.Data.Set.Finite.Basic
import Mathlib.Dynamics.PeriodicPts.Defs
import Mathlib.Logic.Relation
import Mathlib.Data.Fintype.Card

/-!
# Descending along a relation

A descent along a relation ends where only finitely many points are reached and none of them
reaches itself. A walk by a function that comes back to a point comes by what is after it again
and again, and a walk by a partial function that does so never ends.
-/

namespace Descent

open Relation

variable {α : Type*}

/-- Every descent from `a` ends when it stays among finitely many points that are on no cycle. -/
theorem acc_of_acyclic {r : α → α → Prop} {a : α} (hfin : {b | ReflTransGen r a b}.Finite)
    (h : ∀ b, ReflTransGen r a b → ¬ TransGen r b b) : Acc (fun b c => r c b) a := by
  have : Finite {b // ReflTransGen r a b} := hfin
  let lower : {b // ReflTransGen r a b} → {b // ReflTransGen r a b} → Prop :=
    fun b c => TransGen r c.1 b.1
  have hwf : WellFounded lower := by
    have : IsTrans _ lower := ⟨fun b c d hbc hcd => hcd.trans hbc⟩
    have : Std.Irrefl lower := ⟨fun b => h b.1 b.2⟩
    exact Finite.wellFounded_of_trans_of_irrefl lower
  suffices ∀ b : {b // ReflTransGen r a b}, Acc (fun b c => r c b) b.1 from this ⟨a, .refl⟩
  intro b
  induction b using hwf.induction with
  | _ b ih => exact ⟨_, fun c hc => ih ⟨c, b.2.tail hc⟩ (.single hc)⟩

/-- Where a walk has come back once, it comes by beyond every bound. -/
theorem exists_iterate_eq (f : α → α) {a : α} {m n i : ℕ} (hlt : m < n) (h : f^[m] a = f^[n] a)
    (hi : m ≤ i) (k : ℕ) : ∃ j, k ≤ j ∧ f^[j] a = f^[i] a := by
  have hperiod : Function.IsPeriodicPt f (n - m) (f^[m] a) := by
    rw [Function.IsPeriodicPt, Function.IsFixedPt, ← Function.iterate_add_apply,
      Nat.sub_add_cancel hlt.le, h]
  refine ⟨i - m + (n - m) * k + m, ?_, ?_⟩
  · have : k ≤ (n - m) * k := Nat.le_mul_of_pos_left k (by omega)
    omega
  · calc f^[i - m + (n - m) * k + m] a = f^[i - m] (f^[(n - m) * k] (f^[m] a)) := by
          rw [Function.iterate_add_apply, Function.iterate_add_apply]
      _ = f^[i - m] (f^[m] a) := by rw [(hperiod.mul_const k).eq]
      _ = f^[i] a := by rw [← Function.iterate_add_apply, Nat.sub_add_cancel hi]

/-! ### Walks that may end -/

/-- `n` steps of a partial function. -/
def walk (f : α → Option α) : ℕ → α → Option α
  | 0, a => some a
  | n + 1, a => (f a).bind (walk f n)

theorem walk_add (f : α → Option α) (m n : ℕ) (a : α) :
    walk f (m + n) a = (walk f m a).bind (walk f n) := by
  induction m generalizing a with
  | zero => rw [Nat.zero_add]; rfl
  | succ m ih =>
    rw [Nat.succ_add, walk, walk]
    cases f a with
    | none => rfl
    | some b => exact ih b

/-- A walk that comes back to a point never ends. -/
theorem walk_isSome_of_cycle {f : α → Option α} {a c : α} {m n : ℕ} (hm : walk f m a = some c)
    (hn : walk f (n + 1) c = some c) (k : ℕ) : (walk f k a).isSome := by
  have hround (j : ℕ) : walk f (m + (n + 1) * j) a = some c := by
    induction j with
    | zero => exact hm
    | succ j ih => rw [Nat.mul_succ, ← Nat.add_assoc, walk_add, ih, Option.bind_some, hn]
  have hle : k ≤ m + (n + 1) * k := Nat.le_add_left_of_le (Nat.le_mul_of_pos_left k (by omega))
  obtain ⟨rest, hrest⟩ := Nat.exists_eq_add_of_le hle
  have hwalk := hround k
  rw [hrest, walk_add] at hwalk
  obtain ⟨b, hb, -⟩ := Option.bind_eq_some_iff.mp hwalk
  rw [hb]
  rfl

end Descent
