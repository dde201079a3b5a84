import Mathlib.Data.Finset.Card
import Mathlib.Tactic

/-!
# Marking with a worklist

A node is marked when it is first met, and put on the worklist; each node taken off it has its
successors considered. Over a finite set of nodes the loop ends, with exactly the nodes
reachable from the roots marked, whether the worklist is a stack or a queue.
-/

namespace Worklist

variable {α : Type*} [DecidableEq α]

/-- The least set that contains the roots and is closed under the edges. -/
inductive Reach (root : α → Prop) (edge : α → α → Prop) : α → Prop
  | root {a : α} (h : root a) : Reach root edge a
  | edge {a b : α} (ha : Reach root edge a) (h : edge a b) : Reach root edge b

/-- The marked nodes and the worklist. -/
structure State (α : Type*) where
  marked : Finset α
  work : List α

/-- Mark a node and put it on the worklist, unless it is marked already. -/
def consider (s : State α) (a : α) : State α :=
  if a ∈ s.marked then s else ⟨insert a s.marked, a :: s.work⟩

/-- Take nodes off the worklist and consider their successors, until it is empty. -/
def loop (succ : α → List α) : ℕ → State α → Option (Finset α)
  | _, ⟨marked, []⟩ => some marked
  | 0, ⟨_, _ :: _⟩ => none
  | fuel + 1, ⟨marked, a :: work⟩ => loop succ fuel ((succ a).foldl consider ⟨marked, work⟩)

/-! ### Considering several nodes -/

section Consider

variable (as : List α) (s : State α)

theorem mem_marked_foldl {a : α} :
    a ∈ (as.foldl consider s).marked ↔ a ∈ s.marked ∨ a ∈ as := by
  induction as generalizing s with
  | nil => simp
  | cons b as ih =>
    rw [List.foldl_cons, ih, consider]
    split_ifs with hb
    · simp only [List.mem_cons]
      constructor
      · rintro (h | h)
        · exact .inl h
        · exact .inr (.inr h)
      · rintro (h | rfl | h)
        · exact .inl h
        · exact .inl hb
        · exact .inr h
    · simp only [Finset.mem_insert, List.mem_cons]
      tauto

/-- Nodes stay on the worklist, and what is new there is newly marked. -/
theorem mem_work_foldl {a : α} :
    a ∈ (as.foldl consider s).work ↔
      a ∈ s.work ∨ (a ∈ (as.foldl consider s).marked ∧ a ∉ s.marked) := by
  induction as generalizing s with
  | nil => simp
  | cons b as ih =>
    rw [List.foldl_cons, ih]
    have hmono : a ∈ (consider s b).marked → a ∈ (as.foldl consider (consider s b)).marked :=
      fun h => (mem_marked_foldl as _).2 (.inl h)
    rw [consider] at hmono ⊢
    split_ifs at hmono ⊢ with hb
    · rfl
    · simp only [List.mem_cons, Finset.mem_insert, not_or] at hmono ⊢
      constructor
      · rintro ((rfl | h) | ⟨h, h₁, h₂⟩)
        · exact .inr ⟨hmono (.inl rfl), hb⟩
        · exact .inl h
        · exact .inr ⟨h, h₂⟩
      · rintro (h | ⟨h, hn⟩)
        · exact .inl (.inr h)
        · rcases eq_or_ne a b with rfl | hne
          · exact .inl (.inl rfl)
          · exact .inr ⟨h, hne, hn⟩

/-- Each node newly marked is one more on the worklist. -/
theorem card_foldl : (as.foldl consider s).marked.card + s.work.length =
    s.marked.card + (as.foldl consider s).work.length := by
  induction as generalizing s with
  | nil => rfl
  | cons b as ih =>
    have := ih (consider s b)
    rw [List.foldl_cons]
    by_cases hb : b ∈ s.marked
    · rw [consider, if_pos hb] at this ⊢
      exact this
    · rw [consider, if_neg hb] at this ⊢
      simp only [Finset.card_insert_of_notMem hb, List.length_cons] at this
      omega

end Consider

/-! ### The loop -/

/-- What holds whenever the loop is entered. -/
structure Inv (roots : List α) (succ : α → List α) (s : State α) : Prop where
  sound : ∀ a ∈ s.marked, Reach (· ∈ roots) (fun a b => b ∈ succ a) a
  roots_marked : ∀ a ∈ roots, a ∈ s.marked
  work_marked : ∀ a ∈ s.work, a ∈ s.marked
  closed : ∀ a ∈ s.marked, a ∉ s.work → ∀ b ∈ succ a, b ∈ s.marked

variable {roots : List α} {succ : α → List α}

theorem Inv.init : Inv roots succ (roots.foldl consider ⟨∅, []⟩) where
  sound a ha := by
    rw [mem_marked_foldl] at ha
    exact .root (by simpa using ha)
  roots_marked a ha := (mem_marked_foldl _ _).2 (.inr ha)
  work_marked a ha := by
    rw [mem_work_foldl] at ha
    exact ha.elim (by simp) And.left
  closed a ha hw := by
    rw [mem_work_foldl] at hw
    simp [ha] at hw

theorem Inv.step {marked : Finset α} {a : α} {work : List α}
    (h : Inv roots succ ⟨marked, a :: work⟩) :
    Inv roots succ ((succ a).foldl consider ⟨marked, work⟩) where
  sound b hb := by
    rw [mem_marked_foldl] at hb
    rcases hb with hb | hb
    · exact h.sound b hb
    · exact .edge (h.sound a (h.work_marked a (by simp))) hb
  roots_marked b hb := (mem_marked_foldl _ _).2 (.inl (h.roots_marked b hb))
  work_marked b hb := by
    rw [mem_work_foldl] at hb
    rcases hb with hb | hb
    · exact (mem_marked_foldl _ _).2 (.inl (h.work_marked b (by simp [hb])))
    · exact hb.1
  closed b hb hw c hc := by
    rw [mem_work_foldl, not_or, not_and_not_right] at hw
    have hbm : b ∈ marked := hw.2 hb
    rw [mem_marked_foldl]
    rcases eq_or_ne b a with rfl | hne
    · exact .inr hc
    · exact .inl (h.closed b hbm (by simp [hne, hw.1]) c hc)

/-- Where a node is put on the worklist makes no difference to what is marked. -/
structure Puts (put : State α → α → State α) : Prop where
  marked_eq : ∀ s a, (put s a).marked = (consider s a).marked
  work_perm : ∀ s a, (put s a).work.Perm (consider s a).work

theorem Puts.consider : Puts (consider : State α → α → State α) :=
  ⟨fun _ _ => rfl, fun _ _ => .refl _⟩

/-- Mark a node and put it at the end of the worklist, unless it is marked already. -/
def considerLast (s : State α) (a : α) : State α :=
  if a ∈ s.marked then s else ⟨insert a s.marked, s.work ++ [a]⟩

theorem Puts.considerLast : Puts (considerLast : State α → α → State α) where
  marked_eq s a := by
    rw [Worklist.considerLast, Worklist.consider]
    split_ifs <;> rfl
  work_perm s a := by
    rw [Worklist.considerLast, Worklist.consider]
    split_ifs
    · exact .refl _
    · exact List.perm_append_singleton a s.work

/-- The loop with another way to put nodes on the worklist. -/
def loopWith (put : State α → α → State α) (succ : α → List α) : ℕ → State α → Option (Finset α)
  | _, ⟨marked, []⟩ => some marked
  | 0, ⟨_, _ :: _⟩ => none
  | fuel + 1, ⟨marked, a :: work⟩ => loopWith put succ fuel ((succ a).foldl put ⟨marked, work⟩)

theorem loop_eq_loopWith (succ : α → List α) (fuel : ℕ) (s : State α) :
    loop succ fuel s = loopWith consider succ fuel s := by
  induction fuel generalizing s with
  | zero =>
    obtain ⟨marked, _ | ⟨a, work⟩⟩ := s <;> rfl
  | succ fuel ih =>
    obtain ⟨marked, _ | ⟨a, work⟩⟩ := s
    · rfl
    · exact ih _

theorem Puts.foldl {put : State α → α → State α} (hput : Puts put) (as : List α)
    {s s' : State α} (hmarked : s.marked = s'.marked) (hwork : s.work.Perm s'.work) :
    (as.foldl put s).marked = (as.foldl Worklist.consider s').marked ∧
      (as.foldl put s).work.Perm (as.foldl Worklist.consider s').work := by
  induction as generalizing s s' with
  | nil => exact ⟨hmarked, hwork⟩
  | cons a as ih =>
    rw [List.foldl_cons, List.foldl_cons]
    refine ih ?_ ?_
    · rw [hput.marked_eq, Worklist.consider, Worklist.consider, hmarked]
      split_ifs
      · exact hmarked
      · rfl
    · refine (hput.work_perm s a).trans ?_
      rw [Worklist.consider, Worklist.consider, hmarked]
      split_ifs
      · exact hwork
      · exact hwork.cons a

omit [DecidableEq α] in
/-- The invariant does not see the order of the worklist. -/
theorem Inv.perm {s s' : State α} (h : Inv roots succ s) (hmarked : s'.marked = s.marked)
    (hwork : s'.work.Perm s.work) : Inv roots succ s' where
  sound a ha := h.sound a (hmarked ▸ ha)
  roots_marked a ha := hmarked ▸ h.roots_marked a ha
  work_marked a ha := hmarked ▸ h.work_marked a (hwork.mem_iff.1 ha)
  closed a ha hw b hb := by
    rw [hmarked] at ha ⊢
    exact h.closed a ha (fun hmem => hw (hwork.mem_iff.2 hmem)) b hb

/-- Over a finite set of nodes, fuel for each of them is enough, and the loop marks the
reachable ones. -/
theorem exists_loopWith {put : State α → α → State α} (hput : Puts put) {U : Finset α}
    (hroots : ∀ a ∈ roots, a ∈ U) (hsucc : ∀ a ∈ U, ∀ b ∈ succ a, b ∈ U) {fuel : ℕ}
    (hfuel : U.card ≤ fuel) :
    ∃ marked, loopWith put succ fuel (roots.foldl put ⟨∅, []⟩) = some marked ∧
      ∀ a, a ∈ marked ↔ Reach (· ∈ roots) (fun a b => b ∈ succ a) a := by
  have hreach : ∀ a, Reach (· ∈ roots) (fun a b => b ∈ succ a) a → a ∈ U := by
    intro a ha
    induction ha with
    | root h => exact hroots _ h
    | edge _ h ih => exact hsucc _ ih _ h
  -- the nodes not yet marked and those on the worklist are turns left to take
  suffices ∀ fuel (s : State α), Inv roots succ s → U.card + s.work.length ≤ fuel + s.marked.card →
      ∃ marked, loopWith put succ fuel s = some marked ∧
        ∀ a, a ∈ marked ↔ Reach (· ∈ roots) (fun a b => b ∈ succ a) a by
    obtain ⟨hmarked, hwork⟩ := hput.foldl roots (s := (⟨∅, []⟩ : State α)) rfl (.refl _)
    refine this fuel _ (Inv.init.perm hmarked hwork) ?_
    have := card_foldl roots (⟨∅, []⟩ : State α)
    simp only [List.length_nil, Finset.card_empty] at this
    rw [hmarked, hwork.length_eq]
    omega
  intro fuel
  induction fuel with
  | zero =>
    rintro ⟨marked, work⟩ hI hle
    have hsub : marked ⊆ U := fun a ha => hreach a (hI.sound a ha)
    have hcard := Finset.card_le_card hsub
    obtain rfl : work = [] := List.eq_nil_of_length_eq_zero (by simp only at hle; omega)
    refine ⟨marked, rfl, fun a => ⟨hI.sound a, fun ha => ?_⟩⟩
    induction ha with
    | root h => exact hI.roots_marked _ h
    | edge _ h ih => exact hI.closed _ ih (by simp) _ h
  | succ fuel ih =>
    rintro ⟨marked, _ | ⟨a, work⟩⟩ hI hle
    · refine ⟨marked, rfl, fun a => ⟨hI.sound a, fun ha => ?_⟩⟩
      induction ha with
      | root h => exact hI.roots_marked _ h
      | edge _ h ih => exact hI.closed _ ih (by simp) _ h
    · obtain ⟨hmarked, hwork⟩ := hput.foldl (succ a) (s := ⟨marked, work⟩) rfl (.refl _)
      refine ih _ (hI.step.perm hmarked hwork) ?_
      have := card_foldl (succ a) ⟨marked, work⟩
      simp only [List.length_cons] at hle this
      rw [hmarked, hwork.length_eq]
      omega

theorem exists_loop {U : Finset α} (hroots : ∀ a ∈ roots, a ∈ U)
    (hsucc : ∀ a ∈ U, ∀ b ∈ succ a, b ∈ U) {fuel : ℕ} (hfuel : U.card ≤ fuel) :
    ∃ marked, loop succ fuel (roots.foldl consider ⟨∅, []⟩) = some marked ∧
      ∀ a, a ∈ marked ↔ Reach (· ∈ roots) (fun a b => b ∈ succ a) a := by
  rw [loop_eq_loopWith]
  exact exists_loopWith .consider hroots hsucc hfuel

end Worklist
