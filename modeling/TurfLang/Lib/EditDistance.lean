import Mathlib.Tactic

/-!
# Edits and alignments of lists

An edit puts an element in, takes one out, replaces one or exchanges two neighbours. An alignment
of two lists matches their elements from the front, with its cost: elements may be kept, replaced,
left out on either side, or matched crosswise, `a … b` with `b … a`, at the cost of the exchange
and of all that stands between. Which crossings are allowed is a parameter. The least number of
edits is the least cost of an alignment: an alignment is carried out by edits, and an edit of one
list changes the least cost by at most one.
-/

namespace EditDistance

variable {α : Type*}

/-- One edit; `swaps` says whether it may be an exchange of neighbours. -/
inductive Step (swaps : Prop) : List α → List α → Prop
  | insert (a : α) (x : List α) : Step swaps x (a :: x)
  | delete (a : α) (x : List α) : Step swaps (a :: x) x
  | replace (a b : α) (x : List α) : Step swaps (a :: x) (b :: x)
  | swap (h : swaps) (a b : α) (x : List α) : Step swaps (a :: b :: x) (b :: a :: x)
  | cons (c : α) {x y : List α} (h : Step swaps x y) : Step swaps (c :: x) (c :: y)

/-- So many edits, one after the other. -/
inductive Edits (swaps : Prop) : ℕ → List α → List α → Prop
  | refl (x : List α) : Edits swaps 0 x x
  | step {n : ℕ} {x y z : List α} (h : Step swaps x y) (hs : Edits swaps n y z) :
      Edits swaps (n + 1) x z

/-- The two lists can be aligned at a cost of at most so much; `far k l` says whether a crossing
may stand over `k` and `l` elements. -/
inductive Align (far : ℕ → ℕ → Prop) : List α → List α → ℕ → Prop
  | nil : Align far [] [] 0
  | keep (a : α) {x y : List α} {n : ℕ} (h : Align far x y n) : Align far (a :: x) (a :: y) n
  | replace (a b : α) {x y : List α} {n : ℕ} (h : Align far x y n) :
      Align far (a :: x) (b :: y) (n + 1)
  | delete (a : α) {x y : List α} {n : ℕ} (h : Align far x y n) : Align far (a :: x) y (n + 1)
  | insert (b : α) {x y : List α} {n : ℕ} (h : Align far x y n) : Align far x (b :: y) (n + 1)
  | cross (a b : α) (u v : List α) {x y : List α} {n : ℕ} (hfar : far u.length v.length)
      (h : Align far x y n) :
      Align far (a :: (u ++ b :: x)) (b :: (v ++ a :: y)) (n + u.length + v.length + 1)
  | more {x y : List α} {n : ℕ} (h : Align far x y n) : Align far x y (n + 1)

/-- Crossings of neighbours. -/
def Neighbours (k l : ℕ) : Prop := k = 0 ∧ l = 0

/-- Crossings over anything. -/
def Anything (_ _ : ℕ) : Prop := True

variable {swaps : Prop} {far : ℕ → ℕ → Prop} {x y z u v : List α} {n m : ℕ}

/-! ### Edits -/

theorem Step.symm (h : Step swaps x y) : Step swaps y x := by
  induction h with
  | insert a x => exact .delete a x
  | delete a x => exact .insert a x
  | replace a b x => exact .replace b a x
  | swap h a b x => exact .swap h b a x
  | cons c _ ih => exact .cons c ih

theorem Step.append_left (p : List α) (h : Step swaps x y) : Step swaps (p ++ x) (p ++ y) := by
  induction p with
  | nil => exact h
  | cons c p ih => exact .cons c ih

theorem Step.append_right (h : Step swaps x y) (w : List α) : Step swaps (x ++ w) (y ++ w) := by
  induction h with
  | insert a x => exact .insert a _
  | delete a x => exact .delete a _
  | replace a b x => exact .replace a b _
  | swap h a b x => exact .swap h a b _
  | cons c _ ih => exact .cons c ih

theorem Step.reverse (h : Step swaps x y) : Step swaps x.reverse y.reverse := by
  induction h with
  | insert a x => simpa using Step.append_left x.reverse (.insert a [])
  | delete a x => simpa using Step.append_left x.reverse (.delete a [])
  | replace a b x => simpa using Step.append_left x.reverse (.replace a b [])
  | swap h a b x => simpa using Step.append_left x.reverse (.swap h b a [])
  | cons c _ ih => simpa using ih.append_right [c]

namespace Edits

theorem single (h : Step swaps x y) : Edits swaps 1 x y := .step h (.refl y)

theorem trans (h : Edits swaps n x y) (h' : Edits swaps m y z) : Edits swaps (n + m) x z := by
  induction h with
  | refl x => rwa [Nat.zero_add]
  | step hs _ ih =>
    rw [Nat.add_right_comm]
    exact .step hs (ih h')

theorem symm (h : Edits swaps n x y) : Edits swaps n y x := by
  induction h with
  | refl x => exact .refl x
  | step hs _ ih => exact ih.trans (single hs.symm)

theorem append_left (p : List α) (h : Edits swaps n x y) : Edits swaps n (p ++ x) (p ++ y) := by
  induction h with
  | refl x => exact .refl _
  | step hs _ ih => exact .step (hs.append_left p) ih

theorem reverse (h : Edits swaps n x y) : Edits swaps n x.reverse y.reverse := by
  induction h with
  | refl x => exact .refl _
  | step hs _ ih => exact .step hs.reverse ih

theorem reverse_iff : Edits swaps n x.reverse y.reverse ↔ Edits swaps n x y :=
  ⟨fun h => by simpa using h.reverse, reverse⟩

/-- Putting a whole list in front. -/
theorem insert_append (u x : List α) : Edits swaps u.length x (u ++ x) := by
  induction u with
  | nil => exact .refl x
  | cons a u ih => exact ih.trans (single (.insert a _))

theorem delete_append (u x : List α) : Edits swaps u.length (u ++ x) x := (insert_append u x).symm

theorem eq_of_zero (h : Edits swaps 0 x y) : x = y := by
  cases h
  rfl

end Edits

/-! ### Alignments -/

namespace Align

theorem weaken (h : Align far x y n) (hle : n ≤ m) : Align far x y m := by
  obtain ⟨k, rfl⟩ := Nat.exists_eq_add_of_le hle
  clear hle
  induction k with
  | zero => exact h
  | succ k ih => exact ih.more

theorem mono {far' : ℕ → ℕ → Prop} (hle : ∀ k l, far k l → far' k l) (h : Align far x y n) :
    Align far' x y n := by
  induction h with
  | nil => exact .nil
  | keep a _ ih => exact .keep a ih
  | replace a b _ ih => exact .replace a b ih
  | delete a _ ih => exact .delete a ih
  | insert b _ ih => exact .insert b ih
  | cross a b u v hfar _ ih => exact .cross a b u v (hle _ _ hfar) ih
  | more _ ih => exact .more ih

theorem symm (hsymm : ∀ k l, far k l → far l k) (h : Align far x y n) : Align far y x n := by
  induction h with
  | nil => exact .nil
  | keep a _ ih => exact .keep a ih
  | replace a b _ ih => exact .replace b a ih
  | delete a _ ih => exact .insert a ih
  | insert b _ ih => exact .delete b ih
  | cross a b u v hfar _ ih =>
    exact (cross b a v u (hsymm _ _ hfar) ih).weaken (by omega)
  | more _ ih => exact .more ih

theorem refl (x : List α) : Align far x x 0 := by
  induction x with
  | nil => exact .nil
  | cons a x ih => exact .keep a ih

theorem delete_append (u : List α) (h : Align far x y n) : Align far (u ++ x) y (n + u.length) := by
  induction u with
  | nil => exact h
  | cons a u ih => exact .delete a ih

theorem insert_append (v : List α) (h : Align far x y n) : Align far x (v ++ y) (n + v.length) := by
  induction v with
  | nil => exact h
  | cons b v ih => exact .insert b ih

theorem total (x y : List α) : Align far x y (x.length + y.length) := by
  have h := ((refl [] : Align far [] [] 0).insert_append y).delete_append x
  rw [List.append_nil, List.append_nil, Nat.zero_add] at h
  exact h.weaken (Nat.add_comm _ _).le

theorem length_le (h : Align far x y n) : x.length ≤ y.length + n ∧ y.length ≤ x.length + n := by
  induction h with
  | nil => exact ⟨Nat.zero_le _, Nat.zero_le _⟩
  | more _ ih => omega
  | cross a b u v _ _ ih =>
    simp only [List.length_cons, List.length_append]
    omega
  | _ =>
    simp only [List.length_cons]
    omega

/-- How the first element on the left is aligned: the rest alone costs no more, or the element is
kept behind some that are put in. -/
theorem head_cases {a : α} (h : Align far (a :: x) y n) :
    Align far x y n ∨ ∃ w y' m, y = w ++ a :: y' ∧ Align far x y' m ∧ w.length + m ≤ n := by
  generalize hax : a :: x = l at h
  induction h with
  | nil => cases hax
  | @keep b x' y' k h ih =>
    obtain ⟨rfl, rfl⟩ := List.cons.inj hax
    exact .inr ⟨[], y', k, rfl, h, by simp⟩
  | @replace b c x' y' k h ih =>
    obtain ⟨rfl, rfl⟩ := List.cons.inj hax
    exact .inl (.insert c h)
  | @delete b x' y' k h ih =>
    obtain ⟨rfl, rfl⟩ := List.cons.inj hax
    exact .inl h.more
  | @insert b x' y' k h ih =>
    rcases ih hax with hrest | ⟨w, y₁, j, rfl, hrest, hle⟩
    · exact .inl (.insert b hrest)
    · refine .inr ⟨b :: w, y₁, j, rfl, hrest, ?_⟩
      rw [List.length_cons]
      omega
  | @cross b c u v x' y' k hfar h ih =>
    obtain ⟨rfl, rfl⟩ := List.cons.inj hax
    refine .inl ?_
    have hrest := (((h.insert a).insert_append v).keep c).delete_append u
    exact hrest.weaken (by omega)
  | more _ ih =>
    rcases ih hax with hrest | ⟨w, y₁, j, rfl, hrest, hle⟩
    · exact .inl hrest.more
    · exact .inr ⟨w, y₁, j, rfl, hrest, by omega⟩

/-- Some part at the back of the right list is aligned with what a front on the left leaves over, at
no more than the whole cost. -/
theorem drop_front {p : List α} (h : Align far (p ++ x) y n) :
    ∃ q y', y = q ++ y' ∧ Align far x y' n := by
  generalize hl : p ++ x = l at h
  induction h generalizing p with
  | nil => exact ⟨[], [], rfl, by rw [(List.append_eq_nil_iff.1 hl).2]; exact .nil⟩
  | @keep a l y n h ih =>
    cases p with
    | nil =>
      obtain rfl : x = a :: l := hl
      exact ⟨[], _, rfl, h.keep a⟩
    | cons c p =>
      obtain ⟨q, y', rfl, h'⟩ := ih (List.cons.inj hl).2
      exact ⟨a :: q, y', rfl, h'⟩
  | @replace a b l y n h ih =>
    cases p with
    | nil =>
      obtain rfl : x = a :: l := hl
      exact ⟨[], _, rfl, h.replace a b⟩
    | cons c p =>
      obtain ⟨q, y', rfl, h'⟩ := ih (List.cons.inj hl).2
      exact ⟨b :: q, y', rfl, h'.more⟩
  | @delete a l y n h ih =>
    cases p with
    | nil =>
      obtain rfl : x = a :: l := hl
      exact ⟨[], _, rfl, h.delete a⟩
    | cons c p =>
      obtain ⟨q, y', rfl, h'⟩ := ih (List.cons.inj hl).2
      exact ⟨q, y', rfl, h'.more⟩
  | insert b h ih =>
    obtain ⟨q, y', rfl, h'⟩ := ih hl
    exact ⟨b :: q, y', rfl, h'.more⟩
  | @cross a b u v l y n hfar h ih =>
    cases p with
    | nil =>
      obtain rfl : x = a :: (u ++ b :: l) := hl
      exact ⟨[], _, rfl, h.cross a b u v hfar⟩
    | cons c p =>
      rcases List.append_eq_append_iff.1 (List.cons.inj hl).2 with ⟨w, hu, rfl⟩ | ⟨w, rfl, hw⟩
      · -- the crossing stands over what is left: its ends are matched instead
        refine ⟨b :: v, a :: y, rfl, ((h.replace b a).delete_append w).weaken ?_⟩
        rw [hu, List.length_append]
        omega
      · cases w with
        | nil =>
          refine ⟨b :: v, a :: y, rfl, ?_⟩
          rw [show x = b :: l from hw.symm]
          exact (h.replace b a).weaken (by omega)
        | cons d w =>
          obtain ⟨q, y', rfl, h'⟩ := ih (List.cons.inj hw).2.symm
          exact ⟨b :: (v ++ a :: q), y', by simp, h'.weaken (by omega)⟩
  | more _ ih =>
    obtain ⟨q, y', rfl, h'⟩ := ih hl
    exact ⟨q, y', rfl, h'.more⟩

end Align

/-- Where a step into two lists put together takes place: in the first one, in the second one, or
across the place where they meet. -/
theorem Step.append_cases {w : List α} (h : Step swaps x (u ++ w)) :
    (∃ u', Step swaps u' u ∧ x = u' ++ w) ∨ (∃ w', Step swaps w' w ∧ x = u ++ w') ∨
      ∃ u₁ e d w₁, swaps ∧ u = u₁ ++ [e] ∧ w = d :: w₁ ∧ x = u₁ ++ d :: e :: w₁ := by
  induction u generalizing x with
  | nil => exact .inr (.inl ⟨x, h, rfl⟩)
  | cons c u ih =>
    generalize hl : (c :: u) ++ w = l at h
    cases h with
    | insert a x =>
      obtain ⟨rfl, rfl⟩ := List.cons.inj hl
      exact .inl ⟨u, .insert c u, rfl⟩
    | delete a x =>
      subst hl
      exact .inl ⟨a :: c :: u, .delete a _, rfl⟩
    | replace a b x =>
      obtain ⟨rfl, rfl⟩ := List.cons.inj hl
      exact .inl ⟨a :: u, .replace a c u, rfl⟩
    | swap hswaps a b x =>
      obtain ⟨rfl, hrest⟩ := List.cons.inj hl
      cases u with
      | nil =>
        obtain rfl : w = a :: x := hrest
        exact .inr (.inr ⟨[], c, a, x, hswaps, rfl, rfl, rfl⟩)
      | cons d u =>
        obtain ⟨rfl, rfl⟩ := List.cons.inj hrest
        exact .inl ⟨d :: c :: u, .swap hswaps d c u, rfl⟩
    | cons d h =>
      obtain ⟨rfl, rfl⟩ := List.cons.inj hl
      rcases ih h with ⟨u', hu', rfl⟩ | ⟨w', hw', rfl⟩ | ⟨u₁, e, d, w₁, hswaps, rfl, rfl, rfl⟩
      · exact .inl ⟨c :: u', .cons c hu', rfl⟩
      · exact .inr (.inl ⟨w', hw', rfl⟩)
      · exact .inr (.inr ⟨c :: u₁, e, d, w₁, hswaps, rfl, rfl, rfl⟩)

theorem Step.length_le (h : Step swaps x y) : x.length ≤ y.length + 1 := by
  induction h with
  | cons c _ ih => simpa using ih
  | _ =>
    simp only [List.length_cons]
    omega

/-! ### An edit changes the cost by at most one -/

section OfStep

variable (hfar : ∀ k l k' l', far k l → far k' l')

include hfar

/-- A step behind the first element of a crossing. In the list that is crossed over, the crossing
has more or less to cross; where it takes the other end of the crossing away, the first element is
kept and the end put in instead. -/
theorem Align.cross_of_step {a b : α} (hkl : far u.length v.length) (h : Align far y z n)
    (ih : ∀ {x}, Step swaps x y → Align far x z (n + 1)) (hstep : Step swaps x (u ++ b :: y)) :
    Align far (a :: x) (b :: (v ++ a :: z)) (n + u.length + v.length + 1 + 1) := by
  -- `a` is kept, what stands before its partner is put in, and `u` is taken out
  have hkeep : ∀ {y' m}, Align far y' z m →
      Align far (a :: (u ++ y')) (b :: (v ++ a :: z)) (m + u.length + v.length + 1) := fun h' =>
    (((h'.delete_append u).keep a).insert_append v).insert b
  rcases hstep.append_cases with ⟨u', hu', rfl⟩ | ⟨w', hw', rfl⟩ | ⟨u₁, e, d, w₁, -, rfl, hw, rfl⟩
  · have hlen := hu'.length_le
    exact (h.cross a b u' v (hfar _ _ _ _ hkl)).weaken (by omega)
  · generalize hby : b :: y = w at hw'
    cases hw' with
    | insert c w' =>
      obtain ⟨rfl, rfl⟩ := List.cons.inj hby
      exact (hkeep h).weaken (by omega)
    | delete c w' =>
      subst hby
      have hcross := h.cross a b (u ++ [c]) v (hfar _ _ _ _ hkl)
      rw [List.append_assoc, List.length_append] at hcross
      exact hcross.weaken (by rw [List.length_singleton]; omega)
    | replace c d w' =>
      obtain ⟨rfl, rfl⟩ := List.cons.inj hby
      exact (hkeep (h.delete c)).weaken (by omega)
    | swap hswaps c d w' =>
      obtain ⟨rfl, rfl⟩ := List.cons.inj hby
      exact (hkeep (ih (.cons c (.delete b w')))).weaken (by omega)
    | cons c hw' =>
      obtain ⟨rfl, rfl⟩ := List.cons.inj hby
      exact ((ih hw').cross a b u v hkl).weaken (by omega)
  · obtain ⟨rfl, rfl⟩ := List.cons.inj hw
    have hcross := (h.delete e).cross a b u₁ v (hfar _ _ _ _ hkl)
    refine hcross.weaken ?_
    rw [List.length_append, List.length_singleton]
    omega

/-- One edit on the left costs at most one more, when crossings are allowed everywhere or nowhere.
By induction on the alignment. -/
theorem Align.of_step (hswap : swaps → ∀ k l, far k l) (h : Align far y z n) :
    ∀ {x}, Step swaps x y → Align far x z (n + 1) := by
  induction h with
  | nil =>
    intro x hstep
    cases hstep with
    | delete a => exact .delete a .nil
  | @keep a y z n h ih =>
    intro x hstep
    cases hstep with
    | insert => exact h.insert a
    | delete c => exact (h.keep a).delete c
    | replace c => exact h.replace c a
    | @swap hs b _ y =>
      rcases h.head_cases with hrest | ⟨w, z', m, rfl, hrest, hle⟩
      · exact (hrest.keep a).delete b
      · have hcross := hrest.cross b a [] w (hswap hs _ _)
        exact hcross.weaken (by simp; omega)
    | cons _ hstep => exact (ih hstep).keep a
  | @replace a c y z n h ih =>
    intro x hstep
    cases hstep with
    | insert => exact (h.insert c).more
    | delete d => exact (h.replace a c).delete d
    | replace d => exact (h.replace d c).more
    | @swap hs b _ y => exact (ih (.cons b (.delete a y))).insert c
    | cons _ hstep => exact (ih hstep).replace a c
  | @delete a y z n h ih =>
    intro x hstep
    cases hstep with
    | insert => exact h.more.more
    | delete d => exact (h.delete a).delete d
    | replace d => exact (h.delete d).more
    | @swap hs b _ y => exact (ih (.cons b (.delete a y))).more
    | cons _ hstep => exact (ih hstep).delete a
  | insert b h ih => exact fun hstep => (ih hstep).insert b
  | more h ih => exact fun hstep => (ih hstep).more
  | @cross a b u v y z n hkl h ih =>
    intro x hstep
    -- without the crossing: `u` is taken out, `b` kept, and `v` and `a` are put in
    have hkeep : Align far (u ++ b :: y) (b :: (v ++ a :: z)) (n + u.length + v.length + 1) :=
      ((((h.insert a).insert_append v).keep b).delete_append u).weaken (by omega)
    generalize hl : u ++ b :: y = l at hstep
    cases hstep with
    | insert => exact hl ▸ hkeep.more
    | delete d => exact hl ▸ (h.cross a b u v hkl).delete d
    | replace d => exact hl ▸ hkeep.delete d
    | @swap hs d _ rest =>
      cases u with
      | nil =>
        obtain ⟨rfl, rfl⟩ := List.cons.inj hl
        exact (((h.keep a).insert_append v).keep b).weaken (by simp; omega)
      | cons e u =>
        obtain ⟨rfl, rfl⟩ := List.cons.inj hl
        have hcross := (h.cross a b u v (hfar _ _ _ _ hkl)).delete e
        refine hcross.weaken ?_
        rw [List.length_cons]
        omega
    | cons _ hstep => exact h.cross_of_step hfar hkl ih (hl ▸ hstep)

/-- So many edits make an alignment of that cost. -/
theorem Edits.align (hswap : swaps → ∀ k l, far k l) (h : Edits swaps n x y) :
    Align far x y n := by
  induction h with
  | refl x => exact .refl x
  | step hs _ ih => exact ih.of_step hfar hswap hs

end OfStep

/-- An alignment is carried out by edits. -/
theorem Align.edits (h : Align far x y n) : ∃ m ≤ n, Edits True m x y := by
  induction h with
  | nil => exact ⟨0, le_rfl, .refl []⟩
  | keep a _ ih =>
    obtain ⟨m, hm, he⟩ := ih
    exact ⟨m, hm, he.append_left [a]⟩
  | replace a b _ ih =>
    obtain ⟨m, hm, he⟩ := ih
    exact ⟨m + 1, by omega, .step (.replace a b _) (he.append_left [b])⟩
  | delete a _ ih =>
    obtain ⟨m, hm, he⟩ := ih
    exact ⟨m + 1, by omega, .step (.delete a _) he⟩
  | insert b _ ih =>
    obtain ⟨m, hm, he⟩ := ih
    exact ⟨m + 1, by omega, he.trans (.single (.insert b _))⟩
  | more _ ih =>
    obtain ⟨m, hm, he⟩ := ih
    exact ⟨m, by omega, he⟩
  | @cross a b u v x y n _ _ ih =>
    obtain ⟨m, hm, he⟩ := ih
    -- `u` is taken out, the two are exchanged, `v` is put in, and the rest follows
    have hdelete : Edits True u.length (a :: (u ++ b :: x)) (a :: b :: x) :=
      (Edits.delete_append u (b :: x)).append_left [a]
    have hswap : Edits True 1 (a :: b :: x) (b :: a :: x) := .single (.swap trivial a b x)
    have hinsert : Edits True v.length (b :: a :: x) (b :: (v ++ a :: x)) :=
      (Edits.insert_append v (a :: x)).append_left [b]
    have hrest : Edits True m (b :: (v ++ a :: x)) (b :: (v ++ a :: y)) := by
      simpa using he.append_left (b :: (v ++ [a]))
    exact ⟨_, by omega, hdelete.trans (hswap.trans (hinsert.trans hrest))⟩

/-! ### The least cost -/

/-- The least cost of an alignment. -/
noncomputable def cost (far : ℕ → ℕ → Prop) (x y : List α) : ℕ := sInf {n | Align far x y n}

theorem align_cost (x y : List α) : Align far x y (cost far x y) :=
  Nat.sInf_mem ⟨_, Align.total x y⟩

theorem align_iff : Align far x y n ↔ cost far x y ≤ n :=
  ⟨fun h => Nat.sInf_le h, (align_cost x y).weaken⟩

theorem cost_mono {far' : ℕ → ℕ → Prop} (h : ∀ k l, far k l → far' k l) (x y : List α) :
    cost far' x y ≤ cost far x y :=
  align_iff.1 ((align_cost x y).mono h)

theorem cost_symm (hsymm : ∀ k l, far k l → far l k) (x y : List α) :
    cost far x y = cost far y x :=
  (align_iff.1 ((align_cost y x).symm hsymm)).antisymm (align_iff.1 ((align_cost x y).symm hsymm))

theorem cost_le_length (x y : List α) : cost far x y ≤ x.length + y.length :=
  align_iff.1 (.total x y)

theorem length_le_cost (x y : List α) :
    x.length ≤ y.length + cost far x y ∧ y.length ≤ x.length + cost far x y :=
  (align_cost x y).length_le

theorem cost_nil_left (y : List α) : cost far [] y = y.length := by
  have hle : cost far [] y ≤ ([] : List α).length + y.length := cost_le_length [] y
  have hge : y.length ≤ ([] : List α).length + cost far [] y := (length_le_cost [] y).2
  rw [List.length_nil, Nat.zero_add] at hle hge
  exact hle.antisymm hge

theorem cost_nil_right (x : List α) : cost far x [] = x.length := by
  have hle : cost far x [] ≤ x.length + ([] : List α).length := cost_le_length x []
  have hge : x.length ≤ ([] : List α).length + cost far x [] := (length_le_cost x []).1
  rw [List.length_nil, Nat.zero_add] at hge
  exact hle.antisymm hge

theorem cost_append_right_le (u x y : List α) : cost far (u ++ x) y ≤ cost far x y + u.length :=
  align_iff.1 ((align_cost x y).delete_append u)

theorem cost_append_left_le (v x y : List α) : cost far x (v ++ y) ≤ cost far x y + v.length :=
  align_iff.1 ((align_cost x y).insert_append v)

theorem cost_le_cross (a b : α) (u v x y : List α) (hfar : far u.length v.length) :
    cost far (a :: (u ++ b :: x)) (b :: (v ++ a :: y)) ≤
      cost far x y + u.length + v.length + 1 :=
  align_iff.1 ((align_cost x y).cross a b u v hfar)

/-! ### The least cost, element by element -/

variable [DecidableEq α]

/-- The least cost without a crossing at the front: an element is left out on the left or on the
right, or the first ones are matched. -/
noncomputable def uncrossed (far : ℕ → ℕ → Prop) (a b : α) (x y : List α) : ℕ :=
  min (cost far x y + if a = b then 0 else 1)
    (min (cost far x (b :: y) + 1) (cost far (a :: x) y + 1))

theorem cost_le_uncrossed (a b : α) (x y : List α) :
    cost far (a :: x) (b :: y) ≤ uncrossed far a b x y := by
  refine le_min ?_ (le_min ?_ ?_)
  · split
    · next h => exact align_iff.1 (h ▸ (align_cost x y).keep a)
    · exact align_iff.1 ((align_cost x y).replace a b)
  · exact align_iff.1 ((align_cost x (b :: y)).delete a)
  · exact align_iff.1 ((align_cost (a :: x) y).insert b)

/-- An alignment of two nonempty lists that crosses nothing at the front costs no less than the
least without a crossing, and one that does costs as much as what it crosses. -/
theorem Align.cons_cases {a b : α} (h : Align far (a :: x) (b :: y) n) :
    uncrossed far a b x y ≤ n ∨
      ∃ u v x' y', far u.length v.length ∧ x = u ++ b :: x' ∧ y = v ++ a :: y' ∧
        cost far x' y' + u.length + v.length + 1 ≤ n := by
  generalize hl : a :: x = l, hr : b :: y = r at h
  induction h with
  | nil => cases hl
  | keep c h =>
    obtain ⟨rfl, rfl⟩ := List.cons.inj hl
    obtain ⟨rfl, rfl⟩ := List.cons.inj hr
    have hxy := align_iff.1 h
    exact .inl (min_le_of_left_le (by simpa using hxy))
  | replace c d h =>
    obtain ⟨rfl, rfl⟩ := List.cons.inj hl
    obtain ⟨rfl, rfl⟩ := List.cons.inj hr
    have hxy := align_iff.1 h
    exact .inl (min_le_of_left_le (by split <;> omega))
  | delete c h =>
    obtain ⟨rfl, rfl⟩ := List.cons.inj hl
    subst hr
    have hxy := align_iff.1 h
    exact .inl (min_le_of_right_le (min_le_of_left_le (by omega)))
  | insert c h =>
    obtain ⟨rfl, rfl⟩ := List.cons.inj hr
    subst hl
    have hxy := align_iff.1 h
    exact .inl (min_le_of_right_le (min_le_of_right_le (by omega)))
  | cross c d u v hfar h =>
    obtain ⟨rfl, rfl⟩ := List.cons.inj hl
    obtain ⟨rfl, rfl⟩ := List.cons.inj hr
    have hxy := align_iff.1 h
    exact .inr ⟨u, v, _, _, hfar, rfl, rfl, by omega⟩
  | more _ ih =>
    rcases ih hl hr with hun | ⟨u, v, x', y', hfar, hx, hy, hle⟩
    · exact .inl (by omega)
    · exact .inr ⟨u, v, x', y', hfar, hx, hy, by omega⟩

/-- Where nothing can be crossed at the front. -/
theorem cost_cons_cons_of_not {a b : α}
    (h : ∀ u v x' y', far u.length v.length → x = u ++ b :: x' → y ≠ v ++ a :: y') :
    cost far (a :: x) (b :: y) = uncrossed far a b x y := by
  refine (cost_le_uncrossed a b x y).antisymm ?_
  rcases (@align_cost α far (a :: x) (b :: y)).cons_cases with hun | hcross
  · exact hun
  · obtain ⟨u, v, x', y', hfar, hx, hy, -⟩ := hcross
    exact absurd hy (h u v x' y' hfar hx)

/-- Where one crossing at the front costs no more than any other one. -/
theorem cost_cons_cons_of_best {a b : α} (hfar : far u.length v.length)
    (hbest : ∀ u' v' x' y', far u'.length v'.length → u ++ b :: x = u' ++ b :: x' →
      v ++ a :: y = v' ++ a :: y' →
      cost far x y + u.length + v.length ≤ cost far x' y' + u'.length + v'.length) :
    cost far (a :: (u ++ b :: x)) (b :: (v ++ a :: y)) =
      min (uncrossed far a b (u ++ b :: x) (v ++ a :: y))
        (cost far x y + u.length + v.length + 1) := by
  refine (le_min (cost_le_uncrossed ..) (cost_le_cross a b u v x y hfar)).antisymm ?_
  rcases (@align_cost α far (a :: (u ++ b :: x)) (b :: (v ++ a :: y))).cons_cases with
    hun | hcross
  · exact min_le_of_left_le hun
  · obtain ⟨u', v', x', y', hfar', hx, hy, hle⟩ := hcross
    have hle' := hbest u' v' x' y' hfar' hx hy
    exact min_le_of_right_le (by omega)

/-- With crossings of neighbours only, there is one crossing at most. -/
theorem cost_cons_cons_neighbours {a b : α} {x y : List α} :
    cost Neighbours (a :: b :: x) (b :: a :: y) =
      min (uncrossed Neighbours a b (b :: x) (a :: y))
        (cost Neighbours x y + 1) := by
  refine cost_cons_cons_of_best (u := []) (v := []) ⟨rfl, rfl⟩ fun u' v' x' y' hfar hx hy => ?_
  obtain rfl := List.length_eq_zero_iff.1 hfar.1
  obtain rfl := List.length_eq_zero_iff.1 hfar.2
  obtain ⟨-, rfl⟩ := List.cons.inj hx
  obtain ⟨-, rfl⟩ := List.cons.inj hy
  exact le_rfl

theorem cost_neighbours_of_not {a b : α} (h : ∀ x' y', x = b :: x' → y ≠ a :: y') :
    cost Neighbours (a :: x) (b :: y) = uncrossed Neighbours a b x y := by
  refine cost_cons_cons_of_not fun u v x' y' hfar hx => ?_
  obtain rfl := List.length_eq_zero_iff.1 hfar.1
  obtain rfl := List.length_eq_zero_iff.1 hfar.2
  exact h x' y' hx

omit [DecidableEq α] in
/-- The nearest occurrence stands before every other one. -/
theorem exists_of_nearest {b : α} {u' x' : List α} (hu : b ∉ u) (h : u ++ b :: x = u' ++ b :: x') :
    ∃ w, x = w ++ x' ∧ u'.length = u.length + w.length := by
  rcases List.append_eq_append_iff.1 h with ⟨t, rfl, ht⟩ | ⟨t, rfl, ht⟩
  · cases t with
    | nil => exact ⟨[], (List.cons.inj ht).2, by simp⟩
    | cons c t =>
      obtain ⟨rfl, rfl⟩ := List.cons.inj ht
      exact ⟨t ++ [b], by simp, by simp⟩
  · cases t with
    | nil => exact ⟨[], (List.cons.inj ht).2.symm, by simp⟩
    | cons c t =>
      obtain ⟨rfl, -⟩ := List.cons.inj ht
      exact absurd (List.mem_append_right u' List.mem_cons_self) hu

/-- With all crossings, the one between the nearest occurrences is the best. -/
theorem cost_cons_cons_nearest {a b : α} (hu : b ∉ u) (hv : a ∉ v) (x y : List α) :
    cost Anything (a :: (u ++ b :: x)) (b :: (v ++ a :: y)) =
      min (uncrossed Anything a b (u ++ b :: x) (v ++ a :: y))
        (cost Anything x y + u.length + v.length + 1) := by
  refine cost_cons_cons_of_best trivial fun u' v' x' y' _ hx hy => ?_
  obtain ⟨w, rfl, hu'⟩ := exists_of_nearest hu hx
  obtain ⟨w', rfl, hv'⟩ := exists_of_nearest hv hy
  have hleft := @cost_append_right_le α Anything w x' (w' ++ y')
  have hright := @cost_append_left_le α Anything w' x' y'
  omega

/-- Without an occurrence on one of the sides there is no crossing. -/
theorem cost_cons_cons_of_notMem {a b : α} (h : b ∉ x ∨ a ∉ y) :
    cost far (a :: x) (b :: y) = uncrossed far a b x y := by
  refine cost_cons_cons_of_not fun u v x' y' _ hx hy => ?_
  rcases h with hb | ha
  · exact hb (hx ▸ List.mem_append_right u List.mem_cons_self)
  · exact ha (hy ▸ List.mem_append_right v List.mem_cons_self)

/-! ### The least number of edits -/

omit [DecidableEq α]

/-- With all crossings, the least cost is the least number of edits. -/
theorem isLeast_edits (x y : List α) :
    IsLeast {n | Edits True n x y} (cost Anything x y) := by
  have hlower : ∀ n, Edits True n x y → cost Anything x y ≤ n := fun n h =>
    align_iff.1 (h.align (fun _ _ _ _ h => h) fun _ _ _ => trivial)
  obtain ⟨m, hm, he⟩ := (@align_cost α Anything x y).edits
  exact ⟨hm.antisymm (hlower m he) ▸ he, hlower⟩

/-- No number of edits without an exchange is less than the least cost, whatever crossings it
allows. -/
theorem cost_le_of_edits (h : Edits False n x y) : cost far x y ≤ n := by
  have h' : Align (fun _ _ => False) x y n := h.align (fun _ _ _ _ => False.elim) False.elim
  exact align_iff.1 (h'.mono fun _ _ => False.elim)

end EditDistance
