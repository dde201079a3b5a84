import Mathlib.Tactic

/-!
# First occurrences

The distinct elements of a list in the order in which they first occur. Two lists have the same
first occurrences when they have the same elements and one occurs before another in the one
whenever it does in the other.
-/

namespace Firsts

variable {α : Type*}

/-- One element occurs in front of every occurrence of another. -/
def Precedes (l : List α) (x y : α) : Prop := ∃ pre post, l = pre ++ x :: post ∧ y ∉ pre ∧ x ≠ y

theorem Precedes.concat {l : List α} {x y : α} (h : Precedes l x y) (a : α) :
    Precedes (l ++ [a]) x y := by
  obtain ⟨pre, post, rfl, hy, hne⟩ := h
  exact ⟨pre, post ++ [a], by simp, hy, hne⟩

theorem Precedes.asymm {l : List α} {x y : α} (h : Precedes l x y) : ¬Precedes l y x := by
  rintro ⟨pre', post', heq, hx, hne⟩
  obtain ⟨pre, post, rfl, hy, -⟩ := h
  obtain ⟨mid, rfl, hmid⟩ | ⟨mid, rfl, hmid⟩ := List.append_eq_append_iff.mp heq
  · cases mid with
    | nil => exact hne (List.cons.inj hmid).1.symm
    | cons a mid =>
      obtain ⟨rfl, -⟩ := List.cons.inj hmid
      exact hx (by simp)
  · cases mid with
    | nil => exact hne (List.cons.inj hmid).1
    | cons a mid =>
      obtain ⟨rfl, -⟩ := List.cons.inj hmid
      exact hy (by simp)

variable [DecidableEq α]

/-- Add an element at the end, unless it is there. -/
def addNew (order : List α) (x : α) : List α := if x ∈ order then order else order ++ [x]

/-- The elements of a list in the order of their first occurrences. -/
def firsts (l : List α) : List α := l.foldl addNew []

theorem firsts_concat (l : List α) (a : α) : firsts (l ++ [a]) = addNew (firsts l) a := by
  rw [firsts, List.foldl_append]
  rfl

/-- Adding elements goes on behind those that are there. -/
theorem exists_foldl_addNew (order l : List α) : ∃ t, l.foldl addNew order = order ++ t := by
  induction l generalizing order with
  | nil => exact ⟨[], (List.append_nil order).symm⟩
  | cons a l ih =>
    obtain ⟨t, ht⟩ := ih (addNew order a)
    rw [List.foldl_cons, ht, addNew]
    split
    · exact ⟨t, rfl⟩
    · exact ⟨a :: t, List.append_assoc _ _ _⟩

theorem firsts_sublist (l : List α) : (firsts l).Sublist l := by
  induction l using List.reverseRecOn with
  | nil => exact .slnil
  | append_singleton l a ih =>
    rw [firsts_concat, addNew]
    split
    · exact ih.trans (List.sublist_append_left l [a])
    · exact ih.append (.refl [a])

@[simp] theorem mem_firsts {l : List α} {x : α} : x ∈ firsts l ↔ x ∈ l := by
  induction l using List.reverseRecOn with
  | nil => exact Iff.rfl
  | append_singleton l a ih =>
    rw [firsts_concat, addNew]
    split_ifs with ha
    · rw [ih, List.mem_append, List.mem_singleton, or_iff_left_of_imp]
      rintro rfl
      exact ih.mp ha
    · rw [List.mem_append, List.mem_append, ih]

/-- The first occurrences are in order. -/
theorem pairwise_firsts (l : List α) : (firsts l).Pairwise (Precedes l) := by
  induction l using List.reverseRecOn with
  | nil => exact .nil
  | append_singleton l a ih =>
    have hold : (firsts l).Pairwise (Precedes (l ++ [a])) := ih.imp fun h => h.concat a
    rw [firsts_concat, addNew]
    split_ifs with ha
    · exact hold
    · refine List.pairwise_append.mpr ⟨hold, List.pairwise_singleton _ _, fun x hx b hb => ?_⟩
      obtain rfl : b = a := List.mem_singleton.mp hb
      rw [mem_firsts] at hx ha
      obtain ⟨pre, post, rfl⟩ := List.append_of_mem hx
      exact ⟨pre, post ++ [b], by simp, fun h => ha (List.mem_append_left _ h),
        fun h => ha (h ▸ hx)⟩

theorem nodup_firsts (l : List α) : (firsts l).Nodup :=
  (pairwise_firsts l).imp fun {_ _} h => h.choose_spec.choose_spec.2.2

/-- The order of the first occurrences is that of the list. -/
theorem precedes_of_firsts_eq {l l' : List α} (h : firsts l = firsts l') {x y : α} (hy : y ∈ l)
    (hxy : Precedes l x y) : Precedes l' x y := by
  have hx : x ∈ firsts l := by
    obtain ⟨pre, post, rfl, -⟩ := hxy
    exact mem_firsts.mpr (by simp)
  obtain ⟨pre, post, heq⟩ := List.append_of_mem hx
  have hp := pairwise_firsts l
  have hp' := pairwise_firsts l'
  rw [← h] at hp'
  have hyf : y ∈ pre ++ x :: post := heq ▸ mem_firsts.mpr hy
  rw [heq, List.pairwise_append, List.pairwise_cons] at hp hp'
  rcases List.mem_append.mp hyf with hpre | hpost
  · exact absurd (hp.2.2 y hpre x List.mem_cons_self) hxy.asymm
  · rcases List.mem_cons.mp hpost with rfl | hpost
    · exact absurd rfl hxy.choose_spec.choose_spec.2.2
    · exact hp'.2.1.1 y hpost

/-- A part of a list has the same first occurrences when it has the same elements, and one occurs
before another whenever it does in the whole. -/
theorem firsts_eq_iff {l l' : List α} (hsub : l' ⊆ l) :
    firsts l' = firsts l ↔ l ⊆ l' ∧ ∀ x y, y ∈ l → Precedes l x y → Precedes l' x y := by
  constructor
  · intro h
    refine ⟨fun x hx => ?_, fun x y hy hxy => precedes_of_firsts_eq h.symm hy hxy⟩
    rw [← mem_firsts, h, mem_firsts]
    exact hx
  · rintro ⟨hmem, horder⟩
    have hperm : (firsts l').Perm (firsts l) :=
      (List.perm_ext_iff_of_nodup (nodup_firsts l') (nodup_firsts l)).mpr fun x => by
        rw [mem_firsts, mem_firsts]
        exact ⟨fun h => hsub h, fun h => hmem h⟩
    refine hperm.eq_of_pairwise (fun x y _ _ hxy hyx => absurd hyx hxy.asymm) (pairwise_firsts l') ?_
    refine (pairwise_firsts l).imp_of_mem fun {x y} _ hy hxy => ?_
    exact horder x y (mem_firsts.mp hy) hxy

end Firsts
