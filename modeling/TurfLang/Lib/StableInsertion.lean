import Mathlib.Data.List.DropRight
import Mathlib.Tactic

/-!
# Stable insertion

Insertion into a list from its end: the new element goes behind the last one that it need not come
before. Sorting by such insertions keeps the order of elements neither of which has to come first.
-/

namespace StableInsertion

variable {α : Type*} (after : α → α → Bool)

/-- Put `key` before the longest final part whose elements come after it. -/
def insertLast (key : α) (l : List α) : List α :=
  l.rdropWhile (after · key) ++ key :: l.rtakeWhile (after · key)

/-- Insert the elements of a list one by one. -/
def sort (l : List α) : List α := l.foldl (fun sorted key => insertLast after key sorted) []

variable {after}

@[simp] theorem insertLast_nil (key : α) : insertLast after key [] = [key] := rfl

theorem insertLast_concat (key : α) (l : List α) (x : α) :
    insertLast after key (l ++ [x]) =
      if after x key then insertLast after key l ++ [x] else l ++ [x] ++ [key] := by
  unfold insertLast
  by_cases h : after x key
  · rw [List.rdropWhile_concat_pos (after · key) _ _ h,
      List.rtakeWhile_concat_pos (after · key) _ _ h, if_pos h]
    simp
  · rw [List.rdropWhile_concat_neg (after · key) _ _ h,
      List.rtakeWhile_concat_neg (after · key) _ _ h, if_neg h]

theorem insertLast_perm (key : α) (l : List α) : (insertLast after key l).Perm (key :: l) := by
  have hsplit : l.rdropWhile (after · key) ++ l.rtakeWhile (after · key) = l :=
    List.rdropWhile_append_rtakeWhile
  unfold insertLast
  exact List.perm_middle.trans (.of_eq (by rw [hsplit]))

theorem sort_concat (l : List α) (key : α) :
    sort after (l ++ [key]) = insertLast after key (sort after l) := by
  simp [sort]

theorem sort_perm (l : List α) : (sort after l).Perm l := by
  induction l using List.reverseRecOn with
  | nil => exact .refl _
  | append_singleton l key ih =>
    rw [sort_concat]
    exact (insertLast_perm key _).trans ((ih.cons key).trans (List.perm_append_singleton key l).symm)

theorem length_sort (l : List α) : (sort after l).length = l.length := (sort_perm l).length_eq

/-- No element has to come after a later one. -/
def Sorted (after : α → α → Bool) (l : List α) : Prop := l.Pairwise fun x y => after x y = false

theorem Sorted.insertLast (hasymm : ∀ x y, after x y = true → after y x = false)
    (htrans : ∀ x y z, after x y = false → after y z = false → after x z = false)
    {l : List α} (h : Sorted after l) (key : α) :
    Sorted after (insertLast after key l) := by
  induction l using List.reverseRecOn with
  | nil => simp [Sorted]
  | append_singleton l x ih =>
    obtain ⟨hl, -, hlx⟩ := List.pairwise_append.mp h
    rw [insertLast_concat]
    split
    case isTrue hafter =>
      refine List.pairwise_append.mpr ⟨ih hl, List.pairwise_singleton _ _, fun a ha b hb => ?_⟩
      rw [List.mem_singleton.mp hb]
      obtain rfl | ha := List.mem_cons.mp ((insertLast_perm key l).mem_iff.mp ha)
      · exact hasymm x a hafter
      · exact hlx a ha x (by simp)
    case isFalse hnot =>
      have hx : after x key = false := by simpa using hnot
      refine List.pairwise_append.mpr ⟨h, List.pairwise_singleton _ _, fun a ha b hb => ?_⟩
      rw [List.mem_singleton.mp hb]
      obtain ha | ha := List.mem_append.mp ha
      · exact htrans a x key (hlx a ha x (by simp)) hx
      · rwa [List.mem_singleton.mp ha]

theorem sorted_sort (hasymm : ∀ x y, after x y = true → after y x = false)
    (htrans : ∀ x y z, after x y = false → after y z = false → after x z = false) (l : List α) :
    Sorted after (sort after l) := by
  induction l using List.reverseRecOn with
  | nil => exact .nil
  | append_singleton l key ih =>
    rw [sort_concat]
    exact ih.insertLast hasymm htrans key

/-- Insertion puts an element last among those it need not come before. -/
theorem filter_insertLast {p : α → Bool} {key : α}
    (hp : ∀ x, p x = true → p key = true → after x key = false) (l : List α) :
    (insertLast after key l).filter p = l.filter p ++ [key].filter p := by
  induction l using List.reverseRecOn with
  | nil => rfl
  | append_singleton l x ih =>
    rw [insertLast_concat]
    split
    case isTrue hafter =>
      rw [List.filter_append, ih, List.filter_append, List.append_assoc, List.append_assoc]
      congr 1
      -- Only one of `x` and `key` is kept.
      cases hx : p x with
      | false => simp [hx]
      | true =>
        cases hkey : p key with
        | false => simp [hkey]
        | true =>
          rw [hp x hx hkey] at hafter
          cases hafter
    case isFalse => rw [List.filter_append, List.filter_append]

/-- Sorting keeps the order of elements none of which has to come after another. -/
theorem filter_sort {p : α → Bool}
    (hp : ∀ x y, p x = true → p y = true → after x y = false) (l : List α) :
    (sort after l).filter p = l.filter p := by
  induction l using List.reverseRecOn with
  | nil => rfl
  | append_singleton l key ih =>
    rw [sort_concat, filter_insertLast (fun x hx hkey => hp x key hx hkey), ih, List.filter_append]

end StableInsertion
