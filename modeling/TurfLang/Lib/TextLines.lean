import Mathlib.Data.List.DropRight
import Mathlib.Tactic

/-!
# Lines

A text is read line by line; a line reaches up to the next terminator, and the last one need not be
ended by one.
-/

namespace TextLines

variable {α : Type*} [DecidableEq α]

/-- The lines of a text, without their terminators `e`. -/
def lines (e : α) : List α → List (List α)
  | [] => []
  | c :: t =>
    if c = e then [] :: lines e t
    else
      match lines e t with
      | [] => [[c]]
      | l :: ls => (c :: l) :: ls

/-- Each line ended by `e`. -/
def unlines (e : α) (ls : List (List α)) : List α := ls.flatMap (· ++ [e])

/-- `s` without the terminators at its end. -/
def chomp (e : α) (s : List α) : List α := s.rdropWhile (· = e)

variable {e : α}

@[simp] theorem lines_nil : lines e [] = [] := rfl

@[simp] theorem lines_cons_self (t : List α) : lines e (e :: t) = [] :: lines e t := if_pos rfl

theorem lines_cons_of_ne {c : α} (h : c ≠ e) {t l : List α} {ls : List (List α)}
    (ht : lines e t = l :: ls) : lines e (c :: t) = (c :: l) :: ls := by
  rw [lines, if_neg h, ht]

omit [DecidableEq α] in
@[simp] theorem unlines_nil : unlines e [] = [] := rfl

omit [DecidableEq α] in
@[simp] theorem unlines_cons (l : List α) (ls : List (List α)) :
    unlines e (l :: ls) = l ++ e :: unlines e ls := by
  simp [unlines]

@[simp] theorem chomp_append_self (s : List α) : chomp e (s ++ [e]) = chomp e s := by
  simp [chomp]

theorem lines_ne_nil {s : List α} (h : s ≠ []) : lines e s ≠ [] := by
  cases s with
  | nil => exact absurd rfl h
  | cons c t =>
    unfold lines
    split_ifs
    · exact List.cons_ne_nil _ _
    · cases lines e t <;> exact List.cons_ne_nil _ _

/-- Behind a terminator reading begins anew. -/
theorem lines_append_cons (s t : List α) :
    lines e (s ++ e :: t) = lines e (s ++ [e]) ++ lines e t := by
  induction s with
  | nil => simp
  | cons c s ih =>
    by_cases hc : c = e
    · subst hc
      simp [ih]
    · obtain ⟨l, ls, hl⟩ := List.exists_cons_of_ne_nil 
        (lines_ne_nil (by simp) : lines e (s ++ [e]) ≠ [])
      rw [List.cons_append, List.cons_append, lines_cons_of_ne hc hl,
        lines_cons_of_ne hc (ih.trans (congrArg (· ++ lines e t) hl))]
      rfl

/-- A text without a terminator is a line. -/
theorem lines_line {l : List α} (h : e ∉ l) : lines e (l ++ [e]) = [l] := by
  induction l with
  | nil => simp
  | cons c l ih =>
    rw [List.mem_cons, not_or] at h
    exact lines_cons_of_ne (Ne.symm h.1) (ih h.2)

theorem notMem_of_mem_lines {s l : List α} (hl : l ∈ lines e s) : e ∉ l := by
  induction s generalizing l with
  | nil => cases hl
  | cons c s ih =>
    by_cases hc : c = e
    · subst hc
      rw [lines_cons_self, List.mem_cons] at hl
      obtain rfl | hl := hl
      · exact List.not_mem_nil
      · exact ih hl
    · cases hs : lines e s with
      | nil =>
        rw [lines, if_neg hc, hs] at hl
        obtain rfl := List.mem_singleton.mp hl
        simpa using Ne.symm hc
      | cons m ms =>
        rw [lines_cons_of_ne hc hs, List.mem_cons] at hl
        obtain rfl | hl := hl
        · rw [List.mem_cons, not_or]
          exact ⟨Ne.symm hc, ih (by simp [hs])⟩
        · exact ih (by simp [hs, hl])

/-- Ended by a terminator the text has one line more at most, which is empty. -/
theorem lines_append_self (s : List α) :
    lines e (s ++ [e]) = lines e s ∨ lines e (s ++ [e]) = lines e s ++ [[]] := by
  induction s with
  | nil => exact .inr (lines_cons_self [])
  | cons c s ih =>
    by_cases hc : c = e
    · subst hc
      simpa using ih
    · cases hs : lines e s with
      | nil =>
        obtain rfl : s = [] := by
          by_contra h
          exact lines_ne_nil h hs
        left
        simp [lines, hc]
      | cons m ms =>
        rw [hs] at ih
        rw [List.cons_append, lines_cons_of_ne hc hs]
        obtain ih | ih := ih
        · left
          rw [lines_cons_of_ne hc ih]
        · right
          exact lines_cons_of_ne hc ih

theorem forall_mem_lines_append_self {p : List α → Prop} (hp : p []) (s : List α) :
    (∀ l ∈ lines e (s ++ [e]), p l) ↔ ∀ l ∈ lines e s, p l := by
  obtain h | h := lines_append_self (e := e) s
  · rw [h]
  · rw [h, List.forall_mem_append, List.forall_mem_singleton]
    exact and_iff_left hp

/-- The lines of a text, ended again, are the text but for the last terminator. -/
theorem unlines_lines (s : List α) :
    unlines e (lines e s) = s ∨ unlines e (lines e s) = s ++ [e] := by
  induction s with
  | nil => exact .inl rfl
  | cons c s ih =>
    by_cases hc : c = e
    · subst hc
      simpa using ih
    · cases hs : lines e s with
      | nil =>
        obtain rfl : s = [] := by
          by_contra h
          exact lines_ne_nil h hs
        right
        simp [lines, hc]
      | cons m ms =>
        rw [lines_cons_of_ne hc hs]
        rw [hs] at ih
        simpa using ih

theorem chomp_unlines_lines (s : List α) : chomp e (unlines e (lines e s)) = chomp e s := by
  obtain h | h := unlines_lines (e := e) s <;> simp [h]

/-- Between terminators a text and its lines hold the same. -/
theorem filter_chomp (s : List α) : (chomp e s).filter (· ≠ e) = s.filter (· ≠ e) := by
  induction s using List.reverseRecOn with
  | nil => rfl
  | append_singleton s c ih =>
    by_cases hc : c = e
    · subst hc
      rw [chomp_append_self, ih, List.filter_append]
      simp
    · rw [chomp, List.rdropWhile_concat_neg]
      simpa using hc

end TextLines
