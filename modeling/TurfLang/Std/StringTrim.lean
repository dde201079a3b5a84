import Mathlib.Data.List.DropRight
import TurfLang.Std.StringSearch

/-!
# `lib/std/core/strings.tr`: `trim` and `trim_end`

As in the search functions, `none` is a panic, or a byte read or written out of bounds.
-/

namespace TurfLang.Strings

/-- The test of the loops. -/
def isBlank (c : UInt8) : Bool :=
  charToInt c = 32 ∨ charToInt c = 9 ∨ charToInt c = 10 ∨ charToInt c = 13

/-- The loop of `trim` over `start_idx`. -/
def skipBlanks (s : Bytes) (n start : ℕ) : Option ℕ :=
  if start < n then do
    let c ← indexed s start
    if isBlank c then skipBlanks s n (start + 1) else some start
  else some start
termination_by n - start

/-- The loop of `trim` and `trim_end` over `end_idx`. -/
def dropBlanks (s : Bytes) (start : ℕ) : ℕ → Option ℕ
  | 0 => some 0
  | stop + 1 =>
    if start < stop + 1 then do
      let c ← indexed s stop
      if isBlank c then dropBlanks s start stop else some (stop + 1)
    else some (stop + 1)

/-- `trim`. -/
def trim (s : Bytes) : Option Bytes := do
  let n := strlen s
  let start ← skipBlanks s n 0
  let stop ← dropBlanks s start n
  substring s start stop

/-- `trim_end`. -/
def trimEnd (s : Bytes) : Option Bytes := do
  let stop ← dropBlanks s 0 (strlen s)
  substring s 0 stop

/-! ### What is left -/

theorem isBlank_iff (c : UInt8) : isBlank c = true ↔ c = 32 ∨ c = 9 ∨ c = 10 ∨ c = 13 := by
  have h32 := charToInt_eq_iff (c := c) (n := 32) (by decide)
  have h9 := charToInt_eq_iff (c := c) (n := 9) (by decide)
  have h10 := charToInt_eq_iff (c := c) (n := 10) (by decide)
  have h13 := charToInt_eq_iff (c := c) (n := 13) (by decide)
  norm_num at h32 h9 h10 h13
  simp [isBlank, h32, h9, h10, h13]

/-- A string without the blanks at its end. -/
def withoutEnd (s : Bytes) : Bytes := s.rdropWhile isBlank

/-- A string without the blanks at both ends. -/
def trimmed (s : Bytes) : Bytes := withoutEnd (s.dropWhile isBlank)

section Loops

variable {s : Bytes} (hs : 0 ∉ s)

include hs

theorem skipBlanks_eq (start : ℕ) : skipBlanks s s.length start =
    some (start + ((s.drop start).takeWhile isBlank).length) := by
  induction hn : s.length - start generalizing start with
  | zero =>
    rw [skipBlanks, if_neg (by omega), List.drop_of_length_le (by omega)]
    rfl
  | succ n ih =>
    have hlt : start < s.length := by omega
    rw [skipBlanks, if_pos hlt, indexed_of_noNul hs hlt, Option.bind_eq_bind, Option.bind_some,
      List.drop_eq_getElem_cons hlt]
    by_cases hc : isBlank s[start] = true
    · rw [if_pos hc, List.takeWhile_cons_of_pos hc, ih (start + 1) (by omega), List.length_cons]
      congr 1
      omega
    · rw [if_neg hc, List.takeWhile_cons_of_neg hc]
      rfl

theorem dropBlanks_eq (start : ℕ) {stop : ℕ} (hstart : start ≤ stop) (hstop : stop ≤ s.length) :
    dropBlanks s start stop =
      some (start + (((s.take stop).drop start).rdropWhile isBlank).length) := by
  induction stop with
  | zero =>
    obtain rfl : start = 0 := by omega
    rfl
  | succ stop ih =>
    rw [dropBlanks]
    by_cases hlt : start < stop + 1
    · have hpos : stop < s.length := by omega
      have hsplit : (s.take (stop + 1)).drop start = (s.take stop).drop start ++ [s[stop]] := by
        rw [List.take_succ_eq_append_getElem hpos, List.drop_append_of_le_length (by simp; omega)]
      rw [if_pos hlt, indexed_of_noNul hs hpos, Option.bind_eq_bind, Option.bind_some, hsplit]
      by_cases hc : isBlank s[stop] = true
      · rw [if_pos hc, List.rdropWhile_concat_pos _ _ _ hc]
        exact ih (by omega) (by omega)
      · rw [if_neg hc, List.rdropWhile_concat_neg _ _ _ hc, List.length_append, List.length_drop,
          List.length_take, List.length_singleton]
        congr 1
        omega
    · obtain rfl : start = stop + 1 := by omega
      rw [if_neg hlt, List.drop_of_length_le (List.length_take_le _ _)]
      rfl

theorem trimEnd_eq : trimEnd s = some (withoutEnd s) := by
  rw [trimEnd, strlen_of_noNul hs, dropBlanks_eq hs 0 (Nat.zero_le _) le_rfl, Option.bind_eq_bind,
    Option.bind_some, List.take_length, List.drop_zero, Nat.zero_add]
  have hprefix : s.rdropWhile isBlank <+: s := List.rdropWhile_prefix isBlank s
  have hsub := substring_eq hs (Nat.zero_le _) hprefix.length_le
  rw [Nat.cast_zero, List.drop_zero, ← List.prefix_iff_eq_take.mp hprefix] at hsub
  exact hsub

theorem trim_eq : trim s = some (trimmed s) := by
  have hlen : (s.takeWhile isBlank).length ≤ s.length := (List.takeWhile_prefix _).length_le
  have hdrop : s.drop (s.takeWhile isBlank).length = s.dropWhile isBlank := by
    have hsplit := congrArg (List.drop (s.takeWhile isBlank).length)
      (List.takeWhile_append_dropWhile (p := isBlank) (l := s))
    rw [List.drop_left] at hsplit
    exact hsplit.symm
  have hprefix : (s.dropWhile isBlank).rdropWhile isBlank <+: s.dropWhile isBlank :=
    List.rdropWhile_prefix isBlank _
  have hle := hprefix.length_le
  rw [← hdrop, List.length_drop] at hle
  simp only [trim, strlen_of_noNul hs, skipBlanks_eq hs, List.drop_zero, Nat.zero_add,
    Option.bind_eq_bind, Option.bind_some]
  rw [dropBlanks_eq hs _ hlen le_rfl, Option.bind_some, List.take_length, hdrop,
    substring_eq hs (Nat.le_add_right _ _) (by rw [← hdrop]; omega), List.drop_take, hdrop,
    Nat.add_sub_cancel_left, ← List.prefix_iff_eq_take.mp hprefix]
  rfl

end Loops

theorem withoutEnd_append {s t : Bytes} (h : ∃ c ∈ t, isBlank c = false) :
    withoutEnd (s ++ t) = s ++ withoutEnd t := by
  induction t using List.reverseRecOn with
  | nil =>
    obtain ⟨c, hc, -⟩ := h
    cases hc
  | append_singleton t d ih =>
    unfold withoutEnd at ih ⊢
    rw [← List.append_assoc]
    by_cases hd : isBlank d = true
    · rw [List.rdropWhile_concat_pos _ _ _ hd, List.rdropWhile_concat_pos _ _ _ hd]
      obtain ⟨c, hc, hvisible⟩ := h
      rw [List.mem_append, List.mem_singleton] at hc
      obtain hc | rfl := hc
      · exact ih ⟨c, hc, hvisible⟩
      · exact absurd (hd.symm.trans hvisible) (by decide)
    · rw [List.rdropWhile_concat_neg _ _ _ hd, List.rdropWhile_concat_neg _ _ _ hd,
        List.append_assoc]

theorem mem_of_mem_withoutEnd {s : Bytes} {c : UInt8} (h : c ∈ withoutEnd s) : c ∈ s :=
  (List.rdropWhile_prefix isBlank s).subset h

theorem mem_of_mem_trimmed {s : Bytes} {c : UInt8} (h : c ∈ trimmed s) : c ∈ s :=
  (List.dropWhile_suffix isBlank).subset (mem_of_mem_withoutEnd h)

theorem withoutEnd_concat {s : Bytes} {c : UInt8} (hc : isBlank c = true) :
    withoutEnd (s ++ [c]) = withoutEnd s := List.rdropWhile_concat_pos _ _ _ hc

/-- The blanks at the end may go first. -/
theorem trimmed_withoutEnd (s : Bytes) : trimmed (withoutEnd s) = trimmed s := by
  induction s using List.reverseRecOn with
  | nil => rfl
  | append_singleton s c ih =>
    by_cases hc : isBlank c = true
    · rw [withoutEnd_concat hc, ih]
      unfold trimmed
      rw [List.dropWhile_append]
      split
      case isTrue hempty =>
        rw [List.isEmpty_iff.mp hempty, List.dropWhile_cons_of_pos hc, List.dropWhile_nil]
      case isFalse hempty => rw [withoutEnd_concat hc]
    · have hself : withoutEnd (s ++ [c]) = s ++ [c] := List.rdropWhile_concat_neg _ _ _ hc
      rw [hself]

end TurfLang.Strings
