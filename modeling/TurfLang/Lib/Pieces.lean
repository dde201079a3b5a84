import Mathlib.Tactic

/-!
# The pieces between occurrences of a separator

A list is read from the left; where the separator stands the piece so far ends, and reading goes on
behind it.
-/

namespace Pieces

variable {α : Type*} [DecidableEq α]

omit [DecidableEq α] in
/-- What stands before the first occurrence of a separator, and what stands after it. -/
theorem append_cons_inj {c : α} {l l' r r' : List α} (hl : c ∉ l) (hl' : c ∉ l')
    (h : l ++ c :: r = l' ++ c :: r') : l = l' ∧ r = r' := by
  induction l generalizing l' with
  | nil =>
    cases l' with
    | nil => exact ⟨rfl, by simpa using h⟩
    | cons a l' => exact absurd (List.mem_cons.mpr (.inl (List.cons.inj h).1)) hl'
  | cons a l ih =>
    cases l' with
    | nil => exact absurd (List.mem_cons.mpr (.inl (List.cons.inj h).1.symm)) hl
    | cons a' l' =>
      simp only [List.cons_append, List.cons.injEq] at h
      obtain ⟨rfl, h⟩ := h
      obtain ⟨rfl, rfl⟩ := ih (fun hc => hl (List.mem_cons_of_mem _ hc))
        (fun hc => hl' (List.mem_cons_of_mem _ hc)) h
      exact ⟨rfl, rfl⟩

omit [DecidableEq α] in
/-- What stands behind a separator is shorter. -/
theorem length_drop_lt {d s : List α} (hd : d ≠ []) (h : d <+: s) :
    (s.drop d.length).length < s.length := by
  have := List.length_pos_iff.mpr hd
  have := h.length_le
  rw [List.length_drop]
  omega

/-- What is read of `s` in pieces, the first of which has begun with `acc`. -/
def cut (d acc s : List α) : List (List α) :=
  if d ≠ [] ∧ d <+: s then acc :: cut d [] (s.drop d.length)
  else
    match s with
    | [] => [acc]
    | x :: s => cut d (acc ++ [x]) s
termination_by s.length
decreasing_by
  · rename_i h
    exact length_drop_lt h.1 h.2
  · simp

/-- The pieces of `s` between the occurrences of `d`. -/
def pieces (d s : List α) : List (List α) := cut d [] s

/-- `s` with `r` in the place of each occurrence of `d`. -/
def replaced (d r s : List α) : List α :=
  if d ≠ [] ∧ d <+: s then r ++ replaced d r (s.drop d.length)
  else
    match s with
    | [] => []
    | x :: s => x :: replaced d r s
termination_by s.length
decreasing_by
  · rename_i h
    exact length_drop_lt h.1 h.2
  · simp

section

variable {d : List α} (hd : d ≠ [])

include hd

theorem cut_of_isPrefix {acc s : List α} (h : d <+: s) :
    cut d acc s = acc :: cut d [] (s.drop d.length) := by
  rw [cut.eq_def, if_pos ⟨hd, h⟩]

theorem cut_nil (acc : List α) : cut d acc [] = [acc] := by
  rw [cut.eq_def, if_neg]
  rintro ⟨-, h⟩
  exact hd (List.prefix_nil.mp h)

theorem replaced_of_isPrefix {r s : List α} (h : d <+: s) :
    replaced d r s = r ++ replaced d r (s.drop d.length) := by
  rw [replaced.eq_def, if_pos ⟨hd, h⟩]

theorem replaced_nil (r : List α) : replaced d r [] = [] := by
  rw [replaced.eq_def, if_neg]
  rintro ⟨-, h⟩
  exact hd (List.prefix_nil.mp h)

end

theorem cut_cons {d acc s : List α} {x : α} (h : ¬ d <+: x :: s) :
    cut d acc (x :: s) = cut d (acc ++ [x]) s := by
  rw [cut, if_neg fun hs => h hs.2]

theorem replaced_cons {d r s : List α} {x : α} (h : ¬ d <+: x :: s) :
    replaced d r (x :: s) = x :: replaced d r s := by
  rw [replaced, if_neg fun hs => h hs.2]

/-- There is a first piece. -/
theorem cut_ne_nil {d : List α} (hd : d ≠ []) (acc s : List α) : cut d acc s ≠ [] := by
  induction hn : s.length using Nat.strong_induction_on generalizing acc s with
  | _ n ih =>
    by_cases h : d <+: s
    · rw [cut_of_isPrefix hd h]
      exact List.cons_ne_nil _ _
    · cases s with
      | nil => rw [cut_nil hd]; exact List.cons_ne_nil _ _
      | cons x s =>
        rw [cut_cons h]
        exact ih s.length (by simp [← hn]) _ s rfl

/-- Joined by `r`, the pieces are the list with `r` for the separator. -/
theorem intercalate_cut {d : List α} (hd : d ≠ []) (r acc s : List α) :
    r.intercalate (cut d acc s) = acc ++ replaced d r s := by
  induction hn : s.length using Nat.strong_induction_on generalizing acc s with
  | _ n ih =>
    by_cases h : d <+: s
    · have hlt : (s.drop d.length).length < n := hn ▸ length_drop_lt hd h
      have hrest := ih _ hlt [] (s.drop d.length) rfl
      rw [cut_of_isPrefix hd h, replaced_of_isPrefix hd h]
      obtain ⟨p, ps, hps⟩ := List.exists_cons_of_ne_nil (cut_ne_nil hd [] (s.drop d.length))
      rw [hps] at hrest ⊢
      rw [List.intercalate_cons_cons, hrest, List.nil_append, List.append_assoc]
    · cases s with
      | nil => rw [cut_nil hd, replaced_nil hd, List.intercalate_singleton, List.append_nil]
      | cons x s =>
        rw [cut_cons h, replaced_cons h, ih s.length (by simp [← hn]) _ s rfl, List.append_assoc,
          List.singleton_append]

theorem replaced_self {d : List α} (hd : d ≠ []) (s : List α) : replaced d d s = s := by
  induction hn : s.length using Nat.strong_induction_on generalizing s with
  | _ n ih =>
    by_cases h : d <+: s
    · have hlt : (s.drop d.length).length < n := hn ▸ length_drop_lt hd h
      rw [replaced_of_isPrefix hd h, ih _ hlt _ rfl, List.prefix_iff_eq_append.mp h]
    · cases s with
      | nil => exact replaced_nil hd d
      | cons x s => rw [replaced_cons h, ih s.length (by simp [← hn]) s rfl]

theorem mem_replaced {d : List α} (hd : d ≠ []) {r s : List α} {x : α} (hx : x ∈ replaced d r s) :
    x ∈ r ∨ x ∈ s := by
  induction hn : s.length using Nat.strong_induction_on generalizing s with
  | _ n ih =>
    by_cases h : d <+: s
    · have hlt : (s.drop d.length).length < n := hn ▸ length_drop_lt hd h
      rw [replaced_of_isPrefix hd h, List.mem_append] at hx
      obtain hx | hx := hx
      · exact .inl hx
      · exact (ih _ hlt hx rfl).imp_right List.mem_of_mem_drop
    · cases s with
      | nil =>
        rw [replaced_nil hd] at hx
        cases hx
      | cons y s =>
        rw [replaced_cons h, List.mem_cons] at hx
        obtain rfl | hx := hx
        · exact .inr List.mem_cons_self
        · exact (ih s.length (by simp [← hn]) hx rfl).imp_right (List.mem_cons_of_mem y)

/-- What stands in a piece stands in the list. -/
theorem mem_of_mem_cut {d : List α} (hd : d ≠ []) {acc s p : List α} (hp : p ∈ cut d acc s) {x : α}
    (hx : x ∈ p) : x ∈ acc ++ s := by
  induction hn : s.length using Nat.strong_induction_on generalizing acc s with
  | _ n ih =>
    by_cases h : d <+: s
    · have hlt : (s.drop d.length).length < n := hn ▸ length_drop_lt hd h
      rw [cut_of_isPrefix hd h, List.mem_cons] at hp
      obtain rfl | hp := hp
      · exact List.mem_append_left _ hx
      · have hmem := ih _ hlt hp rfl
        rw [List.nil_append] at hmem
        exact List.mem_append_right _ (List.mem_of_mem_drop hmem)
    · cases s with
      | nil =>
        rw [cut_nil hd, List.mem_singleton] at hp
        subst hp
        exact List.mem_append_left _ hx
      | cons y s =>
        rw [cut_cons h] at hp
        have hmem := ih s.length (by simp [← hn]) hp rfl
        rwa [List.append_assoc, List.singleton_append] at hmem

/-- No piece contains the separator: what is read of a piece is where none begins. -/
theorem not_isInfix_of_mem_cut {d : List α} (hd : d ≠ []) (acc s : List α)
    (hacc : ∀ i < acc.length, ¬ d <+: (acc ++ s).drop i) : ∀ p ∈ cut d acc s, ¬ d <:+: p := by
  -- A piece that is complete begins nowhere in `acc` with the separator, and is not longer.
  have hdone : ∀ acc s : List α, (∀ i < acc.length, ¬ d <+: (acc ++ s).drop i) → ¬ d <:+: acc := by
    rintro acc s hacc ⟨l, r, rfl⟩
    refine hacc l.length ?_ ?_
    · have := List.length_pos_iff.mpr hd
      simp
      omega
    · rw [List.append_assoc, List.append_assoc, List.drop_left]
      exact List.prefix_append d _
  induction hn : s.length using Nat.strong_induction_on generalizing acc s with
  | _ n ih =>
    by_cases h : d <+: s
    · have hlt : (s.drop d.length).length < n := hn ▸ length_drop_lt hd h
      rw [cut_of_isPrefix hd h, List.forall_mem_cons]
      exact ⟨hdone acc s hacc, ih _ hlt [] _ (by simp) rfl⟩
    · cases s with
      | nil =>
        rw [cut_nil hd, List.forall_mem_singleton]
        exact hdone acc [] hacc
      | cons x s =>
        rw [cut_cons h]
        refine ih s.length (by simp [← hn]) _ s (fun i hi => ?_) rfl
        rw [List.append_assoc, List.singleton_append]
        rcases lt_or_ge i acc.length with hlt | hge
        · exact hacc i hlt
        · obtain rfl : i = acc.length := by
            rw [List.length_append, List.length_singleton] at hi
            omega
          rwa [List.drop_left]

/-- The first piece ends where the separator stands first. -/
theorem cut_of_first {d : List α} (hd : d ≠ []) {s : List α} {k : ℕ} (hk : d <+: s.drop k)
    (hfirst : ∀ i < k, ¬ d <+: s.drop i) (acc : List α) :
    cut d acc s = (acc ++ s.take k) :: cut d [] (s.drop (k + d.length)) := by
  induction k generalizing s acc with
  | zero =>
    rw [cut_of_isPrefix hd (by simpa using hk)]
    simp
  | succ k ih =>
    have h0 := hfirst 0 (by omega)
    rw [List.drop_zero] at h0
    cases s with
    | nil =>
      rw [List.drop_nil] at hk
      exact absurd hk h0
    | cons x s =>
      rw [cut_cons h0, ih (by simpa using hk) (fun i hi => ?_)]
      · simp [Nat.add_right_comm]
      · simpa using hfirst (i + 1) (by omega)

/-- Without a separator there is one piece. -/
theorem cut_of_none {d : List α} (hd : d ≠ []) {s : List α} (hnone : ∀ i, ¬ d <+: s.drop i)
    (acc : List α) : cut d acc s = [acc ++ s] := by
  induction s generalizing acc with
  | nil => rw [cut_nil hd, List.append_nil]
  | cons x s ih =>
    rw [cut_cons (by simpa using hnone 0), ih (fun i => by simpa using hnone (i + 1))]
    simp

omit [DecidableEq α] in
theorem intercalate_concat (sep : List α) (l : List (List α)) (x : List α) :
    sep.intercalate (l ++ [x]) = sep.intercalate l ++ (if l = [] then [] else sep) ++ x := by
  induction l with
  | nil => simp
  | cons y l ih =>
    cases l with
    | nil => simp [List.intercalate_cons_cons]
    | cons z l =>
      rw [List.cons_append, List.cons_append, List.intercalate_cons_cons, ← List.cons_append, ih,
        List.intercalate_cons_cons]
      simp

/-! ### The first occurrence -/

omit [DecidableEq α]

/-- `d` stands at `k` in `s`, and nowhere before. -/
structure FirstAt (d s : List α) (k : ℕ) : Prop where
  here : d <+: s.drop k
  before : ∀ i < k, ¬ d <+: s.drop i

theorem isInfix_iff_drop {d s : List α} : d <:+: s ↔ ∃ k, d <+: s.drop k := by
  constructor
  · rintro ⟨l, r, rfl⟩
    refine ⟨l.length, ?_⟩
    rw [List.append_assoc, List.drop_left]
    exact List.prefix_append d r
  · rintro ⟨k, h⟩
    exact h.isInfix.trans (List.drop_suffix k s).isInfix

theorem exists_firstAt {d s : List α} (h : d <:+: s) : ∃ k, FirstAt d s k := by
  classical
  have hex := isInfix_iff_drop.mp h
  exact ⟨Nat.find hex, Nat.find_spec hex, fun i hi => Nat.find_min hex hi⟩

theorem FirstAt.add_length_le {d s : List α} {k : ℕ} (h : FirstAt d s k) (hd : d ≠ []) :
    k + d.length ≤ s.length := by
  have hlen := h.here.length_le
  have hpos := List.length_pos_iff.mpr hd
  rw [List.length_drop] at hlen
  omega

theorem firstAt_zero {d s : List α} (h : d <+: s) : FirstAt d s 0 :=
  ⟨h, fun i hi => absurd hi (Nat.not_lt_zero i)⟩

/-- No occurrence begins where its first element is not. -/
theorem prefix_drop_append_iff {x : α} {r s l : List α} {i : ℕ} (hx : x ∉ l) :
    x :: r <+: (l ++ s).drop i ↔ l.length ≤ i ∧ x :: r <+: s.drop (i - l.length) := by
  by_cases hil : i < l.length
  · rw [List.drop_append_of_le_length hil.le, List.drop_eq_getElem_cons hil, List.cons_append,
      List.cons_prefix_cons]
    refine iff_of_false (fun h => hx (h.1 ▸ List.getElem_mem hil)) fun h => ?_
    omega
  · obtain ⟨j, rfl⟩ := Nat.exists_eq_add_of_le (not_lt.mp hil)
    rw [List.drop_length_add_append, Nat.add_sub_cancel_left]
    exact ⟨fun h => ⟨by omega, h⟩, fun h => h.2⟩

theorem isInfix_append_iff {x : α} {r s l : List α} (hx : x ∉ l) :
    x :: r <:+: l ++ s ↔ x :: r <:+: s := by
  constructor
  · intro h
    obtain ⟨i, hi⟩ := isInfix_iff_drop.mp h
    exact isInfix_iff_drop.mpr ⟨_, ((prefix_drop_append_iff hx).mp hi).2⟩
  · exact fun h => h.trans (List.suffix_append l s).isInfix

/-- In front of an occurrence may stand what its first element is not in. -/
theorem FirstAt.append {x : α} {r s l : List α} {k : ℕ} (h : FirstAt (x :: r) s k) (hx : x ∉ l) :
    FirstAt (x :: r) (l ++ s) (l.length + k) where
  here := by
    rw [List.drop_length_add_append]
    exact h.here
  before i hi hp := by
    obtain ⟨hle, hs⟩ := (prefix_drop_append_iff hx).mp hp
    exact h.before (i - l.length) (by omega) hs

/-- In front of an occurrence may stand its beginning, where it does not go on. -/
theorem FirstAt.append_cons {x : α} {r s l : List α} {k : ℕ} (h : FirstAt (x :: r) s k)
    (hx : x ∉ l) (hno : ¬ r <+: l ++ s) : FirstAt (x :: r) (x :: (l ++ s)) (l.length + k + 1) where
  here := (h.append hx).here
  before i hi hp := by
    cases i with
    | zero => exact hno (List.cons_prefix_cons.mp hp).2
    | succ i => exact (h.append hx).before i (by omega) hp

end Pieces
