import Mathlib.Tactic

/-!
# Replacing spans of a list

A span is a half-open interval of positions with the text to put in its place. The result of
replacing some spans is given position by position, with no order among them: the texts of the
spans that start there, and the element itself unless a span covers it. `splice` computes it
from left to right, for spans that stand apart in that order.
-/

namespace Spans

variable {α : Type*}

/-- The positions from `start` up to `stop`, and what replaces them. -/
structure Span (α : Type*) where
  start : ℕ
  stop : ℕ
  text : List α
  le : start ≤ stop

/-- The first span ends before the second one, and they do not start at one place. -/
def Span.Before (s t : Span α) : Prop := s.stop ≤ t.start ∧ s.start < t.start

theorem Span.Before.trans {s t u : Span α} (h : s.Before t) (h' : t.Before u) : s.Before u :=
  ⟨h.1.trans h'.2.le, h.2.trans h'.2⟩

/-- Whether a span replaces the element at a position. -/
def Span.Covers (s : Span α) (k : ℕ) : Prop := s.start ≤ k ∧ k < s.stop

instance (s : Span α) (k : ℕ) : Decidable (s.Covers k) := by unfold Span.Covers; infer_instance

/-- What stands at a position afterwards. -/
def piece (l : List α) (spans : List (Span α)) (k : ℕ) : List α :=
  (spans.filter fun s => s.start = k).flatMap Span.text ++
    if ∃ s ∈ spans, s.Covers k then [] else l[k]?.toList

/-- The list with the spans replaced. -/
def replace (l : List α) (spans : List (Span α)) : List α :=
  (List.range (l.length + 1)).flatMap (piece l spans)

/-- The list from a position on with the spans replaced one after the other. -/
def splice (l : List α) : ℕ → List (Span α) → List α
  | pos, [] => l.drop pos
  | pos, s :: spans => (l.drop pos).take (s.start - pos) ++ s.text ++ splice l s.stop spans

@[simp] theorem piece_nil (l : List α) (k : ℕ) : piece l [] k = l[k]?.toList := by
  simp [piece]

/-- Before the first span nothing changes. -/
theorem piece_of_lt {l : List α} {spans : List (Span α)} {k : ℕ}
    (h : ∀ s ∈ spans, k < s.start) : piece l spans k = l[k]?.toList := by
  have hfilter : (spans.filter fun s => s.start = k) = [] := by
    rw [List.filter_eq_nil_iff]
    intro s hs
    simpa using (h s hs).ne'
  have hcover : ¬ ∃ s ∈ spans, s.Covers k := by
    rintro ⟨s, hs, hk, -⟩
    exact absurd (h s hs) (by omega)
  rw [piece, hfilter, if_neg hcover, List.flatMap_nil, List.nil_append]

/-- Inside the first span nothing stands but its text. -/
theorem piece_of_covers {l : List α} {s : Span α} {spans : List (Span α)} {k : ℕ}
    (h : ∀ t ∈ spans, s.Before t) (hk : s.Covers k) :
    piece l (s :: spans) k = if k = s.start then s.text else [] := by
  have hfilter : (spans.filter fun t => t.start = k) = [] := by
    rw [List.filter_eq_nil_iff]
    intro t ht
    have hstop := (h t ht).1
    have hlt := hk.2
    simp only [decide_eq_true_eq]
    omega
  have hcover : ∃ t ∈ s :: spans, t.Covers k := ⟨s, List.mem_cons_self, hk⟩
  rw [piece, if_pos hcover, List.filter_cons, hfilter, List.append_nil]
  by_cases hstart : k = s.start
  · simp [hstart]
  · simp [hstart, Ne.symm hstart]

/-- Where it covers nothing, a span adds its text at its start. -/
theorem piece_cons_of_not_covers (l : List α) (s : Span α) (spans : List (Span α)) {k : ℕ}
    (hk : ¬ s.Covers k) :
    piece l (s :: spans) k = (if k = s.start then s.text else []) ++ piece l spans k := by
  have hcover : (∃ t ∈ s :: spans, t.Covers k) ↔ ∃ t ∈ spans, t.Covers k := by simp [hk]
  simp only [piece, hcover, List.filter_cons]
  by_cases hstart : k = s.start
  · simp [hstart]
  · simp [hstart, Ne.symm hstart]

/-- The elements of a stretch without spans. -/
theorem flatMap_getElem? (l : List α) (i n : ℕ) :
    (List.range' i n).flatMap (fun k => l[k]?.toList) = (l.drop i).take n := by
  induction n generalizing i with
  | zero => simp
  | succ n ih =>
    rw [List.range'_succ, List.flatMap_cons, ih]
    by_cases hi : i < l.length
    · rw [List.getElem?_eq_getElem hi, List.drop_eq_getElem_cons hi, List.take_succ_cons]
      rfl
    · rw [List.getElem?_eq_none (by omega), List.drop_eq_nil_of_le (by omega : l.length ≤ i),
        List.drop_eq_nil_of_le (by omega : l.length ≤ i + 1)]
      simp

theorem flatMap_congr_range' {f g : ℕ → List α} {i n : ℕ}
    (h : ∀ k, i ≤ k → k < i + n → f k = g k) :
    (List.range' i n).flatMap f = (List.range' i n).flatMap g := by
  refine List.flatMap_congr fun k hk => ?_
  rw [List.mem_range'_1] at hk
  exact h k hk.1 hk.2

/-- Behind the start of the first span the others are left. -/
theorem piece_cons_of_lt (l : List α) {s : Span α} (spans : List (Span α)) {k : ℕ}
    (hstop : s.stop ≤ k) (hstart : s.start < k) : piece l (s :: spans) k = piece l spans k := by
  have hk : ¬ s.Covers k := fun h => absurd h.2 (by omega)
  rw [piece_cons_of_not_covers l s spans hk, if_neg (by omega), List.nil_append]

/-- From the start of the first span on: its text, and then what the others leave. -/
theorem pieces_from_start (l : List α) {s : Span α} {spans : List (Span α)}
    (h : ∀ t ∈ spans, s.Before t) (n : ℕ) :
    (List.range' s.start (s.stop - s.start + (n + 1))).flatMap (piece l (s :: spans)) =
      s.text ++ (List.range' s.stop (n + 1)).flatMap (piece l spans) := by
  have hle := s.le
  rcases Nat.eq_or_lt_of_le s.le with heq | hlt
  · -- an empty span: the element at its start stays, behind the text
    have hcover : ¬ s.Covers s.start := fun hk => absurd hk.2 (by omega)
    rw [← heq, Nat.sub_self, Nat.zero_add, List.range'_succ, List.flatMap_cons, List.flatMap_cons,
      piece_cons_of_not_covers l s spans hcover, if_pos rfl, List.append_assoc]
    congr 2
    exact flatMap_congr_range' fun k hk _ => piece_cons_of_lt l spans (by omega) (by omega)
  · obtain ⟨m, hm⟩ : ∃ m, s.stop - s.start = m + 1 := ⟨s.stop - s.start - 1, by omega⟩
    have hfirst : piece l (s :: spans) s.start = s.text := by
      rw [piece_of_covers h ⟨le_rfl, hlt⟩, if_pos rfl]
    have hinside : (List.range' (s.start + 1) m).flatMap (piece l (s :: spans)) = [] := by
      rw [List.flatMap_eq_nil_iff]
      intro k hk
      rw [List.mem_range'_1] at hk
      rw [piece_of_covers h ⟨by omega, by omega⟩, if_neg (by omega)]
    have hstop : s.stop = s.start + 1 + m := by omega
    rw [hm, Nat.add_right_comm, List.range'_succ, List.flatMap_cons, hfirst,
      ← List.range'_append_1, List.flatMap_append, hinside, List.nil_append, hstop]
    congr 1
    exact flatMap_congr_range' fun k hk _ => piece_cons_of_lt l spans (by omega) (by omega)

/-- From left to right as position by position. By induction on the spans: up to the first one
nothing changes, in it there is its text, and after it the other spans are left. -/
theorem splice_eq_pieces (l : List α) (spans : List (Span α)) : ∀ pos, pos ≤ l.length →
    (∀ s ∈ spans, pos ≤ s.start ∧ s.stop ≤ l.length) → spans.Pairwise Span.Before →
    splice l pos spans = (List.range' pos (l.length + 1 - pos)).flatMap (piece l spans) := by
  induction spans with
  | nil =>
    intro pos hpos _ _
    rw [splice, List.flatMap_congr fun k _ => piece_nil l k, flatMap_getElem?,
      List.take_of_length_le (by simp; omega)]
  | cons s spans ih =>
    intro pos hpos hin hbefore
    obtain ⟨hfirst, hrest⟩ := List.pairwise_cons.mp hbefore
    obtain ⟨hstart, hstop⟩ := hin s List.mem_cons_self
    have hle := s.le
    have hsplit : l.length + 1 - pos =
        (s.start - pos) + (s.stop - s.start + (l.length - s.stop + 1)) := by omega
    have hkept : (List.range' pos (s.start - pos)).flatMap (piece l (s :: spans)) =
        (l.drop pos).take (s.start - pos) := by
      rw [← flatMap_getElem?]
      refine flatMap_congr_range' fun k hk hlt => piece_of_lt fun t ht => ?_
      rcases List.mem_cons.mp ht with rfl | ht
      · omega
      · exact lt_of_lt_of_le (by omega) (hfirst t ht).2.le
    have hrest' := ih s.stop hstop
      (fun t ht => ⟨(hfirst t ht).1, (hin t (List.mem_cons_of_mem s ht)).2⟩) hrest
    have hend : l.length + 1 - s.stop = l.length - s.stop + 1 := by omega
    have hpos' : pos + (s.start - pos) = s.start := by omega
    rw [splice, hrest', hsplit, ← List.range'_append_1, List.flatMap_append, hkept, hpos',
      pieces_from_start l hfirst, hend, List.append_assoc]

theorem splice_eq_replace (l : List α) {spans : List (Span α)}
    (hin : ∀ s ∈ spans, s.stop ≤ l.length) (h : spans.Pairwise Span.Before) :
    splice l 0 spans = replace l spans := by
  rw [replace, List.range_eq_range', splice_eq_pieces l spans 0 (Nat.zero_le _)
    (fun s hs => ⟨Nat.zero_le _, hin s hs⟩) h, Nat.sub_zero]

/-- Without spans the list stays as it is. -/
@[simp] theorem replace_nil (l : List α) : replace l [] = l := by
  rw [← splice_eq_replace l (by simp) .nil, splice, List.drop_zero]

/-- The order of the spans does not matter when no two start at one place. -/
theorem replace_perm (l : List α) {spans spans' : List (Span α)} (h : spans.Perm spans')
    (hne : spans.Pairwise fun s t => s.start ≠ t.start) : replace l spans = replace l spans' := by
  refine List.flatMap_congr fun k _ => ?_
  have hfilter : (spans.filter fun s => s.start = k) = spans'.filter fun s => s.start = k := by
    have hone : ∀ {ss : List (Span α)}, (ss.Pairwise fun s t => s.start ≠ t.start) →
        (ss.filter fun s => s.start = k).Pairwise fun _ _ => False := by
      intro ss hss
      rw [List.pairwise_filter]
      refine hss.imp fun hst hs ht => hst ?_
      rw [of_decide_eq_true hs, of_decide_eq_true ht]
    have hne' := (h.pairwise_iff fun hst => hst.symm).mp hne
    exact List.Perm.eq_of_pairwise (fun _ _ _ _ hf => hf.elim) (hone hne) (hone hne') (h.filter _)
  have hcover : (∃ s ∈ spans, s.Covers k) ↔ ∃ s ∈ spans', s.Covers k := by
    simp only [h.mem_iff]
  simp only [piece, hfilter, hcover]

/-- What the result holds stood there before or is in a text. -/
theorem mem_replace {l : List α} {spans : List (Span α)} {x : α} (hx : x ∈ replace l spans) :
    x ∈ l ∨ ∃ s ∈ spans, x ∈ s.text := by
  obtain ⟨k, -, hx⟩ := List.mem_flatMap.mp hx
  rcases List.mem_append.mp hx with hx | hx
  · obtain ⟨s, hs, hx⟩ := List.mem_flatMap.mp hx
    exact .inr ⟨s, List.mem_of_mem_filter hs, hx⟩
  · split at hx
    · cases hx
    · exact .inl (List.mem_of_getElem? (Option.mem_toList.mp hx))

end Spans
