import TurfLang.Analysis.Algorithms

/-!
# The two distances of spelling

Each program fills its table row by row; every cell it has filled holds the cost of its two
prefixes, taken from their ends. Both programs stay within their tables. The one computes the least
number of edits; the other lies between it and the least number without exchanges.
-/

namespace TurfLang

namespace Algorithms

open EditDistance

variable {α : Type} [DecidableEq α]

/-! ### Tables -/

/-- The table has its bounds, and every cell of `S` holds what `D` says. -/
structure Table.Filled (D : ℕ → ℕ → ℤ) (rows cols : ℕ) (S : ℕ → ℕ → Prop) (dp : Table) : Prop where
  rows_eq : dp.rows = rows
  cols_eq : dp.cols = cols
  cell_eq : ∀ i < rows, ∀ j < cols, S i j → dp.cell i j = D i j

namespace Table.Filled

variable {D : ℕ → ℕ → ℤ} {rows cols i j : ℕ} {S S' : ℕ → ℕ → Prop} {dp : Table}

theorem mono (h : dp.Filled D rows cols S) (hS : ∀ i < rows, ∀ j < cols, S' i j → S i j) :
    dp.Filled D rows cols S' :=
  ⟨h.rows_eq, h.cols_eq, fun i hi j hj hij => h.cell_eq i hi j hj (hS i hi j hj hij)⟩

theorem read (h : dp.Filled D rows cols S) (hi : i < rows) (hj : j < cols) (hS : S i j) :
    dp.read i j = some (D i j) := by
  rw [Table.read, h.rows_eq, h.cols_eq, if_pos ⟨hi, hj⟩, h.cell_eq i hi j hj hS]

theorem write_eq (h : dp.Filled D rows cols S) (hi : i < rows) (hj : j < cols) (v : ℤ) :
    dp.write i j v = some (dp.set i j v) := by
  rw [Table.write, h.rows_eq, h.cols_eq, if_pos ⟨hi, hj⟩]

/-- Writing to a cell that is not filled yet. -/
theorem set_other (h : dp.Filled D rows cols S) (hS : ¬ S i j) (v : ℤ) :
    (dp.set i j v).Filled D rows cols S := by
  refine ⟨h.rows_eq, h.cols_eq, fun i' hi' j' hj' hS' => ?_⟩
  have hne : ¬ (i' = i ∧ j' = j) := by
    rintro ⟨rfl, rfl⟩
    exact hS hS'
  show (if i' = i ∧ j' = j then v else dp.cell i' j') = D i' j'
  rw [if_neg hne, h.cell_eq i' hi' j' hj' hS']

theorem read_set (h : dp.Filled D rows cols S) (hi : i < rows) (hj : j < cols) (v : ℤ) :
    (dp.set i j v).read i j = some v := by
  show (if i < dp.rows ∧ j < dp.cols then some (if i = i ∧ j = j then v else _) else none) = some v
  rw [h.rows_eq, h.cols_eq, if_pos ⟨hi, hj⟩, if_pos ⟨rfl, rfl⟩]

/-- One more cell is filled. -/
theorem set (h : dp.Filled D rows cols S) {v : ℤ} (hv : v = D i j)
    (hS : ∀ i' < rows, ∀ j' < cols, S' i' j' → S i' j' ∨ (i' = i ∧ j' = j)) :
    (dp.set i j v).Filled D rows cols S' := by
  refine ⟨h.rows_eq, h.cols_eq, fun i' hi' j' hj' hS' => ?_⟩
  show (if i' = i ∧ j' = j then v else dp.cell i' j') = D i' j'
  split
  · next heq =>
    obtain ⟨rfl, rfl⟩ := heq
    exact hv
  · next hne => exact h.cell_eq i' hi' j' hj' ((hS i' hi' j' hj' hS').resolve_right hne)

end Table.Filled

/-! ### Prefixes from their ends -/

/-- The first `i` elements, the last one in front. -/
def front (s : List α) (i : ℕ) : List α := (s.take i).reverse

omit [DecidableEq α] in
@[simp] theorem front_zero (s : List α) : front s 0 = [] := by simp [front]

omit [DecidableEq α] in
theorem front_succ {s : List α} {i : ℕ} (h : i < s.length) :
    front s (i + 1) = s[i] :: front s i := by
  rw [front, List.take_succ_eq_append_getElem h, List.reverse_append]
  rfl

omit [DecidableEq α] in
theorem front_length (s : List α) : front s s.length = s.reverse := by simp [front]

omit [DecidableEq α] in
theorem length_front {s : List α} {i : ℕ} (h : i ≤ s.length) : (front s i).length = i := by
  simp [front, h]

/-- The cost that the cell of two prefixes holds. -/
noncomputable def cellCost (far : ℕ → ℕ → Prop) (s1 s2 : List α) (i j : ℕ) : ℤ :=
  cost far (front s1 i) (front s2 j)

variable {far : ℕ → ℕ → Prop} {s1 s2 : List α} {i j : ℕ}

omit [DecidableEq α] in
theorem cellCost_zero_right (hi : i ≤ s1.length) : cellCost far s1 s2 i 0 = i := by
  rw [cellCost, front_zero, cost_nil_right, length_front hi]

omit [DecidableEq α] in
theorem cellCost_zero_left (hj : j ≤ s2.length) : cellCost far s1 s2 0 j = j := by
  rw [cellCost, front_zero, cost_nil_left, length_front hj]

/-- What is filled when `j` cells of row `i + 1` are: the rows before, and the first column. -/
def Before (i j : ℕ) (i' j' : ℕ) : Prop := i' ≤ i ∨ j' = 0 ∨ (i' = i + 1 ∧ j' ≤ j)

/-- The minimum of the three neighbours of a cell. -/
noncomputable def threeWay (far : ℕ → ℕ → Prop) (s1 s2 : List α) (i j : ℕ) (cost : ℤ) : ℤ :=
  min (min (cellCost far s1 s2 i (j + 1) + 1) (cellCost far s1 s2 (i + 1) j + 1))
    (cellCost far s1 s2 i j + cost)

theorem threeWay_eq (hi : i < s1.length) (hj : j < s2.length) :
    threeWay far s1 s2 i j (if s1[i] = s2[j] then 0 else 1) =
      uncrossed far s1[i] s2[j] (front s1 i) (front s2 j) := by
  rw [threeWay, uncrossed, cellCost, cellCost, cellCost, front_succ hi, front_succ hj]
  split <;> push_cast <;> omega

/-! ### Crossings of neighbours -/

/-- The transposition is one exactly where the two prefixes can be crossed at their ends. -/
theorem transposed_eq (hi : i < s1.length) (hj : j < s2.length) :
    ∃ t, transposed s1 s2 (i + 1) (j + 1) = some t ∧
      (t = true ↔ 1 ≤ i ∧ 1 ≤ j ∧ front s1 i = s2[j] :: front s1 (i - 1) ∧
        front s2 j = s1[i] :: front s2 (j - 1)) := by
  by_cases hij : 1 ≤ i ∧ 1 ≤ j
  · obtain ⟨i, rfl⟩ := Nat.exists_eq_add_of_le' hij.1
    obtain ⟨j, rfl⟩ := Nat.exists_eq_add_of_le' hij.2
    have hi' : i < s1.length := by omega
    have hj' : j < s2.length := by omega
    rw [front_succ hi', front_succ hj']
    refine ⟨decide (s1[i + 1] = s2[j] ∧ s1[i] = s2[j + 1]), ?_, ?_⟩
    · simp [transposed, hi, hj, hi', hj']
    · rw [decide_eq_true_iff, Nat.add_sub_cancel, Nat.add_sub_cancel]
      constructor
      · rintro ⟨h, h'⟩
        exact ⟨hij.1, hij.2, by rw [h'], by rw [h]⟩
      · rintro ⟨-, -, h, h'⟩
        exact ⟨(List.cons.inj h').1.symm, (List.cons.inj h).1⟩
  · refine ⟨false, ?_, ?_⟩
    · have hij' : ¬ (1 < i + 1 ∧ 1 < j + 1) := by omega
      rw [transposed, if_neg hij']
      rfl
    · simp only [Bool.false_eq_true, false_iff]
      exact fun h => hij ⟨h.1, h.2.1⟩

/-- The recurrence of the first program. -/
theorem cellCost_neighbours_of_transposed (hi : i < s1.length) (hj : j < s2.length)
    (h₁ : front s1 i = s2[j] :: front s1 (i - 1)) (h₂ : front s2 j = s1[i] :: front s2 (j - 1)) :
    cellCost Neighbours s1 s2 (i + 1) (j + 1) =
      min (threeWay Neighbours s1 s2 i j (if s1[i] = s2[j] then 0 else 1))
        (cellCost Neighbours s1 s2 (i - 1) (j - 1) + 1) := by
  rw [threeWay_eq hi hj, cellCost, cellCost, front_succ hi, front_succ hj, h₁, h₂,
    cost_cons_cons_neighbours]
  push_cast
  rfl

theorem cellCost_neighbours_of_not (hi : i < s1.length) (hj : j < s2.length)
    (h : ¬ (1 ≤ i ∧ 1 ≤ j ∧ front s1 i = s2[j] :: front s1 (i - 1) ∧
      front s2 j = s1[i] :: front s2 (j - 1))) :
    cellCost Neighbours s1 s2 (i + 1) (j + 1) =
      threeWay Neighbours s1 s2 i j (if s1[i] = s2[j] then 0 else 1) := by
  rw [threeWay_eq hi hj, cellCost, front_succ hi, front_succ hj]
  refine congrArg _ (cost_neighbours_of_not fun x' y' hx hy => h ?_)
  cases i with
  | zero => simp at hx
  | succ i =>
    cases j with
    | zero => simp at hy
    | succ j =>
      refine ⟨by omega, by omega, ?_, ?_⟩
      · rw [front_succ (by omega)] at hx ⊢
        rw [(List.cons.inj hx).1]
        rfl
      · rw [front_succ (by omega)] at hy ⊢
        rw [(List.cons.inj hy).1]
        rfl

/-- One turn of the inner loop fills one cell. -/
theorem levenshteinCell_filled {dp : Table} (hi : i < s1.length) (hj : j < s2.length)
    (h : dp.Filled (cellCost Neighbours s1 s2) (s1.length + 1) (s2.length + 1) (Before i j)) :
    ∃ dp', levenshteinCell s1 s2 (i + 1) dp (j + 1) = some dp' ∧
      dp'.Filled (cellCost Neighbours s1 s2) (s1.length + 1) (s2.length + 1)
        (Before i (j + 1)) := by
  have hup := h.read (i := i) (j := j + 1) (by omega) (by omega) (.inl le_rfl)
  have hleft := h.read (i := i + 1) (j := j) (by omega) (by omega) (.inr (.inr ⟨rfl, le_rfl⟩))
  have hdiag := h.read (i := i) (j := j) (by omega) (by omega) (.inl le_rfl)
  have hnot : ¬ Before i j (i + 1) (j + 1) := by
    unfold Before
    omega
  have hS : ∀ i' < s1.length + 1, ∀ j' < s2.length + 1, Before i (j + 1) i' j' →
      Before i j i' j' ∨ (i' = i + 1 ∧ j' = j + 1) := by
    unfold Before
    omega
  obtain ⟨t, ht, htiff⟩ := transposed_eq hi hj
  simp only [levenshteinCell, Nat.add_sub_cancel, List.getElem?_eq_getElem hi,
    List.getElem?_eq_getElem hj, hup, hleft, hdiag, ht, Option.bind_eq_bind, Option.bind_some,
    h.write_eq (show i + 1 < _ by omega) (show j + 1 < _ by omega)]
  generalize hbest : min (min (cellCost Neighbours s1 s2 i (j + 1) + 1)
    (cellCost Neighbours s1 s2 (i + 1) j + 1)) (cellCost Neighbours s1 s2 i j + _) = best
  change threeWay Neighbours s1 s2 i j _ = best at hbest
  cases t with
  | false =>
    refine ⟨_, rfl, h.set ?_ hS⟩
    rw [cellCost_neighbours_of_not hi hj (mt htiff.2 Bool.false_ne_true), hbest]
  | true =>
    obtain ⟨-, -, h₁, h₂⟩ := htiff.1 rfl
    have hcross := (h.set_other hnot best).read (i := i - 1) (j := j - 1) (by omega) (by omega)
      (.inl (by omega))
    rw [if_pos rfl, h.read_set (by omega) (by omega), show i + 1 - 2 = i - 1 by omega,
      show j + 1 - 2 = j - 1 by omega, hcross, Option.bind_some, Option.bind_some,
      (h.set_other hnot best).write_eq (by omega) (by omega)]
    refine ⟨_, rfl, (h.set_other hnot best).set ?_ hS⟩
    rw [cellCost_neighbours_of_transposed hi hj h₁ h₂, hbest]

omit [DecidableEq α] in
/-- The two loops that fill the first column and the first row. -/
theorem borders_filled (far : ℕ → ℕ → Prop) (s1 s2 : List α) :
    ∃ dp₁ dp₂, (List.range (s1.length + 1)).foldlM (fun dp i => dp.write i 0 i)
        (⟨s1.length + 1, s2.length + 1, fun _ _ => 0⟩ : Table) = some dp₁ ∧
      (List.range (s2.length + 1)).foldlM (fun dp j => dp.write 0 j j) dp₁ = some dp₂ ∧
      dp₂.Filled (cellCost far s1 s2) (s1.length + 1) (s2.length + 1) (Before 0 0) := by
  have hnew : (⟨s1.length + 1, s2.length + 1, fun _ _ => 0⟩ : Table).Filled (cellCost far s1 s2)
      (s1.length + 1) (s2.length + 1) fun i j => j = 0 ∧ i < 0 := ⟨rfl, rfl, by omega⟩
  obtain ⟨dp₁, hrun₁, hdp₁⟩ := Loop.exists_foldlM_range (σ := Table)
    (P := fun k dp => dp.Filled (cellCost far s1 s2) (s1.length + 1) (s2.length + 1)
      fun i j => j = 0 ∧ i < k) hnew fun i hi dp h =>
      ⟨_, h.write_eq hi (by omega) i, h.set (cellCost_zero_right (by omega)).symm (by omega)⟩
  obtain ⟨dp₂, hrun₂, hdp₂⟩ := Loop.exists_foldlM_range (σ := Table)
    (P := fun k dp => dp.Filled (cellCost far s1 s2) (s1.length + 1) (s2.length + 1)
      fun i j => j = 0 ∨ i = 0 ∧ j < k) (hdp₁.mono (by omega)) fun j hj dp h =>
      ⟨_, h.write_eq (by omega) hj j, h.set (cellCost_zero_left (by omega)).symm (by omega)⟩
  refine ⟨dp₁, dp₂, hrun₁, hrun₂, hdp₂.mono ?_⟩
  unfold Before
  omega

theorem levenshteinTable_filled (s1 s2 : List α) :
    ∃ dp, levenshteinTable s1 s2 = some dp ∧
      dp.Filled (cellCost Neighbours s1 s2) (s1.length + 1) (s2.length + 1)
        (Before s1.length 0) := by
  obtain ⟨dp₁, dp₂, hrun₁, hrun₂, hdp₂⟩ := borders_filled Neighbours s1 s2
  obtain ⟨dp, hrun, hdp⟩ := Loop.exists_foldlM_range (σ := Table)
    (f := fun dp i =>
      (List.range s2.length).foldlM (fun dp j => levenshteinCell s1 s2 (i + 1) dp (j + 1)) dp)
    (P := fun i dp =>
      dp.Filled (cellCost Neighbours s1 s2) (s1.length + 1) (s2.length + 1) (Before i 0))
    (n := s1.length) hdp₂ fun i hi dp h => by
      obtain ⟨dp', hrow, hdp'⟩ := Loop.exists_foldlM_range (σ := Table)
        (f := fun dp j => levenshteinCell s1 s2 (i + 1) dp (j + 1))
        (P := fun j dp =>
          dp.Filled (cellCost Neighbours s1 s2) (s1.length + 1) (s2.length + 1) (Before i j))
        h fun j hj dp h => levenshteinCell_filled hi hj h
      refine ⟨dp', hrow, hdp'.mono ?_⟩
      unfold Before
      omega
  refine ⟨dp, ?_, hdp⟩
  simp only [levenshteinTable, hrun₁, hrun₂, Option.bind_eq_bind, Option.bind_some]
  exact hrun

/-- The first program computes the cost with crossings of neighbours. -/
theorem getLevenshteinDistance_eq (s1 s2 : List α) :
    getLevenshteinDistance s1 s2 = some (cost Neighbours s1.reverse s2.reverse : ℤ) := by
  unfold getLevenshteinDistance
  split
  · next h =>
    rw [List.length_eq_zero_iff.1 h, List.reverse_nil, cost_nil_left, List.length_reverse]
  · split
    · next h =>
      rw [List.length_eq_zero_iff.1 h, List.reverse_nil, cost_nil_right, List.length_reverse]
    · obtain ⟨dp, hrun, hdp⟩ := levenshteinTable_filled s1 s2
      have hread := hdp.read (i := s1.length) (j := s2.length) (by omega) (by omega) (.inl le_rfl)
      rw [hrun, Option.bind_eq_bind, Option.bind_some, hread, cellCost, front_length, front_length]

/-! ### All crossings -/

/-- `p` is the place, counted from one, of the last `c` among the first `i` elements, or `0`. -/
def LastAt (s : List α) (i : ℕ) (c : α) (p : ℕ) : Prop :=
  (p = 0 ∧ c ∉ front s i) ∨
    ∃ k u, p = k + 1 ∧ front s i = u ++ c :: front s k ∧ c ∉ u ∧ u.length + k + 1 = i

omit [DecidableEq α] in
theorem LastAt.zero (s : List α) (c : α) : LastAt s 0 c 0 := .inl ⟨rfl, by simp⟩

theorem LastAt.succ {s : List α} {c : α} {p : ℕ} (h : LastAt s i c p) (hi : i < s.length) :
    LastAt s (i + 1) c (if s[i] = c then i + 1 else p) := by
  unfold LastAt
  rw [front_succ hi]
  split
  · next hc => exact .inr ⟨i, [], rfl, by rw [hc]; rfl, by simp, by simp⟩
  · next hc =>
    rcases h with ⟨rfl, hnot⟩ | ⟨k, u, rfl, hu, hnot, hlen⟩
    · exact .inl ⟨rfl, by simp [Ne.symm hc, hnot]⟩
    · exact .inr ⟨k, s[i] :: u, rfl, by rw [hu]; rfl, by simp [Ne.symm hc, hnot], by
        rw [List.length_cons]
        omega⟩

omit [DecidableEq α] in
theorem LastAt.le {s : List α} {c : α} {p : ℕ} (h : LastAt s i c p) : p ≤ i := by
  rcases h with ⟨rfl, -⟩ | ⟨k, u, rfl, -, -, hlen⟩ <;> omega

/-- What the second table holds: a border of `maxDist` in front of the costs. -/
noncomputable def bordered (s1 s2 : List α) : ℕ → ℕ → ℤ
  | 0, _ => s1.length + s2.length
  | _ + 1, 0 => s1.length + s2.length
  | i + 1, j + 1 => cellCost Anything s1 s2 i j

/-- The recurrence of the second program. -/
theorem cellCost_anything (hi : i < s1.length) (hj : j < s2.length) {p q : ℕ}
    (hp : LastAt s1 i s2[j] p) (hq : LastAt s2 j s1[i] q) :
    cellCost Anything s1 s2 (i + 1) (j + 1) =
      min (threeWay Anything s1 s2 i j (if s1[i] = s2[j] then 0 else 1))
        (bordered s1 s2 p q + ((i : ℤ) - p) + 1 + ((j : ℤ) - q)) := by
  have hpi := hp.le
  have hqj := hq.le
  have hle := @cost_le_length α Anything (front s1 (i + 1)) (front s2 (j + 1))
  rw [length_front (by omega), length_front (by omega)] at hle
  -- a border is too large to matter
  have hborder : s2[j] ∉ front s1 i ∨ s1[i] ∉ front s2 j →
      bordered s1 s2 p q = s1.length + s2.length →
      cellCost Anything s1 s2 (i + 1) (j + 1) =
        min (threeWay Anything s1 s2 i j (if s1[i] = s2[j] then 0 else 1))
          (bordered s1 s2 p q + ((i : ℤ) - p) + 1 + ((j : ℤ) - q)) := by
    intro hnot hb
    rw [hb, min_eq_left, threeWay_eq hi hj, cellCost, front_succ hi, front_succ hj,
      cost_cons_cons_of_notMem hnot]
    rw [threeWay_eq hi hj, ← cost_cons_cons_of_notMem hnot, ← front_succ hi, ← front_succ hj]
    omega
  rcases hp with ⟨rfl, hnot⟩ | ⟨k, u, rfl, hu, hnotu, hlenu⟩
  · exact hborder (.inl hnot) rfl
  · rcases hq with ⟨rfl, hnot⟩ | ⟨l, v, rfl, hv, hnotv, hlenv⟩
    · exact hborder (.inr hnot) rfl
    · rw [threeWay_eq hi hj, cellCost, front_succ hi, front_succ hj, hu, hv,
        cost_cons_cons_nearest hnotu hnotv, bordered, cellCost]
      omega

/-- What is filled in the second table, whose costs stand one row and one column further on. -/
def Bordered (i j : ℕ) (i' j' : ℕ) : Prop := Before i j (i' - 1) (j' - 1)

/-- One turn of the inner loop fills one cell and moves the last matching column on. -/
theorem damerauCell_filled {last : α → Option ℕ} {l : ℕ} {dp : Table} (hi : i < s1.length)
    (hj : j < s2.length) (hlast : ∀ c, LastAt s1 i c (lastSeen last c)) (hl : LastAt s2 j s1[i] l)
    (h : dp.Filled (bordered s1 s2) (s1.length + 2) (s2.length + 2) (Bordered i j)) :
    ∃ l' dp', damerauCell s1 s2 last (i + 1) (l, dp) (j + 1) = some (l', dp') ∧
      LastAt s2 (j + 1) s1[i] l' ∧
      dp'.Filled (bordered s1 s2) (s1.length + 2) (s2.length + 2) (Bordered i (j + 1)) := by
  have hp := (hlast s2[j]).le
  have hq := hl.le
  have hup := h.read (i := i + 1) (j := j + 2) (by omega) (by omega) (.inl le_rfl)
  have hleft := h.read (i := i + 2) (j := j + 1) (by omega) (by omega) (.inr (.inr ⟨rfl, le_rfl⟩))
  have hdiag := h.read (i := i + 1) (j := j + 1) (by omega) (by omega) (.inl le_rfl)
  have hcross := h.read (i := lastSeen last s2[j]) (j := l) (by omega) (by omega)
    (.inl (by omega))
  refine ⟨if s1[i] = s2[j] then j + 1 else l, _, ?_, ?_, h.set (i := i + 2) (j := j + 2)
    (cellCost_anything hi hj (hlast s2[j]) hl).symm ?_⟩
  · simp only [damerauCell, Nat.add_sub_cancel, List.getElem?_eq_getElem hi,
      List.getElem?_eq_getElem hj, hup, hleft, hdiag, hcross, Option.bind_eq_bind,
      Option.bind_some, h.write_eq (show i + 2 < _ by omega) (show j + 2 < _ by omega)]
    generalize bordered s1 s2 (lastSeen last s2[j]) l = crossed
    have hcol : (if (if s1[i] = s2[j] then (0 : ℤ) else 1) = 0 then j + 1 else l) =
        if s1[i] = s2[j] then j + 1 else l := by
      split_ifs <;> first | rfl | contradiction
    rw [hcol]
    congr 3
    unfold threeWay bordered
    generalize (if s1[i] = s2[j] then (0 : ℤ) else 1) = cost
    push_cast
    omega
  · simpa only [eq_comm] using hl.succ hj
  · unfold Bordered Before
    omega

/-- One turn of the outer loop fills one row and notes its character. -/
theorem damerauRow_filled {last : α → Option ℕ} {dp : Table} (hi : i < s1.length)
    (hlast : ∀ c, LastAt s1 i c (lastSeen last c))
    (h : dp.Filled (bordered s1 s2) (s1.length + 2) (s2.length + 2) (Bordered i 0)) :
    ∃ last' dp', damerauRow s1 s2 (last, dp) (i + 1) = some (last', dp') ∧
      (∀ c, LastAt s1 (i + 1) c (lastSeen last' c)) ∧
      dp'.Filled (bordered s1 s2) (s1.length + 2) (s2.length + 2) (Bordered (i + 1) 0) := by
  obtain ⟨⟨l, dp'⟩, hrow, -, hdp'⟩ := Loop.exists_foldlM_range (σ := ℕ × Table)
    (f := fun st j => damerauCell s1 s2 last (i + 1) st (j + 1))
    (P := fun j st => LastAt s2 j s1[i] st.1 ∧
      st.2.Filled (bordered s1 s2) (s1.length + 2) (s2.length + 2) (Bordered i j))
    (s := (0, dp)) ⟨.zero s2 s1[i], h⟩ fun j hj st hst => by
      obtain ⟨l', dp', hcell, hl', hdp'⟩ := damerauCell_filled hi hj hlast hst.1 hst.2
      exact ⟨(l', dp'), hcell, hl', hdp'⟩
  refine ⟨Function.update last s1[i] (some (i + 1)), dp', ?_, ?_, hdp'.mono ?_⟩
  · simp only [damerauRow, hrow, Nat.add_sub_cancel, List.getElem?_eq_getElem hi,
      Option.bind_eq_bind, Option.bind_some]
    rfl
  · intro c
    have hnext := (hlast c).succ hi
    unfold lastSeen at hnext ⊢
    by_cases hc : s1[i] = c
    · rw [← hc, Function.update_self]
      rwa [if_pos hc, ← hc] at hnext
    · rw [Function.update_of_ne (Ne.symm hc)]
      rwa [if_neg hc] at hnext
  · unfold Bordered Before
    omega

omit [DecidableEq α] in
/-- Two cells are filled, one after the other. -/
theorem Table.Filled.write_two {D : ℕ → ℕ → ℤ} {rows cols i j i' j' : ℕ} {S S' : ℕ → ℕ → Prop}
    {dp : Table} (h : dp.Filled D rows cols S) (hi : i < rows) (hj : j < cols) (hi' : i' < rows)
    (hj' : j' < cols) {v v' : ℤ} (hv : v = D i j) (hv' : v' = D i' j')
    (hS : ∀ k < rows, ∀ l < cols, S' k l → S k l ∨ (k = i ∧ l = j) ∨ (k = i' ∧ l = j')) :
    ∃ dp', (do (← dp.write i j v).write i' j' v') = some dp' ∧ dp'.Filled D rows cols S' := by
  have hfirst : (dp.set i j v).Filled D rows cols fun k l => S k l ∨ (k = i ∧ l = j) :=
    h.set hv fun k _ l _ hkl => hkl
  refine ⟨_, ?_, hfirst.set hv' fun k hk l hl hkl => or_assoc.2 (hS k hk l hl hkl)⟩
  exact Option.bind_eq_some_iff.2 ⟨_, h.write_eq hi hj _, hfirst.write_eq hi' hj' _⟩

omit [DecidableEq α] in
/-- The two loops that fill the borders, the first column and the first row. -/
theorem damerauBorders_filled (s1 s2 : List α) :
    ∃ dp₀ dp₁ dp₂,
      (⟨s1.length + 2, s2.length + 2, fun _ _ => 0⟩ : Table).write 0 0
        (s1.length + s2.length) = some dp₀ ∧
      (List.range (s1.length + 1)).foldlM (fun dp i => do
        (← dp.write (i + 1) 0 (s1.length + s2.length)).write (i + 1) 1 i) dp₀ = some dp₁ ∧
      (List.range (s2.length + 1)).foldlM (fun dp j => do
        (← dp.write 0 (j + 1) (s1.length + s2.length)).write 1 (j + 1) j) dp₁ = some dp₂ ∧
      dp₂.Filled (bordered s1 s2) (s1.length + 2) (s2.length + 2) (Bordered 0 0) := by
  have hnew : (⟨s1.length + 2, s2.length + 2, fun _ _ => 0⟩ : Table).Filled (bordered s1 s2)
      (s1.length + 2) (s2.length + 2) fun _ _ => False := ⟨rfl, rfl, fun _ _ _ _ => False.elim⟩
  have hdp₀ : ((⟨s1.length + 2, s2.length + 2, fun _ _ => 0⟩ : Table).set 0 0
      (s1.length + s2.length)).Filled (bordered s1 s2) (s1.length + 2) (s2.length + 2)
      fun i j => (i = 0 ∧ j = 0) ∨ j ≤ 1 ∧ 1 ≤ i ∧ i ≤ 0 := hnew.set rfl (by omega)
  obtain ⟨dp₁, hrun₁, hdp₁⟩ := Loop.exists_foldlM_range (σ := Table) (n := s1.length + 1)
    (f := fun dp i => do (← dp.write (i + 1) 0 (s1.length + s2.length)).write (i + 1) 1 i)
    (P := fun k dp => dp.Filled (bordered s1 s2) (s1.length + 2) (s2.length + 2)
      fun i j => (i = 0 ∧ j = 0) ∨ j ≤ 1 ∧ 1 ≤ i ∧ i ≤ k) hdp₀ fun i hi dp h => by
      have hcell : (i : ℤ) = bordered s1 s2 (i + 1) 1 := (cellCost_zero_right (by omega)).symm
      exact h.write_two (by omega) (by omega) (by omega) (by omega) rfl hcell (by omega)
  obtain ⟨dp₂, hrun₂, hdp₂⟩ := Loop.exists_foldlM_range (σ := Table) (n := s2.length + 1)
    (f := fun dp j => do (← dp.write 0 (j + 1) (s1.length + s2.length)).write 1 (j + 1) j)
    (P := fun k dp => dp.Filled (bordered s1 s2) (s1.length + 2) (s2.length + 2)
      fun i j => (i = 0 ∧ j = 0) ∨ j ≤ 1 ∧ 1 ≤ i ∨ i ≤ 1 ∧ 1 ≤ j ∧ j ≤ k)
    (hdp₁.mono (by omega)) fun j hj dp h => by
      have hcell : (j : ℤ) = bordered s1 s2 1 (j + 1) := (cellCost_zero_left (by omega)).symm
      exact h.write_two (by omega) (by omega) (by omega) (by omega) rfl hcell (by omega)
  refine ⟨_, dp₁, dp₂, hnew.write_eq (by omega) (by omega) _, hrun₁, hrun₂, hdp₂.mono ?_⟩
  unfold Bordered Before
  omega

theorem damerauTable_filled (s1 s2 : List α) :
    ∃ dp, damerauTable s1 s2 = some dp ∧
      dp.Filled (bordered s1 s2) (s1.length + 2) (s2.length + 2) (Bordered s1.length 0) := by
  obtain ⟨dp₀, dp₁, dp₂, hrun₀, hrun₁, hrun₂, hdp₂⟩ := damerauBorders_filled s1 s2
  obtain ⟨⟨last, dp⟩, hrun, -, hdp⟩ := Loop.exists_foldlM_range
    (σ := (α → Option ℕ) × Table) (f := fun st i => damerauRow s1 s2 st (i + 1))
    (P := fun i st => (∀ c, LastAt s1 i c (lastSeen st.1 c)) ∧
      st.2.Filled (bordered s1 s2) (s1.length + 2) (s2.length + 2) (Bordered i 0))
    (n := s1.length) (s := ((fun _ => none), dp₂)) ⟨fun c => .zero s1 c, hdp₂⟩
    fun i hi st hst => by
      obtain ⟨last', dp', hrow, hlast', hdp'⟩ := damerauRow_filled hi hst.1 hst.2
      exact ⟨(last', dp'), hrow, hlast', hdp'⟩
  refine ⟨dp, ?_, hdp⟩
  rw [damerauTable, hrun₀]
  exact Option.bind_eq_some_iff.2 ⟨dp₀, rfl, Option.bind_eq_some_iff.2 ⟨dp₁, hrun₁,
    Option.bind_eq_some_iff.2 ⟨dp₂, hrun₂, Option.bind_eq_some_iff.2 ⟨(last, dp), hrun, rfl⟩⟩⟩⟩

/-- The second program computes the cost with all crossings. -/
theorem getDamerauLevenshteinDistance_eq (s1 s2 : List α) :
    getDamerauLevenshteinDistance s1 s2 = some (cost Anything s1.reverse s2.reverse : ℤ) := by
  unfold getDamerauLevenshteinDistance
  split
  · next h =>
    rw [List.length_eq_zero_iff.1 h, List.reverse_nil, cost_nil_left, List.length_reverse]
  · split
    · next h =>
      rw [List.length_eq_zero_iff.1 h, List.reverse_nil, cost_nil_right, List.length_reverse]
    · obtain ⟨dp, hrun, hdp⟩ := damerauTable_filled s1 s2
      have hread := hdp.read (i := s1.length + 1) (j := s2.length + 1) (by omega) (by omega)
        (.inl le_rfl)
      rw [hrun, Option.bind_eq_bind, Option.bind_some, hread, bordered, cellCost, front_length,
        front_length]

/-! ### The number of edits -/

omit [DecidableEq α] in
theorem isLeast_cost_reverse (s t : List α) :
    IsLeast {n | Edits True n s t} (cost Anything s.reverse t.reverse) := by
  have h := isLeast_edits s.reverse t.reverse
  simpa only [Edits.reverse_iff] using h

/-- The second program computes the least number of edits and never leaves its table; that number
is a metric. The first program's result lies between it and every number of edits without an
exchange. -/
theorem getDamerauLevenshteinDistance_isLeast (α : Type) [DecidableEq α] :
    ∃ dist : List α → List α → ℕ,
      (∀ s t, getDamerauLevenshteinDistance s t = some (dist s t : ℤ)) ∧
      (∀ s t, IsLeast {n | Edits True n s t} (dist s t)) ∧
      (∀ s t, dist s t = 0 ↔ s = t) ∧ (∀ s t, dist s t = dist t s) ∧
      (∀ s t u, dist s u ≤ dist s t + dist t u) ∧
      ∀ s t, ∃ l : ℕ, getLevenshteinDistance s t = some (l : ℤ) ∧ dist s t ≤ l ∧
        ∀ n, Edits False n s t → l ≤ n := by
  refine ⟨fun s t => cost Anything s.reverse t.reverse, getDamerauLevenshteinDistance_eq,
    isLeast_cost_reverse, fun s t => ⟨fun h => ?_, ?_⟩, fun s t => cost_symm (fun _ _ h => h) _ _,
    fun s t u => ?_, fun s t => ⟨_, getLevenshteinDistance_eq s t, ?_, fun n hn => ?_⟩⟩
  · have hzero : Edits True 0 s t := h ▸ (isLeast_cost_reverse s t).1
    exact hzero.eq_of_zero
  · rintro rfl
    exact Nat.le_zero.1 ((isLeast_cost_reverse s s).2 (.refl s))
  · exact (isLeast_cost_reverse s u).2
      ((isLeast_cost_reverse s t).1.trans (isLeast_cost_reverse t u).1)
  · exact cost_mono (fun _ _ _ => trivial) _ _
  · exact cost_le_of_edits hn.reverse

end Algorithms

end TurfLang
