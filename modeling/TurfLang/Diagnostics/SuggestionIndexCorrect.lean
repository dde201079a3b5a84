import TurfLang.Diagnostics.SuggestionIndex
import TurfLang.Analysis.AlgorithmsCorrect
import TurfLang.Lib.Firsts

/-!
# The search of the trie and the search of every candidate

A row of the search belongs to a prefix of the candidates and holds the costs against every prefix
of the query. A branch that is left holds no word within the bound, since some entry of every row is
at most the whole cost. So the suggestions are those that a search of all candidates finds.
-/

namespace TurfLang

namespace SuggestionIndex

open Algorithms EditDistance Firsts

/-! ### Words of a trie -/

/-- The word is in the trie. -/
def TrieNode.Has : TrieNode → Name → Prop
  | .mk terminal _, [] => terminal = true
  | .mk _ children, ch :: word => ∃ child, (ch, child) ∈ children ∧ child.Has word

theorem TrieNode.not_has_new (word : Name) : ¬ TrieNode.new.Has word := by
  cases word with
  | nil => exact Bool.false_ne_true
  | cons ch word => rintro ⟨child, hmem, -⟩; cases hmem

theorem exists_mem_cons {P : TrieNode → Prop} (ch d : UInt8) (node : TrieNode)
    (es : List (UInt8 × TrieNode)) :
    (∃ child, (d, child) ∈ (ch, node) :: es ∧ P child) ↔
      (d = ch ∧ P node) ∨ ∃ child, (d, child) ∈ es ∧ P child := by
  simp only [List.mem_cons, Prod.mk.injEq, exists_or, or_and_right, and_assoc, exists_and_left,
    exists_eq_left]

/-- What is done to one child. -/
theorem exists_mem_atChild {f : TrieNode → TrieNode} {P : TrieNode → Prop} {Q : Prop}
    (hnew : ¬ P .new) (hf : ∀ child, P (f child) ↔ P child ∨ Q) (ch d : UInt8)
    (es : List (UInt8 × TrieNode)) :
    (∃ child, (d, child) ∈ atChild f ch es ∧ P child) ↔
      (∃ child, (d, child) ∈ es ∧ P child) ∨ (d = ch ∧ Q) := by
  have hsingle : P (f .new) ↔ Q := by rw [hf, or_iff_right hnew]
  induction es with
  | nil => simp [atChild, hsingle]
  | cons e es ih =>
    obtain ⟨c, node⟩ := e
    rw [atChild]
    split
    · next h =>
      obtain rfl : ch = c := h
      rw [exists_mem_cons, exists_mem_cons, hf, and_or_left]
      exact or_right_comm
    · split
      · rw [exists_mem_cons, hsingle]
        exact or_comm
      · rw [exists_mem_cons, exists_mem_cons, or_assoc]
        exact or_congr_right ih

/-- Insertion adds the word and nothing else. -/
theorem TrieNode.has_insert (node : TrieNode) (word v : Name) :
    (node.insert word).Has v ↔ node.Has v ∨ v = word := by
  induction word generalizing node v with
  | nil =>
    obtain ⟨terminal, children⟩ := node
    cases v with
    | nil => simp [TrieNode.insert, TrieNode.Has]
    | cons ch v => simp [TrieNode.insert, TrieNode.Has]
  | cons ch word ih =>
    obtain ⟨terminal, children⟩ := node
    cases v with
    | nil => simp [TrieNode.insert, TrieNode.Has]
    | cons d v =>
      have h := exists_mem_atChild (P := fun child => child.Has v) (Q := v = word)
        (TrieNode.not_has_new v) (fun child => ih child v) ch d children
      simpa [TrieNode.insert, TrieNode.Has] using h

/-! ### Rows -/

/-- The costs of a word against every prefix of the query. -/
noncomputable def row (query w : Name) : List ℤ :=
  (List.range (query.length + 1)).map fun j => (cost Neighbours w.reverse (front query j) : ℤ)

variable {query w : Name} {currentChar prevChar : UInt8} {prevPreviousRow : List ℤ} {j : ℕ}

theorem getD_row (hj : j ≤ query.length) :
    (row query w).getD j 0 = cost Neighbours w.reverse (front query j) := by
  have hlt : j < query.length + 1 := by omega
  simp [row, List.getD_eq_getElem?_getD, hlt]

theorem getLastD_row (query w : Name) :
    (row query w).getLastD 0 = cost Neighbours w.reverse query.reverse := by
  simp [row, List.range_succ, front_length]

theorem row_nil (query : Name) :
    row query [] = (List.range (query.length + 1)).map fun i : ℕ => (i : ℤ) := by
  refine List.map_congr_left fun j hj => ?_
  rw [List.mem_range] at hj
  rw [List.reverse_nil, cost_nil_left, length_front (by omega)]

/-- What the search carries besides the row of `w`: the last character of `w` and the row before
it, or nothing in front of the first character. -/
def Behind (query w : Name) (prevChar : UInt8) (prevPreviousRow : List ℤ) : Prop :=
  (w = [] ∧ prevChar = 0) ∨
    ∃ w', w = w' ++ [prevChar] ∧ prevChar ≠ 0 ∧ prevPreviousRow = row query w'

/-- One entry of a row, from those around it. -/
theorem rowCell_eq (h : Behind query w prevChar prevPreviousRow) (hj : j < query.length)
    {done : List ℤ}
    (hdone : done.getD j 0 = cost Neighbours (currentChar :: w.reverse) (front query j)) :
    rowCell query currentChar prevChar (row query w) prevPreviousRow done (j + 1) =
      done ++ [(cost Neighbours (currentChar :: w.reverse) (front query (j + 1)) : ℤ)] := by
  have hquery : query.getD j 0 = query[j] := by simp [List.getD_eq_getElem?_getD, hj]
  have hdelete := @getD_row query w (j + 1) (by omega)
  have hreplace := @getD_row query w j (by omega)
  rw [front_succ hj] at hdelete ⊢
  -- the minimum of the three
  have huncrossed : min (min (done.getD j 0 + 1) ((row query w).getD (j + 1) 0 + 1))
      ((row query w).getD j 0 + if query[j] = currentChar then 0 else 1) =
      uncrossed Neighbours currentChar query[j] w.reverse (front query j) := by
    rw [hdone, hdelete, hreplace, uncrossed]
    simp only [eq_comm (a := query[j])]
    split <;> push_cast <;> omega
  simp only [rowCell, Nat.add_sub_cancel, huncrossed, hquery]
  refine congrArg (done ++ [·]) ?_
  split
  · next hswap =>
    obtain ⟨hj2, hprev, hcur, hprev'⟩ := hswap
    rcases h with ⟨-, hzero⟩ | ⟨w', rfl, -, rfl⟩
    · exact absurd hzero hprev
    · obtain ⟨k, rfl⟩ := Nat.exists_eq_add_of_le' (show 1 ≤ j by omega)
      have hk : query.getD k 0 = query[k] := by
        simp [List.getD_eq_getElem?_getD, show k < query.length by omega]
      rw [show k + 1 + 1 - 2 = k by omega] at hcur ⊢
      rw [getD_row (by omega), front_succ (by omega), List.reverse_append, List.reverse_singleton,
        List.singleton_append, hprev', ← hk, ← hcur, cost_cons_cons_neighbours]
      push_cast
      rfl
  · next hnot =>
    refine congrArg _ (cost_neighbours_of_not fun x' y' hx hy => hnot ?_).symm
    rcases h with ⟨rfl, -⟩ | ⟨w', rfl, hne, -⟩
    · cases hx
    · rw [List.reverse_append, List.reverse_singleton, List.singleton_append] at hx
      cases j with
      | zero => cases hy
      | succ k =>
        have hk : query.getD k 0 = query[k] := by
          simp [List.getD_eq_getElem?_getD, show k < query.length by omega]
        rw [front_succ (by omega)] at hy
        refine ⟨by omega, hne, ?_, (List.cons.inj hx).1⟩
        rw [show k + 1 + 1 - 2 = k by omega, hk, (List.cons.inj hy).1]

/-- The row of a word with one more character. -/
theorem nextRow_eq (h : Behind query w prevChar prevPreviousRow) :
    nextRow query currentChar prevChar (row query w) prevPreviousRow =
      row query (w ++ [currentChar]) := by
  have hrun : ∀ k ≤ query.length, (List.range k).foldl
      (fun done i => rowCell query currentChar prevChar (row query w) prevPreviousRow done (i + 1))
      [(row query w).getD 0 0 + 1] = (List.range (k + 1)).map fun j =>
        (cost Neighbours (currentChar :: w.reverse) (front query j) : ℤ) := by
    intro k hk
    induction k with
    | zero =>
      rw [getD_row (Nat.zero_le _)]
      simp [cost_nil_right]
    | succ k ih =>
      rw [List.range_succ, List.foldl_append, ih (by omega), List.foldl_cons, List.foldl_nil,
        rowCell_eq h (by omega) (by simp [List.getD_eq_getElem?_getD]),
        List.range_succ (n := k + 1), List.map_append]
      rfl
  rw [nextRow, hrun _ le_rfl, row, List.reverse_append]
  rfl

theorem foldl_min_le {l : List ℤ} {b x : ℤ} (h : x = b ∨ x ∈ l) : l.foldl min b ≤ x := by
  induction l generalizing b x with
  | nil => exact (h.resolve_right (List.not_mem_nil)).ge
  | cons a l ih =>
    rw [List.foldl_cons]
    rcases h with rfl | h
    · exact (ih (.inl rfl)).trans (min_le_left _ _)
    · rcases List.mem_cons.1 h with rfl | h
      · exact (ih (.inl rfl)).trans (min_le_right _ _)
      · exact ih (.inr h)

/-- Some entry of the row of a prefix is at most the cost of the whole word. -/
theorem exists_row_le (query w rest : Name) :
    ∃ x ∈ row query w, x ≤ cost Neighbours (w ++ rest).reverse query.reverse := by
  have hall : Align Neighbours (rest.reverse ++ w.reverse) query.reverse
      (cost Neighbours (w ++ rest).reverse query.reverse) := by
    rw [← List.reverse_append]
    exact align_cost _ _
  obtain ⟨q, y, hq, hy⟩ := hall.drop_front
  have hquery : query = y.reverse ++ q.reverse := by
    rw [← List.reverse_append, ← hq, List.reverse_reverse]
  have hfront : front query y.length = y := by
    rw [front, hquery, List.take_left' List.length_reverse, List.reverse_reverse]
  have hlen : y.length < query.length + 1 := by
    have h := congrArg List.length hquery
    simp only [List.length_append, List.length_reverse] at h
    omega
  refine ⟨_, List.mem_map_of_mem (List.mem_range.2 hlen), ?_⟩
  rw [hfront]
  exact_mod_cast align_iff.1 hy

/-! ### The search -/

mutual

/-- The search finds words of the trie. -/
theorem has_of_mem_searchRecursive {maxDistance : ℤ} {m : Name × ℤ} :
    ∀ (node : TrieNode) (pre : Name) (currentChar prevChar : UInt8)
      (previousRow prevPreviousRow : List ℤ),
      m ∈ searchRecursive query maxDistance node pre currentChar prevChar previousRow
        prevPreviousRow → ∃ s, node.Has s ∧ m.1 = pre ++ s
  | .mk terminal children, pre, currentChar, prevChar, previousRow, prevPreviousRow => by
    intro hm
    rw [searchRecursive] at hm
    have hcases : (terminal = true ∧ m.1 = pre) ∨
        m ∈ searchChildren query maxDistance children pre currentChar
          (nextRow query currentChar prevChar previousRow prevPreviousRow) previousRow := by
      split_ifs at hm with hcut hfound hfound
      · exact .inl ⟨hfound.1, by rw [List.mem_singleton.1 hm]⟩
      · exact absurd hm List.not_mem_nil
      · exact (List.mem_append.1 hm).imp_left fun h => ⟨hfound.1, by rw [List.mem_singleton.1 h]⟩
      · exact .inr ((List.mem_append.1 hm).resolve_left List.not_mem_nil)
    rcases hcases with ⟨hterminal, hpre⟩ | hm
    · exact ⟨[], hterminal, by rw [hpre, List.append_nil]⟩
    · obtain ⟨ch, child, s, hmem, hs, hpre⟩ := has_of_mem_searchChildren children _ _ _ _ hm
      exact ⟨ch :: s, ⟨child, hmem, hs⟩, hpre⟩

theorem has_of_mem_searchChildren {maxDistance : ℤ} {m : Name × ℤ} :
    ∀ (children : List (UInt8 × TrieNode)) (pre : Name) (currentChar : UInt8)
      (currentRow previousRow : List ℤ),
      m ∈ searchChildren query maxDistance children pre currentChar currentRow previousRow →
        ∃ ch child s, (ch, child) ∈ children ∧ child.Has s ∧ m.1 = pre ++ ch :: s
  | [], _, _, _, _ => fun hm => absurd hm List.not_mem_nil
  | (ch, child) :: rest, pre, currentChar, currentRow, previousRow => by
    intro hm
    rw [searchChildren, List.mem_append] at hm
    rcases hm with hm | hm
    · obtain ⟨s, hs, hpre⟩ := has_of_mem_searchRecursive child _ _ _ _ _ hm
      exact ⟨ch, child, s, List.mem_cons_self, hs, by rw [hpre, List.append_assoc]; rfl⟩
    · obtain ⟨ch', child', s, hmem, hs, hpre⟩ := has_of_mem_searchChildren rest _ _ _ _ hm
      exact ⟨ch', child', s, List.mem_cons_of_mem _ hmem, hs, hpre⟩

end

/-- What a result of the search below `pre` is. -/
def Found (query : Name) (maxDistance : ℤ) (node : TrieNode) (pre : Name) (m : Name × ℤ) : Prop :=
  ∃ s, node.Has s ∧ m = (pre ++ s, (cost Neighbours (pre ++ s).reverse query.reverse : ℤ)) ∧
    m.2 ≤ maxDistance

theorem found_mk {maxDistance : ℤ} {m : Name × ℤ} {terminal : Bool}
    {children : List (UInt8 × TrieNode)} {pre : Name} :
    Found query maxDistance (.mk terminal children) pre m ↔
      (terminal = true ∧ m = (pre, (cost Neighbours pre.reverse query.reverse : ℤ)) ∧
        m.2 ≤ maxDistance) ∨
      ∃ ch child, (ch, child) ∈ children ∧ Found query maxDistance child (pre ++ [ch]) m := by
  constructor
  · rintro ⟨s, hs, hm, hle⟩
    cases s with
    | nil => exact .inl ⟨hs, by rwa [List.append_nil] at hm, hle⟩
    | cons ch s =>
      obtain ⟨child, hmem, hs⟩ := hs
      exact .inr ⟨ch, child, hmem, s, hs, by rwa [← List.append_cons], hle⟩
  · rintro (⟨hterminal, hm, hle⟩ | ⟨ch, child, hmem, s, hs, hm, hle⟩)
    · exact ⟨[], hterminal, by rwa [List.append_nil], hle⟩
    · exact ⟨ch :: s, ⟨child, hmem, hs⟩, by rwa [← List.append_cons] at hm, hle⟩

/-- Nothing below a row that is above the bound is within it. -/
theorem not_found_of_lt {maxDistance b : ℤ} {m : Name × ℤ} {node : TrieNode} {pre rest : Name}
    (h : maxDistance < (row query pre).foldl min b) :
    ¬ Found query maxDistance node (pre ++ rest) m := by
  rintro ⟨s, -, rfl, hle⟩
  obtain ⟨x, hx, hxle⟩ := exists_row_le query pre (rest ++ s)
  have hmin := foldl_min_le (b := b) (.inr hx)
  rw [← List.append_assoc] at hxle
  exact absurd (hmin.trans (hxle.trans hle)) (not_le.2 h)

mutual

/-- The search finds every word of the trie within the bound, with its distance. -/
theorem mem_searchRecursive {maxDistance : ℤ} {m : Name × ℤ} :
    ∀ (node : TrieNode) (w : Name) (currentChar prevChar : UInt8) (prevPreviousRow : List ℤ),
      (∀ s, node.Has s → 0 ∉ currentChar :: s) → Behind query w prevChar prevPreviousRow →
      (m ∈ searchRecursive query maxDistance node (w ++ [currentChar]) currentChar prevChar
        (row query w) prevPreviousRow ↔
          Found query maxDistance node (w ++ [currentChar]) m)
  | .mk terminal children, w, currentChar, prevChar, prevPreviousRow => by
    intro hnul h
    by_cases hcur : currentChar = 0
    · -- no word goes on with a NUL byte
      have hnone : ∀ s, ¬ TrieNode.Has (.mk terminal children) s := fun s hs =>
        hnul s hs (hcur ▸ List.mem_cons_self)
      constructor
      · intro hm
        obtain ⟨s, hs, -⟩ := has_of_mem_searchRecursive (.mk terminal children) _ _ _ _ _ hm
        exact absurd hs (hnone s)
      · rintro ⟨s, hs, -⟩
        exact absurd hs (hnone s)
    have hchildren := @mem_searchChildren maxDistance m children w currentChar hcur
      fun ch child s hmem hs h0 => hnul (ch :: s) ⟨child, hmem, hs⟩ (List.mem_cons_of_mem _ h0)
    have hhere : m ∈ (if terminal ∧ (row query (w ++ [currentChar])).getLastD 0 ≤ maxDistance then
          [(w ++ [currentChar], (row query (w ++ [currentChar])).getLastD 0)] else []) ↔
        terminal = true ∧ m = (w ++ [currentChar],
          (cost Neighbours (w ++ [currentChar]).reverse query.reverse : ℤ)) ∧
            m.2 ≤ maxDistance := by
      rw [getLastD_row]
      split
      · next hfound =>
        rw [List.mem_singleton]
        exact ⟨fun hm => ⟨hfound.1, hm, hm ▸ hfound.2⟩, fun hm => hm.2.1⟩
      · next hfound =>
        refine ⟨fun hm => absurd hm List.not_mem_nil, fun hm => absurd ⟨hm.1, ?_⟩ hfound⟩
        rw [hm.2.1] at hm
        exact hm.2.2
    rw [searchRecursive, nextRow_eq h, found_mk, ← hhere]
    split
    · next hcut =>
      refine (or_iff_left ?_).symm
      rintro ⟨ch, child, -, hfound⟩
      exact not_found_of_lt hcut hfound
    · rw [List.mem_append, hchildren]

theorem mem_searchChildren {maxDistance : ℤ} {m : Name × ℤ} :
    ∀ (children : List (UInt8 × TrieNode)) (w : Name) (currentChar : UInt8), currentChar ≠ 0 →
      (∀ ch child s, (ch, child) ∈ children → child.Has s → 0 ∉ ch :: s) →
      (m ∈ searchChildren query maxDistance children (w ++ [currentChar]) currentChar
        (row query (w ++ [currentChar])) (row query w) ↔
          ∃ ch child, (ch, child) ∈ children ∧
            Found query maxDistance child (w ++ [currentChar] ++ [ch]) m)
  | [], _, _ => fun _ _ => by simp [searchChildren]
  | (ch, child) :: rest, w, currentChar => by
    intro hcur hnul
    have hrest := @mem_searchChildren maxDistance m rest w currentChar hcur
      fun ch' child' s hmem hs => hnul ch' child' s (List.mem_cons_of_mem _ hmem) hs
    have hfirst : m ∈ searchRecursive query maxDistance child (w ++ [currentChar] ++ [ch]) ch
          currentChar (row query (w ++ [currentChar])) (row query w) ↔
        Found query maxDistance child (w ++ [currentChar] ++ [ch]) m :=
      mem_searchRecursive child (w ++ [currentChar]) ch currentChar (row query w)
        (fun s hs => hnul ch child s List.mem_cons_self hs) (.inr ⟨w, rfl, hcur, rfl⟩)
    rw [searchChildren, List.mem_append, hfirst, hrest]
    constructor
    · rintro (hm | ⟨ch', child', hmem, hm⟩)
      · exact ⟨ch, child, List.mem_cons_self, hm⟩
      · exact ⟨ch', child', List.mem_cons_of_mem _ hmem, hm⟩
    · rintro ⟨ch', child', hmem, hm⟩
      rcases List.mem_cons.1 hmem with heq | hmem
      · obtain ⟨rfl, rfl⟩ := Prod.mk.inj heq
        exact .inl hm
      · exact .inr ⟨ch', child', hmem, hm⟩

end

/-- The distance of the two names, by the program for two words. -/
def distance (query name : Name) : ℤ := (getLevenshteinDistance name query).getD 0

theorem distance_eq (query name : Name) :
    distance query name = cost Neighbours name.reverse query.reverse := by
  rw [distance, getLevenshteinDistance_eq]
  rfl

theorem mem_search {root : TrieNode} {maxDistance : ℤ} (hnul : ∀ s, root.Has s → 0 ∉ s)
    (m : Name × ℤ) :
    m ∈ search root query maxDistance ↔
      m.1 ≠ [] ∧ root.Has m.1 ∧ m.2 = distance query m.1 ∧ m.2 ≤ maxDistance := by
  obtain ⟨terminal, children⟩ := root
  have hchild : ∀ ch child, (ch, child) ∈ children →
      (m ∈ searchRecursive query maxDistance child [ch] ch 0 (row query []) (row query []) ↔
        Found query maxDistance child [ch] m) := fun ch child hmem =>
    mem_searchRecursive child [] ch 0 (row query [])
      (fun s hs => hnul (ch :: s) ⟨child, hmem, hs⟩) (.inl ⟨rfl, rfl⟩)
  rw [search, ← row_nil, TrieNode.children, List.mem_flatMap]
  constructor
  · rintro ⟨⟨ch, child⟩, hmem, hm⟩
    obtain ⟨s, hs, rfl, hle⟩ := (hchild ch child hmem).1 hm
    exact ⟨List.cons_ne_nil ch s, ⟨child, hmem, hs⟩, (distance_eq query _).symm, hle⟩
  · rintro ⟨hne, hhas, hdist, hle⟩
    obtain ⟨name, d⟩ := m
    cases name with
    | nil => exact absurd rfl hne
    | cons ch s =>
      obtain ⟨child, hmem, hs⟩ := hhas
      rw [distance_eq] at hdist
      exact ⟨(ch, child), hmem, (hchild ch child hmem).2 ⟨s, hs, Prod.ext rfl hdist, hle⟩⟩

/-! ### The suggestions -/

/-- The candidates that are indexed. -/
def Indexed (query name : Name) : Prop :=
  name ≠ [] ∧ name ≠ query ∧ |(name.length : ℤ) - query.length| ≤ getThreshold query

theorem has_indexCandidates (query : Name) (candidates : List Name) :
    (∀ name, (candidates.foldl (indexCandidate query) ([], .new)).2.Has name ↔
      name ∈ candidates ∧ Indexed query name) ∧
    ∀ name ∈ (candidates.foldl (indexCandidate query) ([], .new)).1, name ∈ candidates ∧
      Indexed query name := by
  induction candidates using List.reverseRecOn with
  | nil => exact ⟨fun name => by simp [TrieNode.not_has_new], by simp⟩
  | append_singleton l candidate ih =>
    rw [List.foldl_append, List.foldl_cons, List.foldl_nil]
    generalize l.foldl (indexCandidate query) ([], .new) = st at ih ⊢
    obtain ⟨hhas, hseen⟩ := ih
    -- nothing changes when the candidate is not indexed, or is there
    have hkeep : (Indexed query candidate → candidate ∈ l) →
        (∀ name, st.2.Has name ↔ name ∈ l ++ [candidate] ∧ Indexed query name) ∧
          ∀ name ∈ st.1, name ∈ l ++ [candidate] ∧ Indexed query name := by
      intro hold
      refine ⟨fun name => ?_, fun name hname => ?_⟩
      · rw [hhas, List.mem_append, List.mem_singleton]
        refine ⟨fun h => ⟨.inl h.1, h.2⟩, fun h => ⟨h.1.elim id ?_, h.2⟩⟩
        rintro rfl
        exact hold h.2
      · exact ⟨List.mem_append_left _ (hseen name hname).1, (hseen name hname).2⟩
    unfold indexCandidate
    split_ifs with h₁ h₂ h₃
    · exact hkeep fun h => (h₁.elim h.1 h.2.1).elim
    · exact hkeep fun h => absurd h.2.2 (not_le.2 h₂)
    · exact hkeep fun _ => (hseen candidate h₃).1
    · have hindexed : Indexed query candidate :=
        ⟨fun h => h₁ (.inl h), fun h => h₁ (.inr h), not_lt.1 h₂⟩
      refine ⟨fun name => ?_, fun name hname => ?_⟩
      · rw [TrieNode.has_insert, hhas, List.mem_append, List.mem_singleton]
        constructor
        · rintro (h | rfl)
          · exact ⟨.inl h.1, h.2⟩
          · exact ⟨.inr rfl, hindexed⟩
        · rintro ⟨h | rfl, hname⟩
          · exact .inl ⟨h, hname⟩
          · exact .inr rfl
      · rcases List.mem_cons.1 hname with rfl | hname
        · exact ⟨by simp, hindexed⟩
        · exact ⟨List.mem_append_left _ (hseen name hname).1, (hseen name hname).2⟩

/-- The loop over the matches keeps the first occurrences, as many as are wanted. -/
theorem takeSuggestions_eq {maxResults : ℕ} (found : List (Name × ℤ))
    {added suggestions : List Name} (hadded : ∀ name, name ∈ added ↔ name ∈ suggestions)
    (hlen : suggestions.length < maxResults) :
    takeSuggestions maxResults found added suggestions =
      ((found.map Prod.fst).foldl addNew suggestions).take maxResults := by
  induction found generalizing added suggestions with
  | nil => exact (List.take_of_length_le hlen.le).symm
  | cons m rest ih =>
    obtain ⟨name, d⟩ := m
    rw [takeSuggestions, List.map_cons, List.foldl_cons]
    by_cases hname : name ∈ suggestions
    · rw [if_pos ((hadded name).2 hname), show addNew suggestions name = _ from if_pos hname,
        ih hadded hlen]
    · rw [if_neg (mt (hadded name).1 hname), show addNew suggestions name = _ from if_neg hname]
      dsimp only
      split
      · next hfull =>
        obtain ⟨t, ht⟩ := exists_foldl_addNew (suggestions ++ [name]) (rest.map Prod.fst)
        rw [ht, List.take_left' hfull]
      · next hroom =>
        refine ih (fun x => ?_) ?_
        · simp [hadded, or_comm]
        · simp only [List.length_append, List.length_singleton] at hroom ⊢
          omega

/-- The order that the matches are sorted by. -/
def NotAfter (a b : Name × ℤ) : Prop := ¬ matchBefore b a

theorem notAfter_iff {a b : Name × ℤ} : NotAfter a b ↔ a.2 < b.2 ∨ a.2 = b.2 ∧ ¬ b.1 < a.1 := by
  unfold NotAfter matchBefore
  rcases lt_trichotomy a.2 b.2 with h | h | h
  · simp [h, h.ne', h.le]
  · simp [h]
  · simp [h, h.ne, h.ne', h.le]

theorem NotAfter.trans {a b c : Name × ℤ} (h : NotAfter a b) (h' : NotAfter b c) :
    NotAfter a c := by
  rw [notAfter_iff] at h h' ⊢
  rcases h with h | ⟨h, hname⟩
  · exact .inl (by omega)
  · rcases h' with h' | ⟨h', hname'⟩
    · exact .inl (by omega)
    · exact .inr ⟨by omega, List.le_trans hname hname'⟩

theorem NotAfter.total (a b : Name × ℤ) : NotAfter a b ∨ NotAfter b a := by
  rw [notAfter_iff, notAfter_iff]
  rcases lt_trichotomy a.2 b.2 with h | h | h
  · exact .inl (.inl h)
  · by_cases hname : b.1 < a.1
    · exact .inr (.inr ⟨h.symm, List.lt_asymm hname⟩)
    · exact .inl (.inr ⟨h, hname⟩)
  · exact .inr (.inl h)

theorem NotAfter.antisymm {a b : Name × ℤ} (h : NotAfter a b) (h' : NotAfter b a) : a = b := by
  rw [notAfter_iff] at h h'
  have hd : a.2 = b.2 := by
    rcases h with h | h
    · rcases h' with h' | h' <;> omega
    · exact h.1
  have hab : ¬ b.1 < a.1 := (h.resolve_left (by omega)).2
  have hba : ¬ a.1 < b.1 := (h'.resolve_left (by omega)).2
  exact Prod.ext (List.le_antisymm hab hba) hd

instance : IsTrans (Name × ℤ) NotAfter := ⟨fun _ _ _ => NotAfter.trans⟩

instance : Std.Total NotAfter := ⟨NotAfter.total⟩

/-- The order of the names by distance and name. -/
def Nearer (query : Name) (a b : Name) : Prop :=
  NotAfter (a, distance query a) (b, distance query b)

instance (query : Name) : IsTrans Name (Nearer query) := ⟨fun _ _ _ => NotAfter.trans⟩

instance (query : Name) : Std.Total (Nearer query) := ⟨fun _ _ => NotAfter.total _ _⟩

theorem Nearer.antisymm {a b : Name} (h : Nearer query a b) (h' : Nearer query b a) : a = b :=
  congrArg Prod.fst (NotAfter.antisymm h h')

instance : DecidableRel NotAfter := fun a b => inferInstanceAs (Decidable ¬ matchBefore b a)

instance (query : Name) : DecidableRel (Nearer query) := fun a b =>
  inferInstanceAs (Decidable (NotAfter (a, distance query a) (b, distance query b)))

/-- The names other than the query that are within its threshold. -/
def close (query : Name) (candidates : List Name) : List Name :=
  (firsts candidates).filter fun name =>
    name ≠ [] ∧ name ≠ query ∧ distance query name ≤ getThreshold query

/-- Every candidate by itself: the distinct ones within the threshold, by distance and name. -/
def bruteForce (query : Name) (candidates : List Name) (maxResults : ℕ) : List Name :=
  ((close query candidates).insertionSort (Nearer query)).take maxResults

theorem mem_close {candidates : List Name} {name : Name} :
    name ∈ close query candidates ↔ name ∈ candidates ∧ name ≠ [] ∧ name ≠ query ∧
      distance query name ≤ getThreshold query := by
  simp [close]

/-- The names at most so far away are not too long and not too short. -/
theorem abs_length_sub_le (query name : Name) :
    |(name.length : ℤ) - query.length| ≤ distance query name := by
  have h := @length_le_cost _ Neighbours name.reverse query.reverse
  rw [List.length_reverse, List.length_reverse] at h
  rw [distance_eq, abs_le]
  omega

/-- The names of matches with their distances, sorted and without repeats, are the sorted names. -/
theorem firsts_sorted_eq {candidates : List Name} {found : List (Name × ℤ)}
    (hmem : ∀ m, m ∈ found ↔ m.1 ∈ close query candidates ∧ m.2 = distance query m.1) :
    firsts ((found.insertionSort NotAfter).map Prod.fst) =
      (close query candidates).insertionSort (Nearer query) := by
  have hsorted : ((found.insertionSort NotAfter).map Prod.fst).Pairwise (Nearer query) := by
    refine List.pairwise_map.2 ((List.pairwise_insertionSort NotAfter found).imp_of_mem ?_)
    intro a b ha hb hab
    rw [List.mem_insertionSort, hmem] at ha hb
    unfold Nearer
    rwa [← ha.2, ← hb.2]
  have hnodup : ((close query candidates).insertionSort (Nearer query)).Nodup :=
    (List.perm_insertionSort _ _).nodup_iff.2 ((nodup_firsts candidates).filter _)
  have hperm : (firsts ((found.insertionSort NotAfter).map Prod.fst)).Perm
      ((close query candidates).insertionSort (Nearer query)) := by
    refine (List.perm_ext_iff_of_nodup (nodup_firsts _) hnodup).2 fun name => ?_
    rw [mem_firsts, List.mem_map, List.mem_insertionSort]
    constructor
    · rintro ⟨m, hm, rfl⟩
      exact ((hmem m).1 ((List.mem_insertionSort _).1 hm)).1
    · intro hname
      exact ⟨(name, distance query name),
        (List.mem_insertionSort _).2 ((hmem _).2 ⟨hname, rfl⟩), rfl⟩
  exact hperm.eq_of_pairwise (fun _ _ _ _ => Nearer.antisymm) (hsorted.sublist (firsts_sublist _))
    (List.pairwise_insertionSort (Nearer query) _)

/-- The suggestions for a name are those that a search of every candidate finds. -/
theorem suggestFromCandidates_eq (candidates : List Name) (maxResults : ℕ) (hquery : query ≠ [])
    (hnul : ∀ name ∈ candidates, 0 ∉ name) :
    suggestFromCandidates query candidates maxResults = bruteForce query candidates maxResults := by
  unfold suggestFromCandidates
  split
  · next h =>
    rcases h with h | rfl | rfl
    · exact absurd h hquery
    · exact List.take_nil.symm
    · rw [bruteForce, List.take_zero]
  · next h =>
    obtain ⟨hhas, -⟩ := has_indexCandidates query candidates
    generalize candidates.foldl (indexCandidate query) ([], .new) = st at hhas ⊢
    obtain ⟨seen, trieIndex⟩ := st
    dsimp only
    have hmem := @mem_search query trieIndex (getThreshold query)
      fun s hs => hnul s ((hhas s).1 hs).1
    generalize search trieIndex query (getThreshold query) = found at hmem ⊢
    have hpos : ([] : List Name).length < maxResults :=
      Nat.pos_of_ne_zero fun h0 => h (.inr (.inr h0))
    rw [takeSuggestions_eq _ (fun _ => Iff.rfl) hpos, bruteForce]
    refine congrArg (List.take maxResults) ?_
    refine firsts_sorted_eq fun m => ?_
    rw [hmem, hhas, mem_close, Indexed]
    constructor
    · rintro ⟨-, ⟨hcand, hne, hother, -⟩, hd, hle⟩
      exact ⟨⟨hcand, hne, hother, hd ▸ hle⟩, hd⟩
    · rintro ⟨⟨hcand, hne, hother, hle⟩, hd⟩
      exact ⟨hne, ⟨hcand, hne, hother, (abs_length_sub_le query m.1).trans hle⟩, hd, hd ▸ hle⟩

theorem suggestFromCandidates_eq_prnit :
    suggestFromCandidates [112, 114, 110, 105, 116]
      [[112, 114, 105, 110, 116], [112, 97, 110, 105, 99], [112, 114, 105, 110, 116]] 3 =
        bruteForce [112, 114, 110, 105, 116]
          [[112, 114, 105, 110, 116], [112, 97, 110, 105, 99], [112, 114, 105, 110, 116]] 3 :=
  suggestFromCandidates_eq _ _ (by decide) (by decide)

/-- For the empty query a candidate of one character is within the threshold, and is left out. -/
theorem suggestFromCandidates_nil_ne :
    suggestFromCandidates [] [[97]] 3 ≠ bruteForce [] [[97]] 3 := by
  decide

end SuggestionIndex

end TurfLang
