import Mathlib.Tactic

/-!
# Linear probing with tombstones

An open-addressing table of `n` cells, probed from a home slot on: `(home + j) % n` for
`j = 0, 1, …`. A search stops at the first empty cell, so an entry is found exactly when no
cell before it on its path is empty; deletion leaves a tombstone, which keeps that so.
-/

namespace Probing

/-- A cell: never used, deleted, or holding `a`. -/
inductive Cell (α : Type*)
  | empty
  | tomb
  | full (a : α)
  deriving DecidableEq, Repr

/-- Whether a cell holds something. -/
def Cell.isFull {α : Type*} : Cell α → Bool
  | .full _ => true
  | _ => false

/-- Whether a cell is a tombstone. -/
def Cell.isTomb {α : Type*} : Cell α → Bool
  | .tomb => true
  | _ => false

variable {α : Type*} {cells : List (Cell α)}

/-! ### Paths -/

/-- The `j`-th slot probed from `home`. -/
def path (n home j : ℕ) : ℕ := (home + j) % n

theorem path_zero {n home : ℕ} (h : home < n) : path n home 0 = home := Nat.mod_eq_of_lt h

theorem path_succ (n home j : ℕ) : path n home (j + 1) = (path n home j + 1) % n := by
  simp [path, Nat.add_assoc]

theorem path_lt {n : ℕ} (h : 0 < n) (home j : ℕ) : path n home j < n := Nat.mod_lt _ h

/-- Every slot is probed. -/
theorem exists_path_eq {n home s : ℕ} (hh : home < n) (hs : s < n) :
    ∃ j < n, path n home j = s := by
  refine ⟨(s + (n - home)) % n, Nat.mod_lt _ (by omega), ?_⟩
  rw [path, Nat.add_mod_mod, show home + (s + (n - home)) = s + n by omega, Nat.add_mod_right,
    Nat.mod_eq_of_lt hs]

/-- The slot `s` is probed from `home`, with no empty cell before it. -/
def OnPath (cells : List (Cell α)) (home s : ℕ) : Prop :=
  ∃ j < cells.length, path cells.length home j = s ∧
    ∀ i < j, cells[path cells.length home i]? ≠ some .empty

theorem OnPath.lt {home s : ℕ} (h : OnPath cells home s) : s < cells.length := by
  obtain ⟨j, hj, rfl, -⟩ := h
  exact path_lt (by omega) _ _

/-- Writing a cell that is not empty cuts no path. -/
theorem OnPath.set {home s : ℕ} (h : OnPath cells home s) {t : ℕ} {c : Cell α}
    (hc : c ≠ .empty) : OnPath (cells.set t c) home s := by
  obtain ⟨j, hj, hs, hpath⟩ := h
  refine ⟨j, by simpa using hj, by simpa using hs, fun i hi => ?_⟩
  rw [List.length_set, List.getElem?_set]
  split_ifs with ht hlt
  · simpa using hc
  · simp
  · exact hpath i hi

/-! ### Searching -/

/-- Probe at most `k` cells from `s` on for one whose content satisfies `p`. -/
def find (p : α → Bool) (cells : List (Cell α)) : ℕ → ℕ → Option ℕ
  | 0, _ => none
  | k + 1, s =>
    match cells[s]? with
    | some (.full a) => if p a then some s else find p cells k ((s + 1) % cells.length)
    | some .tomb => find p cells k ((s + 1) % cells.length)
    | _ => none

/-- What is found satisfies `p`. -/
theorem exists_of_find {p : α → Bool} {k s r : ℕ} (h : find p cells k s = some r) :
    ∃ a, cells[r]? = some (.full a) ∧ p a = true := by
  fun_induction find p cells k s with
  | case1 => cases h
  | case2 k s a hs hp =>
    obtain rfl : s = r := by simpa using h
    exact ⟨a, hs, hp⟩
  | case3 k s a hs hp ih => exact ih h
  | case4 k s hs ih => exact ih h
  | case5 => cases h

/-- A cell satisfying `p` that lies on the path is found when it is the only one. -/
theorem find_eq_some {p : α → Bool} {home r : ℕ} {a : α} (h : OnPath cells home r)
    (hr : cells[r]? = some (.full a)) (hp : p a = true)
    (huniq : ∀ (s : ℕ) (b : α), cells[s]? = some (.full b) → p b = true → s = r) (hhome : home < cells.length) :
    find p cells cells.length home = some r := by
  obtain ⟨j, hj, rfl, hpath⟩ := h
  -- from the `i`-th probe on, with `cells.length - i` probes left
  suffices ∀ d i, i + d = j → find p cells (cells.length - i) (path cells.length home i) =
      some (path cells.length home j) by
    simpa [path_zero hhome] using this j 0 (by omega)
  intro d
  induction d with
  | zero =>
    rintro i rfl
    obtain ⟨k, hk⟩ : ∃ k, cells.length - i = k + 1 := ⟨cells.length - i - 1, by omega⟩
    rw [hk, find]
    simp only [Nat.add_zero] at hr
    rw [hr]
    simp [hp]
  | succ d ih =>
    intro i hi
    obtain ⟨k, hk⟩ : ∃ k, cells.length - i = k + 1 := ⟨cells.length - i - 1, by omega⟩
    have hnext := ih (i + 1) (by omega)
    rw [show cells.length - (i + 1) = k by omega, path_succ] at hnext
    have hlt : path cells.length home i < cells.length := path_lt (by omega) _ _
    have hne := hpath i (by omega)
    rw [hk, find]
    cases hc : cells[path cells.length home i]? with
    | none => exact absurd (List.getElem?_eq_none_iff.1 hc) (by omega)
    | some c =>
      cases c with
      | empty => exact absurd hc hne
      | tomb => exact hnext
      | full b =>
        by_cases hb : p b = true
        · have := huniq _ b hc hb
          simp [hb, this]
        · simpa [hb] using hnext

/-- Nothing is found when no cell satisfies `p`. -/
theorem find_eq_none {p : α → Bool} {k s : ℕ}
    (h : ∀ (r : ℕ) (a : α), cells[r]? = some (.full a) → p a = false) : find p cells k s = none := by
  cases hf : find p cells k s with
  | none => rfl
  | some r =>
    obtain ⟨a, hr, hp⟩ := exists_of_find hf
    simp [h r a hr] at hp

/-- The search without a bound on the probes, which only an empty cell or a hit ends: `none`
when it is still running after `k` probes. -/
def probe (p : α → Bool) (cells : List (Cell α)) : ℕ → ℕ → Option (Option ℕ)
  | 0, _ => none
  | k + 1, s =>
    match cells[s]? with
    | some (.full a) => if p a then some (some s) else probe p cells k ((s + 1) % cells.length)
    | some .tomb => probe p cells k ((s + 1) % cells.length)
    | _ => some none

/-- With an empty cell in the table the unbounded search ends, as the bounded one does. -/
theorem probe_eq_find {p : α → Bool} {home : ℕ} (hhome : home < cells.length)
    (hempty : .empty ∈ cells) :
    probe p cells cells.length home = some (find p cells cells.length home) := by
  obtain ⟨e, he, hcell⟩ := List.getElem_of_mem hempty
  obtain ⟨j, hj, hje⟩ := exists_path_eq hhome he
  suffices ∀ k i, i + k = cells.length → i ≤ j →
      probe p cells k (path cells.length home i) =
        some (find p cells k (path cells.length home i)) by
    simpa [path_zero hhome] using this cells.length 0 (by omega) (by omega)
  intro k
  induction k with
  | zero => intro i hi hij; omega
  | succ k ih =>
    intro i hi hij
    -- the cell at the `j`-th probe is empty, so a cell that is not has others after it
    have hstep : cells[path cells.length home i]? ≠ some .empty →
        probe p cells k ((path cells.length home i + 1) % cells.length) =
          some (find p cells k ((path cells.length home i + 1) % cells.length)) := by
      intro hne
      rw [← path_succ]
      refine ih (i + 1) (by omega) ?_
      by_contra hcon
      obtain rfl : i = j := by omega
      rw [hje, List.getElem?_eq_getElem he, hcell] at hne
      exact hne rfl
    rw [probe, find]
    cases hc : cells[path cells.length home i]? with
    | none => rfl
    | some c =>
      cases c with
      | empty => rfl
      | tomb => exact hstep (by simp [hc])
      | full a =>
        by_cases ha : p a = true
        · simp [ha]
        · simpa [ha] using hstep (by simp [hc])

/-! ### Choosing a slot for a new entry -/

/-- Probe at most `k` cells from `s` on for an empty one, and return the first tombstone seen
before it (or `tomb`, one seen earlier), else the empty cell. -/
def insertSlot (cells : List (Cell α)) : ℕ → ℕ → Option ℕ → Option ℕ
  | 0, _, tomb => tomb
  | k + 1, s, tomb =>
    match cells[s]? with
    | some .empty => some (tomb.getD s)
    | some .tomb => insertSlot cells k ((s + 1) % cells.length) (some (tomb.getD s))
    | _ => insertSlot cells k ((s + 1) % cells.length) tomb

/-- A cell that a new entry may be written to. -/
def Free (cells : List (Cell α)) (s : ℕ) : Prop :=
  cells[s]? = some .empty ∨ cells[s]? = some .tomb

/-- A table with an empty cell offers a free slot on the path. -/
theorem exists_insertSlot {home : ℕ} (hhome : home < cells.length) (hempty : .empty ∈ cells) :
    ∃ s, insertSlot cells cells.length home none = some s ∧ OnPath cells home s ∧
      Free cells s := by
  obtain ⟨e, he, hcell⟩ := List.getElem_of_mem hempty
  obtain ⟨j, hj, hje⟩ := exists_path_eq hhome he
  -- from the `i`-th probe on: no cell before it is empty, and `tomb` is one of them
  suffices ∀ k i tomb, i + k = cells.length → i ≤ j →
      (∀ i' < i, cells[path cells.length home i']? ≠ some .empty) →
      (∀ t, tomb = some t → OnPath cells home t ∧ Free cells t) →
      ∃ s, insertSlot cells k (path cells.length home i) tomb = some s ∧ OnPath cells home s ∧
        Free cells s by
    simpa [path_zero hhome] using this cells.length 0 none (by omega) (by omega) (by simp) (by simp)
  intro k
  induction k with
  | zero => intro i tomb hi hij; omega
  | succ k ih =>
    intro i tomb hi hij hbefore htomb
    have hon : OnPath cells home (path cells.length home i) := ⟨i, by omega, rfl, hbefore⟩
    have hstep : ∀ tomb' : Option ℕ, cells[path cells.length home i]? ≠ some .empty →
        (∀ t, tomb' = some t → OnPath cells home t ∧ Free cells t) →
        ∃ s, insertSlot cells k ((path cells.length home i + 1) % cells.length) tomb' = some s ∧
          OnPath cells home s ∧ Free cells s := by
      intro tomb' hne htomb'
      rw [← path_succ]
      refine ih (i + 1) tomb' (by omega) ?_ (fun i' hi' => ?_) htomb'
      · by_contra hcon
        obtain rfl : i = j := by omega
        rw [hje, List.getElem?_eq_getElem he, hcell] at hne
        exact hne rfl
      · rcases Nat.lt_succ_iff_lt_or_eq.1 hi' with h | rfl
        · exact hbefore i' h
        · exact hne
    rw [insertSlot]
    cases hc : cells[path cells.length home i]? with
    | none =>
      have hlt : path cells.length home i < cells.length := path_lt (by omega) _ _
      exact absurd (List.getElem?_eq_none_iff.1 hc) (by omega)
    | some c =>
      cases c with
      | empty =>
        cases tomb with
        | none => exact ⟨_, rfl, hon, .inl hc⟩
        | some t => exact ⟨t, rfl, htomb t rfl⟩
      | tomb =>
        refine hstep _ (by simp [hc]) fun t ht => ?_
        cases tomb with
        | none =>
          obtain rfl : path cells.length home i = t := by simpa using ht
          exact ⟨hon, .inr hc⟩
        | some t' => exact htomb t ht
      | full a => exact hstep _ (by simp [hc]) htomb

/-- The first free cell, probing from `s` on: `none` when it is still looking after `k`
probes. -/
def freeSlot (cells : List (Cell α)) : ℕ → ℕ → Option ℕ
  | 0, _ => none
  | k + 1, s =>
    match cells[s]? with
    | some (.full _) => freeSlot cells k ((s + 1) % cells.length)
    | _ => some s

/-- A table with an empty cell has a free slot on the path. -/
theorem exists_freeSlot {home : ℕ} (hhome : home < cells.length) (hempty : .empty ∈ cells) :
    ∃ s, freeSlot cells cells.length home = some s ∧ OnPath cells home s ∧ Free cells s := by
  obtain ⟨e, he, hcell⟩ := List.getElem_of_mem hempty
  obtain ⟨j, hj, hje⟩ := exists_path_eq hhome he
  -- from the `i`-th probe on: every cell before it is full
  suffices ∀ k i, i + k = cells.length → i ≤ j →
      (∀ i' < i, cells[path cells.length home i']? ≠ some .empty) →
      ∃ s, freeSlot cells k (path cells.length home i) = some s ∧ OnPath cells home s ∧
        Free cells s by
    simpa [path_zero hhome] using this cells.length 0 (by omega) (by omega) (by simp)
  intro k
  induction k with
  | zero => intro i hi hij; omega
  | succ k ih =>
    intro i hi hij hbefore
    have hon : OnPath cells home (path cells.length home i) := ⟨i, by omega, rfl, hbefore⟩
    have hlt := hon.lt
    rw [freeSlot]
    cases hc : cells[path cells.length home i]? with
    | none => exact absurd (List.getElem?_eq_none_iff.1 hc) (by omega)
    | some c =>
      cases c with
      | empty => exact ⟨_, rfl, hon, .inl hc⟩
      | tomb => exact ⟨_, rfl, hon, .inr hc⟩
      | full a =>
        simp only
        rw [← path_succ]
        refine ih (i + 1) (by omega) ?_ fun i' hi' => ?_
        · by_contra hcon
          obtain rfl : i = j := by omega
          rw [hje, List.getElem?_eq_getElem he, hcell] at hc
          cases hc
        · rcases Nat.lt_succ_iff_lt_or_eq.1 hi' with h | rfl
          · exact hbefore i' h
          · simp [hc]

/-! ### Counting cells -/

theorem countP_set_of_getElem? (p : Cell α → Bool) {s : ℕ} {c : Cell α} (h : cells[s]? = some c)
    (c' : Cell α) :
    (cells.set s c').countP p + (p c).toNat = cells.countP p + (p c').toNat := by
  obtain ⟨hs, rfl⟩ := List.getElem?_eq_some_iff.1 h
  have hpos : p cells[s] = true → 0 < cells.countP p := fun hp =>
    List.countP_pos_iff.2 ⟨_, List.getElem_mem hs, hp⟩
  rw [List.countP_set hs]
  cases hp : p cells[s] <;> cases p c' <;> simp_all

/-- A cell that is not empty is full or deleted. -/
theorem countP_ne_empty [DecidableEq α] :
    cells.countP (fun c => decide (c ≠ .empty)) =
      cells.countP Cell.isFull + cells.countP Cell.isTomb := by
  induction cells with
  | nil => rfl
  | cons c cells ih =>
    simp only [List.countP_cons, ih]
    cases c <;> simp [Cell.isFull, Cell.isTomb] <;> omega

/-- With fewer full and deleted cells than cells, some cell is empty. -/
theorem empty_mem_of_count_lt
    (h : cells.countP Cell.isFull + cells.countP Cell.isTomb < cells.length) :
    Cell.empty ∈ cells := by
  induction cells with
  | nil => simp at h
  | cons c cells ih =>
    cases c with
    | empty => simp
    | tomb =>
      refine List.mem_cons_of_mem _ (ih ?_)
      simp only [List.countP_cons, Cell.isFull, Cell.isTomb, List.length_cons] at h
      simp at h
      omega
    | full a =>
      refine List.mem_cons_of_mem _ (ih ?_)
      simp only [List.countP_cons, Cell.isFull, Cell.isTomb, List.length_cons] at h
      simp at h
      omega

/-! ### A table that indexes a list

Entry `i` of a list has the home slot `homes[i]`, and exactly one cell, reachable from that
slot, names `i`. What a cell holds may be more than the position it names, `pos a`. -/

/-- The table names each of the entries with these home slots exactly once. -/
structure Index (pos : α → ℕ) (cells : List (Cell α)) (homes : List ℕ) : Prop where
  pos_lt : ∀ {s : ℕ} {a : α}, cells[s]? = some (.full a) → pos a < homes.length
  onPath : ∀ {i h : ℕ}, homes[i]? = some h →
    ∃ s a, cells[s]? = some (.full a) ∧ pos a = i ∧ OnPath cells h s
  slot_inj : ∀ {s s' : ℕ} {a a' : α}, cells[s]? = some (.full a) →
    cells[s']? = some (.full a') → pos a = pos a' → s = s'
  count_full : cells.countP Cell.isFull = homes.length

namespace Index

variable {pos : α → ℕ} {homes : List ℕ}

/-- A fresh table indexes the empty list. -/
theorem replicate (pos : α → ℕ) (n : ℕ) : Index pos (List.replicate n .empty) [] where
  pos_lt h := by simp [List.getElem?_replicate] at h
  onPath h := by simp at h
  slot_inj h := by simp [List.getElem?_replicate] at h
  count_full := by simp [List.countP_replicate, Cell.isFull]

theorem getElem?_set_full {s r : ℕ} {c : Cell α} {a : α}
    (h : (cells.set s c)[r]? = some (.full a)) :
    (s = r ∧ c = .full a) ∨ (s ≠ r ∧ cells[r]? = some (.full a)) := by
  rw [List.getElem?_set] at h
  split_ifs at h with hs hlt
  · exact .inl ⟨hs, by simpa using h⟩
  · exact .inr ⟨hs, h⟩

/-- Writing the position of a new last entry to a free cell on its path. -/
theorem push (hI : Index pos cells homes) {h s : ℕ} (hon : OnPath cells h s)
    (hfree : Free cells s) {a : α} (ha : pos a = homes.length) :
    Index pos (cells.set s (.full a)) (homes ++ [h]) where
  pos_lt hr := by
    rw [List.length_append, List.length_singleton]
    rcases getElem?_set_full hr with ⟨-, hc⟩ | ⟨-, hr⟩
    · obtain rfl : a = _ := by simpa using hc
      omega
    · have := hI.pos_lt hr
      omega
  onPath {i h'} hi := by
    rcases Nat.lt_or_ge i homes.length with hlt | hge
    · rw [List.getElem?_append_left hlt] at hi
      obtain ⟨r, b, hr, hb, hpath⟩ := hI.onPath hi
      refine ⟨r, b, ?_, hb, hpath.set (by simp)⟩
      rw [List.getElem?_set_ne, hr]
      rintro rfl
      rcases hfree with hf | hf <;> simp [hf] at hr
    · rw [List.getElem?_append_right hge] at hi
      obtain ⟨hi0, rfl⟩ : i - homes.length = 0 ∧ h = h' := by
        cases hd : i - homes.length with
        | zero => simpa [hd] using hi
        | succ d => simp [hd] at hi
      exact ⟨s, a, List.getElem?_set_self hon.lt, by omega, hon.set (by simp)⟩
  slot_inj {r r' b b'} hr hr' hpos := by
    rcases getElem?_set_full hr with ⟨rfl, hc⟩ | ⟨hne, hr⟩ <;>
      rcases getElem?_set_full hr' with ⟨rfl, hc'⟩ | ⟨hne', hr'⟩
    · rfl
    · obtain rfl : a = b := by simpa using hc
      have := hI.pos_lt hr'
      omega
    · obtain rfl : a = b' := by simpa using hc'
      have := hI.pos_lt hr
      omega
    · exact hI.slot_inj hr hr' hpos
  count_full := by
    have hcount := hI.count_full
    rcases hfree with hf | hf
    all_goals
      have := countP_set_of_getElem? Cell.isFull hf (.full a)
      simp [Cell.isFull] at this
      simp only [List.length_append, List.length_singleton]
      omega

/-- Deleting the last entry. -/
theorem pop {h : ℕ} (hI : Index pos cells (homes ++ [h])) {s : ℕ} {a : α}
    (hs : cells[s]? = some (.full a)) (ha : pos a = homes.length) :
    Index pos (cells.set s .tomb) homes where
  pos_lt {r b} hr := by
    rcases getElem?_set_full hr with ⟨-, hc⟩ | ⟨hne, hr⟩
    · cases hc
    · have hlt := hI.pos_lt hr
      simp only [List.length_append, List.length_singleton] at hlt
      have : pos b ≠ pos a := fun heq => hne (hI.slot_inj hs hr heq.symm)
      omega
  onPath {i h'} hi := by
    have hlt : i < homes.length := (List.getElem?_eq_some_iff.1 hi).1
    obtain ⟨r, b, hr, hb, hpath⟩ := hI.onPath (by rw [List.getElem?_append_left hlt, hi])
    refine ⟨r, b, ?_, hb, hpath.set (by simp)⟩
    rw [List.getElem?_set_ne, hr]
    rintro rfl
    obtain rfl : a = b := by simpa using hs.symm.trans hr
    omega
  slot_inj {r r' b b'} hr hr' hpos := by
    rcases getElem?_set_full hr with ⟨-, hc⟩ | ⟨-, hr⟩
    · cases hc
    · rcases getElem?_set_full hr' with ⟨-, hc'⟩ | ⟨-, hr'⟩
      · cases hc'
      · exact hI.slot_inj hr hr' hpos
  count_full := by
    have hcount := hI.count_full
    have := countP_set_of_getElem? Cell.isFull hs .tomb
    simp [Cell.isFull] at this
    simp only [List.length_append, List.length_singleton] at hcount
    omega

/-- Retargeting the cell of entry `i`'s successor in the list: entry `i` is overwritten by the
last one, whose cell now names `i`. -/
theorem replace_last {h : ℕ} (hI : Index pos cells (homes ++ [h])) {s s' i : ℕ} {a a' b : α}
    (hs : cells[s]? = some (.full a)) (ha : pos a = i) (hi : i < homes.length)
    (hs' : cells[s']? = some (.full a')) (ha' : pos a' = homes.length) (hb : pos b = i) :
    Index pos ((cells.set s .tomb).set s' (.full b)) (homes.set i h) := by
  have hne : s ≠ s' := by
    rintro rfl
    obtain rfl : a = a' := by simpa using hs.symm.trans hs'
    omega
  have hcell : (cells.set s .tomb)[s']? = some (.full a') := by rw [List.getElem?_set_ne hne, hs']
  have hlast : ∀ {r c}, cells[r]? = some (.full c) → pos c = homes.length → r = s' :=
    fun hr hc => hI.slot_inj hr hs' (by omega)
  refine ⟨fun {r c} hr => ?_, fun {j h'} hj => ?_, fun {r r' c c'} hr hr' hpos => ?_, ?_⟩
  · rw [List.length_set]
    rcases getElem?_set_full hr with ⟨-, hc⟩ | ⟨hr1, hr⟩
    · obtain rfl : b = c := by simpa using hc
      omega
    · rcases getElem?_set_full hr with ⟨-, hc⟩ | ⟨-, hr⟩
      · cases hc
      · have hlt := hI.pos_lt hr
        simp only [List.length_append, List.length_singleton] at hlt
        have : pos c ≠ homes.length := fun heq => hr1 (hlast hr heq).symm
        omega
  · have hjlt : j < homes.length := by
      simpa using (List.getElem?_eq_some_iff.1 hj).1
    rcases eq_or_ne i j with rfl | hij
    · obtain rfl : h = h' := by simpa [hi] using hj
      obtain ⟨r, c, hr, hc, hpath⟩ := hI.onPath (i := homes.length) (h := h) (by simp)
      obtain rfl := hlast hr hc
      exact ⟨r, b, List.getElem?_set_self (by simpa using hpath.lt), hb,
        (hpath.set (by simp)).set (by simp)⟩
    · rw [List.getElem?_set_ne hij] at hj
      obtain ⟨r, c, hr, hc, hpath⟩ := hI.onPath (by rw [List.getElem?_append_left hjlt, hj])
      refine ⟨r, c, ?_, hc, (hpath.set (by simp)).set (by simp)⟩
      rw [List.getElem?_set_ne, List.getElem?_set_ne, hr]
      · rintro rfl
        obtain rfl : a = c := by simpa using hs.symm.trans hr
        omega
      · rintro rfl
        obtain rfl : a' = c := by simpa using hs'.symm.trans hr
        omega
  · rcases getElem?_set_full hr with ⟨rfl, hc⟩ | ⟨hr1, hr⟩ <;>
      rcases getElem?_set_full hr' with ⟨rfl, hc'⟩ | ⟨hr1', hr'⟩
    · rfl
    · rcases getElem?_set_full hr' with ⟨-, hc'⟩ | ⟨hr2', hr'⟩
      · cases hc'
      · obtain rfl : b = c := by simpa using hc
        exact absurd (hI.slot_inj hs hr' (by omega)) hr2'
    · rcases getElem?_set_full hr with ⟨-, hc⟩ | ⟨hr2, hr⟩
      · cases hc
      · obtain rfl : b = c' := by simpa using hc'
        exact absurd (hI.slot_inj hs hr (by omega)) hr2
    · rcases getElem?_set_full hr with ⟨-, hc⟩ | ⟨-, hr⟩
      · cases hc
      · rcases getElem?_set_full hr' with ⟨-, hc'⟩ | ⟨-, hr'⟩
        · cases hc'
        · exact hI.slot_inj hr hr' hpos
  · have hcount := hI.count_full
    have h₁ := countP_set_of_getElem? Cell.isFull hs .tomb
    have h₂ := countP_set_of_getElem? Cell.isFull hcell (.full b)
    simp [Cell.isFull] at h₁ h₂
    simp only [List.length_append, List.length_singleton] at hcount
    rw [List.length_set]
    omega

end Index

end Probing
