import Mathlib.Tactic

/-!
# Loops

The scanning loop `while pos < n && p(pos) { pos++ }`, over any predicate on positions, and
what a scanner built on it does to a list: `scan p n pos` is the first position from `pos` on
that `p` refuses, or `n`. And the counting loop over a state whose body may fail: the invariant
rule for `for i in 0..n`, and what the loop that reads a list by position goes over. Then the
loop that repeats a pass until it changes nothing, and loops over steps that may fail.
-/

namespace Loop

/-- `while pos < n && p(pos) { pos++ }`, returning the final `pos`. -/
def scan (p : ℕ → Bool) (n pos : ℕ) : ℕ :=
  if pos < n ∧ p pos then scan p n (pos + 1) else pos
termination_by n - pos

theorem scan_stop {p : ℕ → Bool} {n pos : ℕ} (h : pos < n → p pos = false) :
    scan p n pos = pos := by
  rw [scan, if_neg]
  rintro ⟨hlt, hp⟩
  simp [h hlt] at hp

theorem scan_step {p : ℕ → Bool} {n pos : ℕ} (hlt : pos < n) (hp : p pos = true) :
    scan p n pos = scan p n (pos + 1) := by
  rw [scan, if_pos ⟨hlt, hp⟩]

theorem le_scan (p : ℕ → Bool) (n pos : ℕ) : pos ≤ scan p n pos := by
  fun_induction scan p n pos with
  | case1 pos _ ih => omega
  | case2 pos _ => exact le_rfl

theorem scan_le {p : ℕ → Bool} {n pos : ℕ} (h : pos ≤ n) : scan p n pos ≤ n := by
  fun_induction scan p n pos with
  | case1 pos hp ih => exact ih hp.1
  | case2 pos _ => exact h

/-- The scan stops at `q` when everything before `q` passes and `q` itself does not. -/
theorem scan_eq {p : ℕ → Bool} {n pos q : ℕ} (hle : pos ≤ q) (hq : q ≤ n)
    (hrun : ∀ i, pos ≤ i → i < q → p i = true) (hstop : q < n → p q = false) :
    scan p n pos = q := by
  induction hd : q - pos generalizing pos with
  | zero =>
    obtain rfl : pos = q := by omega
    exact scan_stop hstop
  | succ d ih =>
    rw [scan_step (by omega) (hrun pos le_rfl (by omega))]
    exact ih (by omega) (fun i hi hiq => hrun i (by omega) hiq) (by omega)

/-- Reading the list `s` from `pos` on, a scan for `P` passes over `run` when `run` is what
comes next, every element of it satisfies `P` and the element after it does not. -/
theorem scan_drop {α : Type*} {P : α → Bool} {s run rest : List α} {d : α} {pos : ℕ}
    (hs : s.drop pos = run ++ rest) (hrun : ∀ a ∈ run, P a = true)
    (hrest : ∀ a ∈ rest.head?, P a = false) :
    scan (fun i => P (s.getD i d)) s.length pos = pos + run.length := by
  have hget : ∀ i, s.getD (pos + i) d = (run ++ rest).getD i d := by
    intro i
    rw [← hs, List.getD_eq_getElem?_getD, List.getD_eq_getElem?_getD, List.getElem?_drop]
  by_cases hpos : pos ≤ s.length
  · have hlen : s.length - pos = run.length + rest.length := by
      simpa using congrArg List.length hs
    refine scan_eq (by omega) (by omega) ?_ ?_
    · intro i hi hlt
      obtain ⟨j, rfl⟩ := Nat.exists_eq_add_of_le hi
      have hj : j < run.length := by omega
      simp only [hget, List.getD_eq_getElem?_getD, List.getElem?_append_left hj,
        List.getElem?_eq_getElem hj, Option.getD_some]
      exact hrun _ (List.getElem_mem hj)
    · intro hlt
      cases rest with
      | nil => simp at hlen; omega
      | cons a rest =>
        simp only [hget, List.getD_eq_getElem?_getD]
        simpa using hrest a (by simp)
  · have hnil : run ++ rest = [] := by rw [← hs]; exact List.drop_eq_nil_of_le (by omega)
    obtain ⟨rfl, rfl⟩ := List.append_eq_nil_iff.1 hnil
    exact scan_stop (fun h => by omega)

/-- A scan looks at the positions before its end only. -/
theorem scan_congr {p q : ℕ → Bool} {n : ℕ} (h : ∀ i < n, p i = q i) (pos : ℕ) :
    scan p n pos = scan q n pos := by
  fun_induction scan p n pos with
  | case1 pos hp ih =>
    rw [ih, ← scan_step hp.1 (h pos hp.1 ▸ hp.2)]
  | case2 pos hp =>
    refine (scan_stop fun hlt => ?_).symm
    rw [← h pos hlt]
    exact Bool.eq_false_iff.mpr fun hpos => hp ⟨hlt, hpos⟩

/-! ### Counting loops -/

/-- A loop `for i in 0..n` keeps an invariant, and does not fail, when its body does so. -/
theorem exists_foldlM_range {σ : Type*} {f : σ → ℕ → Option σ} {P : ℕ → σ → Prop} {n : ℕ} {s : σ}
    (h₀ : P 0 s) (hstep : ∀ i < n, ∀ s, P i s → ∃ s', f s i = some s' ∧ P (i + 1) s') :
    ∃ s', (List.range n).foldlM f s = some s' ∧ P n s' := by
  induction n with
  | zero => exact ⟨s, rfl, h₀⟩
  | succ n ih =>
    obtain ⟨s₁, hrun, hP⟩ := ih fun i hi => hstep i (by omega)
    obtain ⟨s₂, hf, hP'⟩ := hstep n (by omega) s₁ hP
    exact ⟨s₂, by simp [List.range_succ, List.foldlM_append, hrun, hf], hP'⟩

/-- A loop `while i < n { r = f(r, s[i]); i++ }` up to the length of `s` goes over what is left
of `s`. -/
theorem foldlM_positions {ε α σ : Type*} (f : σ → α → Except ε σ) (s : List α) (d : α) (i : ℕ)
    (r : σ) :
    (List.range' i (s.length - i)).foldlM (fun r i => f r (s.getD i d)) r =
      (s.drop i).foldlM f r := by
  induction hk : s.length - i generalizing i r with
  | zero =>
    rw [List.drop_eq_nil_of_le (by omega)]
    rfl
  | succ k ih =>
    have hi : i < s.length := by omega
    have hget : s.getD i d = s[i] := by simp [List.getD_eq_getElem?_getD, hi]
    rw [List.range'_succ, List.foldlM_cons, List.drop_eq_getElem_cons hi, List.foldlM_cons, hget]
    exact bind_congr fun r => ih (i + 1) r (by omega)

/-! ### Passes repeated until nothing changes -/

/-- `do { s' = f(s); } while (s' != s)`, for at most `fuel` passes. -/
def untilStable {α : Type*} [DecidableEq α] (f : α → α) : ℕ → α → α
  | 0, s => s
  | fuel + 1, s => if f s = s then s else untilStable f fuel (f s)

/-- What a pass keeps, the loop keeps. -/
theorem untilStable_induct {α : Type*} [DecidableEq α] {f : α → α} {P : α → Prop} {s : α}
    (h₀ : P s) (hstep : ∀ s, P s → P (f s)) (fuel : ℕ) : P (untilStable f fuel s) := by
  induction fuel generalizing s with
  | zero => exact h₀
  | succ n ih =>
    unfold untilStable
    split
    · exact h₀
    · exact ih (hstep s h₀)

/-- A pass that only adds, and only members of `U`, has nothing left to add after one pass for
each member of `U`. -/
theorem untilStable_stable {α : Type*} [DecidableEq α] {f : Finset α → Finset α} {U s : Finset α}
    (hadd : ∀ s, s ⊆ f s) (hU : ∀ s, s ⊆ U → f s ⊆ U) (hs : s ⊆ U) {fuel : ℕ}
    (hfuel : U.card ≤ s.card + fuel) : f (untilStable f fuel s) = untilStable f fuel s := by
  induction fuel generalizing s with
  | zero =>
    obtain rfl : s = U := Finset.eq_of_subset_of_card_le hs (by omega)
    exact (hU s hs).antisymm (hadd s)
  | succ n ih =>
    unfold untilStable
    split
    case isTrue heq => exact heq
    case isFalse hne =>
      have hlt : s.card < (f s).card :=
        Finset.card_lt_card ((hadd s).ssubset_of_ne (Ne.symm hne))
      exact ih (hU s hs) (by omega)

/-! ### Loops with a condition -/

/-- `while (p(s)) s = body(s);`, for at most `fuel` rounds. -/
def whileFuel {σ : Type*} (p : σ → Bool) (body : σ → σ) : ℕ → σ → σ
  | 0, s => s
  | fuel + 1, s => if p s then whileFuel p body fuel (body s) else s

/-- What a round keeps, the loop keeps. -/
theorem whileFuel_induct {σ : Type*} {p : σ → Bool} {body : σ → σ} {P : σ → Prop}
    (hstep : ∀ s, p s = true → P s → P (body s)) (fuel : ℕ) {s : σ} (h : P s) :
    P (whileFuel p body fuel s) := by
  induction fuel generalizing s with
  | zero => exact h
  | succ n ih =>
    unfold whileFuel
    split
    case isTrue hp => exact ih (hstep s hp h)
    case isFalse => exact h

/-- The condition does not hold any more after the loop, when each round makes a measure smaller
that starts within the fuel. -/
theorem whileFuel_stop {σ : Type*} {p : σ → Bool} {body : σ → σ} (m : σ → ℕ)
    (hstep : ∀ s, p s = true → m (body s) < m s) {fuel : ℕ} {s : σ} (hfuel : m s ≤ fuel)
    (hzero : ∀ s, m s = 0 → p s = false) : p (whileFuel p body fuel s) = false := by
  induction fuel generalizing s with
  | zero => exact hzero s (by omega)
  | succ n ih =>
    unfold whileFuel
    split
    case isTrue hp => exact ih (by have := hstep s hp; omega)
    case isFalse hp => simpa using hp

/-! ### Steps that may fail -/

theorem bind_eq_ok {ε α β : Type} {x : Except ε α} {f : α → Except ε β} {b : β} :
    (x >>= f) = .ok b ↔ ∃ a, x = .ok a ∧ f a = .ok b := by
  cases x with
  | error e => simp [bind, Except.bind]
  | ok a => simp [bind, Except.bind]

theorem forM_eq_ok {α ε : Type} {f : α → Except ε Unit} {l : List α} :
    l.forM f = .ok () ↔ ∀ a ∈ l, f a = .ok () := by
  induction l with
  | nil => simp [List.forM, pure, Except.pure]
  | cons a l ih =>
    rw [List.forall_mem_cons, ← ih, List.forM, bind_eq_ok]
    constructor
    · rintro ⟨u, ha, hl⟩
      exact ⟨ha, hl⟩
    · rintro ⟨ha, hl⟩
      exact ⟨(), ha, hl⟩

/-- A loop over positions ends at the first one that fails. -/
theorem forM_range {ε : Type} (f : ℕ → Except ε Unit) (n : ℕ) :
    (List.range n).forM f = .ok () ∧ (∀ b < n, f b = .ok ()) ∨
      ∃ b < n, ∃ e, f b = .error e ∧ (∀ c < b, f c = .ok ()) ∧ (List.range n).forM f = .error e := by
  induction n with
  | zero => exact .inl ⟨rfl, by simp⟩
  | succ n ih =>
    have happ : (List.range (n + 1)).forM f = ((List.range n).forM f >>= fun _ => f n) := by
      rw [List.range_succ]
      simp [List.forM_eq_forM]
    obtain ⟨hok, hall⟩ | ⟨b, hb, e, herr, hall, hrun⟩ := ih
    · rw [happ, hok]
      cases hn : f n with
      | ok u =>
        refine .inl ⟨rfl, fun b hb => ?_⟩
        rcases Nat.lt_succ_iff_lt_or_eq.mp hb with hb | rfl
        · exact hall b hb
        · exact hn
      | error e => exact .inr ⟨n, by omega, e, hn, hall, rfl⟩
    · rw [happ, hrun]
      exact .inr ⟨b, by omega, e, herr, hall, rfl⟩

end Loop
