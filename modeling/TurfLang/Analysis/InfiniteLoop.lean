import TurfLang.Analysis.Cfg
import TurfLang.Lib.Tarjan
import TurfLang.Lib.Worklist

/-!
# `CFG.cpp`: reachable blocks, and loops that cannot end

`computeReachability` marks the blocks the entry leads to. `hasUnbreakableLoop` looks for a
strongly connected component of marked blocks that contains a cycle and that no edge leaves, with
Tarjan's algorithm; it stops at the first one. A set of blocks that are marked stands for their
`IsReachable` bits. A result of `none` would be a search that does not end.
-/

namespace TurfLang.CFG

variable {σ : Type} (cfg : CFG σ)

/-- `computeReachability`: breadth first from the entry block. -/
def computeReachability : Option (Finset ℕ) :=
  Worklist.loopWith Worklist.considerLast cfg.successors cfg.size
    (cfg.entryBlock.toList.foldl Worklist.considerLast ⟨∅, []⟩)

/-- The successors the search follows, and the blocks it starts from: those that are
reachable. -/
def reachableSuccessors (reachable : Finset ℕ) (b : ℕ) : List ℕ :=
  (cfg.successors b).filter (· ∈ reachable)

/-- What is asked of a component: it is not a single block without an edge to itself, and no edge
leaves it for a reachable block. -/
def closedCycle (reachable scc : Finset ℕ) : Bool :=
  decide (¬(scc.card = 1 ∧ ∀ b ∈ scc, b ∉ cfg.successors b)) &&
    decide (∀ b ∈ scc, ∀ s ∈ cfg.successors b, s ∈ reachable → s ∈ scc)

/-- `hasUnbreakableLoop`. -/
def hasUnbreakableLoop (reachable : Finset ℕ) : Option Bool :=
  if cfg.entryBlock = none then some false
  else
    Tarjan.search (cfg.reachableSuccessors reachable) (cfg.closedCycle reachable) cfg.size
      ((List.range cfg.size).filter (· ∈ reachable)) .init

/-! ### What a loop that cannot end is -/

/-- Some path leads from one block to another. -/
abbrev Leads : ℕ → ℕ → Prop := Relation.ReflTransGen fun b s => s ∈ cfg.successors b

/-- Some path leads from the entry to a block. -/
def Reachable (b : ℕ) : Prop := ∃ e ∈ cfg.entryBlock, cfg.Leads e b

/-- A largest set of blocks each of which leads to every other. -/
def IsStronglyConnectedComponent (c : Set ℕ) : Prop :=
  ∃ b, c = {s | cfg.Leads b s ∧ cfg.Leads s b}

/-- Two blocks or more, or one with an edge to itself. -/
def HasCycle (c : Set ℕ) : Prop :=
  (∃ b ∈ c, ∃ s ∈ c, b ≠ s) ∨ ∃ b, c = {b} ∧ b ∈ cfg.successors b

variable {cfg}

/-! ### Reachability -/

variable (cfg) in
theorem exists_computeReachability :
    ∃ reachable, cfg.computeReachability = some reachable ∧
      ∀ b, b ∈ reachable ↔ cfg.Reachable b := by
  have hentry : ∀ e ∈ cfg.entryBlock.toList, e ∈ Finset.range cfg.size := by
    intro e he
    exact Finset.mem_range.2 (cfg.entry_lt e (Option.mem_toList.1 he))
  have hedges : ∀ b ∈ Finset.range cfg.size, ∀ s ∈ cfg.successors b,
      s ∈ Finset.range cfg.size := by
    intro b _ s hs
    exact Finset.mem_range.2 (lt_of_mem_successors hs).2
  obtain ⟨marked, hrun, hmarked⟩ :=
    Worklist.exists_loopWith .considerLast hentry hedges (Finset.card_range _).le
  refine ⟨marked, hrun, fun b => (hmarked b).trans ?_⟩
  constructor
  · intro h
    induction h with
    | root h => exact ⟨_, Option.mem_toList.1 h, .refl⟩
    | edge _ h ih =>
      obtain ⟨e, he, hle⟩ := ih
      exact ⟨e, he, hle.tail h⟩
  · rintro ⟨e, he, hle⟩
    induction hle with
    | refl => exact .root (Option.mem_toList.2 he)
    | tail _ h ih => exact .edge ih h

theorem Reachable.tail {b s : ℕ} (hb : cfg.Reachable b) (hs : s ∈ cfg.successors b) :
    cfg.Reachable s := by
  obtain ⟨e, he, hle⟩ := hb
  exact ⟨e, he, hle.tail hs⟩

theorem Reachable.lt {b : ℕ} (hb : cfg.Reachable b) : b < cfg.size := by
  obtain ⟨e, he, hle⟩ := hb
  cases hle with
  | refl => exact cfg.entry_lt _ he
  | tail _ h => exact (lt_of_mem_successors h).2

section

variable {reachable : Finset ℕ} (hreachable : ∀ b, b ∈ reachable ↔ cfg.Reachable b)
include hreachable

/-- From a reachable block no path leaves the reachable ones. -/
theorem reaches_iff_leads {b s : ℕ} (hb : cfg.Reachable b) :
    Tarjan.Reaches (cfg.reachableSuccessors reachable) b s ↔ cfg.Leads b s := by
  constructor
  · intro h
    induction h with
    | refl => exact .refl
    | tail _ hedge ih => exact ih.tail (List.mem_filter.1 hedge).1
  · intro h
    suffices Tarjan.Reaches (cfg.reachableSuccessors reachable) b s ∧ cfg.Reachable s from this.1
    induction h with
    | refl => exact ⟨.refl, hb⟩
    | tail _ hedge ih =>
      have hnext := ih.2.tail hedge
      refine ⟨ih.1.tail (List.mem_filter.2 ⟨hedge, ?_⟩), hnext⟩
      exact decide_eq_true ((hreachable _).2 hnext)

/-- The component the search asks about, as a set of blocks. -/
theorem isComponent_iff {b : ℕ} (hb : cfg.Reachable b) {c : Finset ℕ} :
    Tarjan.IsComponent (cfg.reachableSuccessors reachable) b c ↔
      (c : Set ℕ) = {s | cfg.Leads b s ∧ cfg.Leads s b} := by
  have hpair : ∀ s, (Tarjan.Reaches (cfg.reachableSuccessors reachable) b s ∧
      Tarjan.Reaches (cfg.reachableSuccessors reachable) s b) ↔
        cfg.Leads b s ∧ cfg.Leads s b := by
    intro s
    rw [reaches_iff_leads hreachable hb]
    refine and_congr_right fun hbs => ?_
    obtain ⟨e, he, hle⟩ := hb
    exact reaches_iff_leads hreachable ⟨e, he, hle.trans hbs⟩
  rw [Set.ext_iff]
  refine forall_congr' fun s => ?_
  rw [hpair, Finset.mem_coe]
  rfl

/-- What is asked of a component, as the claim about its blocks and edges. -/
theorem closedCycle_iff {c : Finset ℕ} (hne : c.Nonempty) :
    cfg.closedCycle reachable c = true ↔
      cfg.HasCycle c ∧ ∀ b ∈ c, ∀ s ∈ cfg.successors b, cfg.Reachable s → s ∈ c := by
  rw [closedCycle, Bool.and_eq_true, decide_eq_true_iff, decide_eq_true_iff]
  refine and_congr ?_ ?_
  · constructor
    · intro h
      by_cases hcard : c.card = 1
      · obtain ⟨b, rfl⟩ := Finset.card_eq_one.1 hcard
        refine .inr ⟨b, Finset.coe_singleton b, ?_⟩
        by_contra hself
        exact h ⟨hcard, by simpa using hself⟩
      · have htwo : 1 < c.card := lt_of_le_of_ne hne.card_pos (Ne.symm hcard)
        obtain ⟨b, hb, s, hs, hbs⟩ := Finset.one_lt_card.1 htwo
        exact .inl ⟨b, hb, s, hs, hbs⟩
    · rintro (⟨b, hb, s, hs, hbs⟩ | ⟨b, hc, hself⟩) ⟨hcard, hno⟩
      · have htwo := Finset.one_lt_card.2 ⟨b, hb, s, hs, hbs⟩
        omega
      · refine hno b ?_ hself
        rw [← Finset.mem_coe, hc]
        rfl
  · simp only [hreachable]

end

/-- `hasUnbreakableLoop`, on the bits `computeReachability` sets, ends, and finds a loop exactly
when some reachable strongly connected component contains a cycle and no edge leaves it for a
reachable block. -/
theorem hasUnbreakableLoop_iff (cfg : CFG σ) :
    ∃ reachable b, cfg.computeReachability = some reachable ∧
      cfg.hasUnbreakableLoop reachable = some b ∧
      (b = true ↔ ∃ c : Set ℕ, cfg.IsStronglyConnectedComponent c ∧ (∀ x ∈ c, cfg.Reachable x) ∧
        cfg.HasCycle c ∧ ∀ x ∈ c, ∀ s ∈ cfg.successors x, cfg.Reachable s → s ∈ c) := by
  obtain ⟨reachable, hrun, hreachable⟩ := exists_computeReachability cfg
  refine ⟨reachable, ?_⟩
  rw [hasUnbreakableLoop]
  cases he : cfg.entryBlock with
  | none =>
    refine ⟨false, hrun, rfl, iff_of_false (by simp) ?_⟩
    rintro ⟨c, ⟨b, rfl⟩, hc, -⟩
    obtain ⟨e, he', -⟩ := hc b ⟨.refl, .refl⟩
    rw [he] at he'
    cases he'
  | some e =>
    have hroots : ∀ {b}, b ∈ (List.range cfg.size).filter (· ∈ reachable) ↔ cfg.Reachable b := by
      intro b
      rw [List.mem_filter, List.mem_range, decide_eq_true_iff, hreachable]
      exact and_iff_right_of_imp Reachable.lt
    have hclosed : ∀ b ∈ (List.range cfg.size).filter (· ∈ reachable),
        ∀ s ∈ cfg.reachableSuccessors reachable b,
          s ∈ (List.range cfg.size).filter (· ∈ reachable) := by
      intro b hb s hs
      exact hroots.2 ((hroots.1 hb).tail (List.mem_filter.1 hs).1)
    have hfuel : ((List.range cfg.size).filter (· ∈ reachable)).toFinset.card ≤ cfg.size := by
      refine (List.toFinset_card_le _).trans ((List.length_filter_le _ _).trans ?_)
      rw [List.length_range]
    obtain ⟨b, hb, hiff⟩ :=
      Tarjan.search_iff (cfg.closedCycle reachable) hclosed hfuel
    refine ⟨b, hrun, by rw [if_neg (by simp), hb], hiff.trans ?_⟩
    constructor
    · rintro ⟨x, hx, c, hcomp, hclosed⟩
      have hreach := hroots.1 hx
      have hself : x ∈ c := (hcomp x).2 ⟨.refl, .refl⟩
      have hset := (isComponent_iff hreachable hreach).1 hcomp
      obtain ⟨hcycle, hleave⟩ := (closedCycle_iff hreachable ⟨x, hself⟩).1 hclosed
      refine ⟨c, ⟨x, hset⟩, fun y hy => ?_, hcycle, hleave⟩
      rw [hset] at hy
      obtain ⟨e, he, hle⟩ := hreach
      exact ⟨e, he, hle.trans hy.1⟩
    · rintro ⟨c, ⟨x, hc⟩, hreach, hcycle, hleave⟩
      have hself : x ∈ c := by
        rw [hc]
        exact ⟨.refl, .refl⟩
      -- the component as a finite set
      obtain ⟨c', rfl⟩ : ∃ c' : Finset ℕ, (c' : Set ℕ) = c := by
        classical
        refine ⟨(Finset.range cfg.size).filter (· ∈ c), ?_⟩
        ext y
        rw [Finset.mem_coe, Finset.mem_filter, Finset.mem_range]
        exact and_iff_right_of_imp fun hy => (hreach y hy).lt
      refine ⟨x, hroots.2 (hreach x hself), c', ?_, ?_⟩
      · exact (isComponent_iff hreachable (hreach x hself)).2 hc
      · exact (closedCycle_iff hreachable ⟨x, hself⟩).2 ⟨hcycle, hleave⟩

end TurfLang.CFG
