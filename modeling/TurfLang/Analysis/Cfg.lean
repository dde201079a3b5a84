import TurfLang.Lib.Dataflow

/-!
# `CFG.h`: control flow graphs

A block is its position in the list of blocks. Edges are only added between blocks of the graph,
at both ends.
-/

namespace TurfLang

/-- `TurfBasicBlock`. -/
structure TurfBasicBlock (σ : Type) where
  statements : List σ
  predecessors : List ℕ
  successors : List ℕ

/-- `CFG`. -/
structure CFG (σ : Type) where
  blocks : List (TurfBasicBlock σ)
  entryBlock : Option ℕ
  entry_lt : ∀ e ∈ entryBlock, e < blocks.length
  successors_lt : ∀ b ∈ blocks, ∀ s ∈ b.successors, s < blocks.length
  predecessors_lt : ∀ b ∈ blocks, ∀ p ∈ b.predecessors, p < blocks.length
  mem_predecessors : ∀ p < blocks.length, ∀ b < blocks.length,
    (p ∈ (blocks[b]?.map (·.predecessors)).getD [] ↔ b ∈ (blocks[p]?.map (·.successors)).getD [])

namespace CFG

variable {σ : Type} (cfg : CFG σ)

/-- The number of blocks. -/
def size : ℕ := cfg.blocks.length

/-- `getStatements` of a block. -/
def statements (b : ℕ) : List σ := (cfg.blocks[b]?.map (·.statements)).getD []

/-- `getPredecessors` of a block. -/
def predecessors (b : ℕ) : List ℕ := (cfg.blocks[b]?.map (·.predecessors)).getD []

/-- `getSuccessors` of a block. -/
def successors (b : ℕ) : List ℕ := (cfg.blocks[b]?.map (·.successors)).getD []

/-- The position of the entry block, 0 when there is none. -/
def entryIdx : ℕ := cfg.entryBlock.getD 0

/-- A path from the entry: the blocks passed, one after the other, and the block it is at. -/
abbrev Path (bs : List ℕ) (b : ℕ) : Prop := Dataflow.Walk cfg.successors cfg.entryIdx bs b

variable {cfg}

theorem lt_of_mem_successors {p b : ℕ} (h : b ∈ cfg.successors p) : p < cfg.size ∧ b < cfg.size := by
  rw [successors] at h
  cases hb : cfg.blocks[p]? with
  | none => simp [hb] at h
  | some blk =>
    obtain ⟨hlt, hget⟩ := List.getElem?_eq_some_iff.mp hb
    rw [hb] at h
    exact ⟨hlt, cfg.successors_lt blk (hget ▸ List.getElem_mem hlt) b h⟩

theorem lt_of_mem_predecessors {p b : ℕ} (h : p ∈ cfg.predecessors b) :
    p < cfg.size ∧ b < cfg.size := by
  rw [predecessors] at h
  cases hb : cfg.blocks[b]? with
  | none => simp [hb] at h
  | some blk =>
    obtain ⟨hlt, hget⟩ := List.getElem?_eq_some_iff.mp hb
    rw [hb] at h
    exact ⟨cfg.predecessors_lt blk (hget ▸ List.getElem_mem hlt) p h, hlt⟩

/-- A block is a predecessor of its successors. -/
theorem mem_predecessors_iff {p b : ℕ} : p ∈ cfg.predecessors b ↔ b ∈ cfg.successors p := by
  constructor
  · intro h
    obtain ⟨hp, hb⟩ := lt_of_mem_predecessors h
    exact (cfg.mem_predecessors p hp b hb).mp h
  · intro h
    obtain ⟨hp, hb⟩ := lt_of_mem_successors h
    exact (cfg.mem_predecessors p hp b hb).mpr h

theorem entryIdx_lt (h : cfg.size ≠ 0) : cfg.entryIdx < cfg.size := by
  rw [entryIdx]
  cases he : cfg.entryBlock with
  | none => exact Nat.pos_of_ne_zero h
  | some e => exact cfg.entry_lt e he

theorem Path.lt {bs : List ℕ} {b : ℕ} (h : cfg.Path bs b) (hn : cfg.size ≠ 0) : b < cfg.size := by
  cases h with
  | entry => exact entryIdx_lt hn
  | step _ hc => exact (lt_of_mem_successors hc).2

end CFG

end TurfLang
