import TurfLang.Runtime.BlockTable

/-!
# `turfrt_gc.c`: a collection

`turf_rt_collect` rebuilds the sorted part of the table, marks from the roots with a worklist
and sweeps. What it reads apart from the table is an `Env`. The checks of `TURF_GC_VALIDATE`,
which change nothing a collection does, are left out.
-/

namespace TurfLang.Gc

/-- The bytes of the address space. -/
abbrev Memory := ℕ → UInt8

/-- `*(uintptr_t *)addr`, on the little-endian targets of the collector. -/
def wordAt (mem : Memory) (addr : ℕ) : ℕ :=
  (List.range 8).foldr (fun i w => (mem (addr + i)).toNat + 256 * w) 0

/-- What a collection finds: the callee-saved registers, the bounds of the stack and the
memory. -/
structure Env where
  regs : List ℕ
  sp : ℕ
  stackBase : ℕ
  mem : Memory

/-- The turns of `for (a = lo; a + step <= hi; a += step)`. -/
def strides (step lo hi : ℕ) : List ℕ :=
  if 0 < step ∧ lo + step ≤ hi then lo :: strides step (lo + step) hi else []
termination_by hi - lo

/-- `gc_find_containing`, as an index. -/
def findContaining (blocks : List GcBlock) (addr : ℕ) : Option ℕ :=
  let lo := Bisect.partitionPoint
    (fun mid => blocks[mid]?.any fun b => decide (b.start ≤ addr)) 0 blocks.length
  if lo = 0 then none
  else do
    let cand ← blocks[lo - 1]?
    if !cand.dead ∧ addr ≥ cand.start ∧ addr < cand.start + cand.size then some (lo - 1) else none

/-! ### Marking -/

/-- The block table and the `Worklist` of a mark phase, the next item first. -/
structure Marking where
  blocks : List GcBlock
  work : List ℕ

/-- `gc_consider_root`. -/
def considerRoot (m : Marking) (candidate : ℕ) : Marking :=
  match findContaining m.blocks candidate with
  | none => m
  | some i =>
    if m.blocks[i]?.any GcBlock.marked then m
    else ⟨m.blocks.modify i fun b => { b with marked := true }, i :: m.work⟩

/-- `gc_scan_range_conservative`. -/
def scanRangeConservative (mem : Memory) (lo hi : ℕ) (m : Marking) : Marking :=
  (strides 8 (lo / 8 * 8) hi).foldl (fun m a => considerRoot m (wordAt mem a)) m

/-- `gc_scan_block_precise`. -/
def scanBlockPrecise (mem : Memory) (b : Block) (m : Marking) : Marking :=
  match b.desc with
  | none => m
  | some desc =>
    if desc.size = 0 then m
    else
      (strides desc.size 0 b.size).foldl (fun m off =>
        (List.range desc.wordCount).foldl (fun m w =>
          if !desc.isPointerWord w then m
          else
            let addr := b.start + off + w * 8
            if addr + 8 > b.start + b.size then m else considerRoot m (wordAt mem addr)) m) m

/-- The loop of `gc_mark` that empties the worklist. -/
def markLoop (mem : Memory) : ℕ → Marking → Option (List GcBlock)
  | _, ⟨blocks, []⟩ => some blocks
  | 0, ⟨_, _ :: _⟩ => none
  | fuel + 1, ⟨blocks, i :: work⟩ => do
    let b ← blocks[i]?
    markLoop mem fuel (scanBlockPrecise mem b.toBlock ⟨blocks, work⟩)

namespace State

/-- The part of `gc_mark` before the worklist is emptied. -/
def markRoots (env : Env) (s : State) : Marking :=
  let m : Marking := ⟨s.blocks.map fun b => { b with marked := false }, []⟩
  let m := env.regs.foldl considerRoot m
  let m := if env.stackBase > env.sp then scanRangeConservative env.mem env.sp env.stackBase m else m
  let m := s.roots.foldl (fun m slot => considerRoot m (wordAt env.mem slot)) m
  s.pins.foldl (fun m pin => considerRoot m pin.blockStart) m

/-- `gc_mark`. Each block is taken off the worklist at most once, so there are as many turns as
there are blocks. -/
def mark (env : Env) (s : State) : Option State := do
  let s := s.rebuildIndex
  let blocks ← markLoop env.mem s.blocks.length (s.markRoots env)
  return { s with blocks := blocks }

/-! ### Sweeping -/

/-- The variables of the loop of `gc_sweep`, and the starts of the blocks it has freed. -/
structure Sweep where
  kept : List GcBlock := []
  liveBytes : ℕ := 0
  freed : List ℕ := []

/-- One turn of the loop of `gc_sweep`. -/
def Sweep.entry (w : Sweep) (b : GcBlock) : Sweep :=
  if b.marked then { w with kept := w.kept ++ [b], liveBytes := w.liveBytes + b.size }
  else { w with freed := w.freed ++ [b.start] }

/-- `gc_sweep`, with the starts of the freed blocks. -/
def sweep (s : State) : State × List ℕ :=
  let w := s.blocks.foldl Sweep.entry {}
  ({ s with
      blocks := w.kept
      liveCount := w.kept.length
      liveBytes := w.liveBytes
      freedCountTotal := s.freedCountTotal + w.freed.length
      gcThreshold := max (w.liveBytes * 2) initialThreshold }, w.freed)

/-- `turf_rt_collect`, with the starts of the freed blocks. -/
def collect (env : Env) (s : State) : Option (State × List ℕ) := do
  let s ← s.mark env
  let (s, freed) := s.sweep
  return ({ s with bytesSinceCollect := 0, collectCount := s.collectCount + 1 }, freed)

end State

end TurfLang.Gc
