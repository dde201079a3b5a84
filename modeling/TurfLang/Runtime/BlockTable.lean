import TurfLang.Lib.Bisect
import TurfLang.Runtime.PendingIndex

/-!
# `turfrt_gc.c`: the block table

Every block `turf_rt_alloc` hands out is in `g_pending` until a collection merges it into
`g_blocks`, which is sorted by address. A block moved by `realloc` leaves `g_pending` at once,
and `g_blocks` as a dead entry. Addresses are naturals below `2 ^ 64`, and `-1` is `none`.
-/

namespace TurfLang.Gc

/-- `TurfTypeDesc`: one element's size, and one bit a word for the words that hold pointers.
Its `name` serves messages only. -/
structure TypeDesc where
  size : ℕ
  wordCount : ℕ
  pointerWords : List UInt64
  wordCount_eq : wordCount = (size + 7) / 8
  length_eq : pointerWords.length = max 1 ((wordCount + 63) / 64)

/-- `turf_rt_typedesc_is_pointer_word`, of a descriptor that is not null. -/
def TypeDesc.isPointerWord (desc : TypeDesc) (wordIndex : ℕ) : Bool :=
  if wordIndex ≥ desc.wordCount then false
  else
    let bitmapWord := desc.pointerWords.getD (wordIndex / 64) 0
    (bitmapWord.toNat >>> (wordIndex % 64)) &&& 1 = 1

/-- An allocation: where it starts, how many bytes it has and, unless it is opaque, what its
elements look like. -/
structure Block where
  start : ℕ
  size : ℕ
  desc : Option TypeDesc

/-- `addr` is the block's start or an interior byte. -/
def Block.Contains (b : Block) (addr : ℕ) : Prop := b.start ≤ addr ∧ addr < b.start + b.size

instance (b : Block) (addr : ℕ) : Decidable (b.Contains addr) := by
  unfold Block.Contains; infer_instance

/-- `GcBlock`. -/
structure GcBlock extends Block where
  marked : Bool
  dead : Bool

/-- `GcPin`. -/
structure GcPin where
  blockStart : ℕ
  count : ℕ

/-- `TURF_GC_INITIAL_THRESHOLD`. -/
def initialThreshold : ℕ := 2 ^ 20

/-- The collector's globals, and of the allocator's `g_stats` the counters it keeps itself. -/
structure State where
  blocks : List GcBlock := []
  pending : List GcBlock := []
  pidx : Pidx := Pidx.empty
  deadCount : ℕ := 0
  roots : List ℕ := []
  pins : List GcPin := []
  bytesSinceCollect : ℕ := 0
  gcThreshold : ℕ := initialThreshold
  collectCount : ℕ := 0
  freedCountTotal : ℕ := 0
  liveCount : ℕ := 0
  liveBytes : ℕ := 0
  allocCount : ℕ := 0
  reallocCount : ℕ := 0
  bytesRequested : ℕ := 0

/-! ### Looking up a start address -/

/-- How the start of entry `i` compares with `addr`. -/
def compareStart (blocks : List GcBlock) (addr i : ℕ) : Ordering :=
  match blocks[i]? with
  | some b => compare b.start addr
  | none => .gt

/-- `find_exact_in_blocks`. -/
def findExactInBlocks (blocks : List GcBlock) (addr : ℕ) : Option ℕ := do
  let mid ← Bisect.search (compareStart blocks addr) 0 blocks.length
  let b ← blocks[mid]?
  if b.dead then none else some mid

namespace State

/-- `find_pin`. -/
def findPin (s : State) (blockStart : ℕ) : Option ℕ :=
  s.pins.findIdx? fun p => p.blockStart = blockStart

/-- The starts of the pending blocks. -/
def pendingStarts (s : State) : List ℕ := s.pending.map fun b => b.start

/-- `find_exact_in_pending`; the outer `none` is a probe loop that does not end. -/
def findExactInPending (s : State) (addr : ℕ) : Option (Option ℕ) := s.pidx.find addr

/-! ### Changing the table -/

/-- `pending_remove`. -/
def pendingRemove (s : State) (idx : ℕ) : Option State := do
  let pidx ← s.pidx.remove s.pendingStarts idx
  let last := s.pending.length - 1
  let moved ← s.pending[last]?
  return { s with
    pidx := pidx
    pending := if idx ≠ last then (s.pending.set idx moved).take last else s.pending.take last }

/-- `turf_gc_register_block`. -/
def registerBlock (s : State) (p size : ℕ) (desc : Option TypeDesc) : Option State :=
  if p = 0 then some s
  else do
    let pending := s.pending ++ [⟨⟨p, size, desc⟩, false, false⟩]
    let pidx ← s.pidx.insertLast (pending.map fun b => b.start)
    return { s with pending := pending, pidx := pidx }

/-- The part of `turf_gc_reregister_block` that takes the old block out. -/
def unregister (s : State) (oldAddr : ℕ) : Option State := do
  let found ← s.findExactInPending oldAddr
  match found with
  | some idx => s.pendingRemove idx
  | none =>
    match findExactInBlocks s.blocks oldAddr with
    | some idx =>
      return { s with
        blocks := s.blocks.modify idx fun b => { b with dead := true }
        deadCount := s.deadCount + 1 }
    | none => return s

/-- `turf_gc_reregister_block`. -/
def reregisterBlock (s : State) (oldAddr newP newSize : ℕ) (desc : Option TypeDesc) :
    Option State := do
  let pinIdx := if oldAddr ≠ 0 then s.findPin oldAddr else none
  let s ← (if oldAddr ≠ 0 then s.unregister oldAddr else some s)
  let s ← s.registerBlock newP newSize desc
  return match pinIdx with
    | some i => { s with pins := s.pins.modify i fun p => { p with blockStart := newP } }
    | none => s

/-- `gc_rebuild_index`. -/
def rebuildIndex (s : State) : State :=
  let s := if s.deadCount ≠ 0 then
    { s with blocks := s.blocks.filter (fun b => !b.dead), deadCount := 0 } else s
  if s.pending.length = 0 then s
  else { s with
    blocks := (s.blocks ++ s.pending).mergeSort fun a b => a.start ≤ b.start
    pending := []
    pidx := s.pidx.clear }

/-! ### The invariant -/

/-- The blocks the table holds: the dead entries are none. -/
def live (s : State) : List Block :=
  (s.blocks.filter fun b => !b.dead).map GcBlock.toBlock ++ s.pending.map GcBlock.toBlock

/-- The invariant of the block table. A block never starts at the two keys that mark empty and
deleted cells of the index. -/
structure Inv (s : State) : Prop where
  valid_start : ∀ b ∈ s.live, 1 < b.start
  sorted : (s.blocks.map fun b => b.start).Pairwise (· < ·)
  pending_alive : ∀ b ∈ s.pending, b.dead = false
  live_nodup : (s.live.map Block.start).Nodup
  separated : ∀ b ∈ s.live, ∀ b' ∈ s.live, b.start < b'.start → b.start + max b.size 1 ≤ b'.start
  pidx : s.pidx.Inv s.pendingStarts
  dead_count : s.blocks.countP GcBlock.dead = s.deadCount

theorem init_inv : ({} : State).Inv where
  valid_start b hb := by cases hb
  sorted := List.Pairwise.nil
  pending_alive b hb := by cases hb
  live_nodup := List.nodup_nil
  separated b hb := by cases hb
  pidx := Pidx.replicate_inv fun h => absurd rfl h
  dead_count := rfl

/-- The invariant speaks of the table only. -/
theorem Inv.congr {s s' : State} (hI : s.Inv) (hblocks : s'.blocks = s.blocks)
    (hpending : s'.pending = s.pending) (hpidx : s'.pidx = s.pidx)
    (hdead : s'.deadCount = s.deadCount) : s'.Inv := by
  have hlive : s'.live = s.live := by rw [live, live, hblocks, hpending]
  refine ⟨hlive ▸ hI.valid_start, hblocks ▸ hI.sorted, hpending ▸ hI.pending_alive,
    hlive ▸ hI.live_nodup, hlive ▸ hI.separated, ?_, by rw [hblocks, hdead, hI.dead_count]⟩
  rw [hpidx, pendingStarts, hpending]
  exact hI.pidx

theorem mem_live {s : State} {b : Block} : b ∈ s.live ↔
    (∃ e ∈ s.blocks, e.dead = false ∧ e.toBlock = b) ∨ ∃ e ∈ s.pending, e.toBlock = b := by
  simp [live, and_assoc]

end State

end TurfLang.Gc
