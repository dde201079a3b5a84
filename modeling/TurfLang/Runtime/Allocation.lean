import TurfLang.Runtime.CollectCorrect

/-!
# `turfrt_alloc.c`: the block table refines a finite map

A run is any sequence of calls of `turf_rt_alloc`, `turf_rt_realloc` and `turf_rt_collect`, with
any results of `malloc` and `realloc` that lie apart from every block still allocated. The map
of the allocated blocks follows the calls and the addresses the sweeps free.
-/

namespace TurfLang.Gc

namespace State

/-- `turf_gc_note_alloc`; `stress` is `gc_stress_enabled()`. -/
def noteAlloc (stress : Bool) (env : Env) (s : State) (bytes : ℕ) : Option (State × List ℕ) :=
  let s := { s with bytesSinceCollect := (s.bytesSinceCollect + bytes) % 2 ^ 64 }
  if stress ∨ s.bytesSinceCollect ≥ s.gcThreshold then s.collect env else some (s, [])

/-- `turf_rt_alloc`, and `turf_rt_alloc_zeroed`, where `malloc` or `calloc` returned `p`. -/
def alloc (stress : Bool) (env : Env) (s : State) (p bytes : ℕ) (desc : Option TypeDesc) :
    Option (State × List ℕ) := do
  let s ← s.registerBlock p bytes desc
  let s := { s with
    allocCount := s.allocCount + 1, bytesRequested := (s.bytesRequested + bytes) % 2 ^ 64 }
  s.noteAlloc stress env bytes

/-- `turf_rt_realloc` of the block at `old`, where `realloc` returned `result`. -/
def realloc (stress : Bool) (env : Env) (s : State) (old result newSize : ℕ)
    (desc : Option TypeDesc) : Option (State × List ℕ) := do
  let s ← s.reregisterBlock old result newSize desc
  let s := { s with
    reallocCount := s.reallocCount + 1
    bytesRequested := (s.bytesRequested + newSize) % 2 ^ 64 }
  s.noteAlloc stress env newSize

end State

/-! ### The abstract table -/

/-- The blocks still allocated, by start. -/
abbrev Table := ℕ → Option (ℕ × Option TypeDesc)

/-- The calls of the runtime, with the addresses `malloc`, `calloc` and `realloc` returned. -/
inductive Call
  | alloc (p bytes : ℕ) (desc : Option TypeDesc)
  | realloc (old result newSize : ℕ) (desc : Option TypeDesc)
  | collect

/-- A non-null region of the C heap, apart from the blocks of the table. Also an empty region is
apart from every other. -/
def Table.Free (m : Table) (p size : ℕ) : Prop :=
  1 < p ∧ ∀ a n desc, m a = some (n, desc) → p + max size 1 ≤ a ∨ a + max n 1 ≤ p

/-- Forget the blocks at some addresses. -/
def Table.erase (m : Table) (freed : List ℕ) : Table := fun a => if a ∈ freed then none else m a

theorem Table.erase_nil (m : Table) : m.erase [] = m := by
  funext a
  simp [erase]

theorem Table.erase_singleton_eq_some {m : Table} {old a : ℕ} {e : ℕ × Option TypeDesc} :
    m.erase [old] a = some e ↔ m a = some e ∧ a ≠ old := by
  rw [erase]
  split_ifs with h <;> simp_all

/-- No block starts where a free region does. -/
theorem Table.Free.absent {m : Table} {p size : ℕ} (h : m.Free p size) : m p = none := by
  rcases hm : m p with _ | ⟨n, desc⟩
  · rfl
  · have := h.2 p n desc hm
    omega

namespace Call

/-- What the C library promises of its result: `realloc` may give a region that overlaps the block
it moves. It is asked to move what it handed out before, so nothing at the address that marks the
deleted slots of the index. -/
def Admissible (m : Table) : Call → Prop
  | alloc p bytes _ => m.Free p bytes
  | realloc old result newSize _ =>
    old ≠ Pidx.deletedKey ∧ (m.erase [old]).Free result newSize
  | collect => True

/-- What a call does to the state, with the starts of the blocks it frees. -/
def step (stress : Bool) (env : Env) (s : State) : Call → Option (State × List ℕ)
  | alloc p bytes desc => s.alloc stress env p bytes desc
  | realloc old result newSize desc => s.realloc stress env old result newSize desc
  | collect => s.collect env

/-- What a call that freed the given blocks does to the table. -/
def apply (m : Table) (freed : List ℕ) : Call → Table
  | alloc p bytes desc => Table.erase (Function.update m p (some (bytes, desc))) freed
  | realloc old result newSize desc =>
    Table.erase (Function.update (m.erase [old]) result (some (newSize, desc))) freed
  | collect => m.erase freed

end Call

/-- The states that the calls lead to, with the tables of the blocks still allocated. -/
inductive Runs : State → Table → Prop
  | init : Runs {} fun _ => none
  | step {s s' : State} {m : Table} {call : Call} {stress : Bool} {env : Env} {freed : List ℕ}
      (h : Runs s m) (hcall : call.Admissible m)
      (hstep : call.step stress env s = some (s', freed)) : Runs s' (call.apply m freed)

/-! ### Refinement -/

/-- The state holds the blocks of the table. -/
structure Refines (s : State) (m : Table) : Prop where
  inv : s.Inv
  mem_live : ∀ b, b ∈ s.live ↔ m b.start = some (b.size, b.desc)

namespace Refines

variable {s s' : State} {m : Table}

theorem init : Refines {} fun _ => none where
  inv := State.init_inv
  mem_live b := by simp [State.live]

theorem congr {t : State} (h : Refines s m) (hblocks : t.blocks = s.blocks)
    (hpending : t.pending = s.pending) (hpidx : t.pidx = s.pidx)
    (hdead : t.deadCount = s.deadCount) : Refines t m where
  inv := h.inv.congr hblocks hpending hpidx hdead
  mem_live b := by
    rw [← h.mem_live, State.live, State.live, hblocks, hpending]

theorem exists_collect (h : Refines s m) (env : Env) :
    ∃ s' freed, s.collect env = some (s', freed) ∧ Refines s' (m.erase freed) := by
  obtain ⟨s', freed, hrun, hC⟩ := h.inv.exists_collect env
  refine ⟨s', freed, hrun, hC.inv, fun b => ?_⟩
  rw [hC.mem_live, h.mem_live, Table.erase]
  split_ifs with hb
  · obtain ⟨c, hc, hstart, hreach⟩ := (hC.mem_freed _).1 hb
    simp only [iff_false, not_and]
    intro hmb hreach'
    rw [h.inv.eq_of_start_eq hc ((h.mem_live b).2 hmb) hstart] at hreach
    exact hreach hreach'
  · refine and_iff_left_of_imp fun hmb => ?_
    by_contra hreach
    exact hb ((hC.mem_freed _).2 ⟨b, (h.mem_live b).2 hmb, rfl, hreach⟩)

theorem exists_noteAlloc (h : Refines s m) (stress : Bool) (env : Env) (bytes : ℕ) :
    ∃ s' freed, s.noteAlloc stress env bytes = some (s', freed) ∧ Refines s' (m.erase freed) := by
  rw [State.noteAlloc]
  have h' : Refines { s with bytesSinceCollect := (s.bytesSinceCollect + bytes) % 2 ^ 64 } m :=
    h.congr rfl rfl rfl rfl
  split_ifs
  · exact h'.exists_collect env
  · exact ⟨_, [], rfl, by rwa [Table.erase_nil]⟩

/-- A state whose live blocks are those of a table and a new one. -/
theorem update {p size : ℕ} {desc : Option TypeDesc} (hI : s.Inv) (hp : m p = none)
    (hlive : ∀ b, b ∈ s.live ↔ m b.start = some (b.size, b.desc) ∨ b = ⟨p, size, desc⟩) :
    Refines s (Function.update m p (some (size, desc))) where
  inv := hI
  mem_live b := by
    rw [hlive]
    rcases eq_or_ne b.start p with heq | hne
    · rw [heq, hp, Function.update_self]
      simp only [reduceCtorEq, false_or, Option.some.injEq, Prod.mk.injEq]
      constructor
      · rintro rfl
        exact ⟨rfl, rfl⟩
      · rintro ⟨rfl, rfl⟩
        rw [← heq]
    · rw [Function.update_of_ne hne]
      refine or_iff_left ?_
      rintro rfl
      exact hne rfl

/-- `turf_gc_register_block` enters a block in the table. -/
theorem exists_registerBlock (h : Refines s m) {p bytes : ℕ} (hfree : m.Free p bytes)
    (desc : Option TypeDesc) : ∃ s', s.registerBlock p bytes desc = some s' ∧
      Refines s' (Function.update m p (some (bytes, desc))) := by
  obtain ⟨s', hs', hI, hlive, -⟩ := h.inv.exists_registerBlock hfree.1
    (fun b hb => hfree.2 _ _ _ ((h.mem_live b).1 hb)) desc
  refine ⟨s', hs', .update hI hfree.absent fun b => ?_⟩
  rw [hlive, List.mem_append, h.mem_live, List.mem_singleton]

/-- `turf_gc_reregister_block` enters a block in the place of another. -/
theorem exists_reregisterBlock (h : Refines s m) {old result newSize : ℕ}
    (hkey : old ≠ Pidx.deletedKey) (hfree : (m.erase [old]).Free result newSize)
    (desc : Option TypeDesc) :
    ∃ s', s.reregisterBlock old result newSize desc = some s' ∧
      Refines s' (Function.update (m.erase [old]) result (some (newSize, desc))) := by
  have hfree' : ∀ b ∈ s.live, b.start ≠ old →
      result + max newSize 1 ≤ b.start ∨ b.start + max b.size 1 ≤ result := fun b hb hne =>
    hfree.2 _ _ _ (Table.erase_singleton_eq_some.2 ⟨(h.mem_live b).1 hb, hne⟩)
  obtain ⟨s', hs', hI, hlive⟩ := h.inv.exists_reregisterBlock hkey hfree.1 hfree' desc
  refine ⟨s', hs', .update hI hfree.absent fun b => ?_⟩
  rw [hlive, h.mem_live, Table.erase_singleton_eq_some]

/-- Each call succeeds, and the state follows the table. -/
theorem exists_step (h : Refines s m) {call : Call} (hcall : call.Admissible m) (stress : Bool)
    (env : Env) : ∃ s' freed, call.step stress env s = some (s', freed) ∧
      Refines s' (call.apply m freed) := by
  cases call with
  | alloc p bytes desc =>
    obtain ⟨s₁, h₁, hR⟩ := h.exists_registerBlock hcall desc
    obtain ⟨s', freed, hrun, hR'⟩ := (hR.congr (t := { s₁ with
      allocCount := s₁.allocCount + 1
      bytesRequested := (s₁.bytesRequested + bytes) % 2 ^ 64 }) rfl rfl rfl rfl).exists_noteAlloc
      stress env bytes
    refine ⟨s', freed, ?_, hR'⟩
    rw [Call.step, State.alloc, h₁]
    exact hrun
  | realloc old result newSize desc =>
    obtain ⟨s₁, h₁, hR⟩ := h.exists_reregisterBlock hcall.1 hcall.2 desc
    obtain ⟨s', freed, hrun, hR'⟩ := (hR.congr (t := { s₁ with
      reallocCount := s₁.reallocCount + 1
      bytesRequested := (s₁.bytesRequested + newSize) % 2 ^ 64 }) rfl rfl rfl rfl).exists_noteAlloc
      stress env newSize
    refine ⟨s', freed, ?_, hR'⟩
    rw [Call.step, State.realloc, h₁]
    exact hrun
  | collect => exact h.exists_collect env

/-! ### Lookups -/

/-- An allocated block is found by exactly one of the two lookups. -/
theorem lookup_of_some (h : Refines s m) {a size : ℕ} {desc : Option TypeDesc}
    (ha : m a = some (size, desc)) :
    (∃ i b, s.findExactInPending a = some (some i) ∧ s.pending[i]? = some b ∧
      b.toBlock = ⟨a, size, desc⟩ ∧ findExactInBlocks s.blocks a = none) ∨
    (s.findExactInPending a = some none ∧ ∃ i b, findExactInBlocks s.blocks a = some i ∧
      s.blocks[i]? = some b ∧ b.toBlock = ⟨a, size, desc⟩) := by
  rcases State.mem_live.1 ((h.mem_live ⟨a, size, desc⟩).2 ha) with
    ⟨e, he, halive, heq⟩ | ⟨e, he, heq⟩
  · obtain ⟨i, hi⟩ := List.getElem?_of_mem he
    obtain rfl : e.start = a := by rw [heq]
    have hlt : 1 < e.start := h.inv.valid_start _ (State.mem_live.2 (.inl ⟨e, he, halive, rfl⟩))
    refine .inr ⟨h.inv.findExactInPending_eq_none (fun hp => ?_) hlt.ne', i, e,
      findExactInBlocks_eq_some h.inv.sorted hi halive, hi, heq⟩
    obtain ⟨e', he', hstart⟩ := List.mem_map.1 hp
    exact h.inv.start_ne he halive he' hstart.symm
  · obtain ⟨i, hi⟩ := List.getElem?_of_mem he
    obtain rfl : e.start = a := by rw [heq]
    refine .inl ⟨i, e, h.inv.findExactInPending_eq_some hi, hi, heq, ?_⟩
    rcases hfind : findExactInBlocks s.blocks e.start with _ | j
    · rfl
    · obtain ⟨b, hb, hstart, halive⟩ := of_findExactInBlocks hfind
      exact absurd hstart (h.inv.start_ne (List.mem_of_getElem? hb) halive he)

/-- No other address is found, but for the one that marks deleted slots. -/
theorem lookup_of_none (h : Refines s m) {a : ℕ} (ha : m a = none) (hkey : a ≠ Pidx.deletedKey) :
    s.findExactInPending a = some none ∧ findExactInBlocks s.blocks a = none := by
  have hlive : ∀ b ∈ s.live, b.start ≠ a := by
    rintro b hb rfl
    rw [(h.mem_live b).1 hb] at ha
    cases ha
  constructor
  · refine h.inv.findExactInPending_eq_none (fun hp => ?_) hkey
    obtain ⟨e, he, hstart⟩ := List.mem_map.1 hp
    exact hlive _ (State.mem_live.2 (.inr ⟨e, he, rfl⟩)) hstart
  · rcases hfind : findExactInBlocks s.blocks a with _ | j
    · rfl
    · obtain ⟨b, hb, hstart, halive⟩ := of_findExactInBlocks hfind
      exact absurd hstart
        (hlive _ (State.mem_live.2 (.inl ⟨b, List.mem_of_getElem? hb, halive, rfl⟩)))

end Refines

theorem Runs.refines {s : State} {m : Table} (h : Runs s m) : Refines s m := by
  induction h with
  | init => exact .init
  | @step s s' m call stress env freed h hcall hstep ih =>
    obtain ⟨t, freed', hrun, hR⟩ := ih.exists_step hcall stress env
    obtain ⟨rfl, rfl⟩ := Prod.mk.inj (Option.some.inj (hrun.symm.trans hstep))
    exact hR

/-- After every run the sorted part of the table is sorted with distinct starts, each block still
allocated is found by exactly one of the two lookups, with its size and descriptor, no other
address that a block can have is found, the dead entries are counted, and the next call
succeeds. -/
theorem runs_refine_table {s : State} {m : Table} (h : Runs s m) :
    (s.blocks.map fun b => b.start).Pairwise (· < ·) ∧
      (∀ a size desc, m a = some (size, desc) →
        (∃ i b, s.findExactInPending a = some (some i) ∧ s.pending[i]? = some b ∧
          b.toBlock = ⟨a, size, desc⟩ ∧ findExactInBlocks s.blocks a = none) ∨
        (s.findExactInPending a = some none ∧ ∃ i b, findExactInBlocks s.blocks a = some i ∧
          s.blocks[i]? = some b ∧ b.toBlock = ⟨a, size, desc⟩)) ∧
      (∀ a, m a = none → a ≠ Pidx.deletedKey →
        s.findExactInPending a = some none ∧ findExactInBlocks s.blocks a = none) ∧
      s.deadCount = s.blocks.countP GcBlock.dead ∧
      ∀ call : Call, call.Admissible m → ∀ stress env,
        ∃ s' freed, call.step stress env s = some (s', freed) := by
  have hR := h.refines
  refine ⟨hR.inv.sorted, fun a size desc => hR.lookup_of_some, fun a => hR.lookup_of_none,
    hR.inv.dead_count.symm, fun call hcall stress env => ?_⟩
  obtain ⟨s', freed, hstep, -⟩ := hR.exists_step hcall stress env
  exact ⟨s', freed, hstep⟩

/-- The first allocation collects nothing. -/
theorem exists_firstAlloc :
    ∃ s, Call.step false State.sampleEnv {} (.alloc 16 8 none) = some (s, []) ∧
      s.bytesSinceCollect = 8 ∧ s.gcThreshold = initialThreshold := by
  obtain ⟨y, hy, -⟩ := State.init_inv.pidx.exists_insertLast 16
  have hreg : State.registerBlock {} 16 8 none =
      some { pending := [⟨⟨16, 8, none⟩, false, false⟩], pidx := y } := by
    have hy' : Pidx.empty.insertLast [16] = some y := hy
    simp [State.registerBlock, hy']
  rw [Call.step, State.alloc, hreg, Option.bind_eq_bind, Option.bind_some]
  simp [State.noteAlloc, initialThreshold]

/-- The run of the first allocation. -/
theorem exists_sampleRun :
    ∃ s, Runs s (Function.update (fun _ => none) 16 (some (8, none))) := by
  obtain ⟨s, hs, -⟩ := exists_firstAlloc
  refine ⟨s, ?_⟩
  have hcall : Call.Admissible (fun _ => none) (.alloc 16 8 none) := ⟨by decide, by simp⟩
  have hruns := Runs.init.step hcall hs
  rwa [Call.apply, Table.erase_nil] at hruns

theorem runs_refine_table_sampleRun :
    ∃ s : State, (∃ i b, s.findExactInPending 16 = some (some i) ∧ s.pending[i]? = some b ∧
        b.toBlock = ⟨16, 8, none⟩ ∧ findExactInBlocks s.blocks 16 = none) ∨
      (s.findExactInPending 16 = some none ∧ ∃ i b, findExactInBlocks s.blocks 16 = some i ∧
        s.blocks[i]? = some b ∧ b.toBlock = ⟨16, 8, none⟩) := by
  obtain ⟨s, hs⟩ := exists_sampleRun
  exact ⟨s, (runs_refine_table hs).2.1 16 8 none (Function.update_self ..)⟩

end TurfLang.Gc
