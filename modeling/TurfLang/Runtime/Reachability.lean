import TurfLang.Lib.Worklist
import TurfLang.Runtime.Collect
import TurfLang.Runtime.TableOperations

/-!
# A collection keeps the reachable blocks

`Reachable` is the least set a collection has to keep. The mark phase is the worklist
algorithm over the indices of the rebuilt table, with the marks of the table's entries as its
set of marked nodes, so it ends and marks the reachable blocks; the sweep frees the others.
-/

namespace TurfLang.Gc

/-! ### What is to be kept -/

/-- The bitmap has a bit for word `i` of an element, and it is set. -/
def TypeDesc.Marks (desc : TypeDesc) (i : ℕ) : Prop :=
  i < desc.wordCount ∧ ∃ bits, desc.pointerWords[i / 64]? = some bits ∧ bits.toNat.testBit (i % 64)

/-- A word of the block that its descriptor marks: word `i` of element `k`, if the block has all
of both. -/
inductive MarkedWord (mem : Memory) (b : Block) : ℕ → Prop
  | intro {desc : TypeDesc} {k i : ℕ} (hdesc : b.desc = some desc) (hi : desc.Marks i)
      (hk : (k + 1) * desc.size ≤ b.size) (hfit : k * desc.size + i * 8 + 8 ≤ b.size) :
      MarkedWord mem b (wordAt mem (b.start + k * desc.size + i * 8))

/-- A word a collection takes for a root. -/
inductive RootWord (env : Env) (s : State) : ℕ → Prop
  | reg {w : ℕ} (h : w ∈ env.regs) : RootWord env s w
  | stack {a : ℕ} (halign : 8 ∣ a) (hlo : env.sp / 8 * 8 ≤ a) (hhi : a + 8 ≤ env.stackBase) :
      RootWord env s (wordAt env.mem a)
  | global {slot : ℕ} (h : slot ∈ s.roots) : RootWord env s (wordAt env.mem slot)
  | pin {pin : GcPin} (h : pin ∈ s.pins) : RootWord env s pin.blockStart

/-- The least set that contains every live block a root word points into, and every live block a
marked word of a block in the set points into. -/
def Reachable (env : Env) (s : State) : Block → Prop :=
  Worklist.Reach (fun b => b ∈ s.live ∧ ∃ w, RootWord env s w ∧ b.Contains w)
    fun b c => c ∈ s.live ∧ ∃ w, MarkedWord env.mem b w ∧ c.Contains w

theorem Reachable.mem_live {env : Env} {s : State} {b : Block} (h : Reachable env s b) :
    b ∈ s.live := by
  cases h with
  | root h => exact h.1
  | edge _ h => exact h.1

/-! ### The words a scan reads -/

theorem mem_strides {step lo hi a : ℕ} (hstep : 0 < step) :
    a ∈ strides step lo hi ↔ ∃ k, a = lo + k * step ∧ a + step ≤ hi := by
  fun_induction strides step lo hi with
  | case1 lo h ih =>
    rw [List.mem_cons, ih]
    constructor
    · rintro (rfl | ⟨k, rfl, hle⟩)
      · exact ⟨0, by simp, h.2⟩
      · exact ⟨k + 1, by ring, hle⟩
    · rintro ⟨_ | k, rfl, hle⟩
      · exact .inl (by simp)
      · exact .inr ⟨k, by ring, hle⟩
  | case2 lo h =>
    simp only [List.not_mem_nil, false_iff, not_exists, not_and]
    rintro k rfl
    have : ¬ lo + step ≤ hi := fun hle => h ⟨hstep, hle⟩
    omega

theorem isPointerWord_iff {desc : TypeDesc} {i : ℕ} :
    desc.isPointerWord i = true ↔ desc.Marks i := by
  rw [TypeDesc.isPointerWord, TypeDesc.Marks]
  split_ifs with h
  · simp only [false_iff, not_and]
    omega
  · rw [ge_iff_le, not_le] at h
    have hlt : i / 64 < desc.pointerWords.length := by
      rw [desc.length_eq]
      omega
    have hbit : ∀ bits : UInt64, (bits.toNat >>> (i % 64)) &&& 1 = 1 ↔
        bits.toNat.testBit (i % 64) = true := by
      intro bits
      rw [Nat.and_one_is_mod, Nat.testBit_eq_decide_div_mod_eq, Nat.shiftRight_eq_div_pow,
        decide_eq_true_iff]
    simp only [List.getD_eq_getElem?_getD, List.getElem?_eq_getElem hlt, Option.getD_some,
      decide_eq_true_eq, hbit, Option.some.injEq, exists_eq_left', h, true_and]

/-- The words `gc_scan_block_precise` considers. -/
def pointerWords (mem : Memory) (b : Block) : List ℕ :=
  match b.desc with
  | none => []
  | some desc =>
    (strides desc.size 0 b.size).flatMap fun off =>
      (List.range desc.wordCount).filterMap fun w =>
        if desc.isPointerWord w ∧ b.start + off + w * 8 + 8 ≤ b.start + b.size then
          some (wordAt mem (b.start + off + w * 8))
        else none

theorem mem_pointerWords {mem : Memory} {b : Block} {w : ℕ} :
    w ∈ pointerWords mem b ↔ MarkedWord mem b w := by
  rw [pointerWords]
  constructor
  · intro h
    split at h
    · cases h
    · rename_i desc hdesc
      obtain ⟨off, hoff, h⟩ := List.mem_flatMap.1 h
      obtain ⟨i, hi, h⟩ := List.mem_filterMap.1 h
      have hpos : 0 < desc.size := by
        by_contra h0
        have := desc.wordCount_eq
        have := List.mem_range.1 hi
        omega
      obtain ⟨k, rfl, hk⟩ := (mem_strides hpos).1 hoff
      rw [Nat.zero_add] at h hk
      obtain ⟨⟨hptr, hfit⟩, rfl⟩ : (desc.isPointerWord i = true ∧ _) ∧ _ := by simpa using h
      exact .intro hdesc (isPointerWord_iff.1 hptr) (by rw [Nat.succ_mul]; exact hk) (by omega)
  · rintro ⟨hdesc, hi, hk, hfit⟩
    rename_i desc k i
    have hpos : 0 < desc.size := by
      by_contra h0
      have := desc.wordCount_eq
      have := hi.1
      omega
    simp only [hdesc]
    refine List.mem_flatMap.2 ⟨k * desc.size, (mem_strides hpos).2 ⟨k, by simp, ?_⟩,
      List.mem_filterMap.2 ⟨i, List.mem_range.2 hi.1, ?_⟩⟩
    · rw [Nat.succ_mul] at hk
      exact hk
    · rw [if_pos ⟨isPointerWord_iff.2 hi, by omega⟩]

theorem scanBlockPrecise_eq (mem : Memory) (b : Block) (m : Marking) :
    scanBlockPrecise mem b m = (pointerWords mem b).foldl considerRoot m := by
  rw [scanBlockPrecise, pointerWords]
  rcases b.desc with _ | desc
  · rfl
  · simp only
    split_ifs with h0
    · have hnil : strides desc.size 0 b.size = [] := by
        rw [strides, if_neg (by omega)]
      rw [hnil]
      rfl
    · rw [List.foldl_flatMap]
      congr
      funext m off
      rw [List.foldl_filterMap]
      congr
      funext m i
      by_cases hptr : desc.isPointerWord i
      · by_cases hfit : b.start + off + i * 8 + 8 ≤ b.start + b.size
        · simp [hptr, hfit, Nat.not_lt.2 hfit]
        · simp [hptr, hfit, Nat.not_le.1 hfit]
      · simp [hptr]

/-- The words `gc_mark` considers before it empties the worklist. -/
def rootWords (env : Env) (s : State) : List ℕ :=
  env.regs ++
    (if env.stackBase > env.sp then
      (strides 8 (env.sp / 8 * 8) env.stackBase).map (wordAt env.mem) else []) ++
    s.roots.map (wordAt env.mem) ++ s.pins.map GcPin.blockStart

theorem mem_rootWords {env : Env} {s : State} {w : ℕ} : w ∈ rootWords env s ↔ RootWord env s w := by
  simp only [rootWords, List.mem_append, List.mem_map]
  constructor
  · rintro (((h | h) | ⟨slot, h, rfl⟩) | ⟨pin, h, rfl⟩)
    · exact .reg h
    · split_ifs at h with hlt
      · obtain ⟨a, ha, rfl⟩ := List.mem_map.1 h
        obtain ⟨k, rfl, hle⟩ := (mem_strides (by norm_num)).1 ha
        exact .stack (by omega) (by omega) hle
      · cases h
    · exact .global h
    · exact .pin h
  · rintro (h | ⟨halign, hlo, hhi⟩ | h | h)
    · exact .inl (.inl (.inl h))
    · rename_i a
      refine .inl (.inl (.inr ?_))
      rw [if_pos (by omega)]
      exact List.mem_map.2 ⟨a, (mem_strides (by norm_num)).2
        ⟨(a - env.sp / 8 * 8) / 8, by omega, hhi⟩, rfl⟩
    · exact .inl (.inr ⟨_, h, rfl⟩)
    · exact .inr ⟨_, h, rfl⟩

theorem markRoots_eq (env : Env) (s : State) : s.markRoots env =
    (rootWords env s).foldl considerRoot ⟨s.blocks.map fun b => { b with marked := false }, []⟩ := by
  rw [State.markRoots, rootWords, List.foldl_append, List.foldl_append, List.foldl_append,
    List.foldl_map, List.foldl_map]
  split_ifs
  · rw [scanRangeConservative, List.foldl_map]
  · rfl

/-! ### Containment search -/

section Containing

variable {blocks : List GcBlock}

/-- In a sorted table of entries that do not overlap, the search finds the block an address is
in, unless its entry is dead. -/
theorem findContaining_eq_some_iff (hsorted : (blocks.map fun b => b.start).Pairwise (· < ·))
    (hsep : ∀ b ∈ blocks, ∀ b' ∈ blocks, b.start < b'.start → b.start + max b.size 1 ≤ b'.start)
    {addr i : ℕ} : findContaining blocks addr = some i ↔
      ∃ b, blocks[i]? = some b ∧ b.dead = false ∧ b.toBlock.Contains addr := by
  have hlt : ∀ j k (hj : j < blocks.length) (hk : k < blocks.length), j < k →
      blocks[j].start < blocks[k].start := by
    intro j k hj hk hjk
    rw [List.pairwise_map] at hsorted
    exact List.pairwise_iff_getElem.1 hsorted j k hj hk hjk
  have hle : ∀ j (hj : j < blocks.length),
      (blocks[j]?.any fun b => decide (b.start ≤ addr)) = decide (blocks[j].start ≤ addr) := by
    intro j hj
    rw [List.getElem?_eq_getElem hj, Option.any_some]
  obtain ⟨-, hhi, hbefore, hafter⟩ := Bisect.partitionPoint_spec
    (p := fun mid => blocks[mid]?.any fun b => decide (b.start ≤ addr)) (Nat.zero_le blocks.length)
    fun j k hjk hk hp => by
      rw [hle j (hjk.trans hk)]
      rw [hle k hk] at hp
      have := hlt j k (hjk.trans hk) hk hjk
      simp only [decide_eq_true_eq] at hp ⊢
      omega
  rw [findContaining]
  set lo := Bisect.partitionPoint
    (fun mid => blocks[mid]?.any fun b => decide (b.start ≤ addr)) 0 blocks.length
  constructor
  · intro h
    split_ifs at h with h0
    rw [Option.bind_eq_bind, Option.bind_eq_some_iff] at h
    obtain ⟨cand, hcand, h⟩ := h
    split_ifs at h with hin
    obtain rfl : lo - 1 = i := by simpa using h
    exact ⟨cand, hcand, by simpa using hin.1, hin.2⟩
  · rintro ⟨b, hb, halive, hle', hlt'⟩
    obtain ⟨hi, rfl⟩ := List.getElem?_eq_some_iff.1 hb
    have hilo : i < lo := by
      by_contra hge
      have := hafter i (by omega) hi
      rw [hle i hi, decide_eq_false_iff_not] at this
      exact this hle'
    -- an entry between the block and the partition point would overlap it
    have hlo : lo = i + 1 := by
      by_contra hne
      have hi1 : i + 1 < blocks.length := by omega
      have hp := hbefore (i + 1) (by omega) (by omega)
      rw [hle _ hi1, decide_eq_true_eq] at hp
      have := hsep _ (List.getElem_mem hi) _ (List.getElem_mem hi1) (hlt i (i + 1) hi hi1 (by omega))
      omega
    rw [if_neg (by omega), hlo, Nat.add_sub_cancel, hb, Option.bind_eq_bind, Option.bind_some,
      if_pos ⟨by simp [halive], hle', hlt'⟩]

end Containing

/-! ### The mark phase is the worklist algorithm -/

/-- The table with just the entries of the given indices marked. -/
def withMarks (base : List GcBlock) (marked : Finset ℕ) : List GcBlock :=
  base.mapIdx fun i b => { b with marked := decide (i ∈ marked) }

/-- The marking phase that stands for a state of the worklist algorithm. -/
def marking (base : List GcBlock) (w : Worklist.State ℕ) : Marking :=
  ⟨withMarks base w.marked, w.work⟩

section Simulation

variable (base : List GcBlock) (mem : Memory)

theorem getElem?_withMarks (marked : Finset ℕ) (i : ℕ) : (withMarks base marked)[i]? =
    base[i]?.map fun b => { b with marked := decide (i ∈ marked) } := by
  rw [withMarks, List.getElem?_mapIdx]

theorem findContaining_withMarks (marked : Finset ℕ) (addr : ℕ) :
    findContaining (withMarks base marked) addr = findContaining base addr := by
  simp only [findContaining, getElem?_withMarks, Option.any_map]
  rw [withMarks, List.length_mapIdx]
  congr 1
  rw [Option.bind_eq_bind, Option.bind_map]
  rfl

theorem findContaining_lt {addr i : ℕ} (h : findContaining base addr = some i) :
    i < base.length := by
  rw [findContaining] at h
  split_ifs at h
  rw [Option.bind_eq_bind, Option.bind_eq_some_iff] at h
  obtain ⟨cand, hcand, h⟩ := h
  split_ifs at h
  obtain rfl := Option.some.inj h
  exact (List.getElem?_eq_some_iff.1 hcand).1

theorem modify_withMarks (marked : Finset ℕ) (i : ℕ) :
    (withMarks base marked).modify i (fun b => { b with marked := true }) =
      withMarks base (insert i marked) := by
  refine List.ext_getElem? fun j => ?_
  rw [List.getElem?_modify, getElem?_withMarks, getElem?_withMarks]
  rcases base[j]? with _ | b
  · simp
  · rcases eq_or_ne i j with rfl | hne
    · simp
    · simp [hne, hne.symm]

theorem considerRoot_marking (w : Worklist.State ℕ) (candidate : ℕ) :
    considerRoot (marking base w) candidate =
      marking base ((findContaining base candidate).elim w (Worklist.consider w)) := by
  simp only [considerRoot, marking, findContaining_withMarks]
  rcases h : findContaining base candidate with _ | i
  · rfl
  · have hi := findContaining_lt base h
    simp only [getElem?_withMarks, List.getElem?_eq_getElem hi, Option.map_some, Option.any_some,
      decide_eq_true_eq, Option.elim_some, Worklist.consider, modify_withMarks]
    split_ifs <;> rfl

theorem foldl_considerRoot_marking (ws : List ℕ) (w : Worklist.State ℕ) :
    ws.foldl considerRoot (marking base w) =
      marking base ((ws.filterMap (findContaining base)).foldl Worklist.consider w) := by
  induction ws generalizing w with
  | nil => rfl
  | cons a ws ih =>
    rw [List.foldl_cons, considerRoot_marking, ih, List.filterMap_cons]
    cases findContaining base a <;> rfl

/-- The entries the marked words of entry `i` point into. -/
def successors (i : ℕ) : List ℕ :=
  match base[i]? with
  | some b => (pointerWords mem b.toBlock).filterMap (findContaining base)
  | none => []

theorem lt_of_mem_filterMap {ws : List ℕ} {i : ℕ} (h : i ∈ ws.filterMap (findContaining base)) :
    i < base.length := by
  obtain ⟨a, -, ha⟩ := List.mem_filterMap.1 h
  exact findContaining_lt base ha

theorem markLoop_marking {fuel : ℕ} {w : Worklist.State ℕ} (hw : ∀ i ∈ w.work, i < base.length) :
    markLoop mem fuel (marking base w) =
      (Worklist.loop (successors base mem) fuel w).map (withMarks base) := by
  induction fuel generalizing w with
  | zero => rcases w with ⟨marked, _ | ⟨i, work⟩⟩ <;> rfl
  | succ fuel ih =>
    rcases w with ⟨marked, _ | ⟨i, work⟩⟩
    · rfl
    · have hi : i < base.length := hw i (by simp)
      have hsucc : successors base mem i =
          (pointerWords mem base[i].toBlock).filterMap (findContaining base) := by
        rw [successors, List.getElem?_eq_getElem hi]
      rw [marking, markLoop, getElem?_withMarks, List.getElem?_eq_getElem hi, Option.map_some,
        Option.bind_eq_bind, Option.bind_some, scanBlockPrecise_eq,
        show (⟨withMarks base marked, work⟩ : Marking) = marking base ⟨marked, work⟩ from rfl,
        foldl_considerRoot_marking, ih, Worklist.loop, hsucc]
      intro j hj
      rw [Worklist.mem_work_foldl, Worklist.mem_marked_foldl] at hj
      rcases hj with hj | ⟨hj | hj, hn⟩
      · exact hw j (List.mem_cons_of_mem _ hj)
      · exact absurd hj hn
      · exact lt_of_mem_filterMap base hj

/-- The loop of the mark phase ends, and marks the entries reachable from the root words. -/
theorem exists_markLoop (ws : List ℕ) :
    ∃ marked : Finset ℕ,
      markLoop mem base.length (ws.foldl considerRoot (marking base ⟨∅, []⟩)) =
        some (withMarks base marked) ∧
      ∀ i, i ∈ marked ↔ Worklist.Reach (· ∈ ws.filterMap (findContaining base))
        (fun i j => j ∈ successors base mem i) i := by
  have hroots : ∀ i ∈ ws.filterMap (findContaining base), i ∈ Finset.range base.length :=
    fun i hi => Finset.mem_range.2 (lt_of_mem_filterMap base hi)
  have hsucc : ∀ i ∈ Finset.range base.length, ∀ j ∈ successors base mem i,
      j ∈ Finset.range base.length := by
    intro i _ j hj
    rw [successors] at hj
    split at hj
    · exact Finset.mem_range.2 (lt_of_mem_filterMap base hj)
    · cases hj
  obtain ⟨marked, hrun, hmarked⟩ :=
    Worklist.exists_loop hroots hsucc (Finset.card_range base.length).le
  refine ⟨marked, ?_, hmarked⟩
  rw [foldl_considerRoot_marking, markLoop_marking, hrun, Option.map_some]
  intro i hi
  rw [Worklist.mem_work_foldl, Worklist.mem_marked_foldl] at hi
  rcases hi with hi | ⟨hi | hi, -⟩
  · cases hi
  · simp at hi
  · exact lt_of_mem_filterMap base hi

end Simulation

end TurfLang.Gc
