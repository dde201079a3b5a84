import TurfLang.Runtime.Reachability

/-!
# `turf_rt_collect` frees exactly the unreachable blocks
-/

namespace TurfLang.Gc

/-! ### After the mark phase -/

section Marked

variable {base : List GcBlock} {marked : Finset ℕ}

theorem map_marked_false (base : List GcBlock) :
    (⟨base.map fun b => { b with marked := false }, []⟩ : Marking) =
      marking base ⟨∅, []⟩ := by
  rw [marking, withMarks]
  congr 1
  refine List.ext_getElem? fun i => ?_
  rw [List.getElem?_map, List.getElem?_mapIdx]
  simp

theorem mem_withMarks {e : GcBlock} : e ∈ withMarks base marked ↔
    ∃ (i : ℕ) (b : GcBlock), base[i]? = some b ∧
      { b with marked := decide (i ∈ marked) } = e := by
  rw [List.mem_iff_getElem?]
  simp only [getElem?_withMarks, Option.map_eq_some_iff]

theorem map_start_withMarks :
    (withMarks base marked).map (fun b => b.start) = base.map fun b => b.start := by
  refine List.ext_getElem? fun i => ?_
  rw [List.getElem?_map, List.getElem?_map, getElem?_withMarks, Option.map_map]
  rfl

end Marked

namespace State

variable {s : State}

/-- The mark phase ends, and has marked the entries of the rebuilt table that are reachable. -/
theorem Inv.exists_mark (hI : s.Inv) (env : Env) :
    ∃ marked : Finset ℕ,
      s.mark env =
        some { s.rebuildIndex with blocks := withMarks s.rebuildIndex.blocks marked } ∧
      ∀ i b, s.rebuildIndex.blocks[i]? = some b → (i ∈ marked ↔ Reachable env s b.toBlock) := by
  have hR := hI.rebuilt
  have hI' := hR.inv hI
  set t := s.rebuildIndex
  have hlive : ∀ b, b ∈ s.live ↔ ∃ e ∈ t.blocks, e.toBlock = b := by
    intro b
    rw [← (hR.live_perm hI).mem_iff, hR.live_eq hI, List.mem_map]
  have hfind : ∀ {a i}, findContaining t.blocks a = some i ↔
      ∃ b, t.blocks[i]? = some b ∧ b.toBlock.Contains a := by
    intro a i
    rw [findContaining_eq_some_iff hR.sorted fun b hb b' hb' =>
      hI.separated _ ((hlive _).2 ⟨b, hb, rfl⟩) _ ((hlive _).2 ⟨b', hb', rfl⟩)]
    refine exists_congr fun b => and_congr_right fun hb => and_iff_right ?_
    exact hR.alive hI b (List.mem_of_getElem? hb)
  have hroots : rootWords env t = rootWords env s := by
    rw [rootWords, rootWords, hR.roots_eq, hR.pins_eq]
  obtain ⟨marked, hrun, hmarked⟩ := exists_markLoop t.blocks env.mem (rootWords env s)
  refine ⟨marked, ?_, fun i b hb => ?_⟩
  · simp only [mark]
    rw [markRoots_eq, hroots, map_marked_false, hrun]
    rfl
  rw [hmarked]
  constructor
  · intro h
    induction h generalizing b with
    | @root i h =>
      obtain ⟨w, hw, hi⟩ := List.mem_filterMap.1 h
      obtain ⟨b', hb', hin⟩ := hfind.1 hi
      obtain rfl := Option.some.inj (hb.symm.trans hb')
      exact .root ⟨(hlive _).2 ⟨b, List.mem_of_getElem? hb, rfl⟩, w, mem_rootWords.1 hw, hin⟩
    | @edge i j hi h ih =>
      rw [successors] at h
      split at h
      · rename_i c hc
        obtain ⟨w, hw, hj⟩ := List.mem_filterMap.1 h
        obtain ⟨b', hb', hin⟩ := hfind.1 hj
        obtain rfl := Option.some.inj (hb.symm.trans hb')
        exact .edge (ih c hc)
          ⟨(hlive _).2 ⟨b, List.mem_of_getElem? hb, rfl⟩, w, mem_pointerWords.1 hw, hin⟩
      · cases h
  · intro h
    generalize hc : b.toBlock = c at h
    induction h generalizing i b with
    | root h =>
      obtain ⟨-, w, hw, hin⟩ := h
      subst hc
      exact .root (List.mem_filterMap.2 ⟨w, mem_rootWords.2 hw, hfind.2 ⟨b, hb, hin⟩⟩)
    | edge ha h ih =>
      obtain ⟨-, w, hw, hin⟩ := h
      subst hc
      obtain ⟨c, hcmem, rfl⟩ := (hlive _).1 (Reachable.mem_live ha)
      obtain ⟨j, hj⟩ := List.getElem?_of_mem hcmem
      refine .edge (ih j c hj rfl) ?_
      rw [successors, hj]
      exact List.mem_filterMap.2 ⟨w, mem_pointerWords.2 hw, hfind.2 ⟨b, hb, hin⟩⟩

/-! ### The sweep -/

theorem foldl_entry (l : List GcBlock) (w : Sweep) : l.foldl Sweep.entry w =
    ⟨w.kept ++ l.filter GcBlock.marked,
      w.liveBytes + ((l.filter GcBlock.marked).map fun b => b.size).sum,
      w.freed ++ (l.filter fun b => !b.marked).map fun b => b.start⟩ := by
  induction l generalizing w with
  | nil => simp
  | cons b l ih =>
    rw [List.foldl_cons, ih, Sweep.entry]
    cases hb : b.marked <;> simp [hb, add_assoc]

theorem sweep_blocks (s : State) : s.sweep.1.blocks = s.blocks.filter GcBlock.marked := by
  simp [sweep, foldl_entry]

theorem sweep_freed (s : State) :
    s.sweep.2 = (s.blocks.filter fun b => !b.marked).map fun b => b.start := by
  simp [sweep, foldl_entry]

/-- What a collection does to the table: `freed` are the starts of the unreachable blocks, and the
reachable ones stay. -/
structure Collected (env : Env) (s s' : State) (freed : List ℕ) : Prop where
  inv : s'.Inv
  mem_live : ∀ b, b ∈ s'.live ↔ b ∈ s.live ∧ Reachable env s b
  mem_freed : ∀ a, a ∈ freed ↔ ∃ b ∈ s.live, b.start = a ∧ ¬ Reachable env s b
  nodup_freed : freed.Nodup

theorem Inv.exists_collect (hI : s.Inv) (env : Env) :
    ∃ s' freed, s.collect env = some (s', freed) ∧ Collected env s s' freed := by
  have hR := hI.rebuilt
  obtain ⟨marked, hrun, hmarked⟩ := hI.exists_mark env
  set t := s.rebuildIndex
  have hlive : ∀ b, b ∈ s.live ↔ ∃ e ∈ t.blocks, e.toBlock = b := by
    intro b
    rw [← (hR.live_perm hI).mem_iff, hR.live_eq hI, List.mem_map]
  -- the entries are those of the rebuilt table, with the reachable ones marked
  have hentry : ∀ e, e ∈ withMarks t.blocks marked →
      e.dead = false ∧ e.toBlock ∈ s.live ∧ (e.marked = true ↔ Reachable env s e.toBlock) := by
    intro e he
    obtain ⟨i, b, hb, rfl⟩ := mem_withMarks.1 he
    have hmem := List.mem_of_getElem? hb
    exact ⟨hR.alive hI b hmem, (hlive _).2 ⟨b, hmem, rfl⟩,
      (decide_eq_true_iff).trans (hmarked i b hb)⟩
  have hexists : ∀ b ∈ s.live, ∃ e ∈ withMarks t.blocks marked, e.toBlock = b := by
    intro b hb
    obtain ⟨e, he, rfl⟩ := (hlive b).1 hb
    obtain ⟨i, hi⟩ := List.getElem?_of_mem he
    exact ⟨_, mem_withMarks.2 ⟨i, e, hi, rfl⟩, rfl⟩
  have hsorted : ((withMarks t.blocks marked).map fun b => b.start).Pairwise (· < ·) := by
    rw [map_start_withMarks]
    exact hR.sorted
  have hkept : (((withMarks t.blocks marked).filter GcBlock.marked).map
      fun b => b.start).Pairwise (· < ·) := hsorted.sublist (List.filter_sublist.map _)
  set u : State := { t with blocks := withMarks t.blocks marked }
  have hblocks : u.sweep.1.blocks = (withMarks t.blocks marked).filter GcBlock.marked :=
    sweep_blocks u
  have hfreed : u.sweep.2 = ((withMarks t.blocks marked).filter fun b => !b.marked).map
      fun b => b.start := sweep_freed u
  refine ⟨{ u.sweep.1 with bytesSinceCollect := 0, collectCount := u.sweep.1.collectCount + 1 },
    u.sweep.2, by simp [collect, hrun], ?_⟩
  set s' : State :=
    { u.sweep.1 with bytesSinceCollect := 0, collectCount := u.sweep.1.collectCount + 1 }
  have hpending : s'.pending = [] := hR.pending
  have hdead : ∀ e ∈ s'.blocks, e.dead = false := fun e he =>
    (hentry e (List.mem_of_mem_filter (hblocks ▸ he))).1
  have hlive' : s'.live = s'.blocks.map GcBlock.toBlock := by
    rw [live_eq_map, hpending, List.append_nil,
      List.filter_eq_self.2 fun e he => by simp [hdead e he]]
  have hmem : ∀ b, b ∈ s'.live ↔ b ∈ s.live ∧ Reachable env s b := by
    intro b
    rw [hlive', show s'.blocks = _ from hblocks, List.mem_map]
    constructor
    · rintro ⟨e, he, rfl⟩
      obtain ⟨he, hm⟩ := List.mem_filter.1 he
      exact ⟨(hentry e he).2.1, (hentry e he).2.2.1 hm⟩
    · rintro ⟨hb, hreach⟩
      obtain ⟨e, he, rfl⟩ := hexists b hb
      exact ⟨e, List.mem_filter.2 ⟨he, (hentry e he).2.2.2 hreach⟩, rfl⟩
  have hstarts : (s'.blocks.map fun b => b.start).Pairwise (· < ·) := by
    rw [show s'.blocks = _ from hblocks]
    exact hsorted.sublist (List.filter_sublist.map _)
  refine ⟨⟨fun b hb => hI.valid_start b ((hmem b).1 hb).1, hstarts, by simp [hpending], ?_,
    fun b hb b' hb' => hI.separated b ((hmem b).1 hb).1 b' ((hmem b').1 hb').1, ?_, ?_⟩,
    hmem, fun a => ?_, ?_⟩
  · rw [hlive', List.map_map]
    exact hstarts.imp ne_of_lt
  · rw [pendingStarts, hpending]
    exact hR.pidx
  · rw [show s'.deadCount = 0 from hR.deadCount, List.countP_eq_zero]
    exact fun e he => by simp [hdead e he]
  · rw [hfreed, List.mem_map]
    constructor
    · rintro ⟨e, he, rfl⟩
      obtain ⟨he, hm⟩ := List.mem_filter.1 he
      refine ⟨e.toBlock, (hentry e he).2.1, rfl, fun hreach => ?_⟩
      rw [(hentry e he).2.2.2 hreach] at hm
      cases hm
    · rintro ⟨b, hb, rfl, hreach⟩
      obtain ⟨e, he, rfl⟩ := hexists b hb
      refine ⟨e, List.mem_filter.2 ⟨he, ?_⟩, rfl⟩
      rw [Bool.not_eq_true', Bool.eq_false_iff]
      exact fun hm => hreach ((hentry e he).2.2.1 hm)
  · rw [hfreed]
    exact (hsorted.sublist (List.filter_sublist.map _)).imp ne_of_lt

/-! ### The whole collection -/

/-- `free` changes no byte of a live block but those of the blocks it frees. -/
def FreesOnly (s : State) (freed : List ℕ) (mem mem' : Memory) : Prop :=
  ∀ b ∈ s.live, ∀ a, b.Contains a → (∀ c ∈ s.live, c.start ∈ freed → ¬ c.Contains a) →
    mem' a = mem a

/-- `turf_rt_collect` ends. It frees exactly the live blocks that are not reachable, each once, and
keeps the reachable ones, each once, as they are and with their contents. -/
theorem collect_frees_unreachable (hI : s.Inv) (env : Env) :
    ∃ s' freed, s.collect env = some (s', freed) ∧ s'.Inv ∧
      (∀ b ∈ s.live, b.start ∈ freed ↔ ¬ Reachable env s b) ∧
      freed.Nodup ∧ (∀ a ∈ freed, ∃ b ∈ s.live, b.start = a) ∧
      (∀ b, b ∈ s'.live ↔ b ∈ s.live ∧ Reachable env s b) ∧ s'.live.Nodup ∧
      ∀ mem', FreesOnly s freed env.mem mem' →
        ∀ b ∈ s'.live, ∀ a, b.Contains a → mem' a = env.mem a := by
  obtain ⟨s', freed, hrun, hC⟩ := hI.exists_collect env
  have hiff : ∀ b ∈ s.live, b.start ∈ freed ↔ ¬ Reachable env s b := by
    intro b hb
    rw [hC.mem_freed]
    constructor
    · rintro ⟨c, hc, hstart, hreach⟩
      rwa [← hI.eq_of_start_eq hc hb hstart]
    · exact fun hreach => ⟨b, hb, rfl, hreach⟩
  refine ⟨s', freed, hrun, hC.inv, hiff, hC.nodup_freed, fun a ha => ?_, hC.mem_live,
    hC.inv.live_nodup.of_map, fun mem' hfree b hb a hin => ?_⟩
  · obtain ⟨b, hb, hstart, -⟩ := (hC.mem_freed a).1 ha
    exact ⟨b, hb, hstart⟩
  · obtain ⟨hlive, hreach⟩ := (hC.mem_live b).1 hb
    refine hfree b hlive a hin fun c hc hfreed hin' => ?_
    -- blocks do not overlap, so the freed block would be the kept one
    have hne : b.start ≠ c.start := by
      intro heq
      rw [hI.eq_of_start_eq hlive hc heq] at hreach
      exact (hiff c hc).1 hfreed hreach
    rcases Nat.lt_or_gt_of_ne hne with hlt | hlt
    · have := hI.separated b hlive c hc hlt
      simp only [Block.Contains] at hin hin'
      omega
    · have := hI.separated c hc b hlive hlt
      simp only [Block.Contains] at hin hin'
      omega

/-- Three blocks: the first two point at each other, a root word points into the second, and a
dead entry lies before the third, which nothing points into. -/
def sampleTable : State :=
  let desc : TypeDesc := ⟨8, 1, [1], rfl, rfl⟩
  { blocks := [⟨⟨16, 16, some desc⟩, true, false⟩, ⟨⟨32, 8, some desc⟩, false, false⟩,
      ⟨⟨64, 8, none⟩, false, true⟩, ⟨⟨80, 8, none⟩, false, false⟩]
    deadCount := 1 }

def sampleEnv : Env where
  regs := [35]
  sp := 0
  stackBase := 0
  mem := fun a => if a = 32 then 24 else if a = 24 then 32 else 0

theorem sampleTable_inv : sampleTable.Inv where
  valid_start := by simp [sampleTable, live]
  sorted := by simp [sampleTable]
  pending_alive := by simp [sampleTable]
  live_nodup := by simp [sampleTable, live]
  separated := by simp [sampleTable, live]
  pidx := Pidx.replicate_inv fun h => absurd rfl h
  dead_count := rfl

theorem collect_frees_unreachable_sampleTable :
    ∃ s' freed, sampleTable.collect sampleEnv = some (s', freed) ∧ s'.Inv ∧
      ∀ b ∈ sampleTable.live, b.start ∈ freed ↔ ¬ Reachable sampleEnv sampleTable b := by
  obtain ⟨s', freed, hrun, hI, hfreed, -⟩ := collect_frees_unreachable sampleTable_inv sampleEnv
  exact ⟨s', freed, hrun, hI, hfreed⟩

end State

end TurfLang.Gc
