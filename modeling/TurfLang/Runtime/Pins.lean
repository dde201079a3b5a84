import TurfLang.Runtime.Allocation

/-!
# `turfrt_gc.c`: pins

`turf_rt_pin` and `turf_rt_unpin` keep a count for each block, in an array keyed by the block's
start. They are called between collections, so the containment query has to look through the
pending blocks too and past the dead entries of the sorted part.
-/

namespace TurfLang.Gc

/-- What `turf_rt_panic` is given. -/
structure Panic where
  title : String
  message : String
deriving DecidableEq

/-- The panic of `turf_rt_unpin`. -/
def unpinPanic : Panic where
  title := "unpin of unpinned object"
  message := "mem::unroot() was called on an object with no matching mem::root() pin outstanding"

namespace State

/-- `gc_find_containing_any`. -/
def findContainingAny (s : State) (addr : ℕ) : Option Block :=
  match findContaining s.blocks addr with
  | some i => s.blocks[i]?.map GcBlock.toBlock
  | none =>
    (s.pending.find? fun b => addr ≥ b.start ∧ addr < b.start + b.size).map GcBlock.toBlock

/-- `turf_rt_pin`. -/
def pin (s : State) (p : ℕ) : State :=
  if p = 0 then s
  else
    match s.findContainingAny p with
    | none => s
    | some b =>
      match s.findPin b.start with
      | some idx => { s with pins := s.pins.modify idx fun q => { q with count := q.count + 1 } }
      | none => { s with pins := s.pins ++ [⟨b.start, 1⟩] }

/-- `turf_rt_unpin`. -/
def unpin (s : State) (p : ℕ) : Except Panic State :=
  if p = 0 then .ok s
  else
    match s.findContainingAny p with
    | none => .ok s
    | some b =>
      match s.findPin b.start with
      | none => .error unpinPanic
      | some idx =>
        let pins := s.pins.modify idx fun q => { q with count := q.count - 1 }
        if pins[idx]?.any fun q => q.count = 0 then
          let last := pins.length - 1
          .ok { s with pins := (pins.set idx (pins.getD last ⟨0, 0⟩)).take last }
        else .ok { s with pins := pins }

/-! ### Containment -/

/-- No two entries of the sorted part overlap, dead ones included. -/
def Apart (s : State) : Prop :=
  ∀ b ∈ s.blocks.map GcBlock.toBlock, ∀ b' ∈ s.blocks.map GcBlock.toBlock, b.start < b'.start →
    b.start + max b.size 1 ≤ b'.start

variable {s s' : State}

theorem apart_init : ({} : State).Apart := fun b hb => by cases hb

theorem Apart.congr (h : s.Apart)
    (hblocks : s'.blocks.map GcBlock.toBlock = s.blocks.map GcBlock.toBlock) : s'.Apart := by
  unfold Apart
  rw [hblocks]
  exact h

/-- The containment query finds the live block an address is in. -/
theorem findContainingAny_eq_some_iff (hI : s.Inv) (hapart : s.Apart) {addr : ℕ} {b : Block} :
    s.findContainingAny addr = some b ↔ b ∈ s.live ∧ b.Contains addr := by
  have hsep : ∀ e ∈ s.blocks, ∀ e' ∈ s.blocks, e.start < e'.start →
      e.start + max e.size 1 ≤ e'.start := fun e he e' he' =>
    hapart _ (List.mem_map_of_mem he) _ (List.mem_map_of_mem he')
  -- blocks that contain the same address are the same
  have hunique : ∀ c ∈ s.live, ∀ c' ∈ s.live, c.Contains addr → c'.Contains addr → c = c' := by
    intro c hc c' hc' hin hin'
    unfold Block.Contains at hin hin'
    refine hI.eq_of_start_eq hc hc' ?_
    rcases Nat.lt_trichotomy c.start c'.start with hlt | heq | hgt
    · have := hI.separated c hc c' hc' hlt
      omega
    · exact heq
    · have := hI.separated c' hc' c hc hgt
      omega
  unfold findContainingAny
  rcases hfind : findContaining s.blocks addr with _ | i
  · show (s.pending.find? _).map _ = _ ↔ _
    rcases hpend : s.pending.find? _ with _ | e
    · rw [Option.map_none]
      simp only [reduceCtorEq, false_iff, not_and]
      intro hb hin
      rcases mem_live.1 hb with ⟨e, he, halive, rfl⟩ | ⟨e, he, rfl⟩
      · obtain ⟨i, hi⟩ := List.getElem?_of_mem he
        rw [(findContaining_eq_some_iff hI.sorted hsep).2 ⟨e, hi, halive, hin⟩] at hfind
        cases hfind
      · exact (List.find?_eq_none.1 hpend e he) (decide_eq_true hin)
    · have hmem := mem_live.2 (.inr ⟨e, List.mem_of_find?_eq_some hpend, rfl⟩)
      have hin := List.find?_some hpend
      rw [decide_eq_true_iff] at hin
      have hin : e.toBlock.Contains addr := hin
      rw [Option.map_some, Option.some.injEq]
      constructor
      · rintro rfl
        exact ⟨hmem, hin⟩
      · rintro ⟨hb, hin'⟩
        exact hunique _ hmem _ hb hin hin'
  · obtain ⟨e, he, halive, hin⟩ := (findContaining_eq_some_iff hI.sorted hsep).1 hfind
    have hmem := mem_live.2 (.inl ⟨e, List.mem_of_getElem? he, halive, rfl⟩)
    show s.blocks[i]?.map _ = _ ↔ _
    rw [he, Option.map_some, Option.some.injEq]
    constructor
    · rintro rfl
      exact ⟨hmem, hin⟩
    · rintro ⟨hb, hin'⟩
      exact hunique _ hmem _ hb hin hin'

end State

/-! ### The array of pins as a map -/

/-- The pins are the positive counts of a map from starts. -/
structure Records (pins : List GcPin) (counts : ℕ → ℕ) : Prop where
  nodup : (pins.map GcPin.blockStart).Nodup
  mem_iff : ∀ q : GcPin, q ∈ pins ↔ counts q.blockStart = q.count ∧ 0 < q.count

namespace Records

variable {pins pins' : List GcPin} {counts : ℕ → ℕ} {q : GcPin}

theorem nil : Records [] fun _ => 0 where
  nodup := List.nodup_nil
  mem_iff q := by
    simp only [List.not_mem_nil, false_iff, not_and]
    omega

theorem perm (h : Records pins counts) (hperm : pins.Perm pins') : Records pins' counts where
  nodup := ((hperm.map _).nodup_iff).1 h.nodup
  mem_iff q := by rw [← hperm.mem_iff, h.mem_iff]

theorem cons (h : Records pins counts) (hq : counts q.blockStart = 0) (hpos : 0 < q.count) :
    Records (q :: pins) (Function.update counts q.blockStart q.count) where
  nodup := by
    refine List.nodup_cons.2 ⟨fun hmem => ?_, h.nodup⟩
    obtain ⟨r, hr, hstart⟩ := List.mem_map.1 hmem
    have := (h.mem_iff r).1 hr
    rw [hstart] at this
    omega
  mem_iff r := by
    rw [List.mem_cons, h.mem_iff]
    rcases eq_or_ne r.blockStart q.blockStart with heq | hne
    · rw [heq, Function.update_self, hq]
      constructor
      · rintro (rfl | ⟨h0, hr⟩)
        · exact ⟨rfl, hpos⟩
        · omega
      · rintro ⟨hcount, -⟩
        left
        cases r
        cases q
        simp_all
    · rw [Function.update_of_ne hne]
      refine or_iff_right ?_
      rintro rfl
      exact hne rfl

theorem tail (h : Records (q :: pins) counts) :
    Records pins (Function.update counts q.blockStart 0) where
  nodup := (List.nodup_cons.1 h.nodup).2
  mem_iff r := by
    have hr := h.mem_iff r
    rw [List.mem_cons] at hr
    rcases eq_or_ne r.blockStart q.blockStart with heq | hne
    · rw [heq, Function.update_self]
      refine iff_of_false (fun hmem => ?_) (by omega)
      exact (List.nodup_cons.1 h.nodup).1 (List.mem_map.2 ⟨r, hmem, heq⟩)
    · rw [Function.update_of_ne hne, ← hr]
      refine (or_iff_right ?_).symm
      rintro rfl
      exact hne rfl

theorem head (h : Records (q :: pins) counts) : counts q.blockStart = q.count ∧ 0 < q.count :=
  (h.mem_iff q).1 List.mem_cons_self

/-- Another count for a block that has one. -/
theorem replace (h : Records (q :: pins) counts) {n : ℕ} (hn : 0 < n) :
    Records (⟨q.blockStart, n⟩ :: pins) (Function.update counts q.blockStart n) := by
  have h' := h.tail.cons (q := ⟨q.blockStart, n⟩) (Function.update_self ..) hn
  rwa [Function.update_idem] at h'

/-- The pin goes with the block from one start to another. -/
theorem move (h : Records (q :: pins) counts) {a : ℕ}
    (ha : a = q.blockStart ∨ counts a = 0) :
    Records (⟨a, q.count⟩ :: pins)
      (Function.update (Function.update counts q.blockStart 0) a q.count) := by
  refine h.tail.cons (q := ⟨a, q.count⟩) ?_ h.head.2
  rcases eq_or_ne a q.blockStart with rfl | hne
  · exact Function.update_self ..
  · rw [Function.update_of_ne hne]
    exact ha.resolve_left hne

end Records

/-! ### Changes of one entry -/

section Entries

variable {α : Type} {l : List α} {i : ℕ} {a : α}

theorem perm_cons_eraseIdx (ha : l[i]? = some a) : l.Perm (a :: l.eraseIdx i) := by
  obtain ⟨hi, rfl⟩ := List.getElem?_eq_some_iff.1 ha
  exact (List.getElem_cons_eraseIdx_perm hi).symm

theorem modify_perm_cons_eraseIdx (f : α → α) (ha : l[i]? = some a) :
    (l.modify i f).Perm (f a :: l.eraseIdx i) := by
  induction l generalizing i with
  | nil => simp at ha
  | cons b l ih =>
    cases i with
    | zero =>
      obtain rfl : b = a := by simpa using ha
      simp
    | succ i =>
      rw [List.modify_succ_cons, List.eraseIdx_cons_succ]
      exact ((ih (by simpa using ha)).cons b).trans (.swap _ _ _)

/-- The last entry put in the place of another takes that one out. -/
theorem perm_cons_swapRemove {d : α} (ha : l[i]? = some a) :
    l.Perm (a :: (l.set i (l.getD (l.length - 1) d)).take (l.length - 1)) := by
  obtain ⟨ps, x, rfl⟩ : ∃ ps x, l = ps ++ [x] :=
    (List.eq_nil_or_concat' l).resolve_left fun h0 => by simp [h0] at ha
  have hlast : (ps ++ [x]).getD ((ps ++ [x]).length - 1) d = x := by simp
  have hlen : (ps ++ [x]).length - 1 = ps.length := by simp
  have hi := (List.getElem?_eq_some_iff.1 ha).1
  rw [List.length_append, List.length_singleton] at hi
  rw [hlast, hlen]
  rcases Nat.lt_or_ge i ps.length with hlt | hge
  · obtain rfl : ps[i] = a := by
      rw [List.getElem?_append_left hlt, List.getElem?_eq_getElem hlt] at ha
      exact Option.some.inj ha
    rw [List.set_append_left _ _ hlt, List.take_left' (by simp)]
    exact perm_cons_set x hlt
  · obtain rfl : i = ps.length := by omega
    obtain rfl : x = a := by simpa using ha
    rw [List.set_append_right _ _ hge, List.take_left' rfl]
    exact List.perm_append_singleton x ps

end Entries

namespace State

variable {s s' : State} {counts : ℕ → ℕ} {a : ℕ}

theorem of_findPin {i : ℕ} (h : s.findPin a = some i) :
    ∃ q, s.pins[i]? = some q ∧ q.blockStart = a := by
  obtain ⟨hi, ha, -⟩ := List.findIdx?_eq_some_iff_getElem.1 h
  exact ⟨s.pins[i], List.getElem?_eq_getElem hi, of_decide_eq_true ha⟩

/-- `find_pin` fails on the starts with no pin. -/
theorem findPin_eq_none_iff (h : Records s.pins counts) : s.findPin a = none ↔ counts a = 0 := by
  rw [findPin, List.findIdx?_eq_none_iff]
  constructor
  · intro hall
    by_contra h0
    have hmem := (h.mem_iff ⟨a, counts a⟩).2 ⟨rfl, Nat.pos_of_ne_zero h0⟩
    simpa using hall _ hmem
  · intro h0 q hq
    rw [decide_eq_false_iff_not]
    rintro rfl
    have := (h.mem_iff q).1 hq
    omega

/-- `turf_rt_pin` in a block counts one more pin of it. -/
theorem exists_pin (hI : s.Inv) (hapart : s.Apart) (h : Records s.pins counts) {p : ℕ} {b : Block}
    (hb : b ∈ s.live) (hin : b.Contains p) :
    ∃ pins, s.pin p = { s with pins := pins } ∧
      Records pins (Function.update counts b.start (counts b.start + 1)) := by
  have hp : p ≠ 0 := by
    have := hI.valid_start b hb
    have := hin.1
    omega
  have hfind := (findContainingAny_eq_some_iff hI hapart).2 ⟨hb, hin⟩
  rcases hpin : s.findPin b.start with _ | i
  · have h0 := (findPin_eq_none_iff h).1 hpin
    refine ⟨s.pins ++ [⟨b.start, 1⟩], by simp [pin, hp, hfind, hpin], ?_⟩
    rw [h0, Nat.zero_add]
    exact (h.cons (q := ⟨b.start, 1⟩) h0 Nat.one_pos).perm
      (List.perm_append_singleton _ _).symm
  · obtain ⟨q, hq, hstart⟩ := of_findPin hpin
    have hcons := h.perm (perm_cons_eraseIdx hq)
    refine ⟨s.pins.modify i fun q => { q with count := q.count + 1 },
      by simp [pin, hp, hfind, hpin], ?_⟩
    rw [← hstart, hcons.head.1]
    exact (hcons.replace (Nat.succ_pos _)).perm
      (modify_perm_cons_eraseIdx (fun q => { q with count := q.count + 1 }) hq).symm

/-- `turf_rt_unpin` in a block with a pin counts one pin less of it. -/
theorem exists_unpin (hI : s.Inv) (hapart : s.Apart) (h : Records s.pins counts) {p : ℕ} {b : Block}
    (hb : b ∈ s.live) (hin : b.Contains p) (hpos : 0 < counts b.start) :
    ∃ pins, s.unpin p = .ok { s with pins := pins } ∧
      Records pins (Function.update counts b.start (counts b.start - 1)) := by
  have hp : p ≠ 0 := by
    have := hI.valid_start b hb
    have := hin.1
    omega
  have hfind := (findContainingAny_eq_some_iff hI hapart).2 ⟨hb, hin⟩
  obtain ⟨i, hpin⟩ : ∃ i, s.findPin b.start = some i := by
    refine Option.ne_none_iff_exists'.1 fun hnone => ?_
    have := (findPin_eq_none_iff h).1 hnone
    omega
  obtain ⟨q, hq, hstart⟩ := of_findPin hpin
  have hcons := h.perm (perm_cons_eraseIdx hq)
  have hq' : (s.pins.modify i fun q => { q with count := q.count - 1 })[i]? =
      some { q with count := q.count - 1 } := by simp [hq]
  unfold unpin
  simp only [hp, if_false, hfind, hpin, hq', Option.any_some, decide_eq_true_eq]
  rw [← hstart, hcons.head.1]
  split_ifs with h0
  · refine ⟨_, rfl, ?_⟩
    rw [h0]
    -- the entries but this one, in another order
    have hperm := (modify_perm_cons_eraseIdx _ hq).symm.trans
      (perm_cons_swapRemove (d := ⟨0, 0⟩) hq')
    exact hcons.tail.perm ((List.perm_cons _).1 hperm)
  · refine ⟨_, rfl, ?_⟩
    exact (hcons.replace (Nat.pos_of_ne_zero h0)).perm
      (modify_perm_cons_eraseIdx (fun q => { q with count := q.count - 1 }) hq).symm

/-- `turf_rt_unpin` in a block without a pin panics. -/
theorem unpin_eq_error (hI : s.Inv) (hapart : s.Apart) (h : Records s.pins counts) {p : ℕ}
    {b : Block} (hb : b ∈ s.live) (hin : b.Contains p) (h0 : counts b.start = 0) :
    s.unpin p = .error unpinPanic := by
  have hp : p ≠ 0 := by
    have := hI.valid_start b hb
    have := hin.1
    omega
  have hfind := (findContainingAny_eq_some_iff hI hapart).2 ⟨hb, hin⟩
  have hpin := (findPin_eq_none_iff h).2 h0
  simp [unpin, hp, hfind, hpin]

/-- Outside the blocks both do nothing. -/
theorem pin_unpin_outside (hI : s.Inv) (hapart : s.Apart) {p : ℕ}
    (hout : ∀ b ∈ s.live, ¬ b.Contains p) : s.pin p = s ∧ s.unpin p = .ok s := by
  have hnone : s.findContainingAny p = none := by
    rcases hfind : s.findContainingAny p with _ | b
    · rfl
    · obtain ⟨hb, hin⟩ := (findContainingAny_eq_some_iff hI hapart).1 hfind
      exact absurd hin (hout b hb)
  unfold pin unpin
  rw [hnone]
  exact ⟨ite_self _, ite_self _⟩

/-! ### The pins of the other operations -/

/-- The operation changes neither the pins, nor the entries of the sorted part but for their flags,
nor what decides when to collect. -/
structure Keeps (s s' : State) : Prop where
  pins : s'.pins = s.pins
  blocks : s'.blocks.map GcBlock.toBlock = s.blocks.map GcBlock.toBlock
  bytesSinceCollect : s'.bytesSinceCollect = s.bytesSinceCollect
  gcThreshold : s'.gcThreshold = s.gcThreshold

theorem pendingRemove_keeps {idx : ℕ} (h : s.pendingRemove idx = some s') : s.Keeps s' := by
  simp only [pendingRemove, Option.bind_eq_bind, Option.bind_eq_some_iff] at h
  obtain ⟨pidx, -, moved, -, h⟩ := h
  obtain rfl := Option.some.inj h
  exact ⟨rfl, rfl, rfl, rfl⟩

theorem registerBlock_keeps {p size : ℕ} {desc : Option TypeDesc}
    (h : s.registerBlock p size desc = some s') : s.Keeps s' := by
  unfold registerBlock at h
  split_ifs at h
  · obtain rfl := Option.some.inj h
    exact ⟨rfl, rfl, rfl, rfl⟩
  · simp only [Option.bind_eq_bind, Option.bind_eq_some_iff] at h
    obtain ⟨pidx, -, h⟩ := h
    obtain rfl := Option.some.inj h
    exact ⟨rfl, rfl, rfl, rfl⟩

theorem unregister_keeps {oldAddr : ℕ} (h : s.unregister oldAddr = some s') : s.Keeps s' := by
  simp only [unregister, Option.bind_eq_bind, Option.bind_eq_some_iff] at h
  obtain ⟨found, -, h⟩ := h
  cases found with
  | some idx => exact pendingRemove_keeps h
  | none =>
    rcases hfind : findExactInBlocks s.blocks oldAddr with _ | idx
    · rw [hfind] at h
      obtain rfl := Option.some.inj h
      exact ⟨rfl, rfl, rfl, rfl⟩
    · rw [hfind] at h
      obtain rfl := Option.some.inj h
      refine ⟨rfl, ?_, rfl, rfl⟩
      exact map_modify_of_eq (g := GcBlock.toBlock) (f := fun b => { b with dead := true })
        (fun _ => rfl) _ _

/-- A pin of the old block goes to the new one. -/
theorem reregisterBlock_keeps {oldAddr newP newSize : ℕ} {desc : Option TypeDesc}
    (h : s.reregisterBlock oldAddr newP newSize desc = some s') :
    s.Keeps { s' with pins := s.pins } ∧
      s'.pins = match (if oldAddr ≠ 0 then s.findPin oldAddr else none) with
        | some i => s.pins.modify i fun p => { p with blockStart := newP }
        | none => s.pins := by
  simp only [reregisterBlock, Option.bind_eq_bind, Option.bind_eq_some_iff] at h
  obtain ⟨s₁, h₁, s₂, h₂, h⟩ := h
  have hkeeps₁ : s.Keeps s₁ := by
    split_ifs at h₁
    · exact unregister_keeps h₁
    · obtain rfl := Option.some.inj h₁
      exact ⟨rfl, rfl, rfl, rfl⟩
  have hkeeps₂ := registerBlock_keeps h₂
  have hpins : s₂.pins = s.pins := hkeeps₂.pins.trans hkeeps₁.pins
  have hrest : s.Keeps { s₂ with pins := s.pins } :=
    ⟨rfl, hkeeps₂.blocks.trans hkeeps₁.blocks,
      hkeeps₂.bytesSinceCollect.trans hkeeps₁.bytesSinceCollect,
      hkeeps₂.gcThreshold.trans hkeeps₁.gcThreshold⟩
  rcases hpin : (if oldAddr ≠ 0 then s.findPin oldAddr else none) with _ | i
  · rw [hpin] at h
    obtain rfl := Option.some.inj h
    exact ⟨hrest, hpins⟩
  · rw [hpin] at h
    obtain rfl := Option.some.inj h
    exact ⟨hrest, congrArg (fun l => l.modify i fun p => { p with blockStart := newP }) hpins⟩

/-- A collection keeps the pins, and leaves no dead entry. -/
theorem collect_pins (hI : s.Inv) {env : Env} {freed : List ℕ}
    (h : s.collect env = some (s', freed)) : s'.pins = s.pins ∧ ∀ e ∈ s'.blocks, e.dead = false := by
  obtain ⟨marked, hmark, -⟩ := hI.exists_mark env
  simp only [collect, hmark, Option.bind_eq_bind, Option.bind_some] at h
  obtain ⟨rfl, -⟩ := Prod.mk.inj (Option.some.inj h)
  refine ⟨hI.rebuilt.pins_eq, fun e he => ?_⟩
  obtain ⟨he, -⟩ := List.mem_filter.1 ((sweep_blocks _) ▸ he)
  obtain ⟨i, b, hb, rfl⟩ := mem_withMarks.1 he
  exact hI.rebuilt.alive hI b (List.mem_of_getElem? hb)

/-- Entries that are all blocks do not overlap. -/
theorem apart_of_alive (hI : s.Inv) (halive : ∀ e ∈ s.blocks, e.dead = false) : s.Apart := by
  intro b hb b' hb'
  obtain ⟨e, he, rfl⟩ := List.mem_map.1 hb
  obtain ⟨e', he', rfl⟩ := List.mem_map.1 hb'
  exact hI.separated _ (mem_live.2 (.inl ⟨e, he, halive e he, rfl⟩)) _
    (mem_live.2 (.inl ⟨e', he', halive e' he', rfl⟩))

end State

end TurfLang.Gc
