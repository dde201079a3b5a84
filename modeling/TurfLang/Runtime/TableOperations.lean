import TurfLang.Runtime.BlockTable

/-!
# What the table's mutators do to the set of live blocks

Registration adds a block, `unregister` takes one out, and a rebuild keeps them all. Each keeps
the invariant, and both lookups agree with the set of live blocks.
-/

namespace TurfLang.Gc

open Probing

/-! ### Lists of blocks -/

section Lists

variable {α : Type}

/-- The last element moved to position `i` leaves the element that was there over. -/
theorem perm_cons_set {l : List α} {i : ℕ} (a : α) (h : i < l.length) :
    (l ++ [a]).Perm (l[i] :: l.set i a) := by
  induction l generalizing i with
  | nil => simp at h
  | cons b l ih =>
    cases i with
    | zero => exact (List.perm_append_singleton a l).cons b
    | succ i => exact ((ih (by simpa using h)).cons b).trans (.swap _ _ _)

/-- A change that makes one element fail a filter takes just that one out. -/
theorem filter_perm_cons_modify {p : α → Bool} {f : α → α} {l : List α} {i : ℕ} {a : α}
    (ha : l[i]? = some a) (hp : p a = true) (hf : p (f a) = false) :
    (l.filter p).Perm (a :: (l.modify i f).filter p) := by
  induction l generalizing i with
  | nil => simp at ha
  | cons b l ih =>
    cases i with
    | zero =>
      obtain rfl : b = a := by simpa using ha
      simp [hp, hf]
    | succ i =>
      have hperm := ih (by simpa using ha)
      rw [List.modify_succ_cons, List.filter_cons, List.filter_cons]
      split_ifs
      · exact (hperm.cons b).trans (.swap _ _ _)
      · exact hperm

theorem countP_modify {p : α → Bool} {f : α → α} {l : List α} {i : ℕ} {a : α}
    (ha : l[i]? = some a) (hp : p a = false) (hf : p (f a) = true) :
    (l.modify i f).countP p = l.countP p + 1 := by
  induction l generalizing i with
  | nil => simp at ha
  | cons b l ih =>
    cases i with
    | zero =>
      obtain rfl : b = a := by simpa using ha
      simp [hp, hf]
    | succ i =>
      rw [List.modify_succ_cons, List.countP_cons, List.countP_cons, ih (by simpa using ha)]
      omega

/-- A change that keeps a field keeps the list of that field. -/
theorem map_modify_of_eq {β : Type} {g : α → β} {f : α → α} (hf : ∀ a, g (f a) = g a) (l : List α)
    (i : ℕ) : (l.modify i f).map g = l.map g := by
  induction l generalizing i with
  | nil => simp
  | cons b l ih => cases i <;> simp [hf, ih]

end Lists

/-! ### Lookups -/

section Lookups

variable {blocks : List GcBlock} {addr : ℕ}

/-- In a sorted table an entry is found by its start. -/
theorem search_eq_some (hsorted : (blocks.map fun b => b.start).Pairwise (· < ·)) {i : ℕ}
    {b : GcBlock} (hb : blocks[i]? = some b) :
    Bisect.search (compareStart blocks b.start) 0 blocks.length = some i := by
  have hi := (List.getElem?_eq_some_iff.1 hb).1
  have hlt : ∀ j k (hj : j < blocks.length) (hk : k < blocks.length), j < k →
      blocks[j].start < blocks[k].start := by
    intro j k hj hk hjk
    have hlen : (blocks.map fun b => b.start).length = blocks.length := List.length_map _
    have := List.pairwise_iff_getElem.1 hsorted j k (hlen ▸ hj) (hlen ▸ hk) hjk
    rwa [List.getElem_map, List.getElem_map] at this
  obtain rfl : blocks[i] = b := (List.getElem?_eq_some_iff.1 hb).2
  refine Bisect.search_eq_some (Nat.zero_le i) hi ?_ (fun j hj => ?_) fun j hj hj' => ?_
  · simp [compareStart, hb]
  · simp only [compareStart, List.getElem?_eq_getElem (hj.trans hi), Nat.compare_eq_lt]
    exact hlt j i _ hi hj
  · simp only [compareStart, List.getElem?_eq_getElem hj', Nat.compare_eq_gt]
    exact hlt i j hi hj' hj

theorem findExactInBlocks_eq_some (hsorted : (blocks.map fun b => b.start).Pairwise (· < ·))
    {i : ℕ} {b : GcBlock} (hb : blocks[i]? = some b) (halive : b.dead = false) :
    findExactInBlocks blocks b.start = some i := by
  simp [findExactInBlocks, search_eq_some hsorted hb, hb, halive]

/-- What is found is alive and starts at the address. -/
theorem of_findExactInBlocks {i : ℕ} (h : findExactInBlocks blocks addr = some i) :
    ∃ b, blocks[i]? = some b ∧ b.start = addr ∧ b.dead = false := by
  rw [findExactInBlocks, Option.bind_eq_bind, Option.bind_eq_some_iff] at h
  obtain ⟨mid, hmid, h⟩ := h
  obtain ⟨b, hb, h⟩ := Option.bind_eq_some_iff.1 h
  split_ifs at h with hdead
  obtain rfl : mid = i := by simpa using h
  have heq := (Bisect.of_search hmid).2.2
  simp only [compareStart, hb, Nat.compare_eq_eq] at heq
  exact ⟨b, hb, heq, by simpa using hdead⟩

end Lookups

namespace State

variable {s : State}

/-- A region `malloc` may return: at least one byte, none of it in a live block. -/
def Fresh (s : State) (p size : ℕ) : Prop :=
  ∀ b ∈ s.live, p + max size 1 ≤ b.start ∨ b.start + max b.size 1 ≤ p

namespace Inv

theorem pendingStarts_nodup (hI : s.Inv) : s.pendingStarts.Nodup := by
  have := hI.live_nodup
  rw [live, List.map_append, List.nodup_append, List.map_map, List.map_map] at this
  exact this.2.1

/-- No pending block starts at the mark of the deleted slots. -/
theorem deletedKey_not_mem (hI : s.Inv) : Pidx.deletedKey ∉ s.pendingStarts := by
  intro hmem
  obtain ⟨e, he, hstart⟩ := List.mem_map.1 hmem
  have hlt := hI.valid_start _ (mem_live.2 (.inr ⟨e, he, rfl⟩))
  rw [hstart] at hlt
  exact absurd hlt (lt_irrefl _)

/-- A live block is determined by its start. -/
theorem eq_of_start_eq (hI : s.Inv) {b b' : Block} (hb : b ∈ s.live) (hb' : b' ∈ s.live)
    (h : b.start = b'.start) : b = b' :=
  List.inj_on_of_nodup_map hI.live_nodup hb hb' h

/-- No pending block starts where a block of the sorted part does. -/
theorem start_ne (hI : s.Inv) {e e' : GcBlock} (he : e ∈ s.blocks) (halive : e.dead = false)
    (he' : e' ∈ s.pending) : e.start ≠ e'.start := by
  have hnodup := hI.live_nodup
  rw [live, List.map_append, List.nodup_append] at hnodup
  refine hnodup.2.2 _ (List.mem_map_of_mem ?_) _ (List.mem_map_of_mem (List.mem_map_of_mem he'))
  exact List.mem_map_of_mem (List.mem_filter.2 ⟨he, by simp [halive]⟩)

/-- A pending block is found at its index. -/
theorem findExactInPending_eq_some (hI : s.Inv) {i : ℕ} {b : GcBlock} (hb : s.pending[i]? = some b) :
    s.findExactInPending b.start = some (some i) := by
  have hkey : b.start ≠ Pidx.deletedKey := by
    have hmem : b.start ∈ s.pendingStarts := List.mem_map.2 ⟨b, List.mem_of_getElem? hb, rfl⟩
    exact fun h => hI.deletedKey_not_mem (h ▸ hmem)
  obtain ⟨r, hr, hcell⟩ := hI.pidx.exists_slot hI.pendingStarts_nodup (i := i) (a := b.start)
    (by simp [pendingStarts, hb]) hkey
  simp [findExactInPending, Pidx.find, hr, Pidx.val, hcell]

/-- Any other address is not found, but for the mark of the deleted slots. -/
theorem findExactInPending_eq_none (hI : s.Inv) {a : ℕ} (ha : a ∉ s.pendingStarts)
    (hkey : a ≠ Pidx.deletedKey) : s.findExactInPending a = some none := by
  simp [findExactInPending, Pidx.find, hI.pidx.slot_eq_none ha hkey]

/-! ### Registration -/

/-- Appending a block that overlaps no live one to the pending ones. -/
theorem append (hI : s.Inv) {t : State} {e : GcBlock} (hblocks : t.blocks = s.blocks)
    (hpending : t.pending = s.pending ++ [e]) (hdead : t.deadCount = s.deadCount)
    (hpidx : t.pidx.Inv t.pendingStarts) (halive : e.dead = false) (hstart : 1 < e.start)
    (hfresh : s.Fresh e.start e.size) : t.Inv ∧ t.live = s.live ++ [e.toBlock] := by
  have hlive : t.live = s.live ++ [e.toBlock] := by
    rw [live, live, hblocks, hpending, List.map_append, ← List.append_assoc]
    rfl
  refine ⟨⟨?_, hblocks ▸ hI.sorted, ?_, ?_, ?_, hpidx, by rw [hblocks, hdead, hI.dead_count]⟩, hlive⟩
  · intro b hb
    rw [hlive] at hb
    rcases List.mem_append.1 hb with hb | hb
    · exact hI.valid_start b hb
    · rw [List.mem_singleton.1 hb]
      exact hstart
  · intro b hb
    rw [hpending] at hb
    rcases List.mem_append.1 hb with hb | hb
    · exact hI.pending_alive b hb
    · rw [List.mem_singleton.1 hb]
      exact halive
  · rw [hlive, List.map_append]
    refine List.nodup_append.2 ⟨hI.live_nodup, by simp, ?_⟩
    intro a ha b hb
    obtain ⟨c, hc, rfl⟩ := List.mem_map.1 ha
    obtain rfl : b = e.start := by simpa using hb
    rcases hfresh c hc with h | h <;> omega
  · rw [hlive]
    intro b hb b' hb' hlt
    rcases List.mem_append.1 hb with hb | hb <;> rcases List.mem_append.1 hb' with hb' | hb'
    · exact hI.separated b hb b' hb' hlt
    · obtain rfl := List.mem_singleton.1 hb'
      have := hfresh b hb
      omega
    · obtain rfl := List.mem_singleton.1 hb
      have := hfresh b' hb'
      omega
    · obtain rfl := List.mem_singleton.1 hb
      obtain rfl := List.mem_singleton.1 hb'
      exact absurd hlt (lt_irrefl _)

/-- `turf_gc_register_block` adds a block. -/
theorem exists_registerBlock (hI : s.Inv) {p size : ℕ} (hp : 1 < p) (hfresh : s.Fresh p size)
    (desc : Option TypeDesc) :
    ∃ s', s.registerBlock p size desc = some s' ∧ s'.Inv ∧
      s'.live = s.live ++ [⟨p, size, desc⟩] ∧ s'.pins = s.pins := by
  obtain ⟨x, hx, hIx⟩ := hI.pidx.exists_insertLast p
  have hstarts : (s.pending ++ [(⟨⟨p, size, desc⟩, false, false⟩ : GcBlock)]).map (fun b => b.start)
      = s.pendingStarts ++ [p] := by simp [pendingStarts]
  obtain ⟨hI', hlive⟩ := hI.append
    (t := { s with pending := s.pending ++ [⟨⟨p, size, desc⟩, false, false⟩], pidx := x })
    rfl rfl rfl (by rw [pendingStarts, hstarts]; exact hIx) rfl hp hfresh
  refine ⟨_, ?_, hI', hlive, rfl⟩
  simp only [registerBlock, if_neg (by omega : p ≠ 0)]
  rw [hstarts, hx]
  rfl

/-! ### Unregistration -/

/-- The parts of the invariant that speak of the live blocks, when one is taken out. -/
theorem live_of_perm_cons (hI : s.Inv) {s' : State} {b : Block} (h : s.live.Perm (b :: s'.live)) :
    (∀ c ∈ s'.live, 1 < c.start) ∧ (s'.live.map Block.start).Nodup ∧
      (∀ c ∈ s'.live, ∀ c' ∈ s'.live, c.start < c'.start → c.start + max c.size 1 ≤ c'.start) ∧
      ∀ c, c ∈ s'.live ↔ c ∈ s.live ∧ c.start ≠ b.start := by
  have hnodup := (h.map Block.start).nodup_iff.1 hI.live_nodup
  rw [List.map_cons, List.nodup_cons] at hnodup
  refine ⟨fun c hc => ?_, hnodup.2, fun c hc c' hc' => ?_,
    fun c => ⟨fun hc => ⟨?_, fun heq => ?_⟩, ?_⟩⟩
  · exact hI.valid_start c (h.mem_iff.2 (List.mem_cons_of_mem _ hc))
  · exact hI.separated c (h.mem_iff.2 (List.mem_cons_of_mem _ hc)) c'
      (h.mem_iff.2 (List.mem_cons_of_mem _ hc'))
  · exact h.mem_iff.2 (List.mem_cons_of_mem _ hc)
  · exact hnodup.1 (List.mem_map.2 ⟨c, hc, heq⟩)
  · rintro ⟨hc, hne⟩
    rcases List.mem_cons.1 (h.mem_iff.1 hc) with rfl | hc
    · exact absurd rfl hne
    · exact hc

/-- `pending_remove` takes a pending block out. -/
theorem exists_pendingRemove (hI : s.Inv) {idx : ℕ} {b : GcBlock} (hb : s.pending[idx]? = some b) :
    ∃ s', s.pendingRemove idx = some s' ∧ s'.Inv ∧ s.live.Perm (b.toBlock :: s'.live) ∧
      s'.pins = s.pins := by
  obtain ⟨ps, l, hps⟩ : ∃ ps l, s.pending = ps ++ [l] :=
    (List.eq_nil_or_concat' s.pending).resolve_left fun h0 => by simp [h0] at hb
  have hstarts : s.pendingStarts = ps.map (fun b => b.start) ++ [l.start] := by
    simp [pendingStarts, hps]
  have hnodup := hI.pendingStarts_nodup
  have hkeys := hI.deletedKey_not_mem
  have hIx := hI.pidx
  rw [hstarts] at hnodup hkeys hIx
  have hidx := (List.getElem?_eq_some_iff.1 hb).1
  simp only [hps, List.length_append, List.length_singleton] at hidx
  have hlast : s.pending[s.pending.length - 1]? = some l := by simp [hps]
  -- both cases leave `ps` with `l` in the place of the removed block, if that was another
  suffices ∃ x qs, s.pidx.remove s.pendingStarts idx = some x ∧
      (if idx ≠ s.pending.length - 1 then (s.pending.set idx l).take (s.pending.length - 1)
        else s.pending.take (s.pending.length - 1)) = qs ∧
      s.pending.Perm (b :: qs) ∧ x.Inv (qs.map fun b => b.start) by
    obtain ⟨x, qs, hx, hqs, hperm, hIx'⟩ := this
    have hlive : s.live.Perm (b.toBlock :: ({ s with pending := qs, pidx := x } : State).live) :=
      ((hperm.map GcBlock.toBlock).append_left _).trans List.perm_middle
    obtain ⟨hvalid, hn, hsep, -⟩ := hI.live_of_perm_cons hlive
    refine ⟨{ s with pending := qs, pidx := x }, ?_, ⟨hvalid, hI.sorted, fun c hc => ?_, hn, hsep,
      hIx', hI.dead_count⟩, hlive, rfl⟩
    · simp only [pendingRemove, hx, hlast, Option.bind_eq_bind, Option.bind_some, hqs]
      rfl
    · exact hI.pending_alive c (hperm.mem_iff.2 (List.mem_cons_of_mem _ hc))
  rcases Nat.lt_or_ge idx ps.length with hlt | hge
  · obtain ⟨x, hx, hIx'⟩ := hIx.exists_remove_swap hnodup hkeys
      (show idx < (ps.map fun b => b.start).length by simpa using hlt)
    have hbi : ps[idx] = b := by
      rw [hps, List.getElem?_append_left hlt, List.getElem?_eq_getElem hlt] at hb
      simpa using hb
    refine ⟨x, ps.set idx l, hstarts ▸ hx, ?_, ?_, by rwa [List.map_set]⟩
    · rw [if_pos (by simp [hps]; omega), hps, List.set_append_left _ _ hlt, List.take_left' (by simp)]
    · rw [hps, ← hbi]
      exact perm_cons_set l hlt
  · obtain rfl : idx = ps.length := by omega
    obtain ⟨x, hx, hIx'⟩ := hIx.exists_remove_last hnodup hkeys
    obtain rfl : l = b := by simpa [hps] using hb
    refine ⟨x, ps, by simpa [hstarts] using hx, ?_, ?_, hIx'⟩
    · simp [hps]
    · rw [hps]
      exact List.perm_append_singleton l ps

/-- Marking an entry of the sorted table dead takes its block out. -/
theorem markDead_inv (hI : s.Inv) {idx : ℕ} {b : GcBlock} (hb : s.blocks[idx]? = some b)
    (halive : b.dead = false) {s' : State}
    (hs' : s' = { s with blocks := s.blocks.modify idx fun b => { b with dead := true }
                         deadCount := s.deadCount + 1 }) :
    s'.Inv ∧ s.live.Perm (b.toBlock :: s'.live) := by
  subst hs'
  have hperm := (filter_perm_cons_modify (p := fun b => !b.dead)
    (f := fun b => { b with dead := true }) hb (by simp [halive]) (by simp))
  have hlive : s.live.Perm (b.toBlock :: ({ s with
      blocks := s.blocks.modify idx fun b => { b with dead := true }
      deadCount := s.deadCount + 1 } : State).live) :=
    (hperm.map GcBlock.toBlock).append_right _
  obtain ⟨hvalid, hn, hsep, -⟩ := hI.live_of_perm_cons hlive
  refine ⟨⟨hvalid, ?_, hI.pending_alive, hn, hsep, hI.pidx, ?_⟩, hlive⟩
  · have hstarts := map_modify_of_eq (g := fun b : GcBlock => b.start)
      (f := fun b => { b with dead := true }) (fun _ => rfl) s.blocks idx
    exact hstarts ▸ hI.sorted
  · rw [countP_modify hb halive rfl, hI.dead_count]

/-- The old block's entry is taken out, if there is one. -/
theorem exists_unregister (hI : s.Inv) {oldAddr : ℕ} (hkey : oldAddr ≠ Pidx.deletedKey) :
    ∃ s', s.unregister oldAddr = some s' ∧ s'.Inv ∧ s'.pins = s.pins ∧
      ∀ b, b ∈ s'.live ↔ b ∈ s.live ∧ b.start ≠ oldAddr := by
  by_cases hpend : oldAddr ∈ s.pendingStarts
  · obtain ⟨b, hb, rfl⟩ := List.mem_map.1 hpend
    obtain ⟨idx, hidx⟩ := List.getElem?_of_mem hb
    obtain ⟨s', hrun, hI', hperm, hpins⟩ := hI.exists_pendingRemove hidx
    refine ⟨s', ?_, hI', hpins, (hI.live_of_perm_cons hperm).2.2.2⟩
    simp [unregister, hI.findExactInPending_eq_some hidx, hrun]
  · have hnone := hI.findExactInPending_eq_none hpend hkey
    cases hfind : findExactInBlocks s.blocks oldAddr with
    | some idx =>
      obtain ⟨b, hb, rfl, halive⟩ := of_findExactInBlocks hfind
      obtain ⟨hI', hperm⟩ := hI.markDead_inv hb halive rfl
      exact ⟨_, by simp [unregister, hnone, hfind], hI', rfl, (hI.live_of_perm_cons hperm).2.2.2⟩
    | none =>
      refine ⟨s, by simp [unregister, hnone, hfind], hI, rfl, fun b => (and_iff_left_of_imp ?_).symm⟩
      rintro hb rfl
      rcases mem_live.1 hb with ⟨e, he, halive, rfl⟩ | ⟨e, he, rfl⟩
      · obtain ⟨i, hi⟩ := List.getElem?_of_mem he
        rw [findExactInBlocks_eq_some hI.sorted hi halive] at hfind
        cases hfind
      · exact hpend (List.mem_map.2 ⟨e, he, rfl⟩)

/-- `turf_gc_reregister_block` replaces the old block, if there is one, by the new one, which
may overlap the old one. -/
theorem exists_reregisterBlock (hI : s.Inv) {oldAddr newP newSize : ℕ}
    (hkey : oldAddr ≠ Pidx.deletedKey) (hp : 1 < newP)
    (hfresh : ∀ b ∈ s.live, b.start ≠ oldAddr →
      newP + max newSize 1 ≤ b.start ∨ b.start + max b.size 1 ≤ newP) (desc : Option TypeDesc) :
    ∃ s', s.reregisterBlock oldAddr newP newSize desc = some s' ∧ s'.Inv ∧
      ∀ b, b ∈ s'.live ↔ (b ∈ s.live ∧ b.start ≠ oldAddr) ∨ b = ⟨newP, newSize, desc⟩ := by
  obtain ⟨s₁, h₁, hI₁, hlive₁⟩ : ∃ s₁, (if oldAddr ≠ 0 then s.unregister oldAddr else some s) =
      some s₁ ∧ s₁.Inv ∧ ∀ b, b ∈ s₁.live ↔ b ∈ s.live ∧ b.start ≠ oldAddr := by
    by_cases hold : oldAddr = 0
    · refine ⟨s, by simp [hold], hI, fun b => (and_iff_left_of_imp fun hb => ?_).symm⟩
      have := hI.valid_start b hb
      omega
    · obtain ⟨s₁, h₁, hI₁, -, hlive₁⟩ := hI.exists_unregister hkey
      exact ⟨s₁, by simp [hold, h₁], hI₁, hlive₁⟩
  have hfresh₁ : s₁.Fresh newP newSize := fun b hb =>
    hfresh b ((hlive₁ b).1 hb).1 ((hlive₁ b).1 hb).2
  obtain ⟨s₂, h₂, hI₂, hlive₂, -⟩ := hI₁.exists_registerBlock hp hfresh₁ desc
  have hmem : ∀ b, b ∈ s₂.live ↔ (b ∈ s.live ∧ b.start ≠ oldAddr) ∨ b = ⟨newP, newSize, desc⟩ := by
    intro b
    rw [hlive₂, List.mem_append, hlive₁, List.mem_singleton]
  simp only [reregisterBlock, h₁, h₂, Option.bind_eq_bind, Option.bind_some]
  -- the pins are in no part of the invariant
  cases (if oldAddr ≠ 0 then s.findPin oldAddr else none) with
  | none => exact ⟨s₂, rfl, hI₂, hmem⟩
  | some i => exact ⟨_, rfl, hI₂.congr rfl rfl rfl rfl, hmem⟩

end Inv

/-! ### The rebuild -/

/-- The entries of the table that are blocks. -/
theorem live_eq_map (s : State) :
    s.live = (s.blocks.filter (fun b => !b.dead) ++ s.pending).map GcBlock.toBlock :=
  List.map_append.symm

/-- What `gc_rebuild_index` leaves: the blocks of both parts, sorted by start. -/
structure Rebuilt (s s' : State) : Prop where
  perm : s'.blocks.Perm (s.blocks.filter (fun b => !b.dead) ++ s.pending)
  sorted : (s'.blocks.map fun b => b.start).Pairwise (· < ·)
  pending : s'.pending = []
  pidx : s'.pidx.Inv []
  deadCount : s'.deadCount = 0
  roots_eq : s'.roots = s.roots
  pins_eq : s'.pins = s.pins

/-- Sorting by start a list of blocks whose starts differ. -/
theorem pairwise_lt_mergeSort {l : List GcBlock} (hnodup : (l.map fun b => b.start).Nodup) :
    ((l.mergeSort fun a b => a.start ≤ b.start).map fun b => b.start).Pairwise (· < ·) := by
  have hle : (l.mergeSort fun a b => a.start ≤ b.start).Pairwise fun a b => a.start ≤ b.start := by
    have htrans : ∀ a b c : GcBlock, decide (a.start ≤ b.start) = true →
        decide (b.start ≤ c.start) = true → decide (a.start ≤ c.start) = true := by
      simp only [decide_eq_true_eq]
      omega
    have htotal : ∀ a b : GcBlock,
        (decide (a.start ≤ b.start) || decide (b.start ≤ a.start)) = true := by
      simp only [Bool.or_eq_true, decide_eq_true_eq]
      omega
    simpa using List.pairwise_mergeSort htrans htotal l
  have hne : ((l.mergeSort fun a b => a.start ≤ b.start).map fun b => b.start).Nodup :=
    (((List.mergeSort_perm l _).map _).nodup_iff).2 hnodup
  rw [List.pairwise_map]
  exact hle.imp₂ (fun a b h₁ h₂ => lt_of_le_of_ne h₁ h₂) (List.pairwise_map.1 hne)

theorem Inv.rebuilt (hI : s.Inv) : s.Rebuilt s.rebuildIndex := by
  have hnodup : ((s.blocks.filter (fun b => !b.dead) ++ s.pending).map fun b => b.start).Nodup := by
    have := hI.live_nodup
    rwa [live_eq_map, List.map_map] at this
  -- without dead entries there is nothing to drop
  have hkept : (if s.deadCount ≠ 0 then
      { s with blocks := s.blocks.filter (fun b => !b.dead), deadCount := 0 } else s) =
      { s with blocks := s.blocks.filter (fun b => !b.dead), deadCount := 0 } := by
    split_ifs with h0
    · rfl
    · rw [not_not] at h0
      have hall : s.blocks.filter (fun b => !b.dead) = s.blocks :=
        List.filter_eq_self.2 fun b hb => by
          simpa using List.countP_eq_zero.1 (hI.dead_count.trans h0) b hb
      rw [hall, ← h0]
  rw [rebuildIndex, hkept]
  by_cases hpend : s.pending = []
  · rw [if_pos (by simp [hpend])]
    refine ⟨by simp [hpend], ?_, hpend, ?_, rfl, rfl, rfl⟩
    · exact hI.sorted.sublist (List.filter_sublist.map _)
    · have := hI.pidx
      rwa [pendingStarts, hpend] at this
  · rw [if_neg (by simpa using hpend)]
    exact ⟨List.mergeSort_perm _ _, pairwise_lt_mergeSort hnodup, rfl,
      Pidx.replicate_inv hI.pidx.cap_pow, rfl, rfl, rfl⟩

namespace Rebuilt

variable {s' : State}

theorem alive (hI : s.Inv) (h : s.Rebuilt s') : ∀ b ∈ s'.blocks, b.dead = false := by
  intro b hb
  rcases List.mem_append.1 (h.perm.mem_iff.1 hb) with hb | hb
  · simpa using (List.mem_filter.1 hb).2
  · exact hI.pending_alive b hb

theorem live_eq (hI : s.Inv) (h : s.Rebuilt s') : s'.live = s'.blocks.map GcBlock.toBlock := by
  have hall : s'.blocks.filter (fun b => !b.dead) = s'.blocks :=
    List.filter_eq_self.2 fun b hb => by simp [h.alive hI b hb]
  rw [live_eq_map, h.pending, List.append_nil, hall]

/-- A rebuild keeps every block. -/
theorem live_perm (hI : s.Inv) (h : s.Rebuilt s') : s'.live.Perm s.live := by
  rw [h.live_eq hI, live_eq_map]
  exact h.perm.map _

theorem inv (hI : s.Inv) (h : s.Rebuilt s') : s'.Inv where
  valid_start b hb := hI.valid_start b ((h.live_perm hI).mem_iff.1 hb)
  sorted := h.sorted
  pending_alive b hb := by simp [h.pending] at hb
  live_nodup := (((h.live_perm hI).map _).nodup_iff).2 hI.live_nodup
  separated b hb b' hb' := hI.separated b ((h.live_perm hI).mem_iff.1 hb) b'
    ((h.live_perm hI).mem_iff.1 hb')
  pidx := by simpa [pendingStarts, h.pending] using h.pidx
  dead_count := by
    rw [h.deadCount, List.countP_eq_zero]
    exact fun b hb => by simp [h.alive hI b hb]

end Rebuilt

end State

end TurfLang.Gc
