import TurfLang.Runtime.PendingIndex

/-!
# `turfrt_gc.c`: what the index of pending blocks answers

The index under any sequence of registrations, removals, rebuilds and clears. A search for a start
address answers with its place among the pending blocks. A search for the key that marks deleted
slots may answer with what such a slot held.
-/

namespace TurfLang.Gc

open Probing

/-! ### Runs -/

/-- The pending blocks, by their starts, and their index. -/
structure Pending where
  index : Pidx
  starts : List ℕ

namespace Pending

/-- Before the first registration. -/
def empty : Pending := ⟨Pidx.empty, []⟩

/-- The calls that change the index. -/
inductive Op
  | register (addr : ℕ)
  | remove (idx : ℕ)
  | rebuild
  | clear

/-- One call; `none` is a probe loop that does not end. The index is cleared when the pending blocks
are merged into the sorted ones. -/
def step (p : Pending) : Op → Option Pending
  | .register addr => do
    let starts := p.starts ++ [addr]
    let index ← p.index.insertLast starts
    return ⟨index, starts⟩
  | .remove idx => do
    let index ← p.index.remove p.starts idx
    let last := p.starts.length - 1
    let moved ← p.starts[last]?
    return ⟨index, if idx ≠ last then (p.starts.set idx moved).take last else p.starts.take last⟩
  | .rebuild => do
    let index ← Pidx.rebuild p.starts
    return ⟨index, p.starts⟩
  | .clear => some ⟨p.index.clear, []⟩

/-- A block is registered at an address that no pending one has and that marks no slot, and one that
is pending is removed. -/
def Permits (p : Pending) : Op → Prop
  | .register addr => 1 < addr ∧ addr ∉ p.starts
  | .remove idx => idx < p.starts.length
  | _ => True

/-- The states that calls lead to. -/
inductive Reachable : Pending → Prop
  | empty : Reachable empty
  | step {p p' : Pending} {op : Op} :
      Reachable p → p.Permits op → p.step op = some p' → Reachable p'

/-! ### What the index promises -/

/-- A search for the address answers with its place among the pending blocks. -/
def Finds (p : Pending) (addr : ℕ) : Prop :=
  ∀ i, p.index.find addr = some (some i) ↔ p.starts[i]? = some addr

/-- The counts are true, the loops end, and no key stands in two slots. -/
structure Sound (p : Pending) : Prop where
  used_eq : p.index.used = p.index.cells.countP fun c => decide (c ≠ .empty)
  room : p.index.cap ≠ 0 → Cell.empty ∈ p.index.cells
  place_ends : p.index.cap ≠ 0 → ∀ addr i, ∃ x, p.index.place addr i = some x
  slot_ends : ∀ addr, ∃ s, p.index.slot addr = some s
  one_key : ∀ {s s' addr i i' : ℕ}, p.index.cells[s]? = some (.full (addr, i)) →
    p.index.cells[s']? = some (.full (addr, i')) → s = s'
  step_ends : ∀ op, p.Permits op → ∃ p', p.step op = some p'

/-- A deleted slot stands where a search for the mark of deleted slots comes by. -/
def MarkOnPath (x : Pidx) : Prop :=
  ∃ t, OnPath x.cells (x.home Pidx.deletedKey) t ∧ x.cells[t]? = some .tomb

/-! ### The invariant -/

/-- The invariant of the index, and the starts it rests on. -/
structure Inv (p : Pending) : Prop where
  index : p.index.Inv p.starts
  nodup : p.starts.Nodup
  valid : ∀ addr ∈ p.starts, 1 < addr

namespace Inv

variable {p : Pending}

theorem not_mem_deletedKey (hI : p.Inv) : Pidx.deletedKey ∉ p.starts := fun h =>
  lt_irrefl _ (hI.valid _ h)

theorem register (hI : p.Inv) {addr : ℕ} (hvalid : 1 < addr) (hnew : addr ∉ p.starts) :
    ∃ p', p.step (.register addr) = some p' ∧ p'.Inv := by
  obtain ⟨x, hx, hinv⟩ := hI.index.exists_insertLast addr
  refine ⟨⟨x, p.starts ++ [addr]⟩, by simp [step, hx], hinv, ?_, ?_⟩
  · rw [List.nodup_append]
    exact ⟨hI.nodup, List.nodup_singleton _, fun a ha b hb hab =>
      hnew (List.mem_singleton.mp hb ▸ hab ▸ ha)⟩
  · intro a ha
    rw [List.mem_append, List.mem_singleton] at ha
    obtain ha | rfl := ha
    · exact hI.valid a ha
    · exact hvalid

theorem remove (hI : p.Inv) {idx : ℕ} (hidx : idx < p.starts.length) :
    ∃ p', p.step (.remove idx) = some p' ∧ p'.Inv := by
  obtain ⟨ss, l, hstarts⟩ : ∃ ss l, p.starts = ss ++ [l] :=
    ⟨_, _, (List.dropLast_append_getLast (List.ne_nil_of_length_pos (by omega))).symm⟩
  have hindex := hI.index
  have hnodup := hI.nodup
  have hvalid := hI.valid
  have hmark := hI.not_mem_deletedKey
  rw [hstarts] at hindex hnodup hvalid hmark
  have hss : ss.Nodup := hnodup.of_append_left
  simp only [step, hstarts, List.length_append, List.length_singleton, Nat.add_sub_cancel,
    List.getElem?_concat_length]
  obtain rfl | hne := eq_or_ne idx ss.length
  · obtain ⟨x, hx, hinv⟩ := hindex.exists_remove_last hnodup hmark
    refine ⟨⟨x, ss⟩, by simp [hx], hinv, hss, fun a ha => hvalid a (List.mem_append_left _ ha)⟩
  · have hlt : idx < ss.length := by
      rw [hstarts, List.length_append, List.length_singleton] at hidx
      omega
    obtain ⟨x, hx, hinv⟩ := hindex.exists_remove_swap hnodup hmark hlt
    refine ⟨⟨x, ss.set idx l⟩, ?_, hinv, ?_, ?_⟩
    · simp [hx, hne, List.set_append_left _ _ hlt]
    · exact hss.set fun hl => (List.nodup_append.mp hnodup).2.2 l hl l (List.mem_singleton_self l) rfl
    · intro a ha
      obtain ha | rfl := List.mem_or_eq_of_mem_set ha
      · exact hvalid a (List.mem_append_left _ ha)
      · exact hvalid a (by simp)

/-- Every call that is permitted ends, and keeps the invariant. -/
theorem step (hI : p.Inv) {op : Op} (hop : p.Permits op) : ∃ p', p.step op = some p' ∧ p'.Inv := by
  cases op with
  | register addr => exact hI.register hop.1 hop.2
  | remove idx => exact hI.remove hop
  | rebuild =>
    obtain ⟨x, hx, hinv⟩ := Pidx.exists_rebuild p.starts
    exact ⟨⟨x, p.starts⟩, by simp [Pending.step, hx], hinv, hI.nodup, hI.valid⟩
  | clear =>
    exact ⟨_, rfl, Pidx.replicate_inv hI.index.cap_pow, List.nodup_nil, fun a ha => by cases ha⟩

theorem of_reachable (h : Reachable p) : p.Inv := by
  induction h with
  | empty =>
    exact ⟨Pidx.replicate_inv fun h => absurd rfl h, List.nodup_nil, fun a ha => by cases ha⟩
  | step _ hop hstep ih =>
    obtain ⟨p', hp', hinv⟩ := ih.step hop
    rwa [Option.some.inj (hp'.symm.trans hstep)] at hinv

end Inv

/-! ### The search for the mark of deleted slots -/

section

variable {x : Pidx} {starts : List ℕ} (hI : x.Inv starts) (hmark : Pidx.deletedKey ∉ starts)

include hI hmark

/-- The search for the mark ends at the first deleted slot on its way, if there is one before an
empty slot. -/
theorem slot_deletedKey (h0 : x.cap ≠ 0) : ∃ r, x.slot Pidx.deletedKey = some r ∧
    (∀ t, r = some t → OnPath x.cells (x.home Pidx.deletedKey) t ∧ x.cells[t]? = some .tomb) ∧
    (r = none → ¬ MarkOnPath x) := by
  have hpow := hI.cap_pow h0
  have hhome := Pidx.home_lt hpow Pidx.deletedKey
  obtain ⟨e, he, hcell⟩ := List.getElem_of_mem (hI.empty_mem h0)
  obtain ⟨j, hj, hje⟩ := exists_path_eq hhome he
  set home := x.home Pidx.deletedKey with hdef
  rw [Pidx.slot, if_neg h0, ← hdef]
  -- from the `i`-th probe on: every slot before it holds a block
  suffices ∀ k i, i + k = x.cells.length → i ≤ j →
      (∀ i' < i, ∃ b, x.cells[path x.cells.length home i']? = some (.full b)) →
      ∃ r, x.slotLoop Pidx.deletedKey k (path x.cells.length home i) = some r ∧
        (∀ t, r = some t → OnPath x.cells home t ∧ x.cells[t]? = some .tomb) ∧
        (r = none → ¬ MarkOnPath x) by
    have h := this x.cells.length 0 (by omega) (by omega) (by omega)
    rwa [path_zero hhome] at h
  intro k
  induction k with
  | zero => intro i hi hij; omega
  | succ k ih =>
    intro i hi hij hbefore
    have hlt : path x.cells.length home i < x.cells.length := path_lt (by omega) _ _
    rw [Pidx.slotLoop]
    cases hc : x.cells[path x.cells.length home i]? with
    | none => exact absurd (List.getElem?_eq_none_iff.1 hc) (by omega)
    | some c =>
      cases c with
      | empty =>
        refine ⟨none, rfl, by simp, fun _ => ?_⟩
        rintro ⟨_, ⟨i', hi', rfl, hpath⟩, htomb⟩
        obtain hlt | rfl | hgt := Nat.lt_trichotomy i' i
        · obtain ⟨b, hb⟩ := hbefore i' hlt
          cases htomb.symm.trans hb
        · cases htomb.symm.trans hc
        · exact hpath i hgt hc
      | tomb =>
        refine ⟨some (path x.cells.length home i), by simp, ?_, fun h => by cases h⟩
        intro t ht
        obtain rfl := Option.some.inj ht
        refine ⟨⟨i, by omega, rfl, fun i' hi' => ?_⟩, hc⟩
        obtain ⟨b, hb⟩ := hbefore i' hi'
        simp [hb]
      | full b =>
        have hkey : b.1 ≠ Pidx.deletedKey := fun h =>
          hmark (h ▸ List.mem_of_getElem? (hI.key_eq hc))
        have hij' : i + 1 ≤ j := by
          rcases Nat.lt_or_eq_of_le hij with h | rfl
          · exact h
          · rw [hje, List.getElem?_eq_getElem he, hcell] at hc
            cases hc
        simp only [if_neg hkey]
        rw [Pidx.next_eq hpow, ← path_succ]
        refine ih (i + 1) (by omega) hij' fun i' hi' => ?_
        rcases Nat.lt_succ_iff_lt_or_eq.1 hi' with h | rfl
        · exact hbefore i' h
        · exact ⟨b, hc⟩

/-- The search for the mark finds nothing, as it should, if it comes by no deleted slot. -/
theorem find_deletedKey_iff :
    (∀ i, x.find Pidx.deletedKey ≠ some (some i)) ↔ ¬ MarkOnPath x := by
  by_cases h0 : x.cap = 0
  · have hcells : x.cells = [] := List.eq_nil_of_length_eq_zero h0
    refine iff_of_true (fun i => by simp [Pidx.find, Pidx.slot, h0]) ?_
    rintro ⟨t, -, ht⟩
    simp [hcells] at ht
  · obtain ⟨r, hslot, hsome, hnone⟩ := slot_deletedKey hI hmark h0
    cases r with
    | none =>
      exact iff_of_true (fun i => by simp [Pidx.find, hslot]) (hnone rfl)
    | some t =>
      obtain ⟨hon, ht⟩ := hsome t rfl
      refine iff_of_false (fun h => h (x.stale t) ?_) (not_not.mpr ⟨t, hon, ht⟩)
      simp [Pidx.find, hslot, Pidx.val, ht]

end

/-! ### The answers -/

namespace Inv

variable {p : Pending} (hI : p.Inv)

include hI

/-- The address of any block, and any address that marks nothing, is searched for rightly. -/
theorem finds {addr : ℕ} (haddr : addr ≠ Pidx.deletedKey) : p.Finds addr := by
  intro i
  constructor
  · intro hfind
    by_contra hne
    by_cases hmem : addr ∈ p.starts
    · obtain ⟨i', hi'⟩ := List.getElem?_of_mem hmem
      obtain ⟨s, hs, hcell⟩ := hI.index.exists_slot hI.nodup hi' haddr
      simp [Pidx.find, hs, Pidx.val, hcell] at hfind
      exact hne (hfind ▸ hi')
    · simp [Pidx.find, hI.index.slot_eq_none hmem haddr] at hfind
  · intro hi
    obtain ⟨s, hs, hcell⟩ := hI.index.exists_slot hI.nodup hi haddr
    simp [Pidx.find, hs, Pidx.val, hcell]

theorem finds_iff (addr : ℕ) :
    p.Finds addr ↔ (addr = Pidx.deletedKey → ¬ MarkOnPath p.index) := by
  by_cases haddr : addr = Pidx.deletedKey
  · subst haddr
    have habsent : ∀ i, p.starts[i]? ≠ some Pidx.deletedKey := fun i hi =>
      hI.not_mem_deletedKey (List.mem_of_getElem? hi)
    rw [← find_deletedKey_iff hI.index hI.not_mem_deletedKey]
    exact ⟨fun h _ i hi => habsent i ((h i).mp hi),
      fun h i => iff_of_false (h rfl i) (habsent i)⟩
  · exact iff_of_true (hI.finds haddr) fun h => absurd h haddr

theorem sound : p.Sound where
  used_eq := by
    rw [hI.index.used_eq, countP_ne_empty]
  room := hI.index.empty_mem
  place_ends h0 addr i := by
    have hpow := hI.index.cap_pow h0
    obtain ⟨s, hs, hon, -⟩ := exists_freeSlot (Pidx.home_lt hpow addr) (hI.index.empty_mem h0)
    have hlt := hon.lt
    exact ⟨_, by simp [Pidx.place, Pidx.placeLoop_eq hpow, Pidx.cap, hs, hlt]; rfl⟩
  slot_ends addr := by
    by_cases h0 : p.index.cap = 0
    · exact ⟨none, by simp [Pidx.slot, h0]⟩
    by_cases haddr : addr = Pidx.deletedKey
    · obtain ⟨r, hr, -⟩ := slot_deletedKey hI.index hI.not_mem_deletedKey h0
      exact ⟨r, haddr ▸ hr⟩
    · have hpow := hI.index.cap_pow h0
      rw [Pidx.slot, if_neg h0, Pidx.slotLoop_eq hpow haddr, Pidx.cap,
        probe_eq_find (Pidx.home_lt hpow addr) (hI.index.empty_mem h0)]
      exact ⟨_, rfl⟩
  one_key hs hs' := by
    have hkey := hI.index.key_eq hs
    have hidx := (List.getElem?_inj (List.getElem?_eq_some_iff.1 hkey).1 hI.nodup).1
      (hkey.trans (hI.index.key_eq hs').symm)
    exact hI.index.index.slot_inj hs hs' hidx
  step_ends op hop := by
    obtain ⟨p', hp', -⟩ := hI.step hop
    exact ⟨p', hp'⟩

end Inv

/-- After any calls the index is sound, and the search is right for every address, but for the mark of
deleted slots when it comes by one of them. -/
theorem index_mirrors {p : Pending} (h : Reachable p) :
    p.Sound ∧ ∀ addr, p.Finds addr ↔ (addr = Pidx.deletedKey → ¬ MarkOnPath p.index) :=
  ⟨(Inv.of_reachable h).sound, (Inv.of_reachable h).finds_iff⟩

/-! ### A block in the home slot of the mark -/

/-- The first table of the index. -/
def freshCells : List (Cell (ℕ × ℕ)) := List.replicate 1024 .empty

theorem length_freshCells : freshCells.length = 1024 := by
  rw [freshCells, List.length_replicate]

theorem freshCells_cell : freshCells[441]? = some .empty := by
  rw [freshCells, List.getElem?_replicate_of_lt (by norm_num)]

/-- Once the block in the home slot of the mark is removed, the search for the mark answers with its
place. -/
theorem find_after_delete {x : Pidx} {s : ℕ} {b : ℕ × ℕ} (h0 : x.cap ≠ 0)
    (hhome : x.home Pidx.deletedKey = s) (hcell : x.cells[s]? = some (.full b)) :
    (x.delete s).find Pidx.deletedKey = some (some b.2) := by
  have hcap : (x.delete s).cap = x.cap := by simp [Pidx.cap]
  have hhome' : (x.delete s).home Pidx.deletedKey = s := by rw [Pidx.home_congr hcap, hhome]
  have htomb : (x.delete s).cells[(x.delete s).home Pidx.deletedKey]? = some .tomb := by
    rw [hhome']
    exact List.getElem?_set_self (List.getElem?_eq_some_iff.1 hcell).1
  rw [Pidx.find_deletedKey (hcap ▸ h0) htomb, hhome']
  simp [Pidx.delete, Pidx.val, hcell]

/-- The address 74416 has the home slot of the mark. -/
theorem home_eq_of_cap {x : Pidx} (hcap : x.cap = 1024) :
    x.home 74416 = 441 ∧ x.home Pidx.deletedKey = 441 := by
  simp only [Pidx.home, hcap, Pidx.deletedKey]
  decide

/-- After a block is registered there. -/
def registered : Pending := ⟨{ cells := freshCells.set 441 (.full (74416, 0)), used := 1 }, [74416]⟩

theorem registered_cap : registered.index.cap = 1024 :=
  (List.length_set ..).trans length_freshCells

theorem registered_cell : registered.index.cells[441]? = some (.full (74416, 0)) :=
  List.getElem?_set_self (by rw [length_freshCells]; norm_num)

/-- The loop of `pidx_rebuild` for a single block. -/
theorem foldlM_place {x₀ x : Pidx} {addr : ℕ} (h : x₀.place addr 0 = some x) :
    (List.range 1).foldlM
      (fun x i => do
        let addr ← [addr][i]?
        x.place addr i) x₀ = some x := by
  simp [List.range_one, h]

theorem rebuild_registered : Pidx.rebuild [74416] = some registered.index := by
  have hcapFor : Pidx.capFor 1 1024 = 1024 := by
    rw [Pidx.capFor, if_neg (by omega)]
  have hcap : (⟨freshCells, 0, fun _ => 0⟩ : Pidx).cap = 1024 := length_freshCells
  have hloop : (⟨freshCells, 0, fun _ => 0⟩ : Pidx).placeLoop (1023 + 1) 441 = some 441 := by
    rw [Pidx.placeLoop, freshCells_cell]
  have hplace : (⟨freshCells, 0, fun _ => 0⟩ : Pidx).place 74416 0 = some registered.index := by
    rw [Pidx.place, hcap, (home_eq_of_cap hcap).1, hloop]
    simp only [Option.bind_eq_bind, Option.bind_some, freshCells_cell, if_pos, registered,
      Option.pure_def, Nat.zero_add]
  rw [Pidx.rebuild, List.length_singleton, hcapFor, ← freshCells]
  exact foldlM_place hplace

theorem reachable_registered : Reachable registered := by
  have hpermits : empty.Permits (.register 74416) := ⟨by decide, List.not_mem_nil⟩
  refine .step .empty hpermits ?_
  have hinsert : Pidx.empty.insertLast [74416] = some registered.index := by
    rw [Pidx.insertLast, if_pos (.inl rfl), rebuild_registered]
  show (Pidx.empty.insertLast [74416]).bind _ = _
  rw [hinsert]
  rfl

theorem index_mirrors_registered : registered.Sound ∧
    ∀ addr, registered.Finds addr ↔ (addr = Pidx.deletedKey → ¬ MarkOnPath registered.index) :=
  index_mirrors reachable_registered

/-- After the block is removed, the search for the mark answers with its place. -/
theorem exists_not_finds : ∃ p, registered.step (.remove 0) = some p ∧ Reachable p ∧
    p.index.find Pidx.deletedKey = some (some 0) ∧ ¬ p.Finds Pidx.deletedKey := by
  have hslot : registered.index.slot 74416 = some (some 441) := by
    rw [Pidx.slot, if_neg (by rw [registered_cap]; norm_num), registered_cap,
      (home_eq_of_cap registered_cap).1, Pidx.slotLoop, registered_cell]
    simp only [if_pos]
  have hstep : registered.step (.remove 0) = some ⟨registered.index.delete 441, []⟩ := by
    have hremove : registered.index.remove [74416] 0 = some (registered.index.delete 441) := by
      simp only [Pidx.remove, List.getElem?_cons_zero, Option.bind_eq_bind, Option.bind_some, hslot,
        List.length_singleton, Nat.sub_self, ne_eq, not_true_eq_false, if_false, Option.pure_def]
    have hstarts : registered.starts = [74416] := rfl
    simp only [step, hstarts, hremove, Option.bind_eq_bind, Option.bind_some]
    rfl
  have hfind : (registered.index.delete 441).find Pidx.deletedKey = some (some 0) :=
    find_after_delete (by rw [registered_cap]; norm_num) (home_eq_of_cap registered_cap).2
      registered_cell
  have hpermits : registered.Permits (.remove 0) := Nat.one_pos
  refine ⟨_, hstep, .step reachable_registered hpermits hstep, hfind, fun h => ?_⟩
  have hempty := (h 0).mp hfind
  cases hempty

end Pending

end TurfLang.Gc
