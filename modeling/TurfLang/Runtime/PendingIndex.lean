import TurfLang.Lib.Loop
import TurfLang.Lib.Probing

/-!
# `turfrt_gc.c`: `g_pidx`, the index of pending blocks

`g_pidx_keys[s]` is `PIDX_EMPTY` (`empty`), `PIDX_DELETED` (`tomb`) or the start of a pending
block, with the block's index in `g_pending` as `g_pidx_vals[s]` (`full (addr, idx)`); a deletion
leaves that value behind. `g_pidx_cap` is the number of cells. The probe loops have no bound in the source: here they
have as many turns as there are cells, and `none` is a loop that does not end.
-/

namespace TurfLang.Gc

open Probing

/-- `g_pidx_keys`, `g_pidx_vals` and `g_pidx_used`; `stale` has the values of the deleted slots. -/
structure Pidx where
  cells : List (Cell (ℕ × ℕ))
  used : ℕ
  stale : ℕ → ℕ := fun _ => 0

namespace Pidx

/-- `PIDX_DELETED`. -/
def deletedKey : ℕ := 1

/-- The index before the first registration. -/
def empty : Pidx := { cells := [], used := 0 }

/-- `g_pidx_cap`. -/
def cap (x : Pidx) : ℕ := x.cells.length

/-- `pidx_home`: Fibonacci hashing of the address. -/
def home (x : Pidx) (addr : ℕ) : ℕ :=
  (addr * 0x9E3779B97F4A7C15 % 2 ^ 64) >>> 32 &&& (x.cap - 1)

/-- `(s + 1) & (g_pidx_cap - 1)`. -/
def next (x : Pidx) (s : ℕ) : ℕ := (s + 1) &&& (x.cap - 1)

/-- The loop of `pidx_place`. -/
def placeLoop (x : Pidx) : ℕ → ℕ → Option ℕ
  | 0, _ => none
  | turns + 1, s =>
    match x.cells[s]? with
    | some (.full _) => placeLoop x turns (x.next s)
    | _ => some s

/-- `pidx_place`. -/
def place (x : Pidx) (addr pendingIdx : ℕ) : Option Pidx := do
  let s ← x.placeLoop x.cap (x.home addr)
  let cell ← x.cells[s]?
  return { x with
    cells := x.cells.set s (.full (addr, pendingIdx))
    used := if cell = .empty then x.used + 1 else x.used }

/-- The loop of `pidx_rebuild` that finds the capacity for `count` pending blocks. -/
def capFor (count cap : ℕ) : ℕ :=
  if 0 < cap ∧ cap < (count + 1) * 4 then capFor count (cap * 2) else cap
termination_by (count + 1) * 4 - cap

/-- `pidx_rebuild`, with the starts of the pending blocks. -/
def rebuild (starts : List ℕ) : Option Pidx :=
  (List.range starts.length).foldlM
    (fun x i => do
      let addr ← starts[i]?
      x.place addr i)
    { cells := List.replicate (capFor starts.length 1024) .empty, used := 0 }

/-- `pidx_insert_last`, after the block was appended to the pending ones. -/
def insertLast (x : Pidx) (starts : List ℕ) : Option Pidx :=
  if x.cap = 0 ∨ (x.used + 1) * 10 > x.cap * 7 then rebuild starts
  else do
    let addr ← starts[starts.length - 1]?
    x.place addr (starts.length - 1)

/-- The loop of `pidx_slot`: the slot holding `addr`, or `none` inside when there is none. -/
def slotLoop (x : Pidx) (addr : ℕ) : ℕ → ℕ → Option (Option ℕ)
  | 0, _ => none
  | turns + 1, s =>
    match x.cells[s]? with
    | some (.full (key, _)) => if key = addr then some (some s) else slotLoop x addr turns (x.next s)
    | some .tomb => if deletedKey = addr then some (some s) else slotLoop x addr turns (x.next s)
    | _ => some none

/-- `pidx_slot`. -/
def slot (x : Pidx) (addr : ℕ) : Option (Option ℕ) :=
  if x.cap = 0 then some none else x.slotLoop addr x.cap (x.home addr)

/-- `pidx_clear`. -/
def clear (x : Pidx) : Pidx :=
  { x with cells := List.replicate x.cap .empty, used := 0 }

/-- `g_pidx_vals[s]`. -/
def val (x : Pidx) (s : ℕ) : Option ℕ :=
  match x.cells[s]? with
  | some (.full (_, idx)) => some idx
  | some .tomb => some (x.stale s)
  | _ => none

/-- `g_pidx_keys[s] = PIDX_DELETED`. -/
def delete (x : Pidx) (s : ℕ) : Pidx :=
  { x with
    cells := x.cells.set s .tomb
    stale := Function.update x.stale s ((x.val s).getD 0) }

@[simp] theorem delete_cells (x : Pidx) (s : ℕ) : (x.delete s).cells = x.cells.set s .tomb := rfl

@[simp] theorem delete_used (x : Pidx) (s : ℕ) : (x.delete s).used = x.used := rfl

/-- `find_exact_in_pending`. -/
def find (x : Pidx) (addr : ℕ) : Option (Option ℕ) := do
  let s ← x.slot addr
  match s with
  | none => return none
  | some s =>
    let idx ← x.val s
    return some idx

/-- What `pending_remove(idx)` does to the index, with the starts before the removal. -/
def remove (x : Pidx) (starts : List ℕ) (idx : ℕ) : Option Pidx := do
  let addr ← starts[idx]?
  let s ← x.slot addr
  let x := match s with
    | some s => x.delete s
    | none => x
  let last := starts.length - 1
  if idx ≠ last then
    let moved ← starts[last]?
    let m ← x.slot moved
    return match m with
      | some m => { x with cells := x.cells.set m (.full (moved, idx)) }
      | none => x
  else
    return x

/-! ### The invariant -/

/-- The index names each pending block exactly once, under its start, and has an empty slot
when it has any. -/
structure Inv (x : Pidx) (starts : List ℕ) : Prop where
  cap_pow : x.cap ≠ 0 → ∃ k, x.cap = 2 ^ k
  used_eq : x.used = x.cells.countP Cell.isFull + x.cells.countP Cell.isTomb
  room : x.cap ≠ 0 → x.used < x.cap
  index : Index Prod.snd x.cells (starts.map x.home)
  key_eq : ∀ {s addr idx : ℕ}, x.cells[s]? = some (.full (addr, idx)) → starts[idx]? = some addr

theorem next_eq {x : Pidx} (hpow : ∃ k, x.cap = 2 ^ k) (s : ℕ) :
    x.next s = (s + 1) % x.cells.length := by
  obtain ⟨k, hk⟩ := hpow
  rw [next, hk, Nat.and_two_pow_sub_one_eq_mod, ← hk, cap]

theorem home_lt {x : Pidx} (hpow : ∃ k, x.cap = 2 ^ k) (addr : ℕ) :
    x.home addr < x.cells.length := by
  obtain ⟨k, hk⟩ := hpow
  rw [home, hk, Nat.and_two_pow_sub_one_eq_mod, ← hk]
  exact Nat.mod_lt _ (hk ▸ Nat.two_pow_pos k)

/-- The home slot of an address depends on the capacity only. -/
theorem home_congr {x y : Pidx} (h : y.cap = x.cap) : y.home = x.home := by
  funext addr
  rw [home, home, h]

theorem placeLoop_eq {x : Pidx} (hpow : ∃ k, x.cap = 2 ^ k) (turns s : ℕ) :
    x.placeLoop turns s = freeSlot x.cells turns s := by
  induction turns generalizing s with
  | zero => rfl
  | succ turns ih =>
    rw [placeLoop, freeSlot, ih, next_eq hpow]
    cases x.cells[s]? with
    | none => rfl
    | some c => cases c <;> rfl

/-- Deleted slots are passed by in the search for any address but their mark. -/
theorem slotLoop_eq {x : Pidx} (hpow : ∃ k, x.cap = 2 ^ k) {addr : ℕ} (haddr : addr ≠ deletedKey)
    (turns s : ℕ) :
    x.slotLoop addr turns s = probe (fun e => decide (e.1 = addr)) x.cells turns s := by
  induction turns generalizing s with
  | zero => rfl
  | succ turns ih =>
    rw [slotLoop, probe, ih, next_eq hpow]
    cases x.cells[s]? with
    | none => rfl
    | some c => cases c <;> simp [haddr.symm]

/-- The search for the mark of deleted slots ends at the first one on its way. -/
theorem find_deletedKey {x : Pidx} (h0 : x.cap ≠ 0)
    (h : x.cells[x.home deletedKey]? = some .tomb) :
    x.find deletedKey = some (some (x.stale (x.home deletedKey))) := by
  obtain ⟨n, hn⟩ := Nat.exists_eq_succ_of_ne_zero h0
  have hslot : x.slot deletedKey = some (some (x.home deletedKey)) := by
    rw [slot, if_neg h0, hn, slotLoop, h]
    simp
  simp [find, hslot, val, h]

namespace Inv

variable {x : Pidx} {starts : List ℕ}

theorem empty_mem (hI : x.Inv starts) (h0 : x.cap ≠ 0) : Cell.empty ∈ x.cells := by
  refine empty_mem_of_count_lt ?_
  rw [← hI.used_eq]
  exact hI.room h0

theorem cap_ne_zero (hI : x.Inv starts) {i a : ℕ} (ha : starts[i]? = some a) : x.cap ≠ 0 := by
  intro h0
  have hcount := hI.index.count_full
  rw [List.eq_nil_of_length_eq_zero h0, List.countP_nil, List.length_map] at hcount
  have := (List.getElem?_eq_some_iff.1 ha).1
  omega

/-- The slot of a pending block is found when no other has its start. -/
theorem exists_slot (hI : x.Inv starts) (hnodup : starts.Nodup) {i a : ℕ}
    (ha : starts[i]? = some a) (hkey : a ≠ deletedKey) :
    ∃ s, x.slot a = some (some s) ∧ x.cells[s]? = some (.full (a, i)) := by
  have h0 := hI.cap_ne_zero ha
  have hpow := hI.cap_pow h0
  obtain ⟨s, e, hs, he, hon⟩ := hI.index.onPath (i := i) (h := x.home a) (by simp [ha])
  obtain ⟨addr, idx⟩ := e
  obtain rfl : idx = i := he
  obtain rfl : a = addr := by simpa using ha.symm.trans (hI.key_eq hs)
  refine ⟨s, ?_, hs⟩
  rw [slot, if_neg h0, slotLoop_eq hpow hkey, cap,
    probe_eq_find (home_lt hpow a) (hI.empty_mem h0)]
  congr 1
  refine find_eq_some hon hs (by simp) (fun r e hr he => ?_) (home_lt hpow a)
  obtain rfl : e.1 = a := by simpa using he
  have hkey : starts[e.2]? = some e.1 := hI.key_eq hr
  exact hI.index.slot_inj hr hs ((List.getElem?_inj
    (List.getElem?_eq_some_iff.1 hkey).1 hnodup).1 (hkey.trans ha.symm))

/-- An address that is no pending block's start has no slot. -/
theorem slot_eq_none (hI : x.Inv starts) {a : ℕ} (ha : a ∉ starts) (hkey : a ≠ deletedKey) :
    x.slot a = some none := by
  rw [slot]
  split_ifs with h0
  · rfl
  have hpow := hI.cap_pow h0
  rw [slotLoop_eq hpow hkey, cap, probe_eq_find (home_lt hpow a) (hI.empty_mem h0)]
  congr 1
  refine find_eq_none fun r e hr => ?_
  rw [decide_eq_false_iff_not]
  rintro rfl
  have hkey : starts[e.2]? = some e.1 := hI.key_eq hr
  exact ha (List.mem_of_getElem? hkey)

/-! ### Adding a block -/

/-- `pidx_place` of the block appended to the pending ones. -/
theorem exists_place (hI : x.Inv starts) (addr : ℕ) (hroom : x.used + 1 < x.cap) :
    ∃ y, x.place addr starts.length = some y ∧ y.Inv (starts ++ [addr]) ∧ y.cap = x.cap ∧
      y.used ≤ x.used + 1 := by
  have h0 : x.cap ≠ 0 := by omega
  have hpow := hI.cap_pow h0
  obtain ⟨s, hs, hon, hfree⟩ := exists_freeSlot (home_lt hpow addr) (hI.empty_mem h0)
  obtain ⟨c, hc, hcfree⟩ : ∃ c, x.cells[s]? = some c ∧ (c = .empty ∨ c = .tomb) := by
    rcases hfree with hf | hf
    · exact ⟨_, hf, .inl rfl⟩
    · exact ⟨_, hf, .inr rfl⟩
  have hcap : (x.cells.set s (.full (addr, starts.length))).length = x.cap := by simp [cap]
  have hfull := countP_set_of_getElem? Cell.isFull hc (.full (addr, starts.length))
  have htomb := countP_set_of_getElem? Cell.isTomb hc (.full (addr, starts.length))
  have hused := hI.used_eq
  refine ⟨⟨x.cells.set s (.full (addr, starts.length)),
    if c = .empty then x.used + 1 else x.used, x.stale⟩, ?_, ⟨?_, ?_, ?_, ?_, ?_⟩, hcap, ?_⟩
  · simp only [place, placeLoop_eq hpow]
    rw [cap, hs]
    simp [hc]
  · rw [cap, hcap]
    exact hI.cap_pow
  · rcases hcfree with rfl | rfl <;> simp [Cell.isFull, Cell.isTomb] at hfull htomb ⊢ <;> omega
  · intro _
    rw [cap, hcap]
    simp only
    split_ifs <;> omega
  · have hpush := hI.index.push hon hfree (a := (addr, starts.length)) (by simp)
    have hhome : ∀ u, (⟨x.cells.set s (.full (addr, starts.length)), u, x.stale⟩ : Pidx).home =
        x.home := fun _ => home_congr hcap
    rw [List.map_append, hhome]
    exact hpush
  · intro r a i hr
    rcases Index.getElem?_set_full hr with ⟨-, hc⟩ | ⟨-, hr⟩
    · obtain ⟨rfl, rfl⟩ : addr = a ∧ starts.length = i := by simpa using hc
      simp
    · have hkey := hI.key_eq hr
      rw [List.getElem?_append_left (List.getElem?_eq_some_iff.1 hkey).1, hkey]
  · simp only
    split_ifs <;> omega

end Inv

theorem capFor_spec {count : ℕ} (k : ℕ) :
    (∃ j, capFor count (2 ^ k) = 2 ^ j) ∧ (count + 1) * 4 ≤ capFor count (2 ^ k) := by
  induction hd : (count + 1) * 4 - 2 ^ k using Nat.strong_induction_on generalizing k with
  | _ d ih =>
    rw [capFor]
    split_ifs with h
    · have hpos := Nat.two_pow_pos k
      rw [← pow_succ]
      exact ih _ (by rw [pow_succ]; omega) (k + 1) rfl
    · have hpos := Nat.two_pow_pos k
      exact ⟨⟨k, rfl⟩, by omega⟩

/-- `pidx_clear` indexes no block. -/
theorem replicate_inv {n : ℕ} {stale : ℕ → ℕ} (hpow : n ≠ 0 → ∃ k, n = 2 ^ k) :
    (⟨List.replicate n .empty, 0, stale⟩ : Pidx).Inv [] where
  cap_pow := by simpa [cap] using hpow
  used_eq := by simp [List.countP_replicate, Cell.isFull, Cell.isTomb]
  room h := Nat.pos_of_ne_zero h
  index := Index.replicate _ n
  key_eq h := by simp [List.getElem?_replicate] at h

/-- `pidx_rebuild` indexes every pending block. -/
theorem exists_rebuild (starts : List ℕ) : ∃ y, rebuild starts = some y ∧ y.Inv starts := by
  set n := capFor starts.length 1024
  obtain ⟨hpow, hle⟩ : (∃ k, n = 2 ^ k) ∧ (starts.length + 1) * 4 ≤ n := capFor_spec 10
  obtain ⟨y, hrun, hI, -, -⟩ := Loop.exists_foldlM_range (n := starts.length)
    (f := fun (x : Pidx) i => do
      let addr ← starts[i]?
      x.place addr i)
    (P := fun i y => y.Inv (starts.take i) ∧ y.cap = n ∧ y.used ≤ i)
    (s := { cells := List.replicate n .empty, used := 0 })
    ⟨replicate_inv fun _ => hpow, by simp [cap], le_rfl⟩ fun i hi y ⟨hI, hcap, hused⟩ => by
      obtain ⟨z, hz, hIz, hzcap, hzused⟩ := hI.exists_place starts[i] (by omega)
      rw [List.length_take, Nat.min_eq_left (by omega)] at hz
      refine ⟨z, by simpa [hi] using hz, ?_, hzcap.trans hcap, by omega⟩
      rwa [List.take_append_getElem hi] at hIz
  rw [List.take_length] at hI
  exact ⟨y, hrun, hI⟩

/-- `pidx_insert_last` keeps the index in step with a registration. -/
theorem Inv.exists_insertLast {x : Pidx} {starts : List ℕ} (hI : x.Inv starts) (addr : ℕ) :
    ∃ y, x.insertLast (starts ++ [addr]) = some y ∧ y.Inv (starts ++ [addr]) := by
  rw [insertLast]
  split_ifs with h
  · exact exists_rebuild _
  · obtain ⟨y, hy, hIy, -, -⟩ := hI.exists_place addr (by omega)
    exact ⟨y, by simpa using hy, hIy⟩

/-! ### Removing a block -/

namespace Inv

variable {x : Pidx} {ss : List ℕ} {l : ℕ}

/-- `pending_remove` of the last pending block. -/
theorem exists_remove_last (hI : x.Inv (ss ++ [l])) (hnodup : (ss ++ [l]).Nodup)
    (hkeys : deletedKey ∉ ss ++ [l]) :
    ∃ y, x.remove (ss ++ [l]) ss.length = some y ∧ y.Inv ss := by
  have hl : l ≠ deletedKey := fun h => hkeys (by simp [h])
  obtain ⟨s, hs, hcell⟩ := hI.exists_slot hnodup (i := ss.length) (a := l) (by simp) hl
  have hcap : (x.cells.set s .tomb).length = x.cap := by simp [cap]
  have hfull := countP_set_of_getElem? Cell.isFull hcell .tomb
  have htomb := countP_set_of_getElem? Cell.isTomb hcell .tomb
  have hused := hI.used_eq
  refine ⟨x.delete s, by simp [remove, hs], ⟨?_, ?_, ?_, ?_, ?_⟩⟩
  · rw [cap, delete_cells, hcap]
    exact hI.cap_pow
  · simp [Cell.isFull, Cell.isTomb] at hfull htomb ⊢
    omega
  · rw [cap, delete_cells, hcap]
    exact hI.room
  · have hindex := hI.index
    rw [List.map_append] at hindex
    have hhome : (x.delete s).home = x.home := home_congr hcap
    rw [hhome]
    exact hindex.pop hcell (by simp)
  · intro r a i hr
    rcases Index.getElem?_set_full hr with ⟨-, hc⟩ | ⟨hne, hr⟩
    · cases hc
    · have hkey := hI.key_eq hr
      have hlt := (List.getElem?_eq_some_iff.1 hkey).1
      have hil : i ≠ ss.length := fun h => hne (hI.index.slot_inj hcell hr h.symm)
      simp only [List.length_append, List.length_singleton] at hlt
      rwa [List.getElem?_append_left (by omega)] at hkey

/-- `pending_remove` of another pending block, whose place the last one takes. -/
theorem exists_remove_swap (hI : x.Inv (ss ++ [l])) (hnodup : (ss ++ [l]).Nodup)
    (hkeys : deletedKey ∉ ss ++ [l]) {idx : ℕ} (hidx : idx < ss.length) :
    ∃ y, x.remove (ss ++ [l]) idx = some y ∧ y.Inv (ss.set idx l) := by
  have ha : (ss ++ [l])[idx]? = some ss[idx] := by
    rw [List.getElem?_append_left hidx, List.getElem?_eq_getElem]
  have hl : l ≠ deletedKey := fun h => hkeys (by simp [h])
  obtain ⟨s, hs, hcell⟩ := hI.exists_slot hnodup ha fun h => hkeys (h ▸ List.mem_of_getElem? ha)
  obtain ⟨m, hm, hcellm⟩ := hI.exists_slot hnodup (i := ss.length) (a := l) (by simp) hl
  have h0 := hI.cap_ne_zero ha
  have hpow := hI.cap_pow h0
  have hne : s ≠ m := by
    rintro rfl
    have := hcell.symm.trans hcellm
    simp at this
    omega
  -- the moved block's slot is still found once the removed one's is deleted
  have hm' : (x.delete s).slot l = some (some m) := by
    have hcap : (x.delete s).cap = x.cap := by simp [cap]
    have hmid : (x.cells.set s .tomb)[m]? = some (.full (l, ss.length)) := by
      rw [List.getElem?_set_ne hne, hcellm]
    have hfull := countP_set_of_getElem? Cell.isFull hcell .tomb
    have htomb := countP_set_of_getElem? Cell.isTomb hcell .tomb
    have hused := hI.used_eq
    have hroom := hI.room h0
    have hempty : Cell.empty ∈ x.cells.set s .tomb := empty_mem_of_count_lt (by
      simp [Cell.isFull, Cell.isTomb] at hfull htomb
      rw [List.length_set]
      change _ < x.cap
      omega)
    obtain ⟨r, e, hr, he, hon⟩ := hI.index.onPath (i := ss.length) (h := x.home l) (by simp)
    obtain rfl : r = m := hI.index.slot_inj hr hcellm he
    rw [slot, if_neg (hcap ▸ h0), slotLoop_eq (hcap ▸ hpow) hl, cap,
      probe_eq_find (home_lt (hcap ▸ hpow) l) hempty, home_congr (x := x) hcap]
    congr 1
    refine find_eq_some (hon.set (by simp)) hmid (by simp) (fun r e hr he => ?_) ?_
    · obtain rfl : e.1 = l := by simpa using he
      rcases Index.getElem?_set_full hr with ⟨-, hc⟩ | ⟨-, hr⟩
      · cases hc
      · have hkey : (ss ++ [e.1])[e.2]? = some e.1 := hI.key_eq hr
        refine hI.index.slot_inj hr hcellm ((List.getElem?_inj
          (List.getElem?_eq_some_iff.1 hkey).1 hnodup).1 (hkey.trans ?_))
        simp
    · rw [delete_cells, List.length_set]
      exact home_lt hpow l
  have hmid : (x.cells.set s .tomb)[m]? = some (.full (l, ss.length)) := by
    rw [List.getElem?_set_ne hne, hcellm]
  have hcap : ((x.cells.set s .tomb).set m (.full (l, idx))).length = x.cap := by simp [cap]
  have hfull := countP_set_of_getElem? Cell.isFull hcell .tomb
  have htomb := countP_set_of_getElem? Cell.isTomb hcell .tomb
  have hfull' := countP_set_of_getElem? Cell.isFull hmid (.full (l, idx))
  have htomb' := countP_set_of_getElem? Cell.isTomb hmid (.full (l, idx))
  have hused := hI.used_eq
  refine ⟨{ x.delete s with cells := (x.cells.set s .tomb).set m (.full (l, idx)) }, ?_,
    ⟨?_, ?_, ?_, ?_, ?_⟩⟩
  · have hidx' : idx ≠ ss.length := by omega
    simp [remove, ha, hs, hidx', hm']
  · rw [cap, hcap]
    exact hI.cap_pow
  · simp [Cell.isFull, Cell.isTomb] at hfull htomb hfull' htomb' ⊢
    omega
  · rw [cap, hcap]
    exact hI.room
  · have hindex := hI.index
    rw [List.map_append] at hindex
    have hhome : ({ x.delete s with
        cells := (x.cells.set s .tomb).set m (.full (l, idx)) } : Pidx).home = x.home :=
      home_congr hcap
    rw [hhome, List.map_set]
    exact hindex.replace_last hcell rfl (by simpa using hidx) hcellm (by simp) rfl
  · intro r a i hr
    rcases Index.getElem?_set_full hr with ⟨-, hc⟩ | ⟨hrm, hr⟩
    · obtain ⟨rfl, rfl⟩ : l = a ∧ idx = i := by simpa using hc
      exact List.getElem?_set_self hidx
    · rcases Index.getElem?_set_full hr with ⟨-, hc⟩ | ⟨hrs, hr⟩
      · cases hc
      · have hkey := hI.key_eq hr
        have hlt := (List.getElem?_eq_some_iff.1 hkey).1
        have hil : i ≠ ss.length := fun h => hrm (hI.index.slot_inj hcellm hr h.symm)
        have hii : idx ≠ i := fun h => hrs (hI.index.slot_inj hcell hr h)
        simp only [List.length_append, List.length_singleton] at hlt
        rw [List.getElem?_append_left (by omega)] at hkey
        rw [List.getElem?_set_ne hii, hkey]

end Inv

end Pidx

end TurfLang.Gc
