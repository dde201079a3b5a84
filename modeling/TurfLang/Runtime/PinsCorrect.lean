import TurfLang.Runtime.Pins

/-!
# Pins keep objects alive exactly as long as they nest

An object is a block under the identity it keeps when `realloc` moves it. A ledger counts the
pins and the unpins of each object over a run. The counts of the collector are those of the
ledger as long as no pinned object is shrunk to no bytes: such a block contains no address, so
its pin is no root.
-/

namespace TurfLang.Gc

/-! ### The ledger -/

/-- An object that is allocated. -/
structure Object where
  id : ℕ
  size : ℕ
  desc : Option TypeDesc

/-- The objects by start, the next identity, and the pins and unpins of each object so far. -/
structure Ledger where
  objects : ℕ → Option Object
  next : ℕ
  pins : ℕ → ℕ
  unpins : ℕ → ℕ

/-- The calls of the runtime. -/
inductive PinCall
  | heap (call : Call)
  | pin (p : ℕ)
  | unpin (p : ℕ)

namespace Ledger

/-- The ledger of no call. -/
def empty : Ledger := ⟨fun _ => none, 0, fun _ => 0, fun _ => 0⟩

/-- The blocks of the objects. -/
def table (t : Ledger) : Table := fun a => (t.objects a).map fun o => (o.size, o.desc)

/-- The object has more pins than unpins. -/
def Pinned (t : Ledger) (id : ℕ) : Prop := t.unpins id < t.pins id

/-- The address is in the object. -/
def Owns (t : Ledger) (p id : ℕ) : Prop :=
  ∃ a o, t.objects a = some o ∧ a ≤ p ∧ p < a + o.size ∧ o.id = id

/-- Forget the objects at some addresses. -/
def erase (t : Ledger) (freed : List ℕ) : Ledger :=
  { t with objects := fun a => if a ∈ freed then none else t.objects a }

/-- What a call does to the objects, but for those it frees: a reallocated object keeps its
identity. -/
def apply (t : Ledger) : Call → Ledger
  | .alloc p bytes desc =>
    { t with
      objects := Function.update t.objects p (some ⟨t.next, bytes, desc⟩)
      next := t.next + 1 }
  | .realloc old result newSize desc =>
    { t with
      objects := Function.update (t.erase [old]).objects result
        (some ⟨(t.objects old).elim t.next Object.id, newSize, desc⟩)
      next := t.next + 1 }
  | .collect => t

open Classical in
/-- One more pin of the object the address is in. -/
noncomputable def pin (t : Ledger) (p : ℕ) : Ledger :=
  { t with pins := fun id => if t.Owns p id then t.pins id + 1 else t.pins id }

open Classical in
/-- One more unpin of the object the address is in. -/
noncomputable def unpin (t : Ledger) (p : ℕ) : Ledger :=
  { t with unpins := fun id => if t.Owns p id then t.unpins id + 1 else t.unpins id }

/-- The pins minus the unpins of the object that starts at `a`. -/
def counts (t : Ledger) (a : ℕ) : ℕ :=
  (t.objects a).elim 0 fun o => t.pins o.id - t.unpins o.id

theorem table_eq_some {t : Ledger} {a : ℕ} {e : ℕ × Option TypeDesc} :
    t.table a = some e ↔ ∃ o, t.objects a = some o ∧ (o.size, o.desc) = e :=
  Option.map_eq_some_iff

theorem table_erase (t : Ledger) (freed : List ℕ) : (t.erase freed).table = t.table.erase freed := by
  funext a
  by_cases h : a ∈ freed <;> simp [table, erase, Table.erase, h]

theorem table_apply (t : Ledger) (call : Call) (freed : List ℕ) :
    ((t.apply call).erase freed).table = call.apply t.table freed := by
  rw [table_erase]
  cases call with
  | alloc p bytes desc =>
    refine congrArg (Table.erase · freed) (funext fun a => ?_)
    by_cases ha : a = p <;> simp [table, apply, ha]
  | realloc old result newSize desc =>
    refine congrArg (Table.erase · freed) (funext fun a => ?_)
    rw [← table_erase]
    by_cases ha : a = result <;> simp [table, apply, ha]
  | collect => rfl

end Ledger

/-! ### Runs -/

/-- The states and ledgers of the runs whose calls all satisfy `P`. -/
inductive PinRuns (P : Ledger → PinCall → Prop) : State → Ledger → Prop
  | init : PinRuns P {} .empty
  | heap {s s' : State} {t : Ledger} {call : Call} {stress : Bool} {env : Env} {freed : List ℕ}
      (h : PinRuns P s t) (hP : P t (.heap call)) (hcall : call.Admissible t.table)
      (hstep : call.step stress env s = some (s', freed)) :
      PinRuns P s' ((t.apply call).erase freed)
  | pin {s : State} {t : Ledger} {p : ℕ} (h : PinRuns P s t) (hP : P t (.pin p)) :
      PinRuns P (s.pin p) (t.pin p)
  | unpin {s s' : State} {t : Ledger} {p : ℕ} (h : PinRuns P s t) (hP : P t (.unpin p))
      (hstep : s.unpin p = .ok s') : PinRuns P s' (t.unpin p)

/-- The call does not shrink a pinned object to no bytes. -/
def PinCall.KeepsBytes (t : Ledger) : PinCall → Prop
  | .heap (.realloc old _ newSize _) =>
    ∀ o, t.objects old = some o → t.Pinned o.id → 0 < newSize
  | _ => True

/-- The count in the pin of the block that starts at `a`. -/
def State.recorded (s : State) (a : ℕ) : ℕ :=
  ((s.findPin a).bind fun i => s.pins[i]?).elim 0 GcPin.count

/-- What a collection would have to keep if it knew no pins, but that the pinned objects stay. -/
def Retained (env : Env) (s : State) (t : Ledger) : Block → Prop :=
  Worklist.Reach
    (fun b => b ∈ s.live ∧ ((∃ w, RootWord env { s with pins := [] } w ∧ b.Contains w) ∨
      ∃ o, t.objects b.start = some o ∧ t.Pinned o.id))
    fun b c => c ∈ s.live ∧ ∃ w, MarkedWord env.mem b w ∧ c.Contains w

/-- The pins of the state are those of the ledger, and do what they are for. -/
structure PinsFaithful (s : State) (t : Ledger) : Prop where
  recorded : ∀ a o, t.objects a = some o → s.recorded a + t.unpins o.id = t.pins o.id
  kept : ∀ env s' freed, s.collect env = some (s', freed) →
    ∀ a o, t.objects a = some o → t.Pinned o.id → a ∉ freed
  freed_iff : ∀ env s' freed, s.collect env = some (s', freed) →
    ∀ a o, t.objects a = some o → (a ∈ freed ↔ ¬ Retained env s t ⟨a, o.size, o.desc⟩)
  panics_iff : ∀ p, s.unpin p = .error unpinPanic ↔ ∃ id, t.Owns p id ∧ t.pins id = t.unpins id
  outside : ∀ p, (∀ id, ¬ t.Owns p id) → s.pin p = s ∧ s.unpin p = .ok s
  succeeds : ∀ env, ∃ s' freed, s.collect env = some (s', freed)

theorem PinRuns.mono {P Q : Ledger → PinCall → Prop} {s : State} {t : Ledger} (h : PinRuns P s t)
    (hPQ : ∀ t call, P t call → Q t call) : PinRuns Q s t := by
  induction h with
  | init => exact .init
  | heap _ hP hcall hstep ih => exact ih.heap (hPQ _ _ hP) hcall hstep
  | pin _ hP ih => exact ih.pin (hPQ _ _ hP)
  | unpin _ hP hstep ih => exact ih.unpin (hPQ _ _ hP) hstep

theorem State.recorded_eq {s : State} {counts : ℕ → ℕ} (h : Records s.pins counts) {a : ℕ} :
    s.recorded a = counts a := by
  unfold State.recorded
  rcases hpin : s.findPin a with _ | i
  · exact ((State.findPin_eq_none_iff h).1 hpin).symm
  · obtain ⟨q, hq, rfl⟩ := State.of_findPin hpin
    rw [Option.bind_some, hq, Option.elim_some]
    exact ((h.mem_iff q).1 (List.mem_of_getElem? hq)).1.symm

/-! ### The invariant -/

/-- The state is as the ledger says. -/
structure Tracks (s : State) (t : Ledger) : Prop where
  refines : Refines s t.table
  apart : s.Apart
  distinct : ∀ a o a' o', t.objects a = some o → t.objects a' = some o' → o.id = o'.id → a = a'
  id_lt : ∀ a o, t.objects a = some o → o.id < t.next
  fresh : ∀ id, t.next ≤ id → t.pins id = 0
  balanced : ∀ id, t.unpins id ≤ t.pins id
  records : Records s.pins t.counts
  size_pos : ∀ a o, t.objects a = some o → t.Pinned o.id → 0 < o.size

namespace Tracks

variable {s s' : State} {t : Ledger}

theorem init : Tracks {} .empty where
  refines := .init
  apart := State.apart_init
  distinct a o a' o' h := by cases h
  id_lt a o h := by cases h
  fresh id _ := rfl
  balanced id := le_rfl
  records := .nil
  size_pos a o h := by cases h

theorem mem_live (h : Tracks s t) {b : Block} :
    b ∈ s.live ↔ ∃ o, t.objects b.start = some o ∧ o.size = b.size ∧ o.desc = b.desc := by
  rw [h.refines.mem_live, Ledger.table_eq_some]
  simp only [Prod.mk.injEq]

/-- The block of an object. -/
theorem block_mem (h : Tracks s t) {a : ℕ} {o : Object} (ho : t.objects a = some o) :
    ⟨a, o.size, o.desc⟩ ∈ s.live :=
  h.mem_live.2 ⟨o, ho, rfl, rfl⟩

theorem counts_eq {a : ℕ} {o : Object} (ho : t.objects a = some o) :
    t.counts a = t.pins o.id - t.unpins o.id := by
  rw [Ledger.counts, ho, Option.elim_some]

theorem pos_counts_iff {a : ℕ} :
    0 < t.counts a ↔ ∃ o, t.objects a = some o ∧ t.Pinned o.id := by
  constructor
  · intro hpos
    rcases ho : t.objects a with _ | o
    · rw [Ledger.counts, ho] at hpos
      cases hpos
    · rw [counts_eq ho] at hpos
      exact ⟨o, rfl, by unfold Ledger.Pinned; omega⟩
  · rintro ⟨o, ho, hpinned⟩
    rw [counts_eq ho]
    unfold Ledger.Pinned at hpinned
    omega

/-- Nothing starts at the null address. -/
theorem counts_zero (h : Tracks s t) : t.counts 0 = 0 := by
  by_contra h0
  obtain ⟨o, ho, -⟩ := pos_counts_iff.1 (Nat.pos_of_ne_zero h0)
  have := h.refines.inv.valid_start _ (h.block_mem ho)
  simp at this

/-- The other fields of the state do not matter. -/
theorem congr (h : Tracks s t) (hblocks : s'.blocks = s.blocks) (hpending : s'.pending = s.pending)
    (hpidx : s'.pidx = s.pidx) (hdead : s'.deadCount = s.deadCount) (hpins : s'.pins = s.pins) :
    Tracks s' t :=
  { h with
    refines := h.refines.congr hblocks hpending hpidx hdead
    apart := h.apart.congr (by rw [hblocks])
    records := hpins ▸ h.records }

/-! ### Collections -/

theorem rootWord_iff (h : Tracks s t) {env : Env} {b : Block} (hb : b ∈ s.live) :
    (∃ w, RootWord env s w ∧ b.Contains w) ↔
      (∃ w, RootWord env { s with pins := [] } w ∧ b.Contains w) ∨
        ∃ o, t.objects b.start = some o ∧ t.Pinned o.id := by
  constructor
  · rintro ⟨w, hw, hin⟩
    cases hw with
    | reg hw => exact .inl ⟨w, .reg hw, hin⟩
    | stack halign hlo hhi => exact .inl ⟨_, .stack halign hlo hhi, hin⟩
    | global hslot => exact .inl ⟨_, .global hslot, hin⟩
    | @pin q hq =>
      -- the pin is of the block that starts there, and blocks do not overlap
      obtain ⟨hcount, hpos⟩ := (h.records.mem_iff q).1 hq
      obtain ⟨o, ho, hpinned⟩ := pos_counts_iff.1 (hcount ▸ hpos)
      have hsize := h.size_pos _ _ ho hpinned
      have hfound := (State.findContainingAny_eq_some_iff h.refines.inv h.apart).2
        ⟨h.block_mem ho, le_rfl, by simpa using hsize⟩
      have hfound' := (State.findContainingAny_eq_some_iff h.refines.inv h.apart).2 ⟨hb, hin⟩
      obtain rfl := Option.some.inj (hfound.symm.trans hfound')
      exact .inr ⟨o, ho, hpinned⟩
  · rintro (⟨w, hw, hin⟩ | ⟨o, ho, hpinned⟩)
    · refine ⟨w, ?_, hin⟩
      cases hw with
      | reg hw => exact .reg hw
      | stack halign hlo hhi => exact .stack halign hlo hhi
      | global hslot => exact .global hslot
      | pin hq => cases hq
    · have hpos := pos_counts_iff.2 ⟨o, ho, hpinned⟩
      have hq := (h.records.mem_iff ⟨b.start, t.counts b.start⟩).2 ⟨rfl, hpos⟩
      obtain ⟨o', ho', hsize, -⟩ := h.mem_live.1 hb
      obtain rfl := Option.some.inj (ho.symm.trans ho')
      have := h.size_pos _ _ ho hpinned
      exact ⟨b.start, .pin hq, le_rfl, by omega⟩

theorem retained_iff (h : Tracks s t) {env : Env} {b : Block} :
    Retained env s t b ↔ Reachable env s b := by
  constructor
  · intro hb
    induction hb with
    | root hb => exact .root ⟨hb.1, (h.rootWord_iff hb.1).2 hb.2⟩
    | edge _ hedge ih => exact .edge ih hedge
  · intro hb
    induction hb with
    | root hb => exact .root ⟨hb.1, (h.rootWord_iff hb.1).1 hb.2⟩
    | edge _ hedge ih => exact .edge ih hedge

theorem mem_freed_iff (h : Tracks s t) {env : Env} {freed : List ℕ}
    (hcollect : s.collect env = some (s', freed)) {a : ℕ} {o : Object} (ho : t.objects a = some o) :
    a ∈ freed ↔ ¬ Retained env s t ⟨a, o.size, o.desc⟩ := by
  obtain ⟨s₁, freed₁, hrun, -, hfreed, -⟩ := State.collect_frees_unreachable h.refines.inv env
  obtain ⟨rfl, rfl⟩ := Prod.mk.inj (Option.some.inj (hrun.symm.trans hcollect))
  rw [h.retained_iff]
  exact hfreed _ (h.block_mem ho)

theorem not_mem_freed (h : Tracks s t) {env : Env} {freed : List ℕ}
    (hcollect : s.collect env = some (s', freed)) {a : ℕ} {o : Object} (ho : t.objects a = some o)
    (hpinned : t.Pinned o.id) : a ∉ freed := by
  rw [h.mem_freed_iff hcollect ho, not_not]
  exact .root ⟨h.block_mem ho, .inr ⟨o, ho, hpinned⟩⟩

theorem collect (h : Tracks s t) {env : Env} {freed : List ℕ}
    (hcollect : s.collect env = some (s', freed)) : Tracks s' (t.erase freed) := by
  obtain ⟨s₁, freed₁, hrun, hR⟩ := h.refines.exists_collect env
  obtain ⟨rfl, rfl⟩ := Prod.mk.inj (Option.some.inj (hrun.symm.trans hcollect))
  obtain ⟨hpins, halive⟩ := State.collect_pins h.refines.inv hcollect
  have hmem : ∀ {a o}, (t.erase freed₁).objects a = some o → t.objects a = some o := by
    intro a o ho
    unfold Ledger.erase at ho
    simp only at ho
    split_ifs at ho
    exact ho
  have hcounts : (t.erase freed₁).counts = t.counts := by
    funext a
    by_cases ha : a ∈ freed₁
    · have h0 : t.counts a = 0 := by
        by_contra h0
        obtain ⟨o, ho, hpinned⟩ := pos_counts_iff.1 (Nat.pos_of_ne_zero h0)
        exact h.not_mem_freed hcollect ho hpinned ha
      rw [h0]
      simp [Ledger.counts, Ledger.erase, ha]
    · simp [Ledger.counts, Ledger.erase, ha]
  exact
    { refines := by rwa [Ledger.table_erase]
      apart := State.apart_of_alive hR.inv halive
      distinct := fun a o a' o' ho ho' => h.distinct a o a' o' (hmem ho) (hmem ho')
      id_lt := fun a o ho => h.id_lt a o (hmem ho)
      fresh := h.fresh
      balanced := h.balanced
      records := by rw [hpins, hcounts]; exact h.records
      size_pos := fun a o ho => h.size_pos a o (hmem ho) }

theorem noteAlloc (h : Tracks s t) {stress : Bool} {env : Env} {bytes : ℕ} {freed : List ℕ}
    (hnote : s.noteAlloc stress env bytes = some (s', freed)) : Tracks s' (t.erase freed) := by
  have h' : Tracks { s with bytesSinceCollect := (s.bytesSinceCollect + bytes) % 2 ^ 64 } t :=
    h.congr rfl rfl rfl rfl rfl
  unfold State.noteAlloc at hnote
  simp only at hnote
  split_ifs at hnote
  · exact h'.collect hnote
  · obtain ⟨rfl, rfl⟩ := Prod.mk.inj (Option.some.inj hnote)
    have herase : t.erase [] = t := by simp [Ledger.erase]
    rwa [herase]

/-! ### Allocations -/

/-- A new object at `p` beside some of the others, whose identities differ from its own. -/
theorem enter (h : Tracks s t) {t' : Ledger} {base : ℕ → Option Object} {p : ℕ} {o₀ : Object}
    (ht' : t' = { t with objects := Function.update base p (some o₀), next := t.next + 1 })
    (hbase : ∀ a o, base a = some o → t.objects a = some o ∧ o.id ≠ o₀.id) (hid : o₀.id ≤ t.next)
    (hsize : t.Pinned o₀.id → 0 < o₀.size) (hR : Refines s' t'.table) (hapart : s'.Apart)
    (hrecords : Records s'.pins t'.counts) : Tracks s' t' := by
  subst ht'
  have hcases : ∀ a o, Function.update base p (some o₀) a = some o →
      (a = p ∧ o = o₀) ∨ (t.objects a = some o ∧ o.id ≠ o₀.id) := by
    intro a o ho
    by_cases ha : a = p
    · subst ha
      rw [Function.update_self, Option.some.injEq] at ho
      exact .inl ⟨rfl, ho.symm⟩
    · rw [Function.update_of_ne ha] at ho
      exact .inr (hbase a o ho)
  refine ⟨hR, hapart, fun a o a' o' ho ho' heq => ?_, fun a o ho => ?_,
    fun id hid => h.fresh id (Nat.le_of_succ_le hid), h.balanced, hrecords,
    fun a o ho hpinned => ?_⟩
  · rcases hcases a o ho with ⟨rfl, rfl⟩ | ⟨ho, hne⟩ <;>
      rcases hcases a' o' ho' with ⟨rfl, rfl⟩ | ⟨ho', hne'⟩
    · rfl
    · exact absurd heq.symm hne'
    · exact absurd heq hne
    · exact h.distinct a o a' o' ho ho' heq
  · rcases hcases a o ho with ⟨rfl, rfl⟩ | ⟨ho, -⟩
    · exact Nat.lt_succ_of_le hid
    · exact (h.id_lt a o ho).trans (Nat.lt_succ_self _)
  · rcases hcases a o ho with ⟨rfl, rfl⟩ | ⟨ho, -⟩
    · exact hsize hpinned
    · exact h.size_pos a o ho hpinned

theorem registerBlock (h : Tracks s t) {p bytes : ℕ} {desc : Option TypeDesc}
    (hfree : t.table.Free p bytes) (hs' : s.registerBlock p bytes desc = some s') :
    Tracks s' (t.apply (.alloc p bytes desc)) := by
  obtain ⟨s₁, hrun, hR⟩ := h.refines.exists_registerBlock hfree desc
  obtain rfl := Option.some.inj (hrun.symm.trans hs')
  have hkeeps := State.registerBlock_keeps hs'
  have hnone : t.objects p = none := Option.map_eq_none_iff.1 hfree.absent
  have hcounts : (t.apply (.alloc p bytes desc)).counts = t.counts := by
    funext a
    show (Function.update t.objects p _ a).elim 0 _ = (t.objects a).elim 0 _
    by_cases ha : a = p
    · subst ha
      rw [Function.update_self, hnone]
      show t.pins t.next - t.unpins t.next = 0
      rw [h.fresh _ le_rfl, Nat.zero_sub]
    · rw [Function.update_of_ne ha]
      rfl
  refine h.enter rfl (fun a o ho => ⟨ho, (h.id_lt a o ho).ne⟩) le_rfl (fun hpinned => ?_) ?_
    (h.apart.congr hkeeps.blocks) (by rw [hkeeps.pins, hcounts]; exact h.records)
  · have hlt : t.unpins t.next < t.pins t.next := hpinned
    rw [h.fresh _ le_rfl] at hlt
    cases hlt
  · have htable := t.table_apply (.alloc p bytes desc) []
    simp only [Ledger.table_erase, Table.erase_nil, Call.apply] at htable
    rwa [htable]

/-- The counts after an object has moved. -/
theorem counts_realloc (h : Tracks s t) {old result newSize : ℕ} {desc : Option TypeDesc} :
    (t.apply (.realloc old result newSize desc)).counts =
      Function.update (Function.update t.counts old 0) result (t.counts old) := by
  funext a
  show (Function.update (t.erase [old]).objects result _ a).elim 0 _ = _
  by_cases ha : a = result
  · subst ha
    rw [Function.update_self, Function.update_self, Ledger.counts]
    rcases ho : t.objects old with _ | o
    · show t.pins t.next - t.unpins t.next = 0
      rw [h.fresh _ le_rfl, Nat.zero_sub]
    · rfl
  · rw [Function.update_of_ne ha, Function.update_of_ne ha]
    by_cases hold : a = old
    · subst hold
      simp [Ledger.erase]
    · rw [Function.update_of_ne hold]
      simp [Ledger.erase, hold, Ledger.counts, Ledger.apply]

theorem reregisterBlock (h : Tracks s t) {old result newSize : ℕ} {desc : Option TypeDesc}
    (hkey : old ≠ Pidx.deletedKey) (hfree : (t.table.erase [old]).Free result newSize)
    (hP : PinCall.KeepsBytes t (.heap (.realloc old result newSize desc)))
    (hs' : s.reregisterBlock old result newSize desc = some s') :
    Tracks s' (t.apply (.realloc old result newSize desc)) := by
  obtain ⟨s₁, hrun, hR⟩ := h.refines.exists_reregisterBlock hkey hfree desc
  obtain rfl := Option.some.inj (hrun.symm.trans hs')
  obtain ⟨hkeeps, hpins⟩ := State.reregisterBlock_keeps hs'
  -- the region is free but for the block it may come from
  have hresult : result = old ∨ t.counts result = 0 := by
    by_cases heq : result = old
    · exact .inl heq
    · right
      have hnone := hfree.absent
      simp only [Table.erase, List.mem_singleton, heq, if_false] at hnone
      rw [Ledger.counts, Option.map_eq_none_iff.1 hnone, Option.elim_none]
  have hrecords : Records s₁.pins (t.apply (.realloc old result newSize desc)).counts := by
    rw [h.counts_realloc, hpins]
    rcases hpin : (if old ≠ 0 then s.findPin old else none) with _ | i
    · have h0 : t.counts old = 0 := by
        split_ifs at hpin with hold
        · exact (State.findPin_eq_none_iff h.records).1 hpin
        · rw [not_not.1 hold]
          exact h.counts_zero
      have hsame : Function.update (Function.update t.counts old 0) result (t.counts old) =
          t.counts := by
        rw [h0, ← h0, Function.update_eq_self, h0]
        refine Function.update_eq_self_iff.2 ?_
        rcases hresult with rfl | hr
        · exact h0.symm
        · exact hr.symm
      rw [hsame]
      exact h.records
    · split_ifs at hpin
      obtain ⟨q, hq, rfl⟩ := State.of_findPin hpin
      have hcons := h.records.perm (perm_cons_eraseIdx hq)
      rw [hcons.head.1]
      exact (hcons.move hresult).perm
        (modify_perm_cons_eraseIdx (fun p => { p with blockStart := result }) hq).symm
  refine h.enter rfl (fun a o ho => ?_) ?_ (fun hpinned => ?_) ?_ (h.apart.congr hkeeps.blocks)
    hrecords
  · simp only [Ledger.erase, List.mem_singleton] at ho
    split_ifs at ho with ha
    refine ⟨ho, ?_⟩
    rcases hold : t.objects old with _ | o'
    · exact (h.id_lt a o ho).ne
    · exact fun hid => ha (h.distinct a o old o' ho hold hid)
  · rcases hold : t.objects old with _ | o'
    · exact le_rfl
    · exact (h.id_lt old o' hold).le
  · rcases hold : t.objects old with _ | o'
    · rw [hold] at hpinned
      have hlt : t.unpins t.next < t.pins t.next := hpinned
      rw [h.fresh _ le_rfl] at hlt
      cases hlt
    · rw [hold] at hpinned
      exact hP o' hold hpinned
  · have htable := t.table_apply (.realloc old result newSize desc) []
    simp only [Ledger.table_erase, Table.erase_nil, Call.apply] at htable
    rwa [htable]

theorem heap (h : Tracks s t) {call : Call} {stress : Bool} {env : Env} {freed : List ℕ}
    (hP : PinCall.KeepsBytes t (.heap call)) (hcall : call.Admissible t.table)
    (hstep : call.step stress env s = some (s', freed)) :
    Tracks s' ((t.apply call).erase freed) := by
  cases call with
  | alloc p bytes desc =>
    simp only [Call.step, State.alloc, Option.bind_eq_bind, Option.bind_eq_some_iff] at hstep
    obtain ⟨s₁, h₁, hstep⟩ := hstep
    refine noteAlloc ?_ hstep
    exact (h.registerBlock hcall h₁).congr rfl rfl rfl rfl rfl
  | realloc old result newSize desc =>
    simp only [Call.step, State.realloc, Option.bind_eq_bind, Option.bind_eq_some_iff] at hstep
    obtain ⟨s₁, h₁, hstep⟩ := hstep
    refine noteAlloc ?_ hstep
    exact (h.reregisterBlock hcall.1 hcall.2 hP h₁).congr rfl rfl rfl rfl rfl
  | collect => exact h.collect hstep

/-! ### Pins -/

/-- An address is in at most one object, and the block of that contains it. -/
theorem owns_iff (h : Tracks s t) {a p id : ℕ} {o : Object} (ho : t.objects a = some o)
    (hin : Block.Contains ⟨a, o.size, o.desc⟩ p) : t.Owns p id ↔ id = o.id := by
  constructor
  · rintro ⟨a', o', ho', hle, hlt, rfl⟩
    have hfound := (State.findContainingAny_eq_some_iff h.refines.inv h.apart).2
      ⟨h.block_mem ho, hin⟩
    have hfound' := (State.findContainingAny_eq_some_iff h.refines.inv h.apart).2
      ⟨h.block_mem ho', hle, hlt⟩
    have ha : a = a' := congrArg Block.start (Option.some.inj (hfound.symm.trans hfound'))
    subst ha
    rw [Option.some.inj (ho.symm.trans ho')]
  · rintro rfl
    exact ⟨a, o, ho, hin.1, hin.2, rfl⟩

/-- An address no object owns is in no block. -/
theorem not_contains (h : Tracks s t) {p : ℕ} (hout : ∀ id, ¬ t.Owns p id) :
    ∀ b ∈ s.live, ¬ b.Contains p := by
  intro b hb hin
  obtain ⟨o, ho, hsize, -⟩ := h.mem_live.1 hb
  exact hout o.id ⟨b.start, o, ho, hin.1, by rw [hsize]; exact hin.2, rfl⟩

/-- The invariant after the pins of the object at `a` have changed. -/
theorem recount (h : Tracks s t) {t' : Ledger} {pins : List GcPin} {a : ℕ} {o : Object}
    (ho : t.objects a = some o) (hsize : 0 < o.size) (hobjects : t'.objects = t.objects)
    (hnext : t'.next = t.next) (hpins : ∀ id, id ≠ o.id → t'.pins id = t.pins id)
    (hunpins : ∀ id, id ≠ o.id → t'.unpins id = t.unpins id)
    (hbalanced : t'.unpins o.id ≤ t'.pins o.id)
    (hrecords : Records pins
      (Function.update t.counts a (t'.pins o.id - t'.unpins o.id))) :
    Tracks { s with pins := pins } t' := by
  have hcounts : t'.counts = Function.update t.counts a (t'.pins o.id - t'.unpins o.id) := by
    funext a'
    rw [Ledger.counts, hobjects]
    by_cases ha : a' = a
    · subst ha
      rw [ho, Function.update_self, Option.elim_some]
    · rw [Function.update_of_ne ha, Ledger.counts]
      rcases ho' : t.objects a' with _ | o'
      · rfl
      · have hid : o'.id ≠ o.id := fun hid => ha (h.distinct a' o' a o ho' ho hid)
        rw [Option.elim_some, Option.elim_some, hpins _ hid, hunpins _ hid]
  refine ⟨?_, h.apart.congr rfl, ?_, ?_, fun id hid => ?_, fun id => ?_, hcounts ▸ hrecords,
    fun a' o' ho' hpinned => ?_⟩
  · have htable : t'.table = t.table := by
      unfold Ledger.table
      rw [hobjects]
    rw [htable]
    exact h.refines.congr rfl rfl rfl rfl
  · rw [hobjects]
    exact h.distinct
  · rw [hobjects, hnext]
    exact h.id_lt
  · have hlt := h.id_lt a o ho
    rw [hpins id (by omega)]
    exact h.fresh id (hnext ▸ hid)
  · by_cases hid : id = o.id
    · rw [hid]
      exact hbalanced
    · rw [hpins id hid, hunpins id hid]
      exact h.balanced id
  · rw [hobjects] at ho'
    by_cases hid : o'.id = o.id
    · obtain rfl := h.distinct a' o' a o ho' ho hid
      obtain rfl := Option.some.inj (ho.symm.trans ho')
      exact hsize
    · unfold Ledger.Pinned at hpinned
      rw [hpins _ hid, hunpins _ hid] at hpinned
      exact h.size_pos a' o' ho' hpinned

theorem pin (h : Tracks s t) (p : ℕ) : Tracks (s.pin p) (t.pin p) := by
  by_cases howner : ∃ id, t.Owns p id
  · obtain ⟨id, a, o, ho, hle, hlt, rfl⟩ := howner
    have hin : Block.Contains ⟨a, o.size, o.desc⟩ p := ⟨hle, hlt⟩
    obtain ⟨pins, hpin, hrecords⟩ :=
      State.exists_pin h.refines.inv h.apart h.records (h.block_mem ho) hin
    have hbalanced := h.balanced o.id
    have hself : (t.pin p).pins o.id = t.pins o.id + 1 :=
      if_pos ((h.owns_iff ho hin).2 rfl)
    rw [hpin]
    refine h.recount ho (by omega) rfl rfl (fun id hid => ?_) (fun _ _ => rfl) ?_ ?_
    · exact if_neg fun hown => hid ((h.owns_iff ho hin).1 hown)
    · rw [hself]
      exact hbalanced.trans (Nat.le_succ _)
    · rw [hself]
      simp only [counts_eq ho] at hrecords
      show Records pins (Function.update t.counts a (t.pins o.id + 1 - t.unpins o.id))
      rwa [Nat.sub_add_comm hbalanced]
  · have hout : ∀ id, ¬ t.Owns p id := fun id hid => howner ⟨id, hid⟩
    have hsame : t.pin p = t := by simp [Ledger.pin, hout]
    rw [hsame, (State.pin_unpin_outside h.refines.inv h.apart (h.not_contains hout)).1]
    exact h

theorem unpin (h : Tracks s t) {p : ℕ} (hstep : s.unpin p = .ok s') : Tracks s' (t.unpin p) := by
  by_cases howner : ∃ id, t.Owns p id
  · obtain ⟨id, a, o, ho, hle, hlt, rfl⟩ := howner
    have hin : Block.Contains ⟨a, o.size, o.desc⟩ p := ⟨hle, hlt⟩
    have hpos : 0 < t.counts a := by
      refine Nat.pos_of_ne_zero fun h0 => ?_
      rw [State.unpin_eq_error h.refines.inv h.apart h.records (h.block_mem ho) hin h0] at hstep
      cases hstep
    obtain ⟨pins, hunpin, hrecords⟩ :=
      State.exists_unpin h.refines.inv h.apart h.records (h.block_mem ho) hin hpos
    obtain rfl := Except.ok.inj (hunpin.symm.trans hstep)
    rw [counts_eq ho] at hpos
    have hself : (t.unpin p).unpins o.id = t.unpins o.id + 1 :=
      if_pos ((h.owns_iff ho hin).2 rfl)
    refine h.recount ho (by omega) rfl rfl (fun _ _ => rfl) (fun id hid => ?_) ?_ ?_
    · exact if_neg fun hown => hid ((h.owns_iff ho hin).1 hown)
    · rw [hself]
      show t.unpins o.id + 1 ≤ t.pins o.id
      omega
    · rw [hself]
      simp only [counts_eq ho] at hrecords
      rwa [Nat.sub_sub] at hrecords
  · have hout : ∀ id, ¬ t.Owns p id := fun id hid => howner ⟨id, hid⟩
    have hsame : t.unpin p = t := by simp [Ledger.unpin, hout]
    rw [(State.pin_unpin_outside h.refines.inv h.apart (h.not_contains hout)).2] at hstep
    obtain rfl := Except.ok.inj hstep
    rw [hsame]
    exact h

theorem faithful (h : Tracks s t) : PinsFaithful s t where
  recorded a o ho := by
    have hbalanced := h.balanced o.id
    rw [State.recorded_eq h.records, counts_eq ho]
    omega
  kept env s' freed hcollect a o := h.not_mem_freed hcollect
  freed_iff env s' freed hcollect a o := h.mem_freed_iff hcollect
  panics_iff p := by
    constructor
    · intro herror
      by_contra hno
      by_cases howner : ∃ id, t.Owns p id
      · obtain ⟨id, a, o, ho, hle, hlt, rfl⟩ := howner
        have hne : t.pins o.id ≠ t.unpins o.id := fun heq =>
          hno ⟨o.id, ⟨a, o, ho, hle, hlt, rfl⟩, heq⟩
        have hbalanced := h.balanced o.id
        obtain ⟨pins, hok, -⟩ := State.exists_unpin h.refines.inv h.apart h.records
          (h.block_mem ho) (p := p) ⟨hle, hlt⟩ (by simp only [counts_eq ho]; omega)
        rw [hok] at herror
        cases herror
      · have hout := State.pin_unpin_outside h.refines.inv h.apart
          (h.not_contains fun id hid => howner ⟨id, hid⟩)
        rw [hout.2] at herror
        cases herror
    · rintro ⟨id, ⟨a, o, ho, hle, hlt, rfl⟩, heq⟩
      refine State.unpin_eq_error h.refines.inv h.apart h.records (h.block_mem ho) ⟨hle, hlt⟩ ?_
      simp only [counts_eq ho]
      omega
  outside p hout := State.pin_unpin_outside h.refines.inv h.apart (h.not_contains hout)
  succeeds env := by
    obtain ⟨s', freed, hrun, -⟩ := h.refines.exists_collect env
    exact ⟨s', freed, hrun⟩

end Tracks

/-! ### Runs -/

theorem PinRuns.tracks {s : State} {t : Ledger} (h : PinRuns PinCall.KeepsBytes s t) :
    Tracks s t := by
  induction h with
  | init => exact .init
  | heap _ hP hcall hstep ih => exact ih.heap hP hcall hstep
  | pin _ _ ih => exact ih.pin _
  | unpin _ _ hstep ih => exact ih.unpin hstep

/-- The ledger of an allocation of 8 bytes at 16 and a pin of it. -/
noncomputable def pinnedLedger : Ledger :=
  ((Ledger.empty.apply (.alloc 16 8 none)).erase []).pin 16

theorem pinnedLedger_objects : pinnedLedger.objects 16 = some ⟨0, 8, none⟩ := rfl

theorem pinnedLedger_pinned : pinnedLedger.pins 0 = 1 ∧ pinnedLedger.unpins 0 = 0 := by
  refine ⟨?_, rfl⟩
  refine if_pos ⟨16, ⟨0, 8, none⟩, rfl, le_rfl, by decide, rfl⟩

theorem exists_pinnedRun : ∃ s, PinRuns PinCall.KeepsBytes s pinnedLedger ∧
    s.bytesSinceCollect = 8 ∧ s.gcThreshold = initialThreshold := by
  obtain ⟨s, hs, hbytes, hthreshold⟩ := exists_firstAlloc
  have hrun : PinRuns PinCall.KeepsBytes s ((Ledger.empty.apply (.alloc 16 8 none)).erase []) :=
    .heap .init trivial ⟨by decide, fun a n desc h => by cases h⟩ hs
  obtain ⟨pins, hpin, -⟩ := State.exists_pin hrun.tracks.refines.inv hrun.tracks.apart
    hrun.tracks.records (b := ⟨16, 8, none⟩) (p := 16)
    (hrun.tracks.block_mem (o := ⟨0, 8, none⟩) rfl) ⟨le_rfl, by decide⟩
  refine ⟨s.pin 16, hrun.pin trivial, ?_, ?_⟩
  · rw [hpin]
    exact hbytes
  · rw [hpin]
    exact hthreshold

end TurfLang.Gc
