import TurfLang.Runtime.Pins

/-!
# `turfrt_gc.c` and `src/codegen/CodegenArray.cpp`: how far a string may be written

A store `s[i] = c` is bounded by the allocation that holds `s`, which `turf_rt_string_capacity`
looks up between collections: the sorted part of the table may have dead entries, and blocks that
took over their memory are pending.
-/

namespace TurfLang.Gc

/-- The block is allocated. -/
def Table.Holds (m : Table) (b : Block) : Prop := m b.start = some (b.size, b.desc)

/-- What `malloc` promises of the regions it hands out: the address after the last byte is an
address, and there are at most `PTRDIFF_MAX` bytes. -/
def Table.InMemory (m : Table) : Prop :=
  ∀ b, m.Holds b → b.start + b.size < 2 ^ 64 ∧ b.size < 2 ^ 63

/-- The conversion of a `size_t` to an `int64_t`. -/
def toInt64 (n : ℕ) : ℤ := (n : ℤ).bmod (2 ^ 64)

theorem toInt64_eq {n : ℕ} (h : n < 2 ^ 63) : toInt64 n = n :=
  Int.bmod_eq_of_le_mul_two (by omega) (by omega)

/-- The texts `EmitStringBoundsCheck` panics with. -/
inductive StringPanic
  | outOfBounds
  | notHeapString
  deriving DecidableEq

def StringPanic.text : StringPanic → String
  | outOfBounds => "String index out of bounds"
  | notHeapString => "Cannot write into this string: it is not a heap string (a string " ++
      "literal, or memory the program does not own)"

/-- `EmitStringBoundsCheck` without an upper bound, of a string with the given `strlen` and
capacity: the index that is stored at. -/
def emitStringBoundsCheck (strlen : ℕ) (cap index : ℤ) : Except StringPanic ℤ :=
  let index := if index < 0 then (index + strlen).bmod (2 ^ 64) else index
  if index < 0 then .error .outOfBounds
  else if cap < 0 then .error .notHeapString
  else if index ≥ cap then .error .outOfBounds
  else .ok index

/-- The check lets through the indices below the capacity. -/
theorem emitStringBoundsCheck_eq_ok {strlen : ℕ} {cap index i : ℤ}
    (h : emitStringBoundsCheck strlen cap index = .ok i) : 0 ≤ i ∧ i < cap := by
  unfold emitStringBoundsCheck at h
  simp only at h
  split_ifs at h <;> obtain rfl := Except.ok.inj h <;> omega

theorem emitStringBoundsCheck_of_lt {strlen : ℕ} {cap index : ℤ} (h0 : 0 ≤ index)
    (hlt : index < cap) : emitStringBoundsCheck strlen cap index = .ok index := by
  rw [emitStringBoundsCheck, if_neg (by omega), if_neg (by omega), if_neg (by omega),
    if_neg (by omega)]

namespace State

/-- `turf_rt_string_capacity`; `none` is a lookup that does not end, or that reads past the
tables. -/
def stringCapacity (s : State) (p : ℕ) : Option ℤ :=
  if p = 0 then some (-1)
  else do
    let i ← s.findExactInPending p
    match i with
    | some i =>
      let b ← s.pending[i]?
      return toInt64 b.size
    | none =>
      match findExactInBlocks s.blocks p with
      | some i =>
        let b ← s.blocks[i]?
        return toInt64 b.size
      | none =>
        match s.findContainingAny p with
        | some b => return toInt64 (b.start + b.size - p)
        | none => return -1

/-- The check of a store at an index of the string at `p`. -/
def checkStringWrite (s : State) (strlen : ℕ → ℕ) (p : ℕ) (index : ℤ) :
    Option (Except StringPanic ℤ) :=
  (s.stringCapacity p).map fun cap => emitStringBoundsCheck (strlen p) cap index

/-! ### Dead entries stay apart -/

variable {s s' : State} {m : Table}

theorem collect_apart (hI : s.Inv) {env : Env} {freed : List ℕ}
    (h : s.collect env = some (s', freed)) : s'.Apart := by
  obtain ⟨t, freed', hrun, hC⟩ := hI.exists_collect env
  obtain ⟨rfl, rfl⟩ := Prod.mk.inj (Option.some.inj (hrun.symm.trans h))
  exact apart_of_alive hC.inv (collect_pins hI h).2

theorem noteAlloc_apart (hI : s.Inv) (hapart : s.Apart) {stress : Bool} {env : Env} {bytes : ℕ}
    {freed : List ℕ} (h : s.noteAlloc stress env bytes = some (s', freed)) : s'.Apart := by
  unfold noteAlloc at h
  simp only at h
  split_ifs at h
  · have hI' : { s with bytesSinceCollect := (s.bytesSinceCollect + bytes) % 2 ^ 64 }.Inv :=
      hI.congr rfl rfl rfl rfl
    exact collect_apart hI' h
  · obtain ⟨rfl, -⟩ := Prod.mk.inj (Option.some.inj h)
    exact hapart.congr rfl

end State

/-- A call leaves no two entries of the sorted part that overlap. -/
theorem Refines.step_apart {s s' : State} {m : Table} (h : Refines s m) (hapart : s.Apart)
    {call : Call} (hcall : call.Admissible m) {stress : Bool} {env : Env} {freed : List ℕ}
    (hstep : call.step stress env s = some (s', freed)) : s'.Apart := by
  cases call with
  | alloc p bytes desc =>
    simp only [Call.step, State.alloc, Option.bind_eq_bind, Option.bind_eq_some_iff] at hstep
    obtain ⟨s₁, h₁, hstep⟩ := hstep
    obtain ⟨t, ht, hR⟩ := h.exists_registerBlock hcall desc
    obtain rfl := Option.some.inj (ht.symm.trans h₁)
    refine State.noteAlloc_apart ?_ ?_ hstep
    · exact hR.inv.congr rfl rfl rfl rfl
    · exact hapart.congr (State.registerBlock_keeps h₁).blocks
  | realloc old result newSize desc =>
    simp only [Call.step, State.realloc, Option.bind_eq_bind, Option.bind_eq_some_iff] at hstep
    obtain ⟨s₁, h₁, hstep⟩ := hstep
    obtain ⟨t, ht, hR⟩ := h.exists_reregisterBlock hcall.1 hcall.2 desc
    obtain rfl := Option.some.inj (ht.symm.trans h₁)
    refine State.noteAlloc_apart ?_ ?_ hstep
    · exact hR.inv.congr rfl rfl rfl rfl
    · exact hapart.congr (State.reregisterBlock_keeps h₁).1.blocks
  | collect => exact State.collect_apart h.inv hstep

theorem Runs.apart {s : State} {m : Table} (h : Runs s m) : s.Apart := by
  induction h with
  | init => exact State.apart_init
  | step h hcall hstep ih => exact h.refines.step_apart ih hcall hstep

/-! ### The capacity -/

section Capacity

variable {s : State} {m : Table} {p : ℕ}

/-- The containment query finds the block that holds the address, and nothing when none does. -/
theorem Runs.findContainingAny_iff (h : Runs s m) {b : Block} :
    s.findContainingAny p = some b ↔ m.Holds b ∧ b.Contains p := by
  rw [State.findContainingAny_eq_some_iff h.refines.inv h.apart, h.refines.mem_live, Table.Holds]

/-- At the start of a block the capacity is the block's size. -/
theorem Refines.stringCapacity_start (h : Refines s m) {size : ℕ} {desc : Option TypeDesc}
    (hp : m p = some (size, desc)) : s.stringCapacity p = some (toInt64 size) := by
  have h0 : p ≠ 0 := by
    have := h.inv.valid_start ⟨p, size, desc⟩ ((h.mem_live _).2 hp)
    simp only at this
    omega
  rw [State.stringCapacity, if_neg h0]
  rcases h.lookup_of_some hp with ⟨i, e, hfind, he, heq, -⟩ | ⟨hfind, i, e, hfind', he, heq⟩
  · have hsize : e.size = size := congrArg Block.size heq
    simp [hfind, he, hsize]
  · have hsize : e.size = size := congrArg Block.size heq
    simp [hfind, hfind', he, hsize]

/-- Elsewhere it is what the containment query says. -/
theorem Refines.stringCapacity_interior (h : Refines s m) (hp : m p = none)
    (hkey : p ≠ Pidx.deletedKey) (h0 : p ≠ 0) {b : Block} (hany : s.findContainingAny p = some b) :
    s.stringCapacity p = some (toInt64 (b.start + b.size - p)) := by
  obtain ⟨hfind, hfind'⟩ := h.lookup_of_none hp hkey
  rw [State.stringCapacity, if_neg h0]
  simp [hfind, hfind', hany]

theorem Refines.stringCapacity_outside (h : Refines s m) (hp : m p = none)
    (hkey : p ≠ Pidx.deletedKey) (hany : s.findContainingAny p = none) :
    s.stringCapacity p = some (-1) := by
  rw [State.stringCapacity]
  split_ifs with h0
  · rfl
  · obtain ⟨hfind, hfind'⟩ := h.lookup_of_none hp hkey
    simp [hfind, hfind', hany]

/-- In a block the capacity is the rest of it. -/
theorem Runs.stringCapacity_of_contains (h : Runs s m) (hm : m.InMemory)
    (hkey : p ≠ Pidx.deletedKey) {b : Block} (hb : m.Holds b) (hin : b.Contains p) :
    s.stringCapacity p = some ((b.start : ℤ) + b.size - p) := by
  obtain ⟨-, hsize⟩ := hm b hb
  obtain ⟨hle, hlt⟩ := hin
  rcases Nat.eq_or_lt_of_le hle with rfl | hlt'
  · rw [h.refines.stringCapacity_start hb, toInt64_eq hsize]
    congr 1
    omega
  · have hvalid : 1 < b.start := h.refines.inv.valid_start b ((h.refines.mem_live b).2 hb)
    have hnone : m p = none := by
      rcases hp : m p with _ | ⟨size, desc⟩
      · rfl
      · have := h.refines.inv.separated b ((h.refines.mem_live b).2 hb) ⟨p, size, desc⟩
          ((h.refines.mem_live _).2 hp) hlt'
        simp only at this
        omega
    rw [h.refines.stringCapacity_interior hnone hkey (by omega)
      (h.findContainingAny_iff.2 ⟨hb, hle, hlt⟩), toInt64_eq (by omega)]
    congr 1
    omega

/-- In no block it is `-1`, unless an empty block starts there. -/
theorem Runs.stringCapacity_outside (h : Runs s m) (hkey : p ≠ Pidx.deletedKey)
    (hp : m p = none) (hout : ∀ b, m.Holds b → ¬ b.Contains p) :
    s.stringCapacity p = some (-1) := by
  have hany : s.findContainingAny p = none := by
    rcases hany : s.findContainingAny p with _ | b
    · rfl
    · obtain ⟨hb, hin⟩ := h.findContainingAny_iff.1 hany
      exact absurd hin (hout b hb)
  exact h.refines.stringCapacity_outside hp hkey hany

end Capacity

/-- The capacity is the rest of the block that holds the address, and `-1` when none does. -/
def CapacityIsRest (s : State) (m : Table) : Prop :=
  ∀ p, (∀ b, m.Holds b → b.Contains p → s.stringCapacity p = some ((b.start : ℤ) + b.size - p)) ∧
    ((∀ b, m.Holds b → ¬ b.Contains p) → s.stringCapacity p = some (-1))

/-- The run of an allocation of no bytes. -/
theorem exists_emptyRun :
    ∃ s, Runs s (Function.update (fun _ => none) 16 (some (0, none))) := by
  have hcall : Call.Admissible (fun _ => none) (.alloc 16 0 none) := ⟨by decide, by simp⟩
  have hfree : Table.Free (fun _ => none) 16 0 := hcall
  obtain ⟨t, ht, -⟩ := Refines.init.exists_registerBlock hfree none
  have hkeeps := State.registerBlock_keeps ht
  have hbytes : t.bytesSinceCollect = 0 := hkeeps.bytesSinceCollect
  have hthreshold : t.gcThreshold = initialThreshold := hkeeps.gcThreshold
  obtain ⟨s, hs⟩ : ∃ s, Call.step false State.sampleEnv {} (.alloc 16 0 none) = some (s, []) := by
    rw [Call.step, State.alloc, ht, Option.bind_eq_bind, Option.bind_some]
    simp [State.noteAlloc, hbytes, hthreshold, initialThreshold]
  refine ⟨s, ?_⟩
  have hruns := Runs.init.step hcall hs
  rwa [Call.apply, Table.erase_nil] at hruns

/-- After every run the containment query finds the allocated block that holds an address. In such
a block the capacity of a string is the rest of the block; at the start of an empty block it is
zero, and elsewhere `-1`. So a store is let through at bytes of the block that holds the string,
and at no others. -/
theorem containment_finds_allocated {s : State} {m : Table} (h : Runs s m) (hm : m.InMemory) :
    (∀ p b, s.findContainingAny p = some b ↔ m.Holds b ∧ b.Contains p) ∧
      ∀ p, p ≠ Pidx.deletedKey →
        (∀ b, m.Holds b → b.Contains p →
          s.stringCapacity p = some ((b.start : ℤ) + b.size - p)) ∧
        (∀ desc, m p = some (0, desc) → s.stringCapacity p = some 0) ∧
        ((∀ b, m.Holds b → ¬ b.Contains p) → m p = none → s.stringCapacity p = some (-1)) ∧
        (∀ strlen index i, s.checkStringWrite strlen p index = some (.ok i) →
          ∃ b, m.Holds b ∧ b.Contains p ∧ 0 ≤ i ∧ b.Contains (p + i.toNat)) ∧
        ∀ strlen b (i : ℕ), m.Holds b → b.Contains p → b.Contains (p + i) →
          s.checkStringWrite strlen p i = some (.ok i) := by
  refine ⟨fun p b => h.findContainingAny_iff, fun p hkey => ?_⟩
  have hin : ∀ b, m.Holds b → b.Contains p →
      s.stringCapacity p = some ((b.start : ℤ) + b.size - p) :=
    fun b hb hbp => h.stringCapacity_of_contains hm hkey hb hbp
  have hempty : ∀ desc, m p = some (0, desc) → s.stringCapacity p = some 0 :=
    fun desc hp => (h.refines.stringCapacity_start hp).trans rfl
  have hout : (∀ b, m.Holds b → ¬ b.Contains p) → m p = none → s.stringCapacity p = some (-1) :=
    fun hb hp => h.stringCapacity_outside hkey hp hb
  refine ⟨hin, hempty, hout, fun strlen index i hwrite => ?_, fun strlen b i hb hbp hbi => ?_⟩
  · obtain ⟨cap, hcap, hcheck⟩ := Option.map_eq_some_iff.1 hwrite
    obtain ⟨h0, hlt⟩ := emitStringBoundsCheck_eq_ok hcheck
    by_cases hheld : ∃ b, m.Holds b ∧ b.Contains p
    · obtain ⟨b, hb, hbp⟩ := hheld
      have hrest := Option.some.inj (hcap.symm.trans (hin b hb hbp))
      refine ⟨b, hb, hbp, h0, ?_⟩
      unfold Block.Contains at hbp ⊢
      omega
    -- no block holds the string, so the capacity leaves no index
    · exfalso
      have hnot : ∀ b, m.Holds b → ¬ b.Contains p := fun b hb hbp => hheld ⟨b, hb, hbp⟩
      rcases hp : m p with _ | ⟨size, desc⟩
      · have := Option.some.inj (hcap.symm.trans (hout hnot hp))
        omega
      · obtain rfl : size = 0 := by
          have hstart := hnot ⟨p, size, desc⟩ hp
          unfold Block.Contains at hstart
          simp only at hstart
          omega
        have := Option.some.inj (hcap.symm.trans (hempty desc hp))
        omega
  · rw [State.checkStringWrite, hin b hb hbp, Option.map_some]
    unfold Block.Contains at hbp hbi
    rw [emitStringBoundsCheck_of_lt (by omega) (by omega)]

theorem containment_finds_allocated_sampleRun :
    ∃ s : State, s.findContainingAny 19 = some ⟨16, 8, none⟩ ∧
      s.stringCapacity 19 = some 5 := by
  obtain ⟨s, hs⟩ := exists_sampleRun
  have hholds : Table.Holds (Function.update (fun _ => none) 16 (some (8, none))) ⟨16, 8, none⟩ :=
    Function.update_self ..
  have hm : Table.InMemory (Function.update (fun _ => none) 16 (some (8, none))) := by
    intro b hb
    by_cases hstart : b.start = 16
    · rw [Table.Holds, hstart, Function.update_self] at hb
      have hsize : 8 = b.size := congrArg Prod.fst (Option.some.inj hb)
      omega
    · rw [Table.Holds, Function.update_of_ne hstart] at hb
      cases hb
  have hall := containment_finds_allocated hs hm
  have hin : Block.Contains ⟨16, 8, none⟩ 19 := by decide
  exact ⟨s, (hall.1 19 _).2 ⟨hholds, hin⟩, (hall.2 19 (by decide)).1 _ hholds hin⟩

/-- No address is in an empty block, and yet the capacity at its start is not `-1`. -/
theorem not_capacityIsRest_emptyBlock :
    ¬ ∀ s m, Runs s m → m.InMemory → CapacityIsRest s m := by
  intro hall
  obtain ⟨s, hs⟩ := exists_emptyRun
  have hempty : ∀ b, Table.Holds (Function.update (fun _ => none) 16 (some (0, none))) b →
      b.start = 16 ∧ b.size = 0 := by
    intro b hb
    by_cases hstart : b.start = 16
    · rw [Table.Holds, hstart, Function.update_self] at hb
      have hsize : 0 = b.size := congrArg Prod.fst (Option.some.inj hb)
      exact ⟨hstart, hsize.symm⟩
    · rw [Table.Holds, Function.update_of_ne hstart] at hb
      cases hb
  have hrest := hall s _ hs (fun b hb => by
    obtain ⟨hstart, hsize⟩ := hempty b hb
    omega)
  have hout := (hrest 16).2 fun b hb hin => by
    obtain ⟨hstart, hsize⟩ := hempty b hb
    unfold Block.Contains at hin
    omega
  have hzero : s.stringCapacity 16 = some (toInt64 0) :=
    hs.refines.stringCapacity_start (Function.update_self ..)
  cases hout.symm.trans hzero

end TurfLang.Gc
