import TurfLang.Std.Map.BucketIndex
import TurfLang.Std.Set.Refinement

/-!
# `lib/std/collections/set.tr`: the bucket index over a run

The index of a set is that of the map with the same buckets, so it is consistent under the same
condition.
-/

namespace TurfLang.Set

open Probing

namespace Header

variable {T : Type} [BEq T] [Hashable T] {h : Header T}

/-- The capacity with which `bucket_maybe_grow` calls `bucket_rehash`. -/
def CallsRehash (h : Header T) (newBcap : ℕ) : Prop :=
  h.bcap = 0 ∧ newBcap = 8 ∨
    h.bcap ≠ 0 ∧ (h.len + h.tombs + 1) * 10 ≥ h.bcap * 7 ∧
      newBcap = if (h.len + 1) * 20 ≥ h.bcap * 7 then h.bcap * 2 else h.bcap

/-- The index is consistent, and stays so when it is built anew. -/
structure IndexConsistent (h : Header T) : Prop where
  consistent : Map.Consistent h.home h.items h.buckets h.tombs
  rehash : ∀ n, h.CallsRehash n → ∃ h', h.bucketRehash n = some h' ∧ h'.items = h.items ∧
    Map.indexed h'.items h'.buckets = Map.indexed h.items h.buckets ∧
    Map.Consistent h'.home h'.items h'.buckets h'.tombs

/-- If the removal of an item moves the last one, that one is equal to itself. -/
def MovesEqual (h : Header T) (item : T) : Prop :=
  ∀ slot i moved, h.bucketFind item = some slot → h.position slot = some i → i ≠ h.len - 1 →
    h.items[h.len - 1]? = some moved → (moved == moved) = true

/-- The sets that insertions and removals lead to. -/
inductive Reachable : Header T → Prop
  | empty : Reachable empty
  | add {h h' : Header T} {item : T} : Reachable h → h.add item = some h' → Reachable h'
  | remove {h h' : Header T} {item : T} {found : Bool} :
      Reachable h → h.MovesEqual item → h.remove item = some (h', found) → Reachable h'

theorem Inv.indexConsistent (hI : h.Inv) : h.IndexConsistent where
  consistent := Map.Header.Inv.consistent hI
  rehash n hn := by
    obtain ⟨m, hrun, hkeys, hindexed, hconsistent⟩ := Map.Header.Inv.rehash hI hn
    rw [bucketRehash_toMap, Option.map_eq_some_iff] at hrun
    obtain ⟨h', hrun', rfl⟩ := hrun
    exact ⟨h', hrun', hkeys, hindexed, hconsistent⟩

section

variable [PartialEquivBEq T] [LawfulHashable T]

theorem Inv.exists_add (hI : h.Inv) (item : T) : ∃ h', h.add item = some h' ∧ h'.Inv := by
  obtain ⟨i, x, hx, heq⟩ | habs := Map.Header.Inv.mem_or_absent h.toMap item
  · exact ⟨h, hI.add_of_mem hx heq, hI⟩
  · obtain ⟨h', hadd, hI', -⟩ := hI.exists_add_of_notMem habs
    exact ⟨h', hadd, hI'⟩

theorem Inv.exists_remove (hI : h.Inv) {item : T} (hmoves : h.MovesEqual item) :
    ∃ result, h.remove item = some result ∧ result.1.Inv := by
  have hmoves' : h.toMap.MovesEqual item := fun slot i moved hslot =>
    hmoves slot i moved (bucketFind_toMap h item ▸ hslot)
  obtain ⟨m, hrun, hI'⟩ := Map.Header.Inv.exists_remove hI hmoves'
  rw [remove_toMap, Option.map_eq_some_iff] at hrun
  obtain ⟨result, hremove, rfl⟩ := hrun
  exact ⟨result, hremove, hI'⟩

theorem Inv.of_reachable (hR : h.Reachable) : h.Inv := by
  induction hR with
  | empty => exact empty_inv
  | add _ hadd ih =>
    obtain ⟨h', hadd', hI'⟩ := ih.exists_add _
    exact Option.some.inj (hadd'.symm.trans hadd) ▸ hI'
  | remove _ hmoves hremove ih =>
    obtain ⟨result, hremove', hI'⟩ := ih.exists_remove hmoves
    rwa [Option.some.inj (hremove'.symm.trans hremove)] at hI'

end

end Header

/-! ### Both collections -/

/-- After any insertions and removals, none of which moves an element that is not equal to itself,
the bucket index of a map and of a set is consistent, and the next call ends. -/
theorem bucket_index_consistent {T V : Type} [BEq T] [PartialEquivBEq T] [Hashable T]
    [LawfulHashable T] :
    (∀ m : Map.Header T V, m.Reachable → m.IndexConsistent ∧
      (∀ key value, ∃ m', m.put key value = some m') ∧
      ∀ key, m.MovesEqual key → ∃ m', m.remove key = some m') ∧
    ∀ s : Header T, s.Reachable → s.IndexConsistent ∧
      (∀ item, ∃ s', s.add item = some s') ∧
      ∀ item, s.MovesEqual item → ∃ result, s.remove item = some result := by
  refine ⟨fun m hm => ?_, fun s hs => ?_⟩
  · have hI := Map.Header.Inv.of_reachable hm
    exact ⟨hI.indexConsistent, fun key value => (hI.exists_put key value).imp fun _ h => h.1,
      fun key hmoves => (hI.exists_remove hmoves).imp fun _ h => h.1⟩
  · have hI := Header.Inv.of_reachable hs
    exact ⟨hI.indexConsistent, fun item => (hI.exists_add item).imp fun _ h => h.1,
      fun item hmoves => (hI.exists_remove hmoves).imp fun _ h => h.1⟩

/-! ### A key that is not equal to itself -/

/-- Some of the values of `double`. -/
inductive Number
  | nan
  | whole (n : ℕ)

/-- `==` of `double`. -/
instance : BEq Number where
  beq
    | .whole m, .whole n => m == n
    | _, _ => false

instance : Hashable Number where
  hash
    | .nan => 0
    | .whole n => UInt64.ofNat n

instance : PartialEquivBEq Number where
  symm {a b} h := by
    cases a <;> cases b <;> first | cases h | exact BEq.symm (α := ℕ) h
  trans {a b c} hab hbc := by
    cases a <;> cases b <;> cases c <;> first | cases hab | cases hbc | exact BEq.trans (α := ℕ) hab hbc

instance : LawfulHashable Number where
  hash_eq a b h := by
    cases a with
    | nan => cases h
    | whole m =>
      cases b with
      | nan => cases h
      | whole n => rw [eq_of_beq (α := ℕ) h]

/-- The map with the keys 1 and NaN. -/
def oneAndNan : Map.Header Number Unit where
  keys := [.whole 1, .nan]
  values := [(), ()]
  cap := 8
  buckets := [.full 1, .full 0, .empty, .empty, .empty, .empty, .empty, .empty]
  tombs := 0

/-- What is left of it when 1 is removed: NaN is in the first position, and its bucket names the
second. -/
def nanAlone : Map.Header Number Unit where
  keys := [.nan]
  values := [()]
  cap := 8
  buckets := [.full 1, .tomb, .empty, .empty, .empty, .empty, .empty, .empty]
  tombs := 1

theorem reachable_oneAndNan : oneAndNan.Reachable := by
  obtain ⟨m, hm, hnan⟩ : ∃ m, (Map.Header.empty : Map.Header Number Unit).put (.whole 1) () =
      some m ∧ m.put .nan () = some oneAndNan := ⟨_, rfl, rfl⟩
  exact .put (.put .empty hm) hnan

theorem bucket_index_consistent_oneAndNan : oneAndNan.IndexConsistent :=
  ((bucket_index_consistent (T := Number) (V := Unit)).1 oneAndNan reachable_oneAndNan).1

/-- The bucket of NaN is not found to be retargeted. -/
theorem not_consistent_nanAlone : oneAndNan.Reachable ∧
    oneAndNan.remove (.whole 1) = some nanAlone ∧
    ¬ Map.Consistent nanAlone.home nanAlone.keys nanAlone.buckets nanAlone.tombs := by
  refine ⟨reachable_oneAndNan, rfl, fun h => ?_⟩
  have hlt := h.position (s := 0) (i := 1) rfl
  exact absurd hlt (by decide)

end TurfLang.Set
