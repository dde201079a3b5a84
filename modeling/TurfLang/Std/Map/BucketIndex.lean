import TurfLang.Std.Map.Operations

/-!
# `lib/std/collections/map.tr`: the bucket index over a run

What the comments of the module say of the bucket index, after any insertions and removals. A
removal looks the last key up to retarget its bucket, which fails if that key is not equal to
itself, as NaN is.
-/

namespace TurfLang.Map

open Probing

/-! ### What is said of the index -/

section

variable {K : Type}

/-- The pairs of an element and its position that live buckets name. -/
def indexed (elements : List K) (buckets : List (Cell ℕ)) : Set (K × ℕ) :=
  {p | (∃ s : ℕ, buckets[s]? = some (.full p.2)) ∧ elements[p.2]? = some p.1}

/-- The five clauses: positions and live buckets are in bijection, live buckets are on the probe
paths of their elements, the counts are true, and a bucket is empty. -/
structure Consistent (home : K → ℕ) (elements : List K) (buckets : List (Cell ℕ)) (tombs : ℕ) :
    Prop where
  named : ∀ i < elements.length, ∃! s : ℕ, buckets[s]? = some (.full i)
  position : ∀ {s i : ℕ}, buckets[s]? = some (.full i) → i < elements.length
  onPath : ∀ {s i : ℕ} {k : K}, buckets[s]? = some (.full i) → elements[i]? = some k →
    OnPath buckets (home k) s
  live_count : buckets.countP Cell.isFull = elements.length
  tomb_count : buckets.countP Cell.isTomb = tombs
  room : buckets ≠ [] → elements.length + tombs < buckets.length
  empty_mem : buckets ≠ [] → Cell.empty ∈ buckets

end

namespace Header

variable {K V : Type} [BEq K] [Hashable K] {h : Header K V}

/-- The capacity with which `bucket_maybe_grow` calls `bucket_rehash`. -/
def CallsRehash (h : Header K V) (newBcap : ℕ) : Prop :=
  h.bcap = 0 ∧ newBcap = 8 ∨
    h.bcap ≠ 0 ∧ (h.len + h.tombs + 1) * 10 ≥ h.bcap * 7 ∧
      newBcap = if (h.len + 1) * 20 ≥ h.bcap * 7 then h.bcap * 2 else h.bcap

/-- The index is consistent, and stays so when it is built anew. -/
structure IndexConsistent (h : Header K V) : Prop where
  consistent : Consistent h.home h.keys h.buckets h.tombs
  rehash : ∀ n, h.CallsRehash n → ∃ h', h.bucketRehash n = some h' ∧ h'.keys = h.keys ∧
    indexed h'.keys h'.buckets = indexed h.keys h.buckets ∧
    Consistent h'.home h'.keys h'.buckets h'.tombs

/-- If the removal of a key moves the last entry, the key of that one is equal to itself. -/
def MovesEqual (h : Header K V) (key : K) : Prop :=
  ∀ slot i moved, h.bucketFind key = some slot → h.position slot = some i → i ≠ h.len - 1 →
    h.keys[h.len - 1]? = some moved → (moved == moved) = true

/-- The maps that insertions and removals lead to. -/
inductive Reachable : Header K V → Prop
  | empty : Reachable empty
  | put {h h' : Header K V} {key : K} {value : V} :
      Reachable h → h.put key value = some h' → Reachable h'
  | remove {h h' : Header K V} {key : K} :
      Reachable h → h.MovesEqual key → h.remove key = some h' → Reachable h'

namespace Inv

theorem consistent (hI : h.Inv) : Consistent h.home h.keys h.buckets h.tombs where
  named i hi := by
    obtain ⟨s, _, hs, rfl, -⟩ := hI.index.onPath (i := i) (h := h.home h.keys[i]) (by simp [hi])
    exact ⟨s, hs, fun s' hs' => hI.index.slot_inj hs' hs rfl⟩
  position hs := by simpa using hI.index.pos_lt hs
  onPath {s i k} hs hk := by
    obtain ⟨s', _, hs', rfl, hon⟩ := hI.index.onPath (i := i) (h := h.home k) (by simp [hk])
    rwa [hI.index.slot_inj hs hs' rfl]
  live_count := by simpa using hI.index.count_full
  tomb_count := hI.tombs_eq
  room hne := hI.room (List.length_pos_iff.mpr hne).ne'
  empty_mem hne := by
    have hroom := hI.room (List.length_pos_iff.mpr hne).ne'
    refine empty_mem_of_count_lt ?_
    rw [hI.index.count_full, hI.tombs_eq, List.length_map]
    exact hroom

/-- An index names every element at its position. -/
theorem indexed_eq (hI : h.Inv) : indexed h.keys h.buckets = {p | h.keys[p.2]? = some p.1} := by
  ext ⟨k, i⟩
  refine ⟨fun hp => hp.2, fun hk => ⟨?_, hk⟩⟩
  obtain ⟨s, hs, -⟩ := hI.consistent.named i (List.getElem?_eq_some_iff.mp hk).1
  exact ⟨s, hs⟩

theorem rehash (hI : h.Inv) {n : ℕ} (hn : h.CallsRehash n) :
    ∃ h', h.bucketRehash n = some h' ∧ h'.keys = h.keys ∧
      indexed h'.keys h'.buckets = indexed h.keys h.buckets ∧
      Consistent h'.home h'.keys h'.buckets h'.tombs := by
  obtain ⟨hpow, hroom⟩ : (∃ k, n = 2 ^ k) ∧ h.len < n := by
    obtain ⟨h0, rfl⟩ | ⟨h0, hload, rfl⟩ := hn
    · have hcount := hI.index.count_full
      rw [List.eq_nil_of_length_eq_zero h0] at hcount
      simp only [List.countP_nil, List.length_map] at hcount
      rw [len, ← hcount]
      exact ⟨⟨3, rfl⟩, by norm_num⟩
    · obtain ⟨k, hk⟩ := hI.bcap_pow h0
      have hroom := hI.room h0
      split_ifs
      · exact ⟨⟨k + 1, by rw [hk, pow_succ]⟩, by omega⟩
      · exact ⟨⟨k, hk⟩, by omega⟩
  obtain ⟨h', hrun, hE⟩ := exists_bucketRehash hpow hroom.le
  have hI' := hE.inv hI hpow (by omega)
  refine ⟨h', hrun, hE.keys_eq, ?_, hI'.consistent⟩
  rw [hI'.indexed_eq, hI.indexed_eq, hE.keys_eq]

theorem indexConsistent (hI : h.Inv) : h.IndexConsistent := ⟨hI.consistent, fun _ => hI.rehash⟩

/-! ### Steps -/

section

variable [PartialEquivBEq K] [LawfulHashable K]

omit [Hashable K] [PartialEquivBEq K] [LawfulHashable K] in
theorem mem_or_absent (h : Header K V) (key : K) :
    (∃ (i : ℕ) (k : K), h.keys[i]? = some k ∧ (k == key) = true) ∨
      ∀ k ∈ h.keys, (k == key) = false := by
  by_cases hmem : ∃ k ∈ h.keys, (k == key) = true
  · obtain ⟨k, hk, heq⟩ := hmem
    obtain ⟨i, hi⟩ := List.getElem?_of_mem hk
    exact .inl ⟨i, k, hi, heq⟩
  · push Not at hmem
    exact .inr fun k hk => by simpa using hmem k hk

theorem exists_put (hI : h.Inv) (key : K) (value : V) :
    ∃ h', h.put key value = some h' ∧ h'.Inv := by
  obtain ⟨i, k, hk, heq⟩ | habs := mem_or_absent h key
  · exact ⟨_, hI.put_of_mem hk heq value, hI.set_value i value⟩
  · obtain ⟨h', hput, hI', -⟩ := hI.exists_put_of_notMem habs value
    exact ⟨h', hput, hI'⟩

theorem exists_remove (hI : h.Inv) {key : K} (hmoves : h.MovesEqual key) :
    ∃ h', h.remove key = some h' ∧ h'.Inv := by
  obtain ⟨i, k, hk, heq⟩ | habs := mem_or_absent h key
  · obtain ⟨ks, a, hkeys⟩ : ∃ ks a, h.keys = ks ++ [a] :=
      (List.eq_nil_or_concat' h.keys).resolve_left fun h0 => by simp [h0] at hk
    obtain ⟨vs, v, hvalues⟩ : ∃ vs v, h.values = vs ++ [v] := by
      refine (List.eq_nil_or_concat' h.values).resolve_left fun h0 => ?_
      have hlen := hI.values_length
      simp [h0, len, hkeys] at hlen
    obtain ⟨s, hs, hcell⟩ := hI.exists_bucketFind hk heq
    have hlen : h.len = ks.length + 1 := by simp [len, hkeys]
    have hile : i < ks.length + 1 := by
      rw [← hlen]
      exact (List.getElem?_eq_some_iff.1 hk).1
    rcases Nat.lt_succ_iff_lt_or_eq.mp hile with hi | rfl
    · have hrefl : (a == a) = true := by
        refine hmoves s i a hs (by simp [Header.position, hcell]) (by omega) ?_
        simp [hlen, hkeys]
      rw [hkeys, List.getElem?_append_left hi] at hk
      obtain ⟨h', hrun, hI', -⟩ := hI.exists_remove_swap hkeys hvalues hk heq hrefl
      exact ⟨h', hrun, hI'⟩
    · obtain rfl : a = k := by simpa [hkeys] using hk
      obtain ⟨h', hrun, hI', -⟩ := hI.exists_remove_last hkeys heq
      exact ⟨h', hrun, hI'⟩
  · exact ⟨h, hI.remove_of_notMem habs, hI⟩

theorem of_reachable (hR : h.Reachable) : h.Inv := by
  induction hR with
  | empty => exact empty_inv
  | put _ hput ih =>
    obtain ⟨h', hput', hI'⟩ := ih.exists_put _ _
    exact Option.some.inj (hput'.symm.trans hput) ▸ hI'
  | remove _ hmoves hremove ih =>
    obtain ⟨h', hremove', hI'⟩ := ih.exists_remove hmoves
    exact Option.some.inj (hremove'.symm.trans hremove) ▸ hI'

end

end Inv

end Header

end TurfLang.Map
