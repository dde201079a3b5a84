import TurfLang.Std.Map.Header

/-!
# The invariant of a map header

The bucket table indexes the dense arrays, keys are pairwise different, and live entries
plus tombstones leave an empty bucket, so that every probe ends at one.
-/

namespace TurfLang.Map

open Probing

namespace Header

/-! ### Probing with a mask -/

section Mask

variable {K V : Type} [Hashable K] {h : Header K V}

theorem home_eq (hpow : ∃ k, h.bcap = 2 ^ k) (key : K) :
    h.home key = (hash key).toNat % h.bcap := by
  obtain ⟨k, hk⟩ := hpow
  rw [home, hk, Nat.and_two_pow_sub_one_eq_mod]

theorem home_lt (hpow : ∃ k, h.bcap = 2 ^ k) (key : K) : h.home key < h.buckets.length := by
  rw [home_eq hpow]
  obtain ⟨k, hk⟩ := hpow
  exact Nat.mod_lt _ (hk ▸ Nat.two_pow_pos k)

/-- The home slot of a key depends on the number of buckets only. -/
theorem home_congr {h' : Header K V} (hb : h'.bcap = h.bcap) : h'.home = h.home := by
  funext key
  rw [home, home, hb]

end Mask

section Probes

variable {K V : Type} {h : Header K V}

theorem next_eq (hpow : ∃ k, h.bcap = 2 ^ k) (slot : ℕ) :
    h.next slot = (slot + 1) % h.buckets.length := by
  obtain ⟨k, hk⟩ := hpow
  rw [next, hk, Nat.and_two_pow_sub_one_eq_mod, ← hk, bcap]

theorem bucketInsertLoop_eq (hpow : ∃ k, h.bcap = 2 ^ k) (probes slot : ℕ) (tomb : Option ℕ) :
    h.bucketInsertLoop probes slot tomb = Probing.insertSlot h.buckets probes slot tomb := by
  induction probes generalizing slot tomb with
  | zero => rfl
  | succ probes ih =>
    rw [bucketInsertLoop, Probing.insertSlot, ih, ih, next_eq hpow]
    cases h.buckets[slot]? with
    | none => rfl
    | some c => cases c <;> rfl

theorem bucketFindLoop_eq [BEq K] (hpow : ∃ k, h.bcap = 2 ^ k) (key : K) (probes slot : ℕ) :
    h.bucketFindLoop key probes slot = Probing.find (h.holds key) h.buckets probes slot := by
  induction probes generalizing slot with
  | zero => rfl
  | succ probes ih =>
    rw [bucketFindLoop, Probing.find, ih, next_eq hpow]
    cases h.buckets[slot]? with
    | none => rfl
    | some c => cases c <;> rfl

theorem holds_iff [BEq K] {key : K} {i : ℕ} :
    h.holds key i = true ↔ ∃ k, h.keys[i]? = some k ∧ (k == key) = true := by
  simp [holds, Option.any_eq_true]

end Probes

/-! ### Rehashing -/

section Rehash

variable {K V : Type} [Hashable K]

/-- The state of `bucket_rehash`'s loop after `i` turns. -/
structure Entered (h₀ : Header K V) (n i : ℕ) (h : Header K V) : Prop where
  keys_eq : h.keys = h₀.keys
  values_eq : h.values = h₀.values
  cap_eq : h.cap = h₀.cap
  bcap_eq : h.bcap = n
  tombs_eq : h.tombs = 0
  count_tomb : h.buckets.countP Cell.isTomb = 0
  index : Index id h.buckets ((h.keys.take i).map h.home)

theorem Entered.step {h₀ h : Header K V} {n i : ℕ} (hE : Entered h₀ n i h)
    (hpow : ∃ k, n = 2 ^ k) (hi : i < h₀.len) (hroom : h₀.len ≤ n) :
    ∃ h', h.enter i = some h' ∧ Entered h₀ n (i + 1) h' := by
  have hi' : i < h.keys.length := hE.keys_eq ▸ hi
  have hpow' : ∃ k, h.bcap = 2 ^ k := hE.bcap_eq ▸ hpow
  have hlen : h.buckets.length = n := hE.bcap_eq
  have hempty : Cell.empty ∈ h.buckets := empty_mem_of_count_lt (by
    rw [hE.index.count_full, hE.count_tomb, List.length_map, List.length_take]
    omega)
  obtain ⟨s, hs, hon, hfree⟩ := exists_insertSlot (home_lt hpow' h.keys[i]) hempty
  have htomb : h.buckets[s]? ≠ some .tomb := fun ht => by
    have := List.countP_pos_iff (p := Cell.isTomb).2 ⟨_, List.mem_of_getElem? ht, rfl⟩
    rw [hE.count_tomb] at this
    exact lt_irrefl 0 this
  have hslot : h.buckets[s]? = some .empty := hfree.resolve_right htomb
  refine ⟨{ h with buckets := h.buckets.set s (.full i) }, ?_, hE.keys_eq, hE.values_eq,
    hE.cap_eq, by simpa [bcap] using hlen, hE.tombs_eq, ?_, ?_⟩
  · simp [enter, hi', bucketInsertSlot, bucketInsertLoop_eq hpow', bcap, hs]
  · have := countP_set_of_getElem? Cell.isTomb hslot (.full i)
    simp only [Cell.isTomb, Bool.toNat_false, Nat.add_zero] at this
    rw [this, hE.count_tomb]
  · have hpush := hE.index.push hon hfree (a := i) (by simp; omega)
    have hhome : ({ h with buckets := h.buckets.set s (.full i) } : Header K V).home = h.home :=
      home_congr (by simp [bcap])
    rw [hhome, ← List.take_append_getElem hi', List.map_append]
    exact hpush

/-- A rehash to a table with room for every key re-enters them all. -/
theorem exists_bucketRehash {h : Header K V} {n : ℕ} (hpow : ∃ k, n = 2 ^ k)
    (hroom : h.len ≤ n) : ∃ h', h.bucketRehash n = some h' ∧ Entered h n h.len h' := by
  refine Loop.exists_foldlM_range (P := Entered h n) ?_
    fun i hi h' hE => hE.step hpow hi hroom
  refine ⟨rfl, rfl, rfl, by simp [bcap], rfl, by simp [List.countP_replicate, Cell.isTomb], ?_⟩
  exact Index.replicate id n

end Rehash

/-! ### The invariant -/

variable {K V : Type} [BEq K] [Hashable K]

/-- The invariant every operation keeps. -/
structure Inv (h : Header K V) : Prop where
  values_length : h.values.length = h.len
  len_le_cap : h.len ≤ h.cap
  distinct : h.keys.Pairwise fun a b => (a == b) = false
  bcap_pow : h.bcap ≠ 0 → ∃ k, h.bcap = 2 ^ k
  tombs_eq : h.buckets.countP Cell.isTomb = h.tombs
  room : h.bcap ≠ 0 → h.len + h.tombs < h.bcap
  index : Index id h.buckets (h.keys.map h.home)

theorem empty_inv : (empty : Header K V).Inv where
  values_length := rfl
  len_le_cap := le_rfl
  distinct := List.Pairwise.nil
  bcap_pow h := absurd rfl h
  tombs_eq := rfl
  room h := absurd rfl h
  index := Index.replicate id 0

namespace Inv

variable {h : Header K V}

theorem bcap_ne_zero (hI : h.Inv) {i : ℕ} {k : K} (hk : h.keys[i]? = some k) : h.bcap ≠ 0 := by
  intro h0
  have hcount := hI.index.count_full
  have hnil : h.buckets = [] := List.eq_nil_of_length_eq_zero h0
  have hlt := (List.getElem?_eq_some_iff.1 hk).1
  simp [hnil] at hcount
  simp [← hcount] at hlt

/-- What is found is the position of an equal key. -/
theorem of_bucketFind (hI : h.Inv) {key : K} {s : ℕ} (hs : h.bucketFind key = some s) :
    ∃ i k, h.buckets[s]? = some (.full i) ∧ h.keys[i]? = some k ∧ (k == key) = true := by
  rw [bucketFind] at hs
  split_ifs at hs with h0
  rw [bucketFindLoop_eq (hI.bcap_pow h0)] at hs
  obtain ⟨i, hi, hp⟩ := exists_of_find hs
  obtain ⟨k, hk, heq⟩ := holds_iff.1 hp
  exact ⟨i, k, hi, hk, heq⟩

/-- An absent key is not found. -/
theorem bucketFind_eq_none (hI : h.Inv) {key : K} (habs : ∀ k ∈ h.keys, (k == key) = false) :
    h.bucketFind key = none := by
  cases hs : h.bucketFind key with
  | none => rfl
  | some s =>
    obtain ⟨i, k, -, hk, heq⟩ := hI.of_bucketFind hs
    rw [habs k (List.mem_of_getElem? hk)] at heq
    cases heq

/-- Equal keys stand at one position. -/
theorem position_unique [PartialEquivBEq K] (hI : h.Inv) {i j : ℕ} {k k' key : K}
    (hk : h.keys[i]? = some k) (hk' : h.keys[j]? = some k') (heq : (k == key) = true)
    (heq' : (k' == key) = true) : i = j := by
  have hsame : (k == k') = true := BEq.trans heq (BEq.symm heq')
  obtain ⟨hi, rfl⟩ := List.getElem?_eq_some_iff.1 hk
  obtain ⟨hj, rfl⟩ := List.getElem?_eq_some_iff.1 hk'
  rcases Nat.lt_trichotomy i j with hlt | rfl | hlt
  · have := List.pairwise_iff_getElem.1 hI.distinct i j hi hj hlt
    simp [hsame] at this
  · rfl
  · have := List.pairwise_iff_getElem.1 hI.distinct j i hj hi hlt
    simp [BEq.symm hsame] at this

/-- A present key is found at the slot that holds its position. -/
theorem exists_bucketFind [PartialEquivBEq K] [LawfulHashable K] (hI : h.Inv) {key k : K} {i : ℕ}
    (hk : h.keys[i]? = some k) (heq : (k == key) = true) :
    ∃ s, h.bucketFind key = some s ∧ h.buckets[s]? = some (.full i) := by
  have h0 := hI.bcap_ne_zero hk
  have hpow := hI.bcap_pow h0
  have hhome : h.home k = h.home key := by
    rw [home_eq hpow, home_eq hpow, hash_eq heq]
  obtain ⟨s, j, hs, rfl, hon⟩ := hI.index.onPath (i := i) (h := h.home key) (by simp [hk, hhome])
  refine ⟨s, ?_, hs⟩
  rw [bucketFind, if_neg h0, bucketFindLoop_eq hpow]
  refine find_eq_some hon hs (holds_iff.2 ⟨k, hk, heq⟩) (fun s' j' hs' hj' => ?_)
    (home_lt hpow key)
  obtain ⟨k', hk', heq'⟩ := holds_iff.1 hj'
  exact hI.index.slot_inj hs' hs (hI.position_unique hk' hk heq' heq)

/-- A new key is offered a free slot on its path, and an empty bucket is left. -/
theorem exists_bucketInsertSlot (hI : h.Inv) (h0 : h.bcap ≠ 0) (key : K) :
    ∃ s, h.bucketInsertSlot key = some s ∧ OnPath h.buckets (h.home key) s ∧
      Free h.buckets s := by
  have hpow := hI.bcap_pow h0
  rw [bucketInsertSlot, bucketInsertLoop_eq hpow]
  refine exists_insertSlot (home_lt hpow key) (empty_mem_of_count_lt ?_)
  rw [hI.index.count_full, List.length_map, hI.tombs_eq]
  exact hI.room h0

end Inv

/-- A rehash keeps the invariant. -/
theorem Entered.inv {h₀ h : Header K V} {n : ℕ} (hE : Entered h₀ n h₀.len h) (hI : h₀.Inv)
    (hpow : ∃ k, n = 2 ^ k) (hroom : h₀.len < n) : h.Inv where
  values_length := by rw [hE.values_eq, len, hE.keys_eq]; exact hI.values_length
  len_le_cap := by rw [len, hE.keys_eq, hE.cap_eq]; exact hI.len_le_cap
  distinct := hE.keys_eq ▸ hI.distinct
  bcap_pow _ := hE.bcap_eq ▸ hpow
  tombs_eq := by rw [hE.count_tomb, hE.tombs_eq]
  room _ := by rw [len, hE.keys_eq, hE.tombs_eq, hE.bcap_eq]; exact hroom
  index := by
    have htake : h.keys.take h₀.len = h.keys := by rw [hE.keys_eq, len, List.take_length]
    simpa [htake] using hE.index

end Header

end TurfLang.Map
