import TurfLang.Std.Map.Invariant

/-!
# What the map operations do to the dense arrays

`put` overwrites the value of an equal key or appends an entry, and `remove` moves the last
entry into the place of the removed one. Each keeps the invariant.
-/

namespace TurfLang.Map

open Probing

namespace Header

/-- Keys stay different when the last one replaces another or is dropped. -/
theorem distinct_set {K : Type} [BEq K] [PartialEquivBEq K] {ks : List K} {a : K}
    (hd : (ks ++ [a]).Pairwise fun a b => (a == b) = false) (i : ℕ) :
    (ks.set i a).Pairwise fun a b => (a == b) = false := by
  obtain ⟨hks, -, hlast⟩ := List.pairwise_append.1 hd
  rw [List.pairwise_iff_getElem] at hks ⊢
  intro m n hm hn hlt
  rw [List.length_set] at hm hn
  have hma : (ks[m] == a) = false := hlast _ (List.getElem_mem hm) _ (by simp)
  have hna : (ks[n] == a) = false := hlast _ (List.getElem_mem hn) _ (by simp)
  rw [List.getElem_set, List.getElem_set]
  split_ifs with h₁ h₂ h₂
  · omega
  · rw [BEq.comm]; exact hna
  · exact hma
  · exact hks m n hm hn hlt

variable {K V : Type} [BEq K] [Hashable K] {h : Header K V}

/-- The entry of `k` and `v` is in the map. -/
def Has (h : Header K V) (k : K) (v : V) : Prop :=
  ∃ i : ℕ, h.keys[i]? = some k ∧ h.values[i]? = some v

/-! ### `put` -/

namespace Inv

/-- Every key has a value. -/
theorem exists_has (hI : h.Inv) {k : K} (hk : k ∈ h.keys) : ∃ v, h.Has k v := by
  obtain ⟨i, hi⟩ := List.getElem?_of_mem hk
  have hlt : i < h.values.length := by
    rw [hI.values_length]
    exact (List.getElem?_eq_some_iff.1 hi).1
  exact ⟨_, i, hi, List.getElem?_eq_getElem hlt⟩

/-- A map holds one value under equal keys. -/
theorem has_unique [EquivBEq K] (hI : h.Inv) {k k' : K} {v v' : V} (hk : h.Has k v)
    (hk' : h.Has k' v') (heq : (k == k') = true) : k = k' ∧ v = v' := by
  obtain ⟨i, hi, hv⟩ := hk
  obtain ⟨j, hj, hv'⟩ := hk'
  obtain rfl : i = j := hI.position_unique hi hj heq (BEq.refl k')
  exact ⟨by simpa using hi.symm.trans hj, by simpa using hv.symm.trans hv'⟩

/-- Overwriting a value keeps the invariant. -/
theorem set_value (hI : h.Inv) (i : ℕ) (value : V) :
    ({ h with values := h.values.set i value } : Header K V).Inv where
  values_length := by simpa [len] using hI.values_length
  len_le_cap := hI.len_le_cap
  distinct := hI.distinct
  bcap_pow := hI.bcap_pow
  tombs_eq := hI.tombs_eq
  room := hI.room
  index := hI.index

/-- `put` of a key equal to the one at position `i` overwrites its value. -/
theorem put_of_mem [PartialEquivBEq K] [LawfulHashable K] (hI : h.Inv) {key k : K} {i : ℕ}
    (hk : h.keys[i]? = some k) (heq : (k == key) = true) (value : V) :
    h.put key value = some { h with values := h.values.set i value } := by
  obtain ⟨s, hs, hcell⟩ := hI.exists_bucketFind hk heq
  have hlt : i < h.values.length := by
    rw [hI.values_length]
    exact (List.getElem?_eq_some_iff.1 hk).1
  simp [put, hs, position, hcell, hlt]

/-- Overwriting the value of `k` changes its entry only. -/
theorem has_set_value [EquivBEq K] (hI : h.Inv) {k k' : K} {i : ℕ} (hk : h.keys[i]? = some k)
    (value v' : V) :
    ({ h with values := h.values.set i value } : Header K V).Has k' v' ↔
      (k' = k ∧ v' = value) ∨ (h.Has k' v' ∧ (k' == k) = false) := by
  have hlt : i < h.values.length := by
    rw [hI.values_length]
    exact (List.getElem?_eq_some_iff.1 hk).1
  constructor
  · rintro ⟨j, hj, hv⟩
    change h.keys[j]? = some k' at hj
    change (h.values.set i value)[j]? = some v' at hv
    rcases eq_or_ne i j with rfl | hij
    · rw [List.getElem?_set_self hlt] at hv
      exact .inl ⟨by simpa using hj.symm.trans hk, by simpa using hv.symm⟩
    · rw [List.getElem?_set_ne hij] at hv
      refine .inr ⟨⟨j, hj, hv⟩, ?_⟩
      by_contra hne
      exact hij (hI.position_unique hk hj (BEq.refl k) (by simpa using hne))
  · rintro (⟨rfl, rfl⟩ | ⟨⟨j, hj, hv⟩, hne⟩)
    · exact ⟨i, hk, List.getElem?_set_self hlt⟩
    · refine ⟨j, hj, ?_⟩
      change (h.values.set i value)[j]? = some v'
      rw [List.getElem?_set_ne, hv]
      rintro rfl
      obtain rfl : k = k' := by simpa using hk.symm.trans hj
      simp at hne

theorem grow_inv (hI : h.Inv) : h.grow.Inv ∧ h.grow.len < h.grow.cap := by
  have hle := hI.len_le_cap
  rw [grow]
  split_ifs with hfull h0
  · refine ⟨⟨hI.values_length, ?_, hI.distinct, hI.bcap_pow, hI.tombs_eq, hI.room, hI.index⟩, ?_⟩
    · simp only [len] at hle ⊢
      omega
    · simp only [len] at hfull ⊢
      omega
  · refine ⟨⟨hI.values_length, ?_, hI.distinct, hI.bcap_pow, hI.tombs_eq, hI.room, hI.index⟩, ?_⟩
    · simp only [len] at hle ⊢
      omega
    · simp only [len] at hfull ⊢
      omega
  · exact ⟨hI, by omega⟩

/-- After `bucket_maybe_grow` there is an empty bucket to spare. -/
theorem exists_bucketMaybeGrow (hI : h.Inv) :
    ∃ h', h.bucketMaybeGrow = some h' ∧ h'.Inv ∧ h'.keys = h.keys ∧ h'.values = h.values ∧
      h'.cap = h.cap ∧ h'.len + h'.tombs + 1 < h'.bcap := by
  have hrehash : ∀ n, (∃ k, n = 2 ^ k) → h.len + 1 < n →
      ∃ h', h.bucketRehash n = some h' ∧ h'.Inv ∧ h'.keys = h.keys ∧ h'.values = h.values ∧
        h'.cap = h.cap ∧ h'.len + h'.tombs + 1 < h'.bcap := by
    intro n hpow hlt
    obtain ⟨h', hrun, hE⟩ := exists_bucketRehash (h := h) hpow (by omega)
    refine ⟨h', hrun, hE.inv hI hpow (by omega), hE.keys_eq, hE.values_eq, hE.cap_eq, ?_⟩
    rw [hE.tombs_eq, hE.bcap_eq, len, hE.keys_eq]
    exact hlt
  rw [bucketMaybeGrow]
  split_ifs with h0 hload hlive
  · refine hrehash 8 ⟨3, rfl⟩ ?_
    have hcount := hI.index.count_full
    rw [List.eq_nil_of_length_eq_zero h0] at hcount
    simp only [List.countP_nil, List.length_map] at hcount
    rw [len]
    omega
  · obtain ⟨k, hk⟩ := hI.bcap_pow h0
    have := hI.room h0
    exact hrehash _ ⟨k + 1, by rw [hk, pow_succ]⟩ (by omega)
  · exact hrehash _ (hI.bcap_pow h0) (by omega)
  · exact ⟨h, rfl, hI, rfl, rfl, rfl, by omega⟩

/-- Appending an absent key, with room in the arrays and a bucket to spare. -/
theorem exists_append (hI : h.Inv) {key : K} (habs : ∀ k ∈ h.keys, (k == key) = false)
    (hcap : h.len < h.cap) (hroom : h.len + h.tombs + 1 < h.bcap) (value : V) :
    ∃ h', h.append key value = some h' ∧ h'.Inv ∧ h'.keys = h.keys ++ [key] ∧
      h'.values = h.values ++ [value] := by
  obtain ⟨s, hs, hon, hfree⟩ := hI.exists_bucketInsertSlot (by omega) key
  obtain ⟨c, hc, hcfree⟩ : ∃ c, h.buckets[s]? = some c ∧ (c = .empty ∨ c = .tomb) := by
    rcases hfree with hf | hf
    · exact ⟨_, hf, .inl rfl⟩
    · exact ⟨_, hf, .inr rfl⟩
  refine ⟨_, by simp only [append, hs, hc, Option.bind_eq_bind, Option.bind_some, if_pos hcap]; rfl,
    ⟨?_, ?_, ?_, ?_, ?_, ?_, ?_⟩, rfl, rfl⟩
  · simpa [len] using hI.values_length
  · simpa [len] using hcap
  · refine List.pairwise_append.2 ⟨hI.distinct, List.pairwise_singleton _ _, ?_⟩
    intro a ha b hb
    rw [List.mem_singleton.1 hb]
    exact habs a ha
  · simpa [bcap] using hI.bcap_pow
  · have hcount := countP_set_of_getElem? Cell.isTomb hc (.full h.len)
    have htombs := hI.tombs_eq
    rcases hcfree with rfl | rfl
    · simp [Cell.isTomb] at hcount ⊢
      omega
    · simp [Cell.isTomb] at hcount ⊢
      omega
  · intro _
    simp only [len, bcap, List.length_append, List.length_singleton, List.length_set] at hroom ⊢
    split_ifs <;> omega
  · have hpush := hI.index.push hon hfree (a := h.len) (by simp [len])
    rw [List.map_append, home_congr (h := h) (by simp [bcap])]
    exact hpush

/-- `put` of an absent key appends an entry. -/
theorem exists_put_of_notMem (hI : h.Inv) {key : K} (habs : ∀ k ∈ h.keys, (k == key) = false)
    (value : V) : ∃ h', h.put key value = some h' ∧ h'.Inv ∧ h'.keys = h.keys ++ [key] ∧
      h'.values = h.values ++ [value] := by
  obtain ⟨hIg, hcap⟩ := hI.grow_inv
  have hkeys : h.grow.keys = h.keys := by rw [grow]; split_ifs <;> rfl
  have hvalues : h.grow.values = h.values := by rw [grow]; split_ifs <;> rfl
  obtain ⟨h₁, hgrow, hI₁, hk₁, hv₁, hc₁, hroom⟩ := hIg.exists_bucketMaybeGrow
  have habs₁ : ∀ k ∈ h₁.keys, (k == key) = false := by rw [hk₁, hkeys]; exact habs
  obtain ⟨h₂, happ, hI₂, hk₂, hv₂⟩ :=
    hI₁.exists_append habs₁ (by rw [len, hk₁, hc₁]; exact hcap) hroom value
  refine ⟨h₂, ?_, hI₂, by rw [hk₂, hk₁, hkeys], by rw [hv₂, hv₁, hvalues]⟩
  simp [put, hI.bucketFind_eq_none habs, hgrow, happ]

/-- Appending an entry adds it. -/
theorem has_append (hI : h.Inv) {h' : Header K V} {key k' : K} {value v' : V}
    (hkeys : h'.keys = h.keys ++ [key]) (hvalues : h'.values = h.values ++ [value]) :
    h'.Has k' v' ↔ h.Has k' v' ∨ (k' = key ∧ v' = value) := by
  have hvlen : h.values.length = h.keys.length := hI.values_length
  constructor
  · rintro ⟨j, hj, hv⟩
    rw [hkeys] at hj
    rw [hvalues] at hv
    rcases Nat.lt_or_ge j h.keys.length with hlt | hge
    · rw [List.getElem?_append_left hlt] at hj
      rw [List.getElem?_append_left (hvlen ▸ hlt)] at hv
      exact .inl ⟨j, hj, hv⟩
    · rw [List.getElem?_append_right hge, List.getElem?_singleton] at hj
      rw [List.getElem?_append_right (hvlen ▸ hge), List.getElem?_singleton] at hv
      split_ifs at hj hv
      exact .inr ⟨by simpa using hj.symm, by simpa using hv.symm⟩
  · rintro (⟨j, hj, hv⟩ | ⟨rfl, rfl⟩)
    · have hlt := (List.getElem?_eq_some_iff.1 hj).1
      exact ⟨j, by rw [hkeys, List.getElem?_append_left hlt, hj],
        by rw [hvalues, List.getElem?_append_left (hvlen ▸ hlt), hv]⟩
    · exact ⟨h.keys.length, by simp [hkeys], by simp [hvalues, ← hvlen]⟩

/-! ### `remove` -/

theorem remove_of_notMem (hI : h.Inv) {key : K} (habs : ∀ k ∈ h.keys, (k == key) = false) :
    h.remove key = some h := by
  simp [remove, hI.bucketFind_eq_none habs]

/-- Removing the last entry. -/
theorem exists_remove_last [PartialEquivBEq K] [LawfulHashable K] (hI : h.Inv) {key k : K} {ks : List K}
    (hkeys : h.keys = ks ++ [k]) (heq : (k == key) = true) :
    ∃ h', h.remove key = some h' ∧ h'.Inv ∧ h'.keys = ks ∧ h'.values = h.values.take ks.length := by
  have hk : h.keys[ks.length]? = some k := by simp [hkeys]
  obtain ⟨s, hs, hcell⟩ := hI.exists_bucketFind hk heq
  have hlen : h.len = ks.length + 1 := by simp [len, hkeys]
  refine ⟨{ h with buckets := h.buckets.set s .tomb, tombs := h.tombs + 1, keys := ks
                   values := h.values.take ks.length }, ?_, ?_, rfl, rfl⟩
  · simp [remove, hs, position, hcell, len, hkeys]
  · have hcap := hI.len_le_cap
    have hvals := hI.values_length
    refine ⟨?_, ?_, ?_, ?_, ?_, ?_, ?_⟩
    · simp only [len, List.length_take]
      omega
    · simp only [len]
      omega
    · have := hI.distinct
      rw [hkeys] at this
      exact (List.pairwise_append.1 this).1
    · simpa [bcap] using hI.bcap_pow
    · have hcount := countP_set_of_getElem? Cell.isTomb hcell .tomb
      have htombs := hI.tombs_eq
      simp only [Cell.isTomb, Bool.toNat_true, Bool.toNat_false] at hcount
      show (h.buckets.set s .tomb).countP Cell.isTomb = h.tombs + 1
      omega
    · intro h0
      have := hI.room (by simpa [bcap] using h0)
      simp only [len, bcap, List.length_set] at this hlen ⊢
      omega
    · rw [home_congr (h := h) (by simp [bcap])]
      have hindex := hI.index
      rw [hkeys, List.map_append] at hindex
      exact hindex.pop hcell (by simp)

/-- After an entry's bucket is deleted, the key of another entry is still found. -/
theorem bucketFind_after_delete [PartialEquivBEq K] [LawfulHashable K] (hI : h.Inv) {s i j : ℕ}
    {k : K} (hcell : h.buckets[s]? = some (.full i)) (hk : h.keys[j]? = some k) (hij : i ≠ j)
    (hrefl : (k == k) = true) :
    ∃ s', h.buckets[s']? = some (.full j) ∧
      ({ h with buckets := h.buckets.set s .tomb, tombs := h.tombs + 1 } : Header K V).bucketFind k
        = some s' := by
  have h0 := hI.bcap_ne_zero hk
  have hpow := hI.bcap_pow h0
  obtain ⟨s', b, hs', rfl, hon⟩ := hI.index.onPath (i := j) (h := h.home k) (by simp [hk])
  have hne : s ≠ s' := by
    rintro rfl
    exact hij (by simpa using hcell.symm.trans hs')
  set h₁ : Header K V := { h with buckets := h.buckets.set s .tomb, tombs := h.tombs + 1 } with hh₁
  have hb : h₁.bcap = h.bcap := by simp [hh₁, bcap]
  have hpow₁ : ∃ k, h₁.bcap = 2 ^ k := hb ▸ hpow
  refine ⟨s', hs', ?_⟩
  rw [bucketFind, if_neg (hb ▸ h0), bucketFindLoop_eq hpow₁, home_congr hb]
  refine find_eq_some (a := b) (hon.set (by simp)) ?_ (holds_iff.2 ⟨k, hk, hrefl⟩) ?_ ?_
  · rw [List.getElem?_set_ne hne]
    exact hs'
  · intro r c hr hc
    obtain ⟨k', hk', heq'⟩ := holds_iff.1 hc
    obtain ⟨-, hr'⟩ : s ≠ r ∧ h.buckets[r]? = some (.full c) := by
      rcases Index.getElem?_set_full hr with ⟨-, hc⟩ | hr
      · cases hc
      · exact hr
    exact hI.index.slot_inj hr' hs' (hI.position_unique hk' hk heq' (hrefl))
  · rw [← home_congr hb]
    exact home_lt hpow₁ k

/-- Removing an entry before the last, which takes its place. -/
theorem exists_remove_swap [PartialEquivBEq K] [LawfulHashable K] (hI : h.Inv) {key k a : K}
    {ks : List K} {v : V} {vs : List V} {i : ℕ} (hkeys : h.keys = ks ++ [a])
    (hvalues : h.values = vs ++ [v]) (hk : ks[i]? = some k) (heq : (k == key) = true)
    (hrefl : (a == a) = true) :
    ∃ h', h.remove key = some h' ∧ h'.Inv ∧ h'.keys = ks.set i a ∧ h'.values = vs.set i v := by
  have hi : i < ks.length := (List.getElem?_eq_some_iff.1 hk).1
  have hk' : h.keys[i]? = some k := by rw [hkeys, List.getElem?_append_left hi, hk]
  have ha : h.keys[ks.length]? = some a := by simp [hkeys]
  have hlen : h.len = ks.length + 1 := by simp [len, hkeys]
  have hvlen : vs.length = ks.length := by
    have := hI.values_length
    simp only [hvalues, hlen, List.length_append, List.length_singleton] at this
    omega
  have hv : h.values[ks.length]? = some v := by simp [hvalues, ← hvlen]
  obtain ⟨s, hs, hcell⟩ := hI.exists_bucketFind hk' heq
  obtain ⟨s', hcell', hfind⟩ := hI.bucketFind_after_delete hcell ha (by omega) hrefl
  have hne : s ≠ s' := by
    rintro rfl
    have := hcell.symm.trans hcell'
    simp at this
    omega
  have hset : ((ks ++ [a]).set i a).take ks.length = ks.set i a := by
    rw [List.set_append_left _ _ hi, List.take_left' (by simp)]
  have hset' : ((vs ++ [v]).set i v).take ks.length = vs.set i v := by
    rw [List.set_append_left _ _ (by omega), List.take_left' (by simpa using hvlen)]
  refine ⟨{ h with
      buckets := (h.buckets.set s .tomb).set s' (.full i)
      tombs := h.tombs + 1
      keys := ks.set i a
      values := vs.set i v }, ?_, ?_, rfl, rfl⟩
  · have hlast : h.len - 1 = ks.length := by omega
    have hlast' : ∀ b t, ({ h with buckets := b, tombs := t } : Header K V).len - 1 = ks.length :=
      fun _ _ => hlast
    simp only [remove, hs, position, hcell, Option.bind_eq_bind, Option.bind_some, hlast',
      if_pos (show i ≠ ks.length by omega), ha, hv, hfind]
    simp [hkeys, hvalues, hset, hset']
  · have hcap := hI.len_le_cap
    refine ⟨?_, ?_, ?_, ?_, ?_, ?_, ?_⟩
    · simp [len, hvlen]
    · simp only [len, List.length_set] at hlen hcap ⊢
      omega
    · exact distinct_set (hkeys ▸ hI.distinct) i
    · simpa [bcap] using hI.bcap_pow
    · have h₁ := countP_set_of_getElem? Cell.isTomb hcell .tomb
      have hmid : (h.buckets.set s .tomb)[s']? = some (.full ks.length) := by
        rw [List.getElem?_set_ne hne, hcell']
      have h₂ := countP_set_of_getElem? Cell.isTomb hmid (.full i)
      have htombs := hI.tombs_eq
      simp only [Cell.isTomb, Bool.toNat_true, Bool.toNat_false] at h₁ h₂
      show ((h.buckets.set s .tomb).set s' (.full i)).countP Cell.isTomb = h.tombs + 1
      omega
    · intro h0
      have := hI.room (by simpa [bcap] using h0)
      simp only [len, bcap, List.length_set] at this hlen ⊢
      omega
    · rw [home_congr (h := h) (by simp [bcap])]
      have hindex := hI.index
      rw [hkeys, List.map_append] at hindex
      have := hindex.replace_last (b := i) hcell rfl (by simpa using hi) hcell' (by simp) rfl
      simpa [List.map_set] using this

/-- `remove` of a present key takes its entry out and keeps the others. -/
theorem exists_remove_of_mem [EquivBEq K] [LawfulHashable K] (hI : h.Inv) {key k : K} {i : ℕ}
    (hk : h.keys[i]? = some k) (heq : (k == key) = true) :
    ∃ h', h.remove key = some h' ∧ h'.Inv ∧
      ∀ k' v', h'.Has k' v' ↔ h.Has k' v' ∧ (k' == key) = false := by
  have hne : ∀ {j k'}, h.keys[j]? = some k' → (i ≠ j ↔ (k' == key) = false) := by
    intro j k' hk'
    rw [← Bool.not_eq_true, not_iff_not]
    constructor
    · rintro rfl
      obtain rfl : k = k' := by simpa using hk.symm.trans hk'
      exact heq
    · exact hI.position_unique hk hk' heq
  obtain ⟨ks, a, hkeys⟩ : ∃ ks a, h.keys = ks ++ [a] :=
    (List.eq_nil_or_concat' h.keys).resolve_left fun h0 => by simp [h0] at hk
  obtain ⟨vs, v, hvalues, hvlen⟩ : ∃ vs v, h.values = vs ++ [v] ∧ vs.length = ks.length := by
    have hlen := hI.values_length
    simp only [len, hkeys, List.length_append, List.length_singleton] at hlen
    rcases List.eq_nil_or_concat' h.values with h0 | ⟨vs, v, hv⟩
    · simp [h0] at hlen
    · exact ⟨vs, v, hv, by simpa [hv] using hlen⟩
  have hlast : h.keys[ks.length]? = some a ∧ h.values[ks.length]? = some v := by
    simp [hkeys, hvalues, ← hvlen]
  have hbefore : ∀ {j}, j < ks.length → h.keys[j]? = ks[j]? ∧ h.values[j]? = vs[j]? := by
    intro j hj
    rw [hkeys, hvalues, List.getElem?_append_left hj, List.getElem?_append_left (hvlen ▸ hj)]
    exact ⟨rfl, rfl⟩
  have hle : ∀ {j k'}, h.keys[j]? = some k' → j ≤ ks.length := by
    intro j k' hk'
    have := (List.getElem?_eq_some_iff.1 hk').1
    simp only [hkeys, List.length_append, List.length_singleton] at this
    omega
  rcases Nat.lt_or_ge i ks.length with hi | hi
  · obtain ⟨h', hrun, hI', hk₁, hv₁⟩ :=
      hI.exists_remove_swap hkeys hvalues ((hbefore hi).1 ▸ hk) heq (BEq.refl a)
    refine ⟨h', hrun, hI', fun k' v' => ⟨?_, ?_⟩⟩
    · rintro ⟨j, hj, hj'⟩
      rw [hk₁] at hj
      rw [hv₁] at hj'
      rcases eq_or_ne i j with rfl | hij
      · obtain rfl : a = k' := by simpa [hi] using hj
        obtain rfl : v = v' := by simpa [hvlen, hi] using hj'
        exact ⟨⟨_, hlast⟩, (hne hlast.1).1 (by omega)⟩
      · rw [List.getElem?_set_ne hij] at hj hj'
        have hjlt := (List.getElem?_eq_some_iff.1 hj).1
        rw [← (hbefore hjlt).1] at hj
        rw [← (hbefore hjlt).2] at hj'
        exact ⟨⟨j, hj, hj'⟩, (hne hj).1 hij⟩
    · rintro ⟨⟨j, hj, hj'⟩, hkey⟩
      have hij := (hne hj).2 hkey
      rcases Nat.lt_or_ge j ks.length with hjlt | hjge
      · refine ⟨j, ?_, ?_⟩
        · rw [hk₁, List.getElem?_set_ne hij, ← (hbefore hjlt).1, hj]
        · rw [hv₁, List.getElem?_set_ne hij, ← (hbefore hjlt).2, hj']
      · obtain rfl : j = ks.length := le_antisymm (hle hj) hjge
        obtain rfl : a = k' := by simpa using hlast.1.symm.trans hj
        obtain rfl : v = v' := by simpa using hlast.2.symm.trans hj'
        exact ⟨i, by simp [hk₁, hi], by simp [hv₁, hvlen, hi]⟩
  · obtain rfl : i = ks.length := le_antisymm (hle hk) hi
    obtain rfl : a = k := by simpa using hlast.1.symm.trans hk
    obtain ⟨h', hrun, hI', hk₁, hv₁⟩ := hI.exists_remove_last hkeys heq
    have hv₂ : h'.values = vs := by rw [hv₁, hvalues, List.take_left' hvlen]
    refine ⟨h', hrun, hI', fun k' v' => ⟨?_, ?_⟩⟩
    · rintro ⟨j, hj, hj'⟩
      rw [hk₁] at hj
      rw [hv₂] at hj'
      have hjlt := (List.getElem?_eq_some_iff.1 hj).1
      rw [← (hbefore hjlt).1] at hj
      rw [← (hbefore hjlt).2] at hj'
      exact ⟨⟨j, hj, hj'⟩, (hne hj).1 (by omega)⟩
    · rintro ⟨⟨j, hj, hj'⟩, hkey⟩
      have hij := (hne hj).2 hkey
      have hjlt : j < ks.length := lt_of_le_of_ne (hle hj) hij.symm
      exact ⟨j, by rw [hk₁, ← (hbefore hjlt).1, hj], by rw [hv₂, ← (hbefore hjlt).2, hj']⟩

/-! ### `copy` and the readers -/

/-- `copy` makes a map with the same entries in the same order. -/
theorem exists_copy [EquivBEq K] (hI : h.Inv) :
    ∃ c, h.copy = some c ∧ c.Inv ∧ c.keys = h.keys ∧ c.values = h.values := by
  have hvlen : h.values.length = h.keys.length := hI.values_length
  obtain ⟨c, hrun, hIc, hk, hv⟩ := Loop.exists_foldlM_range (f := h.copyEntry) (n := h.len)
    (P := fun i out => out.Inv ∧ out.keys = h.keys.take i ∧ out.values = h.values.take i)
    ⟨empty_inv, rfl, rfl⟩ fun i hi out ⟨hIo, hk, hv⟩ => by
      have hki : i < h.keys.length := hi
      have hvi : i < h.values.length := hvlen ▸ hi
      have habs : ∀ k ∈ out.keys, (k == h.keys[i]) = false := by
        intro k hmem
        rw [hk] at hmem
        obtain ⟨j, hj, rfl⟩ := List.mem_take_iff_getElem.1 hmem
        exact List.pairwise_iff_getElem.1 hI.distinct j i (by omega) hki (by omega)
      obtain ⟨out', hput, hI', hk', hv'⟩ := hIo.exists_put_of_notMem habs h.values[i]
      refine ⟨out', by simpa [copyEntry, hki, hvi] using hput, hI', ?_, ?_⟩
      · rw [hk', hk, List.take_append_getElem hki]
      · rw [hv', hv, List.take_append_getElem hvi]
  refine ⟨c, hrun, hIc, ?_, ?_⟩
  · rw [hk, len, List.take_length]
  · rw [hv, len, ← hvlen, List.take_length]

theorem indexOf_of_mem [PartialEquivBEq K] [LawfulHashable K] (hI : h.Inv) {key k : K} {i : ℕ}
    (hk : h.keys[i]? = some k) (heq : (k == key) = true) : h.indexOf key = some i := by
  obtain ⟨s, hs, hcell⟩ := hI.exists_bucketFind hk heq
  simp [indexOf, hs, position, hcell]

theorem indexOf_eq_none (hI : h.Inv) {key : K} (habs : ∀ k ∈ h.keys, (k == key) = false) :
    h.indexOf key = none := by
  simp [indexOf, hI.bucketFind_eq_none habs]

end Inv

end Header

section Lists

variable {K V : Type} {h : Header K V}

theorem filterMap_range_getElem? {α : Type} (l : List α) :
    (List.range l.length).filterMap (l[·]?) = l := by
  induction l using List.reverseRecOn with
  | nil => rfl
  | append_singleton l a ih =>
    have hl : (List.range l.length).filterMap ((l ++ [a])[·]?) =
        (List.range l.length).filterMap (l[·]?) :=
      List.filterMap_congr fun i hi => List.getElem?_append_left (List.mem_range.1 hi)
    rw [List.length_append, List.length_singleton, List.range_succ, List.filterMap_append, hl, ih]
    simp

@[simp] theorem Header.keysList_eq : h.keysList = h.keys := filterMap_range_getElem? h.keys

theorem Header.valuesList_eq (hlen : h.values.length = h.len) : h.valuesList = h.values := by
  rw [valuesList, ← hlen, filterMap_range_getElem?]

end Lists

end TurfLang.Map
