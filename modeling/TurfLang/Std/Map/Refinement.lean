import TurfLang.Std.Map.Operations

/-!
# `Map<K, V>` refines a finite map

The specification is a partial function on keys up to `==`. A program holds handles to any
number of maps, which `Map::default()` and `copy` create; whatever it does through them, each
map answers as the function the same calls build.
-/

namespace TurfLang.Map

open Probing

/-! ### The specification -/

section Spec

variable {K V : Type} [BEq K] [EquivBEq K]

/-- Keys up to `==`. -/
instance keySetoid (K : Type) [BEq K] [EquivBEq K] : Setoid K where
  r a b := (a == b) = true
  iseqv := ⟨BEq.refl, BEq.symm, BEq.trans⟩

/-- A key up to `==`. -/
abbrev Key (K : Type) [BEq K] [EquivBEq K] := Quotient (keySetoid K)

theorem key_eq_iff {a b : K} : (⟦a⟧ : Key K) = ⟦b⟧ ↔ (a == b) = true := Quotient.eq

/-- A mathematical map, the keys put into it so far, in order, and whether any key was ever
removed from it. -/
structure Spec (K V : Type) [BEq K] [EquivBEq K] where
  map : Key K → Option V
  history : List K
  removed : Bool

namespace Spec

/-- The empty map. -/
def empty : Spec K V := ⟨fun _ => none, [], false⟩

section Updates

open Classical

/-- The last put of a key wins. -/
noncomputable def put (sp : Spec K V) (key : K) (value : V) : Spec K V :=
  { sp with map := Function.update sp.map ⟦key⟧ (some value), history := sp.history ++ [key] }

/-- The key is absent afterwards. -/
noncomputable def remove (sp : Spec K V) (key : K) : Spec K V :=
  { sp with map := Function.update sp.map ⟦key⟧ none, removed := true }

theorem put_of_eq {key key' : K} (sp : Spec K V) (value : V) (h : (key' == key) = true) :
    (sp.put key value).map ⟦key'⟧ = some value := by
  rw [key_eq_iff.2 h]
  exact Function.update_self _ _ _

theorem put_of_ne {key key' : K} (sp : Spec K V) (value : V) (h : ¬ (key' == key) = true) :
    (sp.put key value).map ⟦key'⟧ = sp.map ⟦key'⟧ :=
  Function.update_of_ne (fun hq => h (key_eq_iff.1 hq)) _ _

theorem remove_of_eq {key key' : K} (sp : Spec K V) (h : (key' == key) = true) :
    (sp.remove key).map ⟦key'⟧ = none := by
  rw [key_eq_iff.2 h]
  exact Function.update_self _ _ _

theorem remove_of_ne {key key' : K} (sp : Spec K V) (h : ¬ (key' == key) = true) :
    (sp.remove key).map ⟦key'⟧ = sp.map ⟦key'⟧ :=
  Function.update_of_ne (fun hq => h (key_eq_iff.1 hq)) _ _

end Updates

end Spec

/-- The keys of a history of puts in first-insertion order. -/
def firsts (history : List K) : List K :=
  history.foldl (fun seen key => if seen.any (· == key) then seen else seen ++ [key]) []

omit [EquivBEq K] in
theorem firsts_concat (history : List K) (key : K) :
    firsts (history ++ [key]) =
      if (firsts history).any (· == key) then firsts history else firsts history ++ [key] := by
  simp [firsts, List.foldl_append]

end Spec

/-! ### Programs over several maps -/

/-- The calls that change a map or make one; the others read only. A map is named by the order
in which it was made. -/
inductive Op (K V : Type)
  | default
  | put (m : ℕ) (key : K) (value : V)
  | remove (m : ℕ) (key : K)
  | copy (m : ℕ)

/-- The maps there are, each with a header and arrays of its own. -/
abbrev Store (K V : Type) := List (Header K V)

section Programs

variable {K V : Type} [BEq K]

/-- One call on the store. -/
def step [Hashable K] (store : Store K V) : Op K V → Option (Store K V)
  | .default => some (store ++ [.empty])
  | .put m key value => do
    let h ← store[m]?
    let h ← h.put key value
    return store.set m h
  | .remove m key => do
    let h ← store[m]?
    let h ← h.remove key
    return store.set m h
  | .copy m => do
    let h ← store[m]?
    let c ← h.copy
    return store ++ [c]

/-- A program from no map on. -/
def run [Hashable K] (ops : List (Op K V)) : Option (Store K V) := ops.foldlM step []

/-- One call on the specifications. A copy starts with its original's. -/
noncomputable def specStep [EquivBEq K] (specs : List (Spec K V)) : Op K V → List (Spec K V)
  | .default => specs ++ [.empty]
  | .put m key value => specs.modify m (·.put key value)
  | .remove m key => specs.modify m (·.remove key)
  | .copy m => specs ++ specs[m]?.toList

/-- The specifications after a program. -/
noncomputable def specRun [EquivBEq K] (ops : List (Op K V)) : List (Spec K V) :=
  ops.foldl specStep []

/-- The program names only maps there are, `n` of them at its start. -/
def Closed (n : ℕ) : List (Op K V) → Prop
  | [] => True
  | .default :: ops => Closed (n + 1) ops
  | .put m _ _ :: ops => m < n ∧ Closed n ops
  | .remove m _ :: ops => m < n ∧ Closed n ops
  | .copy m :: ops => m < n ∧ Closed (n + 1) ops

end Programs

variable {K V : Type} [BEq K] [EquivBEq K] [Hashable K] {h : Header K V} {sp : Spec K V}

/-! ### The simulation relation -/

/-- A header represents a specification. -/
structure Represents (h : Header K V) (sp : Spec K V) : Prop where
  inv : h.Inv
  map_eq : ∀ (key : K) (value : V),
    sp.map ⟦key⟧ = some value ↔ ∃ k, (k == key) = true ∧ h.Has k value
  order : sp.removed = false → h.keys = firsts sp.history

namespace Represents

theorem empty : Represents (.empty : Header K V) .empty where
  inv := Header.empty_inv
  map_eq key value := by simp [Spec.empty, Header.empty, Header.Has]
  order _ := rfl

/-- A key is present, or it is absent on both sides. -/
theorem mem_or_absent (hR : Represents h sp) (key : K) :
    (∃ (i : ℕ) (k : K), h.keys[i]? = some k ∧ (k == key) = true) ∨
      ((∀ k ∈ h.keys, (k == key) = false) ∧ sp.map ⟦key⟧ = none) := by
  by_cases hmem : ∃ k ∈ h.keys, (k == key) = true
  · obtain ⟨k, hk, heq⟩ := hmem
    obtain ⟨i, hi⟩ := List.getElem?_of_mem hk
    exact .inl ⟨i, k, hi, heq⟩
  · have habs : ∀ k ∈ h.keys, (k == key) = false := by simpa using hmem
    refine .inr ⟨habs, ?_⟩
    cases hm : sp.map ⟦key⟧ with
    | none => rfl
    | some value =>
      obtain ⟨k, heq, i, hk, -⟩ := (hR.map_eq key value).1 hm
      rw [habs k (List.mem_of_getElem? hk)] at heq
      cases heq

/-- The entry put, seen from any key. -/
theorem put_map_eq (hR : Represents h sp) {h' : Header K V} {key k : K} {value : V}
    (hk : (k == key) = true)
    (hhas : ∀ k' v', h'.Has k' v' ↔ (k' = k ∧ v' = value) ∨ (h.Has k' v' ∧ (k' == k) = false))
    (key' : K) (value' : V) :
    (sp.put key value).map ⟦key'⟧ = some value' ↔ ∃ k', (k' == key') = true ∧ h'.Has k' value' := by
  simp only [hhas]
  by_cases hsame : (key' == key) = true
  · have hkk : (k == key') = true := BEq.trans hk (BEq.symm hsame)
    rw [sp.put_of_eq value hsame]
    constructor
    · intro hv
      exact ⟨k, hkk, .inl ⟨rfl, by simpa using hv.symm⟩⟩
    · rintro ⟨k', hk', ⟨-, rfl⟩ | ⟨-, hne⟩⟩
      · rfl
      · rw [BEq.trans hk' (BEq.symm hkk)] at hne
        cases hne
  · rw [sp.put_of_ne value hsame, hR.map_eq]
    refine exists_congr fun k' => and_congr_right fun hk' => ⟨fun hv => .inr ⟨hv, ?_⟩, ?_⟩
    · by_contra hne
      exact hsame (BEq.trans (BEq.symm hk') (BEq.trans (by simpa using hne) hk))
    · rintro (⟨rfl, -⟩ | ⟨hv, -⟩)
      · exact absurd (BEq.trans (BEq.symm hk') hk) hsame
      · exact hv

theorem exists_put [LawfulHashable K] (hR : Represents h sp) (key : K) (value : V) :
    ∃ h', h.put key value = some h' ∧ Represents h' (sp.put key value) := by
  rcases hR.mem_or_absent key with ⟨i, k, hk, heq⟩ | ⟨habs, -⟩
  · refine ⟨_, hR.inv.put_of_mem hk heq value, hR.inv.set_value i value,
      hR.put_map_eq heq fun k' v' => hR.inv.has_set_value hk value v', fun hrem => ?_⟩
    have hany : h.keys.any (· == key) = true :=
      List.any_eq_true.2 ⟨k, List.mem_of_getElem? hk, heq⟩
    rw [Spec.put, firsts_concat, ← hR.order hrem, if_pos hany]
  · obtain ⟨h', hput, hI', hkeys, hvalues⟩ := hR.inv.exists_put_of_notMem habs value
    refine ⟨h', hput, hI', hR.put_map_eq (BEq.refl key) fun k' v' => ?_, fun hrem => ?_⟩
    · rw [hR.inv.has_append hkeys hvalues, or_comm]
      refine or_congr Iff.rfl (iff_self_and.2 ?_)
      rintro ⟨j, hj, -⟩
      exact habs k' (List.mem_of_getElem? hj)
    · have hany : ¬ h.keys.any (· == key) = true := by simpa using habs
      rw [Spec.put, firsts_concat, ← hR.order hrem, if_neg hany, hkeys]

theorem exists_remove [LawfulHashable K] (hR : Represents h sp) (key : K) :
    ∃ h', h.remove key = some h' ∧ Represents h' (sp.remove key) := by
  -- what is left, seen from any key
  have hmap : ∀ h' : Header K V,
      (∀ k' v', h'.Has k' v' ↔ h.Has k' v' ∧ (k' == key) = false) → ∀ key' value',
        (sp.remove key).map ⟦key'⟧ = some value' ↔
          ∃ k', (k' == key') = true ∧ h'.Has k' value' := by
    intro h' hhas key' value'
    simp only [hhas]
    by_cases hsame : (key' == key) = true
    · rw [sp.remove_of_eq hsame]
      refine iff_of_false (by simp) ?_
      rintro ⟨k', hk', -, hne⟩
      rw [BEq.trans hk' hsame] at hne
      cases hne
    · rw [sp.remove_of_ne hsame, hR.map_eq]
      refine exists_congr fun k' => and_congr_right fun hk' => (and_iff_left ?_).symm
      by_contra hne
      exact hsame (BEq.trans (BEq.symm hk') (by simpa using hne))
  rcases hR.mem_or_absent key with ⟨i, k, hk, heq⟩ | ⟨habs, -⟩
  · obtain ⟨h', hrun, hI', hhas⟩ := hR.inv.exists_remove_of_mem hk heq
    exact ⟨h', hrun, hI', hmap h' hhas, fun hrem => by simp [Spec.remove] at hrem⟩
  · refine ⟨h, hR.inv.remove_of_notMem habs, hR.inv, hmap h fun k' v' => ?_, fun hrem => by
      simp [Spec.remove] at hrem⟩
    refine (and_iff_left_of_imp ?_).symm
    rintro ⟨j, hj, -⟩
    exact habs k' (List.mem_of_getElem? hj)

/-- A copy represents what its original does. -/
theorem copy (hR : Represents h sp) {c : Header K V} (hI : c.Inv) (hk : c.keys = h.keys)
    (hv : c.values = h.values) : Represents c sp where
  inv := hI
  map_eq key value := by simp only [hR.map_eq, Header.Has, hk, hv]
  order hrem := hk ▸ hR.order hrem

end Represents

/-! ### What the readers answer -/

/-- Every reader of a map answers as the specification does. -/
structure Refines (h : Header K V) (sp : Spec K V) : Prop where
  contains_eq : ∀ key, h.contains key = (sp.map ⟦key⟧).isSome
  get_eq : ∀ key, h.get key = sp.map ⟦key⟧
  tryGet_eq : ∀ key, h.tryGet key =
    (sp.map ⟦key⟧).elim (.error (.keyNotFound "key not found")) .ok
  indexOf_eq : ∀ key, h.indexOf key = h.keysList.findIdx? (· == key)
  length_eq : h.length = Set.ncard {q | (sp.map q).isSome}
  keys_distinct : h.keysList.Pairwise fun a b => (a == b) = false
  keys_mem : ∀ key, (∃ k ∈ h.keysList, (k == key) = true) ↔ (sp.map ⟦key⟧).isSome
  values_length : h.valuesList.length = h.keysList.length
  values_eq : ∀ (i : ℕ) (k : K), h.keysList[i]? = some k → h.valuesList[i]? = sp.map ⟦k⟧
  keys_order : sp.removed = false → h.keysList = firsts sp.history

namespace Represents

theorem indexOf_cases [LawfulHashable K] (hR : Represents h sp) (key : K) :
    (∃ (i : ℕ) (k : K) (v : V), h.keys[i]? = some k ∧ (k == key) = true ∧ h.values[i]? = some v ∧
        h.indexOf key = some i ∧ sp.map ⟦key⟧ = some v) ∨
      ((∀ k ∈ h.keys, (k == key) = false) ∧ h.indexOf key = none ∧ sp.map ⟦key⟧ = none) := by
  rcases hR.mem_or_absent key with ⟨i, k, hk, heq⟩ | ⟨habs, hnone⟩
  · have hlt : i < h.values.length := by
      rw [hR.inv.values_length]
      exact (List.getElem?_eq_some_iff.1 hk).1
    have hv : h.values[i]? = some h.values[i] := List.getElem?_eq_getElem hlt
    exact .inl ⟨i, k, _, hk, heq, hv, hR.inv.indexOf_of_mem hk heq,
      (hR.map_eq _ _).2 ⟨k, heq, i, hk, hv⟩⟩
  · exact .inr ⟨habs, hR.inv.indexOf_eq_none habs, hnone⟩

/-- The number of keys up to `==` is the length of the key array. -/
theorem length_eq (hR : Represents h sp) : h.keys.length = Set.ncard {q | (sp.map q).isSome} := by
  classical
  have hset : {q | (sp.map q).isSome} = ((h.keys.map (⟦·⟧ : K → Key K)).toFinset : Set (Key K)) := by
    ext q
    induction q using Quotient.inductionOn with
    | h key =>
      simp only [Set.mem_ofPred_eq, List.coe_toFinset, List.mem_map, key_eq_iff]
      constructor
      · intro hq
        obtain ⟨v, hv⟩ := Option.isSome_iff_exists.1 hq
        obtain ⟨k, heq, i, hk, -⟩ := (hR.map_eq key v).1 hv
        exact ⟨k, List.mem_of_getElem? hk, heq⟩
      · rintro ⟨k, hk, heq⟩
        obtain ⟨v, hv⟩ := hR.inv.exists_has hk
        rw [(hR.map_eq key v).2 ⟨k, heq, hv⟩]
        rfl
  have hnodup : (h.keys.map (⟦·⟧ : K → Key K)).Nodup := by
    refine List.Pairwise.map _ (fun a b hab hq => ?_) hR.inv.distinct
    rw [key_eq_iff.1 hq] at hab
    cases hab
  rw [hset, Set.ncard_coe_finset, List.toFinset_card_of_nodup hnodup, List.length_map]

theorem refines [LawfulHashable K] (hR : Represents h sp) : Refines h sp where
  contains_eq key := by
    rcases hR.indexOf_cases key with ⟨i, k, v, -, -, -, hi, hm⟩ | ⟨-, hi, hm⟩ <;>
      simp [Header.contains, hi, hm]
  get_eq key := by
    rcases hR.indexOf_cases key with ⟨i, k, v, -, -, hv, hi, hm⟩ | ⟨-, hi, hm⟩
    · simp [Header.get, hi, hm, hv]
    · simp [Header.get, hi, hm]
  tryGet_eq key := by
    rcases hR.indexOf_cases key with ⟨i, k, v, -, -, hv, hi, hm⟩ | ⟨-, hi, hm⟩
    · simp [Header.tryGet, hi, hm, hv]
    · simp [Header.tryGet, hi, hm]
  indexOf_eq key := by
    rw [Header.keysList_eq]
    rcases hR.indexOf_cases key with ⟨i, k, v, hk, heq, -, hi, -⟩ | ⟨habs, hi, -⟩
    · obtain ⟨hlt, rfl⟩ := List.getElem?_eq_some_iff.1 hk
      rw [hi, eq_comm, List.findIdx?_eq_some_iff_getElem]
      refine ⟨hlt, heq, fun j hj => ?_⟩
      intro hj'
      have := hR.inv.position_unique (List.getElem?_eq_getElem (by omega)) hk hj' heq
      omega
    · rw [hi, eq_comm, List.findIdx?_eq_none_iff]
      exact habs
  length_eq := hR.length_eq
  keys_distinct := by
    rw [Header.keysList_eq]
    exact hR.inv.distinct
  keys_mem key := by
    rw [Header.keysList_eq]
    rcases hR.indexOf_cases key with ⟨i, k, v, hk, heq, -, -, hm⟩ | ⟨habs, -, hm⟩
    · exact iff_of_true ⟨k, List.mem_of_getElem? hk, heq⟩ (by simp [hm])
    · refine iff_of_false ?_ (by simp [hm])
      rintro ⟨k, hk, heq⟩
      rw [habs k hk] at heq
      cases heq
  values_length := by
    rw [Header.keysList_eq, Header.valuesList_eq hR.inv.values_length]
    exact hR.inv.values_length
  values_eq i k hk := by
    rw [Header.keysList_eq] at hk
    rw [Header.valuesList_eq hR.inv.values_length]
    have hlt : i < h.values.length := by
      rw [hR.inv.values_length]
      exact (List.getElem?_eq_some_iff.1 hk).1
    have hv : h.values[i]? = some h.values[i] := List.getElem?_eq_getElem hlt
    rw [hv, eq_comm, hR.map_eq]
    exact ⟨k, BEq.refl k, i, hk, hv⟩
  keys_order hrem := by
    rw [Header.keysList_eq]
    exact hR.order hrem

end Represents

/-! ### Programs -/

/-- Every map there is represents its specification. -/
structure Simulates (store : Store K V) (specs : List (Spec K V)) : Prop where
  length_eq : store.length = specs.length
  represents : ∀ {m : ℕ} {h : Header K V} {sp : Spec K V}, store[m]? = some h →
    specs[m]? = some sp → Represents h sp

namespace Simulates

variable {store : Store K V} {specs : List (Spec K V)}

theorem exists_at (hS : Simulates store specs) {m : ℕ} (hm : m < store.length) :
    ∃ h sp, store[m]? = some h ∧ specs[m]? = some sp ∧ Represents h sp := by
  have hm' : m < specs.length := hS.length_eq ▸ hm
  have hh := List.getElem?_eq_getElem hm
  have hsp := List.getElem?_eq_getElem hm'
  exact ⟨_, _, hh, hsp, hS.represents hh hsp⟩

/-- A new map at the end. -/
theorem append (hS : Simulates store specs) (hR : Represents h sp) :
    Simulates (store ++ [h]) (specs ++ [sp]) where
  length_eq := by simp [hS.length_eq]
  represents {m h' sp'} hh hsp := by
    rcases Nat.lt_or_ge m store.length with hlt | hge
    · rw [List.getElem?_append_left hlt] at hh
      rw [List.getElem?_append_left (hS.length_eq ▸ hlt)] at hsp
      exact hS.represents hh hsp
    · rw [List.getElem?_append_right hge, List.getElem?_singleton] at hh
      rw [List.getElem?_append_right (hS.length_eq ▸ hge), List.getElem?_singleton] at hsp
      split_ifs at hh hsp
      obtain rfl : h = h' := by simpa using hh
      obtain rfl : sp = sp' := by simpa using hsp
      exact hR

/-- A change of one map. -/
theorem modify (hS : Simulates store specs) {m : ℕ} {f : Spec K V → Spec K V}
    (hsp : specs[m]? = some sp) (hR : Represents h (f sp)) :
    Simulates (store.set m h) (specs.modify m f) where
  length_eq := by simp [hS.length_eq]
  represents {m' h' sp'} hh hsp' := by
    rw [List.getElem?_modify] at hsp'
    rcases eq_or_ne m m' with rfl | hne
    · rw [hsp] at hsp'
      obtain rfl : f sp = sp' := by simpa using hsp'
      have hlt : m < store.length := by
        rw [hS.length_eq]
        exact (List.getElem?_eq_some_iff.1 hsp).1
      rw [List.getElem?_set_self hlt] at hh
      obtain rfl : h = h' := by simpa using hh
      exact hR
    · rw [List.getElem?_set_ne hne] at hh
      exact hS.represents hh (by simpa [hne] using hsp')

/-- One call keeps the maps in step with their specifications. -/
theorem exists_step [LawfulHashable K] (hS : Simulates store specs) {op : Op K V}
    {ops : List (Op K V)} (hclosed : Closed store.length (op :: ops)) :
    ∃ store', step store op = some store' ∧ Simulates store' (specStep specs op) ∧
      Closed store'.length ops := by
  cases op with
  | default =>
    exact ⟨_, rfl, hS.append .empty, by simpa [Closed] using hclosed⟩
  | put m key value =>
    obtain ⟨h, sp, hh, hsp, hR⟩ := hS.exists_at hclosed.1
    obtain ⟨h', hput, hR'⟩ := hR.exists_put key value
    exact ⟨store.set m h', by simp [step, hh, hput], hS.modify hsp hR',
      by simpa using hclosed.2⟩
  | remove m key =>
    obtain ⟨h, sp, hh, hsp, hR⟩ := hS.exists_at hclosed.1
    obtain ⟨h', hrem, hR'⟩ := hR.exists_remove key
    exact ⟨store.set m h', by simp [step, hh, hrem], hS.modify hsp hR',
      by simpa using hclosed.2⟩
  | copy m =>
    obtain ⟨h, sp, hh, hsp, hR⟩ := hS.exists_at hclosed.1
    obtain ⟨c, hcopy, hI, hk, hv⟩ := hR.inv.exists_copy
    refine ⟨store ++ [c], by simp [step, hh, hcopy], ?_, by simpa using hclosed.2⟩
    simpa [specStep, hsp] using hS.append (hR.copy hI hk hv)

theorem exists_foldlM [LawfulHashable K] (hS : Simulates store specs) {ops : List (Op K V)}
    (hclosed : Closed store.length ops) :
    ∃ store', ops.foldlM step store = some store' ∧ Simulates store' (ops.foldl specStep specs) := by
  induction ops generalizing store specs with
  | nil => exact ⟨store, rfl, hS⟩
  | cons op ops ih =>
    obtain ⟨store₁, hstep, hS₁, hclosed₁⟩ := hS.exists_step hclosed
    obtain ⟨store₂, hrun, hS₂⟩ := ih hS₁ hclosed₁
    exact ⟨store₂, by simp [hstep, hrun], hS₂⟩

end Simulates

/-- A program that collides keys, removes one, copies the map and changes the copy. -/
def sampleOps : List (Op ℕ String) :=
  [.default, .put 0 1 "a", .put 0 9 "b", .put 0 1 "c", .remove 0 1, .copy 0, .put 1 17 "d"]

end TurfLang.Map
