import Mathlib.Tactic

/-!
# Maps in the order of their keys

A map as the list of its entries, each key once and in increasing order, with the operations that
walk that order: a walk starts at the first key that is not less than a given one, and may erase
entries as long as their keys satisfy a predicate.
-/

/-- A map in the order of its keys. -/
structure SortedMap (κ ν : Type) [LinearOrder κ] where
  entries : List (κ × ν)
  sorted : entries.Pairwise fun e e' => e.1 < e'.1

namespace SortedMap

variable {κ ν : Type} [LinearOrder κ]

/-- The map with no entries. -/
def empty : SortedMap κ ν := ⟨[], .nil⟩

/-- The value of a key. -/
def find? (m : SortedMap κ ν) (k : κ) : Option ν := (m.entries.find? fun e => e.1 = k).map Prod.snd

/-- Whether a key has a value. -/
def contains (m : SortedMap κ ν) (k : κ) : Bool := (m.find? k).isSome

/-- The keys, in order. -/
def keys (m : SortedMap κ ν) : List κ := m.entries.map Prod.fst

/-- The entries with a key in its place, in front of the first greater one. -/
def place (k : κ) (v : ν) : List (κ × ν) → List (κ × ν)
  | [] => [(k, v)]
  | e :: es => if k < e.1 then (k, v) :: e :: es else if e.1 = k then (k, v) :: es else e :: place k v es

/-- The entries without those from a key on whose keys satisfy a predicate, up to the first that
does not. -/
def cut (k : κ) (p : κ → Bool) (es : List (κ × ν)) : List (κ × ν) :=
  es.takeWhile (fun e => e.1 < k) ++
    (es.dropWhile fun e => e.1 < k).dropWhile fun e => p e.1

/-- The entries from a key on, as long as their keys satisfy a predicate. -/
def walk (m : SortedMap κ ν) (k : κ) (p : κ → Bool) : List (κ × ν) :=
  (m.entries.dropWhile fun e => e.1 < k).takeWhile fun e => p e.1

/-! ### Entries -/

theorem mem_place {k : κ} {v : ν} {e : κ × ν} : ∀ {es : List (κ × ν)},
    es.Pairwise (fun e e' => e.1 < e'.1) → (e ∈ place k v es ↔ e = (k, v) ∨ e ∈ es ∧ e.1 ≠ k)
  | [], _ => by simp [place]
  | f :: es, h => by
    obtain ⟨hf, hes⟩ := List.pairwise_cons.mp h
    rw [place]
    split_ifs with hlt heq
    · have hne : ∀ e ∈ f :: es, e.1 ≠ k := by
        intro e he
        rcases List.mem_cons.mp he with rfl | he
        · exact hlt.ne'
        · exact (hlt.trans (hf e he)).ne'
      constructor
      · intro he
        rcases List.mem_cons.mp he with rfl | he
        · exact .inl rfl
        · exact .inr ⟨he, hne e he⟩
      · rintro (rfl | ⟨he, -⟩)
        · exact List.mem_cons_self
        · exact List.mem_cons_of_mem _ he
    · subst heq
      simp only [List.mem_cons]
      constructor
      · rintro (rfl | he)
        · exact .inl rfl
        · exact .inr ⟨.inr he, (hf e he).ne'⟩
      · rintro (rfl | ⟨rfl | he, hne⟩)
        · exact .inl rfl
        · exact absurd rfl hne
        · exact .inr he
    · simp only [List.mem_cons, mem_place hes]
      constructor
      · rintro (rfl | rfl | ⟨he, hne⟩)
        · exact .inr ⟨.inl rfl, heq⟩
        · exact .inl rfl
        · exact .inr ⟨.inr he, hne⟩
      · rintro (rfl | ⟨rfl | he, hne⟩)
        · exact .inr (.inl rfl)
        · exact .inl rfl
        · exact .inr (.inr ⟨he, hne⟩)

theorem place_sorted {k : κ} {v : ν} : ∀ {es : List (κ × ν)},
    es.Pairwise (fun e e' => e.1 < e'.1) → (place k v es).Pairwise fun e e' => e.1 < e'.1
  | [], _ => by simp [place]
  | f :: es, h => by
    obtain ⟨hf, hes⟩ := List.pairwise_cons.mp h
    rw [place]
    split_ifs with hlt heq
    · refine List.pairwise_cons.mpr ⟨fun e he => ?_, h⟩
      rcases List.mem_cons.mp he with rfl | he
      · exact hlt
      · exact hlt.trans (hf e he)
    · exact List.pairwise_cons.mpr ⟨fun e he => heq ▸ hf e he, hes⟩
    · refine List.pairwise_cons.mpr ⟨fun e he => ?_, place_sorted hes⟩
      obtain rfl | ⟨he, -⟩ := (mem_place hes).mp he
      · exact lt_of_le_of_ne (not_lt.mp hlt) heq
      · exact hf e he

theorem cut_sublist (k : κ) (p : κ → Bool) (es : List (κ × ν)) : (cut k p es).Sublist es := by
  have h := (List.dropWhile_sublist (fun e : κ × ν => p e.1) (l := es.dropWhile fun e => e.1 < k))
  have h' := (List.Sublist.refl (es.takeWhile fun e => decide (e.1 < k))).append h
  rwa [List.takeWhile_append_dropWhile] at h'

/-- In order, a predicate that has failed at a key fails at every later one. -/
def Leaves (k : κ) (p : κ → Bool) : Prop := ∀ a b, k ≤ a → a ≤ b → p a = false → p b = false

theorem mem_dropWhile {p : κ → Bool} {e : κ × ν} : ∀ {es : List (κ × ν)},
    es.Pairwise (fun e e' => e.1 < e'.1) →
      (∀ a ∈ es, ∀ b ∈ es, a.1 ≤ b.1 → p a.1 = false → p b.1 = false) →
      (e ∈ es.dropWhile (fun e => p e.1) ↔ e ∈ es ∧ p e.1 = false)
  | [], _, _ => by simp
  | f :: es, h, hp => by
    obtain ⟨hf, hes⟩ := List.pairwise_cons.mp h
    by_cases hpf : p f.1 = true
    · rw [List.dropWhile_cons_of_pos (p := fun e : κ × ν => p e.1) hpf, mem_dropWhile hes fun a ha b hb =>
        hp a (List.mem_cons_of_mem _ ha) b (List.mem_cons_of_mem _ hb), List.mem_cons]
      constructor
      · exact fun ⟨he, hpe⟩ => ⟨.inr he, hpe⟩
      · rintro ⟨rfl | he, hpe⟩
        · simp [hpf] at hpe
        · exact ⟨he, hpe⟩
    · rw [List.dropWhile_cons_of_neg (p := fun e : κ × ν => p e.1) hpf]
      refine ⟨fun he => ⟨he, hp f List.mem_cons_self e he ?_ (by simpa using hpf)⟩, And.left⟩
      rcases List.mem_cons.mp he with rfl | he
      · exact le_rfl
      · exact (hf e he).le

theorem mem_takeWhile_lt {k : κ} {e : κ × ν} : ∀ {es : List (κ × ν)},
    es.Pairwise (fun e e' => e.1 < e'.1) →
      (e ∈ es.takeWhile (fun e => e.1 < k) ↔ e ∈ es ∧ e.1 < k)
  | [], _ => by simp
  | f :: es, h => by
    obtain ⟨hf, hes⟩ := List.pairwise_cons.mp h
    by_cases hlt : f.1 < k
    · rw [List.takeWhile_cons_of_pos (by simpa using hlt), List.mem_cons, List.mem_cons,
        mem_takeWhile_lt hes]
      constructor
      · rintro (rfl | ⟨he, hek⟩)
        · exact ⟨.inl rfl, hlt⟩
        · exact ⟨.inr he, hek⟩
      · rintro ⟨rfl | he, hek⟩
        · exact .inl rfl
        · exact .inr ⟨he, hek⟩
    · rw [List.takeWhile_cons_of_neg (by simpa using hlt)]
      refine ⟨nofun, fun ⟨he, hek⟩ => absurd hek (not_lt.mpr ?_)⟩
      rcases List.mem_cons.mp he with rfl | he
      · exact not_lt.mp hlt
      · exact (not_lt.mp hlt).trans (hf e he).le

theorem mem_dropWhile_lt {k : κ} {e : κ × ν} {es : List (κ × ν)}
    (h : es.Pairwise (fun e e' => e.1 < e'.1)) :
    e ∈ es.dropWhile (fun e => e.1 < k) ↔ e ∈ es ∧ k ≤ e.1 := by
  have hmem := mem_dropWhile (p := fun a => decide (a < k)) (e := e) h fun a _ b _ hle ha => by
    simp only [decide_eq_false_iff_not, not_lt] at ha ⊢
    exact ha.trans hle
  simpa only [decide_eq_false_iff_not, not_lt] using hmem

theorem mem_cut {k : κ} {p : κ → Bool} (hp : Leaves k p) {e : κ × ν} {es : List (κ × ν)}
    (h : es.Pairwise (fun e e' => e.1 < e'.1)) :
    e ∈ cut k p es ↔ e ∈ es ∧ ¬(k ≤ e.1 ∧ p e.1 = true) := by
  have hdrop := h.sublist (List.dropWhile_sublist fun e => decide (e.1 < k))
  rw [cut, List.mem_append, mem_takeWhile_lt h, mem_dropWhile hdrop, mem_dropWhile_lt h]
  · constructor
    · rintro (⟨he, hlt⟩ | ⟨⟨he, -⟩, hpe⟩)
      · exact ⟨he, fun hk => absurd hk.1 (not_le.mpr hlt)⟩
      · exact ⟨he, fun hk => by simp [hk.2] at hpe⟩
    · rintro ⟨he, hk⟩
      by_cases hle : k ≤ e.1
      · exact .inr ⟨⟨he, hle⟩, by simpa using fun hpe => hk ⟨hle, hpe⟩⟩
      · exact .inl ⟨he, not_le.mp hle⟩
  · exact fun a ha b _ hab => hp _ _ ((mem_dropWhile_lt h).mp ha).2 hab

/-! ### Operations -/

/-- A key with a new value. -/
def insert (m : SortedMap κ ν) (k : κ) (v : ν) : SortedMap κ ν :=
  ⟨place k v m.entries, place_sorted m.sorted⟩

/-- From a key on, erase entries as long as their keys satisfy a predicate. -/
def eraseWhile (m : SortedMap κ ν) (k : κ) (p : κ → Bool) : SortedMap κ ν :=
  ⟨cut k p m.entries, m.sorted.sublist (cut_sublist k p m.entries)⟩

theorem find?_eq_some {m : SortedMap κ ν} {k : κ} {v : ν} :
    m.find? k = some v ↔ (k, v) ∈ m.entries := by
  rw [find?, Option.map_eq_some_iff]
  constructor
  · rintro ⟨⟨k', v'⟩, h, rfl⟩
    obtain rfl : k' = k := by simpa using List.find?_some h
    exact List.mem_of_find?_eq_some h
  · intro h
    obtain ⟨e, he⟩ : ∃ e, m.entries.find? (fun e => e.1 = k) = some e :=
      Option.isSome_iff_exists.mp (List.find?_isSome.mpr ⟨_, h, by simp⟩)
    refine ⟨e, he, ?_⟩
    have hkey : e.1 = k := by simpa using List.find?_some he
    have hnodup : (m.entries.map Prod.fst).Nodup :=
      List.pairwise_map.mpr (m.sorted.imp fun h => h.ne)
    rw [List.inj_on_of_nodup_map hnodup (List.mem_of_find?_eq_some he) h hkey]

theorem mem_keys {m : SortedMap κ ν} {k : κ} : k ∈ m.keys ↔ m.contains k = true := by
  rw [contains, Option.isSome_iff_exists, keys, List.mem_map]
  constructor
  · rintro ⟨⟨k, v⟩, h, rfl⟩
    exact ⟨v, find?_eq_some.mpr h⟩
  · rintro ⟨v, h⟩
    exact ⟨_, find?_eq_some.mp h, rfl⟩

@[simp] theorem find?_empty (k : κ) : (empty : SortedMap κ ν).find? k = none := rfl

@[simp] theorem find?_insert (m : SortedMap κ ν) (k k' : κ) (v : ν) :
    (m.insert k v).find? k' = if k' = k then some v else m.find? k' := by
  refine Option.ext fun w => ?_
  rw [find?_eq_some, insert, mem_place m.sorted]
  split_ifs with h
  · subst h
    simp [eq_comm]
  · rw [find?_eq_some]
    simp [h]

theorem find?_eraseWhile {m : SortedMap κ ν} {k : κ} {p : κ → Bool} (hp : Leaves k p) (k' : κ) :
    (m.eraseWhile k p).find? k' = if k ≤ k' ∧ p k' = true then none else m.find? k' := by
  refine Option.ext fun w => ?_
  rw [find?_eq_some, eraseWhile, mem_cut hp m.sorted]
  split_ifs with h
  · simp [h]
  · rw [find?_eq_some, and_iff_left h]

@[simp] theorem contains_insert (m : SortedMap κ ν) (k k' : κ) (v : ν) :
    (m.insert k v).contains k' = (k' = k || m.contains k') := by
  rw [contains, find?_insert, contains]
  split_ifs with h <;> simp [h]

/-- A map is determined by the values of its keys. -/
theorem ext_find? {m m' : SortedMap κ ν} (h : ∀ k, m.find? k = m'.find? k) : m = m' := by
  obtain ⟨es, hes⟩ := m
  obtain ⟨es', hes'⟩ := m'
  have hmem : ∀ e, e ∈ es ↔ e ∈ es' := fun ⟨k, v⟩ => by
    have hv := congrArg (· = some v) (h k)
    simpa only [find?_eq_some, eq_iff_iff] using hv
  have hnodup : ∀ {fs : List (κ × ν)}, fs.Pairwise (fun e e' => e.1 < e'.1) → fs.Nodup :=
    fun hfs => hfs.imp fun {_ _} hlt he => hlt.ne (congrArg Prod.fst he)
  have hperm : es.Perm es' := (List.perm_ext_iff_of_nodup (hnodup hes) (hnodup hes')).mpr hmem
  obtain rfl : es = es' := hperm.eq_of_pairwise
    (fun e e' _ _ hlt hgt => absurd hlt hgt.asymm) hes hes'
  rfl

end SortedMap
