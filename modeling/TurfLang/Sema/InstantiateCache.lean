import TurfLang.Sema.Instantiate

/-!
# The instantiation cache while requests are recorded

What one `record` or `forgetSite` does to each entry, and what a whole check of a clone keeps:
parents stay behind their children, and the sites an entry has pointed at its clone stay.
-/

namespace TurfLang.Instantiate

/-- The member of a site that a request's rewrite writes; a struct request writes none. -/
def InstantiationRequest.field (r : InstantiationRequest) : SiteKind → Option Field :=
  match r.kind with
  | .freeFunction => funcCallField r.declKey
  | .method => methodCallField r.declKey
  | .struct => fun _ => none

namespace InstantiationEntry

variable {currentParent : Option ℕ} {r : InstantiationRequest} {s : Site} {e : InstantiationEntry}

/-- Everything about an entry that recording leaves alone. -/
structure Later (e e' : InstantiationEntry) : Prop where
  index : e'.index = e.index
  kind : e'.request.kind = e.request.kind
  declKey : e'.request.declKey = e.request.declKey
  drained : e'.drained = e.drained
  clonedSymbol : e'.clonedSymbol = e.clonedSymbol
  sitesRewritten : e'.sitesRewritten = e.sitesRewritten

theorem Later.refl (e : InstantiationEntry) : e.Later e := ⟨rfl, rfl, rfl, rfl, rfl, rfl⟩

theorem Later.trans {e₁ e₂ e₃ : InstantiationEntry} (h : e₁.Later e₂) (h' : e₂.Later e₃) :
    e₁.Later e₃ where
  index := h'.index.trans h.index
  kind := h'.kind.trans h.kind
  declKey := h'.declKey.trans h.declKey
  drained := h'.drained.trans h.drained
  clonedSymbol := h'.clonedSymbol.trans h.clonedSymbol
  sitesRewritten := h'.sitesRewritten.trans h.sitesRewritten

theorem Later.field {e' : InstantiationEntry} (h : e.Later e') :
    e'.request.field = e.request.field := by
  unfold InstantiationRequest.field
  rw [h.kind, h.declKey]

theorem later_absorb : e.Later (e.absorb currentParent r s) := by
  unfold absorb
  split <;> exact ⟨rfl, rfl, rfl, rfl, rfl, rfl⟩

theorem later_forget : e.Later (e.forget s) := ⟨rfl, rfl, rfl, rfl, rfl, rfl⟩

@[simp] theorem sites_absorb : (e.absorb currentParent r s).sites = e.sites ++ [s] := rfl

theorem parent_absorb {q : ℕ} (h : (e.absorb currentParent r s).request.parent = some q) :
    e.request.parent = some q := by
  unfold absorb at h
  split at h
  · simp at h
  · exact h

theorem mem_sites_of_forget {t : Site} (h : t ∈ (e.forget s).sites) : t ∈ e.sites := by
  simp only [forget, List.mem_append, List.mem_filter] at h
  obtain h | h := h
  · exact List.mem_of_mem_take h
  · exact List.mem_of_mem_drop h.1

end InstantiationEntry

namespace InstantiationCollector

variable {c : InstantiationCollector} {r : InstantiationRequest} {s : Site} {i j : ℕ}
  {e e' : InstantiationEntry}

/-! ### One event -/

theorem lt_of_find (h : c.find r = some i) : i < c.entries.length := by
  unfold find at h
  exact (List.findIdx?_eq_some_iff_getElem.mp h).choose

@[simp] theorem currentParent_record : (c.record r s).currentParent = c.currentParent := by
  unfold record
  split <;> rfl

/-- The entries after a record: those of before, the one that was found with the site, or a new
one at the end. -/
theorem getElem?_record (h : (c.record r s).entries[j]? = some e') :
    (c.find r ≠ some j ∧ c.entries[j]? = some e') ∨
      (c.find r = some j ∧ ∃ e, c.entries[j]? = some e ∧ e' = e.absorb c.currentParent r s) ∨
      (c.find r = none ∧ j = c.entries.length ∧
        e' = { request := { r with parent := c.currentParent }, index := j, sites := [s] }) := by
  unfold record at h
  cases hf : c.find r with
  | some i =>
    simp only [hf, List.getElem?_modify] at h
    obtain rfl | hij := eq_or_ne i j
    · obtain ⟨e, he, rfl⟩ : ∃ e, c.entries[i]? = some e ∧ _ := by simpa using h
      exact .inr (.inl ⟨rfl, e, he, rfl⟩)
    · exact .inl ⟨by simpa using hij, by simpa [hij] using h⟩
  | none =>
    simp only [hf, List.getElem?_append] at h
    split at h
    · exact .inl ⟨by simp, h⟩
    · obtain ⟨hj, rfl⟩ := List.getElem?_eq_some_iff.mp h
      have hj : j = c.entries.length := by simp at hj; omega
      exact .inr (.inr ⟨rfl, hj, by simp [hj]⟩)

theorem getElem?_forgetSite :
    (c.forgetSite s).entries[j]? = (c.entries[j]?).map (.forget s) := by
  simp [forgetSite]

theorem exists_of_getElem?_forgetSite (h : (c.forgetSite s).entries[j]? = some e') :
    ∃ e, c.entries[j]? = some e ∧ e' = e.forget s := by
  rw [getElem?_forgetSite, Option.map_eq_some_iff] at h
  obtain ⟨e, he, rfl⟩ := h
  exact ⟨e, he, rfl⟩

@[simp] theorem currentParent_apply (ev : Event) :
    (c.apply ev).currentParent = c.currentParent := by
  cases ev with
  | record r s => exact currentParent_record
  | forgetSite s => rfl

/-- An entry stays, up to its sites and its parent. -/
theorem later_apply (ev : Event) (h : c.entries[j]? = some e) :
    ∃ e', (c.apply ev).entries[j]? = some e' ∧ e.Later e' := by
  cases ev with
  | record r s =>
    change ∃ e', (c.record r s).entries[j]? = some e' ∧ e.Later e'
    unfold record
    cases hf : c.find r with
    | some i =>
      simp only [List.getElem?_modify, h]
      split
      · exact ⟨_, rfl, InstantiationEntry.later_absorb⟩
      · exact ⟨_, rfl, .refl e⟩
    | none =>
      have hj := (List.getElem?_eq_some_iff.mp h).choose
      exact ⟨e, by simpa [List.getElem?_append_left hj] using h, .refl e⟩
  | forgetSite s =>
    exact ⟨e.forget s, by simp [apply, getElem?_forgetSite, h], InstantiationEntry.later_forget⟩

theorem length_le_apply (ev : Event) : c.entries.length ≤ (c.apply ev).entries.length := by
  cases ev with
  | record r s =>
    change _ ≤ (c.record r s).entries.length
    unfold record
    split <;> simp
  | forgetSite s => simp [apply, forgetSite]

/-! ### A list of events -/

@[simp] theorem replay_nil : c.replay [] = c := rfl

@[simp] theorem replay_cons (ev : Event) (evs : List Event) :
    c.replay (ev :: evs) = (c.apply ev).replay evs := rfl

@[simp] theorem currentParent_replay (evs : List Event) :
    (c.replay evs).currentParent = c.currentParent := by
  induction evs generalizing c with
  | nil => rfl
  | cons ev evs ih => simp [ih]

theorem later_replay (evs : List Event) (h : c.entries[j]? = some e) :
    ∃ e', (c.replay evs).entries[j]? = some e' ∧ e.Later e' := by
  induction evs generalizing c e with
  | nil => exact ⟨e, h, .refl e⟩
  | cons ev evs ih =>
    obtain ⟨e₁, he₁, hl₁⟩ := later_apply ev h
    obtain ⟨e₂, he₂, hl₂⟩ := ih he₁
    exact ⟨e₂, he₂, hl₁.trans hl₂⟩

theorem length_le_replay (evs : List Event) :
    c.entries.length ≤ (c.replay evs).entries.length := by
  induction evs generalizing c with
  | nil => exact le_rfl
  | cons ev evs ih => exact (length_le_apply ev).trans ih

/-- Every event of a list meets a condition in the state it comes in. -/
def meets (P : InstantiationCollector → Event → Bool) : InstantiationCollector → List Event → Bool
  | _, [] => true
  | c, ev :: evs => P c ev && meets P (c.apply ev) evs

/-- What every event keeps in a state where it meets the condition, a list of them keeps. -/
theorem replay_keeps {P : InstantiationCollector → Event → Bool}
    {Q : InstantiationCollector → Prop}
    (hstep : ∀ ⦃c ev⦄, Q c → P c ev = true → Q (c.apply ev)) {evs : List Event}
    (hc : Q c) (hP : meets P c evs = true) : Q (c.replay evs) := by
  induction evs generalizing c with
  | nil => exact hc
  | cons ev evs ih =>
    obtain ⟨hev, hevs⟩ := Bool.and_eq_true_iff.mp hP
    exact ih (hstep hc hev) hevs

theorem meets_true (evs : List Event) : meets (fun _ _ => true) c evs = true := by
  induction evs generalizing c with
  | nil => rfl
  | cons ev evs ih => exact ih

/-! ### The order of the entries -/

/-- Entries know their position, and come after the entry whose clone asked for them. -/
structure Ordered (c : InstantiationCollector) : Prop where
  index : ∀ ⦃j : ℕ⦄ ⦃e : InstantiationEntry⦄, c.entries[j]? = some e → e.index = j
  parent : ∀ ⦃j : ℕ⦄ ⦃e : InstantiationEntry⦄, c.entries[j]? = some e →
    ∀ q, e.request.parent = some q → q < j
  current : ∀ q, c.currentParent = some q → q < c.entries.length

theorem Ordered.apply (h : c.Ordered) (ev : Event) : (c.apply ev).Ordered where
  index j e' he' := by
    cases ev with
    | record r s =>
      obtain ⟨-, he⟩ | ⟨-, e, he, rfl⟩ | ⟨-, -, rfl⟩ := getElem?_record he'
      · exact h.index he
      · show e.index = j
        exact h.index he
      · rfl
    | forgetSite s =>
      obtain ⟨e, he, rfl⟩ := exists_of_getElem?_forgetSite he'
      show e.index = j
      exact h.index he
  parent j e' he' q hq := by
    cases ev with
    | record r s =>
      obtain ⟨-, he⟩ | ⟨-, e, he, rfl⟩ | ⟨-, rfl, rfl⟩ := getElem?_record he'
      · exact h.parent he q hq
      · exact h.parent he q (InstantiationEntry.parent_absorb hq)
      · exact h.current q hq
    | forgetSite s =>
      obtain ⟨e, he, rfl⟩ := exists_of_getElem?_forgetSite he'
      exact h.parent he q hq
  current q hq := by
    rw [currentParent_apply] at hq
    exact (h.current q hq).trans_le (length_le_apply ev)

theorem Ordered.replay (h : c.Ordered) (evs : List Event) : (c.replay evs).Ordered :=
  replay_keeps (fun _ ev hc _ => hc.apply ev) h (meets_true evs)

theorem Ordered.setCurrentParent (h : c.Ordered) {parent : Option ℕ}
    (hp : ∀ q, parent = some q → q < c.entries.length) : (c.setCurrentParent parent).Ordered :=
  ⟨h.index, h.parent, hp⟩

theorem ordered_empty : Ordered {} := ⟨by simp, by simp, by simp⟩

/-! ### Chains of requests -/

/-- A chain of requests that ends at an entry: each was asked for by the clone of the one before
it, and the first by no clone. -/
structure IsChainTo (c : InstantiationCollector) (chain : List ℕ) (i : ℕ) : Prop where
  head : ∃ h e, chain.head? = some h ∧ c.entries[h]? = some e ∧ e.request.parent = none
  last : chain.getLast? = some i
  linked : chain.IsChain fun a b => ∃ e, c.entries[b]? = some e ∧ e.request.parent = some a

theorem isChainTo_singleton (he : c.entries[i]? = some e) (hp : e.request.parent = none) :
    c.IsChainTo [i] i :=
  ⟨⟨i, e, rfl, he, hp⟩, rfl, List.isChain_singleton i⟩

theorem IsChainTo.snoc {chain : List ℕ} {q : ℕ} (h : c.IsChainTo chain q)
    (he : c.entries[i]? = some e) (hp : e.request.parent = some q) :
    c.IsChainTo (chain ++ [i]) i where
  head := by
    obtain ⟨a, ea, ha, hea, hpa⟩ := h.head
    exact ⟨a, ea, by simp [ha], hea, hpa⟩
  last := by simp
  linked := by
    refine List.isChain_append.mpr ⟨h.linked, List.isChain_singleton i, ?_⟩
    intro x hx y hy
    obtain rfl : q = x := by simpa [h.last] using hx
    obtain rfl : i = y := by simpa using hy
    exact ⟨e, he, hp⟩

/-- Following the parents ends, since they come before their children. -/
theorem Ordered.exists_chainFrom (h : c.Ordered) {fuel : ℕ} (hq : i < fuel)
    (he : c.entries[i]? = some e) :
    ∃ chain, c.chainFrom fuel (some i) = some chain ∧ c.IsChainTo chain i := by
  induction fuel generalizing i e with
  | zero => omega
  | succ fuel ih =>
    cases hp : e.request.parent with
    | none => exact ⟨[i], by simp [chainFrom, he, hp], isChainTo_singleton he hp⟩
    | some q =>
      have hqi : q < i := h.parent he q hp
      have hlen := (List.getElem?_eq_some_iff.mp he).choose
      obtain ⟨chain, hchain, hto⟩ :=
        ih (by omega) (List.getElem?_eq_getElem (hqi.trans hlen))
      exact ⟨chain ++ [i], by simp [chainFrom, he, hp, hchain], hto.snoc he hp⟩

theorem Ordered.exists_chainTo (h : c.Ordered) (he : c.entries[i]? = some e) :
    ∃ chain, c.chainTo i = some chain ∧ c.IsChainTo chain i := by
  unfold chainTo
  rw [he]
  cases hp : e.request.parent with
  | none => exact ⟨[i], by simp [chainFrom, hp], isChainTo_singleton he hp⟩
  | some q =>
    have hqi : q < i := h.parent he q hp
    have hlen := (List.getElem?_eq_some_iff.mp he).choose
    obtain ⟨chain, hchain, hto⟩ :=
      h.exists_chainFrom (hqi.trans hlen) (List.getElem?_eq_getElem (hqi.trans hlen))
    exact ⟨chain ++ [i], by simp [hp, hchain], hto.snoc he hp⟩

/-! ### Which requests ordinary code made -/

/-- The entries before `n` were asked for by ordinary code, and the others by clones. -/
structure Rooted (n : ℕ) (c : InstantiationCollector) : Prop where
  le : n ≤ c.entries.length
  parent : ∀ ⦃j : ℕ⦄ ⦃e : InstantiationEntry⦄, c.entries[j]? = some e →
    (e.request.parent = none ↔ j < n)

/-- A record that finds one of the first `n` entries. -/
def asksOrdinary (n : ℕ) (c : InstantiationCollector) : Event → Bool
  | .record r _ =>
    match c.find r with
    | some j => j < n
    | none => false
  | .forgetSite _ => true

theorem Rooted.forgetSite {n : ℕ} (h : c.Rooted n) (s : Site) : (c.forgetSite s).Rooted n where
  le := by simpa [InstantiationCollector.forgetSite] using h.le
  parent j e' he' := by
    obtain ⟨e, he, rfl⟩ := exists_of_getElem?_forgetSite he'
    show e.request.parent = none ↔ j < n
    exact h.parent he

/-- While a clone is checked, whatever it records. -/
theorem Rooted.apply_of_parent {n q : ℕ} (h : c.Rooted n) (hq : c.currentParent = some q)
    (ev : Event) : (c.apply ev).Rooted n := by
  cases ev with
  | forgetSite s => exact h.forgetSite s
  | record r s =>
    refine ⟨h.le.trans (length_le_apply _), fun j e' he' => ?_⟩
    obtain ⟨-, he⟩ | ⟨-, e, he, rfl⟩ | ⟨-, rfl, rfl⟩ := getElem?_record he'
    · exact h.parent he
    · simpa [InstantiationEntry.absorb, hq] using h.parent he
    · simpa [hq] using h.le

/-- Outside a clone, as long as the requests are there from ordinary code. -/
theorem Rooted.apply_of_asksOrdinary {n : ℕ} (h : c.Rooted n) {ev : Event}
    (hev : asksOrdinary n c ev = true) : (c.apply ev).Rooted n := by
  cases ev with
  | forgetSite s => exact h.forgetSite s
  | record r s =>
    refine ⟨h.le.trans (length_le_apply _), fun j e' he' => ?_⟩
    unfold asksOrdinary at hev
    obtain ⟨-, he⟩ | ⟨hf, e, he, rfl⟩ | ⟨hf, -, -⟩ := getElem?_record he'
    · exact h.parent he
    · have hj : j < n := by simpa [hf] using hev
      have hp : e.request.parent = none := (h.parent he).mpr hj
      simpa [InstantiationEntry.absorb, hp] using hj
    · simp [hf] at hev

/-- What ordinary code records. -/
theorem rooted_apply_ordinary (hp : c.currentParent = none)
    (h : c.Rooted c.entries.length) (ev : Event) :
    (c.apply ev).Rooted (c.apply ev).entries.length := by
  refine ⟨le_rfl, fun j e' he' => ?_⟩
  have hj := (List.getElem?_eq_some_iff.mp he').choose
  refine ⟨fun _ => hj, fun _ => ?_⟩
  have hroot : ∀ ⦃j : ℕ⦄ ⦃e : InstantiationEntry⦄, c.entries[j]? = some e →
      e.request.parent = none :=
    fun j e he => (h.parent he).mpr (List.getElem?_eq_some_iff.mp he).choose
  cases ev with
  | forgetSite s =>
    obtain ⟨e, he, rfl⟩ := exists_of_getElem?_forgetSite he'
    show e.request.parent = none
    exact hroot he
  | record r s =>
    obtain ⟨-, he⟩ | ⟨-, e, he, rfl⟩ | ⟨-, -, rfl⟩ := getElem?_record he'
    · exact hroot he
    · simp [InstantiationEntry.absorb, hroot he]
    · exact hp

theorem rooted_replay_ordinary (evs : List Event) (hp : c.currentParent = none)
    (h : c.Rooted c.entries.length) : (c.replay evs).Rooted (c.replay evs).entries.length := by
  induction evs generalizing c with
  | nil => exact h
  | cons ev evs ih =>
    exact ih ((currentParent_apply ev).trans hp) (rooted_apply_ordinary hp h ev)

end InstantiationCollector

end TurfLang.Instantiate
