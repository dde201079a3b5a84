import TurfLang.Sema.InstantiateDrain

/-!
# What every step of a drain keeps

The order of the cache and the one clone of every drained entry are kept whatever the clones
record. The links from the sites to the clones are kept as long as a request is recorded at a
site no other instantiation has been recorded at.
-/

namespace TurfLang.Instantiate

open InstantiationCollector (meets)

variable {p : Program} {k : Drain} {st st' : State} {i : ℕ} {b : Bool}

/-! ### Positions, parents and clones -/

/-- Two caches with the same requests at the same positions. -/
structure SameRequests (c c' : InstantiationCollector) : Prop where
  length : c'.entries.length = c.entries.length
  current : c'.currentParent = c.currentParent
  entry : ∀ ⦃j : ℕ⦄ ⦃e' : InstantiationEntry⦄, c'.entries[j]? = some e' →
    ∃ e, c.entries[j]? = some e ∧ e'.index = e.index ∧ e'.request = e.request

theorem SameRequests.ordered {c c' : InstantiationCollector} (h : SameRequests c c')
    (hc : c.Ordered) : c'.Ordered where
  index j e' he' := by
    obtain ⟨e, he, hidx, -⟩ := h.entry he'
    exact hidx.trans (hc.index he)
  parent j e' he' q hq := by
    obtain ⟨e, he, -, hreq⟩ := h.entry he'
    exact hc.parent he q (hreq ▸ hq)
  current q hq := h.length ▸ hc.current q (h.current ▸ hq)

theorem SameRequests.rooted {c c' : InstantiationCollector} {n : ℕ} (h : SameRequests c c')
    (hc : c.Rooted n) : c'.Rooted n where
  le := h.length ▸ hc.le
  parent j e' he' := by
    obtain ⟨e, he, -, hreq⟩ := h.entry he'
    exact hreq ▸ hc.parent he

theorem sameRequests_rewriteNewSites {d : FunctionDrain} :
    SameRequests st.collector (st.rewriteNewSites d i).collector where
  length := State.size_rewriteNewSites
  current := State.currentParent_rewriteNewSites
  entry j e' he' := by
    change (st.rewriteNewSites d i).entryAt? j = some e' at he'
    rw [State.entryAt?_rewriteNewSites] at he'
    split at he'
    · obtain ⟨e, he, rfl⟩ := Option.map_eq_some_iff.mp he'
      exact ⟨e, he, rfl, rfl⟩
    · exact ⟨e', he', rfl, rfl⟩

theorem sameRequests_adoptFunction {d : FunctionDrain} {checked : InstantiationCollector} :
    SameRequests checked (st.adoptFunction d i checked).collector where
  length := State.size_adoptFunction
  current := State.currentParent_adoptFunction
  entry j e' he' := by
    change (st.adoptFunction d i checked).entryAt? j = some e' at he'
    rw [State.entryAt?_adoptFunction] at he'
    split at he'
    · obtain ⟨e, he, rfl⟩ := Option.map_eq_some_iff.mp he'
      exact ⟨e, he, rfl, rfl⟩
    · exact ⟨e', he', rfl, rfl⟩

theorem sameRequests_adoptStruct {checked : InstantiationCollector} :
    SameRequests checked (st.adoptStruct i checked).collector where
  length := State.size_adoptStruct
  current := rfl
  entry j e' he' := by
    change (st.adoptStruct i checked).entryAt? j = some e' at he'
    rw [State.entryAt?_adoptStruct] at he'
    split at he'
    · obtain ⟨e, he, rfl⟩ := Option.map_eq_some_iff.mp he'
      exact ⟨e, he, rfl, rfl⟩
    · exact ⟨e', he', rfl, rfl⟩

/-- Between two steps no clone is being checked, and the clones are those of the drained
entries, one each. -/
structure Sound (st : State) : Prop where
  ordered : st.collector.Ordered
  current : st.collector.currentParent = none
  mem_clones : ∀ j, j ∈ st.clones ↔ ∃ e, st.entryAt? j = some e ∧ e.drained = true
  nodup : st.clones.Nodup

theorem Sound.lt_size (h : Sound st) {j : ℕ} (hj : j ∈ st.clones) : j < st.size := by
  obtain ⟨e, he, -⟩ := (h.mem_clones j).mp hj
  exact (List.getElem?_eq_some_iff.mp he).choose

theorem Sound.not_mem_clones (h : Sound st) {e : InstantiationEntry} (he : st.entryAt? i = some e)
    (hd : e.drained = false) : i ∉ st.clones := by
  rw [h.mem_clones]
  rintro ⟨e', he', hd'⟩
  obtain rfl := Option.some.inj (he.symm.trans he')
  simp [hd] at hd'

/-- The cache while the clone of an entry is checked, with the entry as the current parent. -/
theorem Sound.ordered_checking (h : Sound st) {e : InstantiationEntry}
    (he : st.entryAt? i = some e) : (st.collector.setCurrentParent (some e.index)).Ordered := by
  refine h.ordered.setCurrentParent fun q hq => ?_
  obtain rfl : e.index = q := by simpa using hq
  rw [h.ordered.index he]
  exact (List.getElem?_eq_some_iff.mp he).choose

theorem Sound.ordered_checkClone (h : Sound st) {e : InstantiationEntry}
    (he : st.entryAt? i = some e) : (st.checkClone p i e).Ordered :=
  ((h.ordered_checking he).replay _).setCurrentParent (by simp [h.current])

/-- An entry after its clone was checked. -/
theorem exists_later_checkClone {e e₁ : InstantiationEntry} {j : ℕ} (he : st.entryAt? j = some e₁) :
    ∃ e', (st.checkClone p i e).entries[j]? = some e' ∧ e₁.Later e' :=
  InstantiationCollector.later_replay (c := st.collector.setCurrentParent (some e.index)) _ he

/-- New entries are not drained. -/
def AllFresh (n : ℕ) (c : InstantiationCollector) : Prop :=
  ∀ ⦃j : ℕ⦄ ⦃e : InstantiationEntry⦄, c.entries[j]? = some e → n ≤ j → e.drained = false

theorem AllFresh.apply {n : ℕ} {c : InstantiationCollector} (h : AllFresh n c) (ev : Event) :
    AllFresh n (c.apply ev) := by
  intro j e' he' hj
  cases ev with
  | record r s =>
    obtain ⟨-, he⟩ | ⟨-, e, he, rfl⟩ | ⟨-, -, rfl⟩ := InstantiationCollector.getElem?_record he'
    · exact h he hj
    · show e.drained = false
      exact h he hj
    · rfl
  | forgetSite s =>
    obtain ⟨e, he, rfl⟩ := InstantiationCollector.exists_of_getElem?_forgetSite he'
    show e.drained = false
    exact h he hj

/-- Recording changes no drained mark: an entry is drained after it if and only if it was there
and drained before. -/
theorem drained_replay {c : InstantiationCollector} (evs : List Event) (j : ℕ) :
    (∃ e, (c.replay evs).entries[j]? = some e ∧ e.drained = true) ↔
      ∃ e, c.entries[j]? = some e ∧ e.drained = true := by
  constructor
  · rintro ⟨e', he', hd⟩
    cases he : c.entries[j]? with
    | some e =>
      obtain ⟨e₁, he₁, hl⟩ := InstantiationCollector.later_replay evs he
      obtain rfl := Option.some.inj (he₁.symm.trans he')
      exact ⟨e, rfl, hl.drained ▸ hd⟩
    | none =>
      have hfresh : AllFresh c.entries.length (c.replay evs) := by
        refine InstantiationCollector.replay_keeps (P := fun _ _ => true)
          (fun _ ev hc _ => hc.apply ev) (fun j e he hj => ?_)
          (InstantiationCollector.meets_true evs)
        exact absurd (List.getElem?_eq_some_iff.mp he).choose (by omega)
      simp [hfresh he' (List.getElem?_eq_none_iff.mp he)] at hd
  · rintro ⟨e, he, hd⟩
    obtain ⟨e', he', hl⟩ := InstantiationCollector.later_replay evs he
    exact ⟨e', he', hl.drained.trans hd⟩

/-- Registering the clone of an entry that has none. -/
theorem Sound.register (h : Sound st) {e : InstantiationEntry} (he : st.entryAt? i = some e)
    (hd : e.drained = false) {c : InstantiationCollector} {e₁ : InstantiationEntry}
    (he₁ : c.entries[i]? = some e₁)
    (hc : ∀ j, (∃ e, c.entries[j]? = some e ∧ e.drained = true) ↔
      ∃ e, st.entryAt? j = some e ∧ e.drained = true)
    (hordered : st'.collector.Ordered) (hcurrent : st'.collector.currentParent = none)
    (hclones : st'.clones = st.clones ++ [i])
    (hentry : ∃ g : InstantiationEntry → InstantiationEntry, (∀ e, (g e).drained = true) ∧
      ∀ j, st'.entryAt? j = if i = j then (c.entries[j]?).map g else c.entries[j]?) :
    Sound st' := by
  obtain ⟨g, hg, hentry⟩ := hentry
  refine ⟨hordered, hcurrent, fun j => ?_, ?_⟩
  · rw [hclones, List.mem_append, List.mem_singleton, hentry]
    obtain rfl | hij := eq_or_ne i j
    · simp [he₁, hg]
    · rw [if_neg hij, hc, h.mem_clones]
      simp [hij.symm]
  · rw [hclones, List.nodup_append]
    refine ⟨h.nodup, List.nodup_singleton i, fun x hx y hy => ?_⟩
    obtain rfl := List.mem_singleton.mp hy
    rintro rfl
    exact h.not_mem_clones he hd hx

theorem Sound.step (h : Sound st) (ho : k.Outcome p st i st' b) : Sound st' := by
  cases ho with
  | idle => exact h
  | rewrite d hd e he =>
    refine ⟨sameRequests_rewriteNewSites.ordered h.ordered, by simpa using h.current, fun j => ?_,
      by simpa using h.nodup⟩
    rw [State.clones_rewriteNewSites, h.mem_clones, State.entryAt?_rewriteNewSites]
    split <;> simp
  | function d hd e he ht =>
    have hdr : e.drained = false := (FunctionDrain.takes_iff.mp ht).2.1
    obtain ⟨e₁, he₁, -⟩ := exists_later_checkClone (p := p) (i := i) (e := e) he
    refine h.register he hdr he₁ (fun j => drained_replay _ j)
      (sameRequests_adoptFunction.ordered (h.ordered_checkClone he)) ?_
      State.clones_adoptFunction ⟨_, fun _ => rfl, fun j => State.entryAt?_adoptFunction⟩
    rw [State.currentParent_adoptFunction]
    exact h.current
  | struct hk e he hs hdr =>
    obtain ⟨e₁, he₁, -⟩ := InstantiationCollector.later_replay (State.fieldEvents p i e) he
    refine h.register he hdr he₁ (fun j => drained_replay _ j)
      (sameRequests_adoptStruct.ordered (h.ordered.replay _)) ?_ rfl
      ⟨_, fun _ => rfl, fun j => State.entryAt?_adoptStruct⟩
    exact (InstantiationCollector.currentParent_replay _).trans h.current

/-! ### Sites and clones -/

/-- What ties an entry to its clone: the sites it has rewritten hold the clone, and every site
has a member to hold it. -/
structure EntryLinked (clones : List ℕ) (targets : Site → Field → Option ℕ) (j : ℕ)
    (e : InstantiationEntry) : Prop where
  le : e.sitesRewritten ≤ e.sites.length
  fresh : e.drained = false → e.sitesRewritten = 0
  cloned : e.drained = true → e.request.kind ≠ .struct →
    ∃ n, e.clonedSymbol = some n ∧ clones[n]? = some j
  points : ∀ s ∈ e.sites.take e.sitesRewritten, ∀ f, e.request.field s.kind = some f →
    targets s f = e.clonedSymbol
  fields : e.request.kind ≠ .struct → ∀ s ∈ e.sites, (e.request.field s.kind).isSome

/-- All entries are tied to their clones, and no two entries want the same member of a site. -/
structure Linked (clones : List ℕ) (targets : Site → Field → Option ℕ)
    (c : InstantiationCollector) : Prop where
  entry : ∀ ⦃j : ℕ⦄ ⦃e : InstantiationEntry⦄, c.entries[j]? = some e →
    EntryLinked clones targets j e
  apart : ∀ ⦃i j : ℕ⦄ ⦃e e' : InstantiationEntry⦄, c.entries[i]? = some e →
    c.entries[j]? = some e' → i ≠ j → ∀ s ∈ e.sites, s ∈ e'.sites → ∀ f,
      e.request.field s.kind = some f → e'.request.field s.kind ≠ some f

/-- A function request is recorded at a new call site: a site with a member for it that no
request for another instantiation wants. -/
def isFresh (c : InstantiationCollector) : Event → Bool
  | .record r s =>
    r.kind = .struct ||
      ((r.field s.kind).isSome && c.entries.zipIdx.all fun x =>
        c.find r = some x.2 || !x.1.sites.contains s || x.1.request.field s.kind ≠ r.field s.kind)
  | .forgetSite _ => true

theorem field_of_struct {r : InstantiationRequest} (h : r.kind = .struct) (kind : SiteKind) :
    r.field kind = none := by
  unfold InstantiationRequest.field
  rw [h]

theorem field_eq_of_same {r r' : InstantiationRequest} (h : r.sameInstantiationAs r' = true) :
    r.kind = r'.kind ∧ r.field = r'.field := by
  simp only [InstantiationRequest.sameInstantiationAs, Bool.and_eq_true, decide_eq_true_eq] at h
  obtain ⟨⟨⟨⟨⟨hk, hd⟩, -⟩, -⟩, -⟩, -⟩ := h
  unfold InstantiationRequest.field
  rw [hk, hd]
  exact ⟨rfl, rfl⟩

theorem same_of_find {c : InstantiationCollector} {r : InstantiationRequest} {j : ℕ}
    {e : InstantiationEntry} (h : c.find r = some j) (he : c.entries[j]? = some e) :
    e.request.sameInstantiationAs r = true := by
  unfold InstantiationCollector.find at h
  obtain ⟨hj, hsame, -⟩ := List.findIdx?_eq_some_iff_getElem.mp h
  rw [List.getElem?_eq_getElem hj] at he
  exact Option.some.inj he ▸ hsame

section Events

variable {clones : List ℕ} {targets : Site → Field → Option ℕ} {c : InstantiationCollector}
  {r : InstantiationRequest} {s : Site}

theorem isFresh_record (h : isFresh c (.record r s) = true) :
    (r.kind ≠ .struct → (r.field s.kind).isSome) ∧
      ∀ ⦃j e⦄, c.entries[j]? = some e → c.find r ≠ some j → s ∈ e.sites → ∀ f,
        r.field s.kind = some f → e.request.field s.kind ≠ some f := by
  simp only [isFresh, Bool.or_eq_true, decide_eq_true_eq, Bool.and_eq_true, List.all_eq_true,
    Bool.not_eq_true', List.contains_eq_mem, decide_eq_false_iff_not] at h
  refine ⟨fun hk => (h.resolve_left hk).1, fun j e he hj hs f hf => ?_⟩
  obtain hk | ⟨-, hall⟩ := h
  · simp [field_of_struct hk] at hf
  · have hmem : (e, j) ∈ c.entries.zipIdx := List.mem_zipIdx_iff_getElem?.mpr he
    obtain (h' | h') | h' := hall _ hmem
    · exact absurd h' hj
    · exact absurd hs h'
    · rwa [hf] at h'

/-- Where a site listed after a record comes from. -/
theorem mem_sites_record {j : ℕ} {e' : InstantiationEntry} {t : Site}
    (h : (c.record r s).entries[j]? = some e') (ht : t ∈ e'.sites) :
    (∃ e, c.entries[j]? = some e ∧ t ∈ e.sites ∧ e'.request.field = e.request.field) ∨
      (t = s ∧ e'.request.field = r.field ∧ (c.find r).getD c.entries.length = j) := by
  obtain ⟨-, he⟩ | ⟨hf, e, he, rfl⟩ | ⟨hf, rfl, rfl⟩ := InstantiationCollector.getElem?_record h
  · exact .inl ⟨e', he, ht, rfl⟩
  · rw [InstantiationEntry.sites_absorb, List.mem_append, List.mem_singleton] at ht
    obtain ht | rfl := ht
    · exact .inl ⟨e, he, ht, InstantiationEntry.later_absorb.field⟩
    · refine .inr ⟨rfl, ?_, by simp [hf]⟩
      rw [InstantiationEntry.later_absorb.field, (field_eq_of_same (same_of_find hf he)).2]
  · exact .inr ⟨by simpa using ht, rfl, by simp [hf]⟩

theorem EntryLinked.absorb {j : ℕ} {e : InstantiationEntry} {currentParent : Option ℕ}
    (h : EntryLinked clones targets j e)
    (hs : e.request.kind ≠ .struct → (e.request.field s.kind).isSome) :
    EntryLinked clones targets j (e.absorb currentParent r s) := by
  have hl : e.Later (e.absorb currentParent r s) := InstantiationEntry.later_absorb
  refine ⟨?_, ?_, ?_, ?_, ?_⟩
  · rw [hl.sitesRewritten, InstantiationEntry.sites_absorb, List.length_append]
    exact h.le.trans (Nat.le_add_right _ _)
  · rw [hl.drained, hl.sitesRewritten]
    exact h.fresh
  · rw [hl.drained, hl.kind, hl.clonedSymbol]
    exact h.cloned
  · rw [hl.sitesRewritten, hl.field, hl.clonedSymbol, InstantiationEntry.sites_absorb,
      List.take_append_of_le_length h.le]
    exact h.points
  · rw [hl.kind, hl.field, InstantiationEntry.sites_absorb]
    intro hk t ht
    obtain ht | rfl := (List.mem_append.mp ht).imp_right List.mem_singleton.mp
    · exact h.fields hk t ht
    · exact hs hk

theorem EntryLinked.forget {j : ℕ} {e : InstantiationEntry} (h : EntryLinked clones targets j e)
    (s : Site) : EntryLinked clones targets j (e.forget s) where
  le := by simp [InstantiationEntry.forget, h.le]
  fresh := h.fresh
  cloned := h.cloned
  points := by
    intro t ht
    refine h.points t ?_
    simpa [InstantiationEntry.forget, List.take_append, h.le] using ht
  fields hk t ht := h.fields hk t (InstantiationEntry.mem_sites_of_forget ht)

theorem Linked.apply (h : Linked clones targets c) {ev : Event} (hev : isFresh c ev = true) :
    Linked clones targets (c.apply ev) := by
  cases ev with
  | forgetSite s =>
    refine ⟨fun j e' he' => ?_, fun i j e₁ e₂ he₁ he₂ hij t ht₁ ht₂ f => ?_⟩
    · obtain ⟨e, he, rfl⟩ := InstantiationCollector.exists_of_getElem?_forgetSite he'
      exact (h.entry he).forget s
    · obtain ⟨e, he, rfl⟩ := InstantiationCollector.exists_of_getElem?_forgetSite he₁
      obtain ⟨e', he', rfl⟩ := InstantiationCollector.exists_of_getElem?_forgetSite he₂
      exact h.apart he he' hij t (InstantiationEntry.mem_sites_of_forget ht₁)
        (InstantiationEntry.mem_sites_of_forget ht₂) f
  | record r s =>
    obtain ⟨hsome, hnew⟩ := isFresh_record hev
    -- an entry other than the one the site goes to does not want the same member of it
    have hother : ∀ ⦃i e⦄, c.entries[i]? = some e → (c.find r).getD c.entries.length ≠ i →
        s ∈ e.sites → ∀ f, r.field s.kind = some f → e.request.field s.kind ≠ some f := by
      intro i e he hi
      exact hnew he fun hf => hi (by simp [hf])
    refine ⟨fun j e' he' => ?_, fun i j e₁ e₂ he₁ he₂ hij t ht₁ ht₂ f hf₁ hf₂ => ?_⟩
    · obtain ⟨-, he⟩ | ⟨hf, e, he, rfl⟩ | ⟨-, -, rfl⟩ :=
        InstantiationCollector.getElem?_record he'
      · exact h.entry he
      · obtain ⟨hkind, hfield⟩ := field_eq_of_same (same_of_find hf he)
        refine (h.entry he).absorb fun hk => ?_
        rw [hfield]
        exact hsome (hkind ▸ hk)
      · refine ⟨by simp, fun _ => rfl, by simp, by simp, fun hk t ht => ?_⟩
        obtain rfl : t = s := by simpa using ht
        exact hsome hk
    · obtain ⟨e, he, hte, hfe⟩ | ⟨rfl, hfe, hi⟩ := mem_sites_record he₁ ht₁ <;>
        obtain ⟨e', he', hte', hfe'⟩ | ⟨ht, hfe', hj⟩ := mem_sites_record he₂ ht₂
      · exact h.apart he he' hij t hte hte' f (hfe ▸ hf₁) (hfe' ▸ hf₂)
      · subst ht
        exact hother he (hj.trans_ne hij.symm) hte f (hfe' ▸ hf₂) (hfe ▸ hf₁)
      · exact hother he' (hi.trans_ne hij) hte' f (hfe ▸ hf₁) (hfe' ▸ hf₂)
      · exact hij (hi.symm.trans hj)

theorem Linked.replay (h : Linked clones targets c) {evs : List Event}
    (hevs : meets isFresh c evs = true) : Linked clones targets (c.replay evs) :=
  InstantiationCollector.replay_keeps (fun _ _ hc hev => hc.apply hev) h hevs

/-- An entry with other marks wants the same members of the same sites. -/
theorem Linked.apart_replace {i : ℕ} {e e' : InstantiationEntry} {c' : InstantiationCollector}
    (h : Linked clones targets c) (he : c.entries[i]? = some e) (hsites : e'.sites = e.sites)
    (hrequest : e'.request = e.request)
    (hentry : ∀ j, c'.entries[j]? = if i = j then some e' else c.entries[j]?) :
    ∀ ⦃a j : ℕ⦄ ⦃e₁ e₂ : InstantiationEntry⦄, c'.entries[a]? = some e₁ →
      c'.entries[j]? = some e₂ → a ≠ j → ∀ s ∈ e₁.sites, s ∈ e₂.sites → ∀ f,
        e₁.request.field s.kind = some f → e₂.request.field s.kind ≠ some f := by
  have hview : ∀ ⦃j : ℕ⦄ ⦃e₁ : InstantiationEntry⦄, c'.entries[j]? = some e₁ →
      ∃ e₀ : InstantiationEntry, c.entries[j]? = some e₀ ∧ e₁.sites = e₀.sites ∧
        e₁.request = e₀.request := by
    intro j e₁ he₁
    rw [hentry] at he₁
    split at he₁
    case isTrue hij =>
      obtain rfl := Option.some.inj he₁
      exact ⟨e, hij ▸ he, hsites, hrequest⟩
    case isFalse => exact ⟨e₁, he₁, rfl, rfl⟩
  intro a j e₁ e₂ he₁ he₂ haj s hs₁ hs₂ f hf
  obtain ⟨e₀, he₀, hs₀, hr₀⟩ := hview he₁
  obtain ⟨e₃, he₃, hs₃, hr₃⟩ := hview he₂
  rw [hr₃]
  exact h.apart he₀ he₃ haj s (hs₀ ▸ hs₁) (hs₃ ▸ hs₂) f (hr₀ ▸ hf)

/-- Pointing the sites an entry has gained at its clone. -/
theorem Linked.point {n i : ℕ} {e : InstantiationEntry} {field : String → SiteKind → Option Field}
    {c' : InstantiationCollector} (h : Linked clones targets c) (he : c.entries[i]? = some e)
    (hfield : field e.request.declKey = e.request.field) (hn : clones[n]? = some i)
    (hold : e.sitesRewritten = 0 ∨ e.clonedSymbol = some n)
    (hentry : ∀ j, c'.entries[j]? =
      if i = j then some { e with
        clonedSymbol := some n, sitesRewritten := e.sites.length, drained := true }
      else c.entries[j]?) :
    Linked clones
      (State.pointSites field e.request.declKey (some n) (e.sites.drop e.sitesRewritten) targets)
      c' := by
  refine ⟨fun j e' he' => ?_, h.apart_replace he (by rfl) (by rfl) hentry⟩
  · rw [hentry] at he'
    split at he'
    case isTrue hij =>
      subst hij
      obtain rfl := Option.some.inj he'
      refine ⟨le_rfl, by simp, fun _ _ => ⟨n, rfl, hn⟩, fun s hs f hf => ?_, (h.entry he).fields⟩
      rw [State.pointSites_apply, hfield]
      split
      case isTrue => rfl
      case isFalse hout =>
        -- a site that was not new was pointed at the clone before
        rw [List.take_length] at hs
        have hnew : s ∉ e.sites.drop e.sitesRewritten := fun hmem => hout ⟨hmem, hf⟩
        rw [← List.take_append_drop e.sitesRewritten e.sites, List.mem_append] at hs
        have htaken := hs.resolve_right hnew
        obtain h0 | hc := hold
        · simp [h0] at htaken
        · exact ((h.entry he).points s htaken f hf).trans hc
    case isFalse hij =>
      obtain hlinked := h.entry he'
      refine ⟨hlinked.le, hlinked.fresh, hlinked.cloned, fun s hs f hf => ?_, hlinked.fields⟩
      rw [State.pointSites_apply, hfield, if_neg]
      · exact hlinked.points s hs f hf
      · rintro ⟨hmem, hf'⟩
        exact h.apart he he' hij s (List.mem_of_mem_drop hmem) (List.mem_of_mem_take hs) f hf' hf

/-- More clones change no link. -/
theorem Linked.append (h : Linked clones targets c) (more : List ℕ) :
    Linked (clones ++ more) targets c := by
  refine ⟨fun j e he => ?_, h.apart⟩
  obtain hlinked := h.entry he
  refine ⟨hlinked.le, hlinked.fresh, fun hd hk => ?_, hlinked.points, hlinked.fields⟩
  obtain ⟨n, hn, hclone⟩ := hlinked.cloned hd hk
  exact ⟨n, hn, by rwa [List.getElem?_append_left (List.getElem?_eq_some_iff.mp hclone).choose]⟩

/-- A struct entry has nothing to point at its clone. -/
theorem Linked.markStruct {i : ℕ} {e : InstantiationEntry} {c' : InstantiationCollector}
    (h : Linked clones targets c) (he : c.entries[i]? = some e) (hk : e.request.kind = .struct)
    (hentry : ∀ j, c'.entries[j]? =
      if i = j then some { e with drained := true } else c.entries[j]?) :
    Linked clones targets c' := by
  refine ⟨fun j e' he' => ?_, h.apart_replace he (by rfl) (by rfl) hentry⟩
  · rw [hentry] at he'
    split at he'
    case isTrue hij =>
      subst hij
      obtain rfl := Option.some.inj he'
      exact ⟨(h.entry he).le, by simp, fun _ hne => absurd hk hne, (h.entry he).points,
        (h.entry he).fields⟩
    case isFalse => exact h.entry he'

end Events

end TurfLang.Instantiate
