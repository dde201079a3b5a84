import TurfLang.Sema.InstantiateLinks

/-!
# The drain loop reaches a fixed point

The loop ends for every program. When it ends without an error, every entry that a site still
asks for has one clone and its sites hold it. Two things keep that from covering every request:
an entry whose sites have all been taken off it is passed over, and what the fields of a struct
clone ask for is recorded as if ordinary code had asked.
-/

namespace TurfLang.Instantiate

open InstantiationCollector (meets asksOrdinary)

variable {p : Program} {k : Drain} {st st' : State} {i n : ℕ} {b : Bool}

/-! ### Conditions on a step -/

/-- The check of the clone, if this step makes one, records at new call sites. -/
def Drain.recordsFresh (p : Program) (k : Drain) (st : State) (i : ℕ) : Bool :=
  match k.functionDrain?, st.entryAt? i with
  | some d, some e =>
    !d.takes p e ||
      meets isFresh (st.collector.setCurrentParent (some e.index)) (p.functionClone i).events
  | _, _ => true

/-- The generic types the fields of the struct clone name, if this step makes one, are among the
first `n` requests. -/
def Drain.fieldsAsked (p : Program) (n : ℕ) (k : Drain) (st : State) (i : ℕ) : Bool :=
  match k, st.entryAt? i with
  | .structs, some e =>
    e.request.kind ≠ .struct || e.drained ||
      meets (asksOrdinary n) st.collector (State.fieldEvents p i e)
  | _, _ => true

/-! ### The links and the roots over a step -/

mutual

theorem kind_of_mem_genericFieldRequests {isKnown : String → Bool} {loc : SourceLocation}
    {r : InstantiationRequest} : ∀ {t : TurfType}, r ∈ genericFieldRequests isKnown loc t →
      r.kind = .struct
  | .generic base args, h => by
    unfold genericFieldRequests at h
    split at h
    · obtain rfl | h := List.mem_cons.mp h
      · rfl
      · exact kind_of_mem_genericFieldsRequests h
    · simp at h
  | .pointer t, h | .reference t, h | .nullableReference t, h | .array t _, h => by
    unfold genericFieldRequests at h
    exact kind_of_mem_genericFieldRequests h
  | .int, h | .int32, h | .double, h | .bool, h | .char, h | .string, h | .anyError, h
  | .void, h | .guess, h | .null, h | .opaquePointer, h | .named _, h | .genericParam _, h
  | .sizeValue _, h | .enum _ _, h | .machine _, h | .userError _, h | .errorUnion _, h
  | .func _ _, h => by simp [genericFieldRequests] at h

theorem kind_of_mem_genericFieldsRequests {isKnown : String → Bool} {loc : SourceLocation}
    {r : InstantiationRequest} : ∀ {ts : List TurfType},
      r ∈ genericFieldsRequests isKnown loc ts → r.kind = .struct
  | [], h => by simp [genericFieldsRequests] at h
  | t :: ts, h => by
    unfold genericFieldsRequests at h
    obtain h | h := List.mem_append.mp h
    · exact kind_of_mem_genericFieldRequests h
    · exact kind_of_mem_genericFieldsRequests h

end

/-- Fields ask for structs only, at sites that hold nothing. -/
theorem meets_isFresh_fieldEvents (p : Program) (i : ℕ) (e : InstantiationEntry)
    (c : InstantiationCollector) : meets isFresh c (State.fieldEvents p i e) = true := by
  have hmap : ∀ (front : Site) (rs : List InstantiationRequest) (c : InstantiationCollector),
      (∀ r ∈ rs, r.kind = .struct) → meets isFresh c (rs.map (Event.record · front)) = true := by
    intro front rs
    induction rs with
    | nil => exact fun _ _ => rfl
    | cons r rs ih =>
      intro c hrs
      simp [meets, isFresh, hrs r (List.mem_cons_self ..),
        ih _ fun r' hr' => hrs r' (List.mem_cons_of_mem _ hr')]
  unfold State.fieldEvents
  cases e.sites with
  | nil => rfl
  | cons front rest => exact hmap front _ c fun r hr => kind_of_mem_genericFieldsRequests hr

theorem Linked.step (h : Linked st.clones st.targets st.collector)
    (hf : k.recordsFresh p st i = true) (ho : k.Outcome p st i st' b) :
    Linked st'.clones st'.targets st'.collector := by
  cases ho with
  | idle => exact h
  | rewrite d hd e he hk hdr =>
    obtain ⟨hkind, hne⟩ := Drain.kind_of_functionDrain hd
    have hstruct : e.request.kind ≠ .struct := by
      rw [hk, hkind]
      cases k <;> simp_all [Drain.kind]
    obtain ⟨m, hm, hclone⟩ := (h.entry he).cloned hdr hstruct
    rw [State.clones_rewriteNewSites, State.targets_rewriteNewSites he, hm]
    refine h.point he (Drain.field_of_functionDrain hd hk) hclone (.inr hm) fun j => ?_
    refine State.entryAt?_rewriteNewSites.trans ?_
    split
    case isTrue hij =>
      rw [← hij, he, Option.map_some, ← hm, ← hdr]
    case isFalse => rfl
  | function d hd e he ht =>
    obtain ⟨hk, hdr, -⟩ := FunctionDrain.takes_iff.mp ht
    have hmeets : meets isFresh (st.collector.setCurrentParent (some e.index))
        (p.functionClone i).events = true := by
      simpa [Drain.recordsFresh, hd, he, ht] using hf
    have hchecked : Linked st.clones st.targets (st.checkClone p i e) :=
      have hstart : Linked st.clones st.targets (st.collector.setCurrentParent (some e.index)) :=
        ⟨h.entry, h.apart⟩
      ⟨(hstart.replay hmeets).entry, (hstart.replay hmeets).apart⟩
    obtain ⟨e₁, he₁, hl⟩ := exists_later_checkClone (p := p) (i := i) (e := e) he
    have hfield : d.field e₁.request.declKey = e₁.request.field :=
      Drain.field_of_functionDrain hd (hl.kind.trans hk)
    have hzero := (hchecked.entry he₁).fresh (hl.drained.trans hdr)
    rw [State.clones_adoptFunction, State.targets_adoptFunction he₁]
    refine (hchecked.append [i]).point he₁ hfield (by simp) (.inl hzero) fun j => ?_
    refine State.entryAt?_adoptFunction.trans ?_
    split
    case isTrue hij => rw [← hij, he₁, Option.map_some]
    case isFalse => rfl
  | struct hk e he hs' hdr =>
    have hreplay := h.replay (meets_isFresh_fieldEvents p i e st.collector)
    obtain ⟨e₁, he₁, hl⟩ := InstantiationCollector.later_replay (State.fieldEvents p i e) he
    refine (hreplay.append [i]).markStruct he₁ (hl.kind.trans hs') fun j => ?_
    refine State.entryAt?_adoptStruct.trans ?_
    split
    case isTrue hij => rw [← hij, he₁, Option.map_some]
    case isFalse => rfl

theorem rooted_checkClone (h : st.collector.Rooted n) (e : InstantiationEntry) :
    (st.checkClone p i e).Rooted n := by
  have hstart : (st.collector.setCurrentParent (some e.index)).Rooted n := ⟨h.le, h.parent⟩
  have hreplay : ∀ (evs : List Event) (c : InstantiationCollector), c.Rooted n →
      c.currentParent = some e.index → (c.replay evs).Rooted n := by
    intro evs
    induction evs with
    | nil => exact fun _ hc _ => hc
    | cons ev evs ih =>
      intro c hc hp
      exact ih _ (hc.apply_of_parent hp ev)
        ((InstantiationCollector.currentParent_apply ev).trans hp)
  exact ⟨(hreplay _ _ hstart rfl).le, (hreplay _ _ hstart rfl).parent⟩

theorem Rooted.step (h : st.collector.Rooted n) (hf : k.fieldsAsked p n st i = true)
    (ho : k.Outcome p st i st' b) : st'.collector.Rooted n := by
  cases ho with
  | idle => exact h
  | rewrite d hd e he => exact sameRequests_rewriteNewSites.rooted h
  | function d hd e he => exact sameRequests_adoptFunction.rooted (rooted_checkClone h e)
  | struct hk e he hs hdr =>
    have hmeets : meets (asksOrdinary n) st.collector (State.fieldEvents p i e) = true := by
      simpa [Drain.fieldsAsked, hk, he, hs, hdr] using hf
    refine sameRequests_adoptStruct.rooted ?_
    exact InstantiationCollector.replay_keeps (fun _ _ hc hev => hc.apply_of_asksOrdinary hev) h
      hmeets

/-! ### The loop -/

/-- The clones that may still be made. -/
def budget (st : State) : ℕ := kMaxTotalInstantiations - st.clones.length

/-- An entry all of whose sites have been looked at. -/
def InstantiationEntry.rewritten (e : InstantiationEntry) : InstantiationEntry :=
  { e with sitesRewritten := e.sites.length }

/-- Nothing changed but that entries had their sites rewritten. -/
structure Quiet (st st' : State) : Prop where
  clones : st'.clones = st.clones
  size : st'.size = st.size
  entry : ∀ j, st'.entryAt? j = st.entryAt? j ∨
    st'.entryAt? j = (st.entryAt? j).map InstantiationEntry.rewritten

theorem Quiet.refl (st : State) : Quiet st st := ⟨rfl, rfl, fun _ => .inl rfl⟩

theorem Quiet.trans {st₁ st₂ st₃ : State} (h : Quiet st₁ st₂) (h' : Quiet st₂ st₃) :
    Quiet st₁ st₃ where
  clones := h'.clones.trans h.clones
  size := h'.size.trans h.size
  entry j := by
    obtain h₁ | h₁ := h.entry j <;> obtain h₂ | h₂ := h'.entry j
    · exact .inl (h₂.trans h₁)
    · exact .inr (h₂.trans (h₁ ▸ rfl))
    · exact .inr (h₂.trans h₁)
    · refine .inr ?_
      rw [h₂, h₁, Option.map_map]
      rfl

theorem quiet_rewriteNewSites {d : FunctionDrain} : Quiet st (st.rewriteNewSites d i) where
  clones := State.clones_rewriteNewSites
  size := State.size_rewriteNewSites
  entry j := by
    rw [State.entryAt?_rewriteNewSites]
    split
    · exact .inr rfl
    · exact .inl rfl

/-- A drain has nothing more to do with an entry. -/
def Done (p : Program) (k : Drain) (st : State) (i : ℕ) : Prop :=
  ∀ e, st.entryAt? i = some e →
    k.Idle p e ∨ e.request.kind = k.kind ∧ e.drained = true ∧ e.sitesRewritten = e.sites.length

theorem Drain.Idle.rewritten {e : InstantiationEntry} (h : k.Idle p e) :
    k.Idle p e.rewritten := by
  cases h with
  | kind h => exact .kind h
  | drained h hs => exact .drained h hs
  | skipped h hs => exact .skipped h hs
  | left h d hd t ht hv => exact .left h d hd t ht hv

theorem Done.of_quiet (hq : Quiet st st') (h : Done p k st i) : Done p k st' i := by
  intro e' he'
  obtain heq | heq := hq.entry i
  · exact h e' (heq.symm.trans he')
  · rw [he'] at heq
    obtain ⟨e, he, rfl⟩ := Option.map_eq_some_iff.mp heq.symm
    exact (h e he).imp Drain.Idle.rewritten fun hdone => ⟨hdone.1, hdone.2.1, rfl⟩

theorem length_le_of_exceeds (h : exceedsInstantiationLimit p st.collector i = none) :
    st.size ≤ kMaxTotalInstantiations := by
  unfold exceedsInstantiationLimit at h
  cases hc : st.collector.chainTo i with
  | none => simp [hc] at h
  | some chain =>
    simp only [hc] at h
    split at h
    · simp at h
    · rename_i hle
      exact le_of_not_gt fun hgt => hle (.inr hgt)

theorem budget_lt {e : InstantiationEntry} (hs : Sound st) (he : st.entryAt? i = some e)
    (hd : e.drained = false) (hx : exceedsInstantiationLimit p st.collector i = none)
    (hclones : st'.clones = st.clones ++ [i]) : budget st' < budget st := by
  have hi : i < st.size := (List.getElem?_eq_some_iff.mp he).choose
  have hnodup : (i :: st.clones).Nodup :=
    List.nodup_cons.mpr ⟨hs.not_mem_clones he hd, hs.nodup⟩
  have hsub : i :: st.clones ⊆ List.range st.size := by
    intro j hj
    obtain rfl | hj := List.mem_cons.mp hj
    · exact List.mem_range.mpr hi
    · exact List.mem_range.mpr (hs.lt_size hj)
  have hlen : st.clones.length + 1 ≤ st.size := by
    simpa using (hnodup.subperm hsub).length_le
  have hle := length_le_of_exceeds hx
  unfold budget
  rw [hclones, List.length_append, List.length_singleton]
  omega

theorem tame (p : Program) :
    Sweep.Tame State.size (Drain.step p) Sound budget Quiet (Done p) where
  inv _ _ _ _ _ hs h := hs.step (Drain.outcome_of_step h)
  work k st i st' hs hi h := by
    cases Drain.outcome_of_step h with
    | function d hd e he ht hx =>
      exact budget_lt hs he (FunctionDrain.takes_iff.mp ht).2.1 hx State.clones_adoptFunction
    | struct hk e he _ hd _ hx => exact budget_lt hs he hd hx rfl
  quiet k st i st' hs hi h := by
    cases Drain.outcome_of_step h with
    | idle hidle => exact ⟨.refl st, fun e he => .inl (hidle e he)⟩
    | rewrite d hd e he hk hdr =>
      refine ⟨quiet_rewriteNewSites, fun e' he' => .inr ?_⟩
      rw [State.entryAt?_rewriteNewSites, if_pos rfl, he] at he'
      obtain rfl := Option.some.inj he'
      exact ⟨hk.trans (Drain.kind_of_functionDrain hd).1, hdr, rfl⟩
  refl := Quiet.refl
  trans _ _ _ h h' := h.trans h'
  size_eq _ _ h := h.size
  budget_eq _ _ h := by rw [budget, budget, h.clones]
  done _ _ _ _ hq h := h.of_quiet hq

/-! ### The start -/

theorem sound_start (p : Program) : Sound p.start where
  ordered := InstantiationCollector.ordered_empty.replay p.ordinary
  current := InstantiationCollector.currentParent_replay p.ordinary
  mem_clones j := by
    refine iff_of_false (by simp [Program.start]) fun h => ?_
    obtain ⟨e, he, -⟩ := (drained_replay (c := {}) p.ordinary j).mp h
    simp at he
  nodup := List.nodup_nil

theorem linked_start (h : meets isFresh {} p.ordinary = true) :
    Linked p.start.clones p.start.targets p.start.collector :=
  Linked.replay ⟨by simp, by simp⟩ h

theorem rooted_start (p : Program) : p.start.collector.Rooted p.start.size :=
  InstantiationCollector.rooted_replay_ordinary p.ordinary rfl ⟨le_rfl, by simp⟩

/-! ### The end -/

/-- The chain a diagnostic prints. -/
def DrainError.chain? : DrainError → Option (List ℕ)
  | .instantiationDepth _ chain _ | .inThisInstantiation _ chain => some chain
  | _ => none

/-- A chain whose first request is among the first `n`. -/
def StartsBefore (n : ℕ) (chain : List ℕ) : Prop := ∃ h, chain.head? = some h ∧ h < n

/-- Every chain ends, and starts with one of the first `n` requests. -/
def ChainsOrdinary (n : ℕ) (c : InstantiationCollector) : Prop :=
  ∀ i < c.entries.length, ∃ chain, c.chainTo i = some chain ∧ c.IsChainTo chain i ∧
    StartsBefore n chain

/-- Every entry has been cloned once, and every site that asked for a function holds the clone
of its entry. -/
structure Complete (st : State) : Prop where
  cloned : ∀ i < st.size, st.clones.count i = 1
  known : ∀ i ∈ st.clones, i < st.size
  sites : ∀ i e, st.entryAt? i = some e → e.request.kind ≠ .struct → ∀ s ∈ e.sites,
    ∃ f m, e.request.field s.kind = some f ∧ st.targets s f = some m ∧ st.clones[m]? = some i

theorem chainsOrdinary_of_rooted {c : InstantiationCollector} (ho : c.Ordered)
    (hr : c.Rooted n) : ChainsOrdinary n c := by
  intro i hi
  obtain ⟨chain, hchain, hto⟩ := ho.exists_chainTo (List.getElem?_eq_getElem hi)
  obtain ⟨h, e, hh, he, hp⟩ := hto.head
  exact ⟨chain, hchain, hto, h, hh, (hr.parent he).mp hp⟩

theorem startsBefore_of_failure {err : DrainError} (hs : Sound st)
    (hr : st.collector.Rooted n) (h : Drain.Failure p st i err) :
    err ≠ .endlessChain ∧ ∀ chain, err.chain? = some chain → StartsBefore n chain := by
  have hstart : ∀ {c : InstantiationCollector} {chain : List ℕ}, c.Ordered → c.Rooted n →
      c.chainTo i = some chain → StartsBefore n chain := by
    intro c chain hco hcr hc
    have hi : i < c.entries.length := by
      by_contra hi
      simp [InstantiationCollector.chainTo, List.getElem?_eq_none (not_lt.mp hi)] at hc
    obtain ⟨chain', hc', -, hstart⟩ := chainsOrdinary_of_rooted hco hcr i hi
    exact Option.some.inj (hc'.symm.trans hc) ▸ hstart
  have hends : ∀ {c : InstantiationCollector} {e : InstantiationEntry}, c.Ordered →
      c.entries[i]? = some e → c.chainTo i ≠ none := by
    intro c e hco he hc
    obtain ⟨chain, hc', -⟩ := hco.exists_chainTo he
    simp [hc'] at hc
  cases h with
  | plain err h hc hc' =>
    refine ⟨h, fun chain hchain => ?_⟩
    cases err with
    | instantiationDepth site chain total => exact absurd rfl (hc site chain total)
    | inThisInstantiation site chain => exact absurd rfl (hc' site chain)
    | _ => simp [DrainError.chain?] at hchain
  | limit site chain total h =>
    refine ⟨by simp, fun chain' hchain => ?_⟩
    obtain rfl : chain = chain' := by simpa [DrainError.chain?] using hchain
    exact hstart hs.ordered hr h
  | check e he site chain h =>
    refine ⟨by simp, fun chain' hchain => ?_⟩
    obtain rfl : chain = chain' := by simpa [DrainError.chain?] using hchain
    exact hstart (hs.ordered_checkClone he) (rooted_checkClone hr e) h
  | endless h e he => exact absurd h (hends hs.ordered he)
  | endlessCheck e he h =>
    obtain ⟨e', he', -⟩ := exists_later_checkClone (p := p) (i := i) (e := e) he
    exact absurd h (hends (hs.ordered_checkClone he) he')

/-- No template is left alone by both drains of free-function requests, or by the drain of
methods. -/
theorem exists_drain_of_kind (p : Program) (e : InstantiationEntry) (hd : e.drained = false)
    (hs : e.sites ≠ []) : ∃ k ∈ drainOrder, ¬k.Idle p e := by
  -- an idle drain of the right kind has left the template alone
  have hleft : ∀ k : Drain, e.request.kind = k.kind → k.Idle p e →
      ∃ d t, k.functionDrain? = some d ∧ p.templateOf e.request = some t ∧
        d.verdict t = .leave := by
    intro k hk h
    cases h with
    | kind h => exact absurd hk h
    | drained h => simp [hd] at h
    | skipped _ h => exact absurd h hs
    | left _ d hd t ht hv => exact ⟨d, t, hd, ht, hv⟩
  cases hk : e.request.kind with
  | struct =>
    refine ⟨.structs, by simp [drainOrder], fun h => ?_⟩
    obtain ⟨d, t, hd, -⟩ := hleft .structs hk h
    simp [Drain.functionDrain?] at hd
  | method =>
    refine ⟨.methods, by simp [drainOrder], fun h => ?_⟩
    obtain ⟨d, t, hd, -, hv⟩ := hleft .methods hk h
    obtain rfl : drainMethodRequests = d := by simpa [Drain.functionDrain?] using hd
    simp only [drainMethodRequests] at hv
    split at hv <;> simp at hv
  | freeFunction =>
    by_contra hall
    push Not at hall
    obtain ⟨d, t, hd, ht, hv⟩ := hleft .freeFunctions hk (hall .freeFunctions (by simp [drainOrder]))
    obtain ⟨d', t', hd', ht', hv'⟩ := hleft .constructors hk (hall .constructors (by simp [drainOrder]))
    obtain rfl : drainFreeFunctionRequests = d := by simpa [Drain.functionDrain?] using hd
    obtain rfl : drainConstructorRequests = d' := by simpa [Drain.functionDrain?] using hd'
    obtain rfl : t = t' := by simpa [ht] using ht'
    simp only [drainFreeFunctionRequests, drainConstructorRequests] at hv hv'
    cases hself : t.hasSelf <;> cases hop : t.isOperator <;> simp [hself, hop] at hv hv'

theorem exists_kind (kind : InstantiationKind) : ∃ k ∈ drainOrder, k.kind = kind := by
  cases kind with
  | freeFunction => exact ⟨.freeFunctions, by simp [drainOrder], rfl⟩
  | method => exact ⟨.methods, by simp [drainOrder], rfl⟩
  | struct => exact ⟨.structs, by simp [drainOrder], rfl⟩

theorem sites_ne_nil_of_not_skips {e : InstantiationEntry} (hq : Quiet st st')
    (h : k.skips st i = false) (he : st'.entryAt? i = some e) (hk : k.kind = e.request.kind)
    (hd : e.drained = false) : e.sites ≠ [] := by
  intro hs
  have hview : ∃ e₁, st.entryAt? i = some e₁ ∧ e₁.request = e.request ∧ e₁.drained = e.drained ∧
      e₁.sites = e.sites := by
    obtain heq | heq := hq.entry i
    · exact ⟨e, heq.symm.trans he, rfl, rfl, rfl⟩
    · rw [he] at heq
      obtain ⟨e₁, he₁, rfl⟩ := Option.map_eq_some_iff.mp heq.symm
      exact ⟨e₁, he₁, rfl, rfl, rfl⟩
  obtain ⟨e₁, he₁, hr, hd₁, hs₁⟩ := hview
  simp [Drain.skips, he₁, hr, hd₁, hs₁, hk, hd, hs] at h

/-- When the loop ends and no drain has passed over an entry without sites, every entry is
drained and has had its sites rewritten. -/
theorem drained_of_end {fuel : ℕ} (hend : p.drainAll fuel = some (.ok st))
    (hskip : ∀ c ∈ p.drainCalls fuel, c.1.skips c.2.1 c.2.2 = false) {e : InstantiationEntry}
    (he : st.entryAt? i = some e) :
    e.drained = true ∧ (e.request.kind ≠ .struct → e.clonedSymbol ≠ none →
      e.sitesRewritten = e.sites.length) := by
  obtain ⟨-, hdone⟩ := (tame p).rounds_spec (sound_start p) hend
  have hi : i < st.size := (List.getElem?_eq_some_iff.mp he).choose
  have hdrained : e.drained = true := by
    by_contra hd
    rw [Bool.not_eq_true] at hd
    obtain ⟨k, hk, hkind⟩ := exists_kind e.request.kind
    obtain ⟨-, s₁, hcall, hq⟩ := hdone k hk i hi
    have hsites := sites_ne_nil_of_not_skips hq (hskip _ hcall) he hkind hd
    obtain ⟨k', hk', hidle⟩ := exists_drain_of_kind p e hd hsites
    obtain h | ⟨-, h, -⟩ := (hdone k' hk' i hi).1 e he
    · exact hidle h
    · simp [hd] at h
  refine ⟨hdrained, fun hstruct hsym => ?_⟩
  obtain ⟨k, hk, hkind⟩ := exists_kind e.request.kind
  obtain h | ⟨-, -, h⟩ := (hdone k hk i hi).1 e he
  · cases h with
    | kind h => exact absurd hkind.symm h
    | drained _ hs =>
      obtain rfl | hs := hs
      · exact absurd hkind.symm hstruct
      · exact absurd hs hsym
    | skipped h => simp [hdrained] at h
    | left h => simp [hdrained] at h
  · exact h

theorem complete_of_end {fuel : ℕ} (hend : p.drainAll fuel = some (.ok st))
    (hskip : ∀ c ∈ p.drainCalls fuel, c.1.skips c.2.1 c.2.2 = false) (hs : Sound st)
    (hl : Linked st.clones st.targets st.collector) : Complete st where
  cloned i hi := by
    obtain ⟨hdrained, -⟩ := drained_of_end hend hskip (List.getElem?_eq_getElem hi)
    have hmem : i ∈ st.clones := (hs.mem_clones i).mpr ⟨_, List.getElem?_eq_getElem hi, hdrained⟩
    exact List.count_eq_one_of_mem hs.nodup hmem
  known i hi := hs.lt_size hi
  sites i e he hk s hmem := by
    obtain ⟨hdrained, hrewritten⟩ := drained_of_end hend hskip he
    obtain ⟨m, hm, hclone⟩ := (hl.entry he).cloned hdrained hk
    obtain ⟨f, hf⟩ := Option.isSome_iff_exists.mp ((hl.entry he).fields hk s hmem)
    have htaken : s ∈ e.sites.take e.sitesRewritten := by
      rwa [hrewritten hk (by simp [hm]), List.take_length]
    exact ⟨f, m, hf, ((hl.entry he).points s htaken f hf).trans hm, hclone⟩

/-! ### The drain loop -/

/-- Requests are recorded at new call sites, by ordinary code and by every clone the run checks. -/
def RecordsFresh (p : Program) (fuel : ℕ) : Prop :=
  meets isFresh {} p.ordinary = true ∧
    ∀ c ∈ p.drainCalls fuel, c.1.recordsFresh p c.2.1 c.2.2 = true

/-- No drain of the run passes over an entry without sites, and the generic types that the
fields of a struct clone name were asked for by ordinary code. -/
def StepsServed (p : Program) (fuel : ℕ) : Prop :=
  ∀ c ∈ p.drainCalls fuel, c.1.skips c.2.1 c.2.2 = false ∧
    c.1.fieldsAsked p p.start.size c.2.1 c.2.2 = true

/-- What the loop is for: all chains, whenever they are asked for, end and start with a request
of ordinary code, and without an error the state it ends in is complete. -/
structure FixedPoint (p : Program) (fuel : ℕ) (r : Except DrainError State) : Prop where
  chains : ∀ c ∈ p.drainCalls fuel, ChainsOrdinary p.start.size c.2.1.collector
  complete : ∀ st, r = .ok st → Complete st ∧ ChainsOrdinary p.start.size st.collector
  error : ∀ err, r = .error err →
    err ≠ .endlessChain ∧ ∀ chain, err.chain? = some chain → StartsBefore p.start.size chain

/-- The drain loop ends for every program, and a run whose steps are served reaches the fixed
point. -/
theorem drainAll_fixedPoint (p : Program) :
    (∃ fuel r, p.drainAll fuel = some r) ∧
      ∀ fuel r, p.drainAll fuel = some r → RecordsFresh p fuel → StepsServed p fuel →
        FixedPoint p fuel r := by
  refine ⟨(tame p).exists_rounds drainOrder (sound_start p), fun fuel r hr hfresh hserved => ?_⟩
  have hconditions : ∀ c ∈ Sweep.roundsCalls State.size (Drain.step p) drainOrder fuel p.start,
      c.1.recordsFresh p c.2.1 c.2.2 = true ∧
        c.1.fieldsAsked p p.start.size c.2.1 c.2.2 = true :=
    fun c hc => ⟨hfresh.2 c hc, (hserved c hc).2⟩
  obtain ⟨hcalls, hend, herr⟩ := Sweep.rounds_keeps
    (P := fun st => Sound st ∧ Linked st.clones st.targets st.collector ∧
      st.collector.Rooted p.start.size)
    (Q := fun (k : Drain) st i => k.recordsFresh p st i = true ∧
      k.fieldsAsked p p.start.size st i = true)
    (fun k st i st' b h hq hstep =>
      have ho := Drain.outcome_of_step hstep
      ⟨h.1.step ho, h.2.1.step hq.1 ho, Rooted.step h.2.2 hq.2 ho⟩)
    ⟨sound_start p, linked_start hfresh.1, rooted_start p⟩ hconditions
  refine ⟨fun c hc => ?_, fun st hst => ?_, fun err herror => ?_⟩
  · obtain ⟨hs, -, hroot⟩ := hcalls c hc
    exact chainsOrdinary_of_rooted hs.ordered hroot
  · subst hst
    obtain ⟨hs, hl, hroot⟩ := hend st hr
    exact ⟨complete_of_end hr (fun c hc => (hserved c hc).1) hs hl,
      chainsOrdinary_of_rooted hs.ordered hroot⟩
  · subst herror
    obtain ⟨c, hc, hstep⟩ := herr err hr
    obtain ⟨hs, -, hroot⟩ := hcalls c hc
    exact startsBefore_of_failure hs hroot (Drain.failure_of_step hstep)

/-- A request for a declaration of the main file at one type argument. -/
def requestAtInt (kind : InstantiationKind) (declKey : String) (line : ℕ)
    (decl : Option DeclId) : InstantiationRequest where
  kind := kind
  declKey := declKey
  sourceModule := ""
  typeArgs := [.int]
  site := ⟨"main", line, 1⟩
  decl := decl

/-- A generic function whose body calls itself and the constructor of a generic struct. -/
def nestedProgram : Program where
  declaration d :=
    if d = 0 then { name := "f", typeParams := ["T"], params := ["x"] }
    else { name := "Box.new", typeParams := ["T"], params := ["self", "v"] }
  declRegistry _ := none
  structDeclRegistry _ := true
  isKnownType _ := true
  isLibStd _ := false
  ordinary :=
    [.record (requestAtInt .struct "Box" 1 none) ⟨0, .other⟩,
      .record (requestAtInt .freeFunction "f" 2 (some 0)) ⟨1, .funcCall⟩]
  functionClone i :=
    if i = 1 then
      { events :=
          [.record (requestAtInt .freeFunction "f" 3 (some 0)) ⟨2, .funcCall⟩,
            .record (requestAtInt .freeFunction "Box.new" 4 (some 1)) ⟨3, .funcCall⟩] }
    else {}
  structClone _ := {}

theorem fixedPoint_nestedProgram :
    ∃ r, nestedProgram.drainAll 8 = some r ∧ FixedPoint nestedProgram 8 r := by
  have hfresh : RecordsFresh nestedProgram 8 := by unfold RecordsFresh; decide +kernel
  have hserved : StepsServed nestedProgram 8 := by unfold StepsServed; decide +kernel
  obtain ⟨r, hr⟩ : ∃ r, nestedProgram.drainAll 8 = some r := ⟨_, rfl⟩
  exact ⟨r, hr, (drainAll_fixedPoint nestedProgram).2 8 r hr hfresh hserved⟩

/-- A constructor call that is recorded at the type of its argument and then, when the declared
type of the variable it initialises is known, at that one. -/
def retypedProgram : Program where
  declaration _ := { name := "Box.new", typeParams := ["T"], params := ["self", "v"] }
  declRegistry _ := none
  structDeclRegistry _ := true
  isKnownType _ := true
  isLibStd _ := false
  ordinary :=
    [.record (requestAtInt .freeFunction "Box.new" 1 (some 0)) ⟨0, .funcCall⟩,
      .forgetSite ⟨0, .funcCall⟩,
      .record { requestAtInt .freeFunction "Box.new" 1 (some 0) with typeArgs := [.double] }
        ⟨0, .funcCall⟩]
  functionClone _ := {}
  structClone _ := {}

/-- The request that was taken back is never cloned. -/
theorem not_fixedPoint_retypedProgram :
    ∃ r, retypedProgram.drainAll 8 = some r ∧ RecordsFresh retypedProgram 8 ∧
      ¬FixedPoint retypedProgram 8 r := by
  obtain ⟨st, hst, hsize, hclones⟩ : ∃ st, retypedProgram.drainAll 8 = some (.ok st) ∧
      st.size = 2 ∧ st.clones = [1] := ⟨_, rfl, rfl, rfl⟩
  refine ⟨_, hst, by unfold RecordsFresh; decide +kernel, fun h => ?_⟩
  have hcount := (h.complete st rfl).1.cloned 0 (by omega)
  simp [hclones] at hcount

/-- A generic struct with a field of another generic struct type. -/
def fieldProgram : Program where
  declaration _ := { name := "", typeParams := [], params := [] }
  declRegistry _ := none
  structDeclRegistry _ := true
  isKnownType _ := true
  isLibStd _ := false
  ordinary := [.record (requestAtInt .struct "Outer" 1 none) ⟨0, .other⟩]
  functionClone _ := {}
  structClone i := if i = 0 then { fields := [.generic "Box" [.int]] } else {}

/-- The request its field makes looks like one of ordinary code. -/
theorem not_fixedPoint_fieldProgram :
    ∃ r, fieldProgram.drainAll 8 = some r ∧ RecordsFresh fieldProgram 8 ∧
      ¬FixedPoint fieldProgram 8 r := by
  obtain ⟨st, hst, hsize, hchain⟩ : ∃ st, fieldProgram.drainAll 8 = some (.ok st) ∧
      st.collector.entries.length = 2 ∧ st.collector.chainTo 1 = some [1] := ⟨_, rfl, rfl, rfl⟩
  refine ⟨_, hst, by unfold RecordsFresh; decide +kernel, fun h => ?_⟩
  obtain ⟨chain, hc, -, a, ha, hlt⟩ := (h.complete st rfl).2 1 (by omega)
  rw [hchain] at hc
  obtain rfl : [1] = chain := Option.some.inj hc
  obtain rfl : 1 = a := by simpa using ha
  have hstart : fieldProgram.start.size = 1 := rfl
  omega

end TurfLang.Instantiate
