import TurfLang.Sema.InstantiateCache

/-!
# One step of a drain

Everything a drain can do with an entry, said once, and what each of its outcomes does to the
links between the entries, their clones and the targets written into their sites.
-/

namespace TurfLang.Instantiate

/-! ### What a drain does with an entry -/

/-- The kind of request a drain looks at. -/
def Drain.kind : Drain → InstantiationKind
  | .freeFunctions | .constructors => .freeFunction
  | .methods => .method
  | .structs => .struct

def Drain.functionDrain? : Drain → Option FunctionDrain
  | .freeFunctions => some drainFreeFunctionRequests
  | .methods => some drainMethodRequests
  | .constructors => some drainConstructorRequests
  | .structs => none

/-- A function drain clones the template of an entry. -/
def FunctionDrain.takes (p : Program) (d : FunctionDrain) (e : InstantiationEntry) : Bool :=
  e.request.kind = d.kind && !e.drained && !e.sites.isEmpty &&
    match p.templateOf e.request with
    | some t =>
      match d.verdict t with
      | .instantiate => true
      | _ => false
    | none => false

theorem FunctionDrain.takes_iff {p : Program} {d : FunctionDrain} {e : InstantiationEntry} :
    d.takes p e = true ↔ e.request.kind = d.kind ∧ e.drained = false ∧ e.sites ≠ [] ∧
      ∃ t, p.templateOf e.request = some t ∧ d.verdict t = .instantiate := by
  unfold takes
  cases p.templateOf e.request with
  | none => simp
  | some t => cases hv : d.verdict t <;> simp [hv, and_assoc]

/-- A drain leaves an entry of its kind alone because no site asks for it any more. -/
def Drain.skips (k : Drain) (st : State) (i : ℕ) : Bool :=
  match st.entryAt? i with
  | some e => e.request.kind = k.kind && !e.drained && e.sites.isEmpty
  | none => false

/-- Why a drain has nothing to do with an entry. -/
inductive Drain.Idle (p : Program) (k : Drain) (e : InstantiationEntry) : Prop
  | kind (h : e.request.kind ≠ k.kind)
  | drained (h : e.drained = true) (hs : k = .structs ∨ e.clonedSymbol = none)
  | skipped (h : e.drained = false) (hs : e.sites = [])
  | left (h : e.drained = false) (d : FunctionDrain) (hd : k.functionDrain? = some d)
      (t : Template) (ht : p.templateOf e.request = some t) (hv : d.verdict t = .leave)

/-- The outcomes of a drain's step. -/
inductive Drain.Outcome (p : Program) (k : Drain) (st : State) (i : ℕ) : State → Bool → Prop
  | idle (h : ∀ e, st.entryAt? i = some e → k.Idle p e) : k.Outcome p st i st false
  | rewrite (d : FunctionDrain) (hd : k.functionDrain? = some d) (e : InstantiationEntry)
      (he : st.entryAt? i = some e) (hk : e.request.kind = d.kind) (h : e.drained = true) :
      k.Outcome p st i (st.rewriteNewSites d i) false
  | function (d : FunctionDrain) (hd : k.functionDrain? = some d) (e : InstantiationEntry)
      (he : st.entryAt? i = some e) (ht : d.takes p e = true)
      (hx : exceedsInstantiationLimit p st.collector i = none) :
      k.Outcome p st i (st.adoptFunction d i (st.checkClone p i e)) true
  | struct (hk : k = .structs) (e : InstantiationEntry) (he : st.entryAt? i = some e)
      (hs : e.request.kind = .struct) (h : e.drained = false) (hne : e.sites ≠ [])
      (hx : exceedsInstantiationLimit p st.collector i = none) :
      k.Outcome p st i
        (st.adoptStruct i (st.collector.replay (State.fieldEvents p i e))) true

/-- An error with a chain has the chain of the entry, before or after its clone was checked. -/
inductive Drain.Failure (p : Program) (st : State) (i : ℕ) : DrainError → Prop
  | plain (err : DrainError) (h : err ≠ .endlessChain)
      (hc : ∀ site chain total, err ≠ .instantiationDepth site chain total)
      (hc' : ∀ site chain, err ≠ .inThisInstantiation site chain) : Failure p st i err
  | limit (site : SourceLocation) (chain : List ℕ) (total : ℕ)
      (h : st.collector.chainTo i = some chain) :
      Failure p st i (.instantiationDepth site chain total)
  | check (e : InstantiationEntry) (he : st.entryAt? i = some e) (site : SourceLocation)
      (chain : List ℕ) (h : (st.checkClone p i e).chainTo i = some chain) :
      Failure p st i (.inThisInstantiation site chain)
  | endless (h : st.collector.chainTo i = none) (e : InstantiationEntry)
      (he : st.entryAt? i = some e) : Failure p st i .endlessChain
  | endlessCheck (e : InstantiationEntry) (he : st.entryAt? i = some e)
      (h : (st.checkClone p i e).chainTo i = none) : Failure p st i .endlessChain

theorem failure_of_exceeds {p : Program} {st : State} {i : ℕ} {err : DrainError}
    {e : InstantiationEntry} (he : st.entryAt? i = some e)
    (h : exceedsInstantiationLimit p st.collector i = some err) : Drain.Failure p st i err := by
  unfold exceedsInstantiationLimit at h
  cases hc : st.collector.chainTo i with
  | none =>
    obtain rfl : DrainError.endlessChain = err := by simpa [hc] using h
    exact .endless hc e he
  | some chain =>
    simp only [hc] at h
    split at h
    · obtain rfl := Option.some.inj h
      exact .limit _ chain _ hc
    · simp at h

/-- What a drain's step comes to. -/
def Drain.Result (p : Program) (k : Drain) (st : State) (i : ℕ) :
    Except DrainError (State × Bool) → Prop
  | .ok (st', b) => k.Outcome p st i st' b
  | .error err => Drain.Failure p st i err

theorem functionStep_result (p : Program) {k : Drain} {d : FunctionDrain}
    (hd : k.functionDrain? = some d) (hk : k.kind = d.kind) (st : State) (i : ℕ) :
    k.Result p st i (st.functionStep p d i) := by
  unfold State.functionStep
  cases he : st.entryAt? i with
  | none => exact .idle (by simp [he])
  | some e =>
    have hidle : k.Idle p e → k.Outcome p st i st false := fun h =>
      .idle fun e' he' => Option.some.inj (he.symm.trans he') ▸ h
    simp only
    split_ifs with hkind hdr hsym hsites
    · exact hidle (.kind (hk ▸ hkind))
    · exact .rewrite d hd e he (not_not.mp hkind) hdr
    · exact hidle (.drained hdr (.inr (by simpa using hsym)))
    · exact hidle (.skipped (by simpa using hdr) (by simpa using hsites))
    · have hplain : ∀ err : DrainError, err ≠ .endlessChain →
          (∀ site chain total, err ≠ .instantiationDepth site chain total) →
          (∀ site chain, err ≠ .inThisInstantiation site chain) →
          k.Result p st i (.error err) := fun err h h' h'' => .plain err h h' h''
      cases ht : p.templateOf e.request with
      | none => exact hplain _ (by simp) (by simp) (by simp)
      | some t =>
        simp only
        cases hv : d.verdict t with
        | leave => exact hidle (.left (by simpa using hdr) d hd t ht hv)
        | noSelfParameter => exact hplain _ (by simp) (by simp) (by simp)
        | instantiate =>
          simp only
          cases hx : exceedsInstantiationLimit p st.collector i with
          | some err => exact failure_of_exceeds he hx
          | none =>
            unfold State.finishInstantiation
            simp only
            split_ifs with hres hchk
            · refine .function d hd e he ?_ hx
              exact FunctionDrain.takes_iff.mpr
                ⟨not_not.mp hkind, by simpa using hdr, by simpa using hsites, t, ht, hv⟩
            · cases hc : (st.checkClone p i e).chainTo i with
              | none => exact .endlessCheck e he hc
              | some chain => exact .check e he _ chain hc
            · exact hplain _ (by simp) (by simp) (by simp)

theorem structStep_result (p : Program) (st : State) (i : ℕ) :
    Drain.structs.Result p st i (st.structStep p i) := by
  unfold State.structStep
  cases he : st.entryAt? i with
  | none => exact .idle (by simp [he])
  | some e =>
    have hidle : Drain.structs.Idle p e → Drain.structs.Outcome p st i st false := fun h =>
      .idle fun e' he' => Option.some.inj (he.symm.trans he') ▸ h
    have hplain : ∀ err : DrainError, err ≠ .endlessChain →
        (∀ site chain total, err ≠ .instantiationDepth site chain total) →
        (∀ site chain, err ≠ .inThisInstantiation site chain) →
        Drain.structs.Result p st i (.error err) := fun err h h' h'' => .plain err h h' h''
    simp only
    split_ifs with hdr hkind hsites hreg hac hres
    · exact hidle (.drained hdr (.inl rfl))
    · exact hidle (.kind hkind)
    · exact hidle (.skipped (by simpa using hdr) (by simpa using hsites))
    · cases hx : exceedsInstantiationLimit p st.collector i with
      | some err => exact failure_of_exceeds he hx
      | none =>
        exact .struct rfl e he (not_not.mp hkind) (by simpa using hdr) (by simpa using hsites) hx
    · cases hx : exceedsInstantiationLimit p st.collector i with
      | some err => exact failure_of_exceeds he hx
      | none => exact hplain _ (by simp) (by simp) (by simp)
    · cases hx : exceedsInstantiationLimit p st.collector i with
      | some err => exact failure_of_exceeds he hx
      | none => exact hplain _ (by simp) (by simp) (by simp)
    · exact hplain _ (by simp) (by simp) (by simp)

theorem Drain.step_result (p : Program) (k : Drain) (st : State) (i : ℕ) :
    k.Result p st i (k.step p st i) := by
  cases k with
  | freeFunctions => exact functionStep_result p rfl rfl st i
  | methods => exact functionStep_result p rfl rfl st i
  | constructors => exact functionStep_result p rfl rfl st i
  | structs => exact structStep_result p st i

theorem Drain.outcome_of_step {p : Program} {k : Drain} {st st' : State} {i : ℕ} {b : Bool}
    (h : k.step p st i = .ok (st', b)) : k.Outcome p st i st' b := by
  simpa [Result, h] using k.step_result p st i

theorem Drain.failure_of_step {p : Program} {k : Drain} {st : State} {i : ℕ} {err : DrainError}
    (h : k.step p st i = .error err) : Drain.Failure p st i err := by
  simpa [Result, h] using k.step_result p st i

theorem Drain.kind_of_functionDrain {k : Drain} {d : FunctionDrain}
    (h : k.functionDrain? = some d) : d.kind = k.kind ∧ k ≠ .structs := by
  cases k <;> simp only [functionDrain?, Option.some.injEq, reduceCtorEq] at h <;> subst h <;>
    exact ⟨rfl, by simp⟩

/-- The rewrite of a function drain writes the members its requests have. -/
theorem Drain.field_of_functionDrain {k : Drain} {d : FunctionDrain} {r : InstantiationRequest}
    (h : k.functionDrain? = some d) (hr : r.kind = d.kind) : d.field r.declKey = r.field := by
  unfold InstantiationRequest.field
  cases k <;> simp only [functionDrain?, Option.some.injEq, reduceCtorEq] at h <;> subst h <;>
    rw [hr] <;> rfl

/-! ### The entries after a step -/

namespace State

variable {st : State} {d : FunctionDrain} {i j : ℕ} {e : InstantiationEntry}
  {checked : InstantiationCollector}

/-- What a rewrite leaves in the members of sites. -/
theorem pointSites_apply (field : String → SiteKind → Option Field) (declKey : String)
    (clone : Option ℕ) (sites : List Site) (targets : Site → Field → Option ℕ) (s : Site)
    (f : Field) :
    pointSites field declKey clone sites targets s f =
      if s ∈ sites ∧ field declKey s.kind = some f then clone else targets s f := by
  induction sites generalizing targets with
  | nil => simp [pointSites]
  | cons t ts ih =>
    unfold pointSites at ih ⊢
    rw [List.foldl_cons, ih]
    obtain rfl | hst := eq_or_ne s t
    · cases hf : field declKey s.kind with
      | none => simp
      | some g =>
        obtain rfl | hfg := eq_or_ne f g
        · simp
        · simp [hfg, hfg.symm]
    · have hmem : s ∈ t :: ts ↔ s ∈ ts := by simp [hst]
      simp only [hmem]
      congr 1
      cases field declKey t.kind with
      | none => rfl
      | some g => simp [hst]

@[simp] theorem entryAt?_modifyEntry (g : InstantiationEntry → InstantiationEntry) :
    (st.modifyEntry i g).entryAt? j = if i = j then (st.entryAt? j).map g else st.entryAt? j := by
  unfold modifyEntry entryAt?
  rw [List.getElem?_modify]
  split <;> simp

@[simp] theorem size_modifyEntry (g : InstantiationEntry → InstantiationEntry) :
    (st.modifyEntry i g).size = st.size := by
  simp [modifyEntry, size]

/-- The entries after a rewrite. -/
theorem entryAt?_rewriteNewSites :
    (st.rewriteNewSites d i).entryAt? j =
      if i = j then (st.entryAt? j).map fun e => { e with sitesRewritten := e.sites.length }
      else st.entryAt? j := by
  unfold rewriteNewSites
  cases he : st.entryAt? i with
  | none =>
    obtain rfl | hij := eq_or_ne i j
    · simp [he]
    · simp [hij]
  | some e =>
    exact entryAt?_modifyEntry _

theorem size_rewriteNewSites : (st.rewriteNewSites d i).size = st.size := by
  unfold rewriteNewSites
  cases st.entryAt? i with
  | none => rfl
  | some e => exact size_modifyEntry _

theorem targets_rewriteNewSites (he : st.entryAt? i = some e) :
    (st.rewriteNewSites d i).targets =
      pointSites d.field e.request.declKey e.clonedSymbol (e.sites.drop e.sitesRewritten)
        st.targets := by
  simp [rewriteNewSites, he]

@[simp] theorem clones_rewriteNewSites : (st.rewriteNewSites d i).clones = st.clones := by
  unfold rewriteNewSites
  split <;> rfl

@[simp] theorem currentParent_rewriteNewSites :
    (st.rewriteNewSites d i).collector.currentParent = st.collector.currentParent := by
  unfold rewriteNewSites
  split <;> rfl

/-- The entries after a function clone was registered. -/
theorem entryAt?_adoptFunction :
    (st.adoptFunction d i checked).entryAt? j =
      if i = j then (checked.entries[j]?).map fun e =>
        { e with
          clonedSymbol := some st.clones.length, sitesRewritten := e.sites.length,
          drained := true }
      else checked.entries[j]? := by
  unfold adoptFunction
  simp only [entryAt?_modifyEntry, entryAt?_rewriteNewSites]
  split
  · rw [Option.map_map, Option.map_map]
    rfl
  · rfl

theorem size_adoptFunction : (st.adoptFunction d i checked).size = checked.entries.length := by
  unfold adoptFunction
  rw [size_modifyEntry, size_rewriteNewSites, size_modifyEntry]
  rfl

theorem targets_adoptFunction (he : checked.entries[i]? = some e) :
    (st.adoptFunction d i checked).targets =
      pointSites d.field e.request.declKey (some st.clones.length)
        (e.sites.drop e.sitesRewritten) st.targets := by
  unfold adoptFunction
  refine targets_rewriteNewSites (e := { e with clonedSymbol := some st.clones.length }) ?_
  rw [entryAt?_modifyEntry, if_pos rfl]
  exact congrArg (Option.map _) he

@[simp] theorem clones_adoptFunction :
    (st.adoptFunction d i checked).clones = st.clones ++ [i] := by
  unfold adoptFunction
  exact clones_rewriteNewSites

@[simp] theorem currentParent_adoptFunction :
    (st.adoptFunction d i checked).collector.currentParent = checked.currentParent := by
  unfold adoptFunction
  exact currentParent_rewriteNewSites

/-- The entries after a struct clone was registered. -/
theorem entryAt?_adoptStruct :
    (st.adoptStruct i checked).entryAt? j =
      if i = j then (checked.entries[j]?).map fun e => { e with drained := true }
      else checked.entries[j]? := by
  unfold adoptStruct
  exact entryAt?_modifyEntry _

theorem size_adoptStruct : (st.adoptStruct i checked).size = checked.entries.length := by
  unfold adoptStruct
  exact size_modifyEntry _

end State

end TurfLang.Instantiate
