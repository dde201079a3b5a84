import TurfLang.Analysis.CfgBuilderSane

/-!
# What each visit builds

For each kind of statement: which blocks it leaves behind, what is in them, and where they go.
-/

namespace TurfLang

open Ast

namespace CFGBuilder

variable {b b' b'' : CFGBuilder} {c i t : ℕ} {stmt : Expr} {v : Visit} {found : List Visit}
  {P : ℕ → Prop}

theorem bind_eq_ok {α β : Type} {x : Except FlowError α} {f : α → Except FlowError β} {r : β} :
    x >>= f = .ok r ↔ ∃ a, x = .ok a ∧ f a = .ok r := by
  cases x with
  | error e => exact ⟨nofun, fun ⟨_, h, _⟩ => nomatch h⟩
  | ok a => exact ⟨fun h => ⟨a, rfl, h⟩, fun ⟨_, h, h'⟩ => by cases h; exact h'⟩

theorem pure_eq_ok {α : Type} {a r : α} :
    (pure a : Except FlowError α) = .ok r ↔ a = r :=
  ⟨fun h => by cases h; rfl, fun h => h ▸ rfl⟩

/-! ### Visits -/

/-- The blocks that a visit leaves alone. -/
def Kept (b : CFGBuilder) (i : ℕ) : Prop := i < b.nextID ∧ b.currentBlock ≠ some i

/-- What can be said of every visit. -/
structure Visited (b b' : CFGBuilder) : Prop where
  sane : b'.Sane
  chain : Chain b.Kept b b'
  current : ∀ c, b'.currentBlock = some c → ¬ b.Kept c

/-- From a builder in order a visit leads to one. -/
def Sound (v : Visit) : Prop := ∀ ⦃b b'⦄, b.Sane → v b = .ok b' → Visited b b'

theorem not_kept_of_current (h : b.currentBlock = some c) : ¬ b.Kept c := fun hk => hk.2 h

theorem not_kept_of_le (h : b.nextID ≤ i) : ¬ b.Kept i := fun hk => by
  have := hk.1
  omega

theorem Visited.refl (h : b.Sane) : Visited b b :=
  ⟨h, .refl h.toWired, fun _ hc => not_kept_of_current hc⟩

theorem Visited.not_kept {i : ℕ} (h : Visited b b') (hi : ¬ b'.Kept i) : ¬ b.Kept i := by
  intro hk
  have hlt := Nat.lt_of_lt_of_le hk.1 h.chain.nextID_le
  by_cases hc : b'.currentBlock = some i
  · exact h.current i hc hk
  · exact hi ⟨hlt, hc⟩

theorem Visited.trans (h₁ : Visited b b') (h₂ : Visited b' b'') : Visited b b'' where
  sane := h₂.sane
  chain := h₁.chain.trans (h₂.chain.mono fun i hi => by
    by_contra hnot
    exact h₁.not_kept hnot hi)
  current c hc := h₁.not_kept (h₂.current c hc)

/-- A builder is put back in order where it stands at a block without edges. -/
theorem Chain.sane (h : Chain P b b')
    (hc : ∀ c, b'.currentBlock = some c → c < b'.nextID ∧ b'.succs c = [] ∧ b'.explicit c = false) :
    b'.Sane := { h.wired with current := hc }

theorem Chain.visited (h : Chain b.Kept b b') (hc : b'.currentBlock = some c) (hlt : c < b'.nextID)
    (hnil : b'.succs c = []) (hexp : b'.explicit c = false) (hk : ¬ b.Kept c) : Visited b b' where
  sane := h.sane fun _ hc' => by
    obtain rfl : c = _ := Option.some.inj (hc.symm.trans hc')
    exact ⟨hlt, hnil, hexp⟩
  chain := h
  current _ hc' := by
    obtain rfl : c = _ := Option.some.inj (hc.symm.trans hc')
    exact hk

/-- A visit from a block that may be changed. -/
theorem Chain.visit (h : Chain P b b') (hv : Visited b' b'') (hlt : ∀ i, P i → i < b.nextID)
    (hP : ∀ c, b'.currentBlock = some c → ¬ P c) : Chain P b b'' :=
  h.trans (hv.chain.mono fun i hi =>
    ⟨Nat.lt_of_lt_of_le (hlt i hi) h.nextID_le, fun hc => hP i hc hi⟩)

theorem Sane.linkTo (h : b.Sane) (t : ℕ) :
    b.linkTo t = (b.currentBlock.map fun c => b.addEdge c t).getD b := by
  rw [CFGBuilder.linkTo, h.openBlock]
  cases b.currentBlock <;> rfl

@[simp] theorem currentBlock_linkTo (t : ℕ) : (b.linkTo t).currentBlock = b.currentBlock := by
  rw [linkTo]
  split <;> rfl

@[simp] theorem nextID_linkTo (t : ℕ) : (b.linkTo t).nextID = b.nextID := by
  rw [linkTo]
  split
  · simp
  · rfl

@[simp] theorem items_linkTo (t : ℕ) : (b.linkTo t).items = b.items := by
  rw [linkTo]
  split
  · simp
  · rfl

@[simp] theorem explicit_linkTo (t : ℕ) : (b.linkTo t).explicit = b.explicit := by
  rw [linkTo]
  split
  · simp
  · rfl

@[simp] theorem deferScopes_linkTo (t : ℕ) : (b.linkTo t).deferScopes = b.deferScopes := by
  rw [linkTo]
  split <;> rfl

/-- The edge of `linkTo`. -/
theorem Sane.mem_succs_linkTo (h : b.Sane) (hc : b.currentBlock = some c) (t : ℕ) :
    t ∈ (b.linkTo t).succs c := by
  rw [h.linkTo, hc, Option.map_some, Option.getD_some, succs_addEdge (h.current c hc).1]
  simp

theorem Sane.succs_linkTo_of_ne (h : b.Sane) (hc : b.currentBlock ≠ some i) (t : ℕ) :
    (b.linkTo t).succs i = b.succs i := by
  rw [h.linkTo]
  cases hb : b.currentBlock with
  | none => rfl
  | some c =>
    refine succs_addEdge_of_ne ?_
    rintro rfl
    exact hc hb

theorem Chain.linkTo (h : Chain P b b') (hs : b'.Sane)
    (hP : ∀ c, b'.currentBlock = some c → ¬ P c) (ht : t < b'.nextID) :
    Chain P b (b'.linkTo t) := by
  rw [hs.linkTo]
  cases hc : b'.currentBlock with
  | none => exact h
  | some c => exact h.addEdge (hP c hc) (hs.current c hc).1 ht

theorem visitAt_eq_ok {visit : ℕ → Visit} :
    visitAt visit b = .ok b' ↔ ∃ c, b.openBlock = some c ∧ visit c b = .ok b' := by
  rw [visitAt]
  cases b.openBlock with
  | none => exact ⟨nofun, fun ⟨_, h, _⟩ => nomatch h⟩
  | some c => exact ⟨fun h => ⟨c, rfl, h⟩, fun ⟨_, h, h'⟩ => by cases h; exact h'⟩

/-- A visit starts at the current block. -/
theorem Sane.visitAt {visit : ℕ → Visit} (h : b.Sane) (hrun : visitAt visit b = .ok b') :
    ∃ c, b.currentBlock = some c ∧ visit c b = .ok b' := by
  obtain ⟨c, hc, hvisit⟩ := visitAt_eq_ok.mp hrun
  exact ⟨c, h.openBlock ▸ hc, hvisit⟩

theorem Visited.linkTo_le (h : Visited b b') (ht : t < b'.nextID) :
    b'.flow.Le (b'.linkTo t).flow :=
  ((Chain.refl (P := fun _ => False) h.sane.toWired).linkTo h.sane (fun _ _ => id) ht).grows.le

/-- A block that a visit leaves alone. -/
theorem Visited.ne_current (h : Visited b b') (hi : b.Kept i) : b'.currentBlock ≠ some i :=
  fun hc => h.current i hc hi

/-- The visit keeps the scopes of the deferred statements. -/
def Steady (v : Visit) : Prop :=
  ∀ ⦃b b'⦄, b.Sane → v b = .ok b' → b'.deferScopes = b.deferScopes

/-! ### The blocks of `recover run` -/

/-- What holds while the `run` blocks of a statement are built. -/
structure Branching (b : CFGBuilder) (pre : ℕ) (b' : CFGBuilder) : Prop where
  chain : Chain b.Kept b b'
  ok_lt : b.nextID < b'.nextID
  ok_succs : b'.succs b.nextID = []
  ok_explicit : b'.explicit b.nextID = false
  ok_items : b'.items b.nextID = []
  ok_mem : b.nextID ∈ b'.succs pre
  items : b'.items pre = b.items pre

/-- Where a `run` block starts, and where it goes if it comes to its end. -/
structure RunBlock (b : CFGBuilder) (pre : ℕ) (v : Visit) (b' b₁ b₂ : CFGBuilder) : Prop where
  sane : b₁.Sane
  chain : Chain b.Kept b b₁
  run : v b₁ = .ok b₂
  entry : ∃ r, b₁.currentBlock = some r ∧ r ∈ b'.succs pre ∧ b₁.items r = []
  le : b₂.flow.Le b'.flow
  back : ∀ c, b₂.currentBlock = some c → b.nextID ∈ b'.succs c ∧ b'.items c = b₂.items c

theorem RunBlock.mono {pre : ℕ} {b₁ b₂ b₃ b₄ : CFGBuilder} (h : RunBlock b pre v b₃ b₁ b₂)
    (hle : b₃.flow.Le b₄.flow) : RunBlock b pre v b₄ b₁ b₂ where
  sane := h.sane
  chain := h.chain
  run := h.run
  entry := by
    obtain ⟨r, hr, hmem, hnil⟩ := h.entry
    exact ⟨r, hr, hle.succs_subset pre hmem, hnil⟩
  le := h.le.trans hle
  back c hc := by
    obtain ⟨hmem, hitems⟩ := h.back c hc
    exact ⟨hle.succs_subset c hmem, (hle.items_eq c (List.ne_nil_of_mem hmem)).trans hitems⟩

section

variable {pre : ℕ}

theorem Branching.visitRunBlock (h : Branching b pre b') (hpre : b.currentBlock = some pre)
    (hb : b.Sane) (hv : Sound v) (hrun : visitRunBlock pre b.nextID b' v = .ok b'') :
    Branching b pre b'' ∧ b'.flow.Le b''.flow ∧ ∃ b₁ b₂, RunBlock b pre v b'' b₁ b₂ ∧
      b₁.deferScopes = b'.deferScopes ∧ b''.deferScopes = b₂.deferScopes := by
  obtain ⟨e, he, hend⟩ := bind_eq_ok.mp hrun
  obtain rfl := pure_eq_ok.mp hend
  have hprelt := (hb.current pre hpre).1
  have hok := h.ok_lt
  have hnext := h.chain.nextID_le
  set r := b'.nextID with hr
  set s := ((b'.createBlock "recover.run").addEdge pre r).setInsertPoint r with hs
  have hid : s.nextID = r + 1 := by simp [hs, CFGBuilder.setInsertPoint, nextID, addEdge,
    CFGBuilder.createBlock, modifyBlock, hr]
  have hsuccs : ∀ i, pre ≠ i → s.succs i = b'.succs i := fun i hi => by
    show ((b'.createBlock _).addEdge pre r).succs i = _
    rw [succs_addEdge_of_ne hi, succs_createBlock]
  have hitems : s.items = b'.items := by
    show ((b'.createBlock _).addEdge pre r).items = _
    rw [items_addEdge, items_createBlock]
  have hexp : s.explicit = b'.explicit := by
    show ((b'.createBlock _).addEdge pre r).explicit = _
    rw [explicit_addEdge, explicit_createBlock]
  have hlocal : Chain (fun i => i < r ∧ i ≠ pre) b' s :=
    (((Chain.refl h.chain.wired).createBlock _).addEdge (fun hP => hP.2 rfl)
      (by rw [nextID_createBlock]; omega) (by rw [nextID_createBlock]; omega)).setInsertPoint r
  have hold : ∀ i, b.Kept i → i < r ∧ i ≠ pre := fun i hi => by
    refine ⟨by have := hi.1; omega, ?_⟩
    rintro rfl
    exact hi.2 hpre
  have hchain : Chain b.Kept b s := h.chain.trans (hlocal.mono hold)
  have hsane : s.Sane := hchain.sane fun c hc => by
    obtain rfl : r = c := Option.some.inj hc
    refine ⟨by omega, ?_, ?_⟩
    · rw [hsuccs r (by omega), succs_of_le hr.le]
    · rw [hexp, explicit_of_le hr.le]
  have hvis := hv hsane he
  have hkept : ∀ i, i < r → s.Kept i := fun i hi => ⟨by omega, fun hc => by
    have := Option.some.inj hc
    omega⟩
  have hle := hvis.chain.nextID_le
  have hlink : Chain (fun i => i < r ∧ i ≠ pre) b' (e.linkTo b.nextID) :=
    (hlocal.visit hvis (fun _ hi => hi.1) fun c hc => by
      obtain rfl : r = c := Option.some.inj hc
      exact fun hP => by omega).linkTo hvis.sane
      (fun c hc hP => hvis.current c hc (hkept c hP.1)) (by omega)
  have hother : ∀ i, i < r → pre ≠ i → (e.linkTo b.nextID).succs i = b'.succs i :=
    fun i hi hne => by
    rw [hvis.sane.succs_linkTo_of_ne (hvis.ne_current (hkept i hi)),
      hvis.chain.grows.succs i (hkept i hi), hsuccs i hne]
  have hmem : ∀ j, j ∈ s.succs pre → j ∈ (e.linkTo b.nextID).succs pre := fun j hj => by
    rw [hvis.sane.succs_linkTo_of_ne (hvis.ne_current (hkept pre (by omega))),
      hvis.chain.grows.succs pre (hkept pre (by omega))]
    exact hj
  have hpresuccs : s.succs pre = b'.succs pre ++ [r] := by
    show ((b'.createBlock _).addEdge pre r).succs pre = _
    rw [succs_addEdge (by rw [nextID_createBlock]; omega), if_pos rfl, succs_createBlock]
  refine ⟨⟨h.chain.trans (hlink.mono hold), by simp; omega, ?_, ?_, ?_, ?_, ?_⟩, hlink.grows.le,
    s, e,
    ⟨hsane, hchain, he,
    ⟨r, rfl, hmem r (by simp [hpresuccs]), ?_⟩, hvis.linkTo_le (by omega), fun c hc => ?_⟩, rfl,
    deferScopes_linkTo _⟩
  · rw [hother _ hok (by omega), h.ok_succs]
  · rw [explicit_linkTo, hvis.chain.grows.explicit _ (hkept _ hok), hexp, h.ok_explicit]
  · rw [items_linkTo, hvis.chain.grows.items _ (hkept _ hok), hitems, h.ok_items]
  · exact hmem _ (by rw [hpresuccs]; exact List.mem_append_left _ h.ok_mem)
  · rw [items_linkTo, hvis.chain.grows.items _ (hkept _ (by omega)), hitems, h.items]
  · rw [hitems, items_of_le hr.le]
  · exact ⟨hvis.sane.mem_succs_linkTo hc _, by rw [items_linkTo]⟩

theorem Branching.foldlM (h : Branching b pre b') (hpre : b.currentBlock = some pre) (hb : b.Sane)
    (hfound : ∀ v ∈ found, Sound v)
    (hrun : found.foldlM (CFGBuilder.visitRunBlock pre b.nextID) b' = .ok b'') :
    Branching b pre b'' ∧ b'.flow.Le b''.flow ∧
      ((∀ v ∈ found, Steady v) → b''.deferScopes = b'.deferScopes) ∧
      ∀ v ∈ found, ∃ b₁ b₂, RunBlock b pre v b'' b₁ b₂ ∧
        ((∀ v ∈ found, Steady v) → b₁.deferScopes = b'.deferScopes) := by
  induction found generalizing b' with
  | nil =>
    obtain rfl := pure_eq_ok.mp hrun
    exact ⟨h, .refl _, fun _ => rfl, fun _ hv => by cases hv⟩
  | cons v found ih =>
    rw [List.foldlM_cons] at hrun
    obtain ⟨m, hm, hrun⟩ := bind_eq_ok.mp hrun
    obtain ⟨hmid, hle₁, b₁, b₂, hblock, hscopes₁, hscopes₂⟩ :=
      h.visitRunBlock hpre hb (hfound v List.mem_cons_self) hm
    obtain ⟨hend, hle, hscopes, hblocks⟩ :=
      ih hmid (fun w hw => hfound w (List.mem_cons_of_mem _ hw)) hrun
    have hsteady : (∀ w ∈ v :: found, Steady w) → m.deferScopes = b'.deferScopes := fun hst => by
      rw [hscopes₂, hst v List.mem_cons_self hblock.sane hblock.run, hscopes₁]
    have htail : (∀ w ∈ v :: found, Steady w) → ∀ w ∈ found, Steady w :=
      fun hst w hw => hst w (List.mem_cons_of_mem _ hw)
    refine ⟨hend, hle₁.trans hle, fun hst => (hscopes (htail hst)).trans (hsteady hst),
      fun w hw => ?_⟩
    · rcases List.mem_cons.mp hw with rfl | hw
      · exact ⟨b₁, b₂, hblock.mono hle, fun _ => hscopes₁⟩
      · obtain ⟨b₁, b₂, hw, hsc⟩ := hblocks w hw
        exact ⟨b₁, b₂, hw, fun hst => (hsc (htail hst)).trans (hsteady hst)⟩

/-- A way along an edge that was added behind the statements of a block. -/
theorem walk_edge_of_mem {G : FlowGraph Entry} (hle : b'.flow.Le G) (hmem : t ∈ b'.succs i)
    (hitems : b'.items i = b.items i) : G.Walk (b.flow.atEnd i) [] (t, 0) := by
  have hwalk : b'.flow.Walk (b'.flow.atEnd i) [] (t, 0) := FlowGraph.walk_edge hmem
  rw [show b.flow.atEnd i = b'.flow.atEnd i by
    simp only [FlowGraph.atEnd, flow, hitems]]
  exact hwalk.mono hle

/-- Before the `run` blocks are built, their way out is. -/
theorem Sane.branching (hb : b.Sane) (hpre : b.currentBlock = some pre) :
    Branching b pre ((b.createBlock "recover.ok").addEdge pre b.nextID) := by
  have hprelt := (hb.current pre hpre).1
  have hsuccs : ∀ i, ((b.createBlock "recover.ok").addEdge pre b.nextID).succs i =
      if pre = i then b.succs i ++ [b.nextID] else b.succs i := fun i => by
    rw [succs_addEdge (by rw [nextID_createBlock]; omega), succs_createBlock]
  refine ⟨((Chain.refl hb.toWired).createBlock _).addEdge (not_kept_of_current hpre)
    (by rw [nextID_createBlock]; omega) (by rw [nextID_createBlock]; omega), by simp, ?_, ?_, ?_,
    ?_, by simp⟩
  · rw [hsuccs, if_neg (by omega), succs_of_le le_rfl]
  · simp [explicit_of_le]
  · simp [items_of_le]
  · rw [hsuccs, if_pos rfl]
    simp

theorem branchToRecoverBlocks_nil {pre : ℕ} : branchToRecoverBlocks [] pre b = .ok b := rfl

theorem branchToRecoverBlocks_cons (hpre : b.currentBlock = some pre) (hb : b.Sane)
    (hne : found ≠ []) (hfound : ∀ v ∈ found, Sound v)
    (hrun : branchToRecoverBlocks found pre b = .ok b') :
    Visited b b' ∧ b'.currentBlock = some b.nextID ∧ b'.items b.nextID = [] ∧
      b.nextID ∈ b'.succs pre ∧ b'.items pre = b.items pre ∧
      ((∀ v ∈ found, Steady v) → b'.deferScopes = b.deferScopes) ∧
      ∀ v ∈ found, ∃ b₁ b₂, RunBlock b pre v b' b₁ b₂ ∧
        ((∀ v ∈ found, Steady v) → b₁.deferScopes = b.deferScopes) := by
  have hprelt := (hb.current pre hpre).1
  rw [branchToRecoverBlocks, if_neg (by simpa using hne)] at hrun
  obtain ⟨e, he, hend⟩ := bind_eq_ok.mp hrun
  obtain rfl := pure_eq_ok.mp hend
  obtain ⟨h, hle, hscopes, hblocks⟩ := (hb.branching hpre).foldlM hpre hb hfound he
  have hchain := (h.chain.setTerminator (not_kept_of_current hpre) .unconditional).setInsertPoint
    b.nextID
  have hlast : e.flow.Le ((e.setTerminator pre .unconditional).setInsertPoint b.nextID).flow :=
    (((Chain.refl (P := fun _ => False) h.chain.wired).setTerminator id
      .unconditional).setInsertPoint b.nextID).grows.le
  refine ⟨hchain.visited rfl ?_ ?_ ?_ (not_kept_of_le le_rfl), rfl, ?_, ?_, ?_, hscopes,
    fun v hv => ?_⟩
  · show b.nextID < (e.setTerminator pre .unconditional).nextID
    rw [nextID_setTerminator]
    exact h.ok_lt
  · show (e.setTerminator pre .unconditional).succs b.nextID = []
    rw [succs_setTerminator, h.ok_succs]
  · show (e.setTerminator pre .unconditional).explicit b.nextID = false
    rw [explicit_setTerminator_of_ne (by omega), h.ok_explicit]
  · show (e.setTerminator pre .unconditional).items b.nextID = []
    rw [items_setTerminator, h.ok_items]
  · show b.nextID ∈ (e.setTerminator pre .unconditional).succs pre
    rw [succs_setTerminator]
    exact h.ok_mem
  · show (e.setTerminator pre .unconditional).items pre = b.items pre
    rw [items_setTerminator, h.items]
  · obtain ⟨b₁, b₂, hrun, hsc⟩ := hblocks v hv
    exact ⟨b₁, b₂, hrun.mono hlast, hsc⟩

/-- After the `run` blocks the builder stands at a block. -/
theorem visited_branchToRecoverBlocks (hpre : b.currentBlock = some pre) (hb : b.Sane)
    (hfound : ∀ v ∈ found, Sound v) (hrun : branchToRecoverBlocks found pre b = .ok b') :
    Visited b b' ∧ (∃ c, b'.currentBlock = some c) ∧
      ((∀ v ∈ found, Steady v) → b'.deferScopes = b.deferScopes) := by
  by_cases hne : found = []
  · subst hne
    rw [branchToRecoverBlocks_nil, Except.ok.injEq] at hrun
    subst hrun
    exact ⟨.refl hb, ⟨pre, hpre⟩, fun _ => rfl⟩
  · obtain ⟨h, hc, -, -, -, hsc, -⟩ := branchToRecoverBlocks_cons hpre hb hne hfound hrun
    exact ⟨h, ⟨_, hc⟩, hsc⟩

end

/-! ### Statements and jumps -/

theorem atCurrent_of_current {f : ℕ → CFGBuilder → CFGBuilder} (h : b.currentBlock = some c) :
    b.atCurrent f = f c b := by
  rw [atCurrent, h]

theorem emitDeferredRuns_of_current (h : b.currentBlock = some c) (depth : ℕ) :
    b.emitDeferredRuns depth = b.modifyBlock c (·.addDeferredRuns (b.deferredRuns depth)) := by
  rw [emitDeferredRuns, h]

theorem terminate_of_current (h : b.currentBlock = some c) (kind : TerminatorKind) (t : ℕ) :
    b.terminate kind t = { (b.setTerminator c kind).addEdge c t with currentBlock := none } := by
  rw [terminate, atCurrent_of_current h]

/-- A statement behind those of the current block. -/
theorem Visited.addStatement (h : Visited b b') (hc : b'.currentBlock = some c) (stmt : Expr) :
    Visited b (b'.addStatement c stmt) := by
  obtain ⟨hlt, hnil, hexp⟩ := h.sane.current c hc
  exact (h.chain.addStatement (h.current c hc) hnil stmt).visited hc (by simpa using hlt)
    (by simpa using hnil) (by simpa using hexp) (h.current c hc)

theorem Visited.addDeferredRuns (h : Visited b b') (hc : b'.currentBlock = some c)
    (stmts : List Expr) : Visited b (b'.modifyBlock c (·.addDeferredRuns stmts)) := by
  obtain ⟨hlt, hnil, hexp⟩ := h.sane.current c hc
  exact (h.chain.addDeferredRuns (h.current c hc) hnil stmts).visited hc (by simpa using hlt)
    (by simpa using hnil) (by simpa using hexp) (h.current c hc)

theorem Visited.terminate (h : Visited b b') (hc : b'.currentBlock = some c) (kind : TerminatorKind)
    (ht : t < b'.nextID) : Visited b (b'.terminate kind t) := by
  have hlt := (h.sane.current c hc).1
  have hchain := ((h.chain.setTerminator (h.current c hc) kind).addEdge (h.current c hc)
    (by simpa using hlt) (by simpa using ht)).setCurrent none
  rw [terminate_of_current hc]
  exact ⟨hchain.sane nofun, hchain, nofun⟩

theorem visitRegular_eq_ok (hb : b.Sane) (hfound : ∀ v ∈ found, Sound v)
    (hrun : visitRegular stmt found b = .ok b') :
    ∃ pre m c, b.currentBlock = some pre ∧ branchToRecoverBlocks found pre b = .ok m ∧
      Visited b m ∧ m.currentBlock = some c ∧ b' = m.addStatement c stmt := by
  obtain ⟨pre, hpre, hrun⟩ := hb.visitAt hrun
  obtain ⟨m, hm, hrun⟩ := bind_eq_ok.mp hrun
  obtain rfl := pure_eq_ok.mp hrun
  obtain ⟨hvis, ⟨c, hc⟩, -⟩ := visited_branchToRecoverBlocks hpre hb hfound hm
  exact ⟨pre, m, c, hpre, hm, hvis, hc, atCurrent_of_current hc⟩

theorem sound_visitRegular (hfound : ∀ v ∈ found, Sound v) : Sound (visitRegular stmt found) := by
  intro b b' hb hrun
  obtain ⟨pre, m, c, -, -, hvis, hc, rfl⟩ := visitRegular_eq_ok hb hfound hrun
  exact hvis.addStatement hc stmt

theorem visitReturn_eq_ok (hb : b.Sane) (hfound : ∀ v ∈ found, Sound v)
    (hrun : visitReturn stmt found b = .ok b') :
    ∃ pre m c, b.currentBlock = some pre ∧ branchToRecoverBlocks found pre b = .ok m ∧
      Visited b m ∧ m.currentBlock = some c ∧
      b' = ((m.addStatement c stmt).modifyBlock c
        (·.addDeferredRuns (m.deferredRuns 0))).terminate .returns m.exitBlock := by
  obtain ⟨pre, hpre, hrun⟩ := hb.visitAt hrun
  obtain ⟨m, hm, hrun⟩ := bind_eq_ok.mp hrun
  obtain rfl := pure_eq_ok.mp hrun
  obtain ⟨hvis, ⟨c, hc⟩, -⟩ := visited_branchToRecoverBlocks hpre hb hfound hm
  refine ⟨pre, m, c, hpre, hm, hvis, hc, ?_⟩
  rw [atCurrent_of_current hc]
  exact congrArg (·.terminate .returns m.exitBlock) (emitDeferredRuns_of_current
    (b := m.addStatement c stmt) (c := c) hc 0)

theorem sound_visitReturn (hfound : ∀ v ∈ found, Sound v) : Sound (visitReturn stmt found) := by
  intro b b' hb hrun
  obtain ⟨pre, m, c, -, -, hvis, hc, rfl⟩ := visitReturn_eq_ok hb hfound hrun
  refine ((hvis.addStatement hc stmt).addDeferredRuns hc _).terminate hc _ ?_
  rw [nextID_modifyBlock, nextID_addStatement]
  exact hvis.sane.exit_lt

/-- A jump to a loop: what is deferred is recorded, then the jump. -/
def jumpTo (kind : TerminatorKind) (jump : Expr) (c t : ℕ) (b : CFGBuilder) : CFGBuilder :=
  ((b.modifyBlock c (·.addDeferredRuns (b.deferredRuns b.loopDeferDepth))).addStatement c
    jump).terminate kind t

theorem visitBreak_eq_ok (hb : b.Sane) (hrun : visitBreak b = .ok b') :
    ∃ c t, b.currentBlock = some c ∧ b.loopBreakTarget = some t ∧
      b' = b.jumpTo .breaks .breakLoop c t := by
  obtain ⟨c, hc, hrun⟩ := hb.visitAt hrun
  cases ht : b.loopBreakTarget with
  | none => simp [ht] at hrun
  | some t =>
    simp only [ht, Except.ok.injEq, emitDeferredRuns_of_current hc] at hrun
    exact ⟨c, t, hc, rfl, hrun.symm⟩

theorem visitContinue_eq_ok (hb : b.Sane) (hrun : visitContinue b = .ok b') :
    ∃ c t, b.currentBlock = some c ∧ b.loopContinueTarget = some t ∧
      b' = b.jumpTo .continues .continueLoop c t := by
  obtain ⟨c, hc, hrun⟩ := hb.visitAt hrun
  cases ht : b.loopContinueTarget with
  | none => simp [ht] at hrun
  | some t =>
    simp only [ht, Except.ok.injEq, emitDeferredRuns_of_current hc] at hrun
    exact ⟨c, t, hc, rfl, hrun.symm⟩

theorem Sane.visited_jumpTo (hb : b.Sane) (hc : b.currentBlock = some c) (ht : t < b.nextID)
    (kind : TerminatorKind) (jump : Expr) : Visited b (b.jumpTo kind jump c t) := by
  refine (((Visited.refl hb).addDeferredRuns hc _).addStatement hc _).terminate hc _ ?_
  rw [nextID_addStatement, nextID_modifyBlock]
  exact ht

theorem sound_visitBreak : Sound visitBreak := by
  intro b b' hb hrun
  obtain ⟨c, t, hc, ht, rfl⟩ := visitBreak_eq_ok hb hrun
  exact hb.visited_jumpTo hc (hb.break_lt t ht) _ _

theorem sound_visitContinue : Sound visitContinue := by
  intro b b' hb hrun
  obtain ⟨c, t, hc, ht, rfl⟩ := visitContinue_eq_ok hb hrun
  exact hb.visited_jumpTo hc (hb.continue_lt t ht) _ _

theorem sound_visitDefer : Sound (visitDefer stmt) := by
  intro b b' hb hrun
  obtain ⟨c, hc, hrun⟩ := hb.visitAt hrun
  rw [Except.ok.injEq] at hrun
  subst hrun
  have hvis : ∀ scopes : List (List Expr), scopes.tail = b.deferScopes.tail →
      scopes.length = b.deferScopes.length → Visited b { b with deferScopes := scopes } :=
    fun scopes htail hlen => by
      have hf : SameFrame b { b with deferScopes := scopes } := ⟨rfl, rfl, rfl, rfl, htail, hlen⟩
      have hw : Wired { b with deferScopes := scopes } :=
        hb.toWired.of_frame hf le_rfl hb.succ_lt hb.mem_preds
      exact ⟨⟨hw, hb.current⟩, ⟨hw, .of_eq rfl rfl rfl fun _ _ => rfl, hf⟩,
        fun _ hc' => not_kept_of_current hc'⟩
  refine Visited.addStatement (hvis (pushDeferred stmt b.deferScopes) ?_ ?_) hc _
  · cases b.deferScopes <;> rfl
  · cases b.deferScopes <;> rfl

/-! ### Blocks -/

/-- A builder in a new scope. -/
def pushScope (b : CFGBuilder) : CFGBuilder := { b with deferScopes := [] :: b.deferScopes }

def popScope (b : CFGBuilder) : CFGBuilder := { b with deferScopes := b.deferScopes.tail }

/-- Where a block comes to its end, the deferred statements of its scope are recorded. -/
def endScope (b : CFGBuilder) : CFGBuilder :=
  (b.currentBlock.map fun c => b.modifyBlock c
    (·.addDeferredRuns (b.deferredRuns (b.deferScopes.length - 1)))).getD b

theorem Sane.pushScope (h : b.Sane) : b.pushScope.Sane where
  toWired := { h.toWired with depth_le := Nat.le_succ_of_le h.depth_le }
  current := h.current

theorem visitBlock_eq_ok (hb : b.Sane) (hv : Sound v) (hrun : visitBlock v b = .ok b') :
    ∃ m, v b.pushScope = .ok m ∧ Visited b.pushScope m ∧ b' = m.endScope.popScope := by
  obtain ⟨m, hm, hrun⟩ := bind_eq_ok.mp hrun
  obtain rfl := pure_eq_ok.mp hrun
  have hvis := hv hb.pushScope hm
  refine ⟨m, hm, hvis, congrArg popScope ?_⟩
  rw [hvis.sane.openBlock, endScope]
  cases hc : m.currentBlock with
  | none => rfl
  | some c => exact emitDeferredRuns_of_current hc _

theorem Visited.endScope (h : Visited b b') : Visited b b'.endScope := by
  rw [CFGBuilder.endScope]
  cases hc : b'.currentBlock with
  | none => exact h
  | some c => exact h.addDeferredRuns hc _

theorem Visited.popScope (h : Visited b.pushScope b') (hb : b.Sane) : Visited b b'.popScope := by
  have htail : b'.deferScopes.tail = b.deferScopes := h.chain.frame.scopes_tail
  have hf : SameFrame b b'.popScope := by
    refine ⟨h.chain.frame.exitBlock, h.chain.frame.loopBreakTarget,
      h.chain.frame.loopContinueTarget, h.chain.frame.loopDeferDepth, ?_, ?_⟩
    · exact congrArg List.tail htail
    · exact congrArg List.length htail
  have hw : b'.popScope.Wired :=
    hb.toWired.of_frame hf h.chain.nextID_le h.sane.succ_lt h.sane.mem_preds
  have hgrows : Grows b.Kept b b'.popScope :=
    ⟨h.chain.nextID_le, h.chain.grows.le, h.chain.grows.items, h.chain.grows.succs,
      h.chain.grows.explicit⟩
  exact ⟨⟨hw, h.sane.current⟩, ⟨hw, hgrows, hf⟩, h.current⟩

theorem sound_visitBlock (hv : Sound v) : Sound (visitBlock v) := by
  intro b b' hb hrun
  obtain ⟨m, -, hvis, rfl⟩ := visitBlock_eq_ok hb hv hrun
  exact hvis.endScope.popScope hb

theorem steady_visitBlock (hv : Sound v) : Steady (visitBlock v) := by
  intro b b' hb hrun
  obtain ⟨m, -, hvis, rfl⟩ := visitBlock_eq_ok hb hv hrun
  exact hvis.endScope.chain.frame.scopes_tail

/-! ### Loops -/

/-- The jumps out of what is visited next: what they pass, and where they go. -/
def exits (b : CFGBuilder) : Outcome → Option (List Entry × ℕ)
  | .returns => some (deferredEntries (b.deferredRuns 0), b.exitBlock)
  | .breaks => b.loopBreakTarget.map fun x => (deferredEntries (b.deferredRuns b.loopDeferDepth), x)
  | .continues => b.loopContinueTarget.map fun x =>
    (deferredEntries (b.deferredRuns b.loopDeferDepth), x)
  | _ => none

theorem exits_congr (hf : SameFrame b b') (hs : b'.deferScopes = b.deferScopes) :
    b'.exits = b.exits := by
  funext o
  cases o <;> simp [exits, deferredRuns, hf.exitBlock, hf.loopBreakTarget, hf.loopContinueTarget,
    hf.loopDeferDepth, hs]

/-- A builder at the body of a loop. -/
def enterLoop (x k body : ℕ) (b : CFGBuilder) : CFGBuilder :=
  { b with
    currentBlock := some body
    loopBreakTarget := some x
    loopContinueTarget := some k
    loopDeferDepth := b.deferScopes.length }

/-- Afterwards the targets are those of another builder again. -/
def leaveLoop (b m : CFGBuilder) : CFGBuilder :=
  { m with
    loopBreakTarget := b.loopBreakTarget
    loopContinueTarget := b.loopContinueTarget
    loopDeferDepth := b.loopDeferDepth }

/-- Inside a loop a `break` or `continue` passes nothing of what was deferred before. -/
theorem exits_enterLoop (x k body : ℕ) :
    (b.enterLoop x k body).exits = FlowGraph.inLoop b.exits x k := by
  funext o
  cases o <;> simp [exits, enterLoop, FlowGraph.inLoop, deferredRuns]

/-- What the visit of a loop's body builds, `s` being the builder before it and `m` after it. -/
structure BodyBuilt (b b' : CFGBuilder) (v : Visit) (x k body : ℕ) (m : CFGBuilder) : Prop where
  sane : (b.enterLoop x k body).Sane
  run : v (b.enterLoop x k body) = .ok m
  visited : Visited (b.enterLoop x k body) m
  chain : Chain (fun i => i < b.nextID ∧ i ≠ body) b b'
  le : m.flow.Le b'.flow
  back : ∀ c, m.currentBlock = some c → k ∈ b'.succs c ∧ b'.items c = m.items c
  scopes : b'.deferScopes = m.deferScopes

theorem Wired.visitLoopBody (hb : b.Wired) {x k body : ℕ} (hx : x < b.nextID) (hk : k < b.nextID)
    (hbody : body < b.nextID) (hnil : b.succs body = []) (hexp : b.explicit body = false)
    (hv : Sound v) (hrun : visitLoopBody x k body v b = .ok b') :
    ∃ m, BodyBuilt b b' v x k body m := by
  obtain ⟨m, hm, hend⟩ := bind_eq_ok.mp hrun
  obtain rfl := pure_eq_ok.mp hend
  have hs : (b.enterLoop x k body).Sane := by
    refine ⟨{ hb with break_lt := ?_, continue_lt := ?_, depth_le := le_rfl }, ?_⟩
    · rintro _ ⟨⟩
      exact hx
    · rintro _ ⟨⟩
      exact hk
    · rintro _ ⟨⟩
      exact ⟨hbody, hnil, hexp⟩
  have hvis := hv hs hm
  have hkept : ∀ i, i < b.nextID ∧ i ≠ body → (b.enterLoop x k body).Kept i := fun i hi =>
    ⟨hi.1, fun h => hi.2 (Option.some.inj h).symm⟩
  have hid : b.nextID ≤ m.nextID := hvis.chain.nextID_le
  have hlink : Chain (fun i => i < b.nextID ∧ i ≠ body) (b.enterLoop x k body) (m.linkTo k) :=
    (hvis.chain.mono hkept).linkTo hvis.sane (fun c hc hP => hvis.current c hc (hkept c hP))
      (Nat.lt_of_lt_of_le hk hid)
  have hf : SameFrame b (b.leaveLoop (m.linkTo k)) :=
    ⟨hlink.frame.exitBlock, rfl, rfl, rfl, hlink.frame.scopes_tail, hlink.frame.scopes_length⟩
  have hw : (b.leaveLoop (m.linkTo k)).Wired :=
    hb.of_frame hf hlink.nextID_le hlink.wired.succ_lt hlink.wired.mem_preds
  refine ⟨m, hs, hm, hvis, ⟨hw, ⟨hlink.nextID_le, hlink.grows.le, hlink.grows.items,
    hlink.grows.succs, hlink.grows.explicit⟩, hf⟩, ?_, fun c hc => ?_, deferScopes_linkTo k⟩
  · exact hvis.linkTo_le (Nat.lt_of_lt_of_le hk hid)
  · exact ⟨hvis.sane.mem_succs_linkTo hc k, congrFun (items_linkTo k) c⟩

section

variable {cond : Expr} {k body x : ℕ}

variable (cond body x) in
theorem Chain.branchOn (h : Chain P b b') (hP : ¬ P k) (hk : k < b'.nextID)
    (hbody : body < b'.nextID)
    (hx : x < b'.nextID) (hnil : b'.succs k = []) : Chain P b (b'.branchOn cond k body x) := by
  have hstep := (h.addStatement hP hnil cond).addEdge hP (by simpa using hk) (by simpa using hbody)
  unfold CFGBuilder.branchOn
  split
  · exact hstep.setTerminator hP _
  · exact (hstep.addEdge hP (by simpa using hk) (by simpa using hx)).setTerminator hP _

@[simp] theorem nextID_branchOn : (b.branchOn cond k body x).nextID = b.nextID := by
  unfold branchOn
  split <;> simp

theorem items_branchOn : (b.branchOn cond k body x).items = (b.addStatement k cond).items := by
  unfold branchOn
  split <;> simp

theorem succs_branchOn_of_ne {j : ℕ} (h : k ≠ j) :
    (b.branchOn cond k body x).succs j = b.succs j := by
  unfold branchOn
  split <;> simp [succs_addEdge_of_ne h]

theorem explicit_branchOn_of_ne {j : ℕ} (h : k ≠ j) :
    (b.branchOn cond k body x).explicit j = b.explicit j := by
  unfold branchOn
  split <;> simp [explicit_setTerminator_of_ne h]

theorem mem_succs_branchOn (hk : k < b.nextID) : body ∈ (b.branchOn cond k body x).succs k := by
  unfold branchOn
  split <;> simp [succs_addEdge, hk]

theorem exit_mem_succs_branchOn (hk : k < b.nextID) (h : cond ≠ .bool true) :
    x ∈ (b.branchOn cond k body x).succs k := by
  unfold branchOn
  split
  · exact absurd rfl h
  · simp [succs_addEdge, hk]

@[simp] theorem currentBlock_branchOn :
    (b.branchOn cond k body x).currentBlock = b.currentBlock := by
  unfold branchOn
  split <;> rfl

@[simp] theorem deferScopes_branchOn : (b.branchOn cond k body x).deferScopes = b.deferScopes := by
  unfold branchOn
  split <;> rfl

end

/-- What the visit of a loop builds: from the current block `c` to the first block of the loop, its
body from a builder `s` to a builder `m`, and the exit `x`, where the builder stands. -/
structure LoopBuilt (b b' : CFGBuilder) (v : Visit) (c first body k x : ℕ) (s m : CFGBuilder) :
    Prop where
  current : b.currentBlock = some c
  visited : Visited b b'
  entry_mem : first ∈ b'.succs c
  entry_items : b'.items c = b.items c
  sane : s.Sane
  body_current : s.currentBlock = some body
  body_items : s.items body = []
  run : v s = .ok m
  exits : s.exits = FlowGraph.inLoop b.exits x k
  scopes_body : s.deferScopes = b.deferScopes
  le : m.flow.Le b'.flow
  back : ∀ c, m.currentBlock = some c → k ∈ b'.succs c ∧ b'.items c = m.items c
  exit_current : b'.currentBlock = some x
  exit_items : b'.items x = []
  scopes : b'.deferScopes = m.deferScopes

/-- A block where a visit may begin. -/
structure OpenAt (b : CFGBuilder) (i : ℕ) : Prop where
  lt : i < b.nextID
  succs : b.succs i = []
  explicit : b.explicit i = false

/-- A block that is there, and has nothing in it yet. -/
structure Vacant (b : CFGBuilder) (i : ℕ) : Prop extends OpenAt b i where
  items : b.items i = []

theorem BodyBuilt.loopBuilt {b₁ b₂ m : CFGBuilder} {k x body q : ℕ}
    (h : BodyBuilt b₁ b₂ v x k body m) (first : ℕ) (hc : b.currentBlock = some c)
    (h₁ : Chain b.Kept b b₁)
    (hscopes : b₁.deferScopes = b.deferScopes) (hclt : c < b.nextID) (hmem : first ∈ b₁.succs c)
    (hitems : b₁.items c = b.items c) (hbody : b.nextID ≤ body) (hbv : b₁.Vacant body)
    (h₂ : Chain (· ≠ q) b₂ b')
    (hq : b.nextID ≤ q) (hx : b.nextID ≤ x) (hxq : x ≠ q) (hxbody : x ≠ body) (hxv : b₁.Vacant x)
    (hcur : b'.currentBlock = some x) (hscopes' : b'.deferScopes = b₂.deferScopes) :
    LoopBuilt b b' v c first body k x (b₁.enterLoop x k body) m := by
  have hlt : c < b₁.nextID := Nat.lt_of_lt_of_le hclt h₁.nextID_le
  have hkeep : ∀ i, i < b₁.nextID ∧ i ≠ body → i ≠ q → b'.items i = b₁.items i ∧
      b'.succs i = b₁.succs i ∧ b'.explicit i = b₁.explicit i := fun i hi hiq =>
    ⟨(h₂.grows.items i hiq).trans (h.chain.grows.items i hi),
      (h₂.grows.succs i hiq).trans (h.chain.grows.succs i hi),
      (h₂.grows.explicit i hiq).trans (h.chain.grows.explicit i hi)⟩
  obtain ⟨hci, hcs, -⟩ := hkeep c ⟨hlt, by omega⟩ (by omega)
  obtain ⟨hxi, hxs, hxe⟩ := hkeep x ⟨hxv.lt, hxbody⟩ hxq
  have hchain : Chain b.Kept b b' := (h₁.trans (h.chain.mono fun i hi =>
    ⟨Nat.lt_of_lt_of_le hi.1 h₁.nextID_le, by have := hi.1; omega⟩)).trans
      (h₂.mono fun i hi => by have := hi.1; omega)
  refine ⟨hc, ?_, hcs ▸ hmem, hci.trans hitems, h.sane, rfl, hbv.items, h.run, ?_, hscopes,
    h.le.trans h₂.grows.le, fun d hd => ?_, hcur, hxi.trans hxv.items,
    hscopes'.trans h.scopes⟩
  · exact hchain.visited hcur (Nat.lt_of_lt_of_le hxv.lt (h.chain.nextID_le.trans h₂.nextID_le))
      (hxs.trans hxv.succs) (hxe.trans hxv.explicit) (not_kept_of_le hx)
  · rw [exits_enterLoop, exits_congr h₁.frame hscopes]
  · obtain ⟨hback, hbitems⟩ := h.back d hd
    exact ⟨h₂.grows.le.succs_subset d hback,
      (h₂.grows.le.items_eq d (List.ne_nil_of_mem hback)).trans hbitems⟩

/-- The current block `c` has been given its edge to a new block `t`. -/
structure Opened (b : CFGBuilder) (c t : ℕ) (b₁ : CFGBuilder) : Prop where
  chain : Chain b.Kept b b₁
  items : b₁.items = b.items
  succs : ∀ j, b₁.succs j = if c = j then b.succs j ++ [t] else b.succs j
  explicit : ∀ j, c ≠ j → b₁.explicit j = b.explicit j
  scopes : b₁.deferScopes = b.deferScopes
  current_lt : c < b.nextID

theorem Sane.opened {b₀ : CFGBuilder} (hb : b.Sane) (hc : b.currentBlock = some c)
    (h₀ : Chain b.Kept b b₀) (hi : b₀.items = b.items) (hs : b₀.succs = b.succs)
    (he : b₀.explicit = b.explicit) (hsc : b₀.deferScopes = b.deferScopes) (ht : t < b₀.nextID) :
    Opened b c t ((b₀.addEdge c t).setTerminator c .unconditional) := by
  have hlt := (hb.current c hc).1
  have hclt : c < b₀.nextID := Nat.lt_of_lt_of_le hlt h₀.nextID_le
  refine ⟨(h₀.addEdge (not_kept_of_current hc) hclt ht).setTerminator (not_kept_of_current hc) _,
    by simp [hi], fun j => ?_, fun j hj => ?_, hsc, hlt⟩
  · rw [succs_setTerminator, succs_addEdge hclt, hs]
  · rw [explicit_setTerminator_of_ne hj, explicit_addEdge, he]

theorem Opened.vacant {b₁ : CFGBuilder} {j : ℕ} (h : Opened b c t b₁) (hj : b.nextID ≤ j)
    (hlt : j < b₁.nextID) : b₁.Vacant j := by
  have := h.current_lt
  refine ⟨⟨hlt, ?_, ?_⟩, ?_⟩
  · rw [h.succs, if_neg (by omega), succs_of_le hj]
  · rw [h.explicit j (by omega), explicit_of_le hj]
  · rw [h.items, items_of_le hj]

theorem Opened.mem {b₁ : CFGBuilder} (h : Opened b c t b₁) : t ∈ b₁.succs c := by
  simp [h.succs]

theorem visitWhile_eq_ok {cond : Expr} (hb : b.Sane) (hv : Sound v)
    (hrun : visitWhile cond v b = .ok b') :
    ∃ c body k x s m, LoopBuilt b b' v c k body k x s m ∧ b'.items k = statementEntries [cond] ∧
      body ∈ b'.succs k ∧ (cond ≠ .bool true → x ∈ b'.succs k) := by
  obtain ⟨c, hc, hrun⟩ := hb.visitAt hrun
  obtain ⟨b₂, hbody, hend⟩ := bind_eq_ok.mp hrun
  obtain rfl := pure_eq_ok.mp hend
  set n := b.nextID with hn
  have hclt : c < n := (hb.current c hc).1
  have hO := hb.opened (t := n) hc
    ((((Chain.refl hb.toWired).createBlock "while.cond").createBlock "while.body").createBlock
      "while.end") (by simp) (by simp) (by simp) rfl (by simp [hn]; omega)
  set o := CFGBuilder.setTerminator c .unconditional _ with ho
  have hid : o.nextID = n + 3 := by simp [ho, hn]
  have hcond := hO.vacant (j := n) hn.ge (by omega)
  have hchain := hO.chain.branchOn cond (n + 1) (n + 2) (not_kept_of_le hn.ge)
    hcond.lt (by omega) (by omega) hcond.succs
  have hvac : ∀ j, n < j → j < n + 3 → (o.branchOn cond n (n + 1) (n + 2)).Vacant j :=
    fun j hlo hhi => by
      have hv := hO.vacant (j := j) (by omega) (by omega)
      refine ⟨⟨by rw [nextID_branchOn]; exact hv.lt, ?_, ?_⟩, ?_⟩
      · rw [succs_branchOn_of_ne (by omega), hv.succs]
      · rw [explicit_branchOn_of_ne (by omega), hv.explicit]
      · rw [items_branchOn, items_addStatement_of_ne (by omega), hv.items]
  obtain ⟨m, hB⟩ := hchain.wired.visitLoopBody (by simp; omega) (by simp; omega) (by simp; omega)
    (hvac (n + 1) (by omega) (by omega)).succs (hvac (n + 1) (by omega) (by omega)).explicit
    hv hbody
  have hlast : Chain (· ≠ n) b₂ (b₂.setInsertPoint (n + 2)) :=
    (Chain.refl hB.chain.wired).setInsertPoint _
  have hloop := hB.loopBuilt n hc hchain
    (by simp [hO.scopes]) hclt (by rw [succs_branchOn_of_ne (by omega)]; exact hO.mem)
    (by rw [items_branchOn, items_addStatement_of_ne (by omega), hO.items])
    (by omega) (hvac _ (by omega) (by omega)) hlast hn.ge (by omega) (by omega) (by omega)
    (hvac _ (by omega) (by omega)) rfl rfl
  have hkeep : n < (o.branchOn cond n (n + 1) (n + 2)).nextID ∧ n ≠ n + 1 := by
    rw [nextID_branchOn]
    omega
  refine ⟨c, n + 1, n, n + 2, _, m, hloop, ?_, ?_, fun hne => ?_⟩
  · refine (hB.chain.grows.items n hkeep).trans ?_
    rw [items_branchOn, items_addStatement hcond.lt, if_pos rfl, hcond.items, List.nil_append]
  · exact (hB.chain.grows.succs n hkeep).symm ▸ mem_succs_branchOn hcond.lt
  · exact (hB.chain.grows.succs n hkeep).symm ▸ exit_mem_succs_branchOn hcond.lt hne

theorem visitDoWhile_eq_ok {cond : Expr} (hb : b.Sane) (hv : Sound v)
    (hrun : visitDoWhile v cond b = .ok b') :
    ∃ c body k x s m, LoopBuilt b b' v c body body k x s m ∧ b'.items k = statementEntries [cond] ∧
      body ∈ b'.succs k ∧ (cond ≠ .bool true → x ∈ b'.succs k) := by
  obtain ⟨c, hc, hrun⟩ := hb.visitAt hrun
  obtain ⟨b₂, hbody, hend⟩ := bind_eq_ok.mp hrun
  obtain rfl := pure_eq_ok.mp hend
  set n := b.nextID with hn
  have hclt : c < n := (hb.current c hc).1
  have hO := hb.opened (t := n) hc
    ((((Chain.refl hb.toWired).createBlock "dowhile.body").createBlock "dowhile.cond").createBlock
      "dowhile.end") (by simp) (by simp) (by simp) rfl (by simp [hn]; omega)
  set o := CFGBuilder.setTerminator c .unconditional _ with ho
  have hid : o.nextID = n + 3 := by simp [ho, hn]
  have hvac : ∀ j, n ≤ j → j < n + 3 → o.Vacant j := fun j hlo hhi =>
    hO.vacant (by omega) (by omega)
  obtain ⟨m, hB⟩ := hO.chain.wired.visitLoopBody (by omega) (by omega) (by omega)
    (hvac n le_rfl (by omega)).succs (hvac n le_rfl (by omega)).explicit hv hbody
  have hid₂ := hB.chain.nextID_le
  have hkeep : n + 1 < o.nextID ∧ n + 1 ≠ n := by omega
  have hcond := hvac (n + 1) (by omega) (by omega)
  have hsuccs : b₂.succs (n + 1) = [] := (hB.chain.grows.succs _ hkeep).trans hcond.succs
  have hlast : Chain (· ≠ n + 1) b₂
      ((b₂.branchOn cond (n + 1) n (n + 2)).setInsertPoint (n + 2)) :=
    ((Chain.refl hB.chain.wired).branchOn cond n (n + 2) (fun h => h rfl) (by omega)
      (by omega) (by omega)
      hsuccs).setInsertPoint _
  have hloop := hB.loopBuilt n hc hO.chain hO.scopes hclt hO.mem
    (by rw [hO.items]) hn.ge (hvac n le_rfl (by omega)) hlast (by omega) (by omega) (by omega)
    (by omega) (hvac _ (by omega) (by omega)) rfl (deferScopes_branchOn (b := b₂))
  refine ⟨c, n, n + 1, n + 2, _, m, hloop, ?_, ?_, fun hne => ?_⟩
  · show (b₂.branchOn cond (n + 1) n (n + 2)).items (n + 1) = _
    rw [items_branchOn, items_addStatement (by omega), if_pos rfl, hB.chain.grows.items _ hkeep,
      hcond.items, List.nil_append]
  · exact mem_succs_branchOn (b := b₂) (by omega)
  · exact exit_mem_succs_branchOn (b := b₂) (by omega) hne

theorem Chain.addStatements {k : ℕ} (stmts : List Expr) (h : Chain P b b') (hP : ¬ P k)
    (hnil : b'.succs k = []) : Chain P b (b'.addStatements k stmts) := by
  induction stmts generalizing b' with
  | nil => exact h
  | cons e stmts ih => exact ih (h.addStatement hP hnil e) (by simpa using hnil)

/-- What adding statements does to the graph. -/
theorem addStatements_spec {k : ℕ} (stmts : List Expr) (hk : k < b.nextID) :
    (b.addStatements k stmts).nextID = b.nextID ∧ (b.addStatements k stmts).succs = b.succs ∧
      (b.addStatements k stmts).explicit = b.explicit ∧
      (b.addStatements k stmts).deferScopes = b.deferScopes ∧
      ∀ j, (b.addStatements k stmts).items j =
        if k = j then b.items j ++ statementEntries stmts else b.items j := by
  induction stmts generalizing b with
  | nil => simp [CFGBuilder.addStatements]
  | cons e stmts ih =>
    obtain ⟨hid, hs, he, hsc, hi⟩ := @ih (b.addStatement k e) (by simpa using hk)
    refine ⟨hid.trans (by simp), hs.trans (by simp), he.trans (by simp), hsc, fun j => ?_⟩
    refine (hi j).trans ?_
    rw [items_addStatement hk]
    split_ifs
    · rw [List.append_assoc, ← statementEntries_append, List.singleton_append]
    · rfl

/-- What a loop over a range or over elements builds: a condition block, from which it goes to the
body or the exit, and a step block. -/
theorem visitCounted_eq_ok {header : List Expr} {names : String × String × String × String}
    (hb : b.Sane) (hv : Sound v) (hrun : visitCounted header names v b = .ok b') :
    ∃ c first body k x s m, LoopBuilt b b' v c first body k x s m ∧
      b'.items first = statementEntries header ∧ body ∈ b'.succs first ∧ x ∈ b'.succs first ∧
      first ∈ b'.succs k ∧ b'.items k = [] := by
  obtain ⟨c, hc, hrun⟩ := hb.visitAt hrun
  obtain ⟨b₂, hbody, hend⟩ := bind_eq_ok.mp hrun
  obtain rfl := pure_eq_ok.mp hend
  set n := b.nextID with hn
  have hclt : c < n := (hb.current c hc).1
  have hO := hb.opened (t := n) hc
    (((((Chain.refl hb.toWired).createBlock names.1).createBlock names.2.1).createBlock
      names.2.2.1).createBlock names.2.2.2) (by simp) (by simp) (by simp) rfl (by simp [hn]; omega)
  set o := CFGBuilder.setTerminator c .unconditional _ with ho
  have hid : o.nextID = n + 4 := by simp [ho, hn]
  have hcond := hO.vacant (j := n) hn.ge (by omega)
  have hnot : ¬ b.Kept n := not_kept_of_le hn.ge
  obtain ⟨hid', hs', he', hsc', hi'⟩ := addStatements_spec header hcond.lt
  set a := o.addStatements n header
  have hadded : Chain b.Kept b a := hO.chain.addStatements header hnot hcond.succs
  have hchain := ((hadded.addEdge (t := n + 1) hnot (by omega) (by omega)).addEdge (t := n + 3) hnot
    (by simp; omega) (by simp; omega)).setTerminator hnot .branch
  set b₁ := CFGBuilder.setTerminator n .branch _ with hb₁
  have hid₁ : b₁.nextID = n + 4 := by simp [hb₁, hid', hid]
  have hitems : ∀ j, b₁.items j = if n = j then o.items j ++ statementEntries header else
      o.items j :=
    fun j => by simp [hb₁, hi']
  have hsuccs : ∀ j, n ≠ j → b₁.succs j = o.succs j := fun j hj => by
    simp [hb₁, succs_addEdge_of_ne hj, hs']
  have hexp : ∀ j, n ≠ j → b₁.explicit j = o.explicit j := fun j hj => by
    rw [hb₁, explicit_setTerminator_of_ne hj]
    simp [he']
  have hedges : n + 1 ∈ b₁.succs n ∧ n + 3 ∈ b₁.succs n := by
    rw [hb₁, succs_setTerminator, succs_addEdge (by simp; omega), if_pos rfl,
      succs_addEdge (by omega), if_pos rfl]
    simp
  have hvac : ∀ j, n < j → j < n + 4 → b₁.Vacant j := fun j hlo hhi => by
    have hv := hO.vacant (j := j) (by omega) (by omega)
    exact ⟨⟨by omega, (hsuccs j (by omega)).trans hv.succs, (hexp j (by omega)).trans hv.explicit⟩,
      (hitems j).trans ((if_neg (by omega)).trans hv.items)⟩
  obtain ⟨m, hB⟩ := hchain.wired.visitLoopBody (by omega) (by omega) (by omega)
    (hvac (n + 1) (by omega) (by omega)).succs (hvac (n + 1) (by omega) (by omega)).explicit
    hv hbody
  have hid₂ := hB.chain.nextID_le
  have hlast : Chain (· ≠ n + 2) b₂
      (((b₂.addEdge (n + 2) n).setTerminator (n + 2) .unconditional).setInsertPoint (n + 3)) :=
    (((Chain.refl hB.chain.wired).addEdge (fun h => h rfl) (by omega) (by omega)).setTerminator
      (fun h => h rfl) _).setInsertPoint _
  have hloop := hB.loopBuilt n hc hchain (hsc'.trans hO.scopes) hclt
    (by rw [hsuccs c (by omega)]; exact hO.mem)
    (by rw [hitems, if_neg (by omega), hO.items]) (by omega) (hvac _ (by omega) (by omega)) hlast
    (by omega) (by omega) (by omega) (by omega) (hvac _ (by omega) (by omega)) rfl rfl
  have hkeep : ∀ j, j < n + 4 → j ≠ n + 1 → j ≠ n + 2 →
      (((b₂.addEdge (n + 2) n).setTerminator (n + 2) .unconditional).setInsertPoint
        (n + 3)).items j = b₁.items j ∧
      (((b₂.addEdge (n + 2) n).setTerminator (n + 2) .unconditional).setInsertPoint
        (n + 3)).succs j = b₁.succs j := fun j hlt h₁ h₂ =>
    ⟨(hlast.grows.items j h₂).trans (hB.chain.grows.items j ⟨by omega, h₁⟩),
      (hlast.grows.succs j h₂).trans (hB.chain.grows.succs j ⟨by omega, h₁⟩)⟩
  obtain ⟨hni, hns⟩ := hkeep n (by omega) (by omega) (by omega)
  refine ⟨c, n, n + 1, n + 2, n + 3, _, m, hloop, ?_, ?_, ?_, ?_, ?_⟩
  · rw [hni, hitems, if_pos rfl, hcond.items, List.nil_append]
  · rw [hns]
    exact hedges.1
  · rw [hns]
    exact hedges.2
  · show n ∈ ((b₂.addEdge (n + 2) n).setTerminator (n + 2) .unconditional).succs (n + 2)
    rw [succs_setTerminator, succs_addEdge (by omega), if_pos rfl]
    simp
  · show ((b₂.addEdge (n + 2) n).setTerminator (n + 2) .unconditional).items (n + 2) = []
    rw [items_setTerminator, items_addEdge, hB.chain.grows.items _ ⟨by omega, by omega⟩]
    exact (hvac (n + 2) (by omega) (by omega)).items

theorem sound_visitWhile {cond : Expr} (hv : Sound v) : Sound (visitWhile cond v) := by
  intro b b' hb hrun
  obtain ⟨_, _, _, _, _, _, h, -⟩ := visitWhile_eq_ok hb hv hrun
  exact h.visited

theorem sound_visitDoWhile {cond : Expr} (hv : Sound v) : Sound (visitDoWhile v cond) := by
  intro b b' hb hrun
  obtain ⟨_, _, _, _, _, _, h, -⟩ := visitDoWhile_eq_ok hb hv hrun
  exact h.visited

theorem sound_visitCounted {header : List Expr} {names : String × String × String × String}
    (hv : Sound v) : Sound (visitCounted header names v) := by
  intro b b' hb hrun
  obtain ⟨_, _, _, _, _, _, _, h, -⟩ := visitCounted_eq_ok hb hv hrun
  exact h.visited

end CFGBuilder

end TurfLang
