import TurfLang.Analysis.CfgBuilderVisits

/-!
# What the visits of branches and arms build

The branches of an `if` are a chain of conditions, and the arms of a `compare` one of tests. What
comes after a branch or an arm is built from the block at which its condition or its last test
fails.
-/

namespace TurfLang

open Ast

namespace CFGBuilder

variable {b b' : CFGBuilder} {c i merge : ℕ} {cond : Expr} {v : Visit} {P : ℕ → Prop}

theorem Sane.openAt (h : b.Sane) (hc : b.currentBlock = some c) : b.OpenAt c :=
  ⟨(h.current c hc).1, (h.current c hc).2.1, (h.current c hc).2.2⟩

theorem OpenAt.kept {b : CFGBuilder} (h : b.OpenAt i) (hg : Grows P b b') (hi : P i) :
    b'.OpenAt i :=
  ⟨Nat.lt_of_lt_of_le h.lt hg.nextID_le, (hg.succs i hi).trans h.succs,
    (hg.explicit i hi).trans h.explicit⟩

theorem Vacant.kept (h : b.Vacant i) (hg : Grows P b b') (hi : P i) : b'.Vacant i :=
  ⟨h.toOpenAt.kept hg hi, (hg.items i hi).trans h.items⟩

theorem vacant_createBlock (name : String) : (b.createBlock name).Vacant b.nextID where
  lt := by simp
  succs := by simp [succs_of_le]
  explicit := by simp [explicit_of_le]
  items := by simp [items_of_le]

/-- A builder at an open block is in order. -/
theorem Chain.sane_at (h : Chain P b b') (hi : b'.OpenAt i) (hc : b'.currentBlock = some i) :
    b'.Sane :=
  h.sane fun _ hc' => by
    obtain rfl : i = _ := Option.some.inj (hc.symm.trans hc')
    exact ⟨hi.lt, hi.succs, hi.explicit⟩

/-! ### Branches -/

/-- What is built of a branch before its body is visited, and where the chain goes on. -/
structure BranchOpened (b : CFGBuilder) (merge : ℕ) (cond : Expr) (condBlock : ℕ) (last : Bool)
    (next : ℕ) (s : CFGBuilder) : Prop where
  chain : Chain (fun i => i < b.nextID ∧ i ≠ condBlock) b s
  current : s.currentBlock = some b.nextID
  vacant : s.Vacant b.nextID
  next_vacant : s.Vacant next
  next_ne : next ≠ b.nextID
  next_new : last = false → b.nextID < next
  next_last : last = true → next = merge
  then_mem : b.nextID ∈ s.succs condBlock
  next_mem : next ∈ s.succs condBlock
  items : s.items condBlock = b.items condBlock ++ statementEntries [cond]
  scopes : s.deferScopes = b.deferScopes

theorem Wired.openBranch {condBlock : ℕ} (hb : b.Wired) (hcond : b.OpenAt condBlock)
    (hmerge : b.Vacant merge) (hne : condBlock ≠ merge) (first : Bool) (nextName : Option String)
    (cond : Expr) :
    BranchOpened b merge cond condBlock nextName.isNone
      (b.openBranch first nextName merge cond condBlock).1
      (b.openBranch first nextName merge cond condBlock).2 := by
  have hlt := hcond.lt
  have hmlt := hmerge.lt
  set P : ℕ → Prop := fun i => i < b.nextID ∧ i ≠ condBlock with hP
  have hnot : ¬ P condBlock := fun h => h.2 rfl
  have hcreate := (Chain.refl (P := P) hb).createBlock (if first then "if.then" else "elseif.then")
  -- What follows needs the same of both ways to find the next block.
  have key : ∀ (next : ℕ) (n : CFGBuilder), Chain P b n → b.nextID < n.nextID →
      n.Vacant b.nextID → n.Vacant next → next ≠ b.nextID → next ≠ condBlock →
      n.items = b.items → n.succs = b.succs → n.deferScopes = b.deferScopes →
      (nextName.isNone = false → b.nextID < next) → (nextName.isNone = true → next = merge) →
      BranchOpened b merge cond condBlock nextName.isNone next
        (((((n.addStatement condBlock cond).addEdge condBlock b.nextID).addEdge condBlock
          next).setTerminator condBlock .branch).setInsertPoint b.nextID) := by
    intro next n hn hid hthen hnext hne₁ hne₂ hitems hsuccs hsc hnew hlast
    have hnil : n.succs condBlock = [] := by rw [hsuccs, hcond.succs]
    have hchain := ((((hn.addStatement hnot hnil cond).addEdge (t := b.nextID) hnot (by simp; omega)
      (by simp; omega)).addEdge (t := next) hnot (by simp; omega) (by
        have := hnext.lt
        simp; omega)).setTerminator hnot .branch).setInsertPoint b.nextID
    set s := CFGBuilder.setInsertPoint b.nextID _ with hs
    have hsuccs' : s.succs = ((((n.addStatement condBlock cond).addEdge condBlock b.nextID).addEdge
        condBlock next).setTerminator condBlock .branch).succs := rfl
    have hexp' : s.explicit = ((((n.addStatement condBlock cond).addEdge condBlock b.nextID).addEdge
        condBlock next).setTerminator condBlock .branch).explicit := rfl
    have hitems' : s.items = ((((n.addStatement condBlock cond).addEdge condBlock b.nextID).addEdge
        condBlock next).setTerminator condBlock .branch).items := rfl
    have hvac : ∀ j, j ≠ condBlock → n.Vacant j → s.Vacant j := fun j hj hv => by
      refine ⟨⟨?_, ?_, ?_⟩, ?_⟩
      · exact Nat.lt_of_lt_of_le hv.lt (by
          show n.nextID ≤ ((((n.addStatement condBlock cond).addEdge condBlock b.nextID).addEdge
            condBlock next).setTerminator condBlock .branch).nextID
          simp)
      · rw [hsuccs', succs_setTerminator, succs_addEdge_of_ne hj.symm, succs_addEdge_of_ne hj.symm,
          succs_addStatement, hv.succs]
      · rw [hexp', explicit_setTerminator_of_ne hj.symm, explicit_addEdge, explicit_addEdge,
          explicit_addStatement, hv.explicit]
      · rw [hitems', items_setTerminator, items_addEdge, items_addEdge,
          items_addStatement_of_ne hj.symm, hv.items]
    refine ⟨hchain, rfl, hvac _ (by omega) hthen, hvac _ hne₂ hnext, hne₁, hnew, hlast,
      ?_, ?_, ?_, hsc⟩
    · rw [hsuccs', succs_setTerminator, succs_addEdge (by simp; omega), if_pos rfl,
        succs_addEdge (by simp; omega), if_pos rfl]
      simp
    · rw [hsuccs', succs_setTerminator, succs_addEdge (by simp; omega), if_pos rfl]
      simp
    · rw [hitems', items_setTerminator, items_addEdge, items_addEdge,
        items_addStatement (by omega), if_pos rfl, hitems]
  have hthen := vacant_createBlock (b := b) (if first then "if.then" else "elseif.then")
  have hkeep : ∀ {b₁ : CFGBuilder} (name : String) {j : ℕ}, b₁.Vacant j →
      (b₁.createBlock name).Vacant j := fun name j hv =>
    ⟨⟨by have := hv.lt; simp; omega, by simp [hv.succs], by simp [hv.explicit]⟩, by simp [hv.items]⟩
  unfold CFGBuilder.openBranch CFGBuilder.nextBlock
  cases nextName with
  | none =>
    exact key merge _ hcreate (by simp) hthen (hkeep _ hmerge) (by omega) hne.symm (by simp)
      (by simp) rfl (by simp) (fun _ => rfl)
  | some name =>
    refine key _ _ (hcreate.createBlock name) (by simp) (hkeep _ hthen)
      (vacant_createBlock name) ?_ ?_ (by simp) (by simp) rfl (fun _ => ?_) (by simp)
    all_goals
      simp only [nextID_createBlock]
      omega

/-- The body of a branch or an arm, and the edge from its end. -/
theorem Visited.linked {t : ℕ} (h : Visited b b') (ht : t < b.nextID) :
    Chain b.Kept b (b'.linkTo t) :=
  h.chain.linkTo h.sane (fun c hc => h.current c hc) (Nat.lt_of_lt_of_le ht h.chain.nextID_le)

/-- What the visit of the branches from `condBlock` on builds: the builder stands at the end of the
`if`, or nowhere. -/
structure IfBuilt (b b' : CFGBuilder) (condBlock merge : ℕ) (allTerminate : Bool) : Prop where
  chain : Chain (fun i => i < b.nextID ∧ (i ≠ condBlock ∨ i = merge)) b b'
  vacant : b'.Vacant merge
  current : b'.currentBlock = none ∨ b'.currentBlock = some merge
  current_of : allTerminate = false → b'.currentBlock = some merge

theorem Wired.ifBuilt_noElse {condBlock : ℕ} (hb : b.Wired) (hmerge : b.Vacant merge) (all : Bool) :
    IfBuilt b (b.setInsertPoint merge) condBlock merge all :=
  ⟨(Chain.refl hb).setInsertPoint merge,
    hmerge.kept (((Chain.refl (P := fun _ => True) hb).setInsertPoint merge).grows) trivial,
    .inr rfl, fun _ => rfl⟩

/-- The body of the `else`, from a builder `s` to a builder `m`. -/
structure ElseBuilt (b b' : CFGBuilder) (v : Visit) (condBlock merge : ℕ) (all : Bool)
    (s m : CFGBuilder) : Prop where
  built : IfBuilt b b' condBlock merge all
  sane : s.Sane
  start : s = b.setInsertPoint condBlock
  run : v s = .ok m
  le : m.flow.Le b'.flow
  back : ∀ c, m.currentBlock = some c → merge ∈ b'.succs c ∧ b'.items c = m.items c ∧
    b'.currentBlock = some merge
  scopes : b'.deferScopes = m.deferScopes

theorem Wired.sane_setInsertPoint {condBlock : ℕ} (hb : b.Wired) (hcond : b.OpenAt condBlock) :
    (b.setInsertPoint condBlock).Sane :=
  ((Chain.refl (P := fun _ => True) hb).setInsertPoint condBlock).sane_at
    (hcond.kept ((Chain.refl (P := fun _ => True) hb).setInsertPoint condBlock).grows trivial) rfl

theorem Wired.elseBuilt {condBlock : ℕ} {all : Bool} (hb : b.Wired) (hcond : b.OpenAt condBlock)
    (hmerge : b.Vacant merge) (hne : condBlock ≠ merge) (hv : Sound v)
    (hrun : (do
      let m ← v (b.setInsertPoint condBlock)
      return { m.linkTo merge with
        currentBlock := if all && m.openBlock.isNone then none else some merge }) = .ok b') :
    ∃ s m, ElseBuilt b b' v condBlock merge all s m := by
  obtain ⟨m, hm, hend⟩ := bind_eq_ok.mp hrun
  obtain rfl := pure_eq_ok.mp hend
  have hstart : Chain (fun i => i < b.nextID ∧ i ≠ condBlock) b (b.setInsertPoint condBlock) :=
    (Chain.refl hb).setInsertPoint condBlock
  have hs := hb.sane_setInsertPoint hcond
  have hvis := hv hs hm
  have hkept : ∀ i, i < b.nextID ∧ i ≠ condBlock → (b.setInsertPoint condBlock).Kept i :=
    fun i hi => ⟨hi.1, fun h => hi.2 (Option.some.inj h).symm⟩
  have hlink := hvis.linked (t := merge) hmerge.lt
  have hchain := (hstart.trans (hlink.mono hkept)).setCurrent
    (if all && m.openBlock.isNone then none else some merge)
  have hto : ∀ i, i < b.nextID ∧ (i ≠ condBlock ∨ i = merge) → i < b.nextID ∧ i ≠ condBlock :=
    fun i hi => ⟨hi.1, hi.2.elim id fun h => h ▸ hne.symm⟩
  refine ⟨_, m, ⟨hchain.mono hto, hmerge.kept hchain.grows ⟨hmerge.lt, hne.symm⟩, ?_, ?_⟩, hs,
    rfl, hm,
    hvis.linkTo_le (Nat.lt_of_lt_of_le hmerge.lt hvis.chain.nextID_le), fun c hc => ⟨?_, ?_, ?_⟩,
    deferScopes_linkTo merge⟩
  · show (if _ then _ else _) = _ ∨ (if _ then _ else _) = _
    split <;> simp
  · rintro rfl
    rfl
  · exact hvis.sane.mem_succs_linkTo hc merge
  · exact congrFun (items_linkTo merge) c
  · show (if all && m.openBlock.isNone then none else some merge) = some merge
    simp [hvis.sane.openBlock, hc]

/-- A branch, whose body is visited from a builder `s` to a builder `m`, and what comes after it. -/
structure BranchBuilt (b b' : CFGBuilder) (v : Visit) (rest : ℕ → Bool → Visit) (cond : Expr)
    (last : Bool) (condBlock merge : ℕ) (all : Bool) (next : ℕ) (s m : CFGBuilder) : Prop where
  opened : BranchOpened b merge cond condBlock last next s
  sane : s.Sane
  run : v s = .ok m
  visited : Visited s m
  linked : Chain s.Kept s (m.linkTo merge)
  chain : Chain (fun i => i < b.nextID ∧ i ≠ condBlock) b (m.linkTo merge)
  next_vacant : (m.linkTo merge).Vacant next
  merge_vacant : (m.linkTo merge).Vacant merge
  rest : rest next (all && m.currentBlock.isNone) (m.linkTo merge) = .ok b'

theorem Wired.branchBuilt {condBlock : ℕ} {first : Bool} {nextName : Option String}
    (hb : b.Wired) (all : Bool) (rest : ℕ → Bool → Visit) (hcond : b.OpenAt condBlock)
    (hmerge : b.Vacant merge) (hne : condBlock ≠ merge) (hv : Sound v)
    (hrun : (do
      let m ← v (b.openBranch first nextName merge cond condBlock).2
      rest (b.openBranch first nextName merge cond condBlock).1 (all && m.openBlock.isNone)
        (m.linkTo merge)) = .ok b') :
    ∃ m, BranchBuilt b b' v rest cond nextName.isNone condBlock merge all
      (b.openBranch first nextName merge cond condBlock).1
      (b.openBranch first nextName merge cond condBlock).2 m := by
  obtain ⟨m, hm, hrest⟩ := bind_eq_ok.mp hrun
  have hO := hb.openBranch hcond hmerge hne first nextName cond
  have hmlt := hmerge.lt
  have hs := hO.chain.sane_at hO.vacant.toOpenAt hO.current
  have hvis := hv hs hm
  have hkept : ∀ i, i < (b.openBranch first nextName merge cond condBlock).2.nextID → i ≠ b.nextID →
      (b.openBranch first nextName merge cond condBlock).2.Kept i := fun i hi hne =>
    ⟨hi, fun h => hne (Option.some.inj (hO.current.symm.trans h)).symm⟩
  have hid := hO.chain.nextID_le
  have hlink := hvis.linked (t := merge) (by omega)
  rw [hvis.sane.openBlock] at hrest
  refine ⟨m, hO, hs, hm, hvis, hlink, ?_, ?_, ?_, hrest⟩
  · exact hO.chain.trans (hlink.mono fun i hi => hkept i (by omega) (by omega))
  · exact hO.next_vacant.kept hlink.grows (hkept _ hO.next_vacant.lt hO.next_ne)
  · exact (hmerge.kept hO.chain.grows ⟨hmlt, hne.symm⟩).kept hlink.grows
      (hkept _ (by omega) (by omega))

/-- The blocks of the branches after a branch, seen from it. -/
theorem BranchBuilt.ifBuilt {rest : ℕ → Bool → Visit} {last : Bool} {condBlock next : ℕ}
    {all : Bool}
    {s m : CFGBuilder} (h : BranchBuilt b b' v rest cond last condBlock merge all next s m)
    (hne : condBlock ≠ merge) (hrest : IfBuilt (m.linkTo merge) b' next merge
      (all && m.currentBlock.isNone)) : IfBuilt b b' condBlock merge all := by
  have hid := h.chain.nextID_le
  have hto : ∀ i, i < b.nextID ∧ (i ≠ condBlock ∨ i = merge) → i < b.nextID ∧ i ≠ condBlock :=
    fun i hi => ⟨hi.1, hi.2.elim id fun h => h ▸ hne.symm⟩
  refine ⟨(h.chain.mono hto).trans (hrest.chain.mono fun i hi => ⟨by omega, ?_⟩), hrest.vacant,
    hrest.current, ?_⟩
  · cases hl : last with
    | true =>
      rw [h.opened.next_last hl]
      exact (em _).symm
    | false =>
      have := h.opened.next_new hl
      exact .inl (by omega)
  · rintro rfl
    exact hrest.current_of rfl

/-! ### Arms -/

section

variable {arm prev t : ℕ} {real : Bool} {stmts : List Expr}

theorem Chain.linkFail (h : Chain P b b') (hP : ¬ P prev) (hprev : prev < b'.nextID)
    (ht : t < b'.nextID) : Chain P b (b'.linkFail prev real t) := by
  have hedge := h.addEdge hP hprev ht
  unfold CFGBuilder.linkFail
  cases real with
  | false => exact hedge
  | true => exact hedge.setTerminator hP _

@[simp] theorem nextID_linkFail : (b.linkFail prev real t).nextID = b.nextID := by
  cases real <;> simp [linkFail]

@[simp] theorem items_linkFail : (b.linkFail prev real t).items = b.items := by
  cases real <;> simp [linkFail]

theorem succs_linkFail : (b.linkFail prev real t).succs = (b.addEdge prev t).succs := by
  cases real <;> simp [linkFail]

theorem explicit_linkFail_of_ne {j : ℕ} (h : prev ≠ j) :
    (b.linkFail prev real t).explicit j = b.explicit j := by
  cases real <;> simp [linkFail, explicit_setTerminator_of_ne h]

@[simp] theorem deferScopes_linkFail : (b.linkFail prev real t).deferScopes = b.deferScopes := by
  cases real <;> rfl

/-- A test that is tried when `prev` has failed. -/
structure TestBuilt (b : CFGBuilder) (arm prev : ℕ) (stmts : List Expr) (b' : CFGBuilder) :
    Prop where
  chain : Chain (fun i => i < b.nextID ∧ i ≠ prev) b b'
  nextID_eq : b'.nextID = b.nextID + 1
  test_mem : b.nextID ∈ b'.succs prev
  prev_items : b'.items prev = b.items prev
  items : b'.items b.nextID = statementEntries stmts
  arm_mem : arm ∈ b'.succs b.nextID
  scopes : b'.deferScopes = b.deferScopes

theorem Wired.addTest (hb : b.Wired) (hprev : prev < b.nextID) (harm : arm < b.nextID) :
    TestBuilt b arm prev stmts (b.addTest arm prev real stmts) := by
  set P : ℕ → Prop := fun i => i < b.nextID ∧ i ≠ prev with hP
  have hnew : ¬ P b.nextID := fun h => Nat.lt_irrefl _ h.1
  set l := (b.createBlock "compare.test").linkFail prev real b.nextID with hl
  have hid : l.nextID = b.nextID + 1 := by simp [hl]
  have hsuccs : ∀ j, l.succs j = if prev = j then b.succs j ++ [b.nextID] else b.succs j :=
    fun j => by rw [hl, succs_linkFail, succs_addEdge (by simp; omega), succs_createBlock]
  have hlink : Chain P b l := ((Chain.refl hb).createBlock _).linkFail (fun h => h.2 rfl)
    (by simp; omega) (by simp)
  have hnil : l.succs b.nextID = [] := by rw [hsuccs, if_neg (by omega), succs_of_le le_rfl]
  obtain ⟨hid', hs', -, hsc', hi'⟩ := addStatements_spec stmts (show b.nextID < l.nextID by omega)
  have hadded : Chain P b (l.addStatements b.nextID stmts) := hlink.addStatements stmts hnew hnil
  have hchain := (hadded.addEdge (t := arm) hnew (by omega) (by omega)).setTerminator hnew
    .unconditional
  refine ⟨hchain, ?_, ?_, ?_, ?_, ?_, ?_⟩
  · show (((l.addStatements b.nextID stmts).addEdge b.nextID arm).setTerminator b.nextID
      .unconditional).nextID = _
    simp [hid', hid]
  · show b.nextID ∈ (((l.addStatements b.nextID stmts).addEdge b.nextID arm).setTerminator b.nextID
      .unconditional).succs prev
    rw [succs_setTerminator, succs_addEdge_of_ne (by omega), hs', hsuccs, if_pos rfl]
    simp
  · show (((l.addStatements b.nextID stmts).addEdge b.nextID arm).setTerminator b.nextID
      .unconditional).items prev = _
    rw [items_setTerminator, items_addEdge, hi', if_neg (by omega)]
    simp [hl]
  · show (((l.addStatements b.nextID stmts).addEdge b.nextID arm).setTerminator b.nextID
      .unconditional).items b.nextID = _
    rw [items_setTerminator, items_addEdge, hi', if_pos rfl]
    simp [hl, items_of_le]
  · show arm ∈ (((l.addStatements b.nextID stmts).addEdge b.nextID arm).setTerminator b.nextID
      .unconditional).succs b.nextID
    rw [succs_setTerminator, succs_addEdge (by omega), if_pos rfl]
    simp
  · exact hsc'.trans (by simp [hl]; rfl)

/-- The tests of an arm, up to the last of them. -/
structure TestsBuilt (b : CFGBuilder) (prev : ℕ) (last : ℕ) (b' : CFGBuilder) : Prop where
  chain : Chain (fun i => i < b.nextID ∧ i ≠ prev) b b'
  last_lt : last < b'.nextID
  last_eq : last = prev ∨ b.nextID ≤ last
  scopes : b'.deferScopes = b.deferScopes

theorem TestBuilt.then {b₁ : CFGBuilder} {last : ℕ} (h : TestBuilt b arm prev stmts b₁)
    (hrest : TestsBuilt b₁ b.nextID last b') : TestsBuilt b prev last b' := by
  have hid := h.nextID_eq
  refine ⟨h.chain.trans (hrest.chain.mono fun i hi => by omega), hrest.last_lt, ?_,
    hrest.scopes.trans h.scopes⟩
  rcases hrest.last_eq with rfl | hle
  · exact .inr le_rfl
  · exact .inr (by omega)

theorem Wired.visitTests (arm : ℕ) : ∀ (hs : Headers) (real : Bool) {b : CFGBuilder} {prev : ℕ},
    b.Wired → prev < b.nextID → arm < b.nextID → TestsBuilt b prev (hs.visitTests arm prev real b).1
      (hs.visitTests arm prev real b).2.2
  | .nil, _, _, _, hb, hprev, _ => ⟨.refl hb, hprev, .inl rfl, rfl⟩
  | .header val more, real, b, prev, hb, hprev, harm => by
    have h : TestBuilt b arm prev [val] (b.addTest arm prev real [val]) := hb.addTest hprev harm
    have hid := h.nextID_eq
    exact h.then (h.chain.wired.visitTests arm more true (by omega) (by omega))
  | .guarded val guard more, real, b, prev, hb, hprev, harm => by
    have h : TestBuilt b arm prev [val, guard] (b.addTest arm prev real [val, guard]) :=
      hb.addTest hprev harm
    have hid := h.nextID_eq
    exact h.then (h.chain.wired.visitTests arm more true (by omega) (by omega))

/-- A body that is visited at a new block `t`, from a builder `s` to a builder `m`. -/
structure ArmBuilt (b b' : CFGBuilder) (v : Visit) (prev merge t : ℕ) (s m : CFGBuilder) :
    Prop where
  before : Chain (fun i => i < b.nextID ∧ i ≠ prev) b s
  sane : s.Sane
  current : s.currentBlock = some t
  items : s.items t = []
  run : v s = .ok m
  visited : Visited s m
  linked : Chain s.Kept s b'
  eq : b' = m.linkTo merge
  chain : Chain (fun i => i < b.nextID ∧ i ≠ prev) b b'

theorem Chain.armBuilt {s : CFGBuilder} (hs : Chain (fun i => i < b.nextID ∧ i ≠ prev) b s)
    (hcur : s.currentBlock = some t) (ht : s.Vacant t) (hnew : b.nextID ≤ t)
    (hmerge : merge < b.nextID) (hv : Sound v)
    (hrun : (do
      let m ← v s
      return m.linkTo merge) = .ok b') : ∃ m, ArmBuilt b b' v prev merge t s m := by
  obtain ⟨m, hm, hend⟩ := bind_eq_ok.mp hrun
  obtain rfl := pure_eq_ok.mp hend
  have hsane := hs.sane_at ht.toOpenAt hcur
  have hvis := hv hsane hm
  have hid := hs.nextID_le
  have hlink := hvis.linked (t := merge) (by omega)
  refine ⟨m, hs, hsane, hcur, ht.items, hm, hvis, hlink, rfl, hs.trans (hlink.mono fun i hi => ?_)⟩
  refine ⟨by omega, fun h => ?_⟩
  have := Option.some.inj (hcur.symm.trans h)
  omega

/-- The body of the `otherwise`. -/
theorem Wired.otherBuilt (hb : b.Wired) (hprev : prev < b.nextID) (hmerge : merge < b.nextID)
    (hv : Sound v)
    (hrun : (do
      let m ← v (((b.createBlock "compare.otherwise").linkFail prev real b.nextID).setInsertPoint
        b.nextID)
      return m.linkTo merge) = .ok b') :
    ∃ s m, ArmBuilt b b' v prev merge b.nextID s m ∧ b.nextID ∈ s.succs prev ∧
      s.items prev = b.items prev ∧ s.deferScopes = b.deferScopes := by
  set l := (b.createBlock "compare.otherwise").linkFail prev real b.nextID with hl
  have hid : l.nextID = b.nextID + 1 := by simp [hl]
  have hsuccs : ∀ j, l.succs j = if prev = j then b.succs j ++ [b.nextID] else b.succs j :=
    fun j => by rw [hl, succs_linkFail, succs_addEdge (by simp; omega), succs_createBlock]
  have hchain : Chain (fun i => i < b.nextID ∧ i ≠ prev) b (l.setInsertPoint b.nextID) :=
    (((Chain.refl hb).createBlock _).linkFail (fun h => h.2 rfl) (by simp; omega)
      (by simp)).setInsertPoint b.nextID
  have hvac : (l.setInsertPoint b.nextID).Vacant b.nextID := by
    refine ⟨⟨?_, ?_, ?_⟩, ?_⟩
    · show b.nextID < l.nextID
      omega
    · show l.succs b.nextID = []
      rw [hsuccs, if_neg (by omega), succs_of_le le_rfl]
    · show l.explicit b.nextID = false
      rw [hl, explicit_linkFail_of_ne (by omega), explicit_createBlock, explicit_of_le le_rfl]
    · show l.items b.nextID = []
      rw [hl, items_linkFail, items_createBlock, items_of_le le_rfl]
  obtain ⟨m, hm⟩ := hchain.armBuilt rfl hvac le_rfl hmerge hv hrun
  refine ⟨_, m, hm, ?_, ?_, ?_⟩
  · show b.nextID ∈ l.succs prev
    rw [hsuccs, if_pos rfl]
    simp
  · show l.items prev = _
    rw [hl, items_linkFail, items_createBlock]
  · show l.deferScopes = _
    rw [hl, deferScopes_linkFail]
    rfl

/-- An arm: its tests, and its body. -/
theorem Wired.armBuilt {hs : Headers} (hb : b.Wired) (rest : ℕ → Bool → Visit)
    (hprev : prev < b.nextID) (hmerge : merge < b.nextID) (hv : Sound v)
    (hrun : (do
      let m ← v ((hs.visitTests b.nextID prev real (b.createBlock "compare.arm")).2.2.setInsertPoint
        b.nextID)
      rest (hs.visitTests b.nextID prev real (b.createBlock "compare.arm")).1
        (hs.visitTests b.nextID prev real (b.createBlock "compare.arm")).2.1 (m.linkTo merge)) =
        .ok b') :
    ∃ last isReal s m, ArmBuilt b (m.linkTo merge) v prev merge b.nextID s m ∧
      (hs.visitTests b.nextID prev real (b.createBlock "compare.arm")) = (last, isReal,
        (hs.visitTests b.nextID prev real (b.createBlock "compare.arm")).2.2) ∧
      s = (hs.visitTests b.nextID prev real (b.createBlock "compare.arm")).2.2.setInsertPoint
        b.nextID ∧
      TestsBuilt (b.createBlock "compare.arm") prev last s ∧
      rest last isReal (m.linkTo merge) = .ok b' := by
  obtain ⟨m, hm, hrest⟩ := bind_eq_ok.mp hrun
  have hcreate := (Chain.refl (P := fun i => i < b.nextID ∧ i ≠ prev) hb).createBlock "compare.arm"
  have hid : (b.createBlock "compare.arm").nextID = b.nextID + 1 := by simp
  have hT : TestsBuilt (b.createBlock "compare.arm") prev _ _ :=
    hcreate.wired.visitTests b.nextID hs real (by omega) (by omega)
  set T := hs.visitTests b.nextID prev real (b.createBlock "compare.arm") with hTdef
  have hchain : Chain (fun i => i < b.nextID ∧ i ≠ prev) b (T.2.2.setInsertPoint b.nextID) :=
    (hcreate.trans (hT.chain.mono fun i hi => by omega)).setInsertPoint b.nextID
  have hvac : (T.2.2.setInsertPoint b.nextID).Vacant b.nextID := by
    have h := (vacant_createBlock (b := b) "compare.arm").kept hT.chain.grows ⟨by omega, by omega⟩
    exact ⟨⟨h.lt, h.succs, h.explicit⟩, h.items⟩
  have hbuilt : ∃ m', ArmBuilt b (m.linkTo merge) v prev merge b.nextID _ m' :=
    hchain.armBuilt rfl hvac le_rfl hmerge hv (bind_eq_ok.mpr ⟨m, hm, rfl⟩)
  obtain ⟨m', hm'⟩ := hbuilt
  obtain rfl : m' = m := by
    have := hm'.run.symm.trans hm
    exact Except.ok.inj this
  exact ⟨T.1, T.2.1, _, m', hm', rfl, rfl, ⟨hT.chain.setInsertPoint _, hT.last_lt, hT.last_eq,
    hT.scopes⟩, hrest⟩

end

/-! ### Whole statements -/

/-- An `if` at the current block. -/
theorem Sane.ifStart (hb : b.Sane) (hc : b.currentBlock = some c) (name : String) :
    (b.createBlock name).Wired ∧ (b.createBlock name).OpenAt c ∧
      (b.createBlock name).Vacant b.nextID ∧ c ≠ b.nextID := by
  have hopen := hb.openAt hc
  have hlt := hopen.lt
  refine ⟨((Chain.refl (P := fun _ => True) hb.toWired).createBlock name).wired, ⟨?_, ?_, ?_⟩,
    vacant_createBlock name, by omega⟩
  · rw [nextID_createBlock]
    omega
  · rw [succs_createBlock, hopen.succs]
  · rw [explicit_createBlock, hopen.explicit]

theorem IfBuilt.visited {all : Bool} {name : String}
    (h : IfBuilt (b.createBlock name) b' c b.nextID all) (hb : b.Sane)
    (hc : b.currentBlock = some c) : Visited b b' := by
  have hchain : Chain b.Kept b b' :=
    ((Chain.refl hb.toWired).createBlock name).trans (h.chain.mono fun i hi => by
      refine ⟨by rw [nextID_createBlock]; exact Nat.lt_succ_of_lt hi.1, .inl ?_⟩
      rintro rfl
      exact hi.2 hc)
  rcases h.current with hnone | hsome
  · have hnot : ∀ c, b'.currentBlock ≠ some c := by simp [hnone]
    exact ⟨hchain.sane fun c h' => absurd h' (hnot c), hchain, fun c h' => absurd h' (hnot c)⟩
  · exact hchain.visited hsome h.vacant.lt h.vacant.succs h.vacant.explicit (not_kept_of_le le_rfl)

/-- A `compare` at the current block, before its arms. -/
structure CompareStart (b : CFGBuilder) (subject : Expr) (c : ℕ) (b₁ : CFGBuilder) : Prop where
  chain : Chain b.Kept b b₁
  lt : c < b₁.nextID
  items : b₁.items c = b.items c ++ statementEntries [subject]
  vacant : b₁.Vacant b.nextID
  ne : c ≠ b.nextID
  nextID_eq : b₁.nextID = b.nextID + 1
  scopes : b₁.deferScopes = b.deferScopes

theorem Sane.compareStart {subject : Expr} (hb : b.Sane) (hc : b.currentBlock = some c) :
    CompareStart b subject c (((b.createBlock "compare.end").addStatement c subject).setTerminator c
      .unconditional) := by
  obtain ⟨hw, hopen, hvac, hne⟩ := hb.ifStart hc "compare.end"
  have hchain := (((Chain.refl hb.toWired).createBlock "compare.end").addStatement
    (not_kept_of_current hc) hopen.succs subject).setTerminator (not_kept_of_current hc)
      .unconditional
  refine ⟨hchain, ?_, ?_, ⟨⟨?_, ?_, ?_⟩, ?_⟩, hne, ?_, rfl⟩
  · simpa using hopen.lt
  · rw [items_setTerminator, items_addStatement hopen.lt, if_pos rfl, items_createBlock]
  · simp
  · simp [succs_of_le]
  · rw [explicit_setTerminator_of_ne hne]
    simp [explicit_of_le]
  · rw [items_setTerminator, items_addStatement_of_ne hne, items_createBlock, items_of_le le_rfl]
  · simp

theorem visitCompare_eq_ok {subject : Expr} {visitArms : ℕ → ℕ → Visit} (hb : b.Sane)
    (hrun : visitCompare subject visitArms b = .ok b') :
    ∃ c b₁ b₂, b.currentBlock = some c ∧ CompareStart b subject c b₁ ∧
      visitArms b.nextID c b₁ = .ok b₂ ∧ b' = b₂.setInsertPoint b.nextID := by
  obtain ⟨c, hc, hrun⟩ := hb.visitAt hrun
  obtain ⟨b₂, hb₂, hend⟩ := bind_eq_ok.mp hrun
  obtain rfl := pure_eq_ok.mp hend
  exact ⟨c, _, b₂, hc, hb.compareStart hc, hb₂, rfl⟩

theorem sound_visitCompare {subject : Expr} {visitArms : ℕ → ℕ → Visit}
    (harms : ∀ {merge c b b'}, b.Wired → c < b.nextID → b.Vacant merge → c ≠ merge →
      visitArms merge c b = .ok b' → Chain (fun i => i < b.nextID ∧ i ≠ c) b b') :
    Sound (visitCompare subject visitArms) := by
  intro b b' hb hrun
  obtain ⟨c, b₁, b₂, hc, h₁, hvisit, rfl⟩ := visitCompare_eq_ok hb hrun
  have h₂ := harms h₁.chain.wired h₁.lt h₁.vacant h₁.ne hvisit
  have hvac' := h₁.vacant.kept h₂.grows ⟨h₁.vacant.lt, h₁.ne.symm⟩
  have hchain : Chain b.Kept b (b₂.setInsertPoint b.nextID) :=
    (h₁.chain.trans (h₂.mono fun i hi => by
      refine ⟨by have := hi.1; have := h₁.nextID_eq; omega, ?_⟩
      rintro rfl
      exact hi.2 hc)).setInsertPoint _
  exact hchain.visited rfl hvac'.lt hvac'.succs hvac'.explicit (not_kept_of_le le_rfl)

end CFGBuilder

open CFGBuilder

namespace Ast

theorem NodeKind.mem_inWalkOrder {α : Type} {kind : NodeKind} {parts : List α} {x : α} :
    x ∈ kind.inWalkOrder parts ↔ x ∈ parts := by
  cases kind <;> simp [inWalkOrder]

theorem sound_at {visit : ℕ → Visit} (h : ∀ c, Sound (visit c)) : Sound (visitAt visit) := by
  intro b b' hb hrun
  obtain ⟨c, -, hrun⟩ := hb.visitAt hrun
  exact h c hb hrun

theorem sound_ok : Sound .ok := by
  intro b b' hb hrun
  obtain rfl := Except.ok.inj hrun
  exact .refl hb

section

variable {found found' : List Visit} {each : List (List Visit)}

theorem sound_append (h : ∀ v ∈ found, Sound v) (h' : ∀ v ∈ found', Sound v) :
    ∀ v ∈ found ++ found', Sound v := List.forall_mem_append.mpr ⟨h, h'⟩

theorem sound_flatten (h : ∀ vs ∈ each, ∀ v ∈ vs, Sound v) : ∀ v ∈ each.flatten, Sound v := by
  intro v hv
  obtain ⟨vs, hvs, hmem⟩ := List.mem_flatten.mp hv
  exact h vs hvs v hmem

theorem sound_inWalkOrder (kind : NodeKind) (h : ∀ vs ∈ each, ∀ v ∈ vs, Sound v) :
    ∀ v ∈ (kind.inWalkOrder each).flatten, Sound v :=
  sound_flatten fun vs hvs => h vs (NodeKind.mem_inWalkOrder.mp hvs)

end

mutual

/-- Every visit leaves the builder in order. -/
theorem Expr.sound : ∀ e : Expr, Sound e.visitExpr
  | .block exprs => sound_at fun _ => sound_visitBlock (sound_visitStatements exprs)
  | .unsafeBlock body => sound_at fun _ => body.sound_asBlock
  | .ifElse branches => by
    intro b b' hb hrun
    obtain ⟨c, hc, hrun⟩ := hb.visitAt hrun
    obtain ⟨hw, hopen, hvac, hne⟩ := hb.ifStart hc "if.end"
    exact (branches.ifBuilt hw hopen hvac (fun _ => hne) hrun).visited hb hc
  | .whileLoop _ body => sound_visitWhile body.sound
  | .doWhile body _ => sound_visitDoWhile body.sound
  | .forRange _ _ _ _ _ body => sound_visitCounted body.sound
  | .forEach _ _ body => sound_visitCounted body.sound
  | .compare _ arms => sound_visitCompare fun hw hlt hvac hne hrun =>
    arms.chain_visitArms hw hlt hvac hne hrun
  | .returnVoid => sound_visitReturn fun _ h => by cases h
  | .returnVal val => sound_visitReturn val.sound_runBlocks
  | .breakLoop => sound_visitBreak
  | .continueLoop => sound_visitContinue
  | .defer _ => sound_visitDefer
  | .bool _ | .name _ _ => sound_visitRegular fun _ h => by cases h
  | .node kind children =>
    sound_visitRegular (sound_inWalkOrder kind (sound_eachRunBlocks children))
  | .logical _ lhs rhs => sound_visitRegular (sound_append lhs.sound_runBlocks rhs.sound_runBlocks)
  | .varDecl _ _ inits => sound_visitRegular (sound_flatten (sound_eachRunBlocks inits))
  | .recoverProduce wrapped produce =>
    sound_visitRegular (sound_append wrapped.sound_runBlocks produce.sound_runBlocks)
  | .recoverRun wrapped _ block =>
    sound_visitRegular (sound_append wrapped.sound_runBlocks
      (List.forall_mem_singleton.mpr block.sound))
  | .tryExpr operand => sound_visitRegular operand.sound_runBlocks

theorem Expr.sound_asBlock : ∀ e : Expr, Sound e.visitAsBlock
  | .block exprs => sound_visitBlock (sound_visitStatements exprs)
  | .bool _ | .name _ _ | .node _ _ | .logical _ _ _ | .varDecl _ _ _ | .recoverProduce _ _
  | .recoverRun _ _ _ | .tryExpr _ | .unsafeBlock _ | .ifElse _ | .whileLoop _ _ | .doWhile _ _
  | .forRange _ _ _ _ _ _ | .forEach _ _ _ | .compare _ _ | .returnVoid | .returnVal _
  | .breakLoop | .continueLoop | .defer _ => sound_ok

theorem Branches.ifBuilt : ∀ (br : Branches) {b b' : CFGBuilder} {merge condBlock : ℕ}
    {first all : Bool}, b.Wired → b.OpenAt condBlock → b.Vacant merge →
    (br ≠ .noElse → condBlock ≠ merge) → br.visitIf merge first condBlock all b = .ok b' →
    IfBuilt b b' condBlock merge all
  | .noElse, b, b', _, _, _, all, hb, _, hmerge, _, hrun => by
    obtain rfl := Except.ok.inj hrun
    exact hb.ifBuilt_noElse hmerge all
  | .elseBody body, b, b', _, _, _, _, hb, hcond, hmerge, hne, hrun => by
    obtain ⟨s, m, h⟩ := hb.elseBuilt hcond hmerge (hne nofun) body.sound hrun
    exact h.built
  | .branch cond body rest, b, b', _, _, _, _, hb, hcond, hmerge, hne, hrun => by
    have hne := hne nofun
    obtain ⟨m, h⟩ := hb.branchBuilt _ _ hcond hmerge hne body.sound hrun
    refine h.ifBuilt hne (rest.ifBuilt h.chain.wired h.next_vacant.toOpenAt h.merge_vacant
      (fun hrest => ?_) h.rest)
    have hnew := h.opened.next_new (by cases rest <;> first | rfl | contradiction)
    have := hmerge.lt
    omega

theorem Arms.chain_visitArms : ∀ (arms : Arms) {b b' : CFGBuilder} {merge prev : ℕ} {real : Bool},
    b.Wired → prev < b.nextID → b.Vacant merge → prev ≠ merge →
    arms.visitArms merge prev real b = .ok b' → Chain (fun i => i < b.nextID ∧ i ≠ prev) b b'
  | .noOtherBody exhaustive, b, b', _, _, _, hb, hprev, hmerge, _, hrun => by
    obtain rfl := Except.ok.inj hrun
    split
    · exact .refl hb
    · exact (Chain.refl hb).linkFail (fun h => h.2 rfl) hprev hmerge.lt
  | .otherBody body, b, b', _, _, _, hb, hprev, hmerge, _, hrun => by
    obtain ⟨s, m, h, -⟩ := hb.otherBuilt hprev hmerge.lt body.sound hrun
    exact h.chain
  | .arm _ headers body rest, b, b', _, _, _, hb, hprev, hmerge, hne, hrun => by
    obtain ⟨last, isReal, s, m, h, -, -, hT, hrest⟩ :=
      hb.armBuilt _ hprev hmerge.lt body.sound hrun
    have hid := h.before.nextID_le
    have hlast : last < (m.linkTo _).nextID := Nat.lt_of_lt_of_le hT.last_lt h.linked.nextID_le
    have hmlt := hmerge.lt
    have hle := hT.last_eq
    rw [nextID_createBlock] at hle
    have := rest.chain_visitArms h.chain.wired hlast
      (hmerge.kept h.chain.grows ⟨hmerge.lt, hne.symm⟩) (by omega) hrest
    exact h.chain.trans (this.mono fun i hi => by
      have := h.chain.nextID_le
      omega)

theorem sound_visitStatements : ∀ l : List Expr, Sound (visitStatements l)
  | [] => sound_ok
  | e :: es => by
    intro b b' hb hrun
    obtain ⟨m, hm, hrun⟩ := bind_eq_ok.mp hrun
    have h := e.sound hb hm
    exact h.trans (sound_visitStatements es h.sane hrun)

theorem Expr.sound_runBlocks : ∀ e : Expr, ∀ v ∈ e.runBlocks, Sound v
  | .bool _ | .name _ _ | .returnVoid | .breakLoop | .continueLoop | .defer _ =>
    fun _ h => by cases h
  | .node kind children => sound_inWalkOrder kind (sound_eachRunBlocks children)
  | .logical _ lhs rhs => sound_append lhs.sound_runBlocks rhs.sound_runBlocks
  | .varDecl _ _ inits => sound_flatten (sound_eachRunBlocks inits)
  | .recoverProduce wrapped produce => sound_append wrapped.sound_runBlocks produce.sound_runBlocks
  | .recoverRun wrapped _ block =>
    sound_append wrapped.sound_runBlocks (List.forall_mem_singleton.mpr block.sound)
  | .tryExpr operand => operand.sound_runBlocks
  | .block exprs => sound_flatten (sound_eachRunBlocks exprs)
  | .unsafeBlock body => body.sound_runBlocks
  | .ifElse branches => branches.sound_runBlocks
  | .whileLoop cond body => sound_append cond.sound_runBlocks body.sound_runBlocks
  | .doWhile body cond => sound_append cond.sound_runBlocks body.sound_runBlocks
  | .forRange _ _ start stop step body =>
    sound_append (sound_append (sound_append start.sound_runBlocks stop.sound_runBlocks)
      step.sound_runBlocks) body.sound_runBlocks
  | .forEach _ iterable body => sound_append iterable.sound_runBlocks body.sound_runBlocks
  | .compare subject arms => sound_append subject.sound_runBlocks arms.sound_runBlocks
  | .returnVal val => val.sound_runBlocks

theorem Branches.sound_runBlocks : ∀ br : Branches, ∀ v ∈ br.runBlocks, Sound v
  | .noElse => fun _ h => by cases h
  | .elseBody body => body.sound_runBlocks
  | .branch cond body rest =>
    sound_append (sound_append cond.sound_runBlocks body.sound_runBlocks) rest.sound_runBlocks

theorem Arms.sound_runBlocks : ∀ arms : Arms, ∀ v ∈ arms.runBlocks, Sound v
  | .noOtherBody _ => fun _ h => by cases h
  | .otherBody body => body.sound_runBlocks
  | .arm _ headers body rest =>
    sound_append (sound_append (sound_append headers.sound_valueRunBlocks
      headers.sound_guardRunBlocks) body.sound_runBlocks) rest.sound_runBlocks

theorem Headers.sound_valueRunBlocks (hs : Headers) : ∀ v ∈ hs.valueRunBlocks, Sound v := by
  cases hs with
  | nil => exact fun _ h => by cases h
  | header val more | guarded val _ more =>
    exact sound_append val.sound_runBlocks more.sound_valueRunBlocks

theorem Headers.sound_guardRunBlocks (hs : Headers) : ∀ v ∈ hs.guardRunBlocks, Sound v := by
  cases hs with
  | nil => exact fun _ h => by cases h
  | header _ more => exact more.sound_guardRunBlocks
  | guarded _ guard more =>
    exact sound_append guard.sound_runBlocks more.sound_guardRunBlocks

theorem sound_eachRunBlocks : ∀ l : List Expr, ∀ vs ∈ eachRunBlocks l, ∀ v ∈ vs, Sound v
  | [] => fun _ h => by cases h
  | e :: es => List.forall_mem_cons.mpr ⟨e.sound_runBlocks, sound_eachRunBlocks es⟩

end

end Ast

end TurfLang
