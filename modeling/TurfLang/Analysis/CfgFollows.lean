import TurfLang.Analysis.CfgBuilderBranches
import TurfLang.Analysis.Charted

/-!
# How the graph of each statement follows its runs

From the block at which a statement is visited, each of its runs is a walk through what the visit
builds, whatever is added to the graph later.
-/

namespace TurfLang

open Ast Behaviour FlowGraph

namespace CFGBuilder

variable {b b' m : CFGBuilder} {c i t : ℕ} {stmt : Expr} {stmts : List Entry} {v : Visit}
  {found : List Visit} {G : FlowGraph Entry} {a : Behaviour Event}

/-! ### Walks through what is built -/

/-- Past what has been added to a block. -/
theorem walk_added (hle : b'.flow.Le G) (h : b'.items c = b.items c ++ stmts) :
    G.Walk (b.flow.atEnd c) stmts (b'.flow.atEnd c) := by
  have hwalk : b'.flow.Walk (c, (b.items c).length) stmts (c, (b.items c ++ stmts).length) :=
    walk_items (h.trans (List.append_nil _).symm)
  rw [← h] at hwalk
  exact hwalk.mono hle

/-- From the end of a block as it was, along an edge. -/
theorem walk_to (hle : b'.flow.Le G) (hmem : t ∈ b'.succs c) (h : b'.items c = b.items c ++ stmts) :
    G.Walk (b.flow.atEnd c) stmts (t, 0) := by
  simpa using (walk_added hle h).trans ((walk_edge (G := b'.flow) hmem).mono hle)

theorem walk_next (hle : b'.flow.Le G) (hmem : t ∈ b'.succs c) (h : b'.items c = b.items c) :
    G.Walk (b.flow.atEnd c) [] (t, 0) :=
  walk_to hle hmem (h.trans (List.append_nil _).symm)

theorem atEnd_of_items (h : b'.items c = b.items c) : b'.flow.atEnd c = b.flow.atEnd c := by
  simp only [atEnd, flow, h]

theorem atEnd_of_nil (h : b.items c = []) : b.flow.atEnd c = (c, 0) := by
  simp only [atEnd, flow, h, List.length_nil]

/-- The block at which a builder stands, and the place behind what is in it. -/
def here (b : CFGBuilder) : Option (ℕ × ℕ) := b.currentBlock.map b.flow.atEnd

theorem here_of_current (h : b.currentBlock = some c) : b.here = some (b.flow.atEnd c) := by
  rw [here, h, Option.map_some]

theorem here_of_none (h : b.currentBlock = none) : b.here = none := by rw [here, h, Option.map_none]

/-! ### Visits that follow -/

/-- The visit builds a graph that follows the program. -/
structure Charts (v : Visit) (a : Behaviour Event) : Prop where
  steady : Steady v
  follows : ∀ {b b' G c}, b.Sane → v b = .ok b' → b'.flow.Le G → b.currentBlock = some c →
    Follows graphView G (b.flow.atEnd c) b.exits b'.here a

/-- The builder's end, with an edge to a block. -/
theorem follows_linked {p : ℕ × ℕ} {ex : Outcome → Option (List Entry × ℕ)}
    (h : Follows graphView G p ex m.here a) (hle : b'.flow.Le G)
    (hback : ∀ c, m.currentBlock = some c → t ∈ b'.succs c ∧ b'.items c = m.items c) :
    Follows graphView G p ex (some (t, 0)) a := by
  refine h.andThen fun q hq => ?_
  obtain ⟨c, hc, rfl⟩ := Option.map_eq_some_iff.mp hq
  obtain ⟨hmem, hitems⟩ := hback c hc
  exact walk_next hle hmem hitems

/-- A `run` block, from the statement that evaluates it to the block behind. -/
theorem RunBlock.follows {pre : ℕ} {b₁ b₂ : CFGBuilder} (h : RunBlock b pre v b' b₁ b₂)
    (hv : Charts v a) (hle : b'.flow.Le G) (hitems : b'.items pre = b.items pre)
    (hscopes : b₁.deferScopes = b.deferScopes) :
    Follows graphView G (b.flow.atEnd pre) b.exits (some (b.nextID, 0)) a := by
  obtain ⟨r, hr, hmem, hnil⟩ := h.entry
  have hrun := hv.follows h.sane h.run (h.le.trans hle) hr
  rw [atEnd_of_nil hnil, exits_congr h.chain.frame hscopes] at hrun
  exact .before (walk_next hle hmem hitems)
    (follows_linked hrun hle h.back)

/-- The `run` blocks in front of a statement. -/
theorem follows_branchToRecoverBlocks {pre : ℕ} (hpre : b.currentBlock = some pre) (hb : b.Sane)
    (hfound : ∀ v ∈ found, Sound v) (hsteady : ∀ v ∈ found, Steady v)
    (hrun : branchToRecoverBlocks found pre b = .ok m) (hc : m.currentBlock = some c)
    (hle : m.flow.Le G) :
    G.Walk (b.flow.atEnd pre) [] (m.flow.atEnd c) ∧ ∀ v ∈ found, ∀ a, Charts v a →
      Follows graphView G (b.flow.atEnd pre) b.exits (some (m.flow.atEnd c)) a := by
  by_cases hne : found = []
  · subst hne
    rw [branchToRecoverBlocks_nil, Except.ok.injEq] at hrun
    subst hrun
    obtain rfl : pre = c := Option.some.inj (hpre.symm.trans hc)
    exact ⟨.refl _, fun _ hv => by cases hv⟩
  · obtain ⟨-, hok, hnil, hmem, hitems, -, hblocks⟩ :=
      branchToRecoverBlocks_cons hpre hb hne hfound hrun
    obtain rfl : b.nextID = c := Option.some.inj (hok.symm.trans hc)
    rw [atEnd_of_nil hnil]
    refine ⟨walk_next hle hmem hitems, fun v hv a ha => ?_⟩
    obtain ⟨b₁, b₂, hblock, hscopes⟩ := hblocks v hv
    exact hblock.follows ha hle hitems (hscopes hsteady)

/-! ### Operands -/

/-- An operand: nothing of it is seen but its `run` blocks, which leave the statement. -/
structure Evaluates (found : List Visit) (a : Behaviour Event) : Prop where
  steady : ∀ v ∈ found, Steady v
  follows : ∀ {G p q ex}, (∀ v ∈ found, ∀ a, Charts v a → Follows graphView G p ex (some q) a) →
    Follows graphView G p ex (some p) a

/-- What a statement does with its operands, up to the place where the statement stands. -/
structure Prepares (found : List Visit) (a : Behaviour Event) : Prop where
  steady : ∀ v ∈ found, Steady v
  follows : ∀ {G p q ex}, G.Walk p [] q →
    (∀ v ∈ found, ∀ a, Charts v a → Follows graphView G p ex (some q) a) →
    Follows graphView G p ex (some q) a

namespace Evaluates

variable {found' : List Visit} {a' : Behaviour Event}

theorem prepares (h : Evaluates found a) : Prepares found a where
  steady := h.steady
  follows hwalk hfound := (h.follows hfound).andThen fun _ hq => by
    cases hq
    exact hwalk

theorem mono (h : Evaluates found a) (hmem : ∀ v, v ∈ found ↔ v ∈ found') : Evaluates found' a where
  steady v hv := h.steady v ((hmem v).mpr hv)
  follows hfound := h.follows fun v hv => hfound v ((hmem v).mp hv)

theorem skip : Evaluates [] (skip : Behaviour Event) where
  steady _ hv := by cases hv
  follows _ := follows_skip

theorem seq (h : Evaluates found a) (h' : Evaluates found' a') :
    Evaluates (found ++ found') (seq a a') where
  steady := List.forall_mem_append.mpr ⟨h.steady, h'.steady⟩
  follows hfound := follows_seq
    (h.follows fun v hv => hfound v (List.mem_append_left _ hv))
    (h'.follows fun v hv => hfound v (List.mem_append_right _ hv))

theorem choice (h : Evaluates found a) (h' : Evaluates found' a') :
    Evaluates (found ++ found') (choice a a') where
  steady := List.forall_mem_append.mpr ⟨h.steady, h'.steady⟩
  follows hfound := follows_choice
    (h.follows fun v hv => hfound v (List.mem_append_left _ hv))
    (h'.follows fun v hv => hfound v (List.mem_append_right _ hv))

theorem given (c : Prop) (h : Evaluates found a) : Evaluates found (given c a) where
  steady := h.steady
  follows hfound := follows_given fun _ => h.follows hfound

/-- Nothing is seen, and nothing left. -/
theorem of_unseen (hseen : Hidden a) (hends : Within Quiet a) : Evaluates [] a where
  steady _ hv := by cases hv
  follows _ := follows_unseen hseen hends

theorem op (e : Expr) : Evaluates [] (op (.eval e)) := of_unseen (hidden_op e) (quiet_op e)

/-- A `run` block that leaves the statement. -/
theorem runBlock (hv : Charts v a) (hleaves : Leaves a) : Evaluates [v] a where
  steady := List.forall_mem_singleton.mpr hv.steady
  follows hfound := ((hfound v (List.mem_singleton_self v) a hv).none_of hleaves).of_none _

/-- Inside a statement the mark of a node is not seen. -/
theorem regular {e : Expr} (h : Evaluates found a) : Evaluates found (regular .operand e a) := by
  have hmark := h.seq skip
  rwa [List.append_nil] at hmark

/-- An operand that may be left out. -/
theorem orSkip (h : Evaluates found a) : Evaluates found (Behaviour.choice Behaviour.skip a) :=
  skip.choice h

theorem orGiven (h : Evaluates found a) (p q : Prop) :
    Evaluates found (Behaviour.choice (Behaviour.given p Behaviour.skip) (Behaviour.given q a)) :=
  (skip.given p).choice (h.given q)

/-- An operand after which the whole body may fail. -/
theorem orFails (h : Evaluates found a) :
    Evaluates found (Behaviour.seq a (Behaviour.choice Behaviour.skip (jump .fails))) := by
  have hall := h.seq (of_unseen (closed_shows.choice closed_shows.skip (hidden_jump .fails))
    (within_choice quiet_skip (within_jump (.inr (.inr rfl)))))
  rwa [List.append_nil] at hall

theorem thenOp (h : Evaluates found a) (e : Expr) :
    Evaluates found (Behaviour.seq a (Behaviour.op (.eval e))) := by
  have hop := h.seq (op e)
  rwa [List.append_nil] at hop

/-- The order in which the children of a node are visited does not matter. -/
theorem inWalkOrder {each : List (List Visit)} (kind : NodeKind) (h : Evaluates each.flatten a) :
    Evaluates (kind.inWalkOrder each).flatten a :=
  h.mono fun v => by simp only [List.mem_flatten, NodeKind.mem_inWalkOrder]

end Evaluates

/-- The `run` block of a call without a value may come to its end. -/
theorem Prepares.runBlock {a' : Behaviour Event} (h : Evaluates found a) (hv : Charts v a') :
    Prepares (found ++ [v]) (seq a (choice skip a')) where
  steady := List.forall_mem_append.mpr ⟨h.steady, List.forall_mem_singleton.mpr hv.steady⟩
  follows {G p q ex} hwalk hfound := by
    have hend : ∀ r ∈ some p, G.Walk r [] q := fun r hr => by
      cases hr
      exact hwalk
    exact follows_seq (h.follows fun w hw => hfound w (List.mem_append_left _ hw))
      (follows_choice (follows_skip.andThen hend) (hfound v (by simp) a' hv))

/-- Something of which nothing is seen comes first. -/
theorem Charts.after {test : Behaviour Event} (h : Charts v a) (hseen : Hidden test)
    (hends : Within Quiet test) : Charts v (seq test a) where
  steady := h.steady
  follows hb hrun hle hc := follows_seq (follows_unseen hseen hends) (h.follows hb hrun hle hc)

/-! ### Statements -/

theorem follows_ran {p q : ℕ × ℕ} {ex : Outcome → Option (List Entry × ℕ)} {e : Expr}
    (h : G.Walk p [.statement e] q) :
    Follows graphView G p ex (some q) (Mode.statement.mark (.ran e)) :=
  follows_event (V := graphView) rfl h

theorem follows_passed {p q : ℕ × ℕ} {ex : Outcome → Option (List Entry × ℕ)} {e : Expr}
    (h : G.Walk p [.statement e] q) :
    Follows graphView G p ex (some q) (Mode.statement.mark (.passed e)) :=
  follows_event (V := graphView) rfl h

theorem items_addStatement_self (hlt : c < b.nextID) (hjump : stmt.isJump = false) :
    (b.addStatement c stmt).items c = b.items c ++ [.statement stmt] := by
  rw [items_addStatement hlt, if_pos rfl, statementEntries_singleton hjump]

/-- What comes before the statement itself, and the statement. -/
theorem follows_statement {pre : ℕ} (ha : Prepares found a) (hb : b.Sane)
    (hfound : ∀ v ∈ found, Sound v) (hjump : stmt.isJump = false) (hpre : b.currentBlock = some pre)
    (hrun : branchToRecoverBlocks found pre b = .ok m) (hvis : Visited b m)
    (hc : m.currentBlock = some c) (hle : (m.addStatement c stmt).flow.Le G) :
    Follows graphView G (b.flow.atEnd pre) b.exits (some ((m.addStatement c stmt).flow.atEnd c))
      (regular .statement stmt a) := by
  obtain ⟨hlt, hnil, -⟩ := hvis.sane.current c hc
  have hadd : m.flow.Le (m.addStatement c stmt).flow :=
    ((Chain.refl (P := fun _ => False) hvis.sane.toWired).addStatement id hnil stmt).grows.le
  obtain ⟨hwalk, hblocks⟩ :=
    follows_branchToRecoverBlocks hpre hb hfound ha.steady hrun hc (hadd.trans hle)
  exact follows_seq (ha.follows hwalk hblocks)
    (follows_ran (walk_added hle (items_addStatement_self hlt hjump)))

theorem charts_visitRegular (ha : Prepares found a) (hfound : ∀ v ∈ found, Sound v)
    (hjump : stmt.isJump = false) :
    Charts (visitRegular stmt found) (regular .statement stmt a) where
  steady b b' hb hrun := by
    obtain ⟨pre, m, c, hpre, hm, -, -, rfl⟩ := visitRegular_eq_ok hb hfound hrun
    exact (visited_branchToRecoverBlocks hpre hb hfound hm).2.2 ha.steady
  follows hb hrun hle hcur := by
    obtain ⟨pre, m, c, hpre, hm, hvis, hc, rfl⟩ := visitRegular_eq_ok hb hfound hrun
    obtain rfl := Option.some.inj (hcur.symm.trans hpre)
    rw [here_of_current (b := m.addStatement c stmt) hc]
    exact follows_statement ha hb hfound hjump hpre hm hvis hc hle

theorem deferScopes_terminate (kind : TerminatorKind) (t : ℕ) :
    (b.terminate kind t).deferScopes = b.deferScopes := by
  rw [terminate, atCurrent]
  cases b.currentBlock <;> rfl

/-- What a jump leaves behind: what stood in its block, and the edge. -/
theorem terminate_flow (b : CFGBuilder) (kind : TerminatorKind) (t : ℕ)
    (hc : b.currentBlock = some c) (hlt : c < b.nextID) :
    (b.terminate kind t).currentBlock = none ∧ t ∈ (b.terminate kind t).succs c ∧
      (b.terminate kind t).items c = b.items c := by
  rw [terminate_of_current hc]
  refine ⟨rfl, ?_, ?_⟩
  · show t ∈ ((b.setTerminator c kind).addEdge c t).succs c
    rw [succs_addEdge (by simpa using hlt), if_pos rfl]
    simp
  · show ((b.setTerminator c kind).addEdge c t).items c = b.items c
    rw [items_addEdge, items_setTerminator]

theorem charts_visitReturn (ha : Prepares found a) (hfound : ∀ v ∈ found, Sound v)
    (hjump : stmt.isJump = false) :
    Charts (visitReturn stmt found) (seq (regular .statement stmt a) (jump .returns)) where
  steady b b' hb hrun := by
    obtain ⟨pre, m, c, hpre, hm, -, -, rfl⟩ := visitReturn_eq_ok hb hfound hrun
    rw [deferScopes_terminate]
    exact (visited_branchToRecoverBlocks hpre hb hfound hm).2.2 ha.steady
  follows {b b' G _} hb hrun hle hcur := by
    obtain ⟨pre, m, c, hpre, hm, hvis, hc, rfl⟩ := visitReturn_eq_ok hb hfound hrun
    obtain rfl := Option.some.inj (hcur.symm.trans hpre)
    have hlt := (hvis.sane.current c hc).1
    have hscopes := (visited_branchToRecoverBlocks hpre hb hfound hm).2.2 ha.steady
    set s := m.addStatement c stmt with hs
    set d := s.modifyBlock c (·.addDeferredRuns (m.deferredRuns 0)) with hd
    have hsvis : Visited b s := hvis.addStatement hc stmt
    have hdvis : Visited b d := hsvis.addDeferredRuns hc _
    obtain ⟨-, hmem, hitems⟩ := terminate_flow d .returns m.exitBlock
      (show d.currentBlock = some c from hc) (by simpa [hd, hs] using hlt)
    have hsd : s.flow.Le d.flow :=
      ((Chain.refl (P := fun _ => False) hsvis.sane.toWired).addDeferredRuns
      id (hsvis.sane.current c hc).2.1 (m.deferredRuns 0)).grows.le
    have hdt : d.flow.Le (d.terminate .returns m.exitBlock).flow :=
      ((Visited.refl hdvis.sane).terminate (c := c) hc .returns (t := m.exitBlock)
        (by simpa [hd, hs] using hvis.sane.exit_lt)).chain.grows.le
    have hstmt := follows_statement ha hb hfound hjump hpre hm hvis hc ((hsd.trans hdt).trans hle)
    refine follows_seq hstmt (follows_jump (.inr (.inr rfl))
      (l := deferredEntries (b.deferredRuns 0)) (j := b.exitBlock) rfl ?_)
    rw [← hvis.chain.frame.exitBlock]
    refine walk_to hle hmem (hitems.trans ?_)
    rw [hd, items_addDeferredRuns (by simpa [hs] using hlt), if_pos rfl, deferredRuns, deferredRuns,
      hscopes]

/-- A jump to a loop. -/
theorem follows_jumpTo {kind : TerminatorKind} {e : Expr} {o : Outcome} {fin : Option (ℕ × ℕ)}
    (hb : b.Sane) (hc : b.currentBlock = some c) (hjump : e.isJump = true)
    (ho : o = .breaks ∨ o = .continues ∨ o = .returns)
    (hexit : b.exits o = some (deferredEntries (b.deferredRuns b.loopDeferDepth), t))
    (hle : (b.jumpTo kind e c t).flow.Le G) :
    Follows graphView G (b.flow.atEnd c) b.exits fin (jump o) := by
  have hlt := (hb.current c hc).1
  set d := (b.modifyBlock c (·.addDeferredRuns (b.deferredRuns b.loopDeferDepth))).addStatement c e
    with hd
  obtain ⟨-, hmem, hitems⟩ := terminate_flow d kind t (show d.currentBlock = some c from hc)
    (by simpa [hd] using hlt)
  refine follows_jump ho hexit (walk_to hle hmem (hitems.trans ?_))
  rw [hd, items_addStatement (by simpa using hlt), if_pos rfl, items_addDeferredRuns hlt,
    if_pos rfl]
  simp [statementEntries, visible, Entry.expr, hjump]

theorem charts_visitBreak : Charts visitBreak (jump .breaks) where
  steady b b' hb hrun := by
    obtain ⟨c, t, -, -, rfl⟩ := visitBreak_eq_ok hb hrun
    exact deferScopes_terminate _ _
  follows hb hrun hle hcur := by
    obtain ⟨c, t, hc, ht, rfl⟩ := visitBreak_eq_ok hb hrun
    obtain rfl := Option.some.inj (hcur.symm.trans hc)
    exact follows_jumpTo hb hc rfl (.inl rfl) (by simp [exits, ht]) hle

theorem charts_visitContinue : Charts visitContinue (jump .continues) where
  steady b b' hb hrun := by
    obtain ⟨c, t, -, -, rfl⟩ := visitContinue_eq_ok hb hrun
    exact deferScopes_terminate _ _
  follows hb hrun hle hcur := by
    obtain ⟨c, t, hc, ht, rfl⟩ := visitContinue_eq_ok hb hrun
    obtain rfl := Option.some.inj (hcur.symm.trans hc)
    exact follows_jumpTo hb hc rfl (.inr (.inl rfl)) (by simp [exits, ht]) hle

/-! ### Blocks -/

/-- A visit of the rest of a block: what its scope has deferred so far is done at its ends. -/
structure ChartsItems (v : Visit) (a : Behaviour Event) : Prop where
  follows : ∀ {b b' G c f fs d}, b.Sane → v b = .ok b' → b'.endScope.flow.Le G →
    b.currentBlock = some c → b.deferScopes = f :: fs → b.loopDeferDepth ≤ fs.length →
    CleansUp graphView d (deferredEntries f) →
    Follows graphView G (b.flow.atEnd c) b.popScope.exits b'.endScope.here (cleanup a d)

theorem exits_popScope {f : List Expr} {fs : List (List Expr)} (h : b.deferScopes = f :: fs)
    (hdepth : b.loopDeferDepth ≤ fs.length) :
    b.exits = passing (deferredEntries f) b.popScope.exits := by
  have hruns : ∀ depth, depth ≤ fs.length →
      b.deferredRuns depth = f ++ b.popScope.deferredRuns depth := fun depth hle => by
    rw [deferredRuns, deferredRuns, popScope, h, List.length_cons, List.tail_cons,
      Nat.succ_sub hle, List.take_succ_cons, List.flatten_cons]
  have hloop : b.popScope.loopDeferDepth = b.loopDeferDepth := rfl
  funext o
  cases o with
  | returns => simp [exits, passing, hruns 0 (Nat.zero_le _), popScope]
  | breaks | continues =>
    simp only [exits, passing, hruns _ hdepth, deferredEntries_append, hloop, Option.map_map]
    rfl
  | _ => rfl

/-- The deferred statements at the end of a block. -/
theorem follows_endScope {f : List Expr} {fs : List (List Expr)} {d : Behaviour Event}
    {ex : Outcome → Option (List Entry × ℕ)} (hb : b.Sane) (hc : b.currentBlock = some c)
    (h : b.deferScopes = f :: fs) (hd : CleansUp graphView d (deferredEntries f))
    (hle : b.endScope.flow.Le G) :
    Follows graphView G (b.flow.atEnd c) ex b.endScope.here d := by
  have hend : b.endScope = b.modifyBlock c (·.addDeferredRuns f) := by
    rw [endScope, hc, Option.map_some, Option.getD_some, deferredRuns, h]
    simp
  rw [hend] at hle ⊢
  rw [here_of_current (b := b.modifyBlock c _) hc]
  refine follows_cleansUp hd (walk_added hle ?_)
  rw [items_addDeferredRuns (hb.current c hc).1, if_pos rfl]

theorem chartsItems_nil : ChartsItems .ok skip where
  follows hb hrun hle hc hscopes _ hd := by
    obtain rfl := Except.ok.inj hrun
    rw [cleanup_skip]
    exact follows_endScope hb hc hscopes hd hle

theorem endScope_le (h : b.Sane) : b.flow.Le b.endScope.flow :=
  (Visited.refl h).endScope.chain.grows.le

theorem ChartsItems.cons {v' : Visit} {a' : Behaviour Event} (hv : Charts v a)
    (hv' : ChartsItems v' a') (hsound : Sound v) (hsound' : Sound v') :
    ChartsItems (fun b => do v' (← v b)) (seq a a') where
  follows {b b' G c f fs d} hb hrun hle hc hscopes hdepth hd := by
    obtain ⟨m, hm, hrun⟩ := bind_eq_ok.mp hrun
    have hvis := hsound hb hm
    have hvis' := hsound' hvis.sane hrun
    have hmle : m.flow.Le G := (hvis'.chain.grows.le.trans (endScope_le hvis'.sane)).trans hle
    have hfirst := hv.follows hb hm hmle hc
    rw [exits_popScope hscopes hdepth] at hfirst
    have hfirst := follows_jumps hd hfirst
    have hsame := (hv.steady hb hm).trans hscopes
    rw [cleanup, onExit_seq_last]
    cases hmc : m.currentBlock with
    | none =>
      rw [here_of_none hmc] at hfirst
      exact follows_seq_of_none hfirst
    | some c' =>
      rw [here_of_current hmc] at hfirst
      have hframe := hvis.chain.frame
      have hpop : m.popScope.exits = b.popScope.exits := by
        refine exits_congr ⟨hframe.exitBlock, hframe.loopBreakTarget, hframe.loopContinueTarget,
          hframe.loopDeferDepth, congrArg List.tail hframe.scopes_tail, ?_⟩ hframe.scopes_tail
        exact congrArg List.length hframe.scopes_tail
      have hrest := hv'.follows hvis.sane hrun hle hmc hsame
        (hframe.loopDeferDepth.symm ▸ hdepth) hd
      rw [hpop] at hrest
      exact follows_seq hfirst hrest

/-- A deferred statement and those that were deferred before it. -/
theorem cleansUp_deferred {e : Expr} {f : List Expr} {d : Behaviour Event}
    (he : e.placed false false = true) (hd : CleansUp graphView d (deferredEntries f)) :
    CleansUp graphView (seq (seq (e.run .hidden) (seq (event (.finished e))
      (event (.deferred e)))) d)
      (deferredEntries (e :: f)) := by
  have hjump : e.isJump = false := by cases e <;> first | rfl | cases he
  have hshown : ∀ t, seq (e.run .hidden) (seq (event (.finished e)) (event (.deferred e))) t
      .normal → graphView.trace t = [.deferredRun e] := by
    rintro t (⟨-, hne⟩ | ⟨t₁, t₂, h₁, ⟨-, hne⟩ | ⟨_, _, ⟨rfl, -⟩, ⟨rfl, -⟩, rfl⟩, rfl⟩)
    · exact absurd rfl hne
    · exact absurd rfl hne
    · have hnil : graphView.trace t₁ = [] :=
        List.filterMap_eq_nil_iff.mpr fun ev hev => (e.hidden_run t₁ _ h₁ ev hev).1
      rw [View.trace_append, hnil]
      rfl
  refine ⟨within_seq (within_deferred (m := .statement) (Expr.run_within he)) hd.ends, ?_, ?_⟩
  · rintro t (⟨-, hne⟩ | ⟨t₁, t₂, h₁, h₂, rfl⟩)
    · exact absurd rfl hne
    · rw [View.trace_append, hshown t₁ h₁, hd.trace t₂ h₂, deferredEntries_cons hjump,
        List.singleton_append]
  · have hlate : Shows Event.Late (e.run .hidden) := fun t o h ev hev =>
      (e.hidden_run t o h ev hev).2
    exact closed_shows.seq (closed_shows.seq hlate (closed_shows.seq
      (shows_event (Event.unseen_finished e).2) (shows_event (Event.late_deferred e)))) hd.late

/-- A `defer` is recorded in its block, and what it defers in its scope. -/
theorem ChartsItems.defer {e : Expr} (he : e.placed false false = true) (hv : ChartsItems v a)
    (hsound : Sound v) :
    ChartsItems (fun b => do v (← visitDefer e b)) (seq (event (.reached e))
      (seq (event (.ran (.defer e)))
        (cleanup a (seq (e.run .hidden) (seq (event (.finished e)) (event (.deferred e))))))) where
  follows {b b' G c f fs d} hb hrun hle hc hscopes hdepth hd := by
    obtain ⟨m, hm, hrun⟩ := bind_eq_ok.mp hrun
    have hvis := sound_visitDefer hb hm
    have hvis' := hsound hvis.sane hrun
    have hmle : m.flow.Le G := (hvis'.chain.grows.le.trans (endScope_le hvis'.sane)).trans hle
    obtain ⟨c', hc', hm⟩ := hb.visitAt hm
    obtain rfl := Option.some.inj (hc.symm.trans hc')
    rw [Except.ok.injEq, hscopes, pushDeferred] at hm
    have htail : m.deferScopes.tail = b.deferScopes.tail := by
      subst hm
      rw [hscopes]
      rfl
    have hpop : m.popScope.exits = b.popScope.exits := by
      subst hm
      exact exits_congr ⟨rfl, rfl, rfl, rfl, congrArg List.tail htail, congrArg List.length htail⟩
        htail
    have hevent : ∀ ev : Event, onExit (jumps (always d)) (event ev) = event ev := fun ev =>
      onExit_eq_self fun _ _ h => h.2 ▸ rfl
    have hitems : m.items c = b.items c ++ [.statement (.defer e)] := by
      subst hm
      exact items_addStatement_self (hb.current c hc).1 rfl
    have hcur : m.currentBlock = some c := by
      subst hm
      exact hc
    have hpushed : m.deferScopes = (e :: f) :: fs := by
      subst hm
      rfl
    have hrest := hv.follows hvis.sane hrun hle hcur hpushed (by subst hm; exact hdepth)
      (cleansUp_deferred he hd)
    rw [cleanup, onExit_seq_last, onExit_seq_last, hevent, hevent]
    have hends := within_deferred (m := .statement) (Expr.run_within (m := .hidden) he)
    have hinner := cleanup_cleanup hends a d
    rw [cleanup] at hinner
    refine follows_seq (follows_unseen ?_ ?_)
      (follows_seq (follows_ran (walk_added hmle hitems)) ?_)
    · exact shows_event (Event.unseen_reached e)
    · exact within_event (.inl rfl)
    · rw [← hpop]
      exact hinner ▸ hrest

theorem charts_visitBlock (hv : ChartsItems v a) (hsound : Sound v) : Charts (visitBlock v) a where
  steady := steady_visitBlock hsound
  follows {b b' G c} hb hrun hle hc := by
    obtain ⟨m, hm, -, rfl⟩ := visitBlock_eq_ok hb hsound hrun
    have hnone : CleansUp graphView skip (deferredEntries []) :=
      ⟨within_skip (.inl rfl), by rintro t ⟨rfl, -⟩; rfl, shows_jump _⟩
    have h := hv.follows hb.pushScope hm (G := G) hle hc rfl hb.depth_le hnone
    rw [cleanup_by_skip] at h
    exact h

/-! ### Loops -/

theorem LoopBuilt.follows_body {first body k x : ℕ} {s : CFGBuilder}
    (h : LoopBuilt b b' v c first body k x s m) (hv : Charts v a) (hle : b'.flow.Le G) :
    Follows graphView G (body, 0) (FlowGraph.inLoop b.exits x k) (some (k, 0)) a := by
  have hrun := hv.follows h.sane h.run (h.le.trans hle) h.body_current
  rw [atEnd_of_nil h.body_items, h.exits] at hrun
  exact follows_linked hrun hle h.back

theorem LoopBuilt.here {first body k x : ℕ} {s : CFGBuilder}
    (h : LoopBuilt b b' v c first body k x s m) : b'.here = some (x, 0) := by
  rw [here_of_current h.exit_current, atEnd_of_nil h.exit_items]

theorem LoopBuilt.walk_entry {first body k x : ℕ} {s : CFGBuilder}
    (h : LoopBuilt b b' v c first body k x s m) (hle : b'.flow.Le G) :
    G.Walk (b.flow.atEnd c) [] (first, 0) :=
  walk_next hle h.entry_mem h.entry_items

/-- A loop keeps the scopes if its body does. -/
theorem LoopBuilt.steady {first body k x : ℕ} {s : CFGBuilder}
    (h : LoopBuilt b b' v c first body k x s m) (hv : Steady v) :
    b'.deferScopes = b.deferScopes :=
  h.scopes.trans ((hv h.sane h.run).trans h.scopes_body)

/-- From the start of a block, past what is in it. -/
theorem walk_block (l₁ l₃ : List Entry) {l₂ : List Entry} (hle : b'.flow.Le G)
    (h : b'.items i = l₁ ++ l₂ ++ l₃) : G.Walk (i, l₁.length) l₂ (i, (l₁ ++ l₂).length) :=
  (walk_items (G := b'.flow) h).mono hle

/-- From the end of a block. -/
theorem walk_edge_at (hle : b'.flow.Le G) (hmem : t ∈ b'.succs i) {n : ℕ}
    (h : (b'.items i).length = n) : G.Walk (i, n) [] (t, 0) := by
  subst h
  exact (walk_edge (G := b'.flow) hmem).mono hle

/-- A condition: nothing is seen of its evaluation, then the condition itself. -/
theorem follows_condition {p q : ℕ × ℕ} {ex : Outcome → Option (List Entry × ℕ)} {e : Expr}
    (hseen : Hidden a) (hends : Within Quiet a) (h : G.Walk p [.statement e] q) :
    Follows graphView G p ex (some q) (seq a (Mode.statement.mark (.ran e))) :=
  follows_seq (follows_unseen hseen hends) (follows_ran h)

section

variable {cond : Expr} {test : Behaviour Event}

theorem charts_visitWhile (hv : Charts v a) (hsound : Sound v) (hjump : cond.isJump = false)
    (hseen : Hidden test) (hends : Within Quiet test) :
    Charts (visitWhile cond v)
      (Loop (whileParts cond (seq test (Mode.statement.mark (.ran cond))) a)) where
  steady b b' hb hrun := by
    obtain ⟨_, _, _, _, _, _, h, -⟩ := visitWhile_eq_ok hb hsound hrun
    exact h.steady hv.steady
  follows {b b' G _} hb hrun hle hcur := by
    obtain ⟨c, body, k, x, s, m, h, hitems, hbody, hexit⟩ := visitWhile_eq_ok hb hsound hrun
    obtain rfl := Option.some.inj (hcur.symm.trans h.current)
    rw [statementEntries_singleton hjump] at hitems
    have hlen : (b'.items k).length = 1 := by rw [hitems]; rfl
    rw [h.here]
    refine .before (h.walk_entry hle) (follows_loop (k, 1) (k, 0) k ?_ ?_ ?_
      ?_ ?_ ?_)
    · exact follows_condition hseen hends (walk_block [] [] hle (by simpa using hitems))
    · exact fun _ => .before (walk_edge_at hle hbody hlen) (h.follows_body hv hle)
    · exact follows_skip
    · exact fun hleave => walk_edge_at hle (hexit hleave) hlen
    · exact False.elim
    · exact fun _ => .refl _

theorem charts_visitDoWhile (hv : Charts v a) (hsound : Sound v) (hjump : cond.isJump = false)
    (hseen : Hidden test) (hends : Within Quiet test) :
    Charts (visitDoWhile v cond)
      (Loop (doWhileParts cond a (seq test (Mode.statement.mark (.ran cond))))) where
  steady b b' hb hrun := by
    obtain ⟨_, _, _, _, _, _, h, -⟩ := visitDoWhile_eq_ok hb hsound hrun
    exact h.steady hv.steady
  follows {b b' G _} hb hrun hle hcur := by
    obtain ⟨c, body, k, x, s, m, h, hitems, hbody, hexit⟩ := visitDoWhile_eq_ok hb hsound hrun
    obtain rfl := Option.some.inj (hcur.symm.trans h.current)
    rw [statementEntries_singleton hjump] at hitems
    have hlen : (b'.items k).length = 1 := by rw [hitems]; rfl
    rw [h.here]
    refine .before (h.walk_entry hle) (follows_loop (body, 0) (k, 1) k ?_ ?_
      ?_ ?_ ?_ ?_)
    · exact follows_skip
    · exact fun _ => h.follows_body hv hle
    · exact follows_condition hseen hends (walk_block [] [] hle (by simpa using hitems))
    · exact False.elim
    · exact fun hstop => walk_edge_at hle (hexit hstop) hlen
    · exact fun _ => walk_edge_at hle hbody hlen

end

/-- The loops over a range and over elements: the condition block, the body and the step. -/
theorem charts_visitCounted {header : List Expr} (names : String × String × String × String)
    {test step : Behaviour Event} (hv : Charts v a) (hsound : Sound v)
    (htest : ∀ {G : FlowGraph Entry} {p q ex}, G.Walk p (statementEntries header) q →
      Follows graphView G p ex (some q) test) (hseen : Hidden step) (hends : Within Quiet step) :
    Charts (visitCounted header names v) (Loop (forParts test a step)) where
  steady b b' hb hrun := by
    obtain ⟨_, _, _, _, _, _, _, h, -⟩ := visitCounted_eq_ok hb hsound hrun
    exact h.steady hv.steady
  follows {b b' G _} hb hrun hle hcur := by
    obtain ⟨c, first, body, k, x, s, m, h, hitems, hbody, hexit, hback, hnil⟩ :=
      visitCounted_eq_ok hb hsound hrun
    obtain rfl := Option.some.inj (hcur.symm.trans h.current)
    have hlen : (b'.items first).length = (statementEntries header).length := by rw [hitems]
    rw [h.here]
    refine .before (h.walk_entry hle) (follows_loop (first, (statementEntries header).length)
      (k, 0) k ?_ ?_ ?_ ?_ ?_ ?_)
    · exact htest (walk_block [] [] hle (by simpa using hitems))
    · exact fun _ => .before (walk_edge_at hle hbody hlen) (h.follows_body hv hle)
    · exact follows_unseen hseen hends
    · exact fun _ => walk_edge_at hle hexit hlen
    · exact False.elim
    · exact fun _ => walk_edge_at hle hback (by rw [hnil]; rfl)

/-! ### Branches -/

theorem ElseBuilt.follows {condBlock merge : ℕ} {all : Bool} {s : CFGBuilder}
    (h : ElseBuilt b b' v condBlock merge all s m) (hv : Charts v a) (hle : b'.flow.Le G) :
    Follows graphView G (b.flow.atEnd condBlock) b.exits b'.here a := by
  obtain rfl := h.start
  have hrun := hv.follows h.sane h.run (h.le.trans hle) (c := condBlock) rfl
  cases hc : m.currentBlock with
  | none =>
    rw [here_of_none hc] at hrun
    exact hrun.of_none _
  | some c =>
    rw [here_of_current (h.back c hc).2.2, atEnd_of_nil h.built.vacant.items]
    refine follows_linked hrun hle fun c hc => ?_
    obtain ⟨hmem, hitems, -⟩ := h.back c hc
    exact ⟨hmem, hitems⟩

/-- A branch: past its condition to its body, or to what comes after it. -/
theorem BranchBuilt.follows {rest : ℕ → Bool → Visit} {last : Bool} {condBlock merge next : ℕ}
    {all : Bool} {s : CFGBuilder} {cond : Expr} {test a' : Behaviour Event} {p q : Prop}
    (h : BranchBuilt b b' v rest cond last condBlock merge all next s m) (hmerge : merge < b.nextID)
    (hrest : IfBuilt (m.linkTo merge) b' next merge (all && m.currentBlock.isNone))
    (hv : Charts v a) (hle : b'.flow.Le G) (hjump : cond.isJump = false) (hseen : Hidden test)
    (hends : Within Quiet test)
    (ha' : Follows graphView G ((m.linkTo merge).flow.atEnd next) b.exits b'.here a') :
    Follows graphView G (b.flow.atEnd condBlock) b.exits b'.here
      (seq test (seq (Mode.statement.mark (.ran cond)) (choice (given p a) (given q a')))) := by
  have hmid := h.opened.chain.nextID_le
  have hlinked : (m.linkTo merge).flow.Le G := hrest.chain.grows.le.trans hle
  have hm : m.flow.Le G := (h.visited.linkTo_le (Nat.lt_of_lt_of_le
    (Nat.lt_of_lt_of_le hmerge hmid) h.visited.chain.nextID_le)).trans hlinked
  have hs : s.flow.Le G := h.visited.chain.grows.le.trans hm
  have hitems : s.items condBlock = b.items condBlock ++ [.statement cond] := by
    rw [h.opened.items, statementEntries_singleton hjump]
  have hto : ∀ t, t ∈ s.succs condBlock → G.Walk (s.flow.atEnd condBlock) [] (t, 0) := fun t ht =>
    walk_next hs ht rfl
  have hnext : (m.linkTo merge).flow.atEnd next = (next, 0) := atEnd_of_nil h.next_vacant.items
  rw [hnext] at ha'
  refine follows_seq (follows_unseen hseen hends)
    (follows_seq (follows_ran (walk_added hs hitems)) (follows_choice ?_ ?_))
  · refine follows_given fun _ => .before (hto _ h.opened.then_mem) ?_
    have hrun := hv.follows h.sane h.run hm h.opened.current
    rw [atEnd_of_nil h.opened.vacant.items, exits_congr h.opened.chain.frame h.opened.scopes]
      at hrun
    cases hc : m.currentBlock with
    | none =>
      rw [here_of_none hc] at hrun
      exact hrun.of_none _
    | some c =>
      have hstays : b'.currentBlock = some merge := hrest.current_of (by simp [hc])
      rw [here_of_current hstays, atEnd_of_nil hrest.vacant.items]
      exact follows_linked hrun hlinked fun c hc =>
        ⟨h.visited.sane.mem_succs_linkTo hc merge, congrFun (items_linkTo merge) c⟩
  · exact follows_given fun _ => .before (hto _ h.opened.next_mem) ha'

/-! ### Arms -/

theorem ArmBuilt.follows {prev merge : ℕ} {s : CFGBuilder} (h : ArmBuilt b b' v prev merge t s m)
    (hv : Charts v a) (hmerge : merge < b.nextID) (hle : b'.flow.Le G)
    (hscopes : s.deferScopes = b.deferScopes) :
    Follows graphView G (t, 0) b.exits (some (merge, 0)) a := by
  obtain rfl := h.eq
  have hid := h.before.nextID_le
  have hm : m.flow.Le G := (h.visited.linkTo_le (Nat.lt_of_lt_of_le
    (Nat.lt_of_lt_of_le hmerge hid) h.visited.chain.nextID_le)).trans hle
  have hrun := hv.follows h.sane h.run hm h.current
  rw [atEnd_of_nil h.items, exits_congr h.before.frame hscopes] at hrun
  exact follows_linked hrun hle fun c hc =>
    ⟨h.visited.sane.mem_succs_linkTo hc merge, congrFun (items_linkTo merge) c⟩

section

variable {arm prev : ℕ} {real : Bool} {val guard : Expr} {body rest : Behaviour Event}
  {ex : Outcome → Option (List Entry × ℕ)} {fin : Option (ℕ × ℕ)}

/-- From the block at which the test before failed to the test. -/
theorem TestBuilt.walk {exprs : List Expr} (h : TestBuilt b arm prev exprs b')
    (hle : b'.flow.Le G) :
    G.Walk (b.flow.atEnd prev) [] (b.nextID, 0) :=
  walk_next hle h.test_mem h.prev_items

theorem TestBuilt.follows_header (h : TestBuilt b arm prev [val] b') (hle : b'.flow.Le G)
    (hval : val.operand = true) (hruns : val.runBlocks = [])
    (hbody : Follows graphView G (arm, 0) ex fin body)
    (hrest : Follows graphView G (b'.flow.atEnd b.nextID) ex fin rest) :
    Follows graphView G (b.flow.atEnd prev) ex fin
      (seq (val.run .hidden) (seq (Mode.statement.mark (.ran val)) (choice body rest))) := by
  have hitems : b'.items b.nextID = [.statement val] := by
    rw [h.items, statementEntries_singleton (Expr.isJump_eq_false_of_operand hval)]
  have hend : b'.flow.atEnd b.nextID = (b.nextID, 1) := by simp only [atEnd, flow, hitems]; rfl
  rw [hend] at hrest
  refine follows_seq (follows_unseen val.hidden_run (Expr.quiet_run hval hruns))
    (.before (h.walk hle) (follows_seq (follows_ran
      (walk_block [] [] hle (by simpa using hitems))) (follows_choice ?_ hrest)))
  exact .before (walk_edge_at hle h.arm_mem (by rw [hitems]; rfl)) hbody

theorem TestBuilt.follows_guarded (h : TestBuilt b arm prev [val, guard] b') (hle : b'.flow.Le G)
    (hval : val.operand = true) (hruns : val.runBlocks = []) (hguard : guard.operand = true)
    (hguards : guard.runBlocks = []) (hbody : Follows graphView G (arm, 0) ex fin body)
    (hrest : Follows graphView G (b'.flow.atEnd b.nextID) ex fin rest) {p q : Prop} :
    Follows graphView G (b.flow.atEnd prev) ex fin
      (seq (val.run .hidden) (seq (Mode.statement.mark (.ran val))
        (choice (seq (Mode.statement.mark (.passed guard)) rest)
          (seq (guard.run .hidden) (seq (Mode.statement.mark (.ran guard))
            (choice (given p body) (given q rest))))))) := by
  have hitems : b'.items b.nextID = [.statement val, .statement guard] := by
    rw [h.items, statementEntries_cons (Expr.isJump_eq_false_of_operand hval),
      statementEntries_singleton (Expr.isJump_eq_false_of_operand hguard)]
  have hend : b'.flow.atEnd b.nextID = (b.nextID, 2) := by simp only [atEnd, flow, hitems]; rfl
  rw [hend] at hrest
  have hsecond : G.Walk (b.nextID, 1) [.statement guard] (b.nextID, 2) :=
    walk_block [.statement val] [] hle (by simpa using hitems)
  refine follows_seq (follows_unseen val.hidden_run (Expr.quiet_run hval hruns))
    (.before (h.walk hle) (follows_seq (follows_ran
      (walk_block [] [.statement guard] hle (by simpa using hitems))) (follows_choice ?_ ?_)))
  · exact follows_seq (follows_passed hsecond) hrest
  · refine follows_seq (follows_unseen guard.hidden_run (Expr.quiet_run hguard hguards))
      (follows_seq (follows_ran hsecond) (follows_choice ?_ (follows_given fun _ => hrest)))
    exact follows_given fun _ => .before (walk_edge_at hle h.arm_mem (by rw [hitems]; rfl)) hbody

theorem follows_headers : ∀ {hs : Headers} (real : Bool) {b : CFGBuilder} {prev : ℕ},
    hs.charted = true → b.Wired → prev < b.nextID → arm < b.nextID →
    (hs.visitTests arm prev real b).2.2.flow.Le G →
    Follows graphView G (arm, 0) ex fin body →
    Follows graphView G
      ((hs.visitTests arm prev real b).2.2.flow.atEnd (hs.visitTests arm prev real b).1) ex fin
      rest → Follows graphView G (b.flow.atEnd prev) ex fin (hs.run .statement body rest)
  | .nil, _, _, _, _, _, _, _, _, _, hrest => hrest
  | .header val more, real, b, prev, hcharted, hb, hprev, harm, hle, hbody, hrest => by
    simp only [Headers.charted, Bool.and_eq_true, List.isEmpty_iff] at hcharted
    have h : TestBuilt b arm prev [val] (b.addTest arm prev real [val]) := hb.addTest hprev harm
    have hid := h.nextID_eq
    have hmore : (b.addTest arm prev real [val]).flow.Le G :=
      (h.chain.wired.visitTests arm more true (show b.nextID < _ by omega)
        (by omega)).chain.grows.le.trans hle
    exact h.follows_header hmore hcharted.1.1 hcharted.1.2 hbody
      (follows_headers true hcharted.2 h.chain.wired (by omega) (by omega) hle hbody hrest)
  | .guarded val guard more, real, b, prev, hcharted, hb, hprev, harm, hle, hbody, hrest => by
    simp only [Headers.charted, Bool.and_eq_true, List.isEmpty_iff] at hcharted
    have h : TestBuilt b arm prev [val, guard] (b.addTest arm prev real [val, guard]) :=
      hb.addTest hprev harm
    have hid := h.nextID_eq
    have hmore : (b.addTest arm prev real [val, guard]).flow.Le G :=
      (h.chain.wired.visitTests arm more true (show b.nextID < _ by omega)
        (by omega)).chain.grows.le.trans hle
    exact h.follows_guarded hmore hcharted.1.1.1 hcharted.1.1.2 hcharted.1.2.1 hcharted.1.2.2 hbody
      (follows_headers true hcharted.2 h.chain.wired (by omega) (by omega) hle hbody hrest)

end

end CFGBuilder

end TurfLang
