import TurfLang.Analysis.CfgFollows
import TurfLang.Frontend.RunLaws

/-!
# The graph of a body follows its runs

Every run of a charted body is a walk through the graph that the builder makes of it: to the exit if
the body comes to its end or returns, and as far as the run goes where it is cut off.
-/

namespace TurfLang

open Ast Behaviour FlowGraph CFGBuilder

namespace Ast

/-- A statement that does nothing but evaluate its operands. -/
theorem charts_regular {stmt : Expr} {found : List Visit} {a : Behaviour Event}
    (ha : Evaluates found a) (hsound : ∀ v ∈ found, Sound v) (hjump : stmt.isJump = false) :
    Charts (visitRegular stmt found) (regular .statement stmt a) :=
  charts_visitRegular ha.prepares hsound hjump

/-- What the visit of a body builds is what the visit of a block builds, where there is one. -/
theorem Expr.charts_asBlock {body : Expr} (hblock : body.isBlock = true)
    (h : Charts body.visitExpr (body.run .statement)) :
    Charts (visitAt fun _ => body.visitAsBlock) (body.run .statement) := by
  cases body with
  | block exprs => exact h
  | _ => cases hblock

theorem charts_at {v : Visit} {a : Behaviour Event} (h : Charts v a) :
    Charts (visitAt fun _ => v) a where
  steady b b' hb hrun := by
    obtain ⟨_, -, hrun⟩ := hb.visitAt hrun
    exact h.steady hb hrun
  follows hb hrun hle hc := by
    obtain ⟨_, -, hrun⟩ := hb.visitAt hrun
    exact h.follows hb hrun hle hc

theorem charts_visitIf {branches : Branches} {a : Behaviour Event}
    (h : ∀ {b b' c merge}, b.Wired → b.OpenAt c → b.Vacant merge → c ≠ merge →
      branches.visitIf merge true c true b = .ok b' → b'.deferScopes = b.deferScopes ∧
        ∀ {G}, b'.flow.Le G → Follows graphView G (b.flow.atEnd c) b.exits b'.here a) :
    Charts (Expr.ifElse branches).visitExpr a where
  steady b b' hb hrun := by
    obtain ⟨c, hc, hrun⟩ := hb.visitAt hrun
    obtain ⟨hw, hopen, hvac, hne⟩ := hb.ifStart hc "if.end"
    exact (h hw hopen hvac hne hrun).1
  follows {b b' G _} hb hrun hle hcur := by
    obtain ⟨c, hc, hrun⟩ := hb.visitAt hrun
    obtain rfl := Option.some.inj (hcur.symm.trans hc)
    obtain ⟨hw, hopen, hvac, hne⟩ := hb.ifStart hc "if.end"
    have hfollows := (h hw hopen hvac hne hrun).2 hle
    rwa [atEnd_of_items (congrFun items_createBlock _)] at hfollows

theorem charts_visitCompare {subject : Expr} {arms : Arms} {test a : Behaviour Event}
    (hjump : subject.isJump = false) (hseen : Hidden test) (hends : Within Quiet test)
    (h : ∀ {b b' c merge}, b.Wired → c < b.nextID → b.Vacant merge → c ≠ merge →
      arms.visitArms merge c false b = .ok b' → b'.deferScopes = b.deferScopes ∧
        ∀ {G}, b'.flow.Le G → Follows graphView G (b.flow.atEnd c) b.exits (some (merge, 0)) a) :
    Charts (Expr.compare subject arms).visitExpr
      (seq test (seq (Mode.statement.mark (.ran subject)) a)) where
  steady b b' hb hrun := by
    obtain ⟨c, b₁, b₂, -, h₁, hvisit, rfl⟩ := visitCompare_eq_ok hb hrun
    exact (h h₁.chain.wired h₁.lt h₁.vacant h₁.ne hvisit).1.trans h₁.scopes
  follows {b b' G _} hb hrun hle hcur := by
    obtain ⟨c, b₁, b₂, hc, h₁, hvisit, rfl⟩ := visitCompare_eq_ok hb hrun
    obtain rfl := Option.some.inj (hcur.symm.trans hc)
    have h₂ := arms.chain_visitArms h₁.chain.wired h₁.lt h₁.vacant h₁.ne hvisit
    have hvac' := h₁.vacant.kept h₂.grows ⟨h₁.vacant.lt, h₁.ne.symm⟩
    have harms := (h h₁.chain.wired h₁.lt h₁.vacant h₁.ne hvisit).2 (G := G) hle
    have hitems := h₁.items
    rw [exits_congr h₁.chain.frame h₁.scopes] at harms
    rw [here_of_current (b := b₂.setInsertPoint b.nextID) rfl,
      atEnd_of_nil (b := b₂.setInsertPoint b.nextID) hvac'.items]
    rw [statementEntries_singleton hjump] at hitems
    exact follows_seq (follows_unseen hseen hends)
      (follows_seq (follows_ran (walk_added (h₂.grows.le.trans hle) hitems)) harms)

mutual

/-- The graph of a charted statement follows its runs. -/
theorem Expr.charts : ∀ {e : Expr}, e.charted = true → Charts e.visitExpr (e.run .statement)
  | .bool _, _ | .name _ _, _ => charts_regular (Evaluates.op _) (fun _ h => by cases h) rfl
  | .node kind children, h => charts_regular
      ((evaluates_runAll (l := children) h).inWalkOrder kind |>.thenOp _)
      (sound_inWalkOrder kind (sound_eachRunBlocks children)) rfl
  | .logical _ lhs rhs, h => by
    simp only [Expr.charted, Bool.and_eq_true] at h
    exact charts_regular ((Expr.evaluates h.1).seq ((Expr.evaluates h.2).orGiven _ _))
      (sound_append lhs.sound_runBlocks rhs.sound_runBlocks) rfl
  | .varDecl _ _ inits, h => charts_regular ((evaluates_runAll (l := inits) h).thenOp _)
      (sound_flatten (sound_eachRunBlocks inits)) rfl
  | .recoverProduce wrapped produce, h => by
    simp only [Expr.charted, Bool.and_eq_true] at h
    exact charts_regular ((Expr.evaluates h.1).seq (Expr.evaluates h.2).orSkip)
      (sound_append wrapped.sound_runBlocks produce.sound_runBlocks) rfl
  | .recoverRun wrapped _ block, h => by
    simp only [Expr.charted, Bool.and_eq_true] at h
    exact charts_visitRegular (Prepares.runBlock (Expr.evaluates h.1) (Expr.charts h.2))
      (sound_append wrapped.sound_runBlocks (List.forall_mem_singleton.mpr block.sound)) rfl
  | .tryExpr operand, h =>
    charts_regular (Expr.evaluates (e := operand) h).orFails operand.sound_runBlocks rfl
  | .block exprs, h =>
    charts_at (charts_visitBlock (chartsItems (l := exprs) h) (sound_visitStatements exprs))
  | .unsafeBlock body, h => by
    simp only [Expr.charted, Bool.and_eq_true] at h
    exact Expr.charts_asBlock h.1 (Expr.charts h.2)
  | .ifElse branches, h => by
    simp only [Expr.charted, Bool.and_eq_true] at h
    have hsome : branches ≠ .noElse := by
      rintro rfl
      exact absurd h.1 (by decide)
    exact charts_visitIf fun hw hopen hvac hne hrun =>
      Branches.charts h.2 hw hopen hvac (fun _ => hne) (fun hnone => absurd hnone hsome) hrun
  | .whileLoop cond body, h => by
    simp only [Expr.charted, Bool.and_eq_true, List.isEmpty_iff] at h
    exact charts_visitWhile (Expr.charts h.2) body.sound (Expr.isJump_eq_false_of_operand h.1.1)
      cond.hidden_run (Expr.quiet_run h.1.1 h.1.2)
  | .doWhile body cond, h => by
    simp only [Expr.charted, Bool.and_eq_true, List.isEmpty_iff] at h
    exact charts_visitDoWhile (Expr.charts h.2) body.sound (Expr.isJump_eq_false_of_operand h.1.1)
      cond.hidden_run (Expr.quiet_run h.1.1 h.1.2)
  | .forRange _ _ start stop step body, h => by
    simp only [Expr.charted, Bool.and_eq_true, List.isEmpty_iff] at h
    obtain ⟨⟨⟨hstart, hstop⟩, hstep⟩, hbody⟩ := h
    have hjump := Expr.isJump_eq_false_of_operand hstart.1
    have hjump' := Expr.isJump_eq_false_of_operand hstop.1
    have htest : ∀ {G : FlowGraph Entry} {p q ex}, G.Walk p (statementEntries [start, stop]) q →
        Follows graphView G p ex (some q)
          (seq (Mode.statement.mark (.passed start)) (Mode.statement.mark (.passed stop))) := by
      intro G p q ex hwalk
      rw [statementEntries_cons hjump, statementEntries_singleton hjump',
        ← List.singleton_append] at hwalk
      obtain ⟨r, hfirst, hsecond⟩ := hwalk.split
      exact follows_seq (follows_passed hfirst) (follows_passed hsecond)
    have hloop := charts_visitCounted ("for.cond", "for.body", "for.step", "for.end")
      (Expr.charts hbody) body.sound htest step.hidden_run (Expr.quiet_run hstep.1 hstep.2)
    exact (hloop.after stop.hidden_run (Expr.quiet_run hstop.1 hstop.2)).after start.hidden_run
      (Expr.quiet_run hstart.1 hstart.2)
  | .forEach _ iterable body, h => by
    simp only [Expr.charted, Bool.and_eq_true, List.isEmpty_iff] at h
    have hjump := Expr.isJump_eq_false_of_operand h.1.1
    have hbody : Charts body.visitExpr (seq (choice skip (jump .halts)) (body.run .statement)) :=
      (Expr.charts h.2).after (closed_shows.choice closed_shows.skip (hidden_jump _))
        (within_choice quiet_skip (within_jump (.inr (.inl rfl))))
    have htest : ∀ {G : FlowGraph Entry} {p q ex}, G.Walk p (statementEntries [iterable]) q →
        Follows graphView G p ex (some q) (Mode.statement.mark (.passed iterable)) := by
      intro G p q ex hwalk
      rw [statementEntries_singleton hjump] at hwalk
      exact follows_passed hwalk
    have hloop := charts_visitCounted
      ("foreach.cond", "foreach.body", "foreach.step", "foreach.end") hbody body.sound htest
      closed_shows.skip quiet_skip
    exact hloop.after iterable.hidden_run (Expr.quiet_run h.1.1 h.1.2)
  | .compare subject arms, h => by
    simp only [Expr.charted, Bool.and_eq_true, List.isEmpty_iff] at h
    exact charts_visitCompare (Expr.isJump_eq_false_of_operand h.1.1) subject.hidden_run
      (Expr.quiet_run h.1.1 h.1.2)
      fun hw hlt hvac hne hrun => Arms.charts h.2 hw hlt hvac hne hrun
  | .returnVoid, _ =>
    charts_visitReturn Evaluates.skip.prepares (fun _ h => by cases h) rfl
  | .returnVal val, h =>
    charts_visitReturn (Expr.evaluates (e := val) h).prepares val.sound_runBlocks rfl
  | .breakLoop, _ => charts_visitBreak
  | .continueLoop, _ => charts_visitContinue

theorem Branches.charts : ∀ {br : Branches} {b b' : CFGBuilder} {merge condBlock : ℕ}
    {first all : Bool}, br.charted = true → b.Wired → b.OpenAt condBlock → b.Vacant merge →
    (br ≠ .noElse → condBlock ≠ merge) → (br = .noElse → condBlock = merge) →
    br.visitIf merge first condBlock all b = .ok b' → b'.deferScopes = b.deferScopes ∧
      ∀ {G}, b'.flow.Le G →
        Follows graphView G (b.flow.atEnd condBlock) b.exits b'.here (br.run .statement)
  | .noElse, b, b', merge, _, _, _, _, _, _, hmerge, _, heq, hrun => by
    obtain rfl := Except.ok.inj hrun
    obtain rfl := heq rfl
    exact ⟨rfl, fun _ => follows_skip⟩
  | .elseBody body, b, b', _, _, _, _, h, hb, hcond, hmerge, hne, _, hrun => by
    obtain ⟨s, m, hbuilt⟩ := hb.elseBuilt hcond hmerge (hne nofun) body.sound hrun
    have hbody := Expr.charts (e := body) h
    have hsteady := hbody.steady hbuilt.sane hbuilt.run
    rw [hbuilt.start] at hsteady
    exact ⟨hbuilt.scopes.trans hsteady, fun hle => hbuilt.follows hbody hle⟩
  | .branch cond body rest, b, b', merge, condBlock, first, all, h, hb, hcond, hmerge, hne, _,
      hrun => by
    simp only [Branches.charted, Bool.and_eq_true, List.isEmpty_iff] at h
    obtain ⟨⟨hcharted, hbody⟩, hrest⟩ := h
    have hne := hne nofun
    obtain ⟨m, hbuilt⟩ := hb.branchBuilt _ _ hcond hmerge hne body.sound hrun
    have hlast := fun h : rest = .noElse => hbuilt.opened.next_last (by rw [h]; rfl)
    have hnew : rest ≠ .noElse →
        (b.openBranch first rest.nextName merge cond condBlock).1 ≠ merge := fun h => by
      have := hbuilt.opened.next_new (by cases rest <;> first | rfl | contradiction)
      have := hmerge.lt
      omega
    have hif := rest.ifBuilt hbuilt.chain.wired hbuilt.next_vacant.toOpenAt hbuilt.merge_vacant
      hnew hbuilt.rest
    obtain ⟨hscopes, hfollows⟩ := Branches.charts hrest hbuilt.chain.wired
      hbuilt.next_vacant.toOpenAt hbuilt.merge_vacant hnew hlast hbuilt.rest
    have hcharts := Expr.charts hbody
    have hback : (m.linkTo merge).deferScopes = b.deferScopes := by
      rw [deferScopes_linkTo, hcharts.steady hbuilt.sane hbuilt.run, hbuilt.opened.scopes]
    refine ⟨hscopes.trans hback, fun hle => hbuilt.follows hmerge.lt hif hcharts hle
      (Expr.isJump_eq_false_of_operand hcharted.1) cond.hidden_run
      (Expr.quiet_run hcharted.1 hcharted.2) ?_⟩
    have hend := hfollows hle
    rwa [exits_congr hbuilt.chain.frame hback] at hend

theorem Arms.charts : ∀ {arms : Arms} {b b' : CFGBuilder} {prev merge : ℕ} {real : Bool},
    arms.charted = true → b.Wired → prev < b.nextID → b.Vacant merge → prev ≠ merge →
    arms.visitArms merge prev real b = .ok b' → b'.deferScopes = b.deferScopes ∧
      ∀ {G}, b'.flow.Le G →
        Follows graphView G (b.flow.atEnd prev) b.exits (some (merge, 0)) (arms.run .statement)
  | .noOtherBody exhaustive, b, b', prev, merge, real, _, hb, hprev, hmerge, _, hrun => by
    obtain rfl := Except.ok.inj hrun
    cases exhaustive with
    | true => exact ⟨rfl, fun _ => follows_given nofun⟩
    | false =>
      refine ⟨deferScopes_linkFail, fun hle => follows_given fun _ => .before ?_ follows_skip⟩
      refine walk_next hle ?_ (by simp)
      show merge ∈ (b.linkFail prev real merge).succs prev
      rw [succs_linkFail, succs_addEdge hprev, if_pos rfl]
      simp
  | .otherBody body, b, b', prev, merge, _, h, hb, hprev, hmerge, _, hrun => by
    obtain ⟨s, m, hbuilt, hmem, hitems, hscopes⟩ := hb.otherBuilt hprev hmerge.lt body.sound hrun
    have hbody := Expr.charts (e := body) h
    refine ⟨?_, fun hle => .before ?_ (hbuilt.follows hbody hmerge.lt hle hscopes)⟩
    · rw [hbuilt.eq, deferScopes_linkTo, hbody.steady hbuilt.sane hbuilt.run, hscopes]
    · exact walk_next (hbuilt.linked.grows.le.trans hle) hmem hitems
  | .arm _ headers body rest, b, b', prev, merge, real, h, hb, hprev, hmerge, hne, hrun => by
    simp only [Arms.charted, Bool.and_eq_true] at h
    obtain ⟨⟨hheaders, hbody⟩, hrest⟩ := h
    obtain ⟨last, isReal, s, m, hbuilt, hT, hs, htests, hvisit⟩ :=
      hb.armBuilt _ hprev hmerge.lt body.sound hrun
    have hbodyCharts := Expr.charts hbody
    have hid := hbuilt.before.nextID_le
    have hid' := hbuilt.linked.nextID_le
    have hlast : last < (m.linkTo merge).nextID := Nat.lt_of_lt_of_le htests.last_lt hid'
    have hmlt := hmerge.lt
    have hle' := htests.last_eq
    rw [nextID_createBlock] at hle'
    have hmerge' := hmerge.kept hbuilt.chain.grows ⟨hmerge.lt, hne.symm⟩
    have hchain := rest.chain_visitArms hbuilt.chain.wired hlast hmerge' (by omega) hvisit
    obtain ⟨hscopes, hfollows⟩ :=
      Arms.charts hrest hbuilt.chain.wired hlast hmerge' (by omega) hvisit
    have hback : (m.linkTo merge).deferScopes = b.deferScopes := by
      rw [deferScopes_linkTo, hbodyCharts.steady hbuilt.sane hbuilt.run, htests.scopes]
      rfl
    refine ⟨hscopes.trans hback, fun {G} hle => ?_⟩
    have hlinked : (m.linkTo merge).flow.Le G := hchain.grows.le.trans hle
    have hend := hfollows hle
    rw [exits_congr hbuilt.chain.frame hback] at hend
    have hkept : s.Kept last := ⟨htests.last_lt, fun hc => by
      have := Option.some.inj (hbuilt.current.symm.trans hc)
      omega⟩
    rw [atEnd_of_items (hbuilt.linked.grows.items last hkept)] at hend
    have hcreate := (Chain.refl (P := fun _ => False) hb).createBlock "compare.arm"
    have hbefore : (b.createBlock "compare.arm").nextID = b.nextID + 1 := nextID_createBlock
    have hgrown := hbuilt.linked.grows.le.trans hlinked
    rw [hs] at hgrown hend
    have hheads := follows_headers real hheaders hcreate.wired (show prev < _ by omega)
      (show b.nextID < _ by omega) hgrown
      (hbuilt.follows hbodyCharts hmerge.lt hlinked (htests.scopes.trans rfl)) (by
        rw [hT]
        exact hend)
    rwa [atEnd_of_items (congrFun items_createBlock prev)] at hheads

theorem chartsItems : ∀ {l : List Expr}, chartedItems l = true →
    ChartsItems (visitStatements l) (runItems l .statement)
  | [], _ => chartsItems_nil
  | e :: es, h => by
    cases e with
    | defer stmt =>
      simp only [chartedItems, Bool.and_eq_true] at h
      exact ChartsItems.defer h.1 (chartsItems h.2) (sound_visitStatements es)
    | _ =>
      simp only [chartedItems, Bool.and_eq_true] at h
      exact .cons (Expr.charts h.1) (chartsItems h.2) (Expr.sound _) (sound_visitStatements es)

/-- An operand shows nothing but its `run` blocks. -/
theorem Expr.evaluates : ∀ {e : Expr}, e.operand = true → Evaluates e.runBlocks (e.run .operand)
  | .bool _, _ | .name _ _, _ => .regular (.op _)
  | .node kind children, h =>
    .regular ((evaluates_runAll (l := children) h).inWalkOrder kind |>.thenOp _)
  | .logical _ lhs rhs, h => by
    simp only [Expr.operand, Bool.and_eq_true] at h
    exact .regular ((Expr.evaluates h.1).seq ((Expr.evaluates h.2).orGiven _ _))
  | .varDecl _ _ inits, h => .regular ((evaluates_runAll (l := inits) h).thenOp _)
  | .recoverProduce wrapped produce, h => by
    simp only [Expr.operand, Bool.and_eq_true] at h
    exact .regular ((Expr.evaluates h.1).seq (Expr.evaluates h.2).orSkip)
  | .recoverRun wrapped _ block, h => by
    simp only [Expr.operand, Bool.and_eq_true] at h
    have hblock := Evaluates.runBlock (Expr.charts h.2) (Expr.leaves_of_diverges h.1.2)
    exact .regular ((Expr.evaluates h.1.1).seq hblock.orSkip)
  | .tryExpr operand, h => .regular (Expr.evaluates (e := operand) h).orFails
  | .ifElse branches, h => Branches.evaluates (b := branches) h

theorem Branches.evaluates : ∀ {b : Branches}, b.operand = true →
    Evaluates b.runBlocks (b.run .operand)
  | .noElse, _ => .skip
  | .elseBody body, h => Expr.evaluates (e := body) h
  | .branch cond body rest, h => by
    simp only [Branches.operand, Bool.and_eq_true] at h
    have hbranches := ((Expr.evaluates h.1.2).given (cond.mayBe true)).choice
      ((Branches.evaluates h.2).given (cond.mayBe false))
    have hall := (Expr.evaluates h.1.1).seq (Evaluates.skip.seq hbranches)
    rw [List.nil_append, ← List.append_assoc] at hall
    exact hall

theorem evaluates_runAll : ∀ {l : List Expr}, operands l = true →
    Evaluates (eachRunBlocks l).flatten (runAll l .operand)
  | [], _ => .skip
  | e :: es, h => by
    simp only [operands, Bool.and_eq_true] at h
    exact (Expr.evaluates h.1).seq (evaluates_runAll h.2)

end

end Ast

/-! ### Whole bodies -/

/-- The statement that a run has finished, or has come past. -/
def Ast.Event.stated : Event → Option Expr
  | .ran e | .passed e => some e
  | _ => none

/-- The same, and the deferred statements that it has finished. -/
def Ast.Event.recorded : Event → Option Expr
  | .ran e | .passed e | .deferred e => some e
  | _ => none

namespace CFGBuilder

variable {b m s : CFGBuilder} {body : Expr}

/-- What `buildCFG` and `buildRegionCFG` have before they visit a body. -/
structure Fresh (s : CFGBuilder) : Prop extends Sane s where
  entry : s.currentBlock = some 0
  exit : s.exitBlock = 1
  size : s.nextID = 2
  entry_items : s.items 0 = []
  exit_items : s.items 1 = []
  exit_succs : s.succs 1 = []

theorem fresh_start : start.Fresh where
  exit_lt := by decide
  break_lt := nofun
  continue_lt := nofun
  depth_le := le_rfl
  succ_lt i j hj := by
    have hnil : start.succs i = [] := by
      rcases i with _ | _ | i
      · rfl
      · rfl
      · exact succs_of_le (Nat.le_add_left 2 i)
    rw [hnil] at hj
    cases hj
  mem_preds i j := by
    have hnil : ∀ i, start.succs i = [] ∧ start.preds i = [] := fun i => by
      rcases i with _ | _ | i <;> exact ⟨rfl, rfl⟩
    rw [(hnil i).1, (hnil j).2]
    exact ⟨nofun, nofun⟩
  current c hc := by
    obtain rfl := Option.some.inj hc
    exact ⟨by decide, rfl, rfl⟩
  entry := rfl
  exit := rfl
  size := rfl
  entry_items := rfl
  exit_items := rfl
  exit_succs := rfl

/-- The builder before a region: a jump to a loop around it goes to the exit. -/
def regionStart : CFGBuilder :=
  { start with
    loopBreakTarget := some 1
    loopContinueTarget := some 1 }

theorem fresh_regionStart : regionStart.Fresh :=
  { fresh_start with
    break_lt := by
      rintro _ ⟨⟩
      exact fresh_start.exit_lt
    continue_lt := by
      rintro _ ⟨⟩
      exact fresh_start.exit_lt }

/-- A whole body: the visit, and then the edge from its end to the exit. -/
structure Built (s : CFGBuilder) (body : Expr) (m b : CFGBuilder) : Prop where
  fresh : s.Fresh
  run : body.visitExpr s = .ok m
  visited : Visited s m
  eq : b = m.linkTo 1

theorem Fresh.built (hs : s.Fresh) (h : (do
    let b ← body.visitExpr s
    return b.linkTo b.exitBlock) = .ok b) : ∃ m, Built s body m b := by
  obtain ⟨m, hm, hend⟩ := bind_eq_ok.mp h
  have hvis := body.sound hs.toSane hm
  have hb := pure_eq_ok.mp hend
  rw [hvis.chain.frame.exitBlock, hs.exit] at hb
  exact ⟨m, hs, hm, hvis, hb.symm⟩

namespace Built

variable (h : Built s body m b)
include h

theorem exit_kept : s.Kept 1 :=
  ⟨by rw [h.fresh.size]; decide, by rw [h.fresh.entry]; nofun⟩

theorem exit_lt : 1 < m.nextID := by
  have := h.visited.chain.nextID_le
  rw [h.fresh.size] at this
  omega

theorem chain : Chain s.Kept s b := by
  have hlink := h.visited.linked (t := 1) (by rw [h.fresh.size]; decide)
  rwa [← h.eq] at hlink

theorem le : m.flow.Le b.flow := by
  have hle := h.visited.linkTo_le h.exit_lt
  rwa [← h.eq] at hle

/-- Nothing is in the exit block, and nothing comes after it. -/
theorem exit_empty : b.items 1 = [] ∧ b.succs 1 = [] :=
  ⟨(h.chain.grows.items 1 h.exit_kept).trans h.fresh.exit_items,
    (h.chain.grows.succs 1 h.exit_kept).trans h.fresh.exit_succs⟩

/-- Where the visit ends there is an edge to the exit. -/
theorem end_mem {c : ℕ} (hc : m.currentBlock = some c) :
    c ≠ 1 ∧ 1 ∈ b.succs c ∧ b.items c = m.items c := by
  refine ⟨?_, ?_, ?_⟩
  · rintro rfl
    exact h.visited.current 1 hc h.exit_kept
  · rw [h.eq]
    exact h.visited.sane.mem_succs_linkTo hc 1
  · rw [h.eq, items_linkTo]

/-- Every run is a walk from the entry. -/
theorem follows (hcharted : body.charted = true) :
    Follows graphView b.flow (0, 0) s.exits m.here (body.run .statement) := by
  have hfollows := (Expr.charts hcharted).follows h.fresh.toSane h.run h.le h.fresh.entry
  rwa [atEnd_of_nil h.fresh.entry_items] at hfollows

/-- The runs that come to their end go on to the exit. -/
theorem follows_exit (hcharted : body.charted = true) :
    Follows graphView b.flow (0, 0) s.exits (some (1, 0)) (body.run .statement) :=
  follows_linked (h.follows hcharted) (.refl _) fun _ hc => (h.end_mem hc).2

end Built

/-! ### Paths -/

/-- A path that records what a run shows: past the blocks `bs`, and then past `k` of what is shown
of the block `i`. -/
structure PathOf (b : CFGBuilder) (t : List Event) (bs : List ℕ) (i k : ℕ) : Prop where
  path : Dataflow.Walk b.succs 0 bs i
  items : bs.flatMap b.items ++ (b.items i).take k = graphView.trace t

theorem exists_pathOf {q : ℕ × ℕ} {t : List Event} (h : b.flow.Walk (0, 0) (graphView.trace t) q) :
    ∃ bs, b.PathOf t bs q.1 q.2 := by
  obtain ⟨bs, hpath, hitems⟩ := h.exists_path (.entry : Dataflow.Walk b.succs 0 [] 0)
  exact ⟨bs, hpath, hitems.trans (by simp)⟩

/-- However a run ends, there is a path for its beginning. -/
theorem exists_pathOf_cut {t : List Event} (h : Cut graphView b.flow (0, 0) t) :
    ∃ t₁ t₂ bs i k, t = t₁ ++ t₂ ∧ (∀ e ∈ t₂, e.Late) ∧ b.PathOf t₁ bs i k := by
  obtain ⟨t₁, t₂, q, rfl, hlate, hwalk⟩ := h
  obtain ⟨bs, hpath⟩ := exists_pathOf hwalk
  exact ⟨t₁, t₂, bs, q.1, q.2, rfl, hlate, hpath⟩

/-- Statements without the jumps among them. -/
def withoutJumps (stmts : List Expr) : List Expr := stmts.filter fun e => !e.isJump

theorem stated_visible (entries : List Entry) :
    (visible entries).filterMap Entry.stated = withoutJumps (entries.filterMap Entry.stated) := by
  rw [visible, withoutJumps]
  induction entries with
  | nil => rfl
  | cons entry entries ih =>
    cases entry with
    | statement e => cases he : e.isJump <;> simp [he, ih]
    | deferredRun e => cases he : e.isJump <;> simp [List.filterMap_cons, he, ih]

theorem expr_visible (entries : List Entry) :
    (visible entries).map Entry.expr = withoutJumps (entries.map Entry.expr) := by
  rw [visible, withoutJumps, List.filter_map]
  rfl

theorem stated_shown (e : Event) : e.shown.bind Entry.stated = e.stated := by
  cases e <;> rfl

theorem expr_shown (e : Event) : e.shown.map Entry.expr = e.recorded := by
  cases e <;> rfl

section

variable {t : List Event} {bs : List ℕ} {i : ℕ} (h : b.PathOf t bs i 0)
include h

theorem PathOf.entries : bs.flatMap b.items = graphView.trace t := by
  simpa using h.items

/-- The statements along the path. -/
theorem PathOf.statements :
    (bs.flatMap fun i => withoutJumps (b.block i).statements) = t.filterMap Event.stated := by
  have hblock : ∀ i, withoutJumps (b.block i).statements = (b.items i).filterMap Entry.stated :=
    fun i => (stated_visible _).symm
  simp only [hblock]
  rw [← List.filterMap_flatMap, h.entries, View.trace, List.filterMap_filterMap]
  exact congrArg (List.filterMap · t) (funext stated_shown)

/-- And with the deferred ones where they run. -/
theorem PathOf.statementsWithDeferredRuns :
    (bs.flatMap fun i => withoutJumps (b.block i).statementsWithDeferredRuns) =
      t.filterMap Event.recorded := by
  have hblock : ∀ i, withoutJumps (b.block i).statementsWithDeferredRuns =
      (b.items i).map Entry.expr := fun i => (expr_visible _).symm
  simp only [hblock]
  rw [← List.map_flatMap, h.entries, View.trace, List.map_filterMap]
  exact congrArg (List.filterMap · t) (funext expr_shown)

end

/-! ### Runs -/

/-- A run and what the graph has of it: the same evaluations, and marks for the statements. -/
structure Marked (body : Expr) (t t' : List Event) (o : Outcome) : Prop where
  run : body.run .statement t' o
  evals : t'.filter Event.isEval = t

/-- Every run can be marked. -/
theorem exists_marked {t : List Event} {o : Outcome} (h : body.run .bare t o) :
    ∃ t', Marked body t t' o := by
  rw [← Expr.only_run .statement] at h
  obtain ⟨t', ht', rfl⟩ := h
  exact ⟨t', ht', rfl⟩

end CFGBuilder

end TurfLang
