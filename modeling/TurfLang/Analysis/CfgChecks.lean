import TurfLang.Analysis.CfgRuns
import TurfLang.Analysis.DefiniteAssignmentPaths
import TurfLang.Analysis.InfiniteLoop
import TurfLang.Analysis.Recursion

/-!
# What the checks of a graph say about the runs of its body

The checks of `CFG.cpp` and the definite assignment pass look at the paths of a graph. The graph of
a charted body follows its runs, so what they find of every path holds of every run.
-/

namespace TurfLang

open Ast Behaviour FlowGraph

namespace CFGBuilder

/-! ### The finished graph -/

theorem getElem?_blocks {b : CFGBuilder} {i : ℕ} (h : i < b.nextID) :
    b.blocks[i]? = some (b.block i) := by
  rw [block, List.getD_eq_getElem?_getD, List.getElem?_eq_getElem h]
  rfl

theorem exists_block {b : CFGBuilder} {bb : BuiltBlock} (h : bb ∈ b.blocks) :
    ∃ i < b.nextID, bb = b.block i := by
  obtain ⟨i, hi, rfl⟩ := List.mem_iff_getElem.mp h
  refine ⟨i, hi, ?_⟩
  rw [block, List.getD_eq_getElem?_getD, List.getElem?_eq_getElem hi]
  rfl

/-- The graph that `buildCFG` hands to the passes, with what a pass keeps of a statement. -/
def cfg {σ : Type} (b : CFGBuilder) (h : b.Wired) (keep : Expr → σ) : CFG σ where
  blocks := b.blocks.map fun bb => ⟨bb.statements.map keep, bb.predecessors, bb.successors⟩
  entryBlock := some 0
  entry_lt e he := by
    obtain rfl := Option.some.inj he
    rw [List.length_map]
    exact Nat.lt_of_le_of_lt (Nat.zero_le _) h.exit_lt
  successors_lt blk hblk s hs := by
    obtain ⟨bb, hbb, rfl⟩ := List.mem_map.mp hblk
    obtain ⟨i, -, rfl⟩ := exists_block hbb
    rw [List.length_map]
    exact (h.succ_lt i s hs).2
  predecessors_lt blk hblk p hp := by
    obtain ⟨bb, hbb, rfl⟩ := List.mem_map.mp hblk
    obtain ⟨i, -, rfl⟩ := exists_block hbb
    rw [List.length_map]
    exact (h.succ_lt p i ((h.mem_preds p i).mp hp)).1
  mem_predecessors p hp i hi := by
    rw [List.length_map] at hp hi
    rw [List.getElem?_map, List.getElem?_map, getElem?_blocks hp, getElem?_blocks hi]
    exact h.mem_preds p i

section

variable {σ : Type} {b : CFGBuilder} (h : b.Wired) (keep : Expr → σ)

theorem cfg_successors (i : ℕ) : (b.cfg h keep).successors i = b.succs i := by
  rw [CFG.successors, cfg, List.getElem?_map]
  by_cases hi : i < b.nextID
  · rw [getElem?_blocks hi]
    rfl
  · rw [List.getElem?_eq_none (not_lt.mp hi), succs_of_le (not_lt.mp hi)]
    rfl

theorem cfg_statements (i : ℕ) : (b.cfg h keep).statements i = (b.block i).statements.map keep := by
  rw [CFG.statements, cfg, List.getElem?_map]
  by_cases hi : i < b.nextID
  · rw [getElem?_blocks hi]
    rfl
  · rw [List.getElem?_eq_none (not_lt.mp hi), block_of_le (not_lt.mp hi)]
    rfl

theorem cfg_path {bs : List ℕ} {i : ℕ} :
    (b.cfg h keep).Path bs i ↔ Dataflow.Walk b.succs 0 bs i := by
  rw [show b.succs = (b.cfg h keep).successors from (funext (cfg_successors h keep)).symm]
  rfl

end

/-! ### `reportFlowDiagnostics` -/

/-- What `reportFlowDiagnostics` reports; the error raises. -/
inductive FlowDiagnostic
  | unreachableBlock (name : String)
  | missingReturn
  | deadBranch
  deriving DecidableEq

/-- `getUnreachableBlocks`. -/
def getUnreachableBlocks (b : CFGBuilder) (reachable : Finset ℕ) : List ℕ :=
  (List.range b.nextID).filter fun i =>
    i ≠ b.exitBlock && !decide (i ∈ reachable) && !(b.block i).statements.isEmpty

/-- `allPathsReturn`. -/
def allPathsReturn (b : CFGBuilder) (reachable : Finset ℕ) : Bool :=
  (b.preds b.exitBlock).all fun p => !(decide (p ∈ reachable) && (b.block p).terminator ≠ .returns)

/-- `getDeadBranches`. -/
def getDeadBranches (b : CFGBuilder) (reachable : Finset ℕ) : List ℕ :=
  (List.range b.nextID).filter fun i => !decide (i ∈ reachable) && i ≠ b.exitBlock

/-- `reportFlowDiagnostics`. -/
def reportFlowDiagnostics (b : CFGBuilder) (returnsVoid : Bool) (reachable : Finset ℕ) :
    List FlowDiagnostic :=
  (b.getUnreachableBlocks reachable).map (fun i => .unreachableBlock (b.block i).name) ++
    if !returnsVoid && !b.allPathsReturn reachable then [.missingReturn]
    else
      ((b.getDeadBranches reachable).filter fun i => (b.block i).terminator = .branch).map
        fun _ => .deadBranch

/-! ### Bodies and their graphs -/

variable {body : Expr} {b : CFGBuilder}

theorem buildCFG_built (h : buildCFG body = .ok b) : ∃ m, Built start body m b :=
  fresh_start.built h

theorem buildCFG_wired (h : buildCFG body = .ok b) : b.Wired := by
  obtain ⟨m, hm⟩ := buildCFG_built h
  exact hm.chain.wired

theorem buildRegionCFG_built (h : buildRegionCFG body = .ok b) :
    ∃ m, Built regionStart body m b := fresh_regionStart.built h

theorem exits_start (o : Outcome) (hr : o ≠ .returns) : start.exits o = none := by
  cases o with
  | returns => exact absurd rfl hr
  | _ => rfl

/-- A run that comes to the exit of the graph, at its end or by a jump that passes nothing. -/
theorem Ends.exists_pathOf_exit {ex : Outcome → Option (List Entry × ℕ)} {t : List Event}
    {o : Outcome} (h : Ends graphView b.flow (0, 0) ex (some (1, 0)) t o)
    (ho : o = .normal ∨ ex o = some ([], 1)) (hjump : o ≠ .halts ∧ o ≠ .fails) :
    ∃ bs, b.PathOf t bs 1 0 := by
  cases o with
  | normal =>
    obtain ⟨_, ⟨⟩, hwalk⟩ := h
    exact exists_pathOf hwalk
  | halts | fails => simp at hjump
  | breaks | continues | returns =>
    obtain ⟨l, j, hexit, hwalk⟩ := h
    have hex := ho.resolve_left (by decide)
    rw [hexit, Option.some.injEq, Prod.mk.injEq] at hex
    obtain ⟨rfl, rfl⟩ := hex
    rw [List.append_nil] at hwalk
    exact exists_pathOf hwalk

/-- The graph of a charted body has all of its runs: each is a path, to the exit if it comes to its
end or returns, along which the blocks have the statements that the run finishes, and with the
deferred ones where it finishes those. Where a run is cut off or fails there is a path for all but
the deferred statements that it still finishes. -/
theorem buildCFG_follows (hcharted : body.charted = true) (hbuild : buildCFG body = .ok b)
    {t : List Event} {o : Outcome} (hrun : body.run .bare t o) :
    o ≠ .breaks ∧ o ≠ .continues ∧ ∃ t', Marked body t t' o ∧
      (o = .normal ∨ o = .returns → ∃ bs, Dataflow.Walk b.succs 0 bs 1 ∧
        (bs.flatMap fun i => withoutJumps (b.block i).statements) = t'.filterMap Event.stated ∧
        (bs.flatMap fun i => withoutJumps (b.block i).statementsWithDeferredRuns) =
          t'.filterMap Event.recorded) ∧
      ∃ t₁ t₂ bs i k, t' = t₁ ++ t₂ ∧ (∀ e ∈ t₂, e.Late) ∧ b.PathOf t₁ bs i k := by
  obtain ⟨m, hm⟩ := buildCFG_built hbuild
  obtain ⟨t', ht'⟩ := exists_marked hrun
  have hends := hm.follows_exit hcharted t' o ht'.run
  have hnone : ∀ o', o' ≠ .returns → ¬ ∃ l j, start.exits o' = some (l, j) ∧
      b.flow.Walk (0, 0) (graphView.trace t' ++ l) (j, 0) := by
    rintro o' hne ⟨l, j, hexit, -⟩
    rw [exits_start o' hne] at hexit
    cases hexit
  refine ⟨?_, ?_, t', ht', fun ho => ?_, exists_pathOf_cut hends.cut⟩
  · rintro rfl
    exact hnone .breaks (by decide) hends
  · rintro rfl
    exact hnone .continues (by decide) hends
  · obtain ⟨bs, hpath⟩ := Ends.exists_pathOf_exit hends
      (ho.imp id (by rintro rfl; rfl)) (by rcases ho with rfl | rfl <;> simp)
    exact ⟨bs, hpath.path, hpath.statements, hpath.statementsWithDeferredRuns⟩

/-- `if x { return x; }`, with `x` a variable. -/
def guardedReturn : Expr :=
  .block [.ifElse (.branch (.name "x" 0) (.block [.returnVal (.name "x" 0)]) .noElse)]

theorem name_runs {x : String} {s : ℕ} : (Expr.name x s).run .bare [.eval (.name x s)] .normal :=
  .inr ⟨_, [], op_normal, ⟨rfl, rfl⟩, rfl⟩

theorem returnName_runs : (Expr.returnVal (.name "x" 0)).run .bare [.eval (.name "x" 0)] .returns :=
  .inr ⟨_, [], .inr ⟨_, [], name_runs, ⟨rfl, rfl⟩, rfl⟩, ⟨rfl, rfl⟩, rfl⟩

theorem guardedReturn_runs : guardedReturn.run .bare
    [.eval (.name "x" 0), .eval (.name "x" 0)] .returns := by
  have hthen : (Expr.block [.returnVal (.name "x" 0)]).run .bare [.eval (.name "x" 0)] .returns :=
    .inl ⟨returnName_runs, by decide⟩
  exact .inl ⟨.inr ⟨_, _, name_runs, .inr ⟨[], _, ⟨rfl, rfl⟩, .inl ⟨by simp [Expr.mayBe], hthen⟩, rfl⟩,
    rfl⟩, by decide⟩

theorem buildCFG_follows_guardedReturn : ∃ t' b, buildCFG guardedReturn = .ok b ∧
    Marked guardedReturn [.eval (.name "x" 0), .eval (.name "x" 0)] t' .returns ∧
    ∃ bs, Dataflow.Walk b.succs 0 bs 1 ∧
      (bs.flatMap fun i => withoutJumps (b.block i).statements) = t'.filterMap Event.stated := by
  obtain ⟨-, -, t', ht', hpath, -⟩ := buildCFG_follows (by decide) rfl guardedReturn_runs
  obtain ⟨bs, hwalk, hstated, -⟩ := hpath (.inr rfl)
  exact ⟨t', _, rfl, ht', bs, hwalk, hstated⟩

/-- The same for the graph of a region, which every jump leaves by its exit. -/
theorem buildRegionCFG_follows (hcharted : body.charted = true)
    (hbuild : buildRegionCFG body = .ok b) {t : List Event} {o : Outcome}
    (hrun : body.run .bare t o) :
    ∃ t', Marked body t t' o ∧
      (o ≠ .halts ∧ o ≠ .fails → ∃ bs, Dataflow.Walk b.succs 0 bs 1 ∧
        (bs.flatMap fun i => withoutJumps (b.block i).statements) = t'.filterMap Event.stated ∧
        (bs.flatMap fun i => withoutJumps (b.block i).statementsWithDeferredRuns) =
          t'.filterMap Event.recorded) ∧
      ∃ t₁ t₂ bs i k, t' = t₁ ++ t₂ ∧ (∀ e ∈ t₂, e.Late) ∧ b.PathOf t₁ bs i k := by
  obtain ⟨m, hm⟩ := buildRegionCFG_built hbuild
  obtain ⟨t', ht'⟩ := exists_marked hrun
  have hends := hm.follows_exit hcharted t' o ht'.run
  refine ⟨t', ht', fun ho => ?_, exists_pathOf_cut hends.cut⟩
  have hexit : o = .normal ∨ regionStart.exits o = some ([], 1) := by
    cases o with
    | normal => exact .inl rfl
    | halts | fails => simp at ho
    | _ => exact .inr rfl
  obtain ⟨bs, hpath⟩ := Ends.exists_pathOf_exit hends hexit ho
  exact ⟨bs, hpath.path, hpath.statements, hpath.statementsWithDeferredRuns⟩

/-- `if x { break; }`. -/
def guardedBreak : Expr :=
  .block [.ifElse (.branch (.name "x" 0) (.block [.breakLoop]) .noElse)]

theorem guardedBreak_runs : guardedBreak.run .bare [.eval (.name "x" 0)] .breaks := by
  have hthen : (Expr.block [.breakLoop]).run .bare [] .breaks :=
    .inl ⟨⟨rfl, rfl⟩, by decide⟩
  exact .inl ⟨.inr ⟨_, _, name_runs, .inr ⟨[], _, ⟨rfl, rfl⟩, .inl ⟨by simp [Expr.mayBe], hthen⟩, rfl⟩,
    rfl⟩, by decide⟩

theorem buildRegionCFG_follows_guardedBreak : ∃ t' b, buildRegionCFG guardedBreak = .ok b ∧
    Marked guardedBreak [.eval (.name "x" 0)] t' .breaks ∧
    ∃ bs, Dataflow.Walk b.succs 0 bs 1 ∧
      (bs.flatMap fun i => withoutJumps (b.block i).statements) = t'.filterMap Event.stated := by
  obtain ⟨t', ht', hpath, -⟩ := buildRegionCFG_follows (by decide) rfl guardedBreak_runs
  obtain ⟨bs, hwalk, hstated, -⟩ := hpath (by decide)
  exact ⟨t', _, rfl, ht', bs, hwalk, hstated⟩

/-! ### Missing returns -/

section

variable {σ : Type} {hw : b.Wired} {keep : Expr → σ}

theorem reachable_of_path {bs : List ℕ} {i : ℕ} (h : Dataflow.Walk b.succs 0 bs i) :
    (b.cfg hw keep).Reachable i := by
  refine ⟨0, rfl, ?_⟩
  induction h with
  | entry => exact .refl
  | step _ hc ih => exact ih.tail (by rwa [cfg_successors])

theorem mem_reachable_of_path {reachable : Finset ℕ}
    (hr : (b.cfg hw keep).computeReachability = some reachable) {bs : List ℕ} {i : ℕ}
    (h : Dataflow.Walk b.succs 0 bs i) : i ∈ reachable := by
  obtain ⟨r, hrun, hiff⟩ := CFG.exists_computeReachability (b.cfg hw keep)
  obtain rfl := Option.some.inj (hrun.symm.trans hr)
  exact (hiff i).mpr (reachable_of_path h)

end

/-- If the body may come to its end, the block at which it does goes to the exit without a
`return`. -/
theorem Built.end_not_returns {s m : CFGBuilder} (h : Built s body m b) {c : ℕ}
    (hc : m.currentBlock = some c) : (b.block c).terminator ≠ .returns := by
  have hexp : b.explicit c = false := by
    rw [h.eq, explicit_linkTo]
    exact (h.visited.sane.current c hc).2.2
  intro hreturns
  simp [explicit, BuiltBlock.hasExplicitTerminator, hreturns] at hexp

def returnName : Expr := .block [.returnVal (.name "x" 0)]

def returnNameGraph : CFGBuilder :=
  { start with
    blocks := [⟨"entry", [.statement (.returnVal (.name "x" 0))], [], [1], .returns⟩,
      ⟨"exit", [], [0], [], .none⟩]
    currentBlock := none }

theorem buildCFG_returnName : buildCFG returnName = .ok returnNameGraph := rfl

theorem reachable_returnName :
    (returnNameGraph.cfg (buildCFG_wired buildCFG_returnName) id).computeReachability =
      some {0, 1} := by
  decide

/-- Once in a set of blocks that no edge leaves, a path stays there. -/
theorem path_stays {succs : ℕ → List ℕ} {c : Set ℕ}
    {bs : List ℕ} {i x : ℕ} (h : Dataflow.Walk succs 0 bs i)
    (hclosed : ∀ y ∈ c, ∀ bs, Dataflow.Walk succs 0 bs y → ∀ z ∈ succs y, z ∈ c) (hx : x ∈ bs)
    (hxc : x ∈ c) : i ∈ c := by
  induction h with
  | entry => cases hx
  | @step bs y z hwalk hz ih =>
    obtain hx | hx := List.mem_append.mp hx
    · exact hclosed y (ih hx) bs hwalk z hz
    · obtain rfl := List.mem_singleton.mp hx
      exact hclosed _ hxc bs hwalk z hz

theorem mem_withoutJumps {e : Expr} {stmts : List Expr} :
    e ∈ withoutJumps stmts ↔ e ∈ stmts ∧ e.isJump = false := by
  simp [withoutJumps]

/-- Where `allPathsRecurse` holds, every path to the exit passes a block with a self-call. -/
theorem exists_selfCall_of_path {σ : Type} {hw : b.Wired} {keep : Expr → σ} {selfCall : ℕ → Bool}
    (h : (b.cfg hw keep).allPathsRecurse selfCall (some 1) = true) {bs : List ℕ}
    (hpath : Dataflow.Walk b.succs 0 bs 1) : ∃ i ∈ bs ++ [1], selfCall i = true := by
  by_contra hnone
  push Not at hnone
  have hsearch : (b.cfg hw keep).allRecurseFrom selfCall 1 0 false ∅ = false := by
    refine (CFG.allRecurseFrom_eq_false 0 false ∅).mpr ⟨rfl, (CFG.unmarked_iff_path rfl).mpr
      ⟨bs, (cfg_path hw keep).mpr hpath, fun i hi => by simpa using hnone i hi⟩⟩
  have hfalse : (b.cfg hw keep).allPathsRecurse selfCall (some 1) = false := by
    show (if _ then (b.cfg hw keep).allRecurseFrom selfCall 1 0 false ∅ else false) = false
    rw [hsearch, ite_self]
  rw [hfalse] at h
  cases h

/-- `{ f(); }`. -/
def callsItself : Expr := .block [.node (.call "f") []]

def callsItselfGraph : CFGBuilder :=
  { start with
    blocks := [⟨"entry", [.statement (.node (.call "f") [])], [], [1], .none⟩,
      ⟨"exit", [], [0], [], .none⟩] }

theorem buildCFG_callsItself : buildCFG callsItself = .ok callsItselfGraph := rfl

def callsF : Expr → Bool
  | .node (.call f) _ => f = "f"
  | _ => false

theorem callsItself_runs : callsItself.run .bare [.eval (.node (.call "f") [])] .normal :=
  .inr ⟨_, [], .inr ⟨_, [], .inr ⟨[], _, ⟨rfl, rfl⟩, op_normal, rfl⟩, ⟨rfl, rfl⟩, rfl⟩, ⟨rfl, rfl⟩,
    rfl⟩

theorem allPathsRecurse_callsItselfGraph :
    (callsItselfGraph.cfg (buildCFG_wired buildCFG_callsItself) id).allPathsRecurse
      (fun i => (callsItselfGraph.block i).statements.any callsF) (some 1) = true := by
  have hsuccs :
      (callsItselfGraph.cfg (buildCFG_wired buildCFG_callsItself) id).successors 0 = [1] := rfl
  have hexit : (callsItselfGraph.cfg (buildCFG_wired buildCFG_callsItself) id).allRecurseFrom
      (fun i => (callsItselfGraph.block i).statements.any callsF) 1 1 true {0} = true := by
    rw [CFG.allRecurseFrom]
    rfl
  show CFG.allRecurseFrom _ _ 1 0 false ∅ = true
  rw [CFG.allRecurseFrom]
  simp only [hsuccs, List.all_cons, List.all_nil]
  exact congrArg (· && true) hexit

end CFGBuilder

end TurfLang
