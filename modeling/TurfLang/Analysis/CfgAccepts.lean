import TurfLang.Analysis.CfgChecks

/-!
# Which bodies have a graph

The builder refuses a body in which a statement stands behind one that leaves its block, or a
`break` or `continue` outside of a loop, also inside of a `run` block. What it takes and where it
then stands can be read off the tree.
-/

namespace TurfLang

open Ast Behaviour CFGBuilder

namespace Ast

/-! ### Statements that are not passed -/

mutual

/-- Whether nothing can stand behind a statement: it is a jump, or all its branches end in one. -/
def Expr.stops : Expr → Bool
  | .returnVoid | .returnVal _ | .breakLoop | .continueLoop => true
  | .block exprs => someStops exprs
  | .unsafeBlock body => body.isBlock && body.stops
  | .ifElse branches => branches.allStop
  | _ => false

def Branches.allStop : Branches → Bool
  | .noElse => false
  | .elseBody body => body.stops
  | .branch _ body rest => body.stops && rest.allStop

def someStops : List Expr → Bool
  | [] => false
  | e :: es => e.stops || someStops es

end

/-! ### Statements with a graph -/

mutual

/-- Whether a statement has a graph, inside of a loop or outside of any. -/
def Expr.flows (loop : Bool) : Expr → Bool
  | .bool _ | .name _ _ | .returnVoid | .defer _ => true
  | .node _ children => eachRunsFlow loop children
  | .logical _ lhs rhs => lhs.runsFlow loop && rhs.runsFlow loop
  | .varDecl _ _ inits => eachRunsFlow loop inits
  | .recoverProduce wrapped produce => wrapped.runsFlow loop && produce.runsFlow loop
  | .recoverRun wrapped _ block => wrapped.runsFlow loop && block.flows loop
  | .tryExpr operand => operand.runsFlow loop
  | .block exprs => itemsFlow loop exprs
  | .unsafeBlock body => !body.isBlock || body.flows loop
  | .ifElse branches => branches.flows loop
  | .whileLoop _ body | .doWhile body _ | .forRange _ _ _ _ _ body | .forEach _ _ body =>
    body.flows true
  | .compare _ arms => arms.flows loop
  | .returnVal val => val.runsFlow loop
  | .breakLoop | .continueLoop => loop

def Branches.flows (loop : Bool) : Branches → Bool
  | .noElse => true
  | .elseBody body => body.flows loop
  | .branch _ body rest => body.flows loop && rest.flows loop

def Arms.flows (loop : Bool) : Arms → Bool
  | .noOtherBody _ => true
  | .otherBody body => body.flows loop
  | .arm _ _ body rest => body.flows loop && rest.flows loop

/-- The statements of a block: only the last of them may stop. -/
def itemsFlow (loop : Bool) : List Expr → Bool
  | [] => true
  | e :: es => e.flows loop && (es.isEmpty || !e.stops) && itemsFlow loop es

/-- Whether the `run` blocks that an expression evaluates itself have a graph. -/
def Expr.runsFlow (loop : Bool) : Expr → Bool
  | .bool _ | .name _ _ | .returnVoid | .breakLoop | .continueLoop | .defer _ => true
  | .node _ children => eachRunsFlow loop children
  | .logical _ lhs rhs => lhs.runsFlow loop && rhs.runsFlow loop
  | .varDecl _ _ inits => eachRunsFlow loop inits
  | .recoverProduce wrapped produce => wrapped.runsFlow loop && produce.runsFlow loop
  | .recoverRun wrapped _ block => wrapped.runsFlow loop && block.flows loop
  | .tryExpr operand => operand.runsFlow loop
  | .block exprs => eachRunsFlow loop exprs
  | .unsafeBlock body => body.runsFlow loop
  | .ifElse branches => branches.runsFlow loop
  | .whileLoop cond body => cond.runsFlow loop && body.runsFlow loop
  | .doWhile body cond => cond.runsFlow loop && body.runsFlow loop
  | .forRange _ _ start stop step body =>
    start.runsFlow loop && stop.runsFlow loop && step.runsFlow loop && body.runsFlow loop
  | .forEach _ iterable body => iterable.runsFlow loop && body.runsFlow loop
  | .compare subject arms => subject.runsFlow loop && arms.runsFlow loop
  | .returnVal val => val.runsFlow loop

def Branches.runsFlow (loop : Bool) : Branches → Bool
  | .noElse => true
  | .elseBody body => body.runsFlow loop
  | .branch cond body rest => cond.runsFlow loop && body.runsFlow loop && rest.runsFlow loop

def Arms.runsFlow (loop : Bool) : Arms → Bool
  | .noOtherBody _ => true
  | .otherBody body => body.runsFlow loop
  | .arm _ headers body rest =>
    headers.valueRunsFlow loop && headers.guardRunsFlow loop && body.runsFlow loop &&
      rest.runsFlow loop

def Headers.valueRunsFlow (loop : Bool) : Headers → Bool
  | .nil => true
  | .header val more | .guarded val _ more => val.runsFlow loop && more.valueRunsFlow loop

def Headers.guardRunsFlow (loop : Bool) : Headers → Bool
  | .nil => true
  | .header _ more => more.guardRunsFlow loop
  | .guarded _ guard more => guard.runsFlow loop && more.guardRunsFlow loop

def eachRunsFlow (loop : Bool) : List Expr → Bool
  | [] => true
  | e :: es => e.runsFlow loop && eachRunsFlow loop es

end

end Ast

namespace CFGBuilder

variable {b b' s : CFGBuilder} {c : ℕ} {v : Visit} {loop : Bool} {found : List Visit}

/-! ### What a visit is handed -/

/-- Whether a `break` or `continue` has somewhere to go. -/
structure InLoop (b : CFGBuilder) (loop : Bool) : Prop where
  breaks : b.loopBreakTarget.isSome = loop
  continues : b.loopContinueTarget.isSome = loop

theorem InLoop.of_frame (h : b.InLoop loop) (hf : SameFrame b b') : b'.InLoop loop where
  breaks := by rw [hf.loopBreakTarget, h.breaks]
  continues := by rw [hf.loopContinueTarget, h.continues]

/-- A builder in order that stands at a block. -/
structure Ready (b : CFGBuilder) (loop : Bool) : Prop extends Sane b, InLoop b loop where
  stands : ∃ c, b.currentBlock = some c

theorem Ready.openBlock (h : b.Ready loop) :
    ∃ c, b.currentBlock = some c ∧ b.openBlock = some c := by
  obtain ⟨c, hc⟩ := h.stands
  exact ⟨c, hc, h.toSane.openBlock.trans hc⟩

theorem Visited.ready (h : Visited b b') (hb : b.InLoop loop) {c : ℕ}
    (hc : b'.currentBlock = some c) : b'.Ready loop :=
  { h.sane, hb.of_frame h.chain.frame with stands := ⟨c, hc⟩ }

/-- Whether a visit succeeds where it may begin. -/
structure Takes (v : Visit) (loop flows : Bool) : Prop where
  ok : ∀ {b}, b.Ready loop → flows = true → ∃ b', v b = .ok b'
  flows : ∀ {b b'}, b.Ready loop → v b = .ok b' → flows = true

/-- And whether the builder then stands nowhere. -/
structure Decides (v : Visit) (loop flows stops : Bool) : Prop extends Takes v loop flows where
  ends : ∀ {b b'}, b.Ready loop → v b = .ok b' → (b'.currentBlock = none ↔ stops = true)

/-- A construct that visits a part of it at `s`, whatever that part is, has made `s` ready if that
can be said of every part that is visited. -/
theorem Ready.of_visited {build : Visit → Except FlowError CFGBuilder}
    {f : CFGBuilder → CFGBuilder} (hbuild : ∀ v, build v = (v s).map f)
    (h : ∀ v b', Sound v → build v = .ok b' → ∃ s m, Ready s loop ∧ v s = .ok m) :
    s.Ready loop := by
  classical
  by_contra hnot
  -- A part that fails wherever it is visited at a builder that is ready.
  let v : Visit := fun b => if b.Ready loop then .error .statementAfterTerminator else .ok b
  have hsound : Sound v := by
    intro b b' hb hrun
    by_cases hready : b.Ready loop
    · simp [v, hready] at hrun
    · simp only [v, hready, if_false, Except.ok.injEq] at hrun
      exact hrun ▸ .refl hb
  have hok : build v = .ok (f s) := by
    rw [hbuild, show v s = .ok s from if_neg hnot]
    rfl
  obtain ⟨s', m, hs', hm⟩ := h v _ hsound hok
  simp [v, hs'] at hm

theorem map_eq_ok {x : Except FlowError CFGBuilder} {f : CFGBuilder → CFGBuilder} :
    (∃ r, x.map f = .ok r) ↔ ∃ r, x = .ok r := by
  cases x with
  | error e => simp [Except.map]
  | ok a => exact ⟨fun _ => ⟨a, rfl⟩, fun _ => ⟨f a, rfl⟩⟩

theorem bind_pure_eq_map {x : Except FlowError CFGBuilder} {f : CFGBuilder → CFGBuilder} :
    (x >>= fun m => pure (f m)) = x.map f := by
  cases x <;> rfl

/-! ### `run` blocks -/

/-- Whether the `run` blocks of a statement can all be visited. -/
structure TakesAll (found : List Visit) (loop flows : Bool) : Prop where
  ok : flows = true → ∀ v ∈ found, ∀ b : CFGBuilder, b.Ready loop → ∃ b', v b = .ok b'
  flows : (∀ v ∈ found, ∃ b b' : CFGBuilder, b.Ready loop ∧ v b = .ok b') → flows = true

namespace TakesAll

variable {found' : List Visit} {flows flows' : Bool}

theorem nil : TakesAll [] loop true := ⟨fun _ _ hv => (by cases hv), fun _ => rfl⟩

theorem single (h : Takes v loop flows) : TakesAll [v] loop flows where
  ok hflows w hw b hb := by
    obtain rfl := List.mem_singleton.mp hw
    exact h.ok hb hflows
  flows hall := by
    obtain ⟨b, b', hb, hrun⟩ := hall v (List.mem_singleton_self v)
    exact h.flows hb hrun

theorem append (h : TakesAll found loop flows) (h' : TakesAll found' loop flows') :
    TakesAll (found ++ found') loop (flows && flows') where
  ok hflows w hw := by
    rw [Bool.and_eq_true] at hflows
    exact (List.mem_append.mp hw).elim (h.ok hflows.1 w) (h'.ok hflows.2 w)
  flows hall := by
    rw [Bool.and_eq_true]
    exact ⟨h.flows fun w hw => hall w (List.mem_append_left _ hw),
      h'.flows fun w hw => hall w (List.mem_append_right _ hw)⟩

theorem mono (h : TakesAll found loop flows) (hmem : ∀ v, v ∈ found' ↔ v ∈ found) :
    TakesAll found' loop flows where
  ok hflows w hw := h.ok hflows w ((hmem w).mp hw)
  flows hall := h.flows fun w hw => hall w ((hmem w).mpr hw)

/-- The order of the walk does not matter. -/
theorem inWalkOrder {each : List (List Visit)} (kind : NodeKind)
    (h : TakesAll each.flatten loop flows) :
    TakesAll (kind.inWalkOrder each).flatten loop flows :=
  h.mono fun v => by simp only [List.mem_flatten, NodeKind.mem_inWalkOrder]

end TakesAll

variable {flows stops : Bool} {stmt : Expr} {pre : ℕ}

/-- A `run` block is visited at a builder that is ready. -/
theorem RunBlock.ready {b₁ b₂ : CFGBuilder} (h : RunBlock b pre v b' b₁ b₂) (hb : b.InLoop loop) :
    b₁.Ready loop := by
  obtain ⟨r, hr, -⟩ := h.entry
  exact { h.sane, hb.of_frame h.chain.frame with stands := ⟨r, hr⟩ }

theorem Branching.exists_visitRunBlock (h : Branching b pre b') (hpre : b.currentBlock = some pre)
    (hb : b.Ready loop) (hv : ∀ b : CFGBuilder, b.Ready loop → ∃ b', v b = .ok b') :
    ∃ b'', CFGBuilder.visitRunBlock pre b.nextID b' v = .ok b'' := by
  have hbuild : ∀ v : Visit, CFGBuilder.visitRunBlock pre b.nextID b' v = (v
      (((b'.createBlock "recover.run").addEdge pre b'.nextID).setInsertPoint b'.nextID)).map
        (·.linkTo b.nextID) := fun v => bind_pure_eq_map
  have hready := Ready.of_visited hbuild fun v b'' hv hrun => by
    obtain ⟨-, -, b₁, b₂, hblock, -⟩ := h.visitRunBlock hpre hb.toSane hv hrun
    exact ⟨b₁, b₂, hblock.ready hb.toInLoop, hblock.run⟩
  rw [hbuild]
  exact map_eq_ok.mpr (hv _ hready)

theorem Branching.exists_foldlM (hpre : b.currentBlock = some pre) (hb : b.Ready loop)
    (hfound : ∀ v ∈ found, Sound v)
    (hok : ∀ v ∈ found, ∀ b : CFGBuilder, b.Ready loop → ∃ b', v b = .ok b')
    (h : Branching b pre b') :
    ∃ b'', found.foldlM (CFGBuilder.visitRunBlock pre b.nextID) b' = .ok b'' := by
  induction found generalizing b' with
  | nil => exact ⟨b', rfl⟩
  | cons v found ih =>
    obtain ⟨m, hm⟩ := h.exists_visitRunBlock hpre hb (hok v List.mem_cons_self)
    obtain ⟨hmid, -⟩ := h.visitRunBlock hpre hb.toSane (hfound v List.mem_cons_self) hm
    obtain ⟨b'', hrest⟩ := ih (fun w hw => hfound w (List.mem_cons_of_mem _ hw))
      (fun w hw => hok w (List.mem_cons_of_mem _ hw)) hmid
    refine ⟨b'', ?_⟩
    rw [List.foldlM_cons, hm]
    exact hrest

/-- The `run` blocks of a statement can be built exactly if each of them can. -/
theorem TakesAll.branchToRecoverBlocks (h : TakesAll found loop flows)
    (hfound : ∀ v ∈ found, Sound v) (hb : b.Ready loop) (hpre : b.currentBlock = some pre) :
    (∃ b', CFGBuilder.branchToRecoverBlocks found pre b = .ok b') ↔ flows = true := by
  by_cases hne : found = []
  · subst hne
    exact ⟨fun _ => h.flows fun _ hv => (by cases hv), fun _ => ⟨b, rfl⟩⟩
  constructor
  · rintro ⟨b', hrun⟩
    obtain ⟨-, -, -, -, -, -, hblocks⟩ :=
      branchToRecoverBlocks_cons hpre hb.toSane hne hfound hrun
    refine h.flows fun v hv => ?_
    obtain ⟨b₁, b₂, hblock, -⟩ := hblocks v hv
    exact ⟨b₁, b₂, hblock.ready hb.toInLoop, hblock.run⟩
  · intro hflows
    obtain ⟨e, he⟩ := (hb.toSane.branching hpre).exists_foldlM hpre hb hfound (h.ok hflows)
    rw [CFGBuilder.branchToRecoverBlocks, if_neg (by simpa using hne)]
    exact ⟨_, bind_eq_ok.mpr ⟨e, he, rfl⟩⟩

/-! ### Statements and jumps -/

theorem exists_visitAt {visit : ℕ → Visit} (hb : b.Ready loop) :
    ∃ c, b.currentBlock = some c ∧ visitAt visit b = visit c b := by
  obtain ⟨c, hc, hopen⟩ := hb.openBlock
  exact ⟨c, hc, by rw [visitAt, hopen]⟩

theorem decides_visitRegular (h : TakesAll found loop flows) (hfound : ∀ v ∈ found, Sound v) :
    Decides (visitRegular stmt found) loop flows false where
  ok {b} hb hflows := by
    obtain ⟨pre, hpre, hrun⟩ := exists_visitAt hb
    rw [visitRegular, hrun]
    obtain ⟨m, hm⟩ := (h.branchToRecoverBlocks hfound hb hpre).mpr hflows
    exact ⟨_, bind_eq_ok.mpr ⟨m, hm, rfl⟩⟩
  flows hb hrun := by
    obtain ⟨pre, m, c, hpre, hm, -⟩ := visitRegular_eq_ok hb.toSane hfound hrun
    exact (h.branchToRecoverBlocks hfound hb hpre).mp ⟨m, hm⟩
  ends hb hrun := by
    obtain ⟨pre, m, c, -, -, -, hc, rfl⟩ := visitRegular_eq_ok hb.toSane hfound hrun
    have hcur : (m.addStatement c stmt).currentBlock = some c := hc
    simp [hcur]

theorem currentBlock_terminate {c : ℕ} (kind : TerminatorKind) (t : ℕ)
    (h : b.currentBlock = some c) : (b.terminate kind t).currentBlock = none := by
  rw [terminate_of_current h]

theorem decides_visitReturn (h : TakesAll found loop flows) (hfound : ∀ v ∈ found, Sound v) :
    Decides (visitReturn stmt found) loop flows true where
  ok {b} hb hflows := by
    obtain ⟨pre, hpre, hrun⟩ := exists_visitAt hb
    rw [visitReturn, hrun]
    obtain ⟨m, hm⟩ := (h.branchToRecoverBlocks hfound hb hpre).mpr hflows
    exact ⟨_, bind_eq_ok.mpr ⟨m, hm, rfl⟩⟩
  flows hb hrun := by
    obtain ⟨pre, m, c, hpre, hm, -⟩ := visitReturn_eq_ok hb.toSane hfound hrun
    exact (h.branchToRecoverBlocks hfound hb hpre).mp ⟨m, hm⟩
  ends hb hrun := by
    obtain ⟨pre, m, c, -, -, -, hc, rfl⟩ := visitReturn_eq_ok hb.toSane hfound hrun
    simp [currentBlock_terminate (b := (m.addStatement c stmt).modifyBlock c _) (c := c) _ _ hc]

theorem decides_visitBreak : Decides visitBreak loop loop true where
  ok {b} hb hloop := by
    obtain ⟨c, hc, hrun⟩ := exists_visitAt hb
    rw [visitBreak, hrun]
    obtain ⟨t, ht⟩ := Option.isSome_iff_exists.mp (hb.breaks.trans hloop)
    simp [ht]
  flows hb hrun := by
    obtain ⟨c, t, -, ht, -⟩ := visitBreak_eq_ok hb.toSane hrun
    rw [← hb.breaks, ht, Option.isSome_some]
  ends hb hrun := by
    obtain ⟨c, t, hc, -, rfl⟩ := visitBreak_eq_ok hb.toSane hrun
    simp [jumpTo, currentBlock_terminate (b := (CFGBuilder.modifyBlock c _ _).addStatement c _)
      (c := c) _ _ hc]

theorem decides_visitContinue : Decides visitContinue loop loop true where
  ok {b} hb hloop := by
    obtain ⟨c, hc, hrun⟩ := exists_visitAt hb
    rw [visitContinue, hrun]
    obtain ⟨t, ht⟩ := Option.isSome_iff_exists.mp (hb.continues.trans hloop)
    simp [ht]
  flows hb hrun := by
    obtain ⟨c, t, -, ht, -⟩ := visitContinue_eq_ok hb.toSane hrun
    rw [← hb.continues, ht, Option.isSome_some]
  ends hb hrun := by
    obtain ⟨c, t, hc, -, rfl⟩ := visitContinue_eq_ok hb.toSane hrun
    simp [jumpTo, currentBlock_terminate (b := (CFGBuilder.modifyBlock c _ _).addStatement c _)
      (c := c) _ _ hc]

theorem decides_visitDefer : Decides (visitDefer stmt) loop true false where
  ok {b} hb _ := by
    obtain ⟨c, -, hrun⟩ := exists_visitAt hb
    exact ⟨_, hrun⟩
  flows _ _ := rfl
  ends {b b'} hb hrun := by
    obtain ⟨c, hc, hvisit⟩ := hb.toSane.visitAt hrun
    rw [Except.ok.injEq] at hvisit
    have hcur : b'.currentBlock = some c := by
      rw [← hvisit]
      exact hc
    simp [hcur]

/-! ### Blocks -/

theorem Ready.pushScope (h : b.Ready loop) : b.pushScope.Ready loop :=
  { h.toSane.pushScope with
    breaks := h.breaks
    continues := h.continues
    stands := h.stands }

theorem currentBlock_endScope : b.endScope.popScope.currentBlock = b.currentBlock := by
  show b.endScope.currentBlock = b.currentBlock
  rw [endScope]
  cases hc : b.currentBlock with
  | none => exact hc
  | some c => exact hc

theorem decides_visitBlock (h : Decides v loop flows stops) (hv : Sound v) :
    Decides (visitBlock v) loop flows stops where
  ok {b} hb hflows := by
    have hmap : visitBlock v b = (v b.pushScope).map _ := bind_pure_eq_map
    rw [hmap]
    exact map_eq_ok.mpr (h.ok hb.pushScope hflows)
  flows hb hrun := by
    obtain ⟨m, hm, -⟩ := visitBlock_eq_ok hb.toSane hv hrun
    exact h.flows hb.pushScope hm
  ends hb hrun := by
    obtain ⟨m, hm, -, rfl⟩ := visitBlock_eq_ok hb.toSane hv hrun
    rw [currentBlock_endScope]
    exact h.ends hb.pushScope hm

theorem visitExpr_of_none {e : Expr} (h : b.openBlock = none) : e.visitExpr b ≠ .ok b' := by
  intro hrun
  have hat : ∃ visit, e.visitExpr = visitAt visit := by cases e <;> exact ⟨_, rfl⟩
  obtain ⟨visit, hvisit⟩ := hat
  rw [hvisit] at hrun
  obtain ⟨c, hc, -⟩ := visitAt_eq_ok.mp hrun
  rw [h] at hc
  cases hc

/-- Behind a statement that stops there may be none. -/
theorem Decides.cons {e : Expr} {es : List Expr} {flows' stops' : Bool}
    (h : Decides e.visitExpr loop flows stops)
    (hes : Decides (visitStatements es) loop flows' stops') :
    Decides (visitStatements (e :: es)) loop (flows && (es.isEmpty || !stops) && flows')
      (stops || stops') where
  ok {b} hb hflows := by
    simp only [Bool.and_eq_true, Bool.or_eq_true, List.isEmpty_iff, Bool.not_eq_true'] at hflows
    obtain ⟨⟨hflows, hlast⟩, hflows'⟩ := hflows
    obtain ⟨m, hm⟩ := h.ok hb hflows
    have hvis := e.sound hb.toSane hm
    cases hc : m.currentBlock with
    | some c =>
      obtain ⟨b', hb'⟩ := hes.ok (hvis.ready hb.toInLoop hc) hflows'
      exact ⟨b', bind_eq_ok.mpr ⟨m, hm, hb'⟩⟩
    | none =>
      have hstops := (h.ends hb hm).mp hc
      obtain rfl : es = [] := hlast.resolve_right (by simp [hstops])
      exact ⟨m, bind_eq_ok.mpr ⟨m, hm, rfl⟩⟩
  flows {b b'} hb hrun := by
    obtain ⟨m, hm, hrest⟩ := bind_eq_ok.mp hrun
    have hvis := e.sound hb.toSane hm
    simp only [Bool.and_eq_true, Bool.or_eq_true, List.isEmpty_iff, Bool.not_eq_true']
    cases hc : m.currentBlock with
    | some c =>
      refine ⟨⟨h.flows hb hm, .inr ?_⟩, hes.flows (hvis.ready hb.toInLoop hc) hrest⟩
      have hends := h.ends hb hm
      rw [hc] at hends
      simpa using hends
    | none =>
      cases es with
      | nil => exact ⟨⟨h.flows hb hm, .inl rfl⟩, hes.flows hb rfl⟩
      | cons e' es =>
        obtain ⟨m', hm', -⟩ := bind_eq_ok.mp hrest
        exact absurd hm' (visitExpr_of_none (hvis.sane.openBlock.trans hc))
  ends {b b'} hb hrun := by
    obtain ⟨m, hm, hrest⟩ := bind_eq_ok.mp hrun
    have hvis := e.sound hb.toSane hm
    have hends := h.ends hb hm
    cases hc : m.currentBlock with
    | some c =>
      have hstops : stops = false := by
        rw [hc] at hends
        simpa using hends
      rw [hstops, Bool.false_or]
      exact hes.ends (hvis.ready hb.toInLoop hc) hrest
    | none =>
      cases es with
      | nil =>
        obtain rfl : m = b' := Except.ok.inj hrest
        simp [hc, hends.mp hc]
      | cons e' es =>
        obtain ⟨m', hm', -⟩ := bind_eq_ok.mp hrest
        exact absurd hm' (visitExpr_of_none (hvis.sane.openBlock.trans hc))

/-! ### Loops -/

theorem LoopBuilt.ready {c first body k x : ℕ} {m : CFGBuilder}
    (h : LoopBuilt b b' v c first body k x s m) : s.Ready true := by
  have hbreaks := congrFun h.exits .breaks
  have hcontinues := congrFun h.exits .continues
  refine { h.sane with breaks := ?_, continues := ?_, stands := ⟨body, h.body_current⟩ }
  · cases ht : s.loopBreakTarget with
    | none => simp [CFGBuilder.exits, FlowGraph.inLoop, ht] at hbreaks
    | some t => rfl
  · cases ht : s.loopContinueTarget with
    | none => simp [CFGBuilder.exits, FlowGraph.inLoop, ht] at hcontinues
    | some t => rfl

/-- A loop is as good as its body, and it is passed. -/
theorem decides_loop (build : Visit → Visit)
    (hbuild : ∀ {b c}, b.openBlock = some c → ∃ s f, ∀ v : Visit, build v b = (v s).map f)
    (hbuilt : ∀ {v b b'}, b.Sane → Sound v → build v b = .ok b' →
      ∃ c first body k x s m, LoopBuilt b b' v c first body k x s m)
    (h : Decides v true flows stops) (hv : Sound v) : Decides (build v) loop flows false where
  ok {b} hb hflows := by
    obtain ⟨c, -, hopen⟩ := hb.openBlock
    obtain ⟨s, f, hmap⟩ := hbuild hopen
    have hready : s.Ready true := Ready.of_visited hmap fun v b' hv hrun => by
      obtain ⟨_, _, _, _, _, s', m, hloop⟩ := hbuilt hb.toSane hv hrun
      exact ⟨s', m, hloop.ready, hloop.run⟩
    rw [hmap]
    exact map_eq_ok.mpr (h.ok hready hflows)
  flows hb hrun := by
    obtain ⟨_, _, _, _, _, s, m, hloop⟩ := hbuilt hb.toSane hv hrun
    exact h.flows hloop.ready hloop.run
  ends hb hrun := by
    obtain ⟨_, _, _, _, _, s, m, hloop⟩ := hbuilt hb.toSane hv hrun
    simp [hloop.exit_current]

theorem visitLoopBody_eq {x k body : ℕ} : visitLoopBody x k body v b =
    (v (b.enterLoop x k body)).map fun m => b.leaveLoop (m.linkTo k) := bind_pure_eq_map

theorem map_bind_pure {x : Except FlowError CFGBuilder} {f g : CFGBuilder → CFGBuilder} :
    (x.map f >>= fun m => pure (g m)) = x.map fun m => g (f m) := by
  cases x <;> rfl

theorem decides_visitWhile {cond : Expr} (h : Decides v true flows stops) (hv : Sound v) :
    Decides (visitWhile cond v) loop flows false :=
  decides_loop (visitWhile cond)
    (fun {b c} hc => by
      simp only [visitWhile, visitAt, hc, visitLoopBody_eq, map_bind_pure]
      exact ⟨_, _, fun _ => rfl⟩)
    (fun hb hv hrun => by
      obtain ⟨c, body, k, x, s, m, hloop, -⟩ := visitWhile_eq_ok hb hv hrun
      exact ⟨c, k, body, k, x, s, m, hloop⟩) h hv

theorem decides_visitDoWhile {cond : Expr} (h : Decides v true flows stops) (hv : Sound v) :
    Decides (visitDoWhile v cond) loop flows false :=
  decides_loop (fun v => visitDoWhile v cond)
    (fun {b c} hc => by
      simp only [visitDoWhile, visitAt, hc, visitLoopBody_eq, map_bind_pure]
      exact ⟨_, _, fun _ => rfl⟩)
    (fun hb hv hrun => by
      obtain ⟨c, body, k, x, s, m, hloop, -⟩ := visitDoWhile_eq_ok hb hv hrun
      exact ⟨c, body, body, k, x, s, m, hloop⟩) h hv

theorem decides_visitCounted {header : List Expr} {names : String × String × String × String}
    (h : Decides v true flows stops) (hv : Sound v) :
    Decides (visitCounted header names v) loop flows false :=
  decides_loop (visitCounted header names)
    (fun {b c} hc => by
      simp only [visitCounted, visitAt, hc, visitLoopBody_eq, map_bind_pure]
      exact ⟨_, _, fun _ => rfl⟩)
    (fun hb hv hrun => by
      obtain ⟨c, first, body, k, x, s, m, hloop, -⟩ := visitCounted_eq_ok hb hv hrun
      exact ⟨c, first, body, k, x, s, m, hloop⟩) h hv

theorem decides_visitAt {visit : ℕ → Visit} (h : ∀ c, Decides (visit c) loop flows stops) :
    Decides (visitAt visit) loop flows stops where
  ok hb hflows := by
    obtain ⟨c, -, hat⟩ := exists_visitAt hb
    rw [hat]
    exact (h c).ok hb hflows
  flows hb hrun := by
    obtain ⟨c, -, hrun⟩ := hb.toSane.visitAt hrun
    exact (h c).flows hb hrun
  ends hb hrun := by
    obtain ⟨c, -, hrun⟩ := hb.toSane.visitAt hrun
    exact (h c).ends hb hrun

/-- A construct that can be told whole from the block at which the builder stands. -/
theorem decides_of_visitAt {visit : ℕ → Visit}
    (h : ∀ {b c}, b.Ready loop → b.currentBlock = some c →
      ((∃ b', visit c b = .ok b') ↔ flows = true) ∧
        ∀ b', visit c b = .ok b' → (b'.currentBlock = none ↔ stops = true)) :
    Decides (visitAt visit) loop flows stops where
  ok hb hflows := by
    obtain ⟨c, hc, hat⟩ := exists_visitAt hb
    rw [hat]
    exact (h hb hc).1.mpr hflows
  flows hb hrun := by
    obtain ⟨c, hc, hrun⟩ := hb.toSane.visitAt hrun
    exact (h hb hc).1.mp ⟨_, hrun⟩
  ends hb hrun := by
    obtain ⟨c, hc, hrun⟩ := hb.toSane.visitAt hrun
    exact (h hb hc).2 _ hrun

theorem decides_ok : Decides .ok loop true false where
  ok _ _ := ⟨_, rfl⟩
  flows _ _ := rfl
  ends {b b'} hb hrun := by
    obtain rfl : b = b' := Except.ok.inj hrun
    obtain ⟨c, hc⟩ := hb.stands
    simp [hc]

theorem InLoop.createBlock (h : b.InLoop loop) (name : String) : (b.createBlock name).InLoop loop :=
  ⟨h.breaks, h.continues⟩

theorem ArmBuilt.ready {prev merge t : ℕ} {m : CFGBuilder} (h : ArmBuilt b b' v prev merge t s m)
    (hb : b.InLoop loop) : s.Ready loop :=
  { h.sane, hb.of_frame h.before.frame with stands := ⟨t, h.current⟩ }

/-! ### Branches and arms -/

/-- What follows a visit without a failure of its own succeeds with it. -/
theorem Takes.followed (h : Takes v loop flows) (hs : s.Ready loop) (f : CFGBuilder → CFGBuilder) :
    (∃ b', (do
      let m ← v s
      return f m) = .ok b') ↔ flows = true := by
  rw [bind_pure_eq_map, map_eq_ok]
  exact ⟨fun ⟨m, hm⟩ => h.flows hs hm, h.ok hs⟩

end CFGBuilder

open CFGBuilder

namespace Ast

mutual

/-- A statement is visited successfully exactly if it flows, and is left exactly if it does not
stop. -/
theorem Expr.decides : ∀ (e : Expr) {loop : Bool}, Decides e.visitExpr loop (e.flows loop) e.stops
  | .bool _, _ | .name _ _, _ => decides_visitRegular .nil fun _ h => by cases h
  | .node kind children, _ => decides_visitRegular ((eachDecides children).inWalkOrder kind)
      (sound_inWalkOrder kind (sound_eachRunBlocks children))
  | .logical _ lhs rhs, _ => decides_visitRegular (lhs.takesAll.append rhs.takesAll)
      (sound_append lhs.sound_runBlocks rhs.sound_runBlocks)
  | .varDecl _ _ inits, _ => decides_visitRegular (eachDecides inits)
      (sound_flatten (sound_eachRunBlocks inits))
  | .recoverProduce wrapped produce, _ =>
    decides_visitRegular (wrapped.takesAll.append produce.takesAll)
      (sound_append wrapped.sound_runBlocks produce.sound_runBlocks)
  | .recoverRun wrapped _ block, _ =>
    decides_visitRegular (wrapped.takesAll.append (.single block.decides.toTakes))
      (sound_append wrapped.sound_runBlocks (List.forall_mem_singleton.mpr block.sound))
  | .tryExpr operand, _ => decides_visitRegular operand.takesAll operand.sound_runBlocks
  | .block exprs, _ =>
    decides_visitAt fun _ => decides_visitBlock (itemsDecide exprs) (sound_visitStatements exprs)
  | .unsafeBlock body, _ => decides_visitAt fun _ => body.decides_asBlock
  | .ifElse branches, loop => decides_of_visitAt fun {b c} hb hc => by
    obtain ⟨hw, hopen, hvac, hne⟩ := hb.toSane.ifStart hc "if.end"
    have hdecides := @Branches.decides branches loop _ _ _ true true hw hopen hvac (fun _ => hne)
      (hb.toInLoop.createBlock _)
    rwa [Bool.true_and] at hdecides
  | .whileLoop _ body, _ => decides_visitWhile body.decides body.sound
  | .doWhile body _, _ => decides_visitDoWhile body.decides body.sound
  | .forRange _ _ _ _ _ body, _ => decides_visitCounted body.decides body.sound
  | .forEach _ _ body, _ => decides_visitCounted body.decides body.sound
  | .compare subject arms, loop => by
    refine ⟨⟨fun {b} hb hflows => ?_, fun {b b'} hb hrun => ?_⟩, fun {b b'} hb hrun => ?_⟩
    · obtain ⟨c, hc, hat⟩ := exists_visitAt hb
      have h : CompareStart b subject c _ := hb.toSane.compareStart hc
      rw [Expr.visitExpr, visitCompare, hat]
      obtain ⟨b₂, hb₂⟩ := (@Arms.decides arms loop _ _ _ false h.chain.wired h.lt h.vacant h.ne
        (hb.of_frame h.chain.frame)).mpr hflows
      exact ⟨_, bind_eq_ok.mpr ⟨b₂, hb₂, rfl⟩⟩
    · obtain ⟨c, b₁, b₂, hc, h, hvisit, -⟩ := visitCompare_eq_ok hb.toSane hrun
      exact (arms.decides h.chain.wired h.lt h.vacant h.ne (hb.of_frame h.chain.frame)).mp
        ⟨b₂, hvisit⟩
    · obtain ⟨c, b₁, b₂, -, -, -, rfl⟩ := visitCompare_eq_ok hb.toSane hrun
      simp [CFGBuilder.setInsertPoint, Expr.stops]
  | .returnVoid, _ => decides_visitReturn .nil fun _ h => by cases h
  | .returnVal val, _ => decides_visitReturn val.takesAll val.sound_runBlocks
  | .breakLoop, _ => decides_visitBreak
  | .continueLoop, _ => decides_visitContinue
  | .defer _, _ => decides_visitDefer

theorem Expr.decides_asBlock : ∀ (e : Expr) {loop : Bool},
    Decides e.visitAsBlock loop (!e.isBlock || e.flows loop) (e.isBlock && e.stops)
  | .block exprs, _ => decides_visitBlock (itemsDecide exprs) (sound_visitStatements exprs)
  | .bool _, _ | .name _ _, _ | .node _ _, _ | .logical _ _ _, _ | .varDecl _ _ _, _
  | .recoverProduce _ _, _ | .recoverRun _ _ _, _ | .tryExpr _, _ | .unsafeBlock _, _
  | .ifElse _, _ | .whileLoop _ _, _ | .doWhile _ _, _ | .forRange _ _ _ _ _ _, _
  | .forEach _ _ _, _ | .compare _ _, _ | .returnVoid, _ | .returnVal _, _ | .breakLoop, _
  | .continueLoop, _ | .defer _, _ => decides_ok

theorem Branches.decides : ∀ (br : Branches) {loop : Bool} {b : CFGBuilder} {merge condBlock : ℕ}
    {first all : Bool}, b.Wired → b.OpenAt condBlock → b.Vacant merge →
    (br ≠ .noElse → condBlock ≠ merge) → b.InLoop loop →
    ((∃ b', br.visitIf merge first condBlock all b = .ok b') ↔ br.flows loop = true) ∧
      ∀ b', br.visitIf merge first condBlock all b = .ok b' →
        (b'.currentBlock = none ↔ (all && br.allStop) = true)
  | .noElse, _, b, merge, _, _, all, _, _, _, _, _ => by
    refine ⟨⟨fun _ => rfl, fun _ => ⟨_, rfl⟩⟩, fun b' hrun => ?_⟩
    obtain rfl : b.setInsertPoint merge = b' := Except.ok.inj hrun
    simp [CFGBuilder.setInsertPoint, Branches.allStop]
  | .elseBody body, loop, b, merge, condBlock, _, all, hb, hcond, _, _, hloop => by
    have hs := hb.sane_setInsertPoint hcond
    have hready : (b.setInsertPoint condBlock).Ready loop :=
      { hs with breaks := hloop.breaks, continues := hloop.continues, stands := ⟨_, rfl⟩ }
    refine ⟨⟨?_, fun hflows => ?_⟩, fun b' hrun => ?_⟩
    · rintro ⟨b', hrun⟩
      obtain ⟨m, hm, -⟩ := bind_eq_ok.mp hrun
      exact body.decides.flows hready hm
    · obtain ⟨m, hm⟩ := body.decides.ok hready hflows
      exact ⟨_, bind_eq_ok.mpr ⟨m, hm, rfl⟩⟩
    · obtain ⟨m, hm, hend⟩ := bind_eq_ok.mp hrun
      obtain rfl := pure_eq_ok.mp hend
      have hends := body.decides.ends hready hm
      show (if (all && m.openBlock.isNone) = true then none else some merge) = none ↔ _
      rw [(body.sound hs hm).sane.openBlock]
      simp [Branches.allStop, ← hends]
  | .branch cond body rest, loop, b, merge, condBlock, first, all, hb, hcond, hmerge, hne,
      hloop => by
    have hne := hne (by simp)
    have hO := hb.openBranch hcond hmerge hne first rest.nextName cond
    have hs := hO.chain.sane_at hO.vacant.toOpenAt hO.current
    have hready : (b.openBranch first rest.nextName merge cond condBlock).2.Ready loop :=
      { hs, hloop.of_frame hO.chain.frame with stands := ⟨_, hO.current⟩ }
    -- What comes after the branch, from wherever its body ends.
    have hafter : ∀ m, body.visitExpr (b.openBranch first rest.nextName merge cond condBlock).2 =
        .ok m → ((∃ b', rest.visitIf merge false
          (b.openBranch first rest.nextName merge cond condBlock).1 (all && m.openBlock.isNone)
          (m.linkTo merge) = .ok b') ↔ rest.flows loop = true) ∧
        ∀ b', rest.visitIf merge false (b.openBranch first rest.nextName merge cond condBlock).1
          (all && m.openBlock.isNone) (m.linkTo merge) = .ok b' →
          (b'.currentBlock = none ↔ ((all && m.openBlock.isNone) && rest.allStop) = true) := by
      intro m hm
      obtain ⟨m', h⟩ := hb.branchBuilt all (fun _ _ b => .ok b) hcond hmerge hne body.sound
        (bind_eq_ok.mpr ⟨m, hm, rfl⟩)
      obtain rfl : m' = m := Except.ok.inj (h.run.symm.trans hm)
      refine rest.decides h.chain.wired h.next_vacant.toOpenAt h.merge_vacant (fun hrest => ?_)
        (hloop.of_frame h.chain.frame)
      have hnew := h.opened.next_new (by cases rest <;> first | rfl | contradiction)
      have := hmerge.lt
      omega
    refine ⟨⟨?_, fun hflows => ?_⟩, fun b' hrun => ?_⟩
    · rintro ⟨b', hrun⟩
      obtain ⟨m, hm, hrest⟩ := bind_eq_ok.mp hrun
      simp [Branches.flows, body.decides.flows hready hm, ((hafter m hm).1).mp ⟨b', hrest⟩]
    · rw [Branches.flows, Bool.and_eq_true] at hflows
      obtain ⟨m, hm⟩ := body.decides.ok hready hflows.1
      obtain ⟨b', hb'⟩ := ((hafter m hm).1).mpr hflows.2
      exact ⟨b', bind_eq_ok.mpr ⟨m, hm, hb'⟩⟩
    · obtain ⟨m, hm, hrest⟩ := bind_eq_ok.mp hrun
      have hends := body.decides.ends hready hm
      rw [(hafter m hm).2 b' hrest, (body.sound hs hm).sane.openBlock]
      simp [Branches.allStop, ← hends, and_assoc]

theorem Arms.decides : ∀ (arms : Arms) {loop : Bool} {b : CFGBuilder} {merge prev : ℕ}
    {real : Bool}, b.Wired → prev < b.nextID → b.Vacant merge → prev ≠ merge → b.InLoop loop →
    ((∃ b', arms.visitArms merge prev real b = .ok b') ↔ arms.flows loop = true)
  | .noOtherBody _, _, _, _, _, _, _, _, _, _, _ => ⟨fun _ => rfl, fun _ => ⟨_, rfl⟩⟩
  | .otherBody body, loop, b, merge, prev, real, hb, hprev, hmerge, _, hloop => by
    have hready : (((b.createBlock "compare.otherwise").linkFail prev real b.nextID).setInsertPoint
        b.nextID).Ready loop := by
      refine Ready.of_visited (fun v => bind_pure_eq_map (f := (·.linkTo merge)))
        fun v b' hv hrun => ?_
      obtain ⟨s, m, h, -⟩ := hb.otherBuilt hprev hmerge.lt hv hrun
      exact ⟨s, m, h.ready hloop, h.run⟩
    exact body.decides.followed hready (·.linkTo merge)
  | .arm _ headers body rest, loop, b, merge, prev, real, hb, hprev, hmerge, hne, hloop => by
    have hready : ((headers.visitTests b.nextID prev real
        (b.createBlock "compare.arm")).2.2.setInsertPoint b.nextID).Ready loop := by
      refine Ready.of_visited (fun v => bind_pure_eq_map (f := (·.linkTo merge)))
        fun v b' hv hrun => ?_
      obtain ⟨last, isReal, s, m, h, -⟩ :=
        hb.armBuilt (fun _ _ b => .ok b) hprev hmerge.lt hv hrun
      exact ⟨s, m, h.ready hloop, h.run⟩
    have hafter : ∀ m, body.visitExpr ((headers.visitTests b.nextID prev real
        (b.createBlock "compare.arm")).2.2.setInsertPoint b.nextID) = .ok m →
        ((∃ b', rest.visitArms merge (headers.visitTests b.nextID prev real
          (b.createBlock "compare.arm")).1 (headers.visitTests b.nextID prev real
          (b.createBlock "compare.arm")).2.1 (m.linkTo merge) = .ok b') ↔
          rest.flows loop = true) := by
      intro m hm
      obtain ⟨last, isReal, s, m', h, hT, rfl, htests, -⟩ :=
        hb.armBuilt (fun _ _ b => .ok b) hprev hmerge.lt body.sound
          (bind_eq_ok.mpr ⟨m, hm, rfl⟩)
      obtain rfl : m' = m := Except.ok.inj (h.run.symm.trans hm)
      rw [hT]
      have hmlt := hmerge.lt
      have hle := htests.last_eq
      rw [nextID_createBlock] at hle
      exact rest.decides h.chain.wired (Nat.lt_of_lt_of_le htests.last_lt h.linked.nextID_le)
        (hmerge.kept h.chain.grows ⟨hmerge.lt, hne.symm⟩) (by omega)
        (hloop.of_frame h.chain.frame)
    constructor
    · rintro ⟨b', hrun⟩
      obtain ⟨m, hm, hrest⟩ := bind_eq_ok.mp hrun
      simp [Arms.flows, body.decides.flows hready hm, (hafter m hm).mp ⟨b', hrest⟩]
    · intro hflows
      rw [Arms.flows, Bool.and_eq_true] at hflows
      obtain ⟨m, hm⟩ := body.decides.ok hready hflows.1
      obtain ⟨b', hb'⟩ := (hafter m hm).mpr hflows.2
      exact ⟨b', bind_eq_ok.mpr ⟨m, hm, hb'⟩⟩

theorem itemsDecide : ∀ (l : List Expr) {loop : Bool},
    Decides (visitStatements l) loop (itemsFlow loop l) (someStops l)
  | [], _ => decides_ok
  | e :: es, _ => e.decides.cons (itemsDecide es)

theorem Expr.takesAll : ∀ (e : Expr) {loop : Bool}, TakesAll e.runBlocks loop (e.runsFlow loop)
  | .bool _, _ | .name _ _, _ | .returnVoid, _ | .breakLoop, _ | .continueLoop, _
  | .defer _, _ => .nil
  | .node kind children, _ => (eachDecides children).inWalkOrder kind
  | .logical _ lhs rhs, _ => lhs.takesAll.append rhs.takesAll
  | .varDecl _ _ inits, _ => eachDecides inits
  | .recoverProduce wrapped produce, _ => wrapped.takesAll.append produce.takesAll
  | .recoverRun wrapped _ block, _ => wrapped.takesAll.append (.single block.decides.toTakes)
  | .tryExpr operand, _ => operand.takesAll
  | .block exprs, _ => eachDecides exprs
  | .unsafeBlock body, _ => body.takesAll
  | .ifElse branches, _ => branches.takesAll
  | .whileLoop cond body, _ => cond.takesAll.append body.takesAll
  | .doWhile body cond, _ => cond.takesAll.append body.takesAll
  | .forRange _ _ start stop step body, _ =>
    ((start.takesAll.append stop.takesAll).append step.takesAll).append body.takesAll
  | .forEach _ iterable body, _ => iterable.takesAll.append body.takesAll
  | .compare subject arms, _ => subject.takesAll.append arms.takesAll
  | .returnVal val, _ => val.takesAll

theorem Branches.takesAll : ∀ (br : Branches) {loop : Bool},
    TakesAll br.runBlocks loop (br.runsFlow loop)
  | .noElse, _ => .nil
  | .elseBody body, _ => body.takesAll
  | .branch cond body rest, _ => (cond.takesAll.append body.takesAll).append rest.takesAll

theorem Arms.takesAll : ∀ (arms : Arms) {loop : Bool},
    TakesAll arms.runBlocks loop (arms.runsFlow loop)
  | .noOtherBody _, _ => .nil
  | .otherBody body, _ => body.takesAll
  | .arm _ headers body rest, _ =>
    ((headers.takesAll_values.append headers.takesAll_guards).append body.takesAll).append
      rest.takesAll

theorem Headers.takesAll_values (hs : Headers) {loop : Bool} :
    TakesAll hs.valueRunBlocks loop (hs.valueRunsFlow loop) := by
  cases hs with
  | nil => exact .nil
  | header val more | guarded val _ more => exact val.takesAll.append more.takesAll_values

theorem Headers.takesAll_guards (hs : Headers) {loop : Bool} :
    TakesAll hs.guardRunBlocks loop (hs.guardRunsFlow loop) := by
  cases hs with
  | nil => exact .nil
  | header _ more => exact more.takesAll_guards
  | guarded _ guard more => exact guard.takesAll.append more.takesAll_guards

theorem eachDecides : ∀ (l : List Expr) {loop : Bool},
    TakesAll (eachRunBlocks l).flatten loop (eachRunsFlow loop l)
  | [], _ => .nil
  | e :: es, _ => e.takesAll.append (eachDecides es)

end

end Ast

namespace CFGBuilder

variable {body : Expr}

/-! ### Whole bodies -/

theorem ready_start : start.Ready false :=
  { fresh_start.toSane with breaks := rfl, continues := rfl, stands := ⟨0, rfl⟩ }

theorem ready_regionStart : regionStart.Ready true :=
  { fresh_regionStart.toSane with breaks := rfl, continues := rfl, stands := ⟨0, rfl⟩ }

theorem Ready.exists_built (hs : s.Ready loop) : (∃ b, (do
    let b ← body.visitExpr s
    return b.linkTo b.exitBlock) = .ok b) ↔ body.flows loop = true :=
  body.decides.followed hs fun b => b.linkTo b.exitBlock

theorem Built.currentBlock_eq_none {m : CFGBuilder} (h : Built s body m b) (hs : s.Ready loop) :
    b.currentBlock = none ↔ body.stops = true := by
  rw [h.eq, currentBlock_linkTo]
  exact body.decides.ends hs h.run

/-- A function body has a graph exactly if no statement stands behind one that stops and no jump to
a loop stands outside of one; around a region there may be a loop. The end of the body is then
connected to the exit exactly if the body does not stop. -/
theorem buildCFG_ok_iff (body : Expr) :
    ((∃ b, buildCFG body = .ok b) ↔ body.flows false = true) ∧
      ((∃ b, buildRegionCFG body = .ok b) ↔ body.flows true = true) ∧
      ∀ b, buildCFG body = .ok b ∨ buildRegionCFG body = .ok b →
        (b.currentBlock = none ↔ body.stops = true) := by
  refine ⟨ready_start.exists_built, ready_regionStart.exists_built, ?_⟩
  rintro b (hbuild | hbuild)
  · obtain ⟨m, hm⟩ := buildCFG_built hbuild
    exact hm.currentBlock_eq_none ready_start
  · obtain ⟨m, hm⟩ := buildRegionCFG_built hbuild
    exact hm.currentBlock_eq_none ready_regionStart

theorem buildCFG_ok_iff_returnName :
    returnNameGraph.currentBlock = none ↔ returnName.stops = true :=
  (buildCFG_ok_iff returnName).2.2 returnNameGraph (.inl buildCFG_returnName)

example : (Expr.block [.whileLoop (.name "x" 0) (.block [.breakLoop]), .returnVoid]).flows false =
    true := by decide

example : (Expr.block [.breakLoop]).flows false = false := by decide

def returnsBothWays : Expr :=
  .ifElse (.branch (.name "x" 0) (.block [.returnVoid]) (.elseBody (.block [.returnVoid])))

end CFGBuilder

end TurfLang
