import TurfLang.Analysis.CfgBuilderSane
import TurfLang.Frontend.Placed
import TurfLang.Lib.FlowGraph

/-!
# Bodies of which the graph knows the control flow

The graph has the jumps of statements, and those of the `run` blocks that a statement evaluates
itself if such a block leaves the statement. It knows nothing of a `run` block in a condition.
-/

namespace TurfLang

open Behaviour

/-! ### `AllPathsDiverge` -/

namespace Ast

/-- Whether some arm of a `compare` is certain to run. -/
def Arms.certain : Arms → Bool
  | .noOtherBody exhaustive => exhaustive
  | .otherBody _ => true
  | .arm _ _ _ rest => rest.certain

mutual

/-- `AllPathsDiverge`: an answer for every node, `false` where it may come to its end. -/
def Expr.allPathsDiverge : Expr → Bool
  | .returnVoid | .returnVal _ | .breakLoop | .continueLoop => true
  | .block exprs => anyDiverges exprs
  | .ifElse branches => branches.allPathsDiverge
  | .compare _ arms => arms.certain && arms.allPathsDiverge
  | _ => false

def Branches.allPathsDiverge : Branches → Bool
  | .noElse => false
  | .elseBody body => body.allPathsDiverge
  | .branch _ body rest => body.allPathsDiverge && rest.allPathsDiverge

def Arms.allPathsDiverge : Arms → Bool
  | .noOtherBody _ => true
  | .otherBody body => body.allPathsDiverge
  | .arm _ _ body rest => body.allPathsDiverge && rest.allPathsDiverge

/-- One diverging statement makes the rest of a block unreachable. -/
def anyDiverges : List Expr → Bool
  | [] => false
  | e :: es => e.allPathsDiverge || anyDiverges es

end

/-! ### Bodies that have a graph -/

def Expr.isBlock : Expr → Bool
  | .block _ => true
  | _ => false

def Branches.isNone : Branches → Bool
  | .noElse => true
  | _ => false

mutual

/-- A statement: its conditions have no `run` block in them, its operands only such that leave the
statement, and a deferred statement comes to its own end. -/
def Expr.charted : Expr → Bool
  | .bool _ | .name _ _ | .returnVoid | .breakLoop | .continueLoop => true
  | .node _ children => operands children
  | .logical _ lhs rhs => lhs.operand && rhs.operand
  | .varDecl _ _ inits => operands inits
  | .recoverProduce wrapped produce => wrapped.operand && produce.operand
  -- the `run` block of a call without a value may come to its end
  | .recoverRun wrapped _ block => wrapped.operand && block.charted
  | .tryExpr operand => operand.operand
  | .block exprs => chartedItems exprs
  | .unsafeBlock body => body.isBlock && body.charted
  | .ifElse branches => !branches.isNone && branches.charted
  | .whileLoop cond body => cond.operand && cond.runBlocks.isEmpty && body.charted
  | .doWhile body cond => cond.operand && cond.runBlocks.isEmpty && body.charted
  | .forRange _ _ start stop step body =>
    start.operand && start.runBlocks.isEmpty && (stop.operand && stop.runBlocks.isEmpty) &&
      (step.operand && step.runBlocks.isEmpty) && body.charted
  | .forEach _ iterable body => iterable.operand && iterable.runBlocks.isEmpty && body.charted
  | .compare subject arms => subject.operand && subject.runBlocks.isEmpty && arms.charted
  | .returnVal val => val.operand
  | .defer _ => false

def Branches.charted : Branches → Bool
  | .noElse => true
  | .elseBody body => body.charted
  | .branch cond body rest =>
    cond.operand && cond.runBlocks.isEmpty && body.charted && rest.charted

def Arms.charted : Arms → Bool
  | .noOtherBody _ => true
  | .otherBody body => body.charted
  | .arm _ headers body rest => headers.charted && body.charted && rest.charted

def Headers.charted : Headers → Bool
  | .nil => true
  | .header val more => val.operand && val.runBlocks.isEmpty && more.charted
  | .guarded val guard more =>
    val.operand && val.runBlocks.isEmpty && (guard.operand && guard.runBlocks.isEmpty) &&
      more.charted

/-- The statements of a block. -/
def chartedItems : List Expr → Bool
  | [] => true
  | .defer stmt :: es => stmt.placed false false && chartedItems es
  | e :: es => e.charted && chartedItems es

/-- An expression inside a statement. -/
def Expr.operand : Expr → Bool
  | .bool _ | .name _ _ => true
  | .node _ children => operands children
  | .logical _ lhs rhs => lhs.operand && rhs.operand
  | .varDecl _ _ inits => operands inits
  | .recoverProduce wrapped produce => wrapped.operand && produce.operand
  | .recoverRun wrapped _ block => wrapped.operand && block.allPathsDiverge && block.charted
  | .tryExpr operand => operand.operand
  | .ifElse branches => branches.operand
  | _ => false

def Branches.operand : Branches → Bool
  | .noElse => true
  | .elseBody body => body.operand
  | .branch cond body rest => cond.operand && body.operand && rest.operand

def operands : List Expr → Bool
  | [] => true
  | e :: es => e.operand && operands es

end

/-! ### Statements that never come to their end -/

section

variable {ε : Type} {a b : Behaviour ε}

/-- No run comes to its end. -/
def Leaves (a : Behaviour ε) : Prop := ∀ t, ¬ a t .normal

theorem Leaves.seq_left (h : Leaves a) (b : Behaviour ε) : Leaves (seq a b) := by
  rintro t (⟨-, hne⟩ | ⟨t₁, _, h₁, -, -⟩)
  · exact hne rfl
  · exact h t₁ h₁

theorem Leaves.seq_right (a : Behaviour ε) (h : Leaves b) : Leaves (seq a b) := by
  rintro t (⟨-, hne⟩ | ⟨_, t₂, -, h₂, -⟩)
  · exact hne rfl
  · exact h t₂ h₂

theorem Leaves.choice (ha : Leaves a) (hb : Leaves b) : Leaves (choice a b) := by
  rintro t (h | h)
  · exact ha t h
  · exact hb t h

theorem Leaves.given (c : Prop) (h : Leaves a) : Leaves (given c a) := fun t ht => h t ht.2

theorem leaves_jump {o : Outcome} (h : o ≠ .normal) : Leaves (jump o : Behaviour ε) :=
  fun _ ht => h ht.2.symm

theorem Leaves.cleanup {d : Behaviour ε} (h : Leaves a) : Leaves (cleanup a d) := by
  rintro _ ⟨t₁, o₁, t₂, o₂, h₁, -, -, ho⟩
  split at ho
  · exact h t₁ (ho ▸ h₁)
  · exact absurd ho.symm (by assumption)

end

theorem Headers.leaves {m : Mode} {body rest : Behaviour Event} (hbody : Leaves body)
    (hrest : Leaves rest) (hs : Headers) : Leaves (hs.run m body rest) := by
  cases hs with
  | nil => exact hrest
  | header _ more =>
    exact .seq_right _ (.seq_right _ (.choice hbody (more.leaves hbody hrest)))
  | guarded _ _ more =>
    exact .seq_right _ (.seq_right _ (.choice (.seq_right _ (more.leaves hbody hrest))
      (.seq_right _ (.seq_right _ (.choice (.given _ hbody)
        (.given _ (more.leaves hbody hrest)))))))

mutual

theorem Expr.leaves_of_diverges {m : Mode} : ∀ {e : Expr}, e.allPathsDiverge = true →
    Leaves (e.run m)
  | .returnVoid, _ | .returnVal _, _ => .seq_right _ (leaves_jump nofun)
  | .breakLoop, _ | .continueLoop, _ => leaves_jump nofun
  | .block exprs, h => leaves_of_anyDiverges (l := exprs) h
  | .ifElse branches, h => Branches.leaves_of_diverges (b := branches) h
  | .compare _ arms, h => by
    simp only [Expr.allPathsDiverge, Bool.and_eq_true] at h
    exact .seq_right _ (.seq_right _ (Arms.leaves_of_diverges h.1 h.2))

theorem Branches.leaves_of_diverges {m : Mode} : ∀ {b : Branches}, b.allPathsDiverge = true →
    Leaves (b.run m)
  | .elseBody body, h => Expr.leaves_of_diverges (e := body) h
  | .branch _ body rest, h => by
    simp only [Branches.allPathsDiverge, Bool.and_eq_true] at h
    exact .seq_right _ (.seq_right _ (.choice (.given _ (Expr.leaves_of_diverges h.1))
      (.given _ (Branches.leaves_of_diverges h.2))))

theorem Arms.leaves_of_diverges {m : Mode} : ∀ {a : Arms}, a.certain = true →
    a.allPathsDiverge = true → Leaves (a.run m)
  | .noOtherBody exhaustive, hc, _ => by
    rintro t ⟨hfalse, -⟩
    exact absurd (hc.symm.trans hfalse) (by decide)
  | .otherBody body, _, h => Expr.leaves_of_diverges (e := body) h
  | .arm _ headers body rest, hc, h => by
    simp only [Arms.allPathsDiverge, Bool.and_eq_true] at h
    exact headers.leaves (Expr.leaves_of_diverges h.1) (Arms.leaves_of_diverges (a := rest) hc h.2)

theorem leaves_of_anyDiverges {m : Mode} : ∀ {l : List Expr}, anyDiverges l = true →
    Leaves (runItems l m)
  | e :: es, h => by
    simp only [anyDiverges, Bool.or_eq_true] at h
    cases e with
    | defer stmt =>
      have h := h.resolve_left (by simp [Expr.allPathsDiverge])
      exact .seq_right _ (.seq_right _ (leaves_of_anyDiverges h).cleanup)
    | _ =>
      rcases h with h | h
      · exact (Expr.leaves_of_diverges h).seq_left _
      · exact .seq_right _ (leaves_of_anyDiverges h)

end

/-! ### What the graph shows -/

/-- What a block records of an event. -/
def Event.shown : Event → Option Entry
  | .ran e | .passed e => some (.statement e)
  | .deferred e => some (.deferredRun e)
  | _ => none

/-- Only what is deferred may come after the place at which the graph stops. -/
def Event.Late (ev : Event) : Prop := ∀ e, ev ≠ .ran e ∧ ev ≠ .passed e

def graphView : FlowGraph.View Event Entry where
  seen := Event.shown
  late := Event.Late

/-- An event that the graph does not show. -/
def Event.Unseen (ev : Event) : Prop := ev.shown = none ∧ ev.Late

@[simp] theorem Event.unseen_eval (e : Expr) : (Event.eval e).Unseen :=
  ⟨rfl, fun _ => ⟨nofun, nofun⟩⟩

@[simp] theorem Event.unseen_reached (e : Expr) : (Event.reached e).Unseen :=
  ⟨rfl, fun _ => ⟨nofun, nofun⟩⟩

@[simp] theorem Event.unseen_finished (e : Expr) : (Event.finished e).Unseen :=
  ⟨rfl, fun _ => ⟨nofun, nofun⟩⟩

theorem Event.late_deferred (e : Expr) : (Event.deferred e).Late := fun _ => ⟨nofun, nofun⟩

theorem shows_event {ε : Type} {p : ε → Prop} {e : ε} (h : p e) : Shows p (event e) := by
  rintro t o ⟨rfl, -⟩
  simpa using h

section

/-- Where the graph has no part of a tree, it shows nothing of it. -/
abbrev Hidden (a : Behaviour Event) : Prop := Shows Event.Unseen a

private theorem closed : Closed Hidden := closed_shows

theorem hidden_op (e : Expr) : Hidden (op (.eval e)) := shows_op (Event.unseen_eval e)

theorem hidden_jump (o : Outcome) : Hidden (jump o) := shows_jump o

theorem hidden_regular {e : Expr} {a : Behaviour Event} (h : Hidden a) :
    Hidden (regular .hidden e a) := closed.seq h closed.skip

mutual

theorem Expr.hidden_run : ∀ e : Expr, Hidden (e.run .hidden)
  | .bool _ | .name _ _ => hidden_regular (hidden_op _)
  | .node _ children => hidden_regular (closed.seq (hidden_runAll children) (hidden_op _))
  | .logical _ lhs rhs => hidden_regular (closed.seq lhs.hidden_run (closed.choice
    (closed.given closed.skip) (closed.given rhs.hidden_run)))
  | .varDecl _ _ inits => hidden_regular (closed.seq (hidden_runAll inits) (hidden_op _))
  | .recoverProduce wrapped produce =>
    hidden_regular (closed.seq wrapped.hidden_run (closed.choice closed.skip produce.hidden_run))
  | .recoverRun wrapped _ block =>
    hidden_regular (closed.seq wrapped.hidden_run (closed.choice closed.skip block.hidden_run))
  | .tryExpr operand =>
    hidden_regular (closed.seq operand.hidden_run (closed.choice closed.skip (hidden_jump _)))
  | .block exprs => hidden_runItems exprs
  | .unsafeBlock body => body.hidden_run
  | .ifElse branches => branches.hidden_run
  | .whileLoop cond body =>
    closed.loop (closed.seq cond.hidden_run closed.skip) body.hidden_run closed.skip
  | .doWhile body cond =>
    closed.loop closed.skip body.hidden_run (closed.seq cond.hidden_run closed.skip)
  | .forRange _ _ start stop step body => closed.seq start.hidden_run (closed.seq stop.hidden_run
    (closed.loop (closed.seq closed.skip closed.skip) body.hidden_run step.hidden_run))
  | .forEach _ iterable body => closed.seq iterable.hidden_run (closed.loop closed.skip
    (closed.seq (closed.choice closed.skip (hidden_jump _)) body.hidden_run) closed.skip)
  | .compare subject arms => closed.seq subject.hidden_run (closed.seq closed.skip arms.hidden_run)
  | .returnVoid => closed.seq (hidden_regular closed.skip) (hidden_jump _)
  | .returnVal val => closed.seq (hidden_regular val.hidden_run) (hidden_jump _)
  | .breakLoop | .continueLoop => hidden_jump _
  | .defer _ => closed.skip

theorem Branches.hidden_run : ∀ b : Branches, Hidden (b.run .hidden)
  | .noElse => closed.skip
  | .elseBody body => body.hidden_run
  | .branch cond body rest => closed.seq cond.hidden_run (closed.seq closed.skip
    (closed.choice (closed.given body.hidden_run) (closed.given rest.hidden_run)))

theorem Arms.hidden_run : ∀ a : Arms, Hidden (a.run .hidden)
  | .noOtherBody _ => closed.given closed.skip
  | .otherBody body => body.hidden_run
  | .arm _ headers body rest => headers.hidden_run body.hidden_run rest.hidden_run

theorem Headers.hidden_run {body rest : Behaviour Event} : ∀ hs : Headers, Hidden body →
    Hidden rest → Hidden (hs.run .hidden body rest)
  | .nil, _, hrest => hrest
  | .header val more, hbody, hrest => closed.seq val.hidden_run (closed.seq closed.skip
    (closed.choice hbody (more.hidden_run hbody hrest)))
  | .guarded val guard more, hbody, hrest =>
    have hmore := more.hidden_run hbody hrest
    closed.seq val.hidden_run (closed.seq closed.skip (closed.choice (closed.seq closed.skip hmore)
      (closed.seq guard.hidden_run (closed.seq closed.skip
        (closed.choice (closed.given hbody) (closed.given hmore))))))

theorem hidden_runAll : ∀ l : List Expr, Hidden (runAll l .hidden)
  | [] => closed.skip
  | e :: es => closed.seq e.hidden_run (hidden_runAll es)

theorem hidden_runItems : ∀ l : List Expr, Hidden (runItems l .hidden)
  | [] => closed.skip
  | e :: es => by
    cases e with
    | defer stmt =>
      have hdeferred : Hidden (seq (stmt.run .hidden) (seq (event (.finished stmt)) skip)) :=
        closed.seq stmt.hidden_run
          (closed.seq (shows_event (Event.unseen_finished stmt)) closed.skip)
      exact closed.seq (shows_event (Event.unseen_reached stmt))
        (closed.seq closed.skip (closed.cleanup (hidden_runItems es) hdeferred))
    | _ => exact closed.seq (Expr.hidden_run _) (hidden_runItems es)

end

end

/-! ### Conditions -/

/-- An end that is no jump of a statement. -/
def Quiet (o : Outcome) : Prop := o = .normal ∨ o = .halts ∨ o = .fails

section

variable {m : Mode}

theorem quiet_skip : Within Quiet (skip : Behaviour Event) := within_skip (.inl rfl)

theorem quiet_regular {e : Expr} {a : Behaviour Event} (h : Within Quiet a) :
    Within Quiet (regular .hidden e a) := within_seq h quiet_skip

theorem quiet_op (e : Expr) : Within Quiet (op (Event.eval e)) :=
  within_op (.inl rfl) (.inr (.inl rfl))

mutual

/-- An operand without a `run` block does not jump. -/
theorem Expr.quiet_run : ∀ {e : Expr}, e.operand = true → e.runBlocks = [] →
    Within Quiet (e.run .hidden)
  | .bool _, _, _ | .name _ _, _, _ => quiet_regular (quiet_op _)
  | .node kind children, h, hr => by
    refine quiet_regular (within_seq (quiet_runAll (l := children) h fun vs hvs => ?_) (quiet_op _))
    rw [Expr.runBlocks, List.flatten_eq_nil_iff] at hr
    exact hr vs (by cases kind <;> simpa [NodeKind.inWalkOrder] using hvs)
  | .logical _ lhs rhs, h, hr => by
    simp only [Expr.operand, Bool.and_eq_true] at h
    rw [Expr.runBlocks, List.append_eq_nil_iff] at hr
    exact quiet_regular (within_seq (Expr.quiet_run h.1 hr.1) (within_choice
      (within_given quiet_skip) (within_given (Expr.quiet_run h.2 hr.2))))
  | .varDecl _ _ inits, h, hr => by
    rw [Expr.runBlocks, List.flatten_eq_nil_iff] at hr
    exact quiet_regular (within_seq (quiet_runAll (l := inits) h hr) (quiet_op _))
  | .recoverProduce wrapped produce, h, hr => by
    simp only [Expr.operand, Bool.and_eq_true] at h
    rw [Expr.runBlocks, List.append_eq_nil_iff] at hr
    exact quiet_regular (within_seq (Expr.quiet_run h.1 hr.1)
      (within_choice quiet_skip (Expr.quiet_run h.2 hr.2)))
  | .recoverRun _ _ _, _, hr => by simp [Expr.runBlocks] at hr
  | .tryExpr operand, h, hr =>
    quiet_regular (within_seq (Expr.quiet_run (e := operand) h hr)
      (within_choice quiet_skip (within_jump (.inr (.inr rfl)))))
  | .ifElse branches, h, hr => Branches.quiet_run (b := branches) h hr

theorem Branches.quiet_run : ∀ {b : Branches}, b.operand = true → b.runBlocks = [] →
    Within Quiet (b.run .hidden)
  | .noElse, _, _ => quiet_skip
  | .elseBody body, h, hr => Expr.quiet_run (e := body) h hr
  | .branch cond body rest, h, hr => by
    simp only [Branches.operand, Bool.and_eq_true] at h
    rw [Branches.runBlocks, List.append_eq_nil_iff, List.append_eq_nil_iff] at hr
    exact within_seq (Expr.quiet_run h.1.1 hr.1.1) (within_seq quiet_skip (within_choice
      (within_given (Expr.quiet_run h.1.2 hr.1.2)) (within_given (Branches.quiet_run h.2 hr.2))))

theorem quiet_runAll : ∀ {l : List Expr}, operands l = true →
    (∀ vs ∈ eachRunBlocks l, vs = []) → Within Quiet (runAll l .hidden)
  | [], _, _ => quiet_skip
  | e :: es, h, hr => by
    simp only [operands, Bool.and_eq_true] at h
    rw [eachRunBlocks, List.forall_mem_cons] at hr
    exact within_seq (Expr.quiet_run h.1 hr.1) (quiet_runAll h.2 hr.2)

end

end

theorem Expr.isJump_eq_false_of_operand {e : Expr} (h : e.operand = true) : e.isJump = false := by
  cases e <;> first | rfl | cases h

end Ast

end TurfLang
