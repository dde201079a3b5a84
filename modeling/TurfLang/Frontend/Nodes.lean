import TurfLang.Frontend.Run

/-!
# `ASTChildWalker.h`: the nodes of a tree

The walker visits a node and then its children, in source order. A property of behaviours that the
ways of putting programs together keep holds of the runs of a tree if it holds of what each of its
nodes does of its own.
-/

namespace TurfLang.Ast

open Behaviour

mutual

/-- The nodes that the walker visits. -/
def Expr.nodes : Expr → List Expr
  | .bool val => [.bool val]
  | .name x s => [.name x s]
  | .node kind children => .node kind children :: nodesAll children
  | .logical isAnd lhs rhs => .logical isAnd lhs rhs :: (lhs.nodes ++ rhs.nodes)
  | .varDecl x s inits => .varDecl x s inits :: nodesAll inits
  | .recoverProduce wrapped produce =>
    .recoverProduce wrapped produce :: (wrapped.nodes ++ produce.nodes)
  | .recoverRun wrapped bound block =>
    .recoverRun wrapped bound block :: (wrapped.nodes ++ block.nodes)
  | .tryExpr operand => .tryExpr operand :: operand.nodes
  | .block exprs => .block exprs :: nodesAll exprs
  | .unsafeBlock body => .unsafeBlock body :: body.nodes
  | .ifElse branches => .ifElse branches :: branches.nodes
  | .whileLoop cond body => .whileLoop cond body :: (cond.nodes ++ body.nodes)
  | .doWhile body cond => .doWhile body cond :: (cond.nodes ++ body.nodes)
  | .forRange x s start stop step body =>
    .forRange x s start stop step body ::
      (start.nodes ++ stop.nodes ++ step.nodes ++ body.nodes)
  | .forEach vars iterable body => .forEach vars iterable body :: (iterable.nodes ++ body.nodes)
  | .compare subject arms => .compare subject arms :: (subject.nodes ++ arms.nodes)
  | .returnVoid => [.returnVoid]
  | .returnVal val => .returnVal val :: val.nodes
  | .breakLoop => [.breakLoop]
  | .continueLoop => [.continueLoop]
  | .defer stmt => .defer stmt :: stmt.nodes

def Branches.nodes : Branches → List Expr
  | .noElse => []
  | .elseBody body => body.nodes
  | .branch cond body rest => cond.nodes ++ body.nodes ++ rest.nodes

def Arms.nodes : Arms → List Expr
  | .noOtherBody _ => []
  | .otherBody body => body.nodes
  | .arm _ headers body rest => headers.nodes ++ body.nodes ++ rest.nodes

def Headers.nodes : Headers → List Expr
  | .nil => []
  | .header val rest => val.nodes ++ rest.nodes
  | .guarded val guard rest => val.nodes ++ guard.nodes ++ rest.nodes

def nodesAll : List Expr → List Expr
  | [] => []
  | e :: es => e.nodes ++ nodesAll es

end

theorem Expr.self_mem_nodes (e : Expr) : e ∈ e.nodes := by
  cases e <;> simp [Expr.nodes]

/-- What a node does of its own. -/
def Expr.own : Expr → Behaviour Event
  | .bool val => op (.eval (.bool val))
  | .name x s => op (.eval (.name x s))
  | .node kind children => op (.eval (.node kind children))
  | .varDecl x s inits => op (.eval (.varDecl x s inits))
  | .tryExpr _ => jump .fails
  | .forEach _ _ _ => jump .halts
  | .returnVoid | .returnVal _ => jump .returns
  | .breakLoop => jump .breaks
  | .continueLoop => jump .continues
  | _ => skip

section

variable {C : Behaviour Event → Prop} (hC : Closed C)

include hC

theorem closed_regular (e : Expr) {a : Behaviour Event} (ha : C a) : C (regular .bare e a) :=
  hC.seq ha hC.skip

mutual

theorem Expr.closed_run : ∀ e : Expr, (∀ n ∈ e.nodes, C n.own) → C (e.run .bare)
  | .bool val, h => closed_regular hC _ (h _ (Expr.self_mem_nodes _))
  | .name x s, h => closed_regular hC _ (h _ (Expr.self_mem_nodes _))
  | .node kind children, h => by
    have hown := h _ (Expr.self_mem_nodes _)
    simp only [Expr.nodes, List.forall_mem_cons] at h
    exact closed_regular hC _ (hC.seq (closed_runAll children h.2) hown)
  | .logical isAnd lhs rhs, h => by
    simp only [Expr.nodes, List.forall_mem_cons, List.forall_mem_append] at h
    exact closed_regular hC _ (hC.seq (Expr.closed_run lhs h.2.1)
      (hC.choice (hC.given hC.skip) (hC.given (Expr.closed_run rhs h.2.2))))
  | .varDecl x s inits, h => by
    have hown := h _ (Expr.self_mem_nodes _)
    simp only [Expr.nodes, List.forall_mem_cons] at h
    exact closed_regular hC _ (hC.seq (closed_runAll inits h.2) hown)
  | .recoverProduce wrapped produce, h => by
    simp only [Expr.nodes, List.forall_mem_cons, List.forall_mem_append] at h
    exact closed_regular hC _ (hC.seq (Expr.closed_run wrapped h.2.1)
      (hC.choice hC.skip (Expr.closed_run produce h.2.2)))
  | .recoverRun wrapped bound block, h => by
    simp only [Expr.nodes, List.forall_mem_cons, List.forall_mem_append] at h
    exact closed_regular hC _ (hC.seq (Expr.closed_run wrapped h.2.1)
      (hC.choice hC.skip (Expr.closed_run block h.2.2)))
  | .tryExpr operand, h => by
    have hown := h _ (Expr.self_mem_nodes _)
    simp only [Expr.nodes, List.forall_mem_cons] at h
    exact closed_regular hC _ (hC.seq (Expr.closed_run operand h.2) (hC.choice hC.skip hown))
  | .block exprs, h => by
    simp only [Expr.nodes, List.forall_mem_cons] at h
    exact closed_runItems exprs h.2
  | .unsafeBlock body, h => by
    simp only [Expr.nodes, List.forall_mem_cons] at h
    exact Expr.closed_run body h.2
  | .ifElse branches, h => by
    simp only [Expr.nodes, List.forall_mem_cons] at h
    exact Branches.closed_run branches h.2
  | .whileLoop cond body, h => by
    simp only [Expr.nodes, List.forall_mem_cons, List.forall_mem_append] at h
    exact hC.loop (hC.seq (Expr.closed_run cond h.2.1) hC.skip) (Expr.closed_run body h.2.2)
      hC.skip
  | .doWhile body cond, h => by
    simp only [Expr.nodes, List.forall_mem_cons, List.forall_mem_append] at h
    exact hC.loop hC.skip (Expr.closed_run body h.2.2)
      (hC.seq (Expr.closed_run cond h.2.1) hC.skip)
  | .forRange _ _ start stop step body, h => by
    simp only [Expr.nodes, List.forall_mem_cons, List.forall_mem_append] at h
    obtain ⟨-, ⟨⟨hstart, hstop⟩, hstep⟩, hbody⟩ := h
    exact hC.seq (Expr.closed_run start hstart) (hC.seq (Expr.closed_run stop hstop)
      (hC.loop (hC.seq hC.skip hC.skip) (Expr.closed_run body hbody)
        (Expr.closed_run step hstep)))
  | .forEach vars iterable body, h => by
    have hown := h _ (Expr.self_mem_nodes _)
    simp only [Expr.nodes, List.forall_mem_cons, List.forall_mem_append] at h
    exact hC.seq (Expr.closed_run iterable h.2.1)
      (hC.loop hC.skip (hC.seq (hC.choice hC.skip hown) (Expr.closed_run body h.2.2)) hC.skip)
  | .compare subject arms, h => by
    simp only [Expr.nodes, List.forall_mem_cons, List.forall_mem_append] at h
    exact hC.seq (Expr.closed_run subject h.2.1)
      (hC.seq hC.skip (Arms.closed_run arms h.2.2))
  | .returnVoid, h => hC.seq (closed_regular hC _ hC.skip) (h _ (Expr.self_mem_nodes _))
  | .returnVal val, h => by
    have hown := h _ (Expr.self_mem_nodes _)
    simp only [Expr.nodes, List.forall_mem_cons] at h
    exact hC.seq (closed_regular hC _ (Expr.closed_run val h.2)) hown
  | .breakLoop, h => h _ (Expr.self_mem_nodes _)
  | .continueLoop, h => h _ (Expr.self_mem_nodes _)
  | .defer _, _ => hC.skip

theorem Branches.closed_run : ∀ b : Branches, (∀ n ∈ b.nodes, C n.own) → C (b.run .bare)
  | .noElse, _ => hC.skip
  | .elseBody body, h => Expr.closed_run body h
  | .branch cond body rest, h => by
    simp only [Branches.nodes, List.forall_mem_append] at h
    exact hC.seq (Expr.closed_run cond h.1.1) (hC.seq hC.skip
      (hC.choice (hC.given (Expr.closed_run body h.1.2))
        (hC.given (Branches.closed_run rest h.2))))

theorem Arms.closed_run : ∀ a : Arms, (∀ n ∈ a.nodes, C n.own) → C (a.run .bare)
  | .noOtherBody _, _ => hC.given hC.skip
  | .otherBody body, h => Expr.closed_run body h
  | .arm _ headers body rest, h => by
    simp only [Arms.nodes, List.forall_mem_append] at h
    exact Headers.closed_run headers h.1.1 (Expr.closed_run body h.1.2) (Arms.closed_run rest h.2)

theorem Headers.closed_run {body rest : Behaviour Event} : ∀ hs : Headers,
    (∀ n ∈ hs.nodes, C n.own) → C body → C rest → C (hs.run .bare body rest)
  | .nil, _, _, hrest => hrest
  | .header val more, h, hbody, hrest => by
    simp only [Headers.nodes, List.forall_mem_append] at h
    exact hC.seq (Expr.closed_run val h.1) (hC.seq hC.skip
      (hC.choice hbody (Headers.closed_run more h.2 hbody hrest)))
  | .guarded val guard more, h, hbody, hrest => by
    simp only [Headers.nodes, List.forall_mem_append] at h
    have hmore := Headers.closed_run more h.2 hbody hrest
    exact hC.seq (Expr.closed_run val h.1.1) (hC.seq hC.skip (hC.choice (hC.seq hC.skip hmore)
      (hC.seq (Expr.closed_run guard h.1.2) (hC.seq hC.skip
        (hC.choice (hC.given hbody) (hC.given hmore))))))

theorem closed_runAll : ∀ l : List Expr, (∀ n ∈ nodesAll l, C n.own) → C (runAll l .bare)
  | [], _ => hC.skip
  | e :: es, h => by
    simp only [nodesAll, List.forall_mem_append] at h
    exact hC.seq (Expr.closed_run e h.1) (closed_runAll es h.2)

theorem closed_runItems : ∀ l : List Expr, (∀ n ∈ nodesAll l, C n.own) → C (runItems l .bare)
  | [], _ => hC.skip
  | e :: es, h => by
    simp only [nodesAll, List.forall_mem_append] at h
    have hrest := closed_runItems es h.2
    cases e with
    | defer stmt =>
      have hstmt := h.1
      simp only [Expr.nodes, List.forall_mem_cons] at hstmt
      exact hC.seq hC.skip (hC.seq hC.skip (hC.cleanup hrest
        (hC.seq (Expr.closed_run stmt hstmt.2) (hC.seq hC.skip hC.skip))))
    | _ => exact hC.seq (Expr.closed_run _ h.1) hrest

end

end

end TurfLang.Ast
