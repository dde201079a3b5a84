import TurfLang.Frontend.Ast
import TurfLang.Lib.Behaviour

/-!
# What a function body may do

The runs of a tree: the nodes it evaluates, in order, and the way it ends. Conditions and the tests
of a `compare` may come out either way, except where they are a literal; a call may never return.
A `for` over a string stops if the string has got shorter. A `defer` puts its statement at every end
of the rest of its block.

A run can also be told with the deferred statements that it reaches and finishes, and with the
statements that the flow graph shows: those in statement position, and those of the `run` blocks of
a statement in the graph.
-/

namespace TurfLang.Ast

open Behaviour

/-- What happens in a run. Besides the evaluation of nodes: a `defer` is reached; a deferred
statement is finished. And in the graph: a statement, or a condition, is over; an expression is
passed that is not evaluated there; a deferred statement has its place. -/
inductive Event
  | eval (e : Expr)
  | reached (e : Expr)
  | finished (e : Expr)
  | ran (e : Expr)
  | passed (e : Expr)
  | deferred (e : Expr)

/-- Where a node stands: as a statement of the graph, inside one, or where the graph has no part
of it. In a bare run there are only evaluations. -/
inductive Mode
  | statement
  | operand
  | hidden
  | bare
  deriving DecidableEq

namespace Mode

/-- The children of a node. -/
def inner : Mode → Mode
  | statement => operand
  | m => m

/-- The conditions of a statement are not built into the graph. -/
def header : Mode → Mode
  | statement => hidden
  | m => m

/-- The `run` block of a `recover` among the children of a node. -/
def runBlock : Mode → Mode
  | operand => statement
  | m => m

/-- What a `defer` defers. -/
def deferred : Mode → Mode
  | bare => bare
  | _ => hidden

/-- What only the graph shows. -/
def mark : Mode → Event → Behaviour Event
  | statement, e => event e
  | _, _ => skip

/-- What a bare run leaves out. -/
def note : Mode → Event → Behaviour Event
  | bare, _ => skip
  | _, e => event e

end Mode

/-- Whether a condition can have a value. -/
def Expr.mayBe (c : Expr) (b : Bool) : Prop := c ≠ .bool !b

/-- A statement that is in one block of the graph. -/
def regular (m : Mode) (e : Expr) (a : Behaviour Event) : Behaviour Event :=
  seq a (m.mark (.ran e))

/-- The loop whose test is a condition. -/
def whileParts (c : Expr) (test body : Behaviour Event) : Parts Event where
  test := test
  canEnter := c.mayBe true
  canLeave := c.mayBe false
  body := body
  step := skip
  canRepeat := True
  canStop := False

/-- The loop whose step is a condition. -/
def doWhileParts (c : Expr) (body test : Behaviour Event) : Parts Event where
  test := skip
  canEnter := True
  canLeave := False
  body := body
  step := test
  canRepeat := c.mayBe true
  canStop := c.mayBe false

/-- The loop over a range or the elements of an array. -/
def forParts (test body step : Behaviour Event) : Parts Event where
  test := test
  canEnter := True
  canLeave := True
  body := body
  step := step
  canRepeat := True
  canStop := False

mutual

def Expr.run : Expr → Mode → Behaviour Event
  | .bool val, m => regular m (.bool val) (op (.eval (.bool val)))
  | .name x s, m => regular m (.name x s) (op (.eval (.name x s)))
  | .node kind children, m =>
    regular m (.node kind children)
      (seq (runAll children m.inner) (op (.eval (.node kind children))))
  | .logical isAnd lhs rhs, m =>
    regular m (.logical isAnd lhs rhs) (seq (lhs.run m.inner)
      (choice (given (lhs.mayBe !isAnd) skip) (given (lhs.mayBe isAnd) (rhs.run m.inner))))
  | .varDecl x s inits, m =>
    regular m (.varDecl x s inits) (seq (runAll inits m.inner) (op (.eval (.varDecl x s inits))))
  | .recoverProduce wrapped produce, m =>
    regular m (.recoverProduce wrapped produce)
      (seq (wrapped.run m.inner) (choice skip (produce.run m.inner)))
  | .recoverRun wrapped bound block, m =>
    regular m (.recoverRun wrapped bound block)
      (seq (wrapped.run m.inner) (choice skip (block.run m.inner.runBlock)))
  | .tryExpr operand, m =>
    regular m (.tryExpr operand) (seq (operand.run m.inner) (choice skip (jump .fails)))
  | .block exprs, m => runItems exprs m
  | .unsafeBlock body, m => body.run m
  | .ifElse branches, m => branches.run m
  | .whileLoop cond body, m =>
    Loop (whileParts cond (seq (cond.run m.header) (m.mark (.ran cond))) (body.run m))
  | .doWhile body cond, m =>
    Loop (doWhileParts cond (body.run m) (seq (cond.run m.header) (m.mark (.ran cond))))
  | .forRange _ _ start stop step body, m =>
    seq (start.run m.header) (seq (stop.run m.header)
      (Loop (forParts (seq (m.mark (.passed start)) (m.mark (.passed stop))) (body.run m)
        (step.run m.header))))
  | .forEach _ iterable body, m =>
    seq (iterable.run m.header)
      (Loop (forParts (m.mark (.passed iterable)) (seq (choice skip (jump .halts)) (body.run m)) skip))
  | .compare subject arms, m =>
    seq (subject.run m.header) (seq (m.mark (.ran subject)) (arms.run m))
  | .returnVoid, m => seq (regular m .returnVoid skip) (jump .returns)
  | .returnVal val, m => seq (regular m (.returnVal val) (val.run m.inner)) (jump .returns)
  | .breakLoop, _ => jump .breaks
  | .continueLoop, _ => jump .continues
  | .defer stmt, m => m.mark (.ran (.defer stmt))

def Branches.run : Branches → Mode → Behaviour Event
  | .noElse, _ => skip
  | .elseBody body, m => body.run m
  | .branch cond body rest, m =>
    seq (cond.run m.header) (seq (m.mark (.ran cond))
      (choice (given (cond.mayBe true) (body.run m)) (given (cond.mayBe false) (rest.run m))))

def Arms.run : Arms → Mode → Behaviour Event
  | .noOtherBody exhaustive, _ => given (exhaustive = false) skip
  | .otherBody body, m => body.run m
  | .arm _ headers body rest, m => headers.run m (body.run m) (rest.run m)

/-- The headers from one on: the body of their arm, or what comes after the arm. -/
def Headers.run : Headers → Mode → Behaviour Event → Behaviour Event → Behaviour Event
  | .nil, _, _, rest => rest
  | .header val more, m, body, rest =>
    seq (val.run m.header) (seq (m.mark (.ran val)) (choice body (more.run m body rest)))
  | .guarded val guard more, m, body, rest =>
    seq (val.run m.header) (seq (m.mark (.ran val))
      (choice (seq (m.mark (.passed guard)) (more.run m body rest))
        (seq (guard.run m.header) (seq (m.mark (.ran guard))
          (choice (given (guard.mayBe true) body)
            (given (guard.mayBe false) (more.run m body rest)))))))

/-- Children, one after another. -/
def runAll : List Expr → Mode → Behaviour Event
  | [], _ => skip
  | e :: es, m => seq (e.run m) (runAll es m)

/-- The statements of a block, one after another. -/
def runItems : List Expr → Mode → Behaviour Event
  | [], _ => skip
  | .defer stmt :: es, m =>
    seq (m.note (.reached stmt)) (seq (m.mark (.ran (.defer stmt)))
      (cleanup (runItems es m)
        (seq (stmt.run m.deferred) (seq (m.note (.finished stmt)) (m.mark (.deferred stmt))))))
  | e :: es, m => seq (e.run m) (runItems es m)

end

end TurfLang.Ast
