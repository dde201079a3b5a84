import TurfLang.Frontend.Run

/-!
# `src/codegen/CodegenControlFlow.cpp`: deferred statements and scopes

Code is emitted with the statements that are pending on a stack of frames, one for each open block,
and emits them again at every exit: all of them for a `return` or a failing `try`, those of the
blocks inside the innermost loop for a `break` or a `continue`, those of its own for a block. Names
are looked up, by their spelling, in the scopes that are open where the code is emitted.

The code keeps its branches nested. A jump goes where the innermost loop of the code says.
-/

namespace TurfLang.Ast

open Behaviour

/-! ### Code -/

mutual

/-- Emitted code. A conditional branch on a literal can only go one way, and the end of a chain of
tests that cover every value is not reached. -/
inductive Code
  | nop
  | op (e : Expr) (storage : Option ℕ)
  | seq (a b : Code)
  | condBr (cond : Expr) (a b : Code)
  | either (a b : Code)
  | jump (o : Outcome)
  | whileLoop (cond : Expr) (test body : Code)
  | doWhile (cond : Expr) (body test : Code)
  | forLoop (body step : Code)
  | arm (tests : Tests) (body rest : Code)
  | noMatch (exhaustive : Bool)

/-- The tests of an arm. -/
inductive Tests
  | nil
  | test (val : Code) (more : Tests)
  | guarded (val : Code) (cond : Expr) (guard : Code) (more : Tests)

end

mutual

/-- What code does. -/
def Code.run : Code → Behaviour Event
  | .nop => skip
  | .op e _ => Behaviour.op (.eval e)
  | .seq a b => Behaviour.seq a.run b.run
  | .condBr cond a b => choice (given (cond.mayBe true) a.run) (given (cond.mayBe false) b.run)
  | .either a b => choice a.run b.run
  | .jump o => Behaviour.jump o
  | .whileLoop cond test body => Loop (whileParts cond test.run body.run)
  | .doWhile cond body test => Loop (doWhileParts cond body.run test.run)
  | .forLoop body step => Loop (forParts skip body.run step.run)
  | .arm tests body rest => tests.run body.run rest.run
  | .noMatch exhaustive => given (exhaustive = false) skip

def Tests.run : Tests → Behaviour Event → Behaviour Event → Behaviour Event
  | .nil, _, rest => rest
  | .test val more, body, rest => Behaviour.seq val.run (choice body (more.run body rest))
  | .guarded val cond guard more, body, rest =>
    Behaviour.seq val.run (choice (more.run body rest)
      (Behaviour.seq guard.run (choice (given (cond.mayBe true) body)
        (given (cond.mayBe false) (more.run body rest)))))

end

/-! ### The emitter -/

/-- `PendingDeferFrames` and `LoopDeferDepth`, innermost first; a frame lists its last statement
first. -/
structure Pending where
  frames : List (List Expr)
  loops : List ℕ

namespace Pending

/-- `DeferExprAST::codegen`. -/
def pend (p : Pending) (stmt : Expr) : Option Pending :=
  match p.frames with
  | [] => none
  | frame :: frames => some { p with frames := (stmt :: frame) :: frames }

def pushFrame (p : Pending) : Pending := { p with frames := [] :: p.frames }

def popFrame (p : Pending) : Pending := { p with frames := p.frames.tail }

/-- `LoopDeferDepth.push_back`. -/
def enterLoop (p : Pending) : Pending := { p with loops := p.frames.length :: p.loops }

def exitLoop (p : Pending) : Pending := { p with loops := p.loops.tail }

/-- The statements in the frames from a depth on, in the order in which they are flushed. -/
def fromDepth (p : Pending) (depth : ℕ) : List Expr :=
  (p.frames.take (p.frames.length - depth)).flatten

end Pending

/-- What code generation keeps: the pending statements, and `GlobalSymbolTable`, innermost scope
first. -/
structure Emitter where
  defers : Pending
  scopes : List (List (String × ℕ))

namespace Emitter

/-- `DeclareSymbol`. -/
def declare (st : Emitter) (spelling : String) (sym : ℕ) : Emitter :=
  match st.scopes with
  | [] => { st with scopes := [[(spelling, sym)]] }
  | scope :: scopes => { st with scopes := ((spelling, sym) :: scope) :: scopes }

@[simp] theorem defers_declare (st : Emitter) (spelling : String) (sym : ℕ) :
    (st.declare spelling sym).defers = st.defers := by
  unfold declare
  split <;> rfl

/-- `LookupSymbol`. -/
def lookup (st : Emitter) (spelling : String) : Option ℕ :=
  st.scopes.findSome? fun scope => scope.lookup spelling

/-- `EnterScope`, with the declarations that follow at once. -/
def enterScope (st : Emitter) (vars : List (String × ℕ)) : Emitter :=
  { st with scopes := vars.reverse :: st.scopes }

def exitScope (st : Emitter) : Emitter := { st with scopes := st.scopes.tail }

def enterBlock (st : Emitter) : Emitter :=
  { defers := st.defers.pushFrame, scopes := [] :: st.scopes }

def exitBlock (st : Emitter) : Emitter :=
  { defers := st.defers.popFrame, scopes := st.scopes.tail }

def enterLoop (st : Emitter) : Emitter := { st with defers := st.defers.enterLoop }

def exitLoop (st : Emitter) : Emitter := { st with defers := st.defers.exitLoop }

end Emitter

section

variable (emitDeferred : Expr → Emitter → Option (Code × Emitter))

/-- Statements one after another. -/
def flushAll : List Expr → Emitter → Option (Code × Emitter)
  | [], st => some (.nop, st)
  | d :: ds, st => do
    let (a, st) ← emitDeferred d st
    let (b, st) ← flushAll ds st
    return (.seq a b, st)

/-- `FlushPendingDefers`. -/
def flush (fromDepth : ℕ) (st : Emitter) : Option (Code × Emitter) :=
  flushAll emitDeferred (st.defers.fromDepth fromDepth) st

mutual

/-- `codegen`. -/
def Expr.emit : Expr → Emitter → Option (Code × Emitter)
  | .bool val, st => some (.op (.bool val) none, st)
  | .name x s, st => some (.op (.name x s) (st.lookup x), st)
  | .node kind children, st => do
    let (a, st) ← emitChildren children st
    return (.seq a (.op (.node kind children) none), st)
  | .logical isAnd lhs rhs, st => do
    let (a, st) ← lhs.emit st
    let (b, st) ← rhs.emit st
    return (.seq a (if isAnd then .condBr lhs b .nop else .condBr lhs .nop b), st)
  | .varDecl x s inits, st => do
    let (a, st) ← emitChildren inits st
    return (.seq a (.op (.varDecl x s inits) (some s)), st.declare x s)
  | .recoverProduce wrapped produce, st => do
    let (a, st) ← wrapped.emit st
    let (b, st) ← produce.emit st
    return (.seq a (.either .nop b), st)
  | .recoverRun wrapped bound block, st => do
    let (a, st) ← wrapped.emit st
    match bound with
    | none =>
      let (b, st) ← block.emit st
      return (.seq a (.either .nop b), st)
    | some v =>
      let (b, st) ← block.emit (st.enterScope [v])
      return (.seq a (.either .nop b), st.exitScope)
  | .tryExpr operand, st => do
    let (a, st) ← operand.emit st
    let (b, st) ← flush emitDeferred 0 st
    return (.seq a (.either .nop (.seq b (.jump .fails))), st)
  | .block exprs, st => do
    let (a, st) ← emitStmts exprs st.enterBlock
    let (b, st) ← flush emitDeferred (st.defers.frames.length - 1) st
    return (.seq a b, st.exitBlock)
  | .unsafeBlock body, st => body.emit st
  | .ifElse branches, st => branches.emit st
  | .whileLoop cond body, st => do
    let (a, st) ← cond.emit st
    let (b, st) ← body.emit st.enterLoop
    return (.whileLoop cond a b, st.exitLoop)
  | .doWhile body cond, st => do
    let (b, st) ← body.emit st.enterLoop
    let (a, st) ← cond.emit st.exitLoop
    return (.doWhile cond b a, st)
  | .forRange x s start stop step body, st => do
    let (a, st) ← start.emit st
    let (b, st) ← stop.emit (st.enterScope [(x, s)])
    let (c, st) ← body.emit st.enterLoop
    let (d, st) ← step.emit st.exitLoop
    return (.seq a (.seq b (.forLoop c d)), st.exitScope)
  | .forEach vars iterable body, st => do
    let (a, st) ← iterable.emit st
    let (b, st) ← body.emit (st.enterScope vars).enterLoop
    return (.seq a (.forLoop (.seq (.either .nop (.jump .halts)) b) .nop), st.exitLoop.exitScope)
  | .compare subject arms, st => do
    let (a, st) ← subject.emit st
    let (b, st) ← arms.emit st
    return (.seq a b, st)
  | .returnVoid, st => do
    let (a, st) ← flush emitDeferred 0 st
    return (.seq a (.jump .returns), st)
  | .returnVal val, st => do
    let (a, st) ← val.emit st
    let (b, st) ← flush emitDeferred 0 st
    return (.seq a (.seq b (.jump .returns)), st)
  | .breakLoop, st => do
    let depth ← st.defers.loops.head?
    let (a, st) ← flush emitDeferred depth st
    return (.seq a (.jump .breaks), st)
  | .continueLoop, st => do
    let depth ← st.defers.loops.head?
    let (a, st) ← flush emitDeferred depth st
    return (.seq a (.jump .continues), st)
  | .defer stmt, st => do
    let defers ← st.defers.pend stmt
    return (.nop, { st with defers })

def Branches.emit : Branches → Emitter → Option (Code × Emitter)
  | .noElse, st => some (.nop, st)
  | .elseBody body, st => body.emit st
  | .branch cond body rest, st => do
    let (a, st) ← cond.emit st
    let (b, st) ← body.emit st
    let (c, st) ← rest.emit st
    return (.seq a (.condBr cond b c), st)

def Arms.emit : Arms → Emitter → Option (Code × Emitter)
  | .noOtherBody exhaustive, st => some (.noMatch exhaustive, st)
  | .otherBody body, st => body.emit st
  | .arm bindings headers body rest, st => do
    let (tests, st) ← headers.emit (st.enterScope bindings)
    let (a, st) ← body.emit st
    let (b, st) ← rest.emit st.exitScope
    return (.arm tests a b, st)

def Headers.emit : Headers → Emitter → Option (Tests × Emitter)
  | .nil, st => some (.nil, st)
  | .header val more, st => do
    let (a, st) ← val.emit st
    let (tests, st) ← more.emit st
    return (.test a tests, st)
  | .guarded val guard more, st => do
    let (a, st) ← val.emit st
    let (b, st) ← guard.emit st
    let (tests, st) ← more.emit st
    return (.guarded a guard b tests, st)

def emitChildren : List Expr → Emitter → Option (Code × Emitter)
  | [], st => some (.nop, st)
  | e :: es, st => do
    let (a, st) ← e.emit st
    let (b, st) ← emitChildren es st
    return (.seq a b, st)

/-- The statements of a block. -/
def emitStmts : List Expr → Emitter → Option (Code × Emitter)
  | [], st => some (.nop, st)
  | e :: es, st => do
    let (a, st) ← e.emit st
    let (b, st) ← emitStmts es st
    return (.seq a b, st)

end

end

/-- The emission of a tree. A deferred statement is emitted in the same way at each of its exits;
how deep these emissions may lie in each other is bounded by the fuel. -/
def emitNested : ℕ → Expr → Emitter → Option (Code × Emitter)
  | 0 => fun _ _ => none
  | fuel + 1 => Expr.emit (emitNested fuel)

/-- The code of a function body. -/
def codegenBody (fuel : ℕ) (params : List (String × ℕ)) (body : Expr) : Option Code :=
  (emitNested fuel body { defers := ⟨[], []⟩, scopes := [params.reverse] }).map Prod.fst

end TurfLang.Ast
