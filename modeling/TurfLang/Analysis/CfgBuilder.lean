import TurfLang.Analysis.Cfg
import TurfLang.Frontend.Run

/-!
# `CFG.cpp`: building the graph of a function body

The builder visits a body statement by statement and adds to the block it stands at; a jump leaves
it nowhere. The blocks of `recover run` are built in front of the statement that evaluates them. A
deferred statement is recorded once more at each exit of its scope.
-/

namespace TurfLang

open Ast

/-- `TerminatorKind`. -/
inductive TerminatorKind
  | none
  | returns
  | breaks
  | continues
  | branch
  | unconditional
  deriving DecidableEq

/-- What a block records: its statements, and where they run the statements that were deferred. -/
inductive Entry
  | statement (stmt : Expr)
  | deferredRun (stmt : Expr)

def Entry.expr : Entry → Expr
  | .statement stmt | .deferredRun stmt => stmt

/-- The statement of an entry that is no deferred run. -/
def Entry.stated : Entry → Option Expr
  | .statement stmt => some stmt
  | .deferredRun _ => none

@[simp] theorem Entry.expr_statement (stmt : Expr) : (Entry.statement stmt).expr = stmt := rfl

@[simp] theorem Entry.expr_deferredRun (stmt : Expr) : (Entry.deferredRun stmt).expr = stmt := rfl

@[simp] theorem Entry.stated_statement (stmt : Expr) :
    (Entry.statement stmt).stated = some stmt := rfl

@[simp] theorem Entry.stated_deferredRun (stmt : Expr) :
    (Entry.deferredRun stmt).stated = none := rfl

/-- A `TurfBasicBlock` that is being built. Its two lists of statements are one list of entries: all
of them are in the second, and those that are no deferred runs in the first. -/
structure BuiltBlock where
  name : String
  entries : List Entry
  predecessors : List ℕ
  successors : List ℕ
  terminator : TerminatorKind

namespace BuiltBlock

def fresh (name : String) : BuiltBlock where
  name := name
  entries := []
  predecessors := []
  successors := []
  terminator := .none

/-- `getStatements`. -/
def statements (bb : BuiltBlock) : List Expr := bb.entries.filterMap Entry.stated

/-- `getStatementsWithDeferredRuns`. -/
def statementsWithDeferredRuns (bb : BuiltBlock) : List Expr := bb.entries.map Entry.expr

def addStatement (stmt : Expr) (bb : BuiltBlock) : BuiltBlock :=
  { bb with entries := bb.entries ++ [.statement stmt] }

/-- `addDeferredRun`, for each of some statements. -/
def addDeferredRuns (stmts : List Expr) (bb : BuiltBlock) : BuiltBlock :=
  { bb with entries := bb.entries ++ stmts.map .deferredRun }

def addPredecessor (i : ℕ) (bb : BuiltBlock) : BuiltBlock :=
  { bb with predecessors := bb.predecessors ++ [i] }

def addSuccessor (i : ℕ) (bb : BuiltBlock) : BuiltBlock :=
  { bb with successors := bb.successors ++ [i] }

def setTerminator (kind : TerminatorKind) (bb : BuiltBlock) : BuiltBlock :=
  { bb with terminator := kind }

def hasExplicitTerminator (bb : BuiltBlock) : Bool :=
  bb.terminator = .returns || bb.terminator = .breaks || bb.terminator = .continues

end BuiltBlock

/-- `StatementAfterTerminatorError` and `ControlFlowError`. -/
inductive FlowError
  | statementAfterTerminator
  | controlFlow (message : String)
  deriving DecidableEq

/-- `CFGBuilder`, with the blocks of its graph. The scopes of deferred statements are listed
innermost first, and the last statement of a scope first. -/
structure CFGBuilder where
  blocks : List BuiltBlock
  exitBlock : ℕ
  currentBlock : Option ℕ
  loopContinueTarget : Option ℕ
  loopBreakTarget : Option ℕ
  deferScopes : List (List Expr)
  loopDeferDepth : ℕ

/-- What a part of the body does to the builder. -/
abbrev Visit : Type := CFGBuilder → Except FlowError CFGBuilder

namespace CFGBuilder

/-! ### Blocks and edges -/

/-- The number of the next block. -/
def nextID (b : CFGBuilder) : ℕ := b.blocks.length

def block (b : CFGBuilder) (i : ℕ) : BuiltBlock := b.blocks.getD i (.fresh "")

def modifyBlock (i : ℕ) (f : BuiltBlock → BuiltBlock) (b : CFGBuilder) : CFGBuilder :=
  { b with blocks := b.blocks.modify i f }

def createBlock (name : String) (b : CFGBuilder) : CFGBuilder :=
  { b with blocks := b.blocks ++ [.fresh name] }

def addEdge (source target : ℕ) (b : CFGBuilder) : CFGBuilder :=
  (b.modifyBlock source (·.addSuccessor target)).modifyBlock target (·.addPredecessor source)

def addStatement (i : ℕ) (stmt : Expr) (b : CFGBuilder) : CFGBuilder :=
  b.modifyBlock i (·.addStatement stmt)

/-- `addStatement`, for each of some statements. -/
def addStatements (i : ℕ) (stmts : List Expr) (b : CFGBuilder) : CFGBuilder :=
  stmts.foldl (fun b stmt => b.addStatement i stmt) b

def setTerminator (i : ℕ) (kind : TerminatorKind) (b : CFGBuilder) : CFGBuilder :=
  b.modifyBlock i (·.setTerminator kind)

def setInsertPoint (i : ℕ) (b : CFGBuilder) : CFGBuilder := { b with currentBlock := some i }

/-- The current block, if there is one without an explicit terminator. -/
def openBlock (b : CFGBuilder) : Option ℕ :=
  b.currentBlock.filter fun c => !(b.block c).hasExplicitTerminator

/-- An edge from the open block. -/
def linkTo (target : ℕ) (b : CFGBuilder) : CFGBuilder :=
  match b.openBlock with
  | some c => b.addEdge c target
  | none => b

/-- The deferred statements of the scopes from the innermost down to a depth, last first. -/
def deferredRuns (b : CFGBuilder) (depth : ℕ) : List Expr :=
  (b.deferScopes.take (b.deferScopes.length - depth)).flatten

def emitDeferredRuns (depth : ℕ) (b : CFGBuilder) : CFGBuilder :=
  match b.currentBlock with
  | some c => b.modifyBlock c (·.addDeferredRuns (b.deferredRuns depth))
  | none => b

/-! ### The parts of `visitExpr` -/

/-- `visitExpr`, up to the dispatch: nothing stands after a terminator. -/
def visitAt (visit : ℕ → Visit) : Visit := fun b =>
  match b.openBlock with
  | some c => visit c b
  | none => .error .statementAfterTerminator

/-- One of the `run` blocks that a statement evaluates itself. -/
def visitRunBlock (pre okBlock : ℕ) (b : CFGBuilder) (visitBlock : Visit) :
    Except FlowError CFGBuilder := do
  let run := b.nextID
  let b ← visitBlock (((b.createBlock "recover.run").addEdge pre run).setInsertPoint run)
  return b.linkTo okBlock

def branchToRecoverBlocks (found : List Visit) (pre : ℕ) : Visit := fun b => do
  if found.isEmpty then return b
  let okBlock := b.nextID
  let b ← found.foldlM (visitRunBlock pre okBlock)
    ((b.createBlock "recover.ok").addEdge pre okBlock)
  return (b.setTerminator pre .unconditional).setInsertPoint okBlock

/-- What `f` does at the current block. -/
def atCurrent (f : ℕ → CFGBuilder → CFGBuilder) (b : CFGBuilder) : CFGBuilder :=
  match b.currentBlock with
  | some c => f c b
  | none => b

/-- A statement without control flow of its own. -/
def visitRegular (stmt : Expr) (found : List Visit) : Visit :=
  visitAt fun c b => do
    let b ← branchToRecoverBlocks found c b
    return b.atCurrent (addStatement · stmt)

/-- `DeferScopes.back().push_back`, where there is a scope. -/
def pushDeferred (stmt : Expr) : List (List Expr) → List (List Expr)
  | scope :: scopes => (stmt :: scope) :: scopes
  | [] => []

def visitDefer (stmt : Expr) : Visit :=
  visitAt fun c b =>
    .ok ({ b with deferScopes := pushDeferred stmt b.deferScopes }.addStatement c (.defer stmt))

/-- A jump: the block ends, and goes to the target. -/
def terminate (kind : TerminatorKind) (target : ℕ) (b : CFGBuilder) : CFGBuilder :=
  { b.atCurrent fun c b => (b.setTerminator c kind).addEdge c target with currentBlock := none }

def visitReturn (ret : Expr) (found : List Visit) : Visit :=
  visitAt fun c b => do
    let b ← branchToRecoverBlocks found c b
    return ((b.atCurrent (addStatement · ret)).emitDeferredRuns 0).terminate .returns b.exitBlock

def visitBreak : Visit :=
  visitAt fun c b =>
    match b.loopBreakTarget with
    | none => .error (.controlFlow "'break' used outside of a loop.")
    | some target =>
      .ok (((b.emitDeferredRuns b.loopDeferDepth).addStatement c .breakLoop).terminate
        .breaks target)

def visitContinue : Visit :=
  visitAt fun c b =>
    match b.loopContinueTarget with
    | none => .error (.controlFlow "'continue' used outside of a loop.")
    | some target =>
      .ok (((b.emitDeferredRuns b.loopDeferDepth).addStatement c .continueLoop).terminate .continues
        target)

/-- The statements of a block, in a scope of their own. -/
def visitBlock (visitStatements : Visit) : Visit := fun b => do
  let b ← visitStatements { b with deferScopes := [] :: b.deferScopes }
  let b :=
    match b.openBlock with
    | some _ => b.emitDeferredRuns (b.deferScopes.length - 1)
    | none => b
  return { b with deferScopes := b.deferScopes.tail }

/-- The body of a loop, with its targets and its depth; afterwards those from before. -/
def visitLoopBody (breakTarget continueTarget body : ℕ) (visitBody : Visit) : Visit := fun b => do
  let b' ← visitBody
    { b with
      currentBlock := some body
      loopBreakTarget := some breakTarget
      loopContinueTarget := some continueTarget
      loopDeferDepth := b.deferScopes.length }
  return { b'.linkTo continueTarget with
    loopBreakTarget := b.loopBreakTarget
    loopContinueTarget := b.loopContinueTarget
    loopDeferDepth := b.loopDeferDepth }

/-- The edges of a condition: a literal `true` is never left. -/
def branchOn (cond : Expr) (condBlock body exit : ℕ) (b : CFGBuilder) : CFGBuilder :=
  let b := (b.addStatement condBlock cond).addEdge condBlock body
  match cond with
  | .bool true => b.setTerminator condBlock .unconditional
  | _ => (b.addEdge condBlock exit).setTerminator condBlock .branch

def visitWhile (cond : Expr) (visitBody : Visit) : Visit :=
  visitAt fun entry b => do
    let condBlock := b.nextID
    let body := b.nextID + 1
    let exit := b.nextID + 2
    let b := ((b.createBlock "while.cond").createBlock "while.body").createBlock "while.end"
    let b := (b.addEdge entry condBlock).setTerminator entry .unconditional
    let b := b.branchOn cond condBlock body exit
    let b ← visitLoopBody exit condBlock body visitBody b
    return b.setInsertPoint exit

def visitDoWhile (visitBody : Visit) (cond : Expr) : Visit :=
  visitAt fun entry b => do
    let body := b.nextID
    let condBlock := b.nextID + 1
    let exit := b.nextID + 2
    let b := ((b.createBlock "dowhile.body").createBlock "dowhile.cond").createBlock "dowhile.end"
    let b := (b.addEdge entry body).setTerminator entry .unconditional
    let b ← visitLoopBody exit condBlock body visitBody b
    let b := b.branchOn cond condBlock body exit
    return b.setInsertPoint exit

/-- The loops over a range and over elements: what their condition reads, and their names. -/
def visitCounted (header : List Expr) (names : String × String × String × String)
    (visitBody : Visit) : Visit :=
  visitAt fun entry b => do
    let condBlock := b.nextID
    let body := b.nextID + 1
    let step := b.nextID + 2
    let exit := b.nextID + 3
    let b := (((b.createBlock names.1).createBlock names.2.1).createBlock names.2.2.1).createBlock
      names.2.2.2
    let b := (b.addEdge entry condBlock).setTerminator entry .unconditional
    let b := b.addStatements condBlock header
    let b := ((b.addEdge condBlock body).addEdge condBlock exit).setTerminator condBlock .branch
    let b ← visitLoopBody exit step body visitBody b
    let b := (b.addEdge step condBlock).setTerminator step .unconditional
    return b.setInsertPoint exit

def visitFor (start stop : Expr) (visitBody : Visit) : Visit :=
  visitCounted [start, stop] ("for.cond", "for.body", "for.step", "for.end") visitBody

def visitForEach (iterable : Expr) (visitBody : Visit) : Visit :=
  visitCounted [iterable] ("foreach.cond", "foreach.body", "foreach.step", "foreach.end") visitBody

/-- The block for what comes after a branch: a new one, or the end of the `if`. -/
def nextBlock (name : Option String) (merge : ℕ) (b : CFGBuilder) : ℕ × CFGBuilder :=
  match name with
  | some name => (b.nextID, b.createBlock name)
  | none => (merge, b)

/-- The blocks of a branch, whose condition goes to its body, where the builder stands then, and to
the next block. -/
def openBranch (first : Bool) (nextName : Option String) (merge : ℕ) (cond : Expr) (condBlock : ℕ)
    (b : CFGBuilder) : ℕ × CFGBuilder :=
  let thenBlock := b.nextID
  let next := (b.createBlock (if first then "if.then" else "elseif.then")).nextBlock nextName merge
  let b := ((next.2.addStatement condBlock cond).addEdge condBlock thenBlock).addEdge condBlock
    next.1
  (next.1, (b.setTerminator condBlock .branch).setInsertPoint thenBlock)

/-- The edge to a test that is tried when the one before has failed. -/
def linkFail (prev : ℕ) (prevIsRealTest : Bool) (target : ℕ) (b : CFGBuilder) : CFGBuilder :=
  let b := b.addEdge prev target
  if prevIsRealTest then b.setTerminator prev .branch else b

/-- The test block of a header. -/
def addTest (arm prev : ℕ) (prevIsRealTest : Bool) (stmts : List Expr) (b : CFGBuilder) :
    CFGBuilder :=
  let test := b.nextID
  let b := (b.createBlock "compare.test").linkFail prev prevIsRealTest test
  let b := b.addStatements test stmts
  (b.addEdge test arm).setTerminator test .unconditional

end CFGBuilder

open CFGBuilder

namespace Ast

/-- The name of the block for what comes after a branch; the end of the `if` needs none. -/
def Branches.nextName : Branches → Option String
  | .noElse => none
  | .elseBody _ => some "if.else"
  | .branch _ _ _ => some "elseif.cond"

/-- The tests of the headers of an arm; the last of them, and whether there was one. -/
def Headers.visitTests (arm : ℕ) : Headers → ℕ → Bool → CFGBuilder → ℕ × Bool × CFGBuilder
  | .nil, prev, real, b => (prev, real, b)
  | .header val more, prev, real, b =>
    more.visitTests arm b.nextID true (b.addTest arm prev real [val])
  | .guarded val guard more, prev, real, b =>
    more.visitTests arm b.nextID true (b.addTest arm prev real [val, guard])

/-- `visitCompare`, up to its arms. -/
def visitCompare (subject : Expr) (visitArms : ℕ → ℕ → Visit) : Visit :=
  visitAt fun entry b => do
    let merge := b.nextID
    let b := (b.createBlock "compare.end").addStatement entry subject
    let b ← visitArms merge entry (b.setTerminator entry .unconditional)
    return b.setInsertPoint merge

/-- The children of a node as a walk over the tree visits them: an assignment has its target
first. -/
def NodeKind.inWalkOrder {α : Type} : NodeKind → List α → List α
  | .assignment, parts | .compoundAssignment _, parts => parts.reverse
  | _, parts => parts

mutual

/-- `visitExpr`. -/
def Expr.visitExpr : Expr → Visit
  | .block exprs => visitAt fun _ => visitBlock (visitStatements exprs)
  | .unsafeBlock body => visitAt fun _ => body.visitAsBlock
  | .ifElse branches => visitAt fun entry b =>
    branches.visitIf b.nextID true entry true (b.createBlock "if.end")
  | .whileLoop cond body => visitWhile cond body.visitExpr
  | .doWhile body cond => visitDoWhile body.visitExpr cond
  | .forRange _ _ start stop _ body => visitFor start stop body.visitExpr
  | .forEach _ iterable body => visitForEach iterable body.visitExpr
  | .compare subject arms => visitCompare subject fun merge entry =>
      arms.visitArms merge entry false
  | .returnVoid => visitReturn .returnVoid []
  | .returnVal val => visitReturn (.returnVal val) val.runBlocks
  | .breakLoop => visitBreak
  | .continueLoop => visitContinue
  | .defer stmt => visitDefer stmt
  | .bool val => visitRegular (.bool val) []
  | .name x s => visitRegular (.name x s) []
  | .node kind children =>
    visitRegular (.node kind children) (kind.inWalkOrder (eachRunBlocks children)).flatten
  | .logical isAnd lhs rhs => visitRegular (.logical isAnd lhs rhs) (lhs.runBlocks ++ rhs.runBlocks)
  | .varDecl x s inits => visitRegular (.varDecl x s inits) (eachRunBlocks inits).flatten
  | .recoverProduce wrapped produce =>
    visitRegular (.recoverProduce wrapped produce) (wrapped.runBlocks ++ produce.runBlocks)
  | .recoverRun wrapped bound block =>
    visitRegular (.recoverRun wrapped bound block) (wrapped.runBlocks ++ [block.visitExpr])
  | .tryExpr operand => visitRegular (.tryExpr operand) operand.runBlocks

/-- `visitBlock`, which does nothing where there is no block. -/
def Expr.visitAsBlock : Expr → Visit
  | .block exprs => visitBlock (visitStatements exprs)
  | _ => .ok

/-- `visitIf`, from a branch on, whose condition belongs in `condBlock`. -/
def Branches.visitIf (merge : ℕ) : Branches → Bool → ℕ → Bool → Visit
  | .noElse, _, _, _ => fun b => .ok (b.setInsertPoint merge)
  | .elseBody body, _, condBlock, allTerminate => fun b => do
    let b ← body.visitExpr (b.setInsertPoint condBlock)
    return { b.linkTo merge with
      currentBlock := if allTerminate && b.openBlock.isNone then none else some merge }
  | .branch cond body rest, first, condBlock, allTerminate => fun b => do
    let opened := b.openBranch first rest.nextName merge cond condBlock
    let b ← body.visitExpr opened.2
    rest.visitIf merge false opened.1 (allTerminate && b.openBlock.isNone) (b.linkTo merge)

/-- The arms of a `compare`, from one on. -/
def Arms.visitArms (merge : ℕ) : Arms → ℕ → Bool → Visit
  | .noOtherBody exhaustive, prev, real => fun b =>
    .ok (if exhaustive then b else b.linkFail prev real merge)
  | .otherBody body, prev, real => fun b => do
    let other := b.nextID
    let b := (b.createBlock "compare.otherwise").linkFail prev real other
    let b ← body.visitExpr (b.setInsertPoint other)
    return b.linkTo merge
  | .arm _ headers body rest, prev, real => fun b => do
    let arm := b.nextID
    let tests := headers.visitTests arm prev real (b.createBlock "compare.arm")
    let b ← body.visitExpr (tests.2.2.setInsertPoint arm)
    rest.visitArms merge tests.1 tests.2.1 (b.linkTo merge)

/-- The statements of a block. -/
def visitStatements : List Expr → Visit
  | [] => .ok
  | e :: es => fun b => do
    let b ← e.visitExpr b
    visitStatements es b

/-- `RecoverBlockFinder`: the visits of the `run` blocks that an expression evaluates itself, in the
order in which they are found. -/
def Expr.runBlocks : Expr → List Visit
  | .bool _ | .name _ _ | .returnVoid | .breakLoop | .continueLoop | .defer _ => []
  | .node kind children => (kind.inWalkOrder (eachRunBlocks children)).flatten
  | .logical _ lhs rhs => lhs.runBlocks ++ rhs.runBlocks
  | .varDecl _ _ inits => (eachRunBlocks inits).flatten
  | .recoverProduce wrapped produce => wrapped.runBlocks ++ produce.runBlocks
  | .recoverRun wrapped _ block => wrapped.runBlocks ++ [block.visitExpr]
  | .tryExpr operand => operand.runBlocks
  | .block exprs => (eachRunBlocks exprs).flatten
  | .unsafeBlock body => body.runBlocks
  | .ifElse branches => branches.runBlocks
  | .whileLoop cond body => cond.runBlocks ++ body.runBlocks
  | .doWhile body cond => cond.runBlocks ++ body.runBlocks
  | .forRange _ _ start stop step body =>
    start.runBlocks ++ stop.runBlocks ++ step.runBlocks ++ body.runBlocks
  | .forEach _ iterable body => iterable.runBlocks ++ body.runBlocks
  | .compare subject arms => subject.runBlocks ++ arms.runBlocks
  | .returnVal val => val.runBlocks

def Branches.runBlocks : Branches → List Visit
  | .noElse => []
  | .elseBody body => body.runBlocks
  | .branch cond body rest => cond.runBlocks ++ body.runBlocks ++ rest.runBlocks

def Arms.runBlocks : Arms → List Visit
  | .noOtherBody _ => []
  | .otherBody body => body.runBlocks
  | .arm _ headers body rest =>
    headers.valueRunBlocks ++ headers.guardRunBlocks ++ body.runBlocks ++ rest.runBlocks

def Headers.valueRunBlocks : Headers → List Visit
  | .nil => []
  | .header val more | .guarded val _ more => val.runBlocks ++ more.valueRunBlocks

def Headers.guardRunBlocks : Headers → List Visit
  | .nil => []
  | .header _ more => more.guardRunBlocks
  | .guarded _ guard more => guard.runBlocks ++ more.guardRunBlocks

/-- What is found in each of some expressions. -/
def eachRunBlocks : List Expr → List (List Visit)
  | [] => []
  | e :: es => e.runBlocks :: eachRunBlocks es

end

end Ast

namespace CFGBuilder

/-- The builder before a body: the entry block and the exit block. -/
def start : CFGBuilder where
  blocks := [.fresh "entry", .fresh "exit"]
  exitBlock := 1
  currentBlock := some 0
  loopContinueTarget := none
  loopBreakTarget := none
  deferScopes := []
  loopDeferDepth := 0

/-- `buildCFG`, before the blocks are marked. -/
def buildCFG (body : Expr) : Except FlowError CFGBuilder := do
  let b ← body.visitExpr start
  return b.linkTo b.exitBlock

/-- `buildRegionCFG`, before the blocks are marked: a jump to a loop around the region leaves it. -/
def buildRegionCFG (body : Expr) : Except FlowError CFGBuilder := do
  let b ← body.visitExpr { start with loopBreakTarget := some 1, loopContinueTarget := some 1 }
  return b.linkTo b.exitBlock

end CFGBuilder

end TurfLang
