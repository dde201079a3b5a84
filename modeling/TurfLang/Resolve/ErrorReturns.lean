import TurfLang.Lib.Behaviour

/-!
# `ResolverCore.cpp`: the errors a function is found to return

`CollectReturnedErrorTypeNames` looks for the returns of a body, descending into some kinds of nodes,
and collects what they name; a call that is returned is noted by `visitReturn`. Two checks rest on
what is found: the warning that a fallible function never returns an error, and the refusal to bind
an error that says nothing. An error is the identity of its type here.
-/

namespace TurfLang

namespace ErrorReturns

open Behaviour

/-! ### The tree of a body -/

/-- What is known of the declared types: which names are those of error types, and which of these
were declared without variants. -/
structure Declarations where
  isErrorTypeName : String → Bool
  isBareForm : String → Bool

/-- `Left::Right`, with `Left` as the identity it is mapped to; whether it is a variant of an
error type. -/
structure ScopeAccess (D : Declarations) where
  name : String
  isVariant : Bool
  declared : isVariant = true → D.isErrorTypeName name = true

/-- A call: its callee if that is a scope access; for each candidate whether it returns an error
union; and the errors with which runs of the call end. A call through a function value has no
candidates. -/
structure Call (D : Declarations) where
  scope : Option (ScopeAccess D)
  candidates : List Bool
  throughValue : Bool
  fails : List String
  declared : fails ≠ [] → throughValue = true ∨ true ∈ candidates

/-- `RecoverKind`, with the name of `as err run`. -/
inductive RecoverKind
  | produce
  | run
  | asRun (boundName : String)

variable (D : Declarations)

mutual

/-- A variable of an error type holds one of some errors. A method call, or an operator that is
overloaded, may fail as a call does. -/
inductive Expr
  | var (name : String) (holds : List String)
  | scopeAccess (access : ScopeAccess D)
  | call (callee : Call D) (args : List Expr)
  | methodCall (fails : List String) (args : List Expr)
  | node (fails : List String) (children : List Expr)
  | varDecl (initializer : Expr)
  | assignment (rhs lhs : Expr)
  | recover (kind : RecoverKind) (wrapped body : Expr)
  | tryExpr (operand : Expr)
  | block (exprs : List Expr)
  | unsafeBlock (body : Expr)
  | ifElse (branches : Branches)
  | whileLoop (cond body : Expr)
  | doWhile (body cond : Expr)
  | forRange (start stop step body : Expr)
  | forEach (iterable body : Expr)
  | compare (subject : Expr) (arms : Arms)
  | returnVoid
  | returnVal (val : Expr)
  | breakLoop
  | continueLoop
  | defer (stmt : Expr)

/-- The branches of an `if` and the `else`. -/
inductive Branches
  | noElse
  | elseBody (body : Expr)
  | branch (cond body : Expr) (rest : Branches)

/-- The arms of a `compare`, with their headers and guards, and the `otherwise`. -/
inductive Arms
  | noOtherBody
  | otherBody (body : Expr)
  | arm (headers : List Expr) (body : Expr) (rest : Arms)

end

variable {D}

mutual

/-- A node and the nodes below it. -/
def Expr.nodes : Expr D → List (Expr D)
  | .call callee args => .call callee args :: nodesAll args
  | .methodCall fails args => .methodCall fails args :: nodesAll args
  | .node fails children => .node fails children :: nodesAll children
  | .varDecl initializer => .varDecl initializer :: initializer.nodes
  | .assignment rhs lhs => .assignment rhs lhs :: (rhs.nodes ++ lhs.nodes)
  | .recover kind wrapped body => .recover kind wrapped body :: (wrapped.nodes ++ body.nodes)
  | .tryExpr operand => .tryExpr operand :: operand.nodes
  | .block exprs => .block exprs :: nodesAll exprs
  | .unsafeBlock body => .unsafeBlock body :: body.nodes
  | .ifElse branches => .ifElse branches :: branches.nodes
  | .whileLoop cond body => .whileLoop cond body :: (cond.nodes ++ body.nodes)
  | .doWhile body cond => .doWhile body cond :: (body.nodes ++ cond.nodes)
  | .forRange start stop step body =>
    .forRange start stop step body :: (start.nodes ++ stop.nodes ++ step.nodes ++ body.nodes)
  | .forEach iterable body => .forEach iterable body :: (iterable.nodes ++ body.nodes)
  | .compare subject arms => .compare subject arms :: (subject.nodes ++ arms.nodes)
  | .returnVal val => .returnVal val :: val.nodes
  | .defer stmt => .defer stmt :: stmt.nodes
  | e => [e]

def Branches.nodes : Branches D → List (Expr D)
  | .noElse => []
  | .elseBody body => body.nodes
  | .branch cond body rest => cond.nodes ++ body.nodes ++ rest.nodes

def Arms.nodes : Arms D → List (Expr D)
  | .noOtherBody => []
  | .otherBody body => body.nodes
  | .arm headers body rest => nodesAll headers ++ body.nodes ++ rest.nodes

def nodesAll : List (Expr D) → List (Expr D)
  | [] => []
  | e :: es => e.nodes ++ nodesAll es

end

/-! ### What is collected -/

/-- `PossibleErrorTypeNames` and `FoundReboundError`. -/
structure Found where
  names : List String
  rebound : Bool

namespace Found

def nothing : Found := ⟨[], false⟩

def append (f g : Found) : Found := ⟨f.names ++ g.names, f.rebound || g.rebound⟩

end Found

/-- What the value of a return names. -/
def Expr.collectVal (bound : List String) : Expr D → Found
  | .scopeAccess access => ⟨[access.name], false⟩
  | .call callee _ => ⟨(callee.scope.map (·.name)).toList, false⟩
  | .var name _ => ⟨[], name ∈ bound⟩
  | _ => .nothing

mutual

/-- `CollectReturnedErrorTypeNames`. -/
def Expr.collect : Expr D → List String → Found
  | .returnVal val, bound => val.collectVal bound
  | .block exprs, bound => collectAll exprs bound
  | .ifElse branches, bound => branches.collect bound
  | .whileLoop _ body, bound | .forRange _ _ _ body, bound | .forEach _ body, bound =>
    body.collect bound
  | .varDecl initializer, bound => initializer.collect bound
  | .assignment rhs _, bound => rhs.collect bound
  | .recover .produce wrapped body, bound | .recover .run wrapped body, bound =>
    (wrapped.collect bound).append (body.collect bound)
  | .recover (.asRun boundName) wrapped body, bound =>
    (wrapped.collect bound).append (body.collect (bound ++ [boundName]))
  | _, _ => .nothing

def Branches.collect : Branches D → List String → Found
  | .noElse, _ => .nothing
  | .elseBody body, bound => body.collect bound
  | .branch _ body rest, bound => (body.collect bound).append (rest.collect bound)

def collectAll : List (Expr D) → List String → Found
  | [], _ => .nothing
  | e :: es, bound => (e.collect bound).append (collectAll es bound)

end

def Expr.isTry : Expr D → Bool
  | .tryExpr _ => true
  | _ => false

/-- `visitReturn`: whether a return hands a failing call on. Which method is called is not known
yet, so one is assumed to fail. -/
def Expr.passesFallible : Expr D → Bool
  | .returnVal (.call callee _) => callee.candidates.any id
  | .returnVal (.methodCall _ _) => true
  | _ => false

/-- What `buildFunctionSymbol` records. -/
structure FunctionSymbol where
  possibleErrorTypeNames : List String
  returnsReboundError : Bool

def buildFunctionSymbol (body : Expr D) : FunctionSymbol :=
  let found := body.collect []
  { possibleErrorTypeNames := found.names
    returnsReboundError := found.rebound || body.nodes.any Expr.isTry }

/-- `visitFuncDef` of a function that returns an error union: whether a `NeverReturnsErrorWarning` is
given. -/
def neverReturnsError (body : Expr D) : Bool :=
  !((buildFunctionSymbol body).returnsReboundError || body.nodes.any Expr.passesFallible ||
    (buildFunctionSymbol body).possibleErrorTypeNames.any D.isErrorTypeName)

/-- The bare-error restriction: whether `recover as err run` on a call of a function is refused. -/
def bareErrorAsBinding (D : Declarations) (target : FunctionSymbol) : Bool :=
  let realErrorTypes := target.possibleErrorTypeNames.filter D.isErrorTypeName
  !target.returnsReboundError && !realErrorTypes.isEmpty && realErrorTypes.all D.isBareForm

/-! ### What a body may do -/

/-- The errors with which the evaluation of an expression of type `!T` ends. -/
def Expr.fails : Expr D → List String
  | .call callee _ => callee.fails
  | .methodCall fails _ | .node fails _ => fails
  | _ => []

/-- `IsErrorTagExpr`: the errors that an expression is a value of. -/
def Expr.errorTags : Expr D → List String
  | .var _ holds => holds
  | .scopeAccess access | .call { scope := some access, .. } _ =>
    if access.isVariant then [access.name] else []
  | _ => []

/-- The errors that a return, or a `try`, returns from the function. -/
def Expr.returned : Expr D → List String
  | .returnVal val => val.errorTags ++ val.fails
  | .tryExpr operand => operand.fails
  | _ => []

/-- One of some errors is returned. -/
def raise (errors : List String) : Behaviour String := fun t o => ∃ E ∈ errors, t = [E] ∧ o = .normal

/-- What a node does of its own. -/
def Expr.own : Expr D → Behaviour String
  | .returnVal val =>
    seq (if val.errorTags = [] then choice skip (raise val.fails) else
      raise (val.errorTags ++ val.fails)) (jump .returns)
  | .tryExpr operand => choice skip (seq (raise operand.fails) (jump .fails))
  | .returnVoid => jump .returns
  | .breakLoop => jump .breaks
  | .continueLoop => jump .continues
  -- any other node may be cut off
  | _ => choice skip (jump .halts)

/-- A loop, the conditions of which may come out either way. -/
def rounds (test body step : Behaviour String) : Behaviour String :=
  Loop { test, canEnter := True, canLeave := True, body, step, canRepeat := True, canStop := False }

mutual

/-- The runs of a body, with the errors it returns. -/
def Expr.run : Expr D → Behaviour String
  | .call callee args => seq (runAll args) (Expr.own (.call callee args))
  | .methodCall fails args => seq (runAll args) (Expr.own (.methodCall fails args))
  | .node fails children => seq (runAll children) (Expr.own (.node fails children))
  | .varDecl initializer => seq initializer.run (Expr.own (.varDecl initializer))
  | .assignment rhs lhs => seq rhs.run (seq lhs.run (Expr.own (.assignment rhs lhs)))
  | .recover _ wrapped body => seq wrapped.run (choice skip body.run)
  | .tryExpr operand => seq operand.run (Expr.own (.tryExpr operand))
  | .block exprs => runItems exprs
  | .unsafeBlock body => body.run
  | .ifElse branches => branches.run
  | .whileLoop cond body => rounds cond.run body.run skip
  | .doWhile body cond => Loop {
      test := skip, canEnter := True, canLeave := False, body := body.run,
      step := cond.run, canRepeat := True, canStop := True }
  | .forRange start stop step body =>
    seq start.run (seq stop.run (rounds skip body.run step.run))
  | .forEach iterable body => seq iterable.run (rounds skip body.run skip)
  | .compare subject arms => seq subject.run arms.run
  | .returnVal val => seq val.run (Expr.own (.returnVal val))
  | .defer _ => skip
  | e => e.own

def Branches.run : Branches D → Behaviour String
  | .noElse => skip
  | .elseBody body => body.run
  | .branch cond body rest => seq cond.run (choice body.run rest.run)

def Arms.run : Arms D → Behaviour String
  | .noOtherBody => skip
  | .otherBody body => body.run
  | .arm headers body rest => seq (runAll headers) (choice body.run rest.run)

def runAll : List (Expr D) → Behaviour String
  | [] => skip
  | e :: es => seq e.run (runAll es)

/-- The statements of a block; what it defers is done at every end of the rest. -/
def runItems : List (Expr D) → Behaviour String
  | [] => skip
  | .defer stmt :: es => cleanup (runItems es) stmt.run
  | e :: es => seq e.run (runItems es)

end

end ErrorReturns

end TurfLang
