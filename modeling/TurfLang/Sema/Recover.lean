import TurfLang.Codegen.FallibleValue
import TurfLang.Sema.Matching

/-!
# `TypeCheckerCall.cpp`: `recover`

`visitRecoverExpr` asks of a `recover run` whose call has a value that every path through its block
leaves it. `AllPathsDiverge` goes by the syntax, and by what `visitCompare` has recorded of the
compares in the block. The headers of an arm are those of a `compare`, and its body is a node.
-/

namespace TurfLang

namespace Recover

open Compare

/-! ### The tree of a block -/

/-- The value of an expression: an ordinary one, or the struct of a value of type `!T`. -/
inductive Datum
  | val (v : Val)
  | fallible (fv : Codegen.FallibleValue)

/-- `RecoverKind`, with the name of `as err run`. -/
inductive RecoverKind
  | produce
  | run
  | asRun (boundName : String)
  deriving DecidableEq

/-- What the checks find of the parts of a `recover`: the type of the call, that of the produced
expression, and whether this is a literal that acquires the success type, or `int32`. -/
structure RecoverTypes where
  wrapped : Option TurfType
  produced : Option TurfType
  literalAcquires : Bool
  acquiresInt32 : Bool

variable (T : TypeTable) (σ : Type)

mutual

/-- Statements and expressions. The nodes without control flow of their own are one constructor:
they evaluate their children in order and then do something themselves. -/
inductive Expr
  | node (children : List Expr) (run : List Datum → σ → Option (Datum × σ))
  | logical (isAnd : Bool) (lhs rhs : Expr)
  | tryExpr (successType : TurfType) (operand : Expr)
  | recover (kind : RecoverKind) (types : RecoverTypes) (wrapped body : Expr)
  | block (exprs : List Expr)
  | unsafeBlock (body : Expr)
  | ifElse (branches : Branches)
  | whileLoop (cond body : Expr)
  | doWhile (body cond : Expr)
  | forRange (varName : String) (start stop step body : Expr)
  | forEach (vars : List String) (iterable body : Expr)
  | compare (subject : Expr) (subjectType : TurfType) (selfSubject : Bool) (arms : Arms)
  | returnVoid
  | returnVal (val : Expr)
  | breakLoop
  | continueLoop
  | defer (stmt : Expr)

/-- The branches of an `if` and the `else`. -/
inductive Branches
  | noElse
  | elseBody (body : Expr)
  | branch (cond body : Expr) (rest : Branches)

/-- The arms of a `compare` and its `otherwise`. -/
inductive Arms
  | noOtherBody
  | otherBody (body : Expr)
  | arm (headers : MatchesArm T σ) (body : Expr) (rest : Arms)

end

variable {T σ}

/-! ### `AllPathsDiverge` -/

namespace Arms

def hasOtherBody : Arms T σ → Bool
  | .noOtherBody => false
  | .otherBody _ => true
  | .arm _ _ rest => rest.hasOtherBody

def headers : Arms T σ → List (MatchesArm T σ)
  | .noOtherBody | .otherBody _ => []
  | .arm headers _ rest => headers :: rest.headers

/-- The compare without the bodies of its arms. -/
def toCompare (arms : Arms T σ) (subjectType : TurfType) (selfSubject : Bool) :
    CompareExpr T σ where
  subjectType := subjectType
  selfSubject := selfSubject
  arms := arms.headers
  hasOtherBody := arms.hasOtherBody

end Arms

/-- `Node.Exhaustive`, as `visitCompare` has left it. -/
def isExhaustive (node : CompareExpr T σ) : Bool :=
  match node.visitCompare with
  | .ok covered => covered
  | .error _ => false

mutual

def Expr.allPathsDiverge : Expr T σ → Bool
  | .returnVoid | .returnVal _ | .breakLoop | .continueLoop => true
  | .block exprs => anyDiverges exprs
  | .ifElse branches => branches.allPathsDiverge
  | .compare _ subjectType selfSubject arms =>
    (arms.hasOtherBody || isExhaustive (arms.toCompare subjectType selfSubject)) &&
      arms.allPathsDiverge
  -- a loop, an expression, an `unsafe` block and anything else may come to its end
  | _ => false

def Branches.allPathsDiverge : Branches T σ → Bool
  | .noElse => false
  | .elseBody body => body.allPathsDiverge
  | .branch _ body rest => body.allPathsDiverge && rest.allPathsDiverge

def Arms.allPathsDiverge : Arms T σ → Bool
  | .noOtherBody => true
  | .otherBody body => body.allPathsDiverge
  | .arm _ body rest => body.allPathsDiverge && rest.allPathsDiverge

/-- One diverging statement makes the rest of a block unreachable. -/
def anyDiverges : List (Expr T σ) → Bool
  | [] => false
  | e :: es => e.allPathsDiverge || anyDiverges es

end

/-! ### `visitRecoverExpr` -/

inductive RecoverError
  | notFallible
  | produceType
  | produceTypeExact
  | notDiverging
  deriving DecidableEq

/-- `Node.ResolvedSuccessType`. -/
def RecoverTypes.successType (types : RecoverTypes) : Option TurfType :=
  match types.wrapped with
  | some (.errorUnion successTy) => some successTy
  | _ => none

/-- What is reported of a `produce`: the value stands in for that of the call, and is not
widened. -/
def checkProduce (types : RecoverTypes) (produceTy successTy : TurfType) : List RecoverError :=
  if !produceTy.typesCompatible successTy && !types.literalAcquires then [.produceType]
  else if produceTy.isNumeric && successTy.isNumeric && produceTy.getName != successTy.getName &&
      !types.acquiresInt32 then [.produceTypeExact]
  else []

/-- What `visitRecoverExpr` reports. -/
def visitRecoverExpr (kind : RecoverKind) (types : RecoverTypes) (body : Expr T σ) :
    List RecoverError :=
  match types.successType with
  | none => [.notFallible]
  | some successTy =>
    match kind with
    | .produce => (types.produced.map (checkProduce types · successTy)).getD []
    | _ => if !successTy.isVoid && !body.allPathsDiverge then [.notDiverging] else []

end Recover

end TurfLang
