import TurfLang.Lib.Abrupt
import TurfLang.Sema.Recover

/-!
# `CodegenFunc.cpp`: the value of a `recover`

Code generation joins the success branch and the failure branch of a `recover` whether or not the
failure branch can come to its end; where a `run` block does, the joined value is a placeholder. A
tree is run here with a state, so that a compare selects its arm by the value of its subject.
-/

namespace TurfLang

namespace Recover

open Compare Abrupt

variable {T : TypeTable} {σ : Type}

/-! ### Runs -/

/-- What the generated code does with the state outside the nodes with control flow. `undef` is
whatever an undefined value happens to be. -/
structure Machine (T : TypeTable) (σ : Type) where
  heap : Heap T σ
  unboxFromI64Slot : TurfType → BitVec 64 → σ → Val
  castToType : TurfType → Val → Val
  undef : TurfType → Val
  bindError : String → BitVec 64 → σ → σ
  bindArm : Env → σ → σ
  declareLoopVar : String → Datum → σ → σ
  inRange : String → Datum → σ → Bool
  nextElement : List String → Datum → ℕ → σ → Option σ

/-- The incoming values of the join. -/
inductive Phi
  | success (bits : BitVec 64)
  | produced (v : Val)
  | placeholder

/-- The value of a statement. -/
def unit : Datum := .val (.i64 0)

/-- A condition. -/
def truth : Datum → Run σ Bool
  | .val (.i1 bit) => pure bit
  | _ => Run.stuck

/-- The struct of a value of type `!T`. -/
def fallibleValue : Datum → Run σ Codegen.FallibleValue
  | .fallible fv => pure fv
  | .val _ => Run.stuck

def plainValue : Datum → Run σ Val
  | .val v => pure v
  | .fallible _ => Run.stuck

namespace Machine

variable (M : Machine T σ)

/-- The branches of `RecoverExprAST::codegen` and what each brings to the join. -/
def merge (kind : RecoverKind) (wrapped body : Run σ Datum) : Run σ Phi := do
  let fv ← fallibleValue (← wrapped)
  if fv.isOk then pure (.success fv.successBits)
  else
    match kind with
    | .produce =>
      let v ← plainValue (← body)
      pure (.produced v)
    | .run =>
      let _ ← body
      pure .placeholder
    | .asRun boundName =>
      Run.modify (M.bindError boundName fv.errorPayload)
      let _ ← body
      pure .placeholder

/-- The joined value. A `void` call has none. -/
def phiValue (successTy : TurfType) (phi : Phi) (s : σ) : Val :=
  if successTy.isVoid then .i64 0
  else
    match phi with
    | .success bits => M.unboxFromI64Slot successTy bits s
    | .produced v => M.castToType successTy v
    | .placeholder => M.undef successTy

/-- The rounds of a `for` over elements, from the `i`th on. -/
def eachElement (vars : List String) (d : Datum) (body : Run σ Unit) : ℕ → ℕ → Run σ Unit
  | 0, _ => Run.stuck
  | n + 1, i => fun s =>
    match M.nextElement vars d i s with
    | none => some (.value (), s)
    | some s' => (do if ← body.round then eachElement vars d body n (i + 1) else pure ()) s'

end Machine

mutual

/-- The runs of a tree, its loops with so many rounds at most. -/
def Expr.exec (M : Machine T σ) (fuel : ℕ) : Expr T σ → Run σ Datum
  | .node children run => do
    let ds ← execAll M fuel children
    Run.op (run ds)
  | .logical isAnd lhs rhs => do
    if (← truth (← lhs.exec M fuel)) = isAnd then rhs.exec M fuel
    else pure (.val (.i1 !isAnd))
  | .tryExpr successType operand => do
    let fv ← fallibleValue (← operand.exec M fuel)
    if fv.isOk then
      Run.op fun s => some (.val (M.unboxFromI64Slot successType fv.successBits s), s)
    else Run.leave .fails
  | .recover kind types wrapped body => do
    let phi ← M.merge kind (wrapped.exec M fuel) (body.exec M fuel)
    Run.op fun s => types.successType.map fun successTy => (.val (M.phiValue successTy phi s), s)
  | .block exprs => execItems M fuel exprs
  | .unsafeBlock body => body.exec M fuel
  | .ifElse branches => branches.exec M fuel
  | .whileLoop cond body => do
    Run.loop (do truth (← cond.exec M fuel)) (do let _ ← body.exec M fuel) (pure ()) fuel
    pure unit
  | .doWhile body cond => do
    if ← (do let _ ← body.exec M fuel : Run σ Unit).round then
      Run.loop (do truth (← cond.exec M fuel)) (do let _ ← body.exec M fuel) (pure ()) fuel
    pure unit
  | .forRange varName start stop step body => do
    let first ← start.exec M fuel
    Run.modify (M.declareLoopVar varName first)
    let last ← stop.exec M fuel
    Run.loop (fun s => some (.value (M.inRange varName last s), s))
      (do let _ ← body.exec M fuel) (do let _ ← step.exec M fuel) fuel
    pure unit
  | .forEach vars iterable body => do
    let d ← iterable.exec M fuel
    M.eachElement vars d (do let _ ← body.exec M fuel) fuel 0
    pure unit
  | .compare subject subjectType selfSubject arms => do
    let v ← plainValue (← subject.exec M fuel)
    let choice ← Run.op ((arms.toCompare subjectType selfSubject).select M.heap v)
    arms.exec M fuel choice
  | .returnVoid => Run.leave .returns
  | .returnVal val => do
    let _ ← val.exec M fuel
    Run.leave .returns
  | .breakLoop => Run.leave .breaks
  | .continueLoop => Run.leave .continues
  | .defer _ => pure unit

def Branches.exec (M : Machine T σ) (fuel : ℕ) : Branches T σ → Run σ Datum
  | .noElse => pure unit
  | .elseBody body => body.exec M fuel
  | .branch cond body rest => do
    if ← truth (← cond.exec M fuel) then body.exec M fuel else rest.exec M fuel

/-- The body that a compare has chosen. -/
def Arms.exec (M : Machine T σ) (fuel : ℕ) : Arms T σ → Choice → Run σ Datum
  | .noOtherBody, .noArm => pure unit
  | .otherBody body, .otherBody => body.exec M fuel
  | .arm _ body _, .arm 0 env => do
    Run.modify (M.bindArm env)
    body.exec M fuel
  | .arm _ _ rest, .arm (i + 1) env => rest.exec M fuel (.arm i env)
  | .arm _ _ rest, choice => rest.exec M fuel choice
  | _, _ => Run.stuck

/-- Children, one after another, and their values. -/
def execAll (M : Machine T σ) (fuel : ℕ) : List (Expr T σ) → Run σ (List Datum)
  | [] => pure []
  | e :: es => do
    let d ← e.exec M fuel
    let ds ← execAll M fuel es
    pure (d :: ds)

/-- The statements of a block; what it defers is done at every end of the rest. -/
def execItems (M : Machine T σ) (fuel : ℕ) : List (Expr T σ) → Run σ Datum
  | [] => pure unit
  | .defer stmt :: es => (execItems M fuel es).cleanup (do let _ ← stmt.exec M fuel)
  | e :: es => do
    let _ ← e.exec M fuel
    execItems M fuel es

end

end Recover

end TurfLang
