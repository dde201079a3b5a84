import TurfLang.Sema.Compatible
import TurfLang.Sema.TypeWalk

/-!
# `TypeCheckerCall.cpp`: which overload a call means

A call has several candidates. The selection loops keep those that take the arguments, with the
implicit conversions, and choose one of them: an ordinary call and a call in a module prefer one
whose parameters have the very types of the arguments, a call of a method takes the first, and a
free function called with a dot may also be reported as ambiguous.
-/

namespace TurfLang.Overload

open TypeWalk

/-! ### Candidates and arguments -/

structure FunctionParam where
  name : String
  type : TurfType

/-- `ResolverFunctionSymbol`. -/
structure FunctionSymbol where
  baseName : String
  sourceModule : String := ""
  params : List FunctionParam
  returnType : TurfType := .void
  isVarArg : Bool := false
  isExtern : Bool := false
  isPublic : Bool := false
  typeParams : List String := []
  /-- Those of the parameters that stand for the size of an array. -/
  sizeParams : List String := []

def FunctionSymbol.arity (c : FunctionSymbol) : ℕ := c.params.length

def FunctionSymbol.paramTypes (c : FunctionSymbol) : List TurfType := c.params.map (·.type)

/-- An argument: the type it was found to have, whether it is made of integer literals only, and
whether it is an array literal. -/
structure Argument where
  type : Option TurfType
  foldsToInt : Bool := false
  isArrayLiteral : Bool := false

/-- A call: its arguments, and the type arguments written in it. -/
structure Call where
  args : List Argument
  written : List TurfType := []

inductive CallError
  | wrongTypeArgumentCount
  | wrongArity
  | argumentType
  | moduleArityOrType
  | ambiguousCall
  | privateFunction
  deriving DecidableEq

/-- What a selection comes to. -/
inductive Outcome
  | chosen (c : FunctionSymbol)
  | reported (error : CallError)
  /-- No candidate fits here; the caller goes on, and reports the call in the end. -/
  | unmatched

/-! ### One argument against one parameter -/

def isExternStringToPtrCoercion (argTy paramTy : TurfType) : Bool :=
  argTy.isString && ((paramTy.isPointer && !paramTy.isReference) ||
    match paramTy with
    | .named name => name = "ptr" || name = "void*"
    | _ => false)

def untypedLiteralAcquiresInt32 (arg : Argument) : TurfType → Bool
  | .int32 => arg.foldsToInt
  | _ => false

/-- The type an array literal of `null`s or of references takes for an array of nullable
references; `current` is the type the literal has by now. -/
def arrayLiteralWidensToNullableRefs (arg : Argument) (current : Option TurfType) :
    TurfType → Option TurfType
  | .array (.nullableReference p) (.fixed size) =>
    match current with
    | some (.array .null (.fixed size')) =>
      if arg.isArrayLiteral ∧ size = size' then some (.array (.nullableReference p) (.fixed size))
      else none
    | some (.array (.reference q) (.fixed size')) =>
      if arg.isArrayLiteral ∧ size = size' ∧ p.getName = q.getName then
        some (.array (.nullableReference p) (.fixed size))
      else none
    | _ => none
  | _ => none

/-- An argument of this type fits without taking another type. -/
def fitsAsItIs (isExtern : Bool) (arg : Argument) (argTy paramTy : TurfType) : Bool :=
  argTy.typesCompatible paramTy || (isExtern && isExternStringToPtrCoercion argTy paramTy) ||
    untypedLiteralAcquiresInt32 arg paramTy

/-- Whether an argument fits a parameter, and the type it has after that was tried. -/
def argumentFits (isExtern : Bool) (arg : Argument) (paramTy : TurfType)
    (current : Option TurfType) : Bool × Option TurfType :=
  match arg.type with
  | none => (true, current)
  | some argTy =>
    if fitsAsItIs isExtern arg argTy paramTy then (true, current)
    else
      match arrayLiteralWidensToNullableRefs arg current paramTy with
      | some widened => (true, some widened)
      | none => (false, current)

/-- The arguments against the parameters, up to the first that does not fit. -/
def argumentsFit (isExtern : Bool) :
    List Argument → List TurfType → List (Option TurfType) → Bool × List (Option TurfType)
  | arg :: args, paramTy :: paramTys, current :: currents =>
    let fit := argumentFits isExtern arg paramTy current
    if fit.1 then
      let rest := argumentsFit isExtern args paramTys currents
      (rest.1, fit.2 :: rest.2)
    else (false, fit.2 :: currents)
  | _, _, currents => (true, currents)

/-- The filter by types: the candidates that take the arguments. What one candidate makes of an
array literal, the next ones find. -/
def typeMatches (isExtern : FunctionSymbol → Bool) (paramTypes : FunctionSymbol → List TurfType)
    (args : List Argument) : List FunctionSymbol → List (Option TurfType) → List FunctionSymbol
  | [], _ => []
  | c :: cs, currents =>
    let fit := argumentsFit (isExtern c) args (paramTypes c) currents
    if fit.1 then c :: typeMatches isExtern paramTypes args cs fit.2
    else typeMatches isExtern paramTypes args cs fit.2

/-- `ExactAll`. -/
def exactAll : List TurfType → List Argument → Bool
  | paramTy :: paramTys, arg :: args =>
    (match arg.type with
      | none => true
      | some argTy => paramTy.getName = argTy.getName) && exactAll paramTys args
  | _, _ => true

/-! ### Type arguments -/

def writableTypeParams (c : FunctionSymbol) : List String :=
  c.typeParams.filter fun param => !c.sizeParams.contains param

def writtenSubst (c : FunctionSymbol) (written : List TurfType) : SubstMap :=
  ((writableTypeParams c).zip written).foldl (fun s entry => emplace s entry.1 entry.2) []

section

variable (isResolvedIdentity : String → Bool)

def substituteReturnType (s : SubstMap) (t : TurfType) : TurfType :=
  substitute isResolvedIdentity s t

/-! ### The selection loops -/

/-- The filter by arity of an ordinary call. -/
def arityMatches (call : Call) (c : FunctionSymbol) : Bool :=
  c.arity = call.args.length || (c.isVarArg && c.arity ≤ call.args.length)

/-- The filter by written type arguments. -/
def takesWritten (call : Call) (c : FunctionSymbol) : Bool :=
  call.written.isEmpty || (writableTypeParams c).length = call.written.length

/-- The parameters an ordinary call compares its arguments with. -/
def funcCallParams (call : Call) (c : FunctionSymbol) : List TurfType :=
  if call.written.isEmpty then c.paramTypes
  else c.paramTypes.map (substituteReturnType isResolvedIdentity (writtenSubst c call.written))

/-- The candidates are all of one imported module. -/
def isModuleCall (candidates : List FunctionSymbol) : Bool :=
  match candidates with
  | [] => false
  | c :: cs => c.sourceModule ≠ "" && cs.all fun d => d.sourceModule = c.sourceModule

/-- The best match: an exact one before the first. -/
def bestMatch (args : List Argument) : List FunctionSymbol → Option FunctionSymbol
  | [] => none
  | c :: cs =>
    if cs.isEmpty then some c
    else some (((c :: cs).find? fun d => exactAll d.paramTypes args).getD c)

/-- `visitFuncCall`: a free call, a call `module::f(...)`, and `S::new(...)` on candidates
without their `self`. -/
def visitFuncCall (call : Call) (candidates : List FunctionSymbol) : Outcome :=
  let ofArity := candidates.filter (arityMatches call)
  let generic := ofArity.filter (takesWritten call)
  if ofArity.isEmpty then .reported .wrongArity
  else if generic.isEmpty then .reported .wrongTypeArgumentCount
  else
    match bestMatch call.args (typeMatches (·.isExtern) (funcCallParams isResolvedIdentity call)
      call.args generic (call.args.map (·.type))) with
    | some best => .chosen best
    | none => .reported (if isModuleCall generic then .moduleArityOrType else .argumentType)

/-- `visitMethodCall`, a call qualified by a module; the candidates are those of the module. -/
def visitModuleCall (call : Call) (candidates : List FunctionSymbol) : Outcome :=
  if candidates.isEmpty then .unmatched
  else
    let ofArity := candidates.filter fun c => c.arity = call.args.length
    if ofArity.isEmpty then .reported .wrongArity
    else
      match bestMatch call.args (typeMatches (·.isExtern) (·.paramTypes) call.args ofArity
        (call.args.map (·.type))) with
      | some best => .chosen best
      | none => .reported .moduleArityOrType

def takesSelf (c : FunctionSymbol) : Bool := (c.params.head?.map (·.name)) = some "self"

/-- The parameters a call of a method compares its arguments with; `subst` is what the receiver's
type arguments bind. -/
def methodParams (isStatic : Bool) (subst : SubstMap) (c : FunctionSymbol) : List TurfType :=
  let params := if isStatic then c.paramTypes else c.paramTypes.tail
  if subst.isEmpty then params else params.map (substituteReturnType isResolvedIdentity subst)

/-- `visitMethodCall`, a method of a struct. -/
def visitStructMethodCall (isStatic : Bool) (subst : SubstMap) (call : Call)
    (candidates : List FunctionSymbol) : Outcome :=
  let expectedArity := if isStatic then call.args.length else call.args.length + 1
  let ofArity := candidates.filter fun c => c.arity = expectedArity && (isStatic || takesSelf c)
  match typeMatches (fun _ => false) (methodParams isResolvedIdentity isStatic subst) call.args
    ofArity (call.args.map (·.type)) with
  | best :: _ => .chosen best
  | [] => .unmatched

def ufcsReceiverTypeMatches (paramTy actualTy : TurfType) : Bool :=
  match paramTy, actualTy with
  | .array e size, .array e' size' =>
    e.getName = e'.getName &&
      match size, size' with
      | .unsized, _ => true
      -- every symbolic size is the same number
      | .param _, .param _ => true
      | .fixed n, .fixed m => n = m
      | _, _ => false
  | _, _ => paramTy.getName = actualTy.getName

/-- What the receiver and the arguments bind the parameters of a generic candidate to, after the
written type arguments. -/
def ufcsSubst (receiver : TurfType) (call : Call) (c : FunctionSymbol) : SubstMap :=
  let fromWritten := if call.written.isEmpty then [] else writtenSubst c call.written
  let patterns := c.paramTypes.map (substituteReturnType isResolvedIdentity fromWritten)
  (patterns.zip (some receiver :: call.args.map (·.type))).foldl (fun s entry =>
    match entry.2 with
    | none => s
    | some actual => unify entry.1 actual s) fromWritten

/-- `bindTypeParams`: every parameter is bound. -/
def bindTypeParams (receiver : TurfType) (call : Call) (c : FunctionSymbol) : Bool :=
  c.typeParams.all fun param => ((ufcsSubst isResolvedIdentity receiver call c).lookup param).isSome

/-- `paramType`: the parameters, substituted for a generic candidate. -/
def ufcsParams (receiver : TurfType) (call : Call) (c : FunctionSymbol) : List TurfType :=
  if c.typeParams.isEmpty then c.paramTypes
  else c.paramTypes.map
    (substituteReturnType isResolvedIdentity (ufcsSubst isResolvedIdentity receiver call c))

/-- `receiverFits`. -/
def receiverFits (receiver : TurfType) (call : Call) (c : FunctionSymbol) : Bool :=
  c.arity = call.args.length + 1 && bindTypeParams isResolvedIdentity receiver call c &&
    match ufcsParams isResolvedIdentity receiver call c with
    | [] => false
    | self :: _ => ufcsReceiverTypeMatches self receiver

/-- The receiver is just what the candidate declares. -/
def exactReceiver (receiver : TurfType) (call : Call) (c : FunctionSymbol) : Bool :=
  match ufcsParams isResolvedIdentity receiver call c with
  | [] => false
  | self :: _ => self.getName = receiver.getName

def preludeModuleNames : List String :=
  ["int", "double", "bool", "char", "strings", "array", "io", "math", "sys"]

/-- The module of the prelude a receiver's type belongs to. -/
def homeModule (receiver : TurfType) : String :=
  if receiver.getName = "string" then "strings" else receiver.getName

/-- A candidate of the receiver's own prelude module. -/
def inHome (receiver : TurfType) (c : FunctionSymbol) : Bool :=
  preludeModuleNames.contains (homeModule receiver) && c.sourceModule = homeModule receiver

/-- The candidates whose receiver fits, without those an exact one is better than. -/
def receiverMatches (receiver : TurfType) (call : Call) (candidates : List FunctionSymbol) :
    List FunctionSymbol :=
  let fitting := candidates.filter (receiverFits isResolvedIdentity receiver call)
  let exact := fitting.filter (exactReceiver isResolvedIdentity receiver call)
  if exact.isEmpty then fitting else exact

/-- The choice among the candidates that take the arguments. -/
def ufcsBest (receiver : TurfType) (call : Call) (matching : List FunctionSymbol) : Outcome :=
  let exact := matching.filter fun c =>
    exactAll (ufcsParams isResolvedIdentity receiver call c).tail call.args
  let home := exact.filter (inHome receiver)
  let exact := if 1 < exact.length ∧ home.length = 1 then home else exact
  match exact, matching with
  | [best], _ => .chosen best
  | [], best :: _ => .chosen best
  | [], [] => .unmatched
  | _ :: _ :: _, _ => .reported .ambiguousCall

/-- `tryUFCSFallback`: a free function called on its first argument with a dot. -/
def tryUFCSFallback (receiver : TurfType) (currentModule : String) (call : Call)
    (candidates : List FunctionSymbol) : Outcome :=
  let visible := candidates.filter fun c => c.isPublic || c.sourceModule = currentModule
  let hidden := candidates.filter fun c => !(c.isPublic || c.sourceModule = currentModule)
  let ofArity := visible.filter fun c => c.arity = call.args.length + 1
  let generic := ofArity.filter (takesWritten call)
  if !call.written.isEmpty ∧ !ofArity.isEmpty ∧ generic.isEmpty then
    .reported .wrongTypeArgumentCount
  else
    let candidates := if call.written.isEmpty then visible else generic
    let matching := receiverMatches isResolvedIdentity receiver call candidates
    if matching.isEmpty then
      if hidden.any (receiverFits isResolvedIdentity receiver call) then .reported .privateFunction
      else .unmatched
    else
      ufcsBest isResolvedIdentity receiver call
        (typeMatches (fun _ => false)
          (fun c => (ufcsParams isResolvedIdentity receiver call c).tail) call.args matching
          (call.args.map (·.type)))

end

end TurfLang.Overload
