import TurfLang.Lib.Loop
import TurfLang.Lib.Search
import TurfLang.Sema.Types

/-!
# `TypeCheckerSlice.cpp`: writing through a slice into an immutable array

A `T[]` parameter shares the caller's array. Whether a function writes through one is asked
once all bodies are checked, by a memoised search over the functions the slice is handed to;
`checkSliceWrites` refuses the calls that give an immutable array to a parameter that is
written. Bodies are kept as far as the search looks at them.
-/

namespace TurfLang.Slice

open TurfLang.Search (Mark Memo)

/-! ### Functions and bodies -/

/-- The address of a `VariableSymbol`. -/
abbrev Symbol := ℕ

/-- The address of a `FuncDefExprAST`. -/
abbrev DeclId := ℕ

/-- A line and a column. -/
abbrev SourceLoc := ℕ × ℕ

structure VariableSymbol where
  type : TurfType
  isImmutable : Bool
  isParameter : Bool
  declLoc : SourceLoc

/-- A parameter as a call target lists it. -/
structure TargetParam where
  name : String
  type : TurfType

/-- A `ResolverFunctionSymbol`; `decl` is null for an `extern fn`. -/
structure Target where
  baseName : String
  params : List TargetParam
  mutatesSelf : Bool
  decl : Option DeclId
  declLoc : SourceLoc

/-- A `VariableExprAST`. -/
structure VariableExpr where
  name : String
  resolvedSymbol : Option Symbol
  isStructName : Bool

/-- The nodes the search tells apart. `absent` is a null child, `giveOtherwise` an `IfExprAST`
used as a value, and `node` stands for the nodes that are walked and not looked at. -/
inductive Expr
  | absent
  | var (v : VariableExpr)
  | arrayAccess (base index : Expr) (resolvedIndexGet : Bool)
  | slice (base start stop : Expr)
  | fieldAccess (base : Expr)
  | giveOtherwise (cond thenBody elseBody : Expr)
  | varDecl (symbol : Option Symbol) (initializer : Expr)
  | arrayDecl (symbol : Option Symbol) (initList : List Expr) (initExpr : Expr)
  | assignment (lhs rhs : Expr)
  | compoundAssignment (lhs rhs : Expr)
  | postfixExpr (operand : Expr)
  | funcCall (callee : Expr) (args : List Expr) (target : Option Target)
  | methodCall (base : Expr) (args : List Expr) (target : Option Target) (viaUFCS : Bool)
  | node (children : List Expr)

mutual

/-- The nodes an `ASTChildWalker` visits, in its order. -/
def Expr.nodes : Expr → List Expr
  | .absent => []
  | .var v => [.var v]
  | .arrayAccess base index g => .arrayAccess base index g :: (base.nodes ++ index.nodes)
  | .slice base start stop => .slice base start stop :: (base.nodes ++ start.nodes ++ stop.nodes)
  | .fieldAccess base => .fieldAccess base :: base.nodes
  | .giveOtherwise c t e => .giveOtherwise c t e :: (c.nodes ++ t.nodes ++ e.nodes)
  | .varDecl s init => .varDecl s init :: init.nodes
  | .arrayDecl s inits init => .arrayDecl s inits init :: (nodesOfList inits ++ init.nodes)
  | .assignment lhs rhs => .assignment lhs rhs :: (lhs.nodes ++ rhs.nodes)
  | .compoundAssignment lhs rhs => .compoundAssignment lhs rhs :: (lhs.nodes ++ rhs.nodes)
  | .postfixExpr e => .postfixExpr e :: e.nodes
  | .funcCall callee args t => .funcCall callee args t :: (callee.nodes ++ nodesOfList args)
  | .methodCall base args t u => .methodCall base args t u :: (base.nodes ++ nodesOfList args)
  | .node children => .node children :: nodesOfList children

def nodesOfList : List Expr → List Expr
  | [] => []
  | e :: es => e.nodes ++ nodesOfList es

end

/-- A parameter of a declaration, with the symbol the Resolver declares for it. -/
structure ParamDecl where
  name : String
  symbol : Symbol

/-- A `FuncDefExprAST`; its body is `absent` when it has none. -/
structure FuncDef where
  params : List ParamDecl
  body : Expr

/-- The checked program: the symbols its nodes point at, its functions, and the methods the
symbol table knows to change their receiver. -/
structure Program where
  symbols : Symbol → VariableSymbol
  decls : List FuncDef
  mutatesSelfTransitively : DeclId → Bool

/-- The function at an address. -/
def Program.decl (P : Program) (d : DeclId) : FuncDef := P.decls.getD d ⟨[], .absent⟩

/-- A parameter of a function: what the memo is indexed by. -/
abbrev Key := DeclId × ℕ

/-! ### Places and views -/

/-- Is this an `ArrayType` of size -1? -/
def isUnsizedArray : TurfType → Bool
  | .array _ .unsized => true
  | _ => false

/-- `rootVariable`. -/
def rootVariable : Expr → Option VariableExpr
  | .var v => some v
  | .arrayAccess base _ _ => rootVariable base
  | .slice base _ _ => rootVariable base
  | .fieldAccess base => rootVariable base
  | _ => none

/-- `inViews`. -/
def inViews (e : Expr) (views : Finset Symbol) : Bool :=
  (rootVariable e).any fun v => v.resolvedSymbol.any (· ∈ views)

/-- `isSliceElementPlace`, from a point of its walk down the expression on. -/
def isSliceElementPlaceFrom (views : Finset Symbol) : Bool → Expr → Bool
  | sawIndex, .var v => sawIndex && v.resolvedSymbol.any (· ∈ views)
  | _, .arrayAccess base _ resolvedIndexGet =>
    if resolvedIndexGet then false else isSliceElementPlaceFrom views true base
  | sawIndex, .slice base _ _ => isSliceElementPlaceFrom views sawIndex base
  | sawIndex, .fieldAccess base => isSliceElementPlaceFrom views sawIndex base
  | _, _ => false

/-- `isSliceElementPlace`. -/
def isSliceElementPlace (e : Expr) (views : Finset Symbol) : Bool :=
  isSliceElementPlaceFrom views false e

/-- The variable a node stores a value in, and the value: a declaration with an initializer, or
an assignment to a variable. -/
def Expr.stores : Expr → Option (Symbol × Expr)
  | .varDecl symbol initializer => symbol.map (·, initializer)
  | .arrayDecl symbol _ initExpr => symbol.map (·, initExpr)
  | .assignment (.var v) rhs => v.resolvedSymbol.map (·, rhs)
  | _ => none

namespace Program

variable (P : Program)

/-- `SliceAliasCollector::isUnsized`. -/
def isUnsized (s : Symbol) : Bool := isUnsizedArray (P.symbols s).type

/-- `SliceAliasCollector` at one node. -/
def collectAlias (views : Finset Symbol) (n : Expr) : Finset Symbol :=
  match n.stores with
  | some (s, value) => if P.isUnsized s && inViews value views then insert s views else views
  | none => views

/-- One walk of a `SliceAliasCollector`. -/
def collectAliases (body : Expr) (views : Finset Symbol) : Finset Symbol :=
  body.nodes.foldl P.collectAlias views

/-- The views of a parameter, once the collector adds no more; one walk for each node of the
body is enough. -/
def views (body : Expr) (param : Symbol) : Finset Symbol :=
  Loop.untilStable (P.collectAliases body) body.nodes.length {param}

end Program

/-! ### The write finder -/

/-- Is the parameter at this position a `T[]`? -/
def Target.unsizedParam (t : Target) (i : ℕ) : Bool :=
  t.params[i]?.any fun p => isUnsizedArray p.type

/-- The arguments of a call with the positions they are passed at: the receiver of a UFCS call
first, at position 0. -/
def passed (receiver : Option Expr) (args : List Expr) (paramOffset : ℕ) : List (Expr × ℕ) :=
  receiver.toList.map (·, 0) ++ args.zipIdx paramOffset

/-- Does the receiver of a method call name a struct? -/
def Expr.namesStruct : Expr → Bool
  | .var v => v.isStructName
  | _ => false

namespace Program

variable (P : Program)

/-- The declaration's own parameter for a position of a call target's parameter list: they
differ for a constructor, whose list has no `self`. -/
def targetKey (t : Target) (i : ℕ) : Option Key :=
  t.decl.map fun d =>
    let stripped := (P.decl d).params.head?.any (·.name = "self") &&
      !t.params.head?.any (·.name = "self")
    (d, i + if stripped then 1 else 0)

/-- `targetWritesThroughSlice`, given the question it asks. -/
def targetWritesThroughSlice (ask : Key → Memo Key → Option (Bool × Memo Key)) (t : Target)
    (i : ℕ) (memo : Memo Key) : Option (Bool × Memo Key) :=
  match P.targetKey t i with
  | none => some (false, memo)
  | some key => ask key memo

/-- `SliceWriteFinder::checkHandOff` for one argument. -/
def checkArgument (ask : Key → Memo Key → Option (Bool × Memo Key)) (views : Finset Symbol)
    (t : Target) (s : Bool × Memo Key) (arg : Expr × ℕ) : Option (Bool × Memo Key) :=
  if !inViews arg.1 views then some s
  else if !t.unsizedParam arg.2 then some s
  else (P.targetWritesThroughSlice ask t arg.2 s.2).map fun r => (s.1 || r.1, r.2)

/-- `SliceWriteFinder::checkHandOff`. -/
def checkHandOff (ask : Key → Memo Key → Option (Bool × Memo Key)) (views : Finset Symbol)
    (args : List (Expr × ℕ)) (t : Target) (s : Bool × Memo Key) : Option (Bool × Memo Key) :=
  args.foldlM (P.checkArgument ask views t) s

/-- Does a method change its receiver, by itself or through `self.m()` calls? -/
def mutatesReceiver (t : Target) : Bool :=
  t.mutatesSelf || t.decl.any P.mutatesSelfTransitively

/-- `SliceWriteFinder` at one node. -/
def findWrite (ask : Key → Memo Key → Option (Bool × Memo Key)) (views : Finset Symbol)
    (s : Bool × Memo Key) : Expr → Option (Bool × Memo Key)
  | .assignment lhs _ => some (s.1 || isSliceElementPlace lhs views, s.2)
  | .compoundAssignment lhs _ => some (s.1 || isSliceElementPlace lhs views, s.2)
  | .postfixExpr operand => some (s.1 || isSliceElementPlace operand views, s.2)
  | .funcCall _ args (some t) => P.checkHandOff ask views (passed none args 0) t s
  | .methodCall base args (some t) true =>
    P.checkHandOff ask views (passed (some base) args 1) t s
  | .methodCall base args (some t) false =>
    (P.checkHandOff ask views (passed none args (if base.namesStruct then 0 else 1)) t s).map
      fun s => (s.1 || (!base.namesStruct && isSliceElementPlace base views &&
        P.mutatesReceiver t), s.2)
  | _ => some s

/-- The symbol that the first use of a parameter's name resolves to. -/
def findParam (body : Expr) (name : String) : Option Symbol :=
  body.nodes.findSome? fun
    | .var v => if v.name = name then v.resolvedSymbol.filter fun s => (P.symbols s).isParameter
      else none
    | _ => none

/-- `writesThroughSliceParam`; `none` is running out of fuel. -/
def writesThroughSliceParam : ℕ → Key → Memo Key → Option (Bool × Memo Key)
  | 0, _, _ => none
  | fuel + 1, key, memo =>
    match memo key with
    | some mark => some (mark == .yes, memo)
    | none =>
      let body := (P.decl key.1).body
      match (P.decl key.1).params[key.2]? with
      | none => some (false, Function.update memo key (some .no))
      | some param =>
        match P.findParam body param.name with
        | none => some (false, Function.update memo key (some .no))
        | some symbol =>
          (body.nodes.foldlM
            (P.findWrite (writesThroughSliceParam fuel) (P.views body symbol))
            (false, Function.update memo key (some .inProgress))).map
            fun s => (s.1, Function.update s.2 key (some (if s.1 then .yes else .no)))

/-- The key an argument is handed to, if it goes to a `T[]` parameter. -/
def handedArgument (t : Target) (arg : Expr × ℕ) : Option (Expr × Key) :=
  if t.unsizedParam arg.2 then (P.targetKey t arg.2).map (arg.1, ·) else none

/-- The arguments passed to `T[]` parameters, with the keys to ask about. -/
def handedTo (t : Target) (args : List (Expr × ℕ)) : List (Expr × Key) :=
  args.filterMap (P.handedArgument t)

/-- The same for a node: what a call passes to `T[]` parameters. -/
def handed : Expr → List (Expr × Key)
  | .funcCall _ args (some t) => P.handedTo t (passed none args 0)
  | .methodCall base args (some t) true => P.handedTo t (passed (some base) args 1)
  | .methodCall base args (some t) false =>
    P.handedTo t (passed none args (if base.namesStruct then 0 else 1))
  | _ => []

/-- Fuel for any question: one for each argument the bodies hand on, and two. -/
def fuel : ℕ := (P.decls.flatMap fun d => d.body.nodes.flatMap P.handed).length + 2

/-- A question as the checker asks it. -/
def query (key : Key) (memo : Memo Key) : Option (Bool × Memo Key) :=
  P.writesThroughSliceParam P.fuel key memo

end Program

/-! ### The calls that are refused -/

structure PendingSliceWrite where
  loc : SourceLoc
  array : Symbol
  arrayName : String
  callee : Target
  paramIdx : ℕ

/-- What is reported and ends the check: an `ImmutableAssignmentError` or an E141. -/
structure Diagnostic where
  loc : SourceLoc
  message : String
  related : List (SourceLoc × String)
  hint : String

namespace Program

variable (P : Program)

/-- `noteSliceArguments`. -/
def noteSliceArguments (args : List (Expr × ℕ)) (t : Target) (loc : SourceLoc) :
    List PendingSliceWrite :=
  if t.decl.isNone then [] else
    args.filterMap fun (arg, i) =>
      if !t.unsizedParam i then none else
        match rootVariable arg with
        | some ⟨name, some s, _⟩ =>
          if (P.symbols s).isImmutable then some ⟨loc, s, name, t, i⟩ else none
        | _ => none

/-- The entry `visitMethodCall` makes for a call that is not refused on the spot: a method that
does not change its receiver directly, on an immutable variable. -/
def noteReceiver (base : Expr) (t : Target) (loc : SourceLoc) : List PendingSliceWrite :=
  if P.mutatesReceiver t || t.decl.isNone then [] else
    match base with
    | .var ⟨name, some s, _⟩ => if (P.symbols s).isImmutable then [⟨loc, s, name, t, 0⟩] else []
    | _ => []

/-- The report for a method that changes an immutable receiver through a slice. -/
def selfWriteError (p : PendingSliceWrite) : Diagnostic where
  loc := p.loc
  message := "Oops! You can't change the value of '" ++ p.arrayName ++ "' because it's immutable."
  related := [((P.symbols p.array).declLoc, "declared immutable here"),
    (p.callee.declLoc,
      "'" ++ p.callee.baseName ++ "' changes it through a slice of one of its arrays")]
  hint := "If you need to change its value later, declare it with 'mutable' instead of 'immutable'."

/-- The report for a function that writes to an immutable array it is given. -/
def arrayWriteError (p : PendingSliceWrite) (param : TargetParam) : Diagnostic where
  loc := p.loc
  message := "'" ++ p.arrayName ++ "' is immutable, but '" ++ p.callee.baseName ++
    "' writes to the array it is given as '" ++ param.name ++ "'."
  related := [((P.symbols p.array).declLoc, "declared immutable here"),
    (p.callee.declLoc,
      "'" ++ p.callee.baseName ++ "' changes its parameter '" ++ param.name ++ "'")]
  hint := "An unsized parameter ('" ++ param.type.getName ++
    "') shares the caller's array instead of copying it, so the change would land in '" ++
    p.arrayName ++ "'. Declare '" ++ p.arrayName ++
    "' with 'mut', or copy it into a 'mut' array first and pass the copy."

/-- The `self` of a method, as the key asked about for a call on an immutable receiver. -/
def receiverKey (t : Target) : Option Key :=
  t.decl.bind fun d =>
    if (P.decl d).params.head?.any (·.name = "self") then some (d, 0) else none

/-- The key asked about for an argument. -/
def argumentKey (p : PendingSliceWrite) : Option Key := P.targetKey p.callee p.paramIdx

/-- One loop of `checkSliceWrites`: asks about each entry, and reports the first that writes. -/
def refuseWrites (key : PendingSliceWrite → Option Key) (report : PendingSliceWrite → Diagnostic) :
    List PendingSliceWrite → Memo Key → Option (Except Diagnostic (Memo Key))
  | [], memo => some (.ok memo)
  | p :: ps, memo =>
    match key p with
    | none => refuseWrites key report ps memo
    | some k => (P.query k memo).bind fun r =>
      if r.1 then some (.error (report p)) else refuseWrites key report ps r.2

/-- `checkSliceWrites`: the method calls first, then the arguments. -/
def checkSliceWrites (pendingSelf pending : List PendingSliceWrite) (memo : Memo Key) :
    Option (Except Diagnostic (Memo Key)) :=
  (P.refuseWrites (fun p => P.receiverKey p.callee) P.selfWriteError pendingSelf memo).bind fun
    | .error e => some (.error e)
    | .ok memo' => P.refuseWrites P.argumentKey
        (fun p => P.arrayWriteError p (p.callee.params.getD p.paramIdx ⟨"", .void⟩)) pending memo'

end Program

end TurfLang.Slice
