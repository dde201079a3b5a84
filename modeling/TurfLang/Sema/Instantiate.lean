import TurfLang.Lib.Sweep
import TurfLang.Sema.Types

/-!
# `Monomorphize.h`, `Monomorphize.cpp`: instantiation requests and their drains

A call of a generic function asks for an instantiation of it. The requests are kept in an
append-only cache, each entry with the sites that asked; four drain functions take turns at
the cache until none finds work, cloning the template of an entry once and pointing its sites
at the clone. Type-checking a clone again records new requests. What the clones are is left
out: a clone is what its resolution and its check do to the cache.
-/

namespace TurfLang.Instantiate

open TurfLang (TurfType)

/-! ### Requests -/

inductive InstantiationKind
  | freeFunction
  | method
  | struct
  deriving DecidableEq

structure SourceLocation where
  filename : String
  line : ℕ
  column : ℕ
  deriving DecidableEq

/-- The address of a `FuncDefExprAST`. -/
abbrev DeclId := ℕ

structure InstantiationRequest where
  kind : InstantiationKind
  declKey : String
  sourceModule : String
  typeArgs : List TurfType
  site : SourceLocation
  decl : Option DeclId := none
  /-- The entry whose clone was being checked; `none` is -1. -/
  parent : Option ℕ := none

def InstantiationRequest.sameInstantiationAs (r other : InstantiationRequest) : Bool :=
  r.kind = other.kind && r.declKey = other.declKey && r.sourceModule = other.sourceModule &&
    r.decl = other.decl && r.typeArgs.length = other.typeArgs.length &&
      TurfType.allEquivalent r.typeArgs other.typeArgs

/-- The classes of expression a request can come from. -/
inductive SiteKind
  | funcCall
  | varRef
  | methodCall
  | arrayAccess
  | binary
  | unary
  | compoundAssignment
  | postfixExpr
  | other
  deriving DecidableEq

/-- The `ExprAST` a request comes from. -/
structure Site where
  id : ℕ
  kind : SiteKind
  deriving DecidableEq

/-- The members of the sites that hold a target. -/
inductive Field
  | resolvedCallTarget
  | resolvedFunctionRef
  | resolvedIndexSetTarget
  | resolvedIndexGetTarget
  | resolvedNotOperatorTarget
  | resolvedOperatorTarget
  deriving DecidableEq

/-- The member `retargetOperatorSite` writes. -/
def operatorField (declKey : String) : SiteKind → Option Field
  | .arrayAccess =>
    some (if declKey = "operator[]=" then .resolvedIndexSetTarget else .resolvedIndexGetTarget)
  | .binary =>
    some (if declKey = "operator!" then .resolvedNotOperatorTarget else .resolvedOperatorTarget)
  | .unary | .compoundAssignment | .postfixExpr => some .resolvedOperatorTarget
  | _ => none

/-- The member `rewriteNewFuncCallSites` writes. -/
def funcCallField (declKey : String) : SiteKind → Option Field
  | .funcCall => some .resolvedCallTarget
  | .varRef => some .resolvedFunctionRef
  | .methodCall => some .resolvedCallTarget
  | kind => operatorField declKey kind

/-- The member `rewriteNewMethodCallSites` writes. -/
def methodCallField (_declKey : String) : SiteKind → Option Field
  | .methodCall => some .resolvedCallTarget
  | _ => none

/-! ### The cache -/

structure InstantiationEntry where
  request : InstantiationRequest
  index : ℕ
  sites : List Site := []
  drained : Bool := false
  /-- The clone, as its position among all clones. -/
  clonedSymbol : Option ℕ := none
  sitesRewritten : ℕ := 0

structure InstantiationCollector where
  entries : List InstantiationEntry := []
  /-- The entry whose clone is being checked; `none` is -1. -/
  currentParent : Option ℕ := none

/-- `record`'s branch for an entry that is there: a request of ordinary code makes it a root. -/
def InstantiationEntry.absorb (currentParent : Option ℕ) (r : InstantiationRequest) (s : Site)
    (e : InstantiationEntry) : InstantiationEntry :=
  { e with
    sites := e.sites ++ [s]
    request :=
      if currentParent.isNone && e.request.parent.isSome then
        { e.request with parent := none, site := r.site }
      else e.request }

/-- Takes a site off an entry that has not pointed it at a clone yet. -/
def InstantiationEntry.forget (s : Site) (e : InstantiationEntry) : InstantiationEntry :=
  { e with
    sites := e.sites.take e.sitesRewritten ++ (e.sites.drop e.sitesRewritten).filter (· ≠ s) }

namespace InstantiationCollector

/-- The entry of an equivalent request. -/
def find (c : InstantiationCollector) (r : InstantiationRequest) : Option ℕ :=
  c.entries.findIdx? fun e => e.request.sameInstantiationAs r

def record (c : InstantiationCollector) (r : InstantiationRequest) (s : Site) :
    InstantiationCollector :=
  match c.find r with
  | some i => { c with entries := c.entries.modify i (.absorb c.currentParent r s) }
  | none =>
    { c with
      entries := c.entries ++
        [{ request := { r with parent := c.currentParent }, index := c.entries.length,
           sites := [s] }] }

def forgetSite (c : InstantiationCollector) (s : Site) : InstantiationCollector :=
  { c with entries := c.entries.map (.forget s) }

def setCurrentParent (c : InstantiationCollector) (parent : Option ℕ) : InstantiationCollector :=
  { c with currentParent := parent }

/-- The loop of `chainTo`, from a parent outwards; `none` is running out of fuel. -/
def chainFrom (c : InstantiationCollector) : ℕ → Option ℕ → Option (List ℕ)
  | _, none => some []
  | 0, some _ => none
  | fuel + 1, some p =>
    match c.entries[p]? with
    | none => none
    | some e => (c.chainFrom fuel e.request.parent).map (· ++ [p])

/-- The requests that led to an entry, outermost first. -/
def chainTo (c : InstantiationCollector) (i : ℕ) : Option (List ℕ) :=
  match c.entries[i]? with
  | none => none
  | some e => (c.chainFrom c.entries.length e.request.parent).map (· ++ [i])

end InstantiationCollector

/-! ### The generic types a struct's fields name -/

/-- What stands before the first `::`. -/
def beforeColons : List Char → Option (List Char)
  | ':' :: ':' :: _ => some []
  | [] => none
  | c :: rest => (beforeColons rest).map (c :: ·)

/-- `TypeIdentity::owningModule`. -/
def owningModule (id : String) : String :=
  String.ofList ((beforeColons id.toList).getD [])

/-- The names `containsOpenParam` never takes for a type parameter. -/
def knownPrimitiveNames : List String :=
  ["int", "int32", "double", "bool", "char", "string", "void", "null", "ptr", "void*"]

mutual

/-- `containsOpenParam` with `ParamScope::ThroughGenericArgs`. -/
def containsOpenParam (isKnown : String → Bool) : TurfType → Bool
  | .genericParam _ => true
  | .named name => !knownPrimitiveNames.contains name && !isKnown name
  | .pointer p => containsOpenParam isKnown p
  | .reference p => containsOpenParam isKnown p
  | .nullableReference p => containsOpenParam isKnown p
  | .array e size =>
    (match size with
      | .param _ => true
      | _ => false) || containsOpenParam isKnown e
  | .generic _ args => anyOpenParam isKnown args
  | _ => false

def anyOpenParam (isKnown : String → Bool) : List TurfType → Bool
  | [] => false
  | t :: ts => containsOpenParam isKnown t || anyOpenParam isKnown ts

end

def isFullyConcreteType (isKnown : String → Bool) (t : TurfType) : Bool :=
  !containsOpenParam isKnown t

mutual

/-- `recordGenericFieldInstantiations`: the requests it records, in order. -/
def genericFieldRequests (isKnown : String → Bool) (loc : SourceLocation) :
    TurfType → List InstantiationRequest
  | .generic base args =>
    if isFullyConcreteType isKnown (.generic base args) then
      { kind := .struct, declKey := base, sourceModule := owningModule base, typeArgs := args,
        site := loc } :: genericFieldsRequests isKnown loc args
    else []
  | .pointer p => genericFieldRequests isKnown loc p
  | .reference p => genericFieldRequests isKnown loc p
  | .nullableReference p => genericFieldRequests isKnown loc p
  | .array e _ => genericFieldRequests isKnown loc e
  | _ => []

def genericFieldsRequests (isKnown : String → Bool) (loc : SourceLocation) :
    List TurfType → List InstantiationRequest
  | [] => []
  | t :: ts => genericFieldRequests isKnown loc t ++ genericFieldsRequests isKnown loc ts

end

/-! ### The program, as far as a drain looks at it -/

/-- What type-checking does to the collector. -/
inductive Event
  | record (r : InstantiationRequest) (s : Site)
  | forgetSite (s : Site)

/-- A generic declaration. -/
structure Template where
  name : String
  typeParams : List String
  params : List String

/-- The clone of a function entry: whether it resolves, what its check does to the collector, and
whether it passes. -/
structure FunctionClone where
  resolves : Bool := true
  events : List Event := []
  checks : Bool := true

/-- The clone of a struct entry: its field types, and whether its layout is acyclic and it
resolves. -/
structure StructClone where
  fields : List TurfType := []
  acyclic : Bool := true
  resolves : Bool := true

structure Program where
  /-- The declaration at an address. -/
  declaration : DeclId → Template
  /-- `buildDeclRegistry`, by module and name. -/
  declRegistry : String → Option Template
  /-- The keys of `buildStructDeclRegistry`. -/
  structDeclRegistry : String → Bool
  /-- Whether a name is a registered type. -/
  isKnownType : String → Bool
  isLibStd : String → Bool
  /-- What the check of the ordinary code did to the collector. -/
  ordinary : List Event
  /-- The clone of the function entry at an index. -/
  functionClone : ℕ → FunctionClone
  /-- The clone of the struct entry at an index. -/
  structClone : ℕ → StructClone

/-- A diagnostic that ends the drains; chains are indices into the cache. -/
inductive DrainError
  | noDeclaration (site : SourceLocation) (declKey : String)
  | noSelfParameter (site : SourceLocation) (declKey : String)
  | instantiationDepth (site : SourceLocation) (chain : List ℕ) (total : ℕ)
  | failedToResolve (site : SourceLocation) (declKey : String)
  | inThisInstantiation (site : SourceLocation) (chain : List ℕ)
  | structLayoutCycle (declKey : String)
  /-- Following the parents does not end. -/
  | endlessChain

/-- The targets that have been written, and the clones with the entry each one is of. -/
structure State where
  collector : InstantiationCollector
  targets : Site → Field → Option ℕ
  clones : List ℕ

namespace InstantiationCollector

def apply (c : InstantiationCollector) : Event → InstantiationCollector
  | .record r s => c.record r s
  | .forgetSite s => c.forgetSite s

def replay (c : InstantiationCollector) (events : List Event) : InstantiationCollector :=
  events.foldl apply c

/-- The location of an entry's request. -/
def siteOf (c : InstantiationCollector) (i : ℕ) : SourceLocation :=
  match c.entries[i]? with
  | none => ⟨"", 0, 0⟩
  | some e => e.request.site

/-- Where a diagnostic about a chain points: at its first request outside `lib/std`. -/
def anchor (c : InstantiationCollector) (p : Program) (chain : List ℕ) : SourceLocation :=
  match chain.find? fun i => !p.isLibStd (c.siteOf i).filename with
  | some i => c.siteOf i
  | none => c.siteOf (chain.headD 0)

end InstantiationCollector

def kMaxInstantiationDepth : ℕ := 64

def kMaxTotalInstantiations : ℕ := 4096

/-! ### The drains -/

/-- The diagnostic `exceedsInstantiationLimit` raises. -/
def exceedsInstantiationLimit (p : Program) (c : InstantiationCollector) (i : ℕ) :
    Option DrainError :=
  match c.chainTo i with
  | none => some .endlessChain
  | some chain =>
    let tooDeep := chain.length > kMaxInstantiationDepth
    if tooDeep ∨ c.entries.length > kMaxTotalInstantiations then
      some (.instantiationDepth (c.anchor p chain) chain
        (if tooDeep then 0 else c.entries.length))
    else none

/-- What a drain function does with a template. -/
inductive Verdict
  | instantiate
  | leave
  | noSelfParameter

/-- What tells one of the three function drains from the others. -/
structure FunctionDrain where
  kind : InstantiationKind
  verdict : Template → Verdict
  /-- The member of a site that its rewrite writes. -/
  field : String → SiteKind → Option Field

/-- The first parameter is `self`. -/
def Template.hasSelf (t : Template) : Bool := t.params.head? = some "self"

def Template.isOperator (t : Template) : Bool := "operator".toList.isPrefixOf t.name.toList

def drainFreeFunctionRequests : FunctionDrain where
  kind := .freeFunction
  verdict t := if t.hasSelf && !t.isOperator then .leave else .instantiate
  field := funcCallField

def drainMethodRequests : FunctionDrain where
  kind := .method
  verdict t := if t.hasSelf then .instantiate else .noSelfParameter
  field := methodCallField

def drainConstructorRequests : FunctionDrain where
  kind := .freeFunction
  verdict t := if !t.hasSelf || t.isOperator then .leave else .instantiate
  field := funcCallField

def registryKey (module name : String) : String := module ++ "::" ++ name

/-- The template of a request: the declaration it names if that one is generic, else the one
registered under its name. -/
def Program.templateOf (p : Program) (r : InstantiationRequest) : Option Template :=
  match r.decl with
  | some d =>
    if (p.declaration d).typeParams.isEmpty then
      p.declRegistry (registryKey r.sourceModule r.declKey)
    else some (p.declaration d)
  | none => p.declRegistry (registryKey r.sourceModule r.declKey)

namespace State

def entryAt? (st : State) (i : ℕ) : Option InstantiationEntry := st.collector.entries[i]?

def size (st : State) : ℕ := st.collector.entries.length

def modifyEntry (st : State) (i : ℕ) (f : InstantiationEntry → InstantiationEntry) : State :=
  { st with collector := { st.collector with entries := st.collector.entries.modify i f } }

/-- Writes a clone into the members of sites. -/
def pointSites (field : String → SiteKind → Option Field) (declKey : String)
    (clone : Option ℕ) (sites : List Site) (targets : Site → Field → Option ℕ) :
    Site → Field → Option ℕ :=
  sites.foldl
    (fun targets s =>
      match field declKey s.kind with
      | some f => Function.update targets s (Function.update (targets s) f clone)
      | none => targets)
    targets

/-- `rewriteNewFuncCallSites` and `rewriteNewMethodCallSites`. -/
def rewriteNewSites (st : State) (d : FunctionDrain) (i : ℕ) : State :=
  match st.entryAt? i with
  | none => st
  | some e =>
    { st.modifyEntry i (fun e => { e with sitesRewritten := e.sites.length }) with
      targets := pointSites d.field e.request.declKey e.clonedSymbol
        (e.sites.drop e.sitesRewritten) st.targets }

/-- What resolving and checking the clone of an entry leaves in the collector: what the check
records has the entry as its parent. -/
def checkClone (p : Program) (st : State) (i : ℕ) (e : InstantiationEntry) :
    InstantiationCollector :=
  ((st.collector.setCurrentParent (some e.index)).replay (p.functionClone i).events)
    |>.setCurrentParent st.collector.currentParent

/-- Registers the clone of an entry and points the entry's sites at it. -/
def adoptFunction (d : FunctionDrain) (st : State) (i : ℕ) (checked : InstantiationCollector) :
    State :=
  let registered : State := { st with collector := checked, clones := st.clones ++ [i] }
  let cloned := registered.modifyEntry i fun e => { e with clonedSymbol := some st.clones.length }
  (cloned.rewriteNewSites d i).modifyEntry i fun e => { e with drained := true }

/-- `finishInstantiation`, with what its caller does with the clone it returns. -/
def finishInstantiation (p : Program) (d : FunctionDrain) (st : State) (i : ℕ)
    (e : InstantiationEntry) : Except DrainError (State × Bool) :=
  if (p.functionClone i).resolves then
    let checked := st.checkClone p i e
    if (p.functionClone i).checks then .ok (st.adoptFunction d i checked, true)
    else
      match checked.chainTo i with
      | none => .error .endlessChain
      | some chain => .error (.inThisInstantiation (checked.anchor p chain) chain)
  else .error (.failedToResolve e.request.site e.request.declKey)

/-- What a function drain does with the entry its sweep is at. -/
def functionStep (p : Program) (d : FunctionDrain) (st : State) (i : ℕ) :
    Except DrainError (State × Bool) :=
  match st.entryAt? i with
  | none => .ok (st, false)
  | some e =>
    if e.request.kind ≠ d.kind then .ok (st, false)
    else if e.drained then
      if e.clonedSymbol.isSome then .ok (st.rewriteNewSites d i, false) else .ok (st, false)
    else if e.sites.isEmpty then .ok (st, false)
    else
      match p.templateOf e.request with
      | none => .error (.noDeclaration e.request.site e.request.declKey)
      | some t =>
        match d.verdict t with
        | .leave => .ok (st, false)
        | .noSelfParameter => .error (.noSelfParameter e.request.site e.request.declKey)
        | .instantiate =>
          match exceedsInstantiationLimit p st.collector i with
          | some err => .error err
          | none => st.finishInstantiation p d i e

/-- What the recording of a struct clone's field types does to the collector. -/
def fieldEvents (p : Program) (i : ℕ) (e : InstantiationEntry) : List Event :=
  match e.sites with
  | [] => []
  | front :: _ =>
    (genericFieldsRequests p.isKnownType e.request.site (p.structClone i).fields).map
      (.record · front)

/-- Registers the clone of a struct entry. -/
def adoptStruct (st : State) (i : ℕ) (recorded : InstantiationCollector) : State :=
  let registered : State := { st with collector := recorded, clones := st.clones ++ [i] }
  registered.modifyEntry i fun e => { e with drained := true }

/-- What `drainStructRequests` does with the entry its sweep is at. -/
def structStep (p : Program) (st : State) (i : ℕ) : Except DrainError (State × Bool) :=
  match st.entryAt? i with
  | none => .ok (st, false)
  | some e =>
    if e.drained then .ok (st, false)
    else if e.request.kind ≠ .struct then .ok (st, false)
    else if e.sites.isEmpty then .ok (st, false)
    else if p.structDeclRegistry e.request.declKey then
      match exceedsInstantiationLimit p st.collector i with
      | some err => .error err
      | none =>
        if (p.structClone i).acyclic then
          if (p.structClone i).resolves then
            .ok (st.adoptStruct i (st.collector.replay (fieldEvents p i e)), true)
          else .error (.failedToResolve e.request.site e.request.declKey)
        else .error (.structLayoutCycle e.request.declKey)
    else .error (.noDeclaration e.request.site e.request.declKey)

end State

/-- The four drains. -/
inductive Drain
  | freeFunctions
  | methods
  | constructors
  | structs
  deriving DecidableEq

/-- What a drain does with one entry. -/
def Drain.step (p : Program) : Drain → State → ℕ → Except DrainError (State × Bool)
  | .freeFunctions => State.functionStep p drainFreeFunctionRequests
  | .methods => State.functionStep p drainMethodRequests
  | .constructors => State.functionStep p drainConstructorRequests
  | .structs => State.structStep p

/-- The order of the drains in `main.cpp`. -/
def drainOrder : List Drain := [.freeFunctions, .methods, .constructors, .structs]

/-- The state after the ordinary code was checked. -/
def Program.start (p : Program) : State where
  collector := InstantiationCollector.replay {} p.ordinary
  targets _ _ := none
  clones := []

/-- The drain loop of `main.cpp`; `none` is running out of fuel. -/
def Program.drainAll (p : Program) (fuel : ℕ) : Option (Except DrainError State) :=
  Sweep.rounds State.size (Drain.step p) drainOrder fuel p.start

/-- What the drain loop calls its drains with. -/
def Program.drainCalls (p : Program) (fuel : ℕ) : List (Drain × State × ℕ) :=
  Sweep.roundsCalls State.size (Drain.step p) drainOrder fuel p.start

end TurfLang.Instantiate
