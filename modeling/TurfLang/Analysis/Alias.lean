import TurfLang.Lib.Dataflow

/-!
# `AliasAnalysis.cpp`: the alias pass

What the pass looks at in a statement, the facts it keeps and its fixpoint. A variable is its
resolved symbol, and an allocation site is the node of the acquiring call itself, which
`SiteIDs` numbers in the source.
-/

namespace TurfLang.Alias

/-- A `VariableSymbol`. -/
abbrev Var := ℕ

/-- An acquiring call, as a node of the tree. -/
abbrev Site := ℕ

/-! ### Statements -/

/-- The arguments of one `@ownership` annotation. -/
structure Annotation where
  words : List String
  keyed : List (String × String)

/-- What the pass asks of a called function: its parameters and its `@ownership` annotations. -/
structure Callee where
  params : List String
  ownership : List Annotation

/-- The nodes the pass tells apart. A UFCS call has its receiver as its first argument, and
`callee` is what `calledFunction` finds. `node` stands for the nodes `recurse` descends into and
does nothing else with: binary, unary and `try` expressions, blocks and `if`s. -/
inductive Expr
  | null
  | leaf
  | var (x : Var)
  | call (id : ℕ) (callee : Option Callee) (args : List Expr)
  | access (id : ℕ) (base index : Expr)
  | node (children : List Expr)
  | assignment (lhs rhs : Expr)
  | varDecl (x : Var) (initializer : Expr)

/-- `OwnershipAnnotation::acquires`. -/
def Callee.acquires (callee : Callee) : Bool :=
  callee.ownership.any fun a => a.words.contains "acquires"

namespace Expr

/-- `OwnershipAnnotation::calledFunction`. -/
def calledFunction : Expr → Option Callee
  | call _ callee _ => callee
  | _ => none

/-- The helper `isAcquire`. -/
def isAcquire (e : Expr) : Bool := e.calledFunction.any Callee.acquires

/-- `OwnershipAnnotation::releases`. -/
def releases (e : Expr) : Bool :=
  e.calledFunction.any fun callee =>
    callee.ownership.any fun a => (a.keyed.lookup "releases").isSome

/-- `OwnershipAnnotation::releasedArgument`. -/
def releasedArgument : Expr → Option Expr
  | call _ (some callee) args =>
    callee.ownership.findSome? fun a => do
      let released ← a.keyed.lookup "releases"
      let (_, arg) ← (callee.params.zip args).find? fun p => p.1 = released
      return arg
  | _ => none

/-- The helper `releasedVariable`. -/
def releasedVariable (e : Expr) : Option Var :=
  match e.releasedArgument with
  | some (var x) => some x
  | _ => none

/-- Where a call or an access is, for a report. -/
def loc : Expr → ℕ
  | call id _ _ => id
  | access id _ _ => id
  | _ => 0

end Expr

/-! ### Facts and reports -/

/-- The dataflow fact at one program point. -/
structure State where
  points : Std.ExtTreeMap Var (Option Site) := ∅
  mayFreed : Finset Site := ∅
  mustFreed : Finset Site := ∅
deriving DecidableEq

/-- The errors and warnings of the pass. -/
inductive Kind
  | doubleFreeError
  | possibleDoubleFreeWarning
  | useAfterFreeError
  | possibleUseAfterFreeWarning
deriving DecidableEq

/-- The errors, which claim that something is wrong on every path. -/
def Kind.isError : Kind → Bool
  | doubleFreeError => true
  | useAfterFreeError => true
  | _ => false

/-- A report, with the statement it is raised at: its block and its index there. -/
structure Report where
  stmt : ℕ × ℕ
  kind : Kind
  loc : ℕ
  var : Var
  related : Option (ℕ × String)
deriving DecidableEq

/-- A fact, with `FreeLoc` and the reports raised. -/
structure Scan where
  state : State := {}
  freeLoc : Std.ExtTreeMap Site ℕ := ∅
  reports : List Report := []

section Transfer

variable (report : Bool) (stmt : ℕ × ℕ)

/-- The helper `release`. -/
def release (x : Var) (loc : ℕ) (w : Scan) : Scan :=
  match w.state.points[x]? with
  | some (some aid) =>
    let w :=
      if report then
        if aid ∈ w.state.mustFreed then
          { w with reports := w.reports ++ [⟨stmt, .doubleFreeError, loc, x,
              w.freeLoc[aid]?.map fun l => (l, "first freed here")⟩] }
        else if aid ∈ w.state.mayFreed then
          { w with reports := w.reports ++ [⟨stmt, .possibleDoubleFreeWarning, loc, x,
              w.freeLoc[aid]?.map fun l => (l, "freed here, on some paths")⟩] }
        else { w with freeLoc := w.freeLoc.insertIfNew aid loc }
      else w
    { w with state := { w.state with
        mayFreed := insert aid w.state.mayFreed
        mustFreed := insert aid w.state.mustFreed } }
  | _ => w

/-- The helper `use`. -/
def use (x : Var) (loc : ℕ) (w : Scan) : Scan :=
  if !report then w
  else
    match w.state.points[x]? with
    | some (some aid) =>
      if aid ∈ w.state.mustFreed then
        { w with reports := w.reports ++ [⟨stmt, .useAfterFreeError, loc, x,
            w.freeLoc[aid]?.map fun l => (l, "freed here")⟩] }
      else if aid ∈ w.state.mayFreed then
        { w with reports := w.reports ++ [⟨stmt, .possibleUseAfterFreeWarning, loc, x,
            w.freeLoc[aid]?.map fun l => (l, "freed here, on some paths")⟩] }
      else w
    | _ => w

/-- The helper `acquire`. -/
def State.acquire (s : State) (key : Var) (aid : Site) : State where
  mayFreed := s.mayFreed.erase aid
  mustFreed := s.mustFreed.erase aid
  points := s.points.insert key (some aid)

/-- `lhs = rhs` of two variables, in an assignment or a declaration. -/
def State.alias (s : State) (lhs rhs : Var) : State :=
  { s with points :=
      match s.points[rhs]? with
      | some p => s.points.insert lhs p
      | none => s.points.erase lhs }

/-- What `recurse` does at a node before it descends. -/
def visit (e : Expr) (w : Scan) : Scan :=
  let w := match e.releasedVariable with
    | some x => release report stmt x e.loc w
    | none => w
  match e with
  | .access _ (.var x) _ => use report stmt x e.loc w
  | _ => w

mutual

/-- `recurse`. It does not descend into the arguments of a call or the parts of an access. -/
def recurse : Expr → Scan → Scan
  | .null, w => w
  | .node children, w => recurseAll children (visit report stmt (.node children) w)
  | .assignment lhs rhs, w =>
    recurse rhs (recurse lhs (visit report stmt (.assignment lhs rhs) w))
  | .varDecl x init, w => recurse init (visit report stmt (.varDecl x init) w)
  | e, w => visit report stmt e w

def recurseAll : List Expr → Scan → Scan
  | [], w => w
  | e :: es, w => recurseAll es (recurse e w)

end

/-- `lhs = rhs` and `mut lhs = rhs`, when `rhs` is an acquiring call or a variable. -/
def assign (x : Var) (rhs : Expr) (w : Scan) : Option Scan :=
  if rhs.isAcquire then some { w with state := w.state.acquire x rhs.loc }
  else
    match rhs with
    | .var y => some { w with state := w.state.alias x y }
    | _ => none

/-- The rest of a turn of `transfer`, for a statement that is no such assignment. -/
def transferOther (e : Expr) (w : Scan) : Scan :=
  if e.releases then
    match e.releasedVariable with
    | some x => release report stmt x e.loc w
    | none => w
  else
    let w := match e with
      | .access _ (.var x) _ => use report stmt x e.loc w
      | _ => w
    recurse report stmt e w

/-- One turn of the loop of `transfer`. -/
def transferStmt (e : Expr) (w : Scan) : Scan :=
  match e with
  | .assignment (.var x) rhs => (assign x rhs w).getD (transferOther report stmt e w)
  | .varDecl x init => (assign x init w).getD (transferOther report stmt e w)
  | _ => transferOther report stmt e w

end Transfer

/-! ### The pass -/

/-- The acquiring call whose result the statement assigns to a variable. -/
def Expr.acquired : Expr → Option Site
  | assignment (var _) rhs => if rhs.isAcquire then some rhs.loc else none
  | varDecl _ init => if init.isAcquire then some init.loc else none
  | _ => none

/-- A CFG of statements. The builder adds each edge on both sides, none into the entry block, and
each statement of the function to one block. -/
structure Cfg where
  size : ℕ
  statements : ℕ → List Expr
  succs : ℕ → List ℕ
  preds : ℕ → List ℕ
  mem_preds : ∀ b c, b ∈ preds c ↔ c ∈ succs b
  succs_lt : ∀ b, ∀ c ∈ succs b, c < size
  entry_preds : preds 0 = []
  once : ∀ (b c i j : ℕ) (e f : Expr) (site : Site), (statements b)[i]? = some e →
    (statements c)[j]? = some f → e.acquired = some site → f.acquired = some site → b = c ∧ i = j

/-- `IN`, `OUT` and `Visited`. -/
structure Solution where
  inn : ℕ → State := fun _ => {}
  out : ℕ → State := fun _ => {}
  visited : ℕ → Bool := fun _ => false

/-- The meet of two facts in `join`. -/
def State.meet (s t : State) : State where
  points := s.points.map fun x p => if t.points[x]? = some p then p else none
  mayFreed := s.mayFreed ∪ t.mayFreed
  mustFreed := s.mustFreed.filter (· ∈ t.mustFreed)

namespace Cfg

variable (cfg : Cfg)

/-- `join`. -/
def join (s : Solution) (b : ℕ) : State :=
  match ((cfg.preds b).filter fun p => s.visited p).map s.out with
  | [] => {}
  | first :: rest => rest.foldl State.meet first

/-- `transfer`, with the number of the statement it starts at. -/
def transferFrom (report : Bool) (b : ℕ) : ℕ → List Expr → Scan → Scan
  | _, [], w => w
  | i, e :: es, w => transferFrom report b (i + 1) es (transferStmt report (b, i) e w)

/-- `transfer`. -/
def transfer (report : Bool) (b : ℕ) (w : Scan) : Scan :=
  transferFrom report b 0 (cfg.statements b) w

/-- One turn of the worklist loop: whether the successors join the queue. -/
def process (b : ℕ) (s : Solution) : Solution × Bool :=
  let inn := cfg.join s b
  let out := (cfg.transfer false b { state := inn }).state
  let s := { s with inn := Function.update s.inn b inn }
  if !s.visited b ∨ out ≠ s.out b then
    ({ s with visited := Function.update s.visited b true, out := Function.update s.out b out },
      true)
  else (s, false)

/-- The reporting pass. -/
def reports (s : Solution) : List Report :=
  ((List.range cfg.size).foldl (fun w b =>
    if s.visited b then cfg.transfer true b { w with state := s.inn b } else w) {}).reports

/-- `AliasAnalysisPass::runOnCFG`: the reports, if the worklist empties in `fuel` turns. -/
def runOnCFG (fuel : ℕ) : Option (List Report) := do
  let s ← Dataflow.solve cfg.succs cfg.process fuel (List.range cfg.size) {}
  return cfg.reports s

end Cfg

end TurfLang.Alias
