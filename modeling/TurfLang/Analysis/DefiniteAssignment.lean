import Mathlib.Data.Finset.Card
import TurfLang.Analysis.Cfg
import TurfLang.Lib.RoundRobin

/-!
# `Analysis.cpp`: definite assignment

A variable declared in the body may be read where every path from the entry has given it a value.
The pass intersects over the predecessors what is assigned, from everything down, until nothing
changes; then it goes over the reads, and an error ends it.
-/

namespace TurfLang.DefiniteAssignment

/-- A `VariableSymbol`: its address, and what the error of the pass tells of it. -/
structure VariableSymbol where
  address : ℕ
  name : String
  typeName : String
  isStruct : Bool
  declLoc : ℕ
  deriving DecidableEq

/-- What `collectReadsAndDefs` calls back with: a read or a definition, and where. -/
inductive Event
  | onRead (loc : ℕ) (sym : VariableSymbol)
  | onDef (loc : ℕ) (sym : VariableSymbol)
  deriving DecidableEq

/-- A statement: the symbols declared in it, and its reads and definitions in order. -/
structure Statement where
  localDecls : List VariableSymbol
  events : List Event
  deriving DecidableEq

/-- `DefiniteAssignmentError`, with the location of its note. -/
structure DefiniteAssignmentError where
  loc : ℕ
  name : String
  typeName : String
  suggestDefault : Bool
  related : ℕ × String
  deriving DecidableEq

/-- `AssignSet`. -/
abbrev AssignSet := Finset VariableSymbol

/-- The sets `IN` and `OUT` of all blocks. -/
structure Facts where
  IN : ℕ → AssignSet
  OUT : ℕ → AssignSet

section

variable (cfg : CFG Statement)

/-- The events of a block. -/
def events (b : ℕ) : List Event := (cfg.statements b).flatMap Statement.events

/-- `AllBodyDeclared`. -/
def allBodyDeclared : AssignSet :=
  (cfg.blocks.flatMap fun blk => blk.statements.flatMap Statement.localDecls).toFinset

/-- What a definition does to the current set. -/
def insertDef (cur : AssignSet) : Event → AssignSet
  | .onRead _ _ => cur
  | .onDef _ sym => insert sym cur

/-- `computeOUT`, from the set at the start of the block. -/
def computeOUT (cur : AssignSet) (b : ℕ) : AssignSet := (events cfg b).foldl insertDef cur

/-- The sets before the first round. -/
def init : Facts :=
  let IN : ℕ → AssignSet := fun b => if b = cfg.entryIdx then ∅ else allBodyDeclared cfg
  ⟨IN, fun b => computeOUT cfg (IN b) b⟩

/-- `newIN` and `hasPred`: predecessors are found by looking for the block among the successors of
every block. -/
def newIN (s : Facts) (b : ℕ) : AssignSet × Bool :=
  (List.range cfg.size).foldl
    (fun acc p =>
      if (cfg.successors p).any (· = b) then (acc.1.filter (· ∈ s.OUT p), true) else acc)
    (allBodyDeclared cfg, false)

/-- The body of the loop over the blocks. -/
def visit (b : ℕ) (s : Facts) : Facts × Bool :=
  if b = cfg.entryIdx then (s, false)
  else if !(newIN cfg s b).2 then (s, false)
  else if (newIN cfg s b).1 ≠ s.IN b then
    (⟨Function.update s.IN b (newIN cfg s b).1,
      Function.update s.OUT b (computeOUT cfg (newIN cfg s b).1 b)⟩, true)
  else (s, false)

/-- The fixpoint loop. -/
def fixpoint (fuel : ℕ) : Option Facts := RoundRobin.run (visit cfg) cfg.size fuel (init cfg)

/-- The error for a read. -/
def errorAt (loc : ℕ) (sym : VariableSymbol) : DefiniteAssignmentError :=
  ⟨loc, sym.name, sym.typeName, sym.isStruct, sym.declLoc, "declared here"⟩

/-- The reads of a block, checked in order. An error raises. -/
def checkEvents (cur : AssignSet) : List Event → Except DefiniteAssignmentError Unit
  | [] => .ok ()
  | .onRead loc sym :: es =>
    if sym ∈ allBodyDeclared cfg ∧ sym ∉ cur then .error (errorAt loc sym) else checkEvents cur es
  | .onDef _ sym :: es => checkEvents (insert sym cur) es

/-- `runOnCFG`; `none` is running out of fuel. -/
def runOnCFG (fuel : ℕ) : Option (Except DefiniteAssignmentError Unit) :=
  if cfg.size = 0 then some (.ok ())
  else (fixpoint cfg fuel).map fun s =>
    (List.range cfg.size).forM fun b => checkEvents cfg (s.IN b) (events cfg b)

end

end TurfLang.DefiniteAssignment
