import TurfLang.Analysis.Cfg

/-!
# `ValueRange.cpp`: constant propagation

The constants of the variables at the start of each block: a map has no entry for a variable, an
entry that says its value is not known, or an entry with the value. A worklist recomputes the
blocks from empty maps on.
-/

namespace TurfLang.ValueRange

/-- A `VariableSymbol`. -/
abbrev Var := ℕ

/-- The operators `evalConstExpr` tells apart. -/
inductive BinaryOp
  | add
  | sub
  | mul
  | div
  | other
  deriving DecidableEq

/-- The nodes the propagation tells apart. A number literal has its value when it is an integer,
a variable its symbol when it is resolved, and any other node whether its type is `double`. -/
inductive Expr
  | number (intVal : Option ℤ)
  | var (symbol : Option Var)
  | binary (op : BinaryOp) (lhs rhs : Expr)
  | assignment (lhs rhs : Expr)
  | compoundAssignment (lhs rhs : Expr)
  | postfixExpr (operand : Expr)
  | varDecl (symbol : Option Var) (initializer : Option Expr)
  | other (typeIsDouble : Bool)

/-- `ConstMap`. -/
abbrev ConstMap := Std.ExtTreeMap Var (Option ℤ)

/-- `isSignedIntN`. -/
def fits (width : ℕ) (c : ℤ) : Bool := -2 ^ (width - 1) ≤ c ∧ c < 2 ^ (width - 1)

/-- The checked operation on two constants, 65 bits wide, whose result must be one of 64. -/
def fold (op : BinaryOp) (l r : ℤ) : Option ℤ := do
  let result ← match op with
    | .add => some (l + r)
    | .sub => some (l - r)
    | .mul => some (l * r)
    | .div => if r = 0 then none else some (l.tdiv r)
    | .other => none
  if !fits 65 result || !fits 64 result then none else some result

/-- `evalConstExpr`. -/
def evalConstExpr (m : ConstMap) : Expr → Option ℤ
  | .number intVal => intVal
  | .var (some s) => m[s]?.getD none
  | .var none => none
  | .binary op lhs rhs => do fold op (← evalConstExpr m lhs) (← evalConstExpr m rhs)
  | .assignment _ rhs => evalConstExpr m rhs
  | _ => none

/-- The symbol of a variable. -/
def Expr.resolvedSymbol : Expr → Option Var
  | .var s => s
  | _ => none

section

variable (trackable : Finset Var)

/-- The `Set` of `applyTransfer`. -/
def set (cur : ConstMap) (s : Option Var) (v : Option ℤ) : ConstMap :=
  match s with
  | some x => if x ∈ trackable then cur.insert x v else cur
  | none => cur

/-- `applyTransfer`. -/
def applyTransfer (cur : ConstMap) : Expr → ConstMap
  | .varDecl s initializer => set trackable cur s (initializer.bind (evalConstExpr cur))
  | .assignment lhs rhs => set trackable cur lhs.resolvedSymbol (evalConstExpr cur rhs)
  | .compoundAssignment lhs _ => set trackable cur lhs.resolvedSymbol none
  | .postfixExpr operand => set trackable cur operand.resolvedSymbol none
  | _ => cur

/-- What a join keeps of a predecessor's map. -/
def meet (m o : ConstMap) : ConstMap :=
  m.map fun x v =>
    match o[x]? with
    | some w => if v.isSome && w.isSome && v = w then v else none
    | none => none

/-- The join over the predecessors. Its keys are those of the first. -/
def join : List ConstMap → ConstMap
  | [] => ∅
  | first :: rest => rest.foldl meet first

/-- The maps `IN` and `OUT` of all blocks. -/
structure Facts where
  IN : ℕ → ConstMap := fun _ => ∅
  OUT : ℕ → ConstMap := fun _ => ∅

variable (cfg : CFG Expr)

/-- `NewIN`. -/
def newIN (s : Facts) (b : ℕ) : ConstMap :=
  if cfg.predecessors b = [] then s.IN b else join ((cfg.predecessors b).map s.OUT)

/-- The statements of a block, one after the other. -/
def transfer (m : ConstMap) (b : ℕ) : ConstMap :=
  (cfg.statements b).foldl (applyTransfer trackable) m

/-- One turn of the worklist loop: whether the successors join the queue. -/
def process (b : ℕ) (s : Facts) : Facts × Bool :=
  let IN := Function.update s.IN b (newIN cfg s b)
  let cur := transfer trackable cfg (newIN cfg s b) b
  if cur ≠ s.OUT b then (⟨IN, Function.update s.OUT b cur⟩, true) else (⟨IN, s.OUT⟩, false)

/-- `solveConstants`; `none` is running out of fuel. -/
def solveConstants (fuel : ℕ) : Option (ℕ → ConstMap) :=
  (Dataflow.solve cfg.successors (process trackable cfg) fuel (List.range cfg.size) {}).map Facts.IN

end

end TurfLang.ValueRange
