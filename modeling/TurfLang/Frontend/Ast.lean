import Mathlib.Tactic

/-!
# `ASTExpr.h`, `ASTStmt.h`: the tree of a function body

Statements and expressions are one kind of node. The nodes with control flow of their own, the
names and the jumps are told apart; every other node evaluates its children in order and then does
something itself. A name carries the symbol that the Resolver gave it.
-/

namespace TurfLang.Ast

/-- The nodes that evaluate their children first, listed here in the order of their evaluation: an
assignment evaluates its right side before its left. -/
inductive NodeKind
  | literal
  | null
  | number (value : ℕ)
  | unary (op : String)
  | binary (op : String)
  | cast
  | addressOf
  | assignment
  | compoundAssignment (op : String)
  | postfixOp (op : String)
  | call (callee : String)
  | methodCall (method : String)
  | fieldAccess (field : String)
  | arrayAccess
  | slice
  | arrayLiteral
  | pattern
  deriving DecidableEq

mutual

inductive Expr
  | bool (val : Bool)
  | name (spelling : String) (sym : ℕ)
  | node (kind : NodeKind) (children : List Expr)
  | logical (isAnd : Bool) (lhs rhs : Expr)
  | varDecl (spelling : String) (sym : ℕ) (inits : List Expr)
  | recoverProduce (wrapped produce : Expr)
  | recoverRun (wrapped : Expr) (bound : Option (String × ℕ)) (block : Expr)
  | tryExpr (operand : Expr)
  | block (exprs : List Expr)
  | unsafeBlock (body : Expr)
  | ifElse (branches : Branches)
  | whileLoop (cond body : Expr)
  | doWhile (body cond : Expr)
  | forRange (spelling : String) (sym : ℕ) (start stop step body : Expr)
  | forEach (vars : List (String × ℕ)) (iterable body : Expr)
  | compare (subject : Expr) (arms : Arms)
  | returnVoid
  | returnVal (val : Expr)
  | breakLoop
  | continueLoop
  | defer (stmt : Expr)

/-- The branches of an `if`, or of a `give`, and the `else`. -/
inductive Branches
  | noElse
  | elseBody (body : Expr)
  | branch (cond body : Expr) (rest : Branches)

/-- The arms of a `compare` and its `otherwise`; without one, whether the arms cover every
value. -/
inductive Arms
  | noOtherBody (exhaustive : Bool)
  | otherBody (body : Expr)
  | arm (bindings : List (String × ℕ)) (headers : Headers) (body : Expr) (rest : Arms)

/-- The stacked headers of an arm, each with its guard if it has one. -/
inductive Headers
  | nil
  | header (val : Expr) (rest : Headers)
  | guarded (val guard : Expr) (rest : Headers)

end

end TurfLang.Ast
