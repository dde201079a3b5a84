import TurfLang.Frontend.Lexer

/-!
# `src/frontend/ParserCore.cpp`: `ParseBinOpRHS` and `ParseUnary`

Precedence climbing, with the loop over postfix operators that `src/frontend/ParserLiteral.cpp`
has. An item is a token as the parser sees it, or the run of tokens that another parser takes: an
operand of `ParsePrimaryBase` that is neither a declaration nor in parentheses, a type with all that
`ParseType` takes after its name, a point with the name behind it. The trees keep a mark for
parentheses and for a comma after the last argument, which the code drops. The recursion guard is
fuel, and no pattern is being read (`PatternHeadCallPending` is not set).
-/

namespace TurfLang

namespace Precedence

open Lexer Strings

variable {α τ : Type}

/-! ### Operators -/

/-- `BinopPrecedence`. -/
def binopPrecedence : List (Token × ℤ) :=
  [(.char 61, 10), (.tokAssign, 10), (.tokPlusAssign, 10), (.tokMinusAssign, 10),
   (.tokMulAssign, 10), (.tokDivAssign, 10), (.tokModAssign, 10), (.tokAndAssign, 10),
   (.tokOrAssign, 10), (.tokXorAssign, 10), (.tokLshiftAssign, 10), (.tokRshiftAssign, 10),
   (.tokPowerAssign, 10), (.tokTo, 31), (.tokOr, 15), (.tokAnd, 20), (.tokEq, 25), (.tokNeq, 25),
   (.char 60, 30), (.char 62, 30), (.tokLeq, 30), (.tokGeq, 30), (.char 124, 33), (.char 94, 35),
   (.char 38, 37), (.tokLshift, 38), (.tokRshift, 38), (.char 43, 40), (.char 45, 40),
   (.char 42, 50), (.char 47, 50), (.char 37, 50), (.tokPower, 60)]

/-- The table at one token; -1 where that is no operator. -/
def precedenceOf (t : Token) : ℤ :=
  match binopPrecedence.find? fun e => e.1 = t with
  | some e => if e.2 ≤ 0 then -1 else e.2
  | none => -1

/-- The operators for which `ParseBinOpRHS` sets `isRightAssociative`. -/
def isRightAssociative (op : Token) : Bool :=
  op ∈ [.tokAssign, .tokPlusAssign, .tokMinusAssign, .tokMulAssign, .tokDivAssign, .tokModAssign,
    .tokAndAssign, .tokOrAssign, .tokXorAssign, .tokLshiftAssign, .tokRshiftAssign,
    .tokPowerAssign, .tokPower]

/-- The tokens after which `ParseUnary` calls itself. -/
def isPrefixOperator (op : Token) : Bool :=
  op ∈ [.tokTry, .char 33, .char 126, .char 38, .char 45, .char 43]

/-- `++` and `--`, before their operand or after it. -/
def isStep (op : Token) : Bool := op = .tokPlusPlus ∨ op = .tokMinusMinus

/-! ### Items and trees -/

/-- What the parser reads. -/
inductive Item (α τ : Type)
  | operand (a : α)
  | ofType (T : τ)
  | member (name : Bytes)
  | sym (t : Token)
  deriving DecidableEq

abbrev Items (α τ : Type) := List (Item α τ)

/-- Where a tree stands: an expression, a bound of a slice that may be left out, the arguments of a
call with the parenthesis that closes them. -/
inductive Kind
  | expr
  | bound
  | args

/-- The trees of the parser. `unary` is the node that `ParseUnary` makes for its operator: a `!`
makes the comparison with `true` that is marked as one, a `++` the postfix node that is marked as a
prefix. `binary` is a `BinaryExprAST`, or the assignment of its operator. -/
inductive Tree (α τ : Type) : Kind → Type
  | operand (a : α) : Tree α τ .expr
  | paren (e : Tree α τ .expr) : Tree α τ .expr
  | arrayAccess (base index : Tree α τ .expr) : Tree α τ .expr
  | slice (base : Tree α τ .expr) (start stop : Tree α τ .bound) : Tree α τ .expr
  | call (base : Tree α τ .expr) (args : Tree α τ .args) : Tree α τ .expr
  | methodCall (base : Tree α τ .expr) (name : Bytes) (args : Tree α τ .args) : Tree α τ .expr
  | fieldAccess (base : Tree α τ .expr) (name : Bytes) : Tree α τ .expr
  | postfixStep (op : Token) (base : Tree α τ .expr) : Tree α τ .expr
  | unary (op : Token) (e : Tree α τ .expr) : Tree α τ .expr
  | binary (op : Token) (lhs rhs : Tree α τ .expr) : Tree α τ .expr
  | cast (e : Tree α τ .expr) (T : τ) : Tree α τ .expr
  | give (cond thenExpr elseExpr : Tree α τ .expr) : Tree α τ .expr
  | omitted : Tree α τ .bound
  | given (e : Tree α τ .expr) : Tree α τ .bound
  | noArgs : Tree α τ .args
  | lastArg (e : Tree α τ .expr) : Tree α τ .args
  | nextArg (e : Tree α τ .expr) (args : Tree α τ .args) : Tree α τ .args

abbrev Expr (α τ : Type) := Tree α τ .expr

/-- The items of a tree, in order. -/
def Tree.yield {k : Kind} : Tree α τ k → Items α τ
  | .operand a => [.operand a]
  | .paren e => .sym (.char 40) :: (e.yield ++ [.sym (.char 41)])
  | .arrayAccess base index =>
    base.yield ++ .sym (.char 91) :: (index.yield ++ [.sym (.char 93)])
  | .slice base start stop =>
    base.yield ++ .sym (.char 91) ::
      (start.yield ++ .sym .tokRange :: (stop.yield ++ [.sym (.char 93)]))
  | .call base args => base.yield ++ .sym (.char 40) :: args.yield
  | .methodCall base name args => base.yield ++ .member name :: .sym (.char 40) :: args.yield
  | .fieldAccess base name => base.yield ++ [.member name]
  | .postfixStep op base => base.yield ++ [.sym op]
  | .unary op e => .sym op :: e.yield
  | .binary op lhs rhs => lhs.yield ++ .sym op :: rhs.yield
  | .cast e T => e.yield ++ [.sym .tokTo, .ofType T]
  | .give cond thenExpr elseExpr =>
    cond.yield ++ .sym .tokGive :: (thenExpr.yield ++ .sym .tokOtherwise :: elseExpr.yield)
  | .omitted => []
  | .given e => e.yield
  | .noArgs => [.sym (.char 41)]
  | .lastArg e => e.yield ++ [.sym (.char 41)]
  | .nextArg e args => e.yield ++ .sym (.char 44) :: args.yield

/-! ### The parser -/

/-- `CurTok`, where the current item is a token. -/
def curTok : Items α τ → Option Token
  | .sym t :: _ => some t
  | _ => none

@[simp] theorem curTok_nil : curTok ([] : Items α τ) = none := rfl

@[simp] theorem curTok_sym (t : Token) (s : Items α τ) : curTok (.sym t :: s) = some t := rfl

@[simp] theorem curTok_operand (a : α) (s : Items α τ) : curTok (.operand a :: s) = none := rfl

@[simp] theorem curTok_member (name : Bytes) (s : Items α τ) : curTok (.member name :: s) = none :=
  rfl

/-- `GetTokPrecedence`. -/
def getTokPrecedence (s : Items α τ) : ℤ := ((curTok s).map precedenceOf).getD (-1)

/-- The token `t`, which must stand here. -/
def expect (t : Token) (s : Items α τ) : Option (Items α τ) :=
  if curTok s = some t then some s.tail else none

@[simp] theorem expect_sym (t : Token) (s : Items α τ) : expect t (.sym t :: s) = some s := by
  simp [expect]

/-- `ParseType`. -/
def parseType : Items α τ → Option (τ × Items α τ)
  | .ofType T :: s => some (T, s)
  | _ => none

mutual

/-- `ParseExpression`; an expression with `recover` is none of these trees. -/
def parseExpression : ℕ → Items α τ → Option (Expr α τ × Items α τ)
  | 0, _ => none
  | n + 1, s => do
    let (lhs, s) ← parseUnary n s
    let (lhs, s) ← parseBinOpRHS n 0 lhs s
    if curTok s = some .tokGive then
      let (thenExpr, s) ← parseExpression n s.tail
      let s ← expect .tokOtherwise s
      let (elseExpr, s) ← parseExpression n s
      return (.give lhs thenExpr elseExpr, s)
    else if curTok s = some .tokRecover then none
    else return (lhs, s)

/-- `ParseUnary`. -/
def parseUnary : ℕ → Items α τ → Option (Expr α τ × Items α τ)
  | 0, _ => none
  | n + 1, s =>
    match curTok s with
    | some t =>
      if isPrefixOperator t then do
        let (operand, s) ← parseUnary n s.tail
        return (.unary t operand, s)
      else if isStep t then do
        let (operand, s) ← parsePrimary n s.tail
        return (.unary t operand, s)
      else parsePrimary n s
    | none => parsePrimary n s

/-- `ParsePrimary`, with the parentheses of `ParseParenExpr`. -/
def parsePrimary : ℕ → Items α τ → Option (Expr α τ × Items α τ)
  | 0, _ => none
  | n + 1, s =>
    match s with
    | .operand a :: s => parsePostfixExpression n (.operand a) s
    | .sym t :: s =>
      if t = .char 40 then do
        let (e, s) ← parseExpression n s
        let s ← expect (.char 41) s
        parsePostfixExpression n (.paren e) s
      else none
    | _ => none

/-- `ParsePostfixExpression`, a round of its loop and the rest. The name `length` without
arguments is a method call too; one with type arguments is no item. -/
def parsePostfixExpression : ℕ → Expr α τ → Items α τ → Option (Expr α τ × Items α τ)
  | 0, _, _ => none
  | n + 1, base, s =>
    match s with
    | .member name :: s =>
      if curTok s = some (.char 40) then do
        let (args, s) ← parseArgs n false true s.tail
        parsePostfixExpression n (.methodCall base name args) s
      else if curTok s = some .tokScope ∧ curTok s.tail = some (.char 60) then none
      else parsePostfixExpression n (.fieldAccess base name) s
    | .sym t :: s =>
      if t = .char 91 then do
        let (base, s) ← parseIndex n base s
        parsePostfixExpression n base s
      else if t = .char 40 then do
        let (args, s) ← parseArgs n true true s
        parsePostfixExpression n (.call base args) s
      else if isStep t then parsePostfixExpression n (.postfixStep t base) s
      else some (base, .sym t :: s)
    | s => some (base, s)

/-- The branch of `[`, after it: an index, or a slice if a `..` comes first or next. -/
def parseIndex : ℕ → Expr α τ → Items α τ → Option (Expr α τ × Items α τ)
  | 0, _, _ => none
  | n + 1, base, s =>
    if curTok s = some .tokRange then parseSliceStop n base .omitted s.tail
    else do
      let (index, s) ← parseExpression n s
      if curTok s = some .tokRange then parseSliceStop n base (.given index) s.tail
      else
        let s ← expect (.char 93) s
        return (.arrayAccess base index, s)

/-- The rest of a slice after its `..`. -/
def parseSliceStop : ℕ → Expr α τ → Tree α τ .bound → Items α τ → Option (Expr α τ × Items α τ)
  | 0, _, _, _ => none
  | n + 1, base, start, s =>
    if curTok s = some (.char 93) then some (.slice base start .omitted, s.tail)
    else do
      let (stop, s) ← parseExpression n s
      let s ← expect (.char 93) s
      return (.slice base start (.given stop), s)

/-- The loop over the arguments of a call. It may close here if `mayClose`, and after a comma if
`trailing`: a function call takes a comma after its last argument, a method call does not. -/
def parseArgs : ℕ → Bool → Bool → Items α τ → Option (Tree α τ .args × Items α τ)
  | 0, _, _, _ => none
  | n + 1, trailing, mayClose, s =>
    if mayClose ∧ curTok s = some (.char 41) then some (.noArgs, s.tail)
    else do
      let (arg, s) ← parseExpression n s
      if curTok s = some (.char 44) then
        let (args, s) ← parseArgs n trailing trailing s.tail
        return (.nextArg arg args, s)
      else
        let s ← expect (.char 41) s
        return (.lastArg arg, s)

/-- `ParseBinOpRHS`, a round of its loop and the rest. -/
def parseBinOpRHS : ℕ → ℤ → Expr α τ → Items α τ → Option (Expr α τ × Items α τ)
  | 0, _, _, _ => none
  | n + 1, exprPrec, lhs, s =>
    let tokPrec := getTokPrecedence s
    if tokPrec < exprPrec then some (lhs, s)
    else
      match curTok s with
      | some binOp =>
        if binOp = .tokTo then do
          let (castType, s) ← parseType s.tail
          parseBinOpRHS n exprPrec (.cast lhs castType) s
        else do
          let (rhs, s) ← parseUnary n s.tail
          let nextPrec := getTokPrecedence s
          let (rhs, s) ←
            if tokPrec < nextPrec ∨ isRightAssociative binOp ∧ tokPrec = nextPrec then
              parseBinOpRHS n (if isRightAssociative binOp then tokPrec else tokPrec + 1) rhs s
            else some (rhs, s)
          parseBinOpRHS n exprPrec (.binary binOp lhs rhs) s
      | none => none

end

/-! ### Grouping

`strength` numbers the levels of the table in `docs/reference/operators.md`, those of the binary
operators as the code does. -/

/-- The level of the prefix operators, above that of every binary operator. -/
def prefixStrength : ℤ := 70

/-- The level of operands and of what the postfix operators make of them. -/
def primaryStrength : ℤ := 80

namespace Tree

/-- The level of the root. -/
def strength {k : Kind} : Tree α τ k → ℤ
  | .give _ _ _ => -1
  | .cast _ _ => precedenceOf .tokTo
  | .binary op _ _ => precedenceOf op
  | .unary _ _ => prefixStrength
  | _ => primaryStrength

def isCast {k : Kind} : Tree α τ k → Bool
  | .cast _ _ => true
  | _ => false

def isFieldAccess {k : Kind} : Tree α τ k → Bool
  | .fieldAccess _ _ => true
  | _ => false

def isNoArgs {k : Kind} : Tree α τ k → Bool
  | .noArgs => true
  | _ => false

/-- Whether a comma stands before the parenthesis that closes the arguments. -/
def hasTrailingComma {k : Kind} : Tree α τ k → Bool
  | .nextArg _ args => args.isNoArgs || args.hasTrailingComma
  | _ => false

end Tree

/-- The operators that make a `binary`. -/
def IsBinop (op : Token) : Prop := 0 ≤ precedenceOf op ∧ op ≠ .tokTo ∧ op ≠ .char 61

/-- The level from which on an operand may stand to the left of `op`: above that of `op`, if `op`
groups to the right. -/
def leftBound (op : Token) : ℤ :=
  if isRightAssociative op then precedenceOf op + 1 else precedenceOf op

/-- The same, to the right of `op`. -/
def rightBound (op : Token) : ℤ :=
  if isRightAssociative op then precedenceOf op else precedenceOf op + 1

namespace Tree

/-- Every operator that is open to the left, from the root down, is at level `b` or above. -/
def LeftOpenAbove {k : Kind} (b : ℤ) : Tree α τ k → Prop
  | .binary op lhs _ => b ≤ precedenceOf op ∧ lhs.LeftOpenAbove b
  | .cast e _ => b ≤ precedenceOf .tokTo ∧ e.LeftOpenAbove b
  | .give _ _ _ => False
  | _ => True

/-- Each operator has the operands that the table gives it. A cast is an operand of whatever follows
it; to the right of an operator no cast is left open that is looser, as it would have taken the
operator too. -/
def Grouped {k : Kind} : Tree α τ k → Prop
  | .operand _ => True
  | .paren e => e.Grouped
  | .arrayAccess base index => primaryStrength ≤ base.strength ∧ base.Grouped ∧ index.Grouped
  | .slice base start stop =>
    primaryStrength ≤ base.strength ∧ base.Grouped ∧ start.Grouped ∧ stop.Grouped
  | .call base args =>
    primaryStrength ≤ base.strength ∧ base.isFieldAccess = false ∧ base.Grouped ∧ args.Grouped
  | .methodCall base _ args =>
    primaryStrength ≤ base.strength ∧ args.hasTrailingComma = false ∧ base.Grouped ∧ args.Grouped
  | .fieldAccess base _ => primaryStrength ≤ base.strength ∧ base.Grouped
  | .postfixStep op base => isStep op ∧ primaryStrength ≤ base.strength ∧ base.Grouped
  | .unary op e =>
    (isPrefixOperator op ∧ prefixStrength ≤ e.strength ∨
      isStep op ∧ primaryStrength ≤ e.strength) ∧ e.Grouped
  | .binary op lhs rhs =>
    IsBinop op ∧ (lhs.isCast ∨ leftBound op ≤ lhs.strength) ∧ rhs.LeftOpenAbove (rightBound op) ∧
      lhs.Grouped ∧ rhs.Grouped
  | .cast e _ => precedenceOf .tokTo ≤ e.strength ∧ e.Grouped
  | .give cond thenExpr elseExpr =>
    0 ≤ cond.strength ∧ cond.Grouped ∧ thenExpr.Grouped ∧ elseExpr.Grouped
  | .omitted => True
  | .given e => e.Grouped
  | .noArgs => True
  | .lastArg e => e.Grouped
  | .nextArg e args => e.Grouped ∧ args.Grouped

end Tree

/-! ### The levels of the operators -/

theorem mem_binopPrecedence {op : Token} (h : 0 ≤ precedenceOf op) :
    (op, precedenceOf op) ∈ binopPrecedence := by
  unfold precedenceOf at h ⊢
  split at h
  case h_1 e he =>
    have hop : e.1 = op := by simpa using List.find?_some he
    have hmem := List.mem_of_find?_eq_some he
    split at h
    case isTrue => omega
    case isFalse hpos => rwa [if_neg hpos, ← hop]
  case h_2 => omega

theorem precedenceOf_lt_prefixStrength (op : Token) : precedenceOf op < prefixStrength := by
  have htable : ∀ e ∈ binopPrecedence, e.2 < prefixStrength := by decide
  by_cases h : 0 ≤ precedenceOf op
  · exact htable _ (mem_binopPrecedence h)
  · unfold prefixStrength
    omega

theorem prefixStrength_lt : prefixStrength < primaryStrength := by decide

/-- An operator of the lexer groups to the right at exactly two levels. -/
theorem isRightAssociative_iff {op : Token} (h : 0 ≤ precedenceOf op) (hop : op ≠ .char 61) :
    isRightAssociative op ↔ precedenceOf op = 10 ∨ precedenceOf op = 60 := by
  have htable : ∀ e ∈ binopPrecedence, e.1 ≠ .char 61 →
      (isRightAssociative e.1 ↔ e.2 = 10 ∨ e.2 = 60) := by decide
  exact htable _ (mem_binopPrecedence h) hop

/-- What may stand to the left of `op` is what may not stop before it. -/
theorem leftBound_le_iff {op op' : Token} (h : 0 ≤ precedenceOf op) (hop : op ≠ .char 61)
    (h' : 0 ≤ precedenceOf op') (hop' : op' ≠ .char 61) :
    leftBound op ≤ precedenceOf op' ↔ precedenceOf op < rightBound op' := by
  have hright := isRightAssociative_iff h hop
  have hright' := isRightAssociative_iff h' hop'
  unfold leftBound rightBound
  by_cases hop : isRightAssociative op <;> by_cases hop' : isRightAssociative op' <;>
    simp only [hop, hop', if_true, if_false, true_iff, Bool.false_eq_true, false_iff] at * <;> omega

theorem le_rightBound (op : Token) : precedenceOf op ≤ rightBound op := by
  unfold rightBound
  split <;> omega

namespace Tree

variable {k : Kind} {t : Tree α τ k} {b p : ℤ}

/-- Below the operators everything is closed to the left. -/
theorem leftOpenAbove_of_strength (h : prefixStrength ≤ t.strength) : t.LeftOpenAbove b := by
  cases t with
  | binary op lhs rhs => exact absurd h (by simpa [strength] using precedenceOf_lt_prefixStrength op)
  | cast e T => exact absurd h (by simpa [strength] using precedenceOf_lt_prefixStrength _)
  | give cond thenExpr elseExpr => simp [strength, prefixStrength] at h
  | _ => trivial

/-- The operator at the root, if there is one, does not take an operator of level `p` into its right
operand. -/
def EndsBefore {k : Kind} (p : ℤ) : Tree α τ k → Prop
  | .binary op _ _ => p < rightBound op
  | _ => True

theorem endsBefore_of_strength (h : prefixStrength ≤ t.strength) : t.EndsBefore p := by
  cases t with
  | binary op lhs rhs => exact absurd h (by simpa [strength] using precedenceOf_lt_prefixStrength op)
  | _ => trivial

/-- An operand to the right of an operator ends where the operator's tree does. -/
theorem LeftOpenAbove.endsBefore (h : t.LeftOpenAbove b) (hp : p < b) : t.EndsBefore p := by
  cases t with
  | binary op lhs rhs => exact hp.trans_le (h.1.trans (le_rightBound op))
  | _ => trivial

theorem leftBound_le_prefixStrength (op : Token) : leftBound op ≤ prefixStrength := by
  have hlt := precedenceOf_lt_prefixStrength op
  unfold leftBound
  split <;> omega

/-- A tree may stand to the left of `op` exactly if it ends before it. -/
theorem fits_iff {op : Token} (hop : 0 ≤ precedenceOf op) (hop' : op ≠ .char 61)
    (ht : t.Grouped) (hstrength : 0 ≤ t.strength) :
    (t.isCast ∨ leftBound op ≤ t.strength) ↔ t.EndsBefore (precedenceOf op) := by
  have hbelow := leftBound_le_prefixStrength op
  cases t with
  | binary op' lhs rhs =>
    rw [or_iff_right (by simp [isCast])]
    exact leftBound_le_iff hop hop' ht.1.1 ht.1.2.2
  | cast e T => exact iff_of_true (.inl rfl) trivial
  | give cond thenExpr elseExpr => exact absurd hstrength (by simp [strength])
  | unary op' e => exact iff_of_true (.inr hbelow) trivial
  | _ => exact iff_of_true (.inr (hbelow.trans prefixStrength_lt.le)) trivial

theorem strength_nonneg_of_fits {op : Token} (hop : 0 ≤ precedenceOf op)
    (h : t.isCast ∨ leftBound op ≤ t.strength) : 0 ≤ t.strength := by
  obtain hcast | hbound := h
  · cases t <;> simp [isCast] at hcast
    exact show 0 ≤ precedenceOf .tokTo by decide
  · refine le_trans ?_ hbound
    unfold leftBound
    split <;> omega

/-- A tree is open to the left for a whole expression, unless it is a conditional. -/
theorem Grouped.leftOpenAbove (ht : t.Grouped) (hstrength : 0 ≤ t.strength) :
    t.LeftOpenAbove 0 := by
  have hto : 0 ≤ precedenceOf .tokTo := by decide
  induction t with
  | binary op lhs rhs ih _ =>
    obtain ⟨⟨hop, -⟩, hfits, -, hlhs, -⟩ := ht
    exact ⟨hop, ih hlhs (strength_nonneg_of_fits hop hfits)⟩
  | cast e T ih => exact ⟨hto, ih ht.2 (hto.trans ht.1)⟩
  | give cond thenExpr elseExpr => exact absurd hstrength (by simp [strength])
  | _ => trivial

theorem LeftOpenAbove.strength_nonneg (h : t.LeftOpenAbove b) (hb : 0 ≤ b) : 0 ≤ t.strength := by
  cases t with
  | binary op lhs rhs => exact hb.trans h.1
  | give cond thenExpr elseExpr => exact h.elim
  | cast e T => exact hb.trans h.1
  | unary op e => exact show 0 ≤ prefixStrength by decide
  | _ => exact show 0 ≤ primaryStrength by decide

end Tree

/-! ### A round of `ParseBinOpRHS` -/

section

attribute [local simp] parseBinOpRHS

variable {n : ℕ} {p : ℤ} {lhs : Expr α τ} {s : Items α τ} {op : Token}

/-- An operand and the operators of level `p` and above that follow it. -/
def climb (n : ℕ) (p : ℤ) (s : Items α τ) : Option (Expr α τ × Items α τ) :=
  (parseUnary n s).bind fun x => parseBinOpRHS n p x.1 x.2

theorem getTokPrecedence_of_curTok (h : curTok s = some op) :
    getTokPrecedence s = precedenceOf op := by
  simp [getTokPrecedence, h]

theorem exists_curTok (h : 0 ≤ getTokPrecedence s) : ∃ op, curTok s = some op := by
  unfold getTokPrecedence at h
  cases hs : curTok s with
  | some op => exact ⟨op, rfl⟩
  | none => simp [hs] at h

theorem parseBinOpRHS_stop (h : getTokPrecedence s < p) :
    parseBinOpRHS (n + 1) p lhs s = some (lhs, s) := by
  rw [parseBinOpRHS]
  simp [h]

theorem parseBinOpRHS_to (hop : curTok s = some .tokTo) (hp : p ≤ precedenceOf .tokTo) :
    parseBinOpRHS (n + 1) p lhs s =
      (parseType s.tail).bind fun x => parseBinOpRHS n p (.cast lhs x.1) x.2 := by
  rw [parseBinOpRHS]
  simp [getTokPrecedence_of_curTok hop, hop, hp.not_gt]

/-- The right operand is all that binds tighter: where the next operator does not, the call that the
code leaves out would have returned at once. -/
theorem parseBinOpRHS_operator (hop : curTok s = some op) (hto : op ≠ .tokTo)
    (hp : p ≤ precedenceOf op) :
    parseBinOpRHS (n + 1) p lhs s =
      (climb n (rightBound op) s.tail).bind fun x =>
        parseBinOpRHS n p (.binary op lhs x.1) x.2 := by
  rw [parseBinOpRHS]
  simp only [getTokPrecedence_of_curTok hop, hop, hp.not_gt, if_false, hto, climb,
    Option.bind_eq_bind, Option.bind_assoc]
  cases n with
  | zero => rfl
  | succ n =>
    congr 1
    funext x
    split
    case isTrue => rfl
    case isFalse hnext =>
      have hstop : getTokPrecedence x.2 < rightBound op := by
        unfold rightBound
        split <;> grind
      rw [parseBinOpRHS_stop hstop]

end

end Precedence

end TurfLang
