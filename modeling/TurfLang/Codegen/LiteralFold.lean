import TurfLang.Codegen.CheckedInt
import TurfLang.Frontend.NumberLiteral

/-!
# `src/sema/TypeCheckerCore.cpp`, `src/codegen/CodegenExpr.cpp`: arithmetic on literals

The type checker folds arithmetic on untyped integer literals exactly and asks of the result
whether it fits; of a literal below an operator it asks that on its own. The code that is emitted
works in 64 bits and traps at each operator. The fold widens its integers before each operation, so
they are the integers themselves.
-/

namespace TurfLang

namespace Codegen

namespace LiteralFold

open Lexer Strings

/-- The expressions that the fold does not give up on; a parenthesis leaves no node. -/
inductive ExprAST
  | number (numLitClean : Bytes) (numLitRadix : ℕ)
  | neg (operand : ExprAST)
  | binary (op : ArithOp) (lhs rhs : ExprAST)
  deriving DecidableEq

namespace ExprAST

/-- `getIntValExact`. -/
def intValExact (numLitClean : Bytes) (numLitRadix : ℕ) : ℤ := valueOf numLitRadix numLitClean

/-- The operand is a `NumberExprAST`. -/
def isNumber : ExprAST → Bool
  | .number _ _ => true
  | _ => false

end ExprAST

open ExprAST

/-- The integer types. -/
inductive IntType
  | int
  | int32
  deriving DecidableEq

namespace IntType

def width : IntType → ℕ
  | .int => 64
  | .int32 => 32

def name : IntType → String
  | .int => "int"
  | .int32 => "int32"

theorem width_pos (T : IntType) : 0 < T.width := by cases T <;> decide

theorem width_le (T : IntType) : T.width ≤ 64 := by cases T <;> decide

end IntType

/-- `IntegerLiteralOutOfRangeError`: the value, and the type it does not fit. -/
structure OutOfRange where
  value : ℤ
  typeName : String
  deriving DecidableEq

/-- `tryFoldUntypedIntConstant`. -/
def tryFoldUntypedIntConstant : ExprAST → Bool → Except OutOfRange ℤ
  | .number numLitClean numLitRadix, isTopLevel =>
    let value := intValExact numLitClean numLitRadix
    if isTopLevel = false ∧ ¬ FitsSigned 64 value then .error ⟨value, IntType.int.name⟩
    else .ok value
  | .neg operand, isTopLevel => do
    let value ← tryFoldUntypedIntConstant operand (operand.isNumber || isTopLevel)
    if operand.isNumber ∧ isTopLevel = false ∧ ¬ FitsSigned 64 (-value) then
      throw ⟨-value, IntType.int.name⟩
    return -value
  | .binary op lhs rhs, _ => do
    let l ← tryFoldUntypedIntConstant lhs false
    let r ← tryFoldUntypedIntConstant rhs false
    return op.exact l r

/-- `checkLiteralRepresentable`, with the value that was folded. -/
def checkLiteralRepresentable (valueExpr : ExprAST) (destType : IntType) : Except OutOfRange ℤ := do
  let value ← tryFoldUntypedIntConstant valueExpr true
  if ¬ FitsSigned destType.width value then throw ⟨value, destType.name⟩
  return value

/-- `codegen`. -/
def codegen : ExprAST → Checked (BitVec 64)
  | .number numLitClean numLitRadix => .ok (BitVec.ofInt 64 (intValExact numLitClean numLitRadix))
  | .neg (.number numLitClean numLitRadix) =>
    .ok (BitVec.ofInt 64 (-intValExact numLitClean numLitRadix))
  | .neg operand => do
    let v ← codegen operand
    emitCheckedIntNegate v
  | .binary op lhs rhs => do
    let l ← codegen lhs
    let r ← codegen rhs
    emitCheckedIntArith op l r

/-- The value at its destination, which cuts it to the width of the type. -/
def evaluate (destType : IntType) (e : ExprAST) : Checked ℤ := do
  let v ← codegen e
  return (v.truncate destType.width).toInt

/-! ### What the expression says -/

namespace ExprAST

/-- The number that an expression stands for. -/
def value : ExprAST → ℤ
  | .number numLitClean numLitRadix => intValExact numLitClean numLitRadix
  | .neg operand => -operand.value
  | .binary op lhs rhs => op.exact lhs.value rhs.value

/-- Each literal fits in 64 bits, with the minus that is written on it. -/
def LiteralsFit : ExprAST → Prop
  | .number numLitClean numLitRadix => FitsSigned 64 (intValExact numLitClean numLitRadix)
  | .neg (.number numLitClean numLitRadix) =>
    FitsSigned 64 (-intValExact numLitClean numLitRadix)
  | .neg operand => operand.LiteralsFit
  | .binary _ lhs rhs => lhs.LiteralsFit ∧ rhs.LiteralsFit

/-- No operation has an exact result that 64 bits do not hold. -/
def Stays : ExprAST → Prop
  | .number _ _ => True
  | .neg operand => operand.Stays ∧ FitsSigned 64 (-operand.value)
  | .binary op lhs rhs => lhs.Stays ∧ rhs.Stays ∧ FitsSigned 64 (op.exact lhs.value rhs.value)

end ExprAST

section Fold

attribute [local simp] tryFoldUntypedIntConstant ExprAST.value

variable {e operand lhs rhs : ExprAST} {isTopLevel : Bool} {v : ℤ}

/-- What the fold of a negation has before it. -/
theorem tryFold_neg_eq_ok :
    tryFoldUntypedIntConstant (.neg operand) isTopLevel = .ok v ↔
      tryFoldUntypedIntConstant operand (operand.isNumber || isTopLevel) = .ok (-v) ∧
        (operand.isNumber = true → isTopLevel = false → FitsSigned 64 v) := by
  rw [tryFoldUntypedIntConstant, Loop.bind_eq_ok]
  constructor
  · rintro ⟨u, hu, h⟩
    split at h
    case isTrue => cases h
    case isFalse hno =>
      obtain rfl : -u = v := by simpa [pure, Except.pure] using h
      refine ⟨by rwa [neg_neg], fun hnum htop => ?_⟩
      by_contra hfits
      exact hno ⟨hnum, htop, hfits⟩
  · rintro ⟨hu, hfits⟩
    refine ⟨-v, hu, ?_⟩
    rw [neg_neg, if_neg fun hno => hno.2.2 (hfits hno.1 hno.2.1)]
    rfl

theorem tryFold_binary_eq_ok {op : ArithOp} :
    tryFoldUntypedIntConstant (.binary op lhs rhs) isTopLevel = .ok v ↔
      ∃ l r, tryFoldUntypedIntConstant lhs false = .ok l ∧
        tryFoldUntypedIntConstant rhs false = .ok r ∧ op.exact l r = v := by
  simp only [tryFoldUntypedIntConstant, Loop.bind_eq_ok]
  constructor
  · rintro ⟨l, hl, r, hr, h⟩
    exact ⟨l, r, hl, hr, by simpa [pure, Except.pure] using h⟩
  · rintro ⟨l, r, hl, hr, rfl⟩
    exact ⟨l, hl, r, hr, rfl⟩

/-- What is folded is the number that the expression stands for. -/
theorem value_of_tryFold (h : tryFoldUntypedIntConstant e isTopLevel = .ok v) : v = e.value := by
  induction e generalizing isTopLevel v with
  | number numLitClean numLitRadix =>
    simp only [tryFoldUntypedIntConstant] at h
    split at h
    · cases h
    · injection h with h
      exact h.symm
  | neg operand ih =>
    have hv := ih (tryFold_neg_eq_ok.1 h).1
    rw [ExprAST.value, ← hv, neg_neg]
  | binary op lhs rhs ihl ihr =>
    obtain ⟨l, r, hl, hr, rfl⟩ := tryFold_binary_eq_ok.1 h
    rw [ExprAST.value, ihl hl, ihr hr]

/-- Below an operator the fold asks of each literal whether it fits. -/
theorem literalsFit_of_tryFold (h : tryFoldUntypedIntConstant e false = .ok v) :
    e.LiteralsFit := by
  induction e generalizing v with
  | number numLitClean numLitRadix =>
    simp only [tryFoldUntypedIntConstant] at h
    split at h
    · cases h
    case isFalse hno => simpa [ExprAST.LiteralsFit] using hno
  | neg operand ih =>
    obtain ⟨hop, hfits⟩ := tryFold_neg_eq_ok.1 h
    cases operand with
    | number numLitClean numLitRadix =>
      have hv := value_of_tryFold h
      rw [ExprAST.value, ExprAST.value] at hv
      rw [ExprAST.LiteralsFit, ← hv]
      exact hfits rfl rfl
    | neg operand => exact ih hop
    | binary op lhs rhs => exact ih hop
  | binary op lhs rhs ihl ihr =>
    obtain ⟨l, r, hl, hr, -⟩ := tryFold_binary_eq_ok.1 h
    exact ⟨ihl hl, ihr hr⟩

theorem tryFold_of_literalsFit (h : e.LiteralsFit) (isTopLevel : Bool) :
    tryFoldUntypedIntConstant e isTopLevel = .ok e.value := by
  induction e generalizing isTopLevel with
  | number numLitClean numLitRadix =>
    rw [tryFoldUntypedIntConstant, if_neg fun hno => hno.2 h]
    rfl
  | neg operand ih =>
    rw [tryFold_neg_eq_ok, ExprAST.value, neg_neg]
    cases operand with
    | number numLitClean numLitRadix => exact ⟨rfl, fun _ _ => h⟩
    | neg operand => exact ⟨ih h _, nofun⟩
    | binary op lhs rhs => exact ⟨ih h _, nofun⟩
  | binary op lhs rhs ihl ihr =>
    exact tryFold_binary_eq_ok.2 ⟨_, _, ihl h.1 false, ihr h.2 false, rfl⟩

/-- At the top the value is asked instead of the literals. -/
theorem literalsFit_of_stays (h : tryFoldUntypedIntConstant e isTopLevel = .ok v) (hstays : e.Stays)
    (hnumber : e.isNumber = true → FitsSigned 64 e.value) : e.LiteralsFit := by
  induction e generalizing isTopLevel v with
  | number numLitClean numLitRadix => exact hnumber rfl
  | neg operand ih =>
    obtain ⟨hop, -⟩ := tryFold_neg_eq_ok.1 h
    cases operand with
    | number numLitClean numLitRadix => exact hstays.2
    | neg operand => exact ih hop hstays.1 nofun
    | binary op lhs rhs => exact ih hop hstays.1 nofun
  | binary op lhs rhs ihl ihr =>
    obtain ⟨l, r, hl, hr, -⟩ := tryFold_binary_eq_ok.1 h
    exact ⟨literalsFit_of_tryFold hl, literalsFit_of_tryFold hr⟩

end Fold

/-! ### What the emitted code computes -/

section Codegen

attribute [local simp] codegen ExprAST.LiteralsFit

variable {e operand : ExprAST} {x : BitVec 64}

theorem codegen_neg (h : operand.isNumber = false) :
    codegen (.neg operand) = codegen operand >>= emitCheckedIntNegate := by
  cases operand with
  | number => cases h
  | neg operand => rfl
  | binary op lhs rhs => rfl

theorem literalsFit_neg (h : operand.isNumber = false) (hfit : (ExprAST.neg operand).LiteralsFit) :
    operand.LiteralsFit := by
  cases operand with
  | number => cases h
  | neg operand => exact hfit
  | binary op lhs rhs => exact hfit

/-- When the literals fit, the code that does not trap computes the number. -/
theorem value_of_codegen (hfit : e.LiteralsFit) (h : codegen e = .ok x) : x.toInt = e.value := by
  induction e generalizing x with
  | number numLitClean numLitRadix =>
    obtain rfl : BitVec.ofInt 64 (intValExact numLitClean numLitRadix) = x := by
      simpa [codegen] using h
    exact FitsSigned.toInt_ofInt (by norm_num) hfit
  | neg operand ih =>
    cases hnum : operand.isNumber with
    | true =>
      cases operand with
      | number numLitClean numLitRadix =>
        obtain rfl : BitVec.ofInt 64 (-intValExact numLitClean numLitRadix) = x := by
          simpa [codegen] using h
        exact FitsSigned.toInt_ofInt (by norm_num) hfit
      | neg => cases hnum
      | binary => cases hnum
    | false =>
      rw [codegen_neg hnum, Loop.bind_eq_ok] at h
      obtain ⟨v, hv, hx⟩ := h
      rw [emitCheckedIntNegate_eq_ok.1 hx, ih (literalsFit_neg hnum hfit) hv, ExprAST.value]
  | binary op lhs rhs ihl ihr =>
    simp only [codegen, Loop.bind_eq_ok] at h
    obtain ⟨l, hl, r, hr, hx⟩ := h
    rw [emitCheckedIntArith_eq_ok.1 hx, ihl hfit.1 hl, ihr hfit.2 hr, ExprAST.value]

/-- When no operation leaves what 64 bits hold, the code does not trap. -/
theorem codegen_of_stays (hfit : e.LiteralsFit) (hstays : e.Stays) :
    codegen e = .ok (BitVec.ofInt 64 e.value) := by
  induction e with
  | number numLitClean numLitRadix => rfl
  | neg operand ih =>
    cases hnum : operand.isNumber with
    | true =>
      cases operand with
      | number => rfl
      | neg => cases hnum
      | binary => cases hnum
    | false =>
      rw [codegen_neg hnum, Loop.bind_eq_ok]
      have hop := ih (literalsFit_neg hnum hfit) hstays.1
      refine ⟨_, hop, emitCheckedIntNegate_eq_ok.2 ?_⟩
      rw [value_of_codegen (literalsFit_neg hnum hfit) hop]
      exact FitsSigned.toInt_ofInt (by norm_num) hstays.2
  | binary op lhs rhs ihl ihr =>
    have hl := ihl hfit.1 hstays.1
    have hr := ihr hfit.2 hstays.2.1
    simp only [codegen, Loop.bind_eq_ok]
    refine ⟨_, hl, _, hr, emitCheckedIntArith_eq_ok.2 ?_⟩
    rw [value_of_codegen hfit.1 hl, value_of_codegen hfit.2 hr]
    exact FitsSigned.toInt_ofInt (by norm_num) hstays.2.2

end Codegen

/-! ### The fold against the run -/

/-- What fits a type is not changed by the cut to its width. -/
theorem toInt_truncate {T : IntType} {x : BitVec 64} (h : FitsSigned T.width x.toInt) :
    (x.truncate T.width).toInt = x.toInt := by
  cases T with
  | int => simp [IntType.width]
  | int32 =>
    obtain ⟨hlo, hhi⟩ := h
    simp only [IntType.width, BitVec.truncate_eq_setWidth, BitVec.toInt_setWidth] at hlo hhi ⊢
    rw [BitVec.toInt_eq_toNat_cond] at hlo hhi ⊢
    rw [Int.bmod_def]
    split at hlo <;> omega

theorem checkLiteralRepresentable_eq_ok {e : ExprAST} {T : IntType} {v : ℤ} :
    checkLiteralRepresentable e T = .ok v ↔
      tryFoldUntypedIntConstant e true = .ok v ∧ FitsSigned T.width v := by
  rw [checkLiteralRepresentable, Loop.bind_eq_ok]
  constructor
  · rintro ⟨u, hu, h⟩
    split at h
    case isTrue => cases h
    case isFalse hfits =>
      obtain rfl : u = v := by simpa [pure, Except.pure] using h
      exact ⟨hu, not_not.1 hfits⟩
  · rintro ⟨hu, hfits⟩
    exact ⟨v, hu, by rw [if_neg (not_not.2 hfits)]; rfl⟩

/-- A value that is accepted is what the run computes, when no operation leaves 64 bits on the way;
and what is rejected has a literal that does not fit, traps, or computes what its type does not
hold. -/
theorem fold_agrees (e : ExprAST) (T : IntType) :
    (∀ v, checkLiteralRepresentable e T = .ok v → e.Stays → evaluate T e = .ok v) ∧
      ∀ err, checkLiteralRepresentable e T = .error err →
        ¬ e.LiteralsFit ∨ (∃ text, codegen e = .error text) ∨
          ∃ x, codegen e = .ok x ∧ ¬ FitsSigned T.width x.toInt := by
  constructor
  · intro v h hstays
    obtain ⟨hfold, hfits⟩ := checkLiteralRepresentable_eq_ok.1 h
    have hv := value_of_tryFold hfold
    have hfit : e.LiteralsFit := literalsFit_of_stays hfold hstays fun _ => by
      rw [← hv]
      exact hfits.mono T.width_le
    have hrun := codegen_of_stays hfit hstays
    have hx := value_of_codegen hfit hrun
    rw [← hv] at hx hrun
    rw [evaluate, Loop.bind_eq_ok]
    refine ⟨_, hrun, ?_⟩
    rw [toInt_truncate (by rwa [hx]), hx]
    rfl
  · intro err h
    by_cases hfit : e.LiteralsFit
    · refine .inr ?_
      cases hrun : codegen e with
      | error text => exact .inl ⟨text, rfl⟩
      | ok x =>
        refine .inr ⟨x, rfl, fun hfits => ?_⟩
        rw [value_of_codegen hfit hrun] at hfits
        have hok := checkLiteralRepresentable_eq_ok.2 ⟨tryFold_of_literalsFit hfit true, hfits⟩
        rw [hok] at h
        cases h
    · exact .inl hfit

/-- A decimal literal. -/
def decimal (text : String) : ExprAST := .number (bytes text) 10

/-- `-9223372036854775808 + 9223372036854775807`. -/
theorem fold_agrees_sample :
    evaluate .int (.binary .add (.neg (decimal "9223372036854775808"))
      (decimal "9223372036854775807")) = .ok (-1) :=
  (fold_agrees _ .int).1 (-1) (by decide +kernel)
    ⟨⟨trivial, by decide +kernel⟩, trivial, by decide +kernel⟩

/-- `99999999999999999999 - 99999999999999999998` is rejected, and computes 1. -/
theorem rejected_but_computes :
    checkLiteralRepresentable
        (.binary .sub (decimal "99999999999999999999") (decimal "99999999999999999998")) .int =
      .error ⟨99999999999999999999, "int"⟩ ∧
    evaluate .int
        (.binary .sub (decimal "99999999999999999999") (decimal "99999999999999999998")) =
      .ok 1 := by
  constructor <;> decide +kernel

end LiteralFold

end Codegen

end TurfLang
