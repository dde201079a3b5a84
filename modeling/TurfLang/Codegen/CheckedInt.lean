import Mathlib.Tactic

/-!
# `src/codegen/CodegenCore.cpp`: integer arithmetic that traps

What the code that the `EmitChecked…` functions emit computes: the value of a 64-bit integer, or
the text of the panic it ends in. Each is then read against the exact result of the operation.
-/

namespace TurfLang

namespace Codegen

/-- The value that emitted code leaves, or the text that `CodegenPanic` is given. -/
abbrev Checked (α : Type) := Except String α

namespace Checked

def integerOverflow : String := "Integer overflow"

end Checked

/-- The operators of `EmitCheckedIntArith`. -/
inductive ArithOp
  | add
  | sub
  | mul
  deriving DecidableEq

namespace ArithOp

/-- The operation on the numbers themselves. -/
def exact : ArithOp → ℤ → ℤ → ℤ
  | .add, x, y => x + y
  | .sub, x, y => x - y
  | .mul, x, y => x * y

/-- Element 0 of what the `with.overflow` intrinsic returns. -/
def wrapped : ArithOp → BitVec 64 → BitVec 64 → BitVec 64
  | .add, x, y => x + y
  | .sub, x, y => x - y
  | .mul, x, y => x * y

/-- Element 1 of what the `with.overflow` intrinsic returns. -/
def overflowed : ArithOp → BitVec 64 → BitVec 64 → Bool
  | .add, x, y => x.saddOverflow y
  | .sub, x, y => x.ssubOverflow y
  | .mul, x, y => x.smulOverflow y

end ArithOp

/-- `EmitCheckedIntArith`. -/
def emitCheckedIntArith (op : ArithOp) (l r : BitVec 64) : Checked (BitVec 64) :=
  if op.overflowed l r then .error Checked.integerOverflow else .ok (op.wrapped l r)

/-- `EmitCheckedIntNegate`. -/
def emitCheckedIntNegate (v : BitVec 64) : Checked (BitVec 64) :=
  if v = BitVec.intMin 64 then .error Checked.integerOverflow else .ok (-v)

/-- The numbers that `w` bits hold, one of them the sign. -/
def FitsSigned (w : ℕ) (n : ℤ) : Prop := -2 ^ (w - 1) ≤ n ∧ n < 2 ^ (w - 1)

instance (w : ℕ) (n : ℤ) : Decidable (FitsSigned w n) := by unfold FitsSigned; infer_instance

namespace FitsSigned

theorem toInt {w : ℕ} (hw : 0 < w) (x : BitVec w) : FitsSigned w x.toInt := by
  obtain ⟨w, rfl⟩ := Nat.exists_eq_succ_of_ne_zero hw.ne'
  exact ⟨by simpa using BitVec.le_toInt x, by simpa using BitVec.toInt_lt (x := x)⟩

theorem toInt_ofInt {w : ℕ} (hw : 0 < w) {n : ℤ} (h : FitsSigned w n) :
    (BitVec.ofInt w n).toInt = n := by
  obtain ⟨hlo, hhi⟩ := h
  exact BitVec.toInt_ofInt_eq_self hw (by simpa using hlo) (by simpa using hhi)

theorem mono {v w : ℕ} (hvw : v ≤ w) {n : ℤ} (h : FitsSigned v n) : FitsSigned w n := by
  have hpow : (2 : ℤ) ^ (v - 1) ≤ 2 ^ (w - 1) := pow_le_pow_right₀ (by norm_num) (by omega)
  exact ⟨by linarith [h.1], by linarith [h.2]⟩

end FitsSigned

theorem ArithOp.overflowed_iff (op : ArithOp) (l r : BitVec 64) :
    op.overflowed l r = true ↔ ¬ FitsSigned 64 (op.exact l.toInt r.toInt) := by
  cases op <;>
    simp only [ArithOp.overflowed, ArithOp.exact, BitVec.saddOverflow, BitVec.ssubOverflow,
      BitVec.smulOverflow, FitsSigned, Bool.or_eq_true, decide_eq_true_eq] <;>
    omega

theorem ArithOp.toInt_wrapped {op : ArithOp} {l r : BitVec 64}
    (h : FitsSigned 64 (op.exact l.toInt r.toInt)) :
    (op.wrapped l r).toInt = op.exact l.toInt r.toInt := by
  have hno : ¬ op.overflowed l r = true := by rwa [op.overflowed_iff, not_not]
  cases op with
  | add => exact BitVec.toInt_add_of_not_saddOverflow hno
  | sub =>
    exact BitVec.toInt_sub_of_not_ssubOverflow hno
  | mul => exact BitVec.toInt_mul_of_not_smulOverflow hno

/-- The checked operation is the exact one, cut to what 64 bits hold. -/
theorem emitCheckedIntArith_eq_ok {op : ArithOp} {l r v : BitVec 64} :
    emitCheckedIntArith op l r = .ok v ↔ v.toInt = op.exact l.toInt r.toInt := by
  unfold emitCheckedIntArith
  split
  case isTrue hov =>
    have hfits := (op.overflowed_iff l r).1 hov
    refine iff_of_false (by simp) fun heq => hfits ?_
    rw [← heq]
    exact FitsSigned.toInt (by norm_num) v
  case isFalse hov =>
    have hfits : FitsSigned 64 (op.exact l.toInt r.toInt) := by
      rwa [op.overflowed_iff, not_not] at hov
    rw [← ArithOp.toInt_wrapped hfits, BitVec.toInt_inj, Except.ok.injEq, eq_comm]

theorem emitCheckedIntArith_eq_error {op : ArithOp} {l r : BitVec 64} {text : String} :
    emitCheckedIntArith op l r = .error text ↔
      text = Checked.integerOverflow ∧ ¬ FitsSigned 64 (op.exact l.toInt r.toInt) := by
  unfold emitCheckedIntArith
  rw [← op.overflowed_iff]
  split
  case isTrue hov => simp [hov, eq_comm]
  case isFalse hov => simp [hov]

theorem emitCheckedIntNegate_eq_ok {x v : BitVec 64} :
    emitCheckedIntNegate x = .ok v ↔ v.toInt = -x.toInt := by
  unfold emitCheckedIntNegate
  split
  case isTrue hmin =>
    subst hmin
    refine iff_of_false (by simp) fun heq => ?_
    have hlt := BitVec.toInt_lt (x := v)
    rw [heq, BitVec.toInt_intMin] at hlt
    norm_num at hlt
  case isFalse hmin =>
    rw [← BitVec.toInt_neg_of_ne_intMin hmin, BitVec.toInt_inj, Except.ok.injEq, eq_comm]

theorem emitCheckedIntNegate_eq_error {x : BitVec 64} {text : String} :
    emitCheckedIntNegate x = .error text ↔
      text = Checked.integerOverflow ∧ ¬ FitsSigned 64 (-x.toInt) := by
  unfold emitCheckedIntNegate
  split
  case isTrue hmin =>
    subst hmin
    have hno : ¬ FitsSigned 64 (-(BitVec.intMin 64).toInt) := by
      rw [BitVec.toInt_intMin]
      decide
    simp [hno, eq_comm]
  case isFalse hmin =>
    have hfits : FitsSigned 64 (-x.toInt) := by
      rw [← BitVec.toInt_neg_of_ne_intMin hmin]
      exact FitsSigned.toInt (by norm_num) (-x)
    simp [hfits]

end Codegen

end TurfLang
