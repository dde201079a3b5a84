import TurfLang.Codegen.IntPow
import Mathlib.Data.Int.Bitwise

/-!
# `src/codegen/`: the integer operators

`BinaryExprAST::codegen`, `CompoundAssignmentExprAST::codegen`, `PostfixExprAST::codegen` and
`UnaryExprAST::codegen` on integers, with what they share in `CodegenCore.cpp`. No node is marked
`ProvenNoOverflow`. An instruction whose result is poison ends the code in `Stop.poison`, and is
shown to be never run.
-/

namespace TurfLang

namespace Codegen

namespace IntOperators

/-- What stops emitted code: a panic with its text, or an instruction that has no result. -/
inductive Stop
  | panic (text : String)
  | poison
  deriving DecidableEq

/-- The value that emitted code leaves, or what stops it. -/
abbrev Emitted (α : Type) := Except Stop α

/-- Code that nothing but a panic stops. -/
def ofChecked {α : Type} : Checked α → Emitted α
  | .ok v => .ok v
  | .error text => .error (.panic text)

section Instructions

variable {w : ℕ}

/-- `sdiv`. -/
def sdiv (l r : BitVec w) : Emitted (BitVec w) :=
  if r = 0 ∨ l = BitVec.intMin w ∧ r = -1 then .error .poison else .ok (l.sdiv r)

/-- `srem`. -/
def srem (l r : BitVec w) : Emitted (BitVec w) :=
  if r = 0 ∨ l = BitVec.intMin w ∧ r = -1 then .error .poison else .ok (l.srem r)

/-- `shl`. -/
def shl (l r : BitVec w) : Emitted (BitVec w) :=
  if w ≤ r.toNat then .error .poison else .ok (l <<< r.toNat)

/-- `ashr`. -/
def ashr (l r : BitVec w) : Emitted (BitVec w) :=
  if w ≤ r.toNat then .error .poison else .ok (l.sshiftRight r.toNat)

/-- `EmitSignedDivOverflowGuard`. -/
def emitSignedDivOverflowGuard (l r : BitVec w) : Emitted Unit :=
  if l = BitVec.intMin w ∧ r = -1 then .error (.panic Checked.integerOverflow) else .ok ()

/-- `EmitSafeSRem`. -/
def emitSafeSRem (l r : BitVec w) : Emitted (BitVec w) :=
  let divisor := if r = -1 then 1 else r
  srem l divisor

end Instructions

/-- The test of `EmitCheckedShl` and `EmitCheckedShr`. -/
def amtBad (r : BitVec 64) : Bool := r.slt 0 || BitVec.sle 64 r

/-- `EmitCheckedShl`. -/
def emitCheckedShl (l r : BitVec 64) : Emitted (BitVec 64) :=
  if amtBad r then .error (.panic Checked.integerOverflow)
  else do
    let shlResult ← shl l r
    let recovered ← ashr shlResult r
    if recovered ≠ l then .error (.panic Checked.integerOverflow) else .ok shlResult

/-- `EmitCheckedShr`. -/
def emitCheckedShr (l r : BitVec 64) : Emitted (BitVec 64) :=
  if amtBad r then .error (.panic Checked.integerOverflow) else ashr l r

/-- `/` where it is compiled, with the text of its panic at zero. -/
def division (text : String) (l r : BitVec 64) : Emitted (BitVec 64) :=
  if r = 0 then .error (.panic text)
  else do
    emitSignedDivOverflowGuard l r
    sdiv l r

/-- `%` where it is compiled, with the text of its panic at zero. -/
def modulo (text : String) (l r : BitVec 64) : Emitted (BitVec 64) :=
  if r = 0 then .error (.panic text) else emitSafeSRem l r

/-! ### The nodes -/

/-- An operand: an `int`, or an `int32` of a foreign function. -/
inductive Operand
  | int (v : BitVec 64)
  | int32 (v : BitVec 32)

/-- `CastToType` with `int` as the destination. -/
def Operand.castToInt : Operand → BitVec 64
  | .int v => v
  | .int32 v => v.signExtend 64

def Operand.toInt : Operand → ℤ
  | .int v => v.toInt
  | .int32 v => v.toInt

/-- The operators on numbers. -/
inductive NumericOp
  | add
  | sub
  | mul
  | div
  | mod
  | pow
  deriving DecidableEq

/-- The operators that the type checker wants `int` on both sides of. -/
inductive BitwiseOp
  | xor
  | and
  | or
  | lshift
  | rshift
  deriving DecidableEq

/-- The texts of the panics at zero. -/
structure ZeroTexts where
  div : String
  mod : String

/-- What is emitted for an operator on numbers once both sides are `int`. -/
def NumericOp.emit (texts : ZeroTexts) :
    NumericOp → BitVec 64 → BitVec 64 → Emitted (BitVec 64) → Prop
  | .add, l, r, res => res = ofChecked (emitCheckedIntArith .add l r)
  | .sub, l, r, res => res = ofChecked (emitCheckedIntArith .sub l r)
  | .mul, l, r, res => res = ofChecked (emitCheckedIntArith .mul l r)
  | .div, l, r, res => res = division texts.div l r
  | .mod, l, r, res => res = modulo texts.mod l r
  | .pow, l, r, res => ∃ c, emitCheckedIntPow l r c ∧ res = ofChecked c

def BitwiseOp.emit : BitwiseOp → BitVec 64 → BitVec 64 → Emitted (BitVec 64)
  | .xor, l, r => .ok (l ^^^ r)
  | .and, l, r => .ok (l &&& r)
  | .or, l, r => .ok (l ||| r)
  | .lshift, l, r => emitCheckedShl l r
  | .rshift, l, r => emitCheckedShr l r

/-- A `BinaryExprAST` on integers, with the values of its sides. -/
inductive BinaryNode
  | numeric (op : NumericOp) (l r : Operand)
  | bitwise (op : BitwiseOp) (l r : BitVec 64)

/-- The code of a binary node leaves in `res`. -/
def BinaryNode.codegen : BinaryNode → Emitted (BitVec 64) → Prop
  | .numeric op l r, res =>
    op.emit ⟨"Division by zero", "Modulo by zero"⟩ l.castToInt r.castToInt res
  | .bitwise op l r, res => res = op.emit l r

/-- The operator and the value of the right side of a `CompoundAssignmentExprAST` to an `int`. -/
inductive CompoundNode
  | numeric (op : NumericOp) (r : Operand)
  | bitwise (op : BitwiseOp) (r : BitVec 64)

section Places

variable {Place : Type} [DecidableEq Place]

/-- The store of a result. -/
def store (ptr : Place) (mem : Place → BitVec 64) (v : BitVec 64) : Place → BitVec 64 :=
  Function.update mem ptr v

/-- The code of a compound assignment to the `int` at `ptr` leaves in `res`: the new value, and the
memory it is stored in. -/
def CompoundNode.codegen (node : CompoundNode) (ptr : Place) (mem : Place → BitVec 64)
    (res : Emitted (BitVec 64 × (Place → BitVec 64))) : Prop :=
  ∃ result : Emitted (BitVec 64),
    (match node with
      | .numeric op r =>
        op.emit ⟨"Division by zero in compound assignment", "Modulo by zero in compound assignment"⟩
          (mem ptr) r.castToInt result
      | .bitwise op r => result = op.emit (mem ptr) r) ∧
    res = result.map fun v => (v, store ptr mem v)

/-- The code of `++` or `--`, before or after its operand: the value of the expression, and the
memory. -/
def postfixCodegen (isIncrement isPre : Bool) (ptr : Place) (mem : Place → BitVec 64) :
    Emitted (BitVec 64 × (Place → BitVec 64)) :=
  let oldVal := mem ptr
  (ofChecked (emitCheckedIntArith (if isIncrement then .add else .sub) oldVal 1)).map fun newVal =>
    (if isPre then newVal else oldVal, store ptr mem newVal)

end Places

/-- The operand of a unary minus: an untyped literal that the type checker has let through, or the
value of another `int`. -/
inductive MinusOperand
  | literal (n : ℕ) (representable : n ≤ 2 ^ 63)
  | value (v : BitVec 64)

/-- `UnaryExprAST::codegen` of a minus. A literal is negated one bit wider than it is. -/
def unaryMinus : MinusOperand → Emitted (BitVec 64)
  | .literal n _ => .ok (BitVec.ofInt 64 (-n))
  | .value v => ofChecked (emitCheckedIntNegate v)

/-! ### The exact results -/

/-- The operation on numbers; `none` where there is no result. -/
def NumericOp.exact : NumericOp → ℤ → ℤ → Option ℤ
  | .add, x, y => some (x + y)
  | .sub, x, y => some (x - y)
  | .mul, x, y => some (x * y)
  | .div, x, y => if y = 0 then none else some (x.tdiv y)
  | .mod, x, y => if y = 0 then none else some (x.tmod y)
  | .pow, x, y => if y < 0 then none else some (x ^ y.toNat)

def BitwiseOp.exact : BitwiseOp → ℤ → ℤ → Option ℤ
  | .xor, x, y => some (x.xor y)
  | .and, x, y => some (x.land y)
  | .or, x, y => some (x.lor y)
  | .lshift, x, s => if 0 ≤ s ∧ s < 64 then some (x * 2 ^ s.toNat) else none
  | .rshift, x, s => if 0 ≤ s ∧ s < 64 then some (x / 2 ^ s.toNat) else none

def BinaryNode.exact : BinaryNode → Option ℤ
  | .numeric op l r => op.exact l.toInt r.toInt
  | .bitwise op l r => op.exact l.toInt r.toInt

/-- The binary node that a compound assignment stands for, once its left side is read. -/
def CompoundNode.binary : CompoundNode → BitVec 64 → BinaryNode
  | .numeric op r, l => .numeric op (.int l) r
  | .bitwise op r, l => .bitwise op l r

def MinusOperand.toInt : MinusOperand → ℤ
  | .literal n _ => n
  | .value v => v.toInt

/-- The code leaves the exact result, or panics where there is none that 64 bits hold, and runs into
no poison. -/
structure Yields (res : Emitted (BitVec 64)) (exact : Option ℤ) : Prop where
  ok_iff : ∀ v, res = .ok v ↔ exact = some v.toInt
  panic_iff : (∃ text, res = .error (.panic text)) ↔
    ∀ n, exact = some n → ¬ FitsSigned 64 n
  defined : res ≠ .error .poison

/-! ### Bit vectors as numbers -/

theorem shiftLeft_eq_ofInt {w : ℕ} (x : BitVec w) (s : ℕ) :
    x <<< s = BitVec.ofInt w (x.toInt * 2 ^ s) := by
  have hcast : ((2 ^ s : ℕ) : ℤ) = 2 ^ s := by rw [Nat.cast_pow, Nat.cast_ofNat]
  have hpow : BitVec.twoPow w s = BitVec.ofInt w (2 ^ s) := by
    rw [← hcast, BitVec.ofInt_natCast, ← BitVec.toNat_inj, BitVec.toNat_twoPow,
      BitVec.toNat_ofNat]
  rw [BitVec.shiftLeft_eq_mul_twoPow, BitVec.ofInt_mul, BitVec.ofInt_toInt, hpow]

/-- A left shift keeps the number iff shifting back gives it again. -/
theorem sshiftRight_shiftLeft_iff {x : BitVec 64} {s : ℕ} (hs : s < 64) :
    (x <<< s).sshiftRight s = x ↔ FitsSigned 64 (x.toInt * 2 ^ s) := by
  have hpos : (0 : ℤ) < 2 ^ s := by positivity
  have hshift : ∀ n : ℤ, n >>> s = n / 2 ^ s := by
    intro n
    rw [Int.shiftRight_eq_div_pow]
    push_cast
    rfl
  constructor
  · intro h
    have hback : (x <<< s).toInt / 2 ^ s = x.toInt := by
      rw [← hshift, ← BitVec.toInt_sshiftRight, h]
    have hdvd : (2 ^ s : ℤ) ∣ (x <<< s).toInt := by
      rw [shiftLeft_eq_ofInt, BitVec.toInt_ofInt]
      have h64 : (2 ^ s : ℤ) ∣ (2 ^ 64 : ℕ) := by
        push_cast
        exact pow_dvd_pow 2 hs.le
      have hsub := h64.trans (Int.dvd_bmod_sub_self (x := x.toInt * 2 ^ s) (m := 2 ^ 64))
      exact (dvd_iff_dvd_of_dvd_sub hsub).mpr (Dvd.intro_left _ rfl)
    have heq : x.toInt * 2 ^ s = (x <<< s).toInt := by
      rw [← hback, Int.ediv_mul_cancel hdvd]
    rw [heq]
    exact FitsSigned.toInt (by norm_num) _
  · intro h
    rw [← BitVec.toInt_inj, BitVec.toInt_sshiftRight, shiftLeft_eq_ofInt,
      FitsSigned.toInt_ofInt (by norm_num) h, hshift]
    exact Int.mul_ediv_cancel _ hpos.ne'

theorem toInt_eq_msb {w : ℕ} (x : BitVec w) :
    x.toInt = if x.msb then Int.negSucc (~~~x).toNat else Int.ofNat x.toNat := by
  rw [BitVec.toInt_eq_msb_cond]
  split
  · rw [BitVec.toNat_not, Int.negSucc_eq]
    have hlt := x.isLt
    zify [show 1 ≤ 2 ^ w from Nat.one_le_two_pow, show x.toNat ≤ 2 ^ w - 1 by omega]
    ring
  · rfl

theorem ldiff_toNat_not {w : ℕ} (x y : BitVec w) :
    x.toNat.ldiff (~~~y).toNat = (x &&& y).toNat := by
  apply Nat.eq_of_testBit_eq
  intro i
  rw [Nat.testBit_ldiff, BitVec.testBit_toNat, BitVec.testBit_toNat, BitVec.testBit_toNat,
    BitVec.getLsbD_not, BitVec.getLsbD_and]
  by_cases hi : i < w
  · simp [hi]
  · simp [BitVec.getLsbD_of_ge x i (by omega)]

theorem toInt_and {w : ℕ} (x y : BitVec w) : (x &&& y).toInt = x.toInt.land y.toInt := by
  simp only [toInt_eq_msb, BitVec.msb_and]
  cases x.msb <;> cases y.msb
  · exact congrArg Int.ofNat (BitVec.toNat_and x y)
  · exact congrArg Int.ofNat (ldiff_toNat_not x y).symm
  · exact congrArg Int.ofNat ((ldiff_toNat_not y x).trans (by rw [BitVec.and_comm])).symm
  · exact congrArg Int.negSucc (by rw [BitVec.not_and, BitVec.toNat_or])

theorem toInt_or {w : ℕ} (x y : BitVec w) : (x ||| y).toInt = x.toInt.lor y.toInt := by
  have hnot : ∀ a b : BitVec w, (~~~(a ||| b)).toNat = (~~~b).toNat.ldiff a.toNat := by
    intro a b
    rw [← BitVec.not_not (b := a), ldiff_toNat_not, BitVec.not_not, BitVec.not_or, BitVec.and_comm]
  simp only [toInt_eq_msb, BitVec.msb_or]
  cases x.msb <;> cases y.msb
  · exact congrArg Int.ofNat (BitVec.toNat_or x y)
  · exact congrArg Int.negSucc (hnot x y)
  · exact congrArg Int.negSucc (by rw [BitVec.or_comm, hnot y x])
  · exact congrArg Int.negSucc (by rw [BitVec.not_or, BitVec.toNat_and])

theorem toInt_xor {w : ℕ} (x y : BitVec w) : (x ^^^ y).toInt = x.toInt.xor y.toInt := by
  have hnot : ∀ a b : BitVec w, ~~~(a ^^^ b) = a ^^^ ~~~b := by
    intro a b
    rw [← BitVec.xor_allOnes, BitVec.xor_assoc, BitVec.xor_allOnes]
  simp only [toInt_eq_msb, BitVec.msb_xor]
  cases x.msb <;> cases y.msb
  · exact congrArg Int.ofNat (BitVec.toNat_xor x y)
  · exact congrArg Int.negSucc (by rw [hnot, BitVec.toNat_xor])
  · exact congrArg Int.negSucc (by
      rw [BitVec.xor_comm x, hnot, BitVec.xor_comm, BitVec.toNat_xor])
  · exact congrArg Int.ofNat (by
      rw [← BitVec.toNat_xor, ← hnot, BitVec.xor_comm (~~~x), hnot, BitVec.not_not,
        BitVec.xor_comm])

/-! ### The shared helpers -/

/-- Code with exact results runs into no poison and panics on the rest. -/
theorem Yields.of_ok_iff {res : Emitted (BitVec 64)} {exact : Option ℤ}
    (hok : ∀ v, res = .ok v ↔ exact = some v.toInt) (hdef : res ≠ .error .poison) :
    Yields res exact := by
  refine ⟨hok, ?_, hdef⟩
  constructor
  · rintro ⟨text, rfl⟩ n hn hfits
    have h := (hok (BitVec.ofInt 64 n)).mpr (by rw [hn, FitsSigned.toInt_ofInt (by norm_num) hfits])
    cases h
  · intro hno
    cases res with
    | ok v => exact absurd (FitsSigned.toInt (by norm_num) v) (hno _ ((hok v).mp rfl))
    | error stop =>
      cases stop with
      | panic text => exact ⟨text, rfl⟩
      | poison => exact absurd rfl hdef

theorem Yields.of_ok {v : BitVec 64} {n : ℤ} (h : v.toInt = n) : Yields (.ok v) (some n) := by
  refine .of_ok_iff (fun v' => ?_) (by simp)
  rw [Except.ok.injEq, Option.some.injEq, ← h, BitVec.toInt_inj]

theorem Yields.of_panic {text : String} {exact : Option ℤ}
    (h : ∀ n, exact = some n → ¬ FitsSigned 64 n) : Yields (.error (.panic text)) exact := by
  refine .of_ok_iff (fun v => iff_of_false (by simp) fun hv => ?_) (by simp)
  exact h _ hv (FitsSigned.toInt (by norm_num) v)

theorem yields_ofChecked {c : Checked (BitVec 64)} {n : ℤ} (h : ∀ v, c = .ok v ↔ v.toInt = n) :
    Yields (ofChecked c) (some n) := by
  refine .of_ok_iff (fun v => ?_) ?_
  · rw [Option.some.injEq, eq_comm (a := n), ← h v]
    cases c <;> simp [ofChecked]
  · cases c <;> simp [ofChecked]

theorem yields_division (text : String) (l r : BitVec 64) :
    Yields (division text l r) (NumericOp.exact .div l.toInt r.toInt) := by
  unfold division
  split
  case isTrue hzero =>
    refine .of_panic fun n hn => ?_
    simp [NumericOp.exact, hzero] at hn
  case isFalse hzero =>
    have hne : r.toInt ≠ 0 := fun h => hzero (BitVec.toInt_inj.mp (by simpa using h))
    simp only [NumericOp.exact, if_neg hne]
    by_cases hover : l = BitVec.intMin 64 ∧ r = -1
    · -- The quotient is 2 ^ 63.
      have hguard : emitSignedDivOverflowGuard l r = .error (.panic Checked.integerOverflow) :=
        if_pos hover
      rw [hguard]
      refine .of_panic fun n hn => ?_
      obtain ⟨rfl, rfl⟩ := hover
      rw [← Option.some.inj hn]
      decide
    · have hguard : emitSignedDivOverflowGuard l r = .ok () := if_neg hover
      have hdiv : sdiv l r = .ok (l.sdiv r) := if_neg (not_or.mpr ⟨hzero, hover⟩)
      rw [hguard]
      show Yields (sdiv l r) _
      rw [hdiv]
      exact .of_ok (BitVec.toInt_sdiv_of_ne_or_ne l r (not_and_or.mp hover))

/-- A remainder by -1 is that by 1, at any width. -/
theorem emitSafeSRem_eq {w : ℕ} (hw : 1 < w) {l r : BitVec w} (hzero : r ≠ 0) :
    ∃ v, emitSafeSRem l r = .ok v ∧ v.toInt = l.toInt.tmod r.toInt := by
  have hone : (1 : BitVec w).toInt = 1 := BitVec.toInt_one hw
  have hminus : (-1 : BitVec w).toInt = -1 := by
    have h := BitVec.toInt_allOnes (w := w)
    rwa [← BitVec.neg_one_eq_allOnes, if_pos (by omega)] at h
  by_cases hneg : r = -1
  · have hok : ¬ ((1 : BitVec w) = 0 ∨ l = BitVec.intMin w ∧ (1 : BitVec w) = -1) := by
      rintro (h | ⟨-, h⟩)
      · have := congrArg BitVec.toInt h
        rw [hone] at this
        simp at this
      · have := congrArg BitVec.toInt h
        rw [hone, hminus] at this
        omega
    have hrem : emitSafeSRem l r = .ok (l.srem 1) := by
      unfold emitSafeSRem srem
      rw [if_pos hneg]
      exact if_neg hok
    refine ⟨_, hrem, ?_⟩
    rw [BitVec.toInt_srem, hneg, hone, hminus, Int.tmod_neg]
  · have hok : ¬ (r = 0 ∨ l = BitVec.intMin w ∧ r = -1) := by
      rintro (h | ⟨-, h⟩)
      · exact hzero h
      · exact hneg h
    have hrem : emitSafeSRem l r = .ok (l.srem r) := by
      unfold emitSafeSRem srem
      rw [if_neg hneg]
      exact if_neg hok
    exact ⟨_, hrem, BitVec.toInt_srem l r⟩

theorem yields_modulo (text : String) (l r : BitVec 64) :
    Yields (modulo text l r) (NumericOp.exact .mod l.toInt r.toInt) := by
  unfold modulo
  split
  case isTrue hzero =>
    refine .of_panic fun n hn => ?_
    simp [NumericOp.exact, hzero] at hn
  case isFalse hzero =>
    have hne : r.toInt ≠ 0 := fun h => hzero (BitVec.toInt_inj.mp (by simpa using h))
    simp only [NumericOp.exact, if_neg hne]
    obtain ⟨v, hrem, hv⟩ := emitSafeSRem_eq (by norm_num) (l := l) hzero
    rw [hrem]
    exact .of_ok hv

/-- The amount is in range iff the test lets it pass. -/
theorem amtBad_iff (r : BitVec 64) : amtBad r = true ↔ ¬ (0 ≤ r.toInt ∧ r.toInt < 64) := by
  simp [amtBad, BitVec.slt, BitVec.sle]
  omega

theorem toNat_of_not_amtBad {r : BitVec 64} (h : 0 ≤ r.toInt ∧ r.toInt < 64) :
    r.toInt.toNat = r.toNat ∧ r.toNat < 64 := by
  have := BitVec.toInt_eq_toNat_cond r
  split at this <;> omega

theorem yields_emitCheckedShl (l r : BitVec 64) :
    Yields (emitCheckedShl l r) (BitwiseOp.exact .lshift l.toInt r.toInt) := by
  unfold emitCheckedShl
  split
  case isTrue hbad =>
    refine .of_panic fun n hn => ?_
    simp [BitwiseOp.exact, (amtBad_iff r).mp hbad] at hn
  case isFalse hgood =>
    have hrange : 0 ≤ r.toInt ∧ r.toInt < 64 := by rwa [amtBad_iff, not_not] at hgood
    obtain ⟨hnat, hlt⟩ := toNat_of_not_amtBad hrange
    simp only [BitwiseOp.exact, if_pos hrange, hnat, shl, ashr, if_neg (not_le.mpr hlt)]
    show Yields (if (l <<< r.toNat).sshiftRight r.toNat ≠ l then _ else _) _
    split
    case isTrue hlost =>
      refine .of_panic fun n hn hfits => hlost ?_
      rw [sshiftRight_shiftLeft_iff hlt, Option.some.inj hn]
      exact hfits
    case isFalse hkept =>
      refine .of_ok ?_
      rw [not_not, sshiftRight_shiftLeft_iff hlt] at hkept
      rw [shiftLeft_eq_ofInt, FitsSigned.toInt_ofInt (by norm_num) hkept]

theorem yields_emitCheckedShr (l r : BitVec 64) :
    Yields (emitCheckedShr l r) (BitwiseOp.exact .rshift l.toInt r.toInt) := by
  unfold emitCheckedShr
  split
  case isTrue hbad =>
    refine .of_panic fun n hn => ?_
    simp [BitwiseOp.exact, (amtBad_iff r).mp hbad] at hn
  case isFalse hgood =>
    have hrange : 0 ≤ r.toInt ∧ r.toInt < 64 := by rwa [amtBad_iff, not_not] at hgood
    obtain ⟨hnat, hlt⟩ := toNat_of_not_amtBad hrange
    simp only [BitwiseOp.exact, if_pos hrange, hnat, ashr, if_neg (not_le.mpr hlt)]
    refine .of_ok ?_
    rw [BitVec.toInt_sshiftRight, Int.shiftRight_eq_div_pow]
    push_cast
    rfl

/-! ### The nodes are exact -/

theorem Operand.toInt_castToInt (a : Operand) : a.castToInt.toInt = a.toInt := by
  cases a with
  | int v => rfl
  | int32 v => exact BitVec.toInt_signExtend_of_le (by norm_num)

/-- What is emitted for an operator on numbers leaves in one way, the exact one. -/
theorem NumericOp.emit_exact (op : NumericOp) (texts : ZeroTexts) (l r : BitVec 64) :
    ∃ res, op.emit texts l r res ∧ (∀ res', op.emit texts l r res' → res' = res) ∧
      Yields res (op.exact l.toInt r.toInt) := by
  cases op with
  | add => exact ⟨_, rfl, fun _ h => h, yields_ofChecked fun _ => emitCheckedIntArith_eq_ok⟩
  | sub => exact ⟨_, rfl, fun _ h => h, yields_ofChecked fun _ => emitCheckedIntArith_eq_ok⟩
  | mul => exact ⟨_, rfl, fun _ h => h, yields_ofChecked fun _ => emitCheckedIntArith_eq_ok⟩
  | div => exact ⟨_, rfl, fun _ h => h, yields_division _ l r⟩
  | mod => exact ⟨_, rfl, fun _ h => h, yields_modulo _ l r⟩
  | pow =>
    have hunique : ∀ {c}, emitCheckedIntPow l r c → ∀ res', NumericOp.emit texts .pow l r res' →
        res' = ofChecked c := by
      rintro c hc res' ⟨c', hc', rfl⟩
      rw [IntPow.Reaches.halted_unique hc' hc]
    rcases lt_or_ge r.toInt 0 with hneg | hpos
    · have hrun := @IntPow.emitCheckedIntPow_of_neg l r hneg
      refine ⟨_, ⟨_, hrun, rfl⟩, hunique hrun, .of_panic fun n hn => ?_⟩
      simp [NumericOp.exact, hneg] at hn
    · have hrun := @IntPow.emitCheckedIntPow_of_nonneg l r hpos
      refine ⟨_, ⟨_, hrun, rfl⟩, hunique hrun, ?_⟩
      have hnat : r.toInt.toNat = r.toNat := by
        have := BitVec.toInt_eq_toNat_cond r
        split at this <;> omega
      simp only [NumericOp.exact, if_neg (not_lt.mpr hpos), hnat]
      exact yields_ofChecked fun _ => IntPow.exactly_eq_ok

theorem BitwiseOp.emit_exact (op : BitwiseOp) (l r : BitVec 64) :
    Yields (op.emit l r) (op.exact l.toInt r.toInt) := by
  cases op with
  | xor => exact .of_ok (toInt_xor l r)
  | and => exact .of_ok (toInt_and l r)
  | or => exact .of_ok (toInt_or l r)
  | lshift => exact yields_emitCheckedShl l r
  | rshift => exact yields_emitCheckedShr l r

theorem BinaryNode.codegen_exact (node : BinaryNode) :
    ∃ res, node.codegen res ∧ (∀ res', node.codegen res' → res' = res) ∧
      Yields res node.exact := by
  cases node with
  | numeric op l r =>
    have h := op.emit_exact ⟨"Division by zero", "Modulo by zero"⟩ l.castToInt r.castToInt
    rwa [l.toInt_castToInt, r.toInt_castToInt] at h
  | bitwise op l r => exact ⟨_, rfl, fun _ h => h, op.emit_exact l r⟩

/-- Two ways to leave code that differ in the text of a panic at most. -/
def SameButText (res res' : Emitted (BitVec 64)) : Prop :=
  (∀ v, res = .ok v ↔ res' = .ok v) ∧
    ((∃ text, res = .error (.panic text)) ↔ ∃ text, res' = .error (.panic text))

theorem Yields.sameButText {res res' : Emitted (BitVec 64)} {exact : Option ℤ}
    (h : Yields res exact) (h' : Yields res' exact) : SameButText res res' :=
  ⟨fun v => (h.ok_iff v).trans (h'.ok_iff v).symm, h.panic_iff.trans h'.panic_iff.symm⟩

section Places

variable {Place : Type} [DecidableEq Place]

theorem CompoundNode.codegen_exact (node : CompoundNode) (ptr : Place) (mem : Place → BitVec 64) :
    ∃ res : Emitted (BitVec 64), Yields res (node.binary (mem ptr)).exact ∧
      node.codegen ptr mem (res.map fun v => (v, store ptr mem v)) ∧
      ∀ res', node.codegen ptr mem res' → res' = res.map fun v => (v, store ptr mem v) := by
  cases node with
  | numeric op r =>
    obtain ⟨res, hrun, hunique, hyields⟩ := op.emit_exact
      ⟨"Division by zero in compound assignment", "Modulo by zero in compound assignment"⟩
      (mem ptr) r.castToInt
    rw [r.toInt_castToInt] at hyields
    refine ⟨res, hyields, ⟨res, hrun, rfl⟩, ?_⟩
    rintro res' ⟨result, hresult, rfl⟩
    rw [hunique result hresult]
  | bitwise op r =>
    refine ⟨_, op.emit_exact (mem ptr) r, ⟨_, rfl, rfl⟩, ?_⟩
    rintro res' ⟨result, rfl, rfl⟩
    rfl

theorem postfixCodegen_exact (isIncrement isPre : Bool) (ptr : Place) (mem : Place → BitVec 64) :
    ∃ res : Emitted (BitVec 64),
      Yields res (some ((mem ptr).toInt + if isIncrement then 1 else -1)) ∧
      postfixCodegen isIncrement isPre ptr mem =
        res.map fun v => (if isPre then v else mem ptr, store ptr mem v) := by
  refine ⟨_, yields_ofChecked fun v => emitCheckedIntArith_eq_ok.trans ?_, rfl⟩
  cases isIncrement <;> rfl

end Places

theorem unaryMinus_exact (operand : MinusOperand) :
    Yields (unaryMinus operand) (some (-operand.toInt)) := by
  cases operand with
  | literal n representable =>
    refine .of_ok (FitsSigned.toInt_ofInt (by norm_num) ⟨?_, ?_⟩)
    · have : (n : ℤ) ≤ 2 ^ 63 := by exact_mod_cast representable
      norm_num at this ⊢
      omega
    · norm_num
      omega
  | value v => exact yields_ofChecked fun _ => emitCheckedIntNegate_eq_ok

/-- Integer arithmetic is one semantics. A binary node, a compound assignment, `++` and `--` and a
unary minus each leave in one way: with the exact result of the operation, or in a panic where there
is none that 64 bits hold, where a negative exponent has no result. A compound assignment does what
its binary node does, and stores what it leaves. -/
theorem intOperators_exact {Place : Type} [DecidableEq Place] :
    (∀ node : BinaryNode, ∃ res, node.codegen res ∧ (∀ res', node.codegen res' → res' = res) ∧
      Yields res node.exact) ∧
    (∀ (node : CompoundNode) (ptr : Place) (mem : Place → BitVec 64),
      ∃ res : Emitted (BitVec 64), Yields res (node.binary (mem ptr)).exact ∧
        (∀ res', (node.binary (mem ptr)).codegen res' → SameButText res res') ∧
        node.codegen ptr mem (res.map fun v => (v, Function.update mem ptr v)) ∧
        ∀ res', node.codegen ptr mem res' → res' = res.map fun v => (v, Function.update mem ptr v)) ∧
    (∀ (isIncrement isPre : Bool) (ptr : Place) (mem : Place → BitVec 64),
      ∃ res : Emitted (BitVec 64),
        Yields res (some ((mem ptr).toInt + if isIncrement then 1 else -1)) ∧
        postfixCodegen isIncrement isPre ptr mem =
          res.map fun v => (if isPre then v else mem ptr, Function.update mem ptr v)) ∧
    ∀ operand : MinusOperand, Yields (unaryMinus operand) (some (-operand.toInt)) := by
  refine ⟨BinaryNode.codegen_exact, fun node ptr mem => ?_, postfixCodegen_exact,
    unaryMinus_exact⟩
  obtain ⟨res, hyields, hrun, hunique⟩ := node.codegen_exact ptr mem
  refine ⟨res, hyields, fun res' hres' => ?_, hrun, hunique⟩
  obtain ⟨binary, -, hbinary, hexact⟩ := (node.binary (mem ptr)).codegen_exact
  rw [hbinary res' hres']
  exact hyields.sameButText hexact

/-- A power that is a number of 64 bits is what `**` leaves, a negative exponent included. -/
def PowersExact : Prop :=
  ∀ (x y : BitVec 64) (n : ℤ), (n : ℚ) = (x.toInt : ℚ) ^ y.toInt → FitsSigned 64 n →
    ∀ res, BinaryNode.codegen (.numeric .pow (.int x) (.int y)) res → res = .ok (BitVec.ofInt 64 n)

/-- `1 ** -1` is 1, but panics. -/
theorem not_powersExact : ¬ PowersExact := by
  intro h
  have hrun : BinaryNode.codegen (.numeric .pow (.int 1) (.int (-1)))
      (ofChecked (.error IntPow.negativeExponent)) :=
    ⟨_, IntPow.emitCheckedIntPow_of_neg (by decide), rfl⟩
  have hone : ((1 : ℤ) : ℚ) = ((1 : BitVec 64).toInt : ℚ) ^ (-1 : BitVec 64).toInt := by
    rw [show (1 : BitVec 64).toInt = 1 by decide]
    simp
  have heq := h 1 (-1) 1 hone (by decide) _ hrun
  cases heq

end IntOperators

end Codegen

end TurfLang
