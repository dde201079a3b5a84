import TurfLang.Codegen.CheckedInt

/-!
# `src/codegen/CodegenCore.cpp`: `EmitCheckedIntPow`

The blocks that `base ** exp` is compiled to, as a machine whose states are the blocks with the
values that are live in them: exponentiation by squaring, each product checked. The loop keeps
`res * base ^ exp`, and the base is squared only while the exponent has bits left, so what a square
overflows by the result overflows by too.
-/

namespace TurfLang

namespace Codegen

namespace IntPow

/-- The block about to run, with the values it reads. In `halted` the code has left by `ipow.done`
or by a panic. -/
inductive State
  | entry (base exp : BitVec 64)
  | negexp
  | loop (res base exp : BitVec 64)
  | bit (res base exp : BitVec 64)
  | odd (res base exp : BitVec 64)
  | next (res2 base exp : BitVec 64)
  | square (res2 base exp2 : BitVec 64)
  | done (result : BitVec 64)
  | halted (result : Checked (BitVec 64))
  deriving DecidableEq

def negativeExponent : String := "Negative exponent in integer '**'"

/-- One block. -/
def step : State → State
  | .entry base exp => if exp.slt 0 then .negexp else .loop 1 base exp
  | .negexp => .halted (.error negativeExponent)
  | .loop res base exp => if exp = 0 then .done res else .bit res base exp
  | .bit res base exp => if exp &&& 1 ≠ 0 then .odd res base exp else .next res base exp
  | .odd res base exp =>
    match emitCheckedIntArith .mul res base with
    | .error text => .halted (.error text)
    | .ok mul => .next mul base exp
  | .next res2 base exp =>
    let exp2 := exp >>> 1
    if exp2 = 0 then .done res2 else .square res2 base exp2
  | .square res2 base exp2 =>
    match emitCheckedIntArith .mul base base with
    | .error text => .halted (.error text)
    | .ok sq => .loop res2 sq exp2
  | .done result => .halted (.ok result)
  | .halted result => .halted result

/-- The code comes from `s` to `t`. -/
def Reaches (s t : State) : Prop := ∃ n, step^[n] s = t

namespace Reaches

theorem refl (s : State) : Reaches s s := ⟨0, rfl⟩

/-- One block, then the rest. -/
theorem head {s s' t : State} (h : step s = s') (ht : Reaches s' t) : Reaches s t := by
  obtain ⟨n, hn⟩ := ht
  exact ⟨n + 1, by rw [Function.iterate_succ_apply, h, hn]⟩

end Reaches

@[simp] theorem iterate_halted (result : Checked (BitVec 64)) (n : ℕ) :
    step^[n] (.halted result) = .halted result :=
  Function.iterate_fixed rfl n

/-- The code leaves in one way only. -/
theorem Reaches.halted_unique {s : State} {r r' : Checked (BitVec 64)}
    (h : Reaches s (.halted r)) (h' : Reaches s (.halted r')) : r = r' := by
  obtain ⟨m, hm⟩ := h
  obtain ⟨n, hn⟩ := h'
  have heq : State.halted r = .halted r' := by
    rw [← iterate_halted r n, ← hm, ← Function.iterate_add_apply, Nat.add_comm,
      Function.iterate_add_apply, hn, iterate_halted]
  injection heq

/-- The exact result, or the panic when 64 bits do not hold it. -/
def exactly (n : ℤ) : Checked (BitVec 64) :=
  if FitsSigned 64 n then .ok (BitVec.ofInt 64 n) else .error Checked.integerOverflow

theorem exactly_toInt (x : BitVec 64) : exactly x.toInt = .ok x := by
  rw [exactly, if_pos (FitsSigned.toInt (by norm_num) x), BitVec.ofInt_toInt]

theorem exactly_of_not_fits {n : ℤ} (h : ¬ FitsSigned 64 n) :
    exactly n = .error Checked.integerOverflow := if_neg h

theorem exactly_eq_ok {n : ℤ} {v : BitVec 64} : exactly n = .ok v ↔ v.toInt = n := by
  unfold exactly
  split
  case isTrue h =>
    rw [Except.ok.injEq, ← BitVec.toInt_inj, FitsSigned.toInt_ofInt (by norm_num) h, eq_comm]
  case isFalse h =>
    refine iff_of_false (by simp) fun heq => h ?_
    rw [← heq]
    exact FitsSigned.toInt (by norm_num) v

/-! ### The products that overflow -/

/-- A product that does not fit does not fit either once it is multiplied by a square other than
zero. -/
theorem not_fits_mul_sq {a b : ℤ} (ha : ¬ FitsSigned 64 a) (hb : b ≠ 0) :
    ¬ FitsSigned 64 (a * (b * b)) := by
  have hsq : 1 ≤ b * b := by nlinarith [mul_self_pos.2 hb]
  rintro ⟨hlo, hhi⟩
  refine ha ⟨?_, ?_⟩
  · by_contra hlt
    nlinarith
  · by_contra hge
    nlinarith

/-- No number has `2 ^ 63` as its square. -/
theorem mul_self_ne (b : ℤ) : b * b ≠ 2 ^ 63 := by
  intro h
  rcases le_or_gt b.natAbs 3037000499 with hle | hgt
  · have hsq : b.natAbs * b.natAbs ≤ 3037000499 * 3037000499 := Nat.mul_le_mul hle hle
    have heq : ((b.natAbs * b.natAbs : ℕ) : ℤ) = 2 ^ 63 := by rw [Int.natAbs_mul_self, h]
    omega
  · have hsq : 3037000500 * 3037000500 ≤ b.natAbs * b.natAbs := Nat.mul_le_mul hgt hgt
    have heq : ((b.natAbs * b.natAbs : ℕ) : ℤ) = 2 ^ 63 := by rw [Int.natAbs_mul_self, h]
    omega

/-- A square that does not fit leaves no product with one of its powers that fits. -/
theorem not_fits_mul_pow {a b : ℤ} {n : ℕ} (ha : a ≠ 0) (hn : n ≠ 0)
    (hb : ¬ FitsSigned 64 (b * b)) : ¬ FitsSigned 64 (a * (b * b) ^ n) := by
  have hgt : 2 ^ 63 < b * b := by
    have hlo : -2 ^ (64 - 1) ≤ b * b := le_trans (by norm_num) (mul_self_nonneg b)
    exact lt_of_le_of_ne (not_lt.1 fun hlt => hb ⟨hlo, hlt⟩) (mul_self_ne b).symm
  have hpow : b * b ≤ (b * b) ^ n := le_self_pow₀ (by linarith) hn
  rintro ⟨hlo, hhi⟩
  norm_num at hlo hhi
  rcases lt_or_gt_of_ne ha with hneg | hpos
  · nlinarith
  · nlinarith

/-! ### One round of the loop -/

attribute [local simp] step

/-- The exponent as the number of times the base is still to be taken. -/
theorem toNat_shift (e : BitVec 64) : (e >>> 1).toNat = e.toNat / 2 := by
  rw [BitVec.toNat_ushiftRight, Nat.shiftRight_eq_div_pow, pow_one]

theorem odd_iff (e : BitVec 64) : e &&& 1 ≠ 0 ↔ e.toNat % 2 = 1 := by
  rw [ne_eq, ← BitVec.toNat_inj, BitVec.toNat_and]
  have hone : (1 : BitVec 64).toNat = 1 := rfl
  have hzero : (0 : BitVec 64).toNat = 0 := rfl
  rw [hone, hzero, Nat.and_one_is_mod]
  omega

theorem toNat_ne_zero {e : BitVec 64} (h : e ≠ 0) : e.toNat ≠ 0 :=
  fun h0 => h (BitVec.toNat_inj.1 h0)

/-- From `next` on: the bit is done with, and what is left is the square to the power of the other
bits. -/
theorem reaches_of_next {res2 base exp : BitVec 64} (hzero : res2.toInt = 0 → base.toInt = 0)
    (hloop : ∀ sq : BitVec 64, (res2.toInt = 0 → sq.toInt = 0) →
      Reaches (.loop res2 sq (exp >>> 1))
        (.halted (exactly (res2.toInt * sq.toInt ^ (exp >>> 1).toNat)))) :
    Reaches (.next res2 base exp)
      (.halted (exactly (res2.toInt * (base.toInt * base.toInt) ^ (exp >>> 1).toNat))) := by
  by_cases hlast : exp >>> 1 = 0
  · have hdone : step (.next res2 base exp) = .done res2 := by simp [hlast]
    refine .head hdone (.head rfl ?_)
    have hzero' : (exp >>> 1).toNat = 0 := by rw [hlast]; rfl
    rw [hzero', pow_zero, mul_one, exactly_toInt]
    exact .refl _
  · have hsquare : step (.next res2 base exp) = .square res2 base (exp >>> 1) := by
      simp only [step, if_neg hlast]
    refine .head hsquare ?_
    cases hsq : emitCheckedIntArith .mul base base with
    | error text =>
      obtain ⟨rfl, hno⟩ := emitCheckedIntArith_eq_error.1 hsq
      have hne : res2.toInt ≠ 0 := by
        intro h0
        refine hno ?_
        rw [ArithOp.exact, hzero h0]
        decide
      rw [exactly_of_not_fits (not_fits_mul_pow hne (toNat_ne_zero hlast) hno)]
      exact .head (by simp [hsq]) (.refl _)
    | ok sq =>
      have hval : sq.toInt = base.toInt * base.toInt := emitCheckedIntArith_eq_ok.1 hsq
      have hzero' : res2.toInt = 0 → sq.toInt = 0 := by
        intro h0
        rw [hval, hzero h0, mul_zero]
      rw [← hval]
      exact .head (by simp [hsq]) (hloop sq hzero')

/-- What `loop` and the blocks after it compute is `res * base ^ exp`. By induction on the
exponent, which each round halves. The result so far is zero only where the base is, so no square
is taken for a result of zero. -/
theorem reaches_of_loop (res base exp : BitVec 64) (hzero : res.toInt = 0 → base.toInt = 0) :
    Reaches (.loop res base exp) (.halted (exactly (res.toInt * base.toInt ^ exp.toNat))) := by
  induction hn : exp.toNat using Nat.strong_induction_on generalizing res base exp with
  | _ n ih =>
    by_cases hexp : exp = 0
    · have hdone : step (.loop res base exp) = .done res := by simp [hexp]
      refine .head hdone (.head rfl ?_)
      have hn0 : n = 0 := by rw [← hn, hexp]; rfl
      rw [hn0, pow_zero, mul_one, exactly_toInt]
      exact .refl _
    · have hbit : step (.loop res base exp) = .bit res base exp := by
        simp only [step, if_neg hexp]
      refine .head hbit ?_
      have hpos : n ≠ 0 := hn ▸ toNat_ne_zero hexp
      have hrest : ∀ r : BitVec 64, ∀ sq : BitVec 64, (r.toInt = 0 → sq.toInt = 0) →
          Reaches (.loop r sq (exp >>> 1))
            (.halted (exactly (r.toInt * sq.toInt ^ (exp >>> 1).toNat))) := by
        intro r sq hsq
        exact ih _ (by rw [toNat_shift]; omega) r sq (exp >>> 1) hsq rfl
      by_cases hodd : exp &&& 1 ≠ 0
      · have hstep : step (.bit res base exp) = .odd res base exp := by
          simp only [step, if_pos hodd]
        refine .head hstep ?_
        have hsplit : base.toInt ^ n =
            base.toInt * (base.toInt * base.toInt) ^ (exp >>> 1).toNat := by
          rw [← pow_two, ← pow_mul, ← pow_succ', toNat_shift]
          congr 1
          have := (odd_iff exp).1 hodd
          omega
        rw [hsplit, ← mul_assoc]
        cases hmul : emitCheckedIntArith .mul res base with
        | error text =>
          obtain ⟨rfl, hno⟩ := emitCheckedIntArith_eq_error.1 hmul
          have hne : base.toInt ≠ 0 := by
            intro h0
            refine hno ?_
            rw [ArithOp.exact, h0, mul_zero]
            decide
          have hno' : ¬ FitsSigned 64 (res.toInt * base.toInt) := hno
          rw [mul_pow, exactly_of_not_fits (not_fits_mul_sq hno' (pow_ne_zero _ hne))]
          exact .head (by simp [hmul]) (.refl _)
        | ok mul =>
          have hval : mul.toInt = res.toInt * base.toInt := emitCheckedIntArith_eq_ok.1 hmul
          have hzero' : mul.toInt = 0 → base.toInt = 0 := by
            rw [hval, mul_eq_zero]
            rintro (h0 | h0)
            · exact hzero h0
            · exact h0
          rw [← hval]
          exact .head (by simp [hmul]) (reaches_of_next hzero' (hrest mul))
      · have hstep : step (.bit res base exp) = .next res base exp := by
          simp only [step, if_neg hodd]
        have hsplit : base.toInt ^ n =
            (base.toInt * base.toInt) ^ (exp >>> 1).toNat := by
          rw [← pow_two, ← pow_mul, toNat_shift]
          congr 1
          have := (odd_iff exp).not.1 hodd
          omega
        rw [hsplit]
        exact .head hstep (reaches_of_next hzero (hrest res))

end IntPow

/-- The code that `EmitCheckedIntPow` emits for `base ** exp` leaves in `r`. -/
def emitCheckedIntPow (base exp : BitVec 64) (r : Checked (BitVec 64)) : Prop :=
  IntPow.Reaches (.entry base exp) (.halted r)

namespace IntPow

theorem emitCheckedIntPow_of_neg {base exp : BitVec 64} (h : exp.toInt < 0) :
    emitCheckedIntPow base exp (.error negativeExponent) := by
  have hneg : exp.slt 0 = true := by simpa [BitVec.slt] using h
  have hstep : step (.entry base exp) = .negexp := by simp only [step, if_pos hneg]
  exact .head hstep (.head rfl (.refl _))

theorem emitCheckedIntPow_of_nonneg {base exp : BitVec 64} (h : 0 ≤ exp.toInt) :
    emitCheckedIntPow base exp (exactly (base.toInt ^ exp.toNat)) := by
  have hneg : ¬ exp.slt 0 = true := by simpa [BitVec.slt] using h
  have hstep : step (.entry base exp) = .loop 1 base exp := by simp only [step, if_neg hneg]
  have hone : (1 : BitVec 64).toInt = 1 := rfl
  have hloop := reaches_of_loop 1 base exp (by simp)
  rw [hone, one_mul] at hloop
  exact .head hstep hloop

/-- The powers of -1, 0 and 1 fit, whatever the exponent. -/
theorem fits_pow_of_abs_le_one {b : ℤ} (h : |b| ≤ 1) (n : ℕ) : FitsSigned 64 (b ^ n) := by
  have hle : |b ^ n| ≤ 1 := by
    rw [abs_pow]
    exact pow_le_one₀ (abs_nonneg b) h
  obtain ⟨hlo, hhi⟩ := abs_le.1 hle
  exact ⟨by norm_num; linarith, by norm_num; linarith⟩

/-- Integer power leaves in one way, and which is told by the exact power: by the panic of a
negative exponent, by that of an overflow when 64 bits do not hold the power, and else with it. So
no exponent is too large for the bases -1, 0 and 1. -/
theorem emitCheckedIntPow_exact (base exp : BitVec 64) :
    ∃ r, emitCheckedIntPow base exp r ∧ (∀ r', emitCheckedIntPow base exp r' → r' = r) ∧
      (r = .error negativeExponent ↔ exp.toInt < 0) ∧
      (r = .error Checked.integerOverflow ↔
        0 ≤ exp.toInt ∧ ¬ FitsSigned 64 (base.toInt ^ exp.toNat)) ∧
      (∀ v, r = .ok v ↔ 0 ≤ exp.toInt ∧ v.toInt = base.toInt ^ exp.toNat) ∧
      (|base.toInt| ≤ 1 → 0 ≤ exp.toInt → ∃ v, r = .ok v) := by
  have hne : negativeExponent ≠ Checked.integerOverflow := by decide
  rcases lt_or_ge exp.toInt 0 with hneg | hpos
  · refine ⟨_, emitCheckedIntPow_of_neg hneg, fun r' h => ?_, ?_, ?_, fun v => ?_, ?_⟩
    · exact Reaches.halted_unique h (emitCheckedIntPow_of_neg hneg)
    · simp [hneg]
    · simp [hneg, hne]
    · simp [hneg]
    · exact fun _ h => absurd h (not_le.2 hneg)
  · refine ⟨_, emitCheckedIntPow_of_nonneg hpos, fun r' h => ?_, ?_, ?_, fun v => ?_, ?_⟩
    · exact Reaches.halted_unique h (emitCheckedIntPow_of_nonneg hpos)
    · refine iff_of_false ?_ (not_lt.2 hpos)
      unfold exactly
      split
      · simp
      · simp [hne.symm]
    · unfold exactly
      split
      case isTrue hfits => simp [hfits]
      case isFalse hno => simp [hno, hpos]
    · simp [exactly_eq_ok, hpos]
    · exact fun hbase _ => ⟨_, if_pos (fits_pow_of_abs_le_one hbase _)⟩

-- `(-2) ** 63` is the least number and does not trap.
example : emitCheckedIntPow (-2) 63 (.ok (BitVec.intMin 64)) := ⟨33, by decide⟩

end IntPow

end Codegen

end TurfLang
