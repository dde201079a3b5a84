import TurfLang.Codegen.IntOperators
import Mathlib.Data.BitVec

/-!
# `lib/std/core/math.tr`: wrapping arithmetic

The functions that compute modulo `2 ^ 64`. The first four are the plain instructions that
`EmitLoweredFunction` puts in their place; the others run the checked operators of the language, so
each of them has to stay clear of what these trap on. `loc` is the place of the call.
-/

namespace TurfLang

namespace Math

open Codegen Codegen.IntOperators

/-! ### The instructions -/

def wrappingAdd (a b : BitVec 64) : BitVec 64 := a + b

def wrappingSub (a b : BitVec 64) : BitVec 64 := a - b

def wrappingMul (a b : BitVec 64) : BitVec 64 := a * b

def wrappingShl (a n : BitVec 64) : BitVec 64 := a <<< (n &&& 63).toNat

/-! ### What is built on them -/

/-- `wrapping_shr`. -/
def wrappingShr (a n : BitVec 64) : Emitted (BitVec 64) := emitCheckedShr a (n &&& 63)

/-- `wrapping_neg`. -/
def wrappingNeg (a : BitVec 64) : Emitted (BitVec 64) := .ok (wrappingSub 0 a)

/-- `wrapping_abs`. -/
def wrappingAbs (a : BitVec 64) : Emitted (BitVec 64) :=
  if a.slt 0 then wrappingNeg a else .ok a

/-- `wrapping_div`. -/
def wrappingDiv (loc : String) (a b : BitVec 64) : Emitted (BitVec 64) :=
  if b = 0 then .error (.panic (loc ++ ": math::wrapping_div: division by zero"))
  else if b = -1 then wrappingNeg a
  else division "Division by zero" a b

/-- `wrapping_rem`. -/
def wrappingRem (loc : String) (a b : BitVec 64) : Emitted (BitVec 64) :=
  if b = 0 then .error (.panic (loc ++ ": math::wrapping_rem: division by zero"))
  else if b = -1 then .ok 0
  else modulo "Modulo by zero" a b

section Shift

variable {e e' : BitVec 64}

theorem slt_zero_iff : BitVec.slt 0 e = true ↔ 0 < e.toInt := decide_eq_true_iff

theorem toNat_of_pos (h : BitVec.slt 0 e = true) : 0 < e.toNat ∧ e.toInt = e.toNat := by
  rw [slt_zero_iff] at h
  have := BitVec.toInt_eq_toNat_cond e
  split at this <;> omega

/-- The shift of a positive exponent by one place halves it. -/
theorem emitCheckedShr_one (h : BitVec.slt 0 e = true) :
    ∃ e', emitCheckedShr e 1 = .ok e' ∧ e'.toNat = e.toNat / 2 ∧ e'.toInt = e'.toNat := by
  obtain ⟨-, hint⟩ := toNat_of_pos h
  refine ⟨e.sshiftRight 1, rfl, ?_⟩
  have hshift : (e.sshiftRight 1).toInt = (e.toNat / 2 : ℕ) := by
    rw [BitVec.toInt_sshiftRight, Int.shiftRight_eq_div_pow, hint]
    rfl
  have := BitVec.toInt_eq_toNat_cond (e.sshiftRight 1)
  split at this <;> omega

theorem toNat_lt_of_shr (h : BitVec.slt 0 e = true) (hshr : emitCheckedShr e 1 = .ok e') :
    e'.toNat < e.toNat := by
  obtain ⟨e'', hok, hhalf, -⟩ := emitCheckedShr_one h
  obtain rfl : e'' = e' := Except.ok.inj (hok.symm.trans hshr)
  have := (toNat_of_pos h).1
  omega

end Shift

/-- The loop of `wrapping_pow`. -/
def powLoop (result b e : BitVec 64) : Emitted (BitVec 64) :=
  if _hpos : BitVec.slt 0 e then
    let result := if e &&& 1 = 1 then wrappingMul result b else result
    match _hshr : emitCheckedShr e 1 with
    | .ok e' => powLoop result (wrappingMul b b) e'
    | .error stop => .error stop
  else .ok result
termination_by e.toNat
decreasing_by exact toNat_lt_of_shr _hpos _hshr

/-- `wrapping_pow`. -/
def wrappingPow (loc : String) (base exp : BitVec 64) : Emitted (BitVec 64) :=
  if exp.slt 0 then .error (.panic (loc ++ ": math::wrapping_pow: negative exponent"))
  else powLoop 1 base exp

/-! ### Powers -/

section Pow

variable {e : BitVec 64}

/-- One round of the loop takes the lowest bit off the exponent. -/
theorem powLoop_step (result b : BitVec 64) (h : BitVec.slt 0 e = true) :
    ∃ e', e'.toNat = e.toNat / 2 ∧ e'.toInt = e'.toNat ∧
      powLoop result b e = powLoop (if e &&& 1 = 1 then result * b else result) (b * b) e' := by
  obtain ⟨e', hok, hhalf, hint⟩ := emitCheckedShr_one h
  refine ⟨e', hhalf, hint, ?_⟩
  rw [powLoop, dif_pos h]
  dsimp only
  split
  case h_1 e'' hshr =>
    obtain rfl : e' = e'' := Except.ok.inj (hok.symm.trans hshr)
    rfl
  case h_2 stop hshr => exact absurd (hok.symm.trans hshr) (by simp)

theorem and_one_eq_one (e : BitVec 64) : e &&& 1 = 1 ↔ e.toNat % 2 = 1 := by
  rw [← BitVec.toNat_inj, BitVec.toNat_and]
  have hone : (1 : BitVec 64).toNat = 1 := rfl
  rw [hone, Nat.and_one_is_mod]

/-- What is left of the loop is the power that the exponent still names. -/
theorem powLoop_eq (he : e.toInt = e.toNat) (result b : BitVec 64) :
    powLoop result b e = .ok (result * b ^ e.toNat) := by
  induction hn : e.toNat using Nat.strong_induction_on generalizing e result b with
  | _ n ih =>
    subst hn
    by_cases hpos : BitVec.slt 0 e = true
    · obtain ⟨e', hhalf, hint, hstep⟩ := powLoop_step result b hpos
      have hlt : e'.toNat < e.toNat := by
        have := (toNat_of_pos hpos).1
        omega
      rw [hstep, ih _ hlt hint _ _ rfl, hhalf]
      congr 1
      have hsplit : e.toNat = 2 * (e.toNat / 2) + e.toNat % 2 := (Nat.div_add_mod _ 2).symm
      by_cases hodd : e &&& 1 = 1
      · rw [if_pos hodd]
        rw [and_one_eq_one] at hodd
        conv_rhs => rw [hsplit, hodd, pow_succ, pow_mul, sq]
        rw [mul_assoc, mul_comm b]
      · rw [if_neg hodd]
        rw [and_one_eq_one] at hodd
        have heven : e.toNat % 2 = 0 := by omega
        conv_rhs => rw [hsplit, heven, add_zero, pow_mul, sq]
    · have hzero : e.toNat = 0 := by
        rw [slt_zero_iff] at hpos
        omega
      rw [powLoop, dif_neg hpos, hzero, pow_zero, mul_one]

theorem toInt_mul_modEq (x y : BitVec 64) : (x * y).toInt ≡ x.toInt * y.toInt [ZMOD 2 ^ 64] := by
  rw [BitVec.toInt_mul]
  exact Int.bmod_emod

theorem toInt_pow_modEq (x : BitVec 64) (n : ℕ) : (x ^ n).toInt ≡ x.toInt ^ n [ZMOD 2 ^ 64] := by
  induction n with
  | zero =>
    rw [pow_zero, pow_zero]
    rfl
  | succ n ih =>
    have hsucc : x ^ (n + 1) = x ^ n * x := pow_succ x n
    rw [hsucc, pow_succ x.toInt]
    exact (toInt_mul_modEq _ _).trans (ih.mul_right _)

end Pow

/-! ### Quotients -/

section Division

variable {a b : BitVec 64}

theorem wrappingDiv_of_ne (loc : String) (hzero : b ≠ 0) (hone : b ≠ -1) :
    ∃ q, wrappingDiv loc a b = .ok q ∧ q.toInt = a.toInt.tdiv b.toInt := by
  have hover : ¬ (a = BitVec.intMin 64 ∧ b = -1) := fun h => hone h.2
  have hguard : emitSignedDivOverflowGuard a b = .ok () := if_neg hover
  have hdiv : sdiv a b = .ok (a.sdiv b) := if_neg (not_or.mpr ⟨hzero, hover⟩)
  refine ⟨a.sdiv b, ?_, BitVec.toInt_sdiv_of_ne_or_ne a b (not_and_or.mp hover)⟩
  rw [wrappingDiv, if_neg hzero, if_neg hone, division, if_neg hzero, hguard]
  exact hdiv

theorem wrappingRem_of_ne (loc : String) (hzero : b ≠ 0) (hone : b ≠ -1) :
    ∃ r, wrappingRem loc a b = .ok r ∧ r.toInt = a.toInt.tmod b.toInt := by
  rw [wrappingRem, if_neg hzero, if_neg hone, modulo, if_neg hzero]
  exact emitSafeSRem_eq (by norm_num) hzero

/-- The remainder is what the quotient leaves, zero or of the sign of the number divided. -/
structure Divides (a b q r : BitVec 64) : Prop where
  recombine : wrappingAdd (wrappingMul q b) r = a
  sign : r = 0 ∨ r.toInt.sign = a.toInt.sign
  smaller : |r.toInt| < |b.toInt|

theorem divides_neg_one (a : BitVec 64) : Divides a (-1) (wrappingSub 0 a) 0 where
  recombine := by
    show (0 - a) * -1 + 0 = a
    ring
  sign := .inl rfl
  smaller := by decide

theorem divides_of_toInt {q r : BitVec 64} (hzero : b ≠ 0) (hq : q.toInt = a.toInt.tdiv b.toInt)
    (hr : r.toInt = a.toInt.tmod b.toInt) : Divides a b q r where
  recombine := by
    show q * b + r = a
    rw [← BitVec.ofInt_toInt (x := q), ← BitVec.ofInt_toInt (x := b), ← BitVec.ofInt_toInt (x := r),
      ← BitVec.ofInt_mul, ← BitVec.ofInt_add, hq, hr, mul_comm, Int.mul_tdiv_add_tmod,
      BitVec.ofInt_toInt]
  sign := by
    by_cases hdvd : b.toInt ∣ a.toInt
    · left
      rw [← BitVec.toInt_inj, hr]
      exact Int.tmod_eq_zero_of_dvd hdvd
    · right
      rw [hr, Int.sign_tmod, if_neg hdvd]
  smaller := by
    have hne : b.toInt ≠ 0 := fun h => hzero (BitVec.toInt_inj.mp h)
    rw [hr, Int.abs_eq_natAbs, Int.abs_eq_natAbs, Int.natAbs_tmod]
    exact_mod_cast Nat.mod_lt _ (Int.natAbs_pos.mpr hne)

end Division

/-! ### Every operand -/

/-- What the functions built on the instructions do for the given operands. -/
structure Wraps (loc : String) (a b n base exp : BitVec 64) : Prop where
  neg : ∃ v, wrappingNeg a = .ok v ∧ v.toInt ≡ -a.toInt [ZMOD 2 ^ 64]
  abs : ∃ v, wrappingAbs a = .ok v ∧ v.toInt ≡ |a.toInt| [ZMOD 2 ^ 64]
  shr : ∃ v, wrappingShr a n = .ok v ∧ v.toInt = a.toInt / 2 ^ (n.toNat % 64)
  div_zero : b = 0 →
    wrappingDiv loc a b = .error (.panic (loc ++ ": math::wrapping_div: division by zero"))
  rem_zero : b = 0 →
    wrappingRem loc a b = .error (.panic (loc ++ ": math::wrapping_rem: division by zero"))
  divides : b ≠ 0 → ∃ q r, wrappingDiv loc a b = .ok q ∧ wrappingRem loc a b = .ok r ∧
    Divides a b q r
  pow_neg : exp.toInt < 0 →
    wrappingPow loc base exp = .error (.panic (loc ++ ": math::wrapping_pow: negative exponent"))
  pow : 0 ≤ exp.toInt → ∃ v, wrappingPow loc base exp = .ok v ∧
    v.toInt ≡ base.toInt ^ exp.toInt.toNat [ZMOD 2 ^ 64]

section Wraps

variable (a n : BitVec 64)

theorem toInt_wrappingSub_zero : (wrappingSub 0 a).toInt ≡ -a.toInt [ZMOD 2 ^ 64] := by
  have hzero : (0 : BitVec 64).toInt = 0 := rfl
  rw [wrappingSub, BitVec.toInt_sub, hzero, zero_sub]
  exact Int.bmod_emod

theorem wrappingAbs_eq : ∃ v, wrappingAbs a = .ok v ∧ v.toInt ≡ |a.toInt| [ZMOD 2 ^ 64] := by
  by_cases hneg : a.slt 0 = true
  · have hlt : a.toInt < 0 := decide_eq_true_iff.mp hneg
    refine ⟨_, if_pos hneg, ?_⟩
    rw [abs_of_neg hlt]
    exact toInt_wrappingSub_zero a
  · have hle : 0 ≤ a.toInt := not_lt.mp fun h => hneg (decide_eq_true_iff.mpr h)
    refine ⟨_, if_neg hneg, ?_⟩
    rw [abs_of_nonneg hle]

/-- The amount is cut to one that the checked shift takes. -/
theorem wrappingShr_eq :
    ∃ v, wrappingShr a n = .ok v ∧ v.toInt = a.toInt / 2 ^ (n.toNat % 64) := by
  have hamount : (n &&& 63).toNat = n.toNat % 64 := by
    rw [BitVec.toNat_and]
    exact Nat.and_two_pow_sub_one_eq_mod n.toNat 6
  have hgood : ¬ amtBad (n &&& 63) = true := by
    rw [amtBad_iff, not_not, BitVec.toInt_eq_toNat_cond, hamount]
    split <;> omega
  refine ⟨a.sshiftRight (n.toNat % 64), ?_, ?_⟩
  · rw [wrappingShr, emitCheckedShr, if_neg hgood, ashr, hamount, if_neg (by omega)]
  · rw [BitVec.toInt_sshiftRight, Int.shiftRight_eq_div_pow]
    push_cast
    rfl

end Wraps

/-- Wrapping arithmetic is arithmetic modulo `2 ^ 64`; it ends in the panics it names and in no
other. -/
theorem wrapping_exact (loc : String) (a b n base exp : BitVec 64) :
    Wraps loc a b n base exp where
  neg := ⟨_, rfl, toInt_wrappingSub_zero a⟩
  abs := wrappingAbs_eq a
  shr := wrappingShr_eq a n
  div_zero h := if_pos h
  rem_zero h := if_pos h
  divides := by
    intro hzero
    by_cases hone : b = -1
    · subst hone
      exact ⟨_, 0, rfl, rfl, divides_neg_one a⟩
    · obtain ⟨q, hdiv, hq⟩ := wrappingDiv_of_ne (a := a) loc hzero hone
      obtain ⟨r, hrem, hr⟩ := wrappingRem_of_ne (a := a) loc hzero hone
      exact ⟨q, r, hdiv, hrem, divides_of_toInt hzero hq hr⟩
  pow_neg h := if_pos (decide_eq_true_iff.mpr h)
  pow := by
    intro hexp
    have hneg : ¬ exp.slt 0 = true := fun h => absurd (decide_eq_true_iff.mp h) (not_lt.mpr hexp)
    have hint : exp.toInt = exp.toNat := by
      have := BitVec.toInt_eq_toNat_cond exp
      split at this <;> omega
    refine ⟨1 * base ^ exp.toNat, (if_neg hneg).trans (powLoop_eq hint 1 base), ?_⟩
    rw [hint, Int.toNat_natCast, one_mul]
    exact toInt_pow_modEq base exp.toNat

end Math

end TurfLang
