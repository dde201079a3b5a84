import TurfLang.Codegen.IntOperators

/-!
# `lib/std/core/int.tr`: `gcd` and `lcm`

The functions with the checked operators they are compiled to. Euclid's loop keeps the divisor of
two numbers that are not negative, so only the negations before it can panic, and they panic at the
smallest `int` alone.
-/

namespace TurfLang

namespace StdInt

open Codegen Codegen.IntOperators

/-- `if x < 0 { x = 0 - x; }`. -/
def absolute (x : BitVec 64) : Emitted (BitVec 64) :=
  if x.slt 0 then ofChecked (emitCheckedIntArith .sub 0 x) else .ok x

/-- The remainder that a step of the loop computes is smaller than the divisor. -/
theorem modulo_lt {text : String} {x y r : BitVec 64} (h : modulo text x y = .ok r) :
    r.toInt.natAbs < y.toInt.natAbs := by
  have hexact := ((yields_modulo text x y).ok_iff r).mp h
  simp only [NumericOp.exact] at hexact
  split_ifs at hexact with hzero
  rw [← Option.some.inj hexact, Int.natAbs_tmod]
  exact Nat.mod_lt _ (Int.natAbs_pos.mpr hzero)

/-- `while y != 0 { mut t: int = y; y = x % y; x = t; }`. -/
def euclid (x y : BitVec 64) : Emitted (BitVec 64) :=
  if y = 0 then .ok x
  else
    match _h : modulo "Modulo by zero" x y with
    | .ok r => euclid y r
    | .error stop => .error stop
termination_by y.toInt.natAbs
decreasing_by exact modulo_lt ‹_›

/-- `gcd`. -/
def gcd (a b : BitVec 64) : Emitted (BitVec 64) := do
  let x ← absolute a
  let y ← absolute b
  euclid x y

/-- `lcm`. -/
def lcm (a b : BitVec 64) : Emitted (BitVec 64) :=
  if a = 0 ∨ b = 0 then .ok 0
  else do
    let g ← gcd a b
    let quotient ← division "Division by zero" a g
    let result ← ofChecked (emitCheckedIntArith .mul quotient b)
    absolute result

/-! ### What the functions promise -/

/-- A number is computed where 64 bits hold it, and the panic is that of an overflow elsewhere. -/
structure Exactly (res : Emitted (BitVec 64)) (n : ℤ) : Prop where
  ok_iff : ∀ v, res = .ok v ↔ v.toInt = n
  overflow_iff : res = .error (.panic Checked.integerOverflow) ↔ ¬ FitsSigned 64 n

/-- `gcd` is the greatest common divisor, and `lcm` the least common multiple. -/
structure PanicsOnlyWhenItMust (a b : BitVec 64) : Prop where
  gcd : Exactly (gcd a b) (Int.gcd a.toInt b.toInt)
  lcm : Exactly (lcm a b) (Int.lcm a.toInt b.toInt)

/-- The smallest `int` stands beside itself or 0 only. -/
def Representable (a b : BitVec 64) : Prop :=
  (a = BitVec.intMin 64 → b = 0 ∨ b = BitVec.intMin 64) ∧
    (b = BitVec.intMin 64 → a = 0 ∨ a = BitVec.intMin 64)

namespace Exactly

variable {res : Emitted (BitVec 64)} {n : ℤ}

theorem of_ok {v : BitVec 64} (h : v.toInt = n) : Exactly (.ok v) n where
  ok_iff v' := by rw [Except.ok.injEq, ← h, BitVec.toInt_inj, eq_comm]
  overflow_iff := iff_of_false (by simp) (not_not.mpr (h ▸ FitsSigned.toInt (by norm_num) v))

theorem of_overflow (h : ¬ FitsSigned 64 n) :
    Exactly (.error (.panic Checked.integerOverflow)) n where
  ok_iff v := iff_of_false (by simp) fun hv => h (hv ▸ FitsSigned.toInt (by norm_num) v)
  overflow_iff := iff_of_true rfl h

theorem cases (h : Exactly res n) :
    (∃ v, res = .ok v ∧ v.toInt = n) ∨
      (res = .error (.panic Checked.integerOverflow) ∧ ¬ FitsSigned 64 n) := by
  by_cases hfits : FitsSigned 64 n
  · have hv := FitsSigned.toInt_ofInt (w := 64) (by norm_num) hfits
    exact .inl ⟨_, (h.ok_iff _).mpr hv, hv⟩
  · exact .inr ⟨h.overflow_iff.mpr hfits, hfits⟩

end Exactly

theorem exactly_arith (op : ArithOp) (l r : BitVec 64) :
    Exactly (ofChecked (emitCheckedIntArith op l r)) (op.exact l.toInt r.toInt) := by
  by_cases hfits : FitsSigned 64 (op.exact l.toInt r.toInt)
  · have hv := ArithOp.toInt_wrapped hfits
    rw [emitCheckedIntArith_eq_ok.mpr hv]
    exact .of_ok hv
  · rw [emitCheckedIntArith_eq_error.mpr ⟨rfl, hfits⟩]
    exact .of_overflow hfits

theorem exactly_absolute (x : BitVec 64) : Exactly (absolute x) |x.toInt| := by
  have hzero : (0 : BitVec 64).toInt = 0 := rfl
  unfold absolute
  rw [BitVec.slt_eq_decide, hzero]
  split_ifs with hneg
  · have h := exactly_arith .sub 0 x
    simp only [ArithOp.exact, hzero, zero_sub] at h
    rwa [abs_of_neg (of_decide_eq_true hneg)]
  · exact .of_ok (abs_of_nonneg (by simpa using hneg)).symm

/-! ### Euclid's loop -/

theorem toInt_ne_zero {x : BitVec 64} (h : x ≠ 0) : x.toInt ≠ 0 := fun hx =>
  h (BitVec.toInt_inj.mp (by simpa using hx))

/-- The loop ends with the greatest common divisor, by induction on its rounds. -/
theorem euclid_eq {x y : BitVec 64} (hx : 0 ≤ x.toInt) (hy : 0 ≤ y.toInt) :
    ∃ v, euclid x y = .ok v ∧ v.toInt = Int.gcd x.toInt y.toInt := by
  fun_induction euclid x y with
  | case1 x =>
    refine ⟨x, rfl, ?_⟩
    have hzero : (0 : BitVec 64).toInt = 0 := rfl
    rw [hzero, Int.gcd_zero_right, Int.natAbs_of_nonneg hx]
  | case2 x y hne r h ih =>
    have hr := ((yields_modulo _ x y).ok_iff r).mp h
    simp only [NumericOp.exact, if_neg (toInt_ne_zero hne), Option.some.injEq] at hr
    rw [Int.tmod_eq_emod_of_nonneg hx] at hr
    obtain ⟨v, hv, hgcd⟩ := ih hy (hr ▸ Int.emod_nonneg _ (toInt_ne_zero hne))
    refine ⟨v, hv, ?_⟩
    rw [hgcd, ← hr, Int.gcd_comm, Int.gcd_emod]
  | case3 x y hne stop h =>
    obtain ⟨r, hr, -⟩ := emitSafeSRem_eq (by norm_num) (l := x) hne
    rw [modulo, if_neg hne, hr] at h
    cases h

/-! ### The smallest `int` -/

theorem eq_intMin_iff (x : BitVec 64) : x = BitVec.intMin 64 ↔ x.toInt = -2 ^ 63 := by
  rw [← BitVec.toInt_inj, BitVec.toInt_intMin]
  norm_num

theorem natAbs_lt {x : BitVec 64} (h : x ≠ BitVec.intMin 64) : x.toInt.natAbs < 2 ^ 63 := by
  obtain ⟨hlo, hhi⟩ := FitsSigned.toInt (by norm_num) x
  have hne := mt (eq_intMin_iff x).mpr h
  omega

theorem fitsSigned_natCast (n : ℕ) : FitsSigned 64 (n : ℤ) ↔ n < 2 ^ 63 := by
  unfold FitsSigned
  omega

theorem fitsSigned_of_abs {z : ℤ} (h : FitsSigned 64 |z|) : FitsSigned 64 z := by
  have hlo := neg_abs_le z
  have hhi := le_abs_self z
  unfold FitsSigned at h ⊢
  omega

theorem absolute_eq {x : BitVec 64} (h : x ≠ BitVec.intMin 64) :
    ∃ v, absolute x = .ok v ∧ v.toInt = |x.toInt| := by
  obtain hok | ⟨-, hno⟩ := (exactly_absolute x).cases
  · exact hok
  · rw [Int.abs_eq_natAbs, fitsSigned_natCast] at hno
    exact absurd (natAbs_lt h) hno

theorem absolute_intMin :
    absolute (BitVec.intMin 64) = .error (.panic Checked.integerOverflow) := by
  refine (exactly_absolute _).overflow_iff.mpr ?_
  rw [Int.abs_eq_natAbs, fitsSigned_natCast, (eq_intMin_iff _).mp rfl]
  decide

theorem gcd_eq {a b : BitVec 64} (ha : a ≠ BitVec.intMin 64) (hb : b ≠ BitVec.intMin 64) :
    ∃ v, gcd a b = .ok v ∧ v.toInt = Int.gcd a.toInt b.toInt := by
  obtain ⟨x, hx, hxa⟩ := absolute_eq ha
  obtain ⟨y, hy, hyb⟩ := absolute_eq hb
  obtain ⟨v, hv, hgcd⟩ := euclid_eq (x := x) (y := y) (hxa ▸ abs_nonneg _) (hyb ▸ abs_nonneg _)
  refine ⟨v, ?_, ?_⟩
  · rw [gcd, hx, hy]
    exact hv
  · rw [hgcd, hxa, hyb, Int.gcd, Int.gcd, Int.natAbs_abs, Int.natAbs_abs]

theorem gcd_intMin {a b : BitVec 64} (h : a = BitVec.intMin 64 ∨ b = BitVec.intMin 64) :
    gcd a b = .error (.panic Checked.integerOverflow) := by
  obtain rfl | rfl := h
  · rw [gcd, absolute_intMin]
    rfl
  · obtain ⟨x, hx, -⟩ | ⟨hx, -⟩ := (exactly_absolute a).cases
    · rw [gcd, hx, absolute_intMin]
      rfl
    · rw [gcd, hx]
      rfl

/-! ### `gcd` -/

/-- A divisor of a number other than 0 and the smallest one fits. -/
theorem fitsSigned_gcd {a b : BitVec 64} (hzero : b ≠ 0) (hmin : b ≠ BitVec.intMin 64) :
    FitsSigned 64 (Int.gcd a.toInt b.toInt) := by
  rw [fitsSigned_natCast]
  calc Int.gcd a.toInt b.toInt ≤ b.toInt.natAbs :=
        Nat.gcd_le_right _ (Int.natAbs_pos.mpr (toInt_ne_zero hzero))
    _ < 2 ^ 63 := natAbs_lt hmin

theorem exactly_gcd_iff (a b : BitVec 64) :
    Exactly (gcd a b) (Int.gcd a.toInt b.toInt) ↔ Representable a b := by
  by_cases hmin : a = BitVec.intMin 64 ∨ b = BitVec.intMin 64
  · rw [gcd_intMin hmin]
    constructor
    · intro h
      have hno := h.overflow_iff.mp rfl
      refine ⟨fun _ => ?_, fun _ => ?_⟩
      · by_contra hb
        rw [not_or] at hb
        exact hno (fitsSigned_gcd hb.1 hb.2)
      · by_contra ha
        rw [not_or] at ha
        exact hno (Int.gcd_comm a.toInt b.toInt ▸ fitsSigned_gcd ha.1 ha.2)
    · intro h
      refine .of_overflow ?_
      have hmin' : (BitVec.intMin 64).toInt = -2 ^ 63 := (eq_intMin_iff _).mp rfl
      obtain rfl | rfl := hmin
      · obtain rfl | rfl := h.1 rfl <;> rw [fitsSigned_natCast, hmin'] <;> decide
      · obtain rfl | rfl := h.2 rfl <;> rw [fitsSigned_natCast, hmin'] <;> decide
  · rw [not_or] at hmin
    obtain ⟨v, hv, hgcd⟩ := gcd_eq hmin.1 hmin.2
    rw [hv]
    exact iff_of_true (.of_ok hgcd) ⟨fun h => absurd h hmin.1, fun h => absurd h hmin.2⟩

/-! ### `lcm` -/

/-- A multiple of the smallest `int` other than 0 does not fit. -/
theorem not_fitsSigned_lcm {a b : BitVec 64} (ha : a.toInt ≠ 0) (hb : b.toInt ≠ 0)
    (hmin : a = BitVec.intMin 64 ∨ b = BitVec.intMin 64) :
    ¬ FitsSigned 64 (Int.lcm a.toInt b.toInt) := by
  have hpos : 0 < Int.lcm a.toInt b.toInt := Int.lcm_pos ha hb
  have hmin' : (BitVec.intMin 64).toInt.natAbs = 2 ^ 63 := by decide
  rw [fitsSigned_natCast, not_lt, ← hmin']
  obtain rfl | rfl := hmin
  · exact Nat.le_of_dvd hpos (Nat.dvd_lcm_left _ _)
  · exact Nat.le_of_dvd hpos (Nat.dvd_lcm_right _ _)

/-- The quotient of a number by the divisor is exact. -/
theorem division_gcd {a b g : BitVec 64} (ha : a ≠ BitVec.intMin 64) (hzero : a.toInt ≠ 0)
    (hg : g.toInt = Int.gcd a.toInt b.toInt) :
    ∃ q, division "Division by zero" a g = .ok q ∧ q.toInt * g.toInt = a.toInt := by
  have hgne : g.toInt ≠ 0 := by
    rw [hg]
    exact_mod_cast (Int.gcd_pos_of_ne_zero_left b.toInt hzero).ne'
  have hdvd : g.toInt ∣ a.toInt := hg ▸ Int.gcd_dvd_left ..
  have hfits : FitsSigned 64 (a.toInt.tdiv g.toInt) := by
    refine fitsSigned_of_abs ?_
    rw [Int.abs_eq_natAbs, fitsSigned_natCast, Int.natAbs_tdiv]
    exact (Nat.div_le_self _ _).trans_lt (natAbs_lt ha)
  have hq := FitsSigned.toInt_ofInt (w := 64) (by norm_num) hfits
  refine ⟨BitVec.ofInt 64 (a.toInt.tdiv g.toInt), ((yields_division _ a g).ok_iff _).mpr ?_, ?_⟩
  · rw [NumericOp.exact, if_neg hgne, hq]
  · rw [hq, Int.tdiv_mul_cancel hdvd]

theorem exactly_lcm (a b : BitVec 64) : Exactly (lcm a b) (Int.lcm a.toInt b.toInt) := by
  unfold lcm
  split_ifs with hzero
  · refine .of_ok ?_
    obtain rfl | rfl := hzero <;> simp
  rw [not_or] at hzero
  by_cases hmin : a = BitVec.intMin 64 ∨ b = BitVec.intMin 64
  · rw [gcd_intMin hmin]
    exact .of_overflow (not_fitsSigned_lcm (toInt_ne_zero hzero.1) (toInt_ne_zero hzero.2) hmin)
  rw [not_or] at hmin
  obtain ⟨g, hg, hgcd⟩ := gcd_eq hmin.1 hmin.2
  obtain ⟨q, hq, hqg⟩ := division_gcd hmin.1 (toInt_ne_zero hzero.1) hgcd
  -- the product is the least common multiple, with the sign it may have
  have hproduct : |q.toInt * b.toInt| = Int.lcm a.toInt b.toInt := by
    have hpos : 0 < Int.gcd a.toInt b.toInt :=
      Int.gcd_pos_of_ne_zero_left _ (toInt_ne_zero hzero.1)
    have hquotient : a.toInt.natAbs = q.toInt.natAbs * Int.gcd a.toInt b.toInt := by
      rw [← Int.natAbs_natCast (Int.gcd a.toInt b.toInt), ← hgcd, ← Int.natAbs_mul, hqg]
    rw [Int.abs_eq_natAbs]
    refine congrArg Nat.cast (Nat.eq_of_mul_eq_mul_left hpos ?_)
    rw [Int.gcd_mul_lcm, hquotient, Int.natAbs_mul]
    ring
  rw [hg]
  show Exactly (division "Division by zero" a g >>= _) _
  rw [hq]
  show Exactly (ofChecked (emitCheckedIntArith .mul q b) >>= absolute) _
  obtain ⟨p, hp, hpq⟩ | ⟨hp, hno⟩ := (exactly_arith .mul q b).cases
  · rw [hp, ← hproduct]
    have h := exactly_absolute p
    rwa [hpq] at h
  · rw [hp, ← hproduct]
    exact .of_overflow fun h => hno (fitsSigned_of_abs h)

/-! ### Both -/

/-- `lcm` is right everywhere, and `gcd` but where the smallest `int` has a divisor that fits. -/
theorem panicsOnlyWhenItMust_iff (a b : BitVec 64) :
    PanicsOnlyWhenItMust a b ↔ Representable a b :=
  ⟨fun h => (exactly_gcd_iff a b).mp h.gcd, fun h => ⟨(exactly_gcd_iff a b).mpr h, exactly_lcm a b⟩⟩

/-- The greatest common divisor of the smallest `int` and 6 is 2. -/
theorem not_panicsOnlyWhenItMust : ¬ PanicsOnlyWhenItMust (BitVec.intMin 64) 6 := by
  intro h
  have hno := h.gcd.overflow_iff.mp (gcd_intMin (.inl rfl))
  exact hno (by decide)

end StdInt

end TurfLang
