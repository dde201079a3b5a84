import TurfLang.Codegen.IntOperators
import Mathlib.Data.BitVec
import Mathlib.SetTheory.Cardinal.Finite

/-!
# `lib/std/random/random.tr`: `random_int`

What the generator of the runtime gives is any sequence of 31-bit values. The loop of `random_int`
is cut after a number of rounds: `some v` is a value returned, `none` a loop still at work.
-/

namespace TurfLang

namespace Random

open Codegen Codegen.IntOperators

/-- What `turfrt_random_u31` returns. -/
def u31 (d : BitVec 31) : BitVec 64 := d.setWidth 64

/-- A binary operator of the source on two `int`s. -/
def arith (op : ArithOp) (l r : BitVec 64) : Emitted (BitVec 64) :=
  ofChecked (emitCheckedIntArith op l r)

/-- `random_u64`, of the four values that it draws. -/
def randomU64 (a b c s : BitVec 31) : Emitted (BitVec 64) := do
  let high ← emitCheckedShl (u31 a) 32
  let mid ← emitCheckedShl (u31 b) 1
  let low := high ||| mid ||| (u31 c &&& 1)
  if u31 s &&& 1 = 1 then do
    let sign ← arith .sub (-9223372036854775807) 1
    arith .add low sign
  else .ok low

/-- The pattern of the values that come first. -/
def pattern (draws : ℕ → BitVec 31) : Emitted (BitVec 64) :=
  randomU64 (draws 0) (draws 1) (draws 2) (draws 3)

/-- The `while true` of `random_int`. -/
def rejectionLoop (min max : BitVec 64) : ℕ → (ℕ → BitVec 31) → Emitted (Option (BitVec 64))
  | 0, _ => .ok none
  | rounds + 1, draws => do
    let v ← pattern draws
    if min.sle v && v.sle max then .ok (some v)
    else rejectionLoop min max rounds fun i => draws (i + 4)

/-- `span_overflows`. -/
def spanOverflows (min max : BitVec 64) : Emitted Bool :=
  if min.slt 0 then do
    let limit ← arith .add 9223372036854775807 min
    .ok (limit.slt max)
  else .ok false

/-- The test of the first `if` after the panic. -/
def isNarrow (min max : BitVec 64) : Emitted Bool := do
  let overflows ← spanOverflows min max
  if overflows then .ok false
  else do
    let span ← arith .sub max min
    .ok (span.slt 4611686018427387904)

/-- What is returned for a narrow span, of the two values that are drawn. -/
def narrowDraw (min max : BitVec 64) (a b : BitVec 31) : Emitted (BitVec 64) := do
  let high ← emitCheckedShl (u31 a) 31
  let r := high ||| u31 b
  let span ← arith .sub max min
  let width ← arith .add span 1
  let offset ← modulo "Modulo by zero" r width
  arith .add min offset

/-- `random_int`. -/
def randomInt (loc : String) (min max : BitVec 64) (rounds : ℕ) (draws : ℕ → BitVec 31) :
    Emitted (Option (BitVec 64)) :=
  if max.slt min then
    .error (.panic (loc ++ ": random_int: max (" ++ toString max.toInt ++ ") is less than min (" ++
      toString min.toInt ++ ")"))
  else do
    let narrow ← isNarrow min max
    if narrow then do
      let v ← narrowDraw min max (draws 0) (draws 1)
      .ok (some v)
    else rejectionLoop min max rounds draws

/-! ### Small numbers -/

section Small

theorem ok_bind {α β : Type} (x : α) (f : α → Emitted β) : (Except.ok x >>= f) = f x := rfl

theorem fits_iff {n : ℤ} : FitsSigned 64 n ↔ -2 ^ 63 ≤ n ∧ n < 2 ^ 63 := Iff.rfl

theorem fits_toInt (x : BitVec 64) : -2 ^ 63 ≤ x.toInt ∧ x.toInt < 2 ^ 63 :=
  fits_iff.mp (FitsSigned.toInt (by norm_num) x)

theorem toInt_ofNat_of_lt {n : ℕ} (h : n < 2 ^ 63) : (BitVec.ofNat 64 n).toInt = n := by
  rw [BitVec.toInt_eq_toNat_cond, BitVec.toNat_ofNat]
  split <;> omega

theorem toInt_ofNat_of_ge {n : ℕ} (h : 2 ^ 63 ≤ n) (hlt : n < 2 ^ 64) :
    (BitVec.ofNat 64 n).toInt = n - 2 ^ 64 := by
  rw [BitVec.toInt_eq_toNat_cond, BitVec.toNat_ofNat]
  split <;> omega

theorem u31_eq (d : BitVec 31) : u31 d = BitVec.ofNat 64 d.toNat := by
  rw [u31, ← BitVec.toNat_inj, BitVec.toNat_setWidth, BitVec.toNat_ofNat]

theorem arith_eq {op : ArithOp} {l r : BitVec 64}
    (h : FitsSigned 64 (op.exact l.toInt r.toInt)) :
    ∃ v, arith op l r = .ok v ∧ v.toInt = op.exact l.toInt r.toInt := by
  have hv : (BitVec.ofInt 64 (op.exact l.toInt r.toInt)).toInt = _ :=
    FitsSigned.toInt_ofInt (by norm_num) h
  exact ⟨_, congrArg ofChecked (emitCheckedIntArith_eq_ok.mpr hv), hv⟩

theorem emitCheckedShl_ofNat {n s : ℕ} (hs : s < 64) (h : n * 2 ^ s < 2 ^ 63) :
    emitCheckedShl (BitVec.ofNat 64 n) (BitVec.ofNat 64 s) = .ok (BitVec.ofNat 64 (n * 2 ^ s)) := by
  have hn : n < 2 ^ 63 := lt_of_le_of_lt (Nat.le_mul_of_pos_right n (by positivity)) h
  rw [(yields_emitCheckedShl _ _).ok_iff, toInt_ofNat_of_lt hn, toInt_ofNat_of_lt (by omega),
    toInt_ofNat_of_lt h, BitwiseOp.exact, if_pos (by omega), Int.toNat_natCast]
  push_cast
  rfl

/-- Bits below the others are added. -/
theorem ofNat_or {a b s : ℕ} (hb : b < 2 ^ s) :
    BitVec.ofNat 64 (a * 2 ^ s) ||| BitVec.ofNat 64 b = BitVec.ofNat 64 (a * 2 ^ s + b) := by
  rw [← BitVec.ofNat_or, mul_comm a, ← Nat.two_pow_add_eq_or_of_lt hb]

theorem ofNat_and_one (n : ℕ) : BitVec.ofNat 64 n &&& 1 = BitVec.ofNat 64 (n % 2) := by
  have hone : (1 : BitVec 64) = BitVec.ofNat 64 1 := rfl
  rw [hone, ← BitVec.ofNat_and, Nat.and_one_is_mod]

end Small

/-! ### Patterns -/

/-- The 63 bits of a pattern below its sign. -/
def lowBits (a b c : ℕ) : ℕ := a * 2 ^ 32 + b * 2 + c % 2

theorem lowBits_lt {a b : ℕ} (ha : a < 2 ^ 31) (hb : b < 2 ^ 31) (c : ℕ) :
    lowBits a b c < 2 ^ 63 := by
  unfold lowBits
  omega

theorem arith_add_intMin {n : ℕ} (h : n < 2 ^ 63) :
    arith .add (BitVec.ofNat 64 n) (BitVec.intMin 64) = .ok (BitVec.ofNat 64 (n + 2 ^ 63)) := by
  have hleast : (BitVec.intMin 64).toInt = -2 ^ 63 := by rw [BitVec.toInt_intMin]; rfl
  have hsum : ArithOp.add.exact (BitVec.ofNat 64 n).toInt (BitVec.intMin 64).toInt =
      n - 2 ^ 63 := by
    rw [ArithOp.exact, toInt_ofNat_of_lt h, hleast, ← sub_eq_add_neg]
  have hfits : FitsSigned 64 (n - 2 ^ 63) := by
    rw [fits_iff]
    omega
  rw [← hsum] at hfits
  obtain ⟨v, hv, hval⟩ := arith_eq hfits
  have heq : v.toInt = (BitVec.ofNat 64 (n + 2 ^ 63)).toInt := by
    rw [hval, hsum, toInt_ofNat_of_ge (by omega) (by omega)]
    push_cast
    ring
  rw [hv, BitVec.toInt_inj.mp heq]

/-- `random_u64` puts the bits of its values side by side, and nothing in it traps. -/
theorem randomU64_eq (a b c s : BitVec 31) : randomU64 a b c s =
    .ok (BitVec.ofNat 64 (lowBits a.toNat b.toNat c.toNat + s.toNat % 2 * 2 ^ 63)) := by
  have ha := a.isLt
  have hb := b.isLt
  have hlow := lowBits_lt ha hb c.toNat
  have hhigh : emitCheckedShl (u31 a) 32 = .ok (BitVec.ofNat 64 (a.toNat * 2 ^ 32)) := by
    have hlt : a.toNat * 2 ^ 32 < 2 ^ 63 := by omega
    rw [u31_eq]
    exact emitCheckedShl_ofNat (by norm_num) hlt
  have hmid : emitCheckedShl (u31 b) 1 = .ok (BitVec.ofNat 64 (b.toNat * 2 ^ 1)) := by
    have hlt : b.toNat * 2 ^ 1 < 2 ^ 63 := by omega
    rw [u31_eq]
    exact emitCheckedShl_ofNat (by norm_num) hlt
  have hor : BitVec.ofNat 64 (a.toNat * 2 ^ 32) ||| BitVec.ofNat 64 (b.toNat * 2 ^ 1) |||
      (u31 c &&& 1) = BitVec.ofNat 64 (lowBits a.toNat b.toNat c.toNat) := by
    have hsum : a.toNat * 2 ^ 32 + b.toNat * 2 ^ 1 = (a.toNat * 2 ^ 31 + b.toNat) * 2 ^ 1 := by ring
    rw [u31_eq, ofNat_and_one, ofNat_or (by omega), hsum, ofNat_or (by omega), ← hsum, pow_one,
      lowBits]
  unfold randomU64
  rw [hhigh, ok_bind, hmid, ok_bind]
  dsimp only
  rw [hor]
  obtain hs | hs : s.toNat % 2 = 0 ∨ s.toNat % 2 = 1 := by omega
  · have hclear : ¬ u31 s &&& 1 = 1 := by
      rw [u31_eq, ofNat_and_one, hs]
      decide
    rw [if_neg hclear, hs, zero_mul, add_zero]
  · -- the sign comes in by an addition of the least number
    have hset : u31 s &&& 1 = 1 := by rw [u31_eq, ofNat_and_one, hs]; rfl
    rw [if_pos hset, hs, one_mul]
    have hsign : arith .sub (-9223372036854775807) 1 = .ok (BitVec.intMin 64) := rfl
    rw [hsign, ok_bind]
    exact arith_add_intMin hlow

/-! ### Every pattern is drawn as often -/

section Uniform

/-- The values that give the pattern `v`, with the bits of the third and the fourth that it leaves
open. -/
def drawsOf (v : BitVec 64) (free : BitVec 30 × BitVec 30) :
    BitVec 31 × BitVec 31 × BitVec 31 × BitVec 31 :=
  (BitVec.ofNat 31 (v.toNat / 2 ^ 32), BitVec.ofNat 31 (v.toNat / 2),
    BitVec.ofNat 31 (free.1.toNat * 2 + v.toNat % 2),
    BitVec.ofNat 31 (free.2.toNat * 2 + v.toNat / 2 ^ 63))

theorem drawsOf_injective (v : BitVec 64) : Function.Injective (drawsOf v) := by
  rintro ⟨x, y⟩ ⟨x', y'⟩ h
  simp only [drawsOf, Prod.mk.injEq, true_and] at h
  obtain ⟨hx, hy⟩ := h
  have h₁ := congrArg BitVec.toNat hx
  have h₂ := congrArg BitVec.toNat hy
  simp only [BitVec.toNat_ofNat] at h₁ h₂
  have := x.isLt
  have := x'.isLt
  have := y.isLt
  have := y'.isLt
  have := v.isLt
  refine Prod.ext (BitVec.toNat_inj.mp ?_) (BitVec.toNat_inj.mp ?_)
  · show x.toNat = x'.toNat
    omega
  · show y.toNat = y'.toNat
    omega

/-- A number of 64 bits, cut where the four values meet. -/
theorem eq_parts_iff {v a b p q : ℕ} (ha : a < 2 ^ 31) (hb : b < 2 ^ 31) (hp : p < 2) (hq : q < 2)
    (hv : v < 2 ^ 64) : a * 2 ^ 32 + b * 2 + p + q * 2 ^ 63 = v ↔
      v / 2 ^ 32 % 2 ^ 31 = a ∧ v / 2 % 2 ^ 31 = b ∧ v % 2 = p ∧ v / 2 ^ 63 = q := by
  constructor
  · rintro rfl
    refine ⟨?_, ?_, ?_, ?_⟩
    all_goals omega
  · rintro ⟨rfl, rfl, rfl, rfl⟩
    omega

theorem randomU64_eq_ok_iff {v : BitVec 64} {t : BitVec 31 × BitVec 31 × BitVec 31 × BitVec 31} :
    randomU64 t.1 t.2.1 t.2.2.1 t.2.2.2 = .ok v ↔ ∃ free, drawsOf v free = t := by
  obtain ⟨a, b, c, s⟩ := t
  have hc := c.isLt
  have hs := s.isLt
  have hv := v.isLt
  have hcut := eq_parts_iff a.isLt b.isLt (Nat.mod_lt c.toNat two_pos) (Nat.mod_lt s.toNat two_pos)
    hv
  have hlow := lowBits_lt a.isLt b.isLt c.toNat
  show randomU64 a b c s = .ok v ↔ _
  rw [randomU64_eq, Except.ok.injEq, ← BitVec.toNat_inj, BitVec.toNat_ofNat,
    Nat.mod_eq_of_lt (by omega), lowBits, hcut]
  constructor
  · rintro ⟨ha, hb, hp, hq⟩
    refine ⟨(BitVec.ofNat 30 (c.toNat / 2), BitVec.ofNat 30 (s.toNat / 2)), ?_⟩
    simp only [drawsOf, Prod.mk.injEq, ← BitVec.toNat_inj, BitVec.toNat_ofNat]
    refine ⟨ha, hb, ?_, ?_⟩
    all_goals omega
  · rintro ⟨⟨x, y⟩, h⟩
    simp only [drawsOf, Prod.mk.injEq, ← BitVec.toNat_inj, BitVec.toNat_ofNat] at h
    obtain ⟨ha, hb, hp, hq⟩ := h
    have := x.isLt
    have := y.isLt
    refine ⟨ha, hb, ?_, ?_⟩
    all_goals omega

theorem card_draws (v : BitVec 64) :
    Nat.card {t : BitVec 31 × BitVec 31 × BitVec 31 × BitVec 31 //
      randomU64 t.1 t.2.1 t.2.2.1 t.2.2.2 = .ok v} = 2 ^ 60 := by
  have hset : {t : BitVec 31 × BitVec 31 × BitVec 31 × BitVec 31 |
      randomU64 t.1 t.2.1 t.2.2.1 t.2.2.2 = .ok v} = Set.range (drawsOf v) :=
    Set.ext fun t => randomU64_eq_ok_iff
  have hcard : Nat.card (BitVec 30) = 2 ^ 30 := by
    rw [Nat.card_congr BitVec.equivFin.toEquiv, Nat.card_fin]
  calc Nat.card {t : BitVec 31 × BitVec 31 × BitVec 31 × BitVec 31 |
        randomU64 t.1 t.2.1 t.2.2.1 t.2.2.2 = .ok v}
      = Nat.card (Set.range (drawsOf v)) := by rw [hset]
    _ = Nat.card (BitVec 30 × BitVec 30) := Nat.card_range_of_injective (drawsOf_injective v)
    _ = 2 ^ 60 := by rw [Nat.card_prod, hcard]; norm_num

end Uniform

/-! ### The span -/

section Span

variable {min max : BitVec 64}

theorem spanOverflows_eq (min max : BitVec 64) : spanOverflows min max =
    .ok (decide (min.toInt < 0 ∧ 2 ^ 63 - 1 + min.toInt < max.toInt)) := by
  unfold spanOverflows
  split
  case isTrue hneg =>
    have hlt : min.toInt < 0 := decide_eq_true_iff.mp hneg
    have hfits := fits_toInt min
    have hlargest : (9223372036854775807 : BitVec 64).toInt = 2 ^ 63 - 1 := rfl
    have hsum : FitsSigned 64 (ArithOp.add.exact (9223372036854775807 : BitVec 64).toInt
        min.toInt) := by
      rw [ArithOp.exact, hlargest, fits_iff]
      omega
    obtain ⟨limit, hlimit, hval⟩ := arith_eq hsum
    rw [hlimit, ok_bind, BitVec.slt, hval, ArithOp.exact, hlargest]
    simp [hlt]
  case isFalse hpos =>
    have hle : ¬ min.toInt < 0 := fun h => hpos (decide_eq_true_iff.mpr h)
    simp [hle]

/-- The test of the span does not overflow, and tells a span of 62 bits from a wider one. -/
theorem isNarrow_eq (h : min.toInt ≤ max.toInt) :
    isNarrow min max = .ok (decide (max.toInt - min.toInt < 2 ^ 62)) := by
  have hmin := fits_toInt min
  have hmax := fits_toInt max
  unfold isNarrow
  rw [spanOverflows_eq, ok_bind]
  by_cases hover : min.toInt < 0 ∧ 2 ^ 63 - 1 + min.toInt < max.toInt
  · rw [decide_eq_true hover, if_pos rfl, decide_eq_false (by omega)]
  · rw [decide_eq_false hover, if_neg Bool.false_ne_true]
    have hspan : FitsSigned 64 (ArithOp.sub.exact max.toInt min.toInt) := by
      rw [ArithOp.exact, fits_iff]
      omega
    obtain ⟨span, hok, hval⟩ := arith_eq hspan
    have hlimit : (4611686018427387904 : BitVec 64).toInt = 2 ^ 62 := rfl
    rw [hok, ok_bind, BitVec.slt, hval, hlimit, ArithOp.exact]

/-- What a narrow draw is: the remainder of 62 bits by the number of values, from `min` on. -/
theorem narrowDraw_eq (h : min.toInt ≤ max.toInt) (hspan : max.toInt - min.toInt < 2 ^ 62)
    (a b : BitVec 31) : ∃ v, narrowDraw min max a b = .ok v ∧
      v.toInt = min.toInt + (a.toNat * 2 ^ 31 + b.toNat : ℕ) % (max.toInt - min.toInt + 1) := by
  have ha := a.isLt
  have hb := b.isLt
  have hmin := fits_toInt min
  have hmax := fits_toInt max
  have hhigh : emitCheckedShl (u31 a) 31 = .ok (BitVec.ofNat 64 (a.toNat * 2 ^ 31)) := by
    have hlt : a.toNat * 2 ^ 31 < 2 ^ 63 := by omega
    rw [u31_eq]
    exact emitCheckedShl_ofNat (by norm_num) hlt
  have hor : BitVec.ofNat 64 (a.toNat * 2 ^ 31) ||| u31 b =
      BitVec.ofNat 64 (a.toNat * 2 ^ 31 + b.toNat) := by
    rw [u31_eq, ofNat_or hb]
  obtain ⟨span, hspan', hsval⟩ := @arith_eq .sub max min (by
    rw [ArithOp.exact, fits_iff]
    omega)
  rw [ArithOp.exact] at hsval
  have hone : (1 : BitVec 64).toInt = 1 := rfl
  obtain ⟨width, hwidth, hwval⟩ := @arith_eq .add span 1 (by
    rw [hsval, hone, ArithOp.exact, fits_iff]
    omega)
  rw [hsval, hone, ArithOp.exact] at hwval
  have hne : width ≠ 0 := by
    rintro rfl
    have hzero : (0 : BitVec 64).toInt = 0 := rfl
    omega
  obtain ⟨offset, hrem, hoff⟩ := @emitSafeSRem_eq 64 (by norm_num)
    (BitVec.ofNat 64 (a.toNat * 2 ^ 31 + b.toNat)) width hne
  rw [toInt_ofNat_of_lt (by omega), hwval, Int.tmod_eq_emod_of_nonneg (by omega)] at hoff
  have hmod : modulo "Modulo by zero" (BitVec.ofNat 64 (a.toNat * 2 ^ 31 + b.toNat)) width =
      .ok offset := (if_neg hne).trans hrem
  have hlow := Int.emod_nonneg ((a.toNat * 2 ^ 31 + b.toNat : ℕ) : ℤ)
    (show max.toInt - min.toInt + 1 ≠ 0 by omega)
  have hhi := Int.emod_lt_of_pos ((a.toNat * 2 ^ 31 + b.toNat : ℕ) : ℤ)
    (show 0 < max.toInt - min.toInt + 1 by omega)
  rw [← hoff] at hlow hhi
  obtain ⟨v, hv, hvval⟩ := @arith_eq .add min offset (by
    rw [ArithOp.exact, fits_iff]
    omega)
  refine ⟨v, ?_, by rw [hvval, ArithOp.exact, hoff]⟩
  unfold narrowDraw
  rw [hhigh, ok_bind]
  dsimp only
  rw [hor, hspan', ok_bind, hwidth, ok_bind, hmod, ok_bind, hv]

end Span

/-! ### The loop -/

section RejectionLoop

variable {min max v : BitVec 64} {rounds : ℕ} {draws : ℕ → BitVec 31}

/-- The pattern drawn in a round. -/
def patternAt (draws : ℕ → BitVec 31) (k : ℕ) : Emitted (BitVec 64) :=
  pattern fun i => draws (i + 4 * k)

/-- The first pattern between `min` and `max` is `v`, in the round `k`. -/
structure FirstInside (min max : BitVec 64) (draws : ℕ → BitVec 31) (k : ℕ) (v : BitVec 64) :
    Prop where
  drawn : patternAt draws k = .ok v
  inside : min.toInt ≤ v.toInt ∧ v.toInt ≤ max.toInt
  before : ∀ j < k, ∃ w, patternAt draws j = .ok w ∧ ¬ (min.toInt ≤ w.toInt ∧ w.toInt ≤ max.toInt)

theorem exists_pattern (draws : ℕ → BitVec 31) : ∃ w, pattern draws = .ok w := ⟨_, randomU64_eq ..⟩

theorem inside_iff {w : BitVec 64} : (min.sle w && w.sle max) = true ↔
    min.toInt ≤ w.toInt ∧ w.toInt ≤ max.toInt := by
  rw [Bool.and_eq_true, BitVec.sle, BitVec.sle, decide_eq_true_eq, decide_eq_true_eq]

theorem FirstInside.succ {k : ℕ} {w : BitVec 64} (hw : pattern draws = .ok w)
    (hout : ¬ (min.toInt ≤ w.toInt ∧ w.toInt ≤ max.toInt)) :
    FirstInside min max draws (k + 1) v ↔ FirstInside min max (fun i => draws (i + 4)) k v := by
  have hshift : ∀ j, patternAt (fun i => draws (i + 4)) j = patternAt draws (j + 1) :=
    fun j => rfl
  constructor
  · intro h
    exact ⟨(hshift k).trans h.drawn, h.inside, fun j hj => hshift j ▸ h.before (j + 1) (by omega)⟩
  · intro h
    refine ⟨(hshift k).symm.trans h.drawn, h.inside, fun j hj => ?_⟩
    cases j with
    | zero => exact ⟨w, hw, hout⟩
    | succ j => exact hshift j ▸ h.before j (by omega)

/-- The loop goes on without a trap, and returns at the first pattern inside. -/
theorem rejectionLoop_spec (min max : BitVec 64) (rounds : ℕ) (draws : ℕ → BitVec 31) :
    ∃ o, rejectionLoop min max rounds draws = .ok o ∧
      ∀ v, o = some v ↔ ∃ k < rounds, FirstInside min max draws k v := by
  induction rounds generalizing draws with
  | zero => exact ⟨none, rfl, by simp⟩
  | succ rounds ih =>
    obtain ⟨w, hw⟩ := exists_pattern draws
    rw [rejectionLoop, hw, ok_bind]
    by_cases hin : (min.sle w && w.sle max) = true
    · refine ⟨some w, if_pos hin, fun v => ?_⟩
      rw [inside_iff] at hin
      constructor
      · rintro ⟨⟩
        exact ⟨0, by omega, hw, hin, fun j hj => absurd hj (by omega)⟩
      · rintro ⟨k, -, hk⟩
        cases k with
        | zero => exact congrArg some (Except.ok.inj (hw.symm.trans hk.drawn))
        | succ k =>
          obtain ⟨w', hw', hout⟩ := hk.before 0 (by omega)
          obtain rfl : w = w' := Except.ok.inj (hw.symm.trans hw')
          exact absurd hin hout
    · obtain ⟨o, ho, hspec⟩ := ih fun i => draws (i + 4)
      refine ⟨o, (if_neg hin).trans ho, fun v => ?_⟩
      rw [inside_iff] at hin
      rw [hspec]
      constructor
      · rintro ⟨k, hk, hfirst⟩
        exact ⟨k + 1, by omega, (FirstInside.succ hw hin).mpr hfirst⟩
      · rintro ⟨k, hk, hfirst⟩
        cases k with
        | zero =>
          obtain rfl : w = v := Except.ok.inj (hw.symm.trans hfirst.drawn)
          exact absurd hfirst.inside hin
        | succ k => exact ⟨k, by omega, (FirstInside.succ hw hin).mp hfirst⟩

/-- There are draws for every pattern. -/
theorem exists_draws (v : BitVec 64) : ∃ draws, pattern draws = .ok v := by
  rcases ht : drawsOf v (0, 0) with ⟨a, b, c, s⟩
  have hv : randomU64 a b c s = .ok v := (randomU64_eq_ok_iff (t := (a, b, c, s))).mpr ⟨(0, 0), ht⟩
  exact ⟨fun i => if i = 0 then a else if i = 1 then b else if i = 2 then c else s, hv⟩

end RejectionLoop

/-! ### Every range -/

/-- What `random_int` does for `min` and `max`. -/
structure DrawsFrom (loc : String) (min max : BitVec 64) : Prop where
  panics : max.toInt < min.toInt → ∀ rounds draws, randomInt loc min max rounds draws =
    .error (.panic (loc ++ ": random_int: max (" ++ toString max.toInt ++ ") is less than min (" ++
      toString min.toInt ++ ")"))
  runs : min.toInt ≤ max.toInt → ∀ rounds draws, ∃ o, randomInt loc min max rounds draws = .ok o ∧
    ∀ v, o = some v → min.toInt ≤ v.toInt ∧ v.toInt ≤ max.toInt
  reaches : ∀ v : BitVec 64, min.toInt ≤ v.toInt → v.toInt ≤ max.toInt →
    ∃ draws, ∀ rounds, 0 < rounds → randomInt loc min max rounds draws = .ok (some v)
  narrow : min.toInt ≤ max.toInt → max.toInt - min.toInt < 2 ^ 62 →
    ∀ draws, ∃ v, ∀ rounds, randomInt loc min max rounds draws = .ok (some v)
  wide : 2 ^ 62 ≤ max.toInt - min.toInt → ∀ rounds draws v,
    randomInt loc min max rounds draws = .ok (some v) ↔
      ∃ k < rounds, FirstInside min max draws k v
  uniform : ∀ v : BitVec 64, Nat.card {t : BitVec 31 × BitVec 31 × BitVec 31 × BitVec 31 //
    randomU64 t.1 t.2.1 t.2.2.1 t.2.2.2 = .ok v} = 2 ^ 60

section DrawsFrom

variable {loc : String} {min max : BitVec 64} {rounds : ℕ} {draws : ℕ → BitVec 31}

theorem randomInt_narrow (h : min.toInt ≤ max.toInt) (hspan : max.toInt - min.toInt < 2 ^ 62) :
    randomInt loc min max rounds draws =
      (narrowDraw min max (draws 0) (draws 1)).map some := by
  have hle : ¬ max.slt min = true := fun h' => absurd (decide_eq_true_iff.mp h') (not_lt.mpr h)
  rw [randomInt, if_neg hle, isNarrow_eq h, ok_bind, decide_eq_true hspan, if_pos rfl]
  generalize narrowDraw min max (draws 0) (draws 1) = x
  cases x with
  | ok v => rfl
  | error stop => rfl

theorem randomInt_wide (h : 2 ^ 62 ≤ max.toInt - min.toInt) :
    randomInt loc min max rounds draws = rejectionLoop min max rounds draws := by
  have hle : ¬ max.slt min = true := fun h' => by
    have := decide_eq_true_iff.mp h'
    omega
  rw [randomInt, if_neg hle, isNarrow_eq (by omega), ok_bind, decide_eq_false (by omega),
    if_neg Bool.false_ne_true]

/-- A narrow draw reaches every value of the range. -/
theorem exists_narrowDraw {v : BitVec 64} (hv : min.toInt ≤ v.toInt ∧ v.toInt ≤ max.toInt)
    (hspan : max.toInt - min.toInt < 2 ^ 62) : ∃ a b, narrowDraw min max a b = .ok v := by
  obtain ⟨n, hn⟩ := Int.eq_ofNat_of_zero_le (show 0 ≤ v.toInt - min.toInt by omega)
  have hlt : n < 2 ^ 62 := by omega
  refine ⟨BitVec.ofNat 31 (n / 2 ^ 31), BitVec.ofNat 31 (n % 2 ^ 31), ?_⟩
  obtain ⟨w, hw, hval⟩ := narrowDraw_eq (by omega) hspan (BitVec.ofNat 31 (n / 2 ^ 31))
    (BitVec.ofNat 31 (n % 2 ^ 31))
  have hsum : (BitVec.ofNat 31 (n / 2 ^ 31)).toNat * 2 ^ 31 +
      (BitVec.ofNat 31 (n % 2 ^ 31)).toNat = n := by
    rw [BitVec.toNat_ofNat, BitVec.toNat_ofNat]
    omega
  rw [hsum, Int.emod_eq_of_lt (by omega) (by omega)] at hval
  obtain rfl : w = v := BitVec.toInt_inj.mp (by omega)
  exact hw

/-- `random_int` panics for an empty range only, stays in any other, and can reach all of it. -/
theorem randomInt_exact (loc : String) (min max : BitVec 64) : DrawsFrom loc min max where
  panics h rounds draws := if_pos (decide_eq_true_iff.mpr h)
  runs := by
    intro h rounds draws
    by_cases hspan : max.toInt - min.toInt < 2 ^ 62
    · obtain ⟨w, hw, hval⟩ := narrowDraw_eq h hspan (draws 0) (draws 1)
      rw [randomInt_narrow h hspan, hw]
      refine ⟨some w, rfl, ?_⟩
      rintro v ⟨⟩
      have hlow := Int.emod_nonneg (((draws 0).toNat * 2 ^ 31 + (draws 1).toNat : ℕ) : ℤ)
        (show max.toInt - min.toInt + 1 ≠ 0 by omega)
      have hhi := Int.emod_lt_of_pos (((draws 0).toNat * 2 ^ 31 + (draws 1).toNat : ℕ) : ℤ)
        (show 0 < max.toInt - min.toInt + 1 by omega)
      rw [hval]
      omega
    · obtain ⟨o, ho, hspec⟩ := rejectionLoop_spec min max rounds draws
      rw [randomInt_wide (by omega)]
      refine ⟨o, ho, fun v hv => ?_⟩
      obtain ⟨k, -, hfirst⟩ := (hspec v).mp hv
      exact hfirst.inside
  reaches := by
    intro v hlo hhi
    by_cases hspan : max.toInt - min.toInt < 2 ^ 62
    · obtain ⟨a, b, hab⟩ := exists_narrowDraw ⟨hlo, hhi⟩ hspan
      refine ⟨fun i => if i = 0 then a else b, fun rounds _ => ?_⟩
      rw [randomInt_narrow (by omega) hspan]
      exact congrArg (Except.map some) hab
    · obtain ⟨draws, hdraws⟩ := exists_draws v
      refine ⟨draws, fun rounds hrounds => ?_⟩
      obtain ⟨o, ho, hspec⟩ := rejectionLoop_spec min max rounds draws
      rw [randomInt_wide (by omega), ho, (hspec v).mpr]
      exact ⟨0, hrounds, hdraws, ⟨hlo, hhi⟩, fun j hj => absurd hj (by omega)⟩
  narrow := by
    intro h hspan draws
    obtain ⟨v, hv, -⟩ := narrowDraw_eq h hspan (draws 0) (draws 1)
    refine ⟨v, fun rounds => ?_⟩
    rw [randomInt_narrow h hspan, hv]
    rfl
  wide := by
    intro h rounds draws v
    obtain ⟨o, ho, hspec⟩ := rejectionLoop_spec min max rounds draws
    rw [randomInt_wide h, ho, Except.ok.injEq, hspec]
  uniform := card_draws

end DrawsFrom

end Random

end TurfLang
