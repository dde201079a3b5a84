import Mathlib.Data.BitVec

/-!
# Mixing steps that lose nothing

The steps of which a finalizer of a hash is made: a word combined with itself shifted to the
right, and a multiplication by a constant with an inverse. Different words stay different.
-/

namespace Mixing

variable {w : ℕ}

/-- The bits are recovered from the highest one down: each is the bit of the result with a
higher bit of the word. -/
theorem xor_ushiftRight_injective {k : ℕ} (hk : 0 < k) :
    Function.Injective fun x : BitVec w => x ^^^ (x >>> k) := by
  intro x y hxy
  have hbit (i : ℕ) : (x.getLsbD i ^^ x.getLsbD (k + i)) = (y.getLsbD i ^^ y.getLsbD (k + i)) := by
    simpa using congrArg (fun z : BitVec w => z.getLsbD i) hxy
  have hfrom : ∀ n i, w ≤ i + n → x.getLsbD i = y.getLsbD i := by
    intro n
    induction n with
    | zero =>
      intro i hi
      rw [BitVec.getLsbD_of_ge x i hi, BitVec.getLsbD_of_ge y i hi]
    | succ n ih =>
      intro i hi
      have hhigh : x.getLsbD (k + i) = y.getLsbD (k + i) := ih (k + i) (by omega)
      have h := hbit i
      rw [hhigh] at h
      exact Bool.xor_left_inj.mp h
  apply BitVec.eq_of_getLsbD_eq
  intro i _
  exact hfrom w i (by omega)

/-- Multiplying by a constant with an inverse. -/
theorem mul_injective {c d : BitVec w} (h : c * d = 1#w) :
    Function.Injective fun x : BitVec w => x * c := by
  intro x y hxy
  have hxy : x * c = y * c := hxy
  calc x = x * (c * d) := by rw [h, BitVec.mul_one]
    _ = y * (c * d) := by rw [← BitVec.mul_assoc, hxy, BitVec.mul_assoc]
    _ = y := by rw [h, BitVec.mul_one]

end Mixing
