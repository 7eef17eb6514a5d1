import Mathlib

namespace IdBasedEncryption.Gmp

/-- `mpz_sizeinbase (n, 2)`, which is 1 for zero. -/
def mpzSizeinbase2 (n : Int) : Nat := n.natAbs.log2 + 1

def mpzTstbit (n : Int) (i : Nat) : Bool := n.testBit i

/-- The value `mpz_invert` leaves in a destination that held `old`, which it
does not touch when `a` has no inverse. -/
def mpzInvert (old a p : Int) : Int :=
  if Int.gcd a p = 1 then Int.gcdA a p % p else old

def mpzPowm (b e p : Int) : Int := b ^ e.toNat % p

@[simp] theorem mpzTstbit_natCast (n i : Nat) : mpzTstbit n i = n.testBit i := rfl

theorem lt_two_pow_mpzSizeinbase2 (n : Nat) : n < 2 ^ mpzSizeinbase2 n := by
  simpa [mpzSizeinbase2] using Nat.lt_log2_self

section Prime

variable {p : Nat} [hp : Fact p.Prime]

theorem gcd_eq_one_iff (a : Int) : Int.gcd a p = 1 ↔ (a : ZMod p) ≠ 0 := by
  rw [Ne, ZMod.intCast_zmod_eq_zero_iff_dvd, Int.gcd_comm, ← Int.isCoprime_iff_gcd_eq_one]
  exact (Nat.prime_iff_prime_int.1 hp.out).coprime_iff_not_dvd

/-- Modulo a prime, `mpz_invert` inverts what is not zero. -/
theorem cast_mpzInvert (old a : Int) :
    (mpzInvert old a p : ZMod p) = if (a : ZMod p) = 0 then (old : ZMod p) else (a : ZMod p)⁻¹ := by
  rw [mpzInvert]
  split
  · rename_i h
    have ha := (gcd_eq_one_iff a).1 h
    rw [if_neg ha, ZMod.intCast_mod]
    have hb := congrArg (Int.cast : Int → ZMod p) (Int.gcd_eq_gcd_ab a p)
    refine eq_inv_of_mul_eq_one_left ?_
    simpa [h, mul_comm] using hb.symm
  · rename_i h
    rw [if_pos (not_not.1 (mt (gcd_eq_one_iff a).2 h))]

@[simp] theorem cast_mpzInvert_zero (a : Int) :
    (mpzInvert 0 a p : ZMod p) = (a : ZMod p)⁻¹ := by
  rw [cast_mpzInvert]
  split <;> simp_all

@[simp] theorem cast_mpzPowm (b e : Int) :
    (mpzPowm b e p : ZMod p) = (b : ZMod p) ^ e.toNat := by
  simp [mpzPowm]

end Prime

end IdBasedEncryption.Gmp
