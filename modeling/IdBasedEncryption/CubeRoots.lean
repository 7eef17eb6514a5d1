import Mathlib.FieldTheory.Finite.Basic

namespace IdBasedEncryption.CubeRoots

variable {p : Nat} [hp : Fact p.Prime] (h3 : p % 3 = 2)
include h3

/-- Three times the exponent is one modulo `p - 1`. -/
theorem cube_pow (x : ZMod p) : (x ^ 3) ^ ((2 * p - 1) / 3) = x := by
  have hpos := hp.out.pos
  by_cases hx : x = 0
  · rw [hx, zero_pow (by omega), zero_pow (by omega)]
  · rw [← pow_mul, show 3 * ((2 * p - 1) / 3) = p + (p - 1) by omega, pow_add, ZMod.pow_card,
      ZMod.pow_card_sub_one_eq_one hx, mul_one]

theorem pow_cube (x : ZMod p) : (x ^ ((2 * p - 1) / 3)) ^ 3 = x := by
  rw [pow_right_comm, cube_pow h3]

theorem cube_injective {x y : ZMod p} (h : x ^ 3 = y ^ 3) : x = y := by
  rw [← cube_pow h3 x, h, cube_pow h3]

theorem cube_eq_iff {x a : ZMod p} : x ^ 3 = a ↔ x = a ^ ((2 * p - 1) / 3) := by
  constructor
  · rintro rfl
    exact (cube_pow h3 x).symm
  · rintro rfl
    exact pow_cube h3 a

end IdBasedEncryption.CubeRoots
