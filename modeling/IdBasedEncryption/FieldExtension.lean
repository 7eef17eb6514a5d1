import IdBasedEncryption.Fp2Value

namespace IdBasedEncryption.FieldExtension

open Gmp Fp2Arith Fp2Value

variable {p : Nat}

instance finite_K [NeZero p] : Finite (K p) :=
  Finite.of_equiv _ (QuadraticAlgebra.equivProd (-1 : ZMod p) 0).symm

theorem card_eq : Nat.card (K p) = p ^ 2 := by
  rw [Nat.card_congr (QuadraticAlgebra.equivProd (-1 : ZMod p) 0), Nat.card_prod,
    Nat.card_zmod, sq]

theorem natCast_ne_zero_of_lt {k : Nat} (hk : 0 < k) (hkp : k < p) : (k : ZMod p) ≠ 0 := by
  rw [Ne, ZMod.natCast_eq_zero_iff]
  exact fun h => absurd (Nat.le_of_dvd hk h) (by omega)

theorem three_ne_zero [hp12 : Fact (p % 12 = 11)] : (3 : ZMod p) ≠ 0 := by
  have h12 := hp12.out
  exact_mod_cast natCast_ne_zero_of_lt (p := p) (k := 3) (by omega) (by omega)

theorem not_isSquare_two : ¬IsSquare (2 : ZMod 3) := by
  decide

/-- The square root of `-1`. -/
def imag : K p := ⟨0, 1⟩

theorem imag_sq : (imag : K p) ^ 2 = -1 := by
  ext <;> simp [imag, sq, QuadraticAlgebra.re_one, QuadraticAlgebra.im_one]

theorem eq_add_mul_imag (w : K p) :
    w = algebraMap (ZMod p) (K p) w.re + algebraMap (ZMod p) (K p) w.im * imag := by
  ext <;> simp [imag]

@[simp] theorem star_algebraMap (c : ZMod p) :
    star (algebraMap (ZMod p) (K p) c) = algebraMap (ZMod p) (K p) c := by
  ext <;> simp

section Field

variable [hp : Fact p.Prime]

theorem algebraMap_pow_sub_one {c : ZMod p} (hc : c ≠ 0) :
    algebraMap (ZMod p) (K p) c ^ (p - 1) = 1 := by
  rw [← map_pow, ZMod.pow_card_sub_one_eq_one hc, map_one]

variable [hp4 : Fact (p % 4 = 3)]

theorem pow_card_sub_one {w : K p} (hw : w ≠ 0) : w ^ ((p - 1) * (p + 1)) = 1 := by
  have : Fintype (K p) := Fintype.ofFinite _
  have h := FiniteField.pow_card_sub_one_eq_one w hw
  rwa [← Nat.card_eq_fintype_card, card_eq,
    show p ^ 2 - 1 = (p - 1) * (p + 1) by
      rw [mul_comm, ← Nat.sq_sub_sq, one_pow]] at h

theorem imag_pow_char : (imag : K p) ^ p = -imag := by
  obtain ⟨k, hk⟩ : ∃ k, p = 2 * (2 * k + 1) + 1 := ⟨p / 4, by have := hp4.out; omega⟩
  calc (imag : K p) ^ p = imag ^ (2 * (2 * k + 1) + 1) := congrArg (imag ^ ·) hk
    _ = -imag := by rw [pow_succ, pow_mul, imag_sq, Odd.neg_one_pow ⟨k, rfl⟩, neg_one_mul]

/-- Raising to the power `p` is conjugation. -/
theorem pow_char_eq_star (w : K p) : w ^ p = star w := by
  have : CharP (K p) p := charP_of_injective_algebraMap (algebraMap (ZMod p) (K p)).injective p
  calc w ^ p = (algebraMap (ZMod p) (K p) w.re + algebraMap (ZMod p) (K p) w.im * imag) ^ p := by
        rw [← eq_add_mul_imag]
    _ = algebraMap (ZMod p) (K p) w.re + algebraMap (ZMod p) (K p) w.im * -imag := by
        rw [add_pow_char, mul_pow, ← map_pow, ← map_pow, ZMod.pow_card, ZMod.pow_card, imag_pow_char]
    _ = star w := by ext <;> simp [imag]

end Field

section CubeRoot

variable [hp : Fact p.Prime] [hp12 : Fact (p % 12 = 11)]

instance fact_mod_four : Fact (p % 4 = 3) := ⟨by have := hp12.out; omega⟩

instance fact_mod_two : Fact (p % 2 = 1) := ⟨by have := hp12.out; omega⟩

instance fact_minus_one_nonsquare : Fact (∀ r : ZMod p, r ^ 2 ≠ -1 + 0 * r) := fact_irreducible

theorem sqrt_three_sq : ((3 : ZMod p) ^ ((p + 1) / 4)) ^ 2 = 3 := by
  have h12 := hp12.out
  have hsq : IsSquare (3 : ZMod p) := by
    have : Fact (Nat.Prime 3) := ⟨Nat.prime_three⟩
    have h := (ZMod.exists_sq_eq_prime_iff_of_mod_four_eq_three (p := p) (q := 3) (by omega) rfl
      (by omega)).2
    have hp3 : (p : ZMod 3) = 2 := by
      have : p % 3 = 2 % 3 := by omega
      exact_mod_cast (ZMod.natCast_eq_natCast_iff' p 2 3).2 this
    rw [hp3] at h
    exact_mod_cast h not_isSquare_two
  have he := (ZMod.euler_criterion p three_ne_zero).1 hsq
  rw [← pow_mul, show (p + 1) / 4 * 2 = p / 2 + 1 by omega, pow_succ, he, one_mul]

/-- The element that `fp2_set_cbrt_unity` computes. -/
def zeta (p : Nat) : K p := val p (fp2SetCbrtUnity p)

theorem two_mul_zeta_re : 2 * (zeta p).re = -1 := by
  have h12 := hp12.out
  have h : 2 * ((p - 1 : Int) / 2) = p - 1 := by omega
  have hc := congrArg (Int.cast : Int → ZMod p) h
  simpa [zeta, fp2SetCbrtUnity] using hc

omit hp12 in
theorem zeta_im : (zeta p).im = 3 ^ ((p + 1) / 4) * (zeta p).re := by
  have h : ((p + 1 : Int) / 4).toNat = (p + 1) / 4 := by omega
  simp [zeta, fp2SetCbrtUnity, h]

theorem zeta_quadratic : zeta p ^ 2 + zeta p + 1 = 0 := by
  have hre := two_mul_zeta_re (p := p)
  have him := zeta_im (p := p)
  have hs := sqrt_three_sq (p := p)
  ext
  · simp only [sq, QuadraticAlgebra.re_add, QuadraticAlgebra.re_mul, QuadraticAlgebra.re_one,
      QuadraticAlgebra.re_zero]
    rw [him]
    linear_combination (-(zeta p).re ^ 2) * hs + (1 - (zeta p).re) * hre
  · simp only [sq, QuadraticAlgebra.im_add, QuadraticAlgebra.im_mul, QuadraticAlgebra.im_one,
      QuadraticAlgebra.im_zero]
    linear_combination (zeta p).im * hre

theorem zeta_cube : zeta p ^ 3 = 1 := by
  linear_combination (zeta p - 1) * zeta_quadratic (p := p)

theorem zeta_ne_zero : zeta p ≠ 0 := by
  intro h0
  have h3 := zeta_cube (p := p)
  rw [h0, zero_pow (by decide)] at h3
  exact zero_ne_one h3

theorem star_zeta : star (zeta p) = zeta p ^ 2 := by
  have hq := zeta_quadratic (p := p)
  have hre := two_mul_zeta_re (p := p)
  have h2 : zeta p ^ 2 = -1 - zeta p := by linear_combination hq
  rw [h2]
  ext
  · simp [QuadraticAlgebra.re_one]
    linear_combination hre
  · simp [QuadraticAlgebra.im_one]

theorem zeta_im_ne_zero : (zeta p).im ≠ 0 := by
  have hre := two_mul_zeta_re (p := p)
  have hs := sqrt_three_sq (p := p)
  have hr : (zeta p).re ≠ 0 := by
    intro h
    rw [h, mul_zero] at hre
    exact neg_ne_zero.2 one_ne_zero hre.symm
  rw [zeta_im]
  refine mul_ne_zero (fun h => ?_) hr
  rw [h, zero_pow two_ne_zero] at hs
  exact three_ne_zero hs.symm

/-- Multiplying by the cube root of unity leaves the prime field. -/
theorem zeta_mul_ne {a b : ZMod p} (hb : b ≠ 0) :
    zeta p * algebraMap (ZMod p) (K p) a ≠ algebraMap (ZMod p) (K p) b := by
  intro h
  have him := congrArg QuadraticAlgebra.im h
  have hre := congrArg QuadraticAlgebra.re h
  simp at him hre
  rcases him with him | rfl
  · exact zeta_im_ne_zero him
  · simp at hre
    exact hb hre.symm

end CubeRoot

end IdBasedEncryption.FieldExtension
