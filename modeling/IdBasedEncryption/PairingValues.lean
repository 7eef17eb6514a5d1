import IdBasedEncryption.MillerCaches

namespace IdBasedEncryption.PairingValues

open WeierstrassCurve.Affine CurveDivisors MillerFunctions MordellCurve LineReciprocity ReducedTate
open Gmp Fp2Arith Fp2Value FieldExtension MordellGroup SolinasForm CurvePoints TatePairing
open PointValues MillerLines ModifiedPairing MillerLoops MillerCaches

variable {p : Nat} [hp : Fact p.Prime]

section Power

variable [hp4 : Fact (p % 4 = 3)] {q : Nat} {curve : Curve}

/-- The final exponentiation divides the conjugate, which is the `p`-th power. -/
theorem val_tatePower (hcurve : SolinasCurve p q curve) (res : Fp2) :
    val p (tatePower res curve) = val p res ^ finalPower p q := by
  have hN := hcurve.p1onq_eq
  rw [finalPower]
  generalize (p + 1) / q = N at hN ⊢
  have hstar : val p ⟨(fp2Pow res N p).a, p - (fp2Pow res N p).b⟩ = star (val p res ^ N) := by
    rw [← val_fp2Pow]
    ext <;> simp
  have h2 := hp.out.two_le
  rw [tatePower, hcurve.p_eq, hN, val_fp2Div, hstar, val_fp2Pow, ← pow_char_eq_star, mul_comm (p - 1),
    pow_mul]
  generalize val p res ^ N = w
  by_cases hw : w = 0
  · rw [hw, zero_pow (by omega), zero_pow (by omega), div_zero]
  · rw [div_eq_iff hw, ← pow_succ]
    congr 1
    omega

/-- The final exponentiation leaves zero or a root of unity of order `q`. -/
theorem val_tatePower_pow (hqp : q ∣ p + 1) (hcurve : SolinasCurve p q curve) {res : Fp2}
    (h : val p (tatePower res curve) ≠ 0) : val p (tatePower res curve) ^ q = 1 := by
  rw [val_tatePower hcurve] at h ⊢
  have hres : val p res ≠ 0 := by
    intro h0
    by_cases hf : finalPower p q = 0
    · have hdiv := Nat.div_pos (Nat.le_of_dvd p.succ_pos hqp) (Nat.pos_of_dvd_of_pos hqp p.succ_pos)
      have hp1 := hp.out.one_lt
      exact (Nat.mul_pos (by omega) hdiv).ne' hf
    · exact h (by rw [h0, zero_pow hf])
  have hmul : finalPower p q * q = (p - 1) * (p + 1) := by
    rw [finalPower, mul_assoc, Nat.div_mul_cancel hqp]
  rw [← pow_mul, hmul, pow_card_sub_one hres]

omit hp4 in
theorem reduced_tatePower (hcurve : SolinasCurve p q curve) (res : Fp2) :
    Reduced p (tatePower res curve) := by
  rw [tatePower, hcurve.p_eq]
  exact reduced_fp2Div pos _ _

omit hp4 in
theorem reduced_tatePairing (hcurve : SolinasCurve p q curve) (P Q : Point) :
    Reduced p (tatePairing P Q curve) :=
  reduced_tatePower hcurve _

end Power

section Pairing

variable [hp12 : Fact (p % 12 = 11)] {q : Nat} (hq : q.Prime) (hq3 : 3 < q) (hqp : q ∣ p + 1)
  {curve : Curve} (hcurve : SolinasCurve p q curve) {A : E p} (hA : q • A = 0) {Q : Point}
  {x y : ZMod p} (hQ : IsPhi Q x y) (hS : (mordell (ZMod p)).Nonsingular x y)
include hq hq3 hqp hcurve hA hQ hS

theorem val_tatePairing (h0 : A ≠ 0) :
    val p (tatePairing (ofPoint A) Q curve) = pairing q A (.some x y hS) := by
  obtain ⟨f, hf, hv⟩ := exists_tateSolinasMiller hq hq3 hQ hS hcurve hA h0
  rw [tatePairing, val_tatePower hcurve, hv, pairing_eq hqp hf, reducedTate, valueAt_some]

/-- `tate_postprocess` computes the pairing from any cache of the first point. -/
theorem val_tatePostprocess {mc : MillerCache} (hmc : IsCache mc A curve) :
    val p (tatePostprocess mc Q curve) = pairing q A (.some x y hS) := by
  obtain ⟨f, hf, hv⟩ := exists_millerPostprocess hq hq3 hA hQ hS hcurve hmc
  rw [tatePostprocess, val_tatePower hcurve, hv, pairing_eq hqp hf, reducedTate, valueAt_some]

theorem tatePostprocess_eq_tatePairing (h0 : A ≠ 0) {mc : MillerCache} (hmc : IsCache mc A curve) :
    tatePostprocess mc Q curve = tatePairing (ofPoint A) Q curve := by
  have hv : val p (tatePostprocess mc Q curve) = val p (tatePairing (ofPoint A) Q curve) := by
    rw [val_tatePostprocess hq hq3 hqp hcurve hA hQ hS hmc,
      val_tatePairing hq hq3 hqp hcurve hA hQ hS h0]
  exact eq_of_val_eq (reduced_tatePower hcurve _) (reduced_tatePower hcurve _) hv

end Pairing

section CurveInit

/-- The curve that `curve_init` sets up for a prime with a decomposition. -/
theorem solinasCurve_curveInit {p q : Nat} (hq : q.Prime) (hq3 : 3 < q)
    (h : (curveInit p q).solinasa ≠ 0) : SolinasCurve p q (curveInit p q) where
  p_eq := rfl
  p1onq_eq := by
    simp [curveInit]
  form := isSolinas_solinas hq.one_lt (Nat.odd_iff.1 (hq.odd_of_ne_two (by omega))) h

end CurveInit

end IdBasedEncryption.PairingValues
