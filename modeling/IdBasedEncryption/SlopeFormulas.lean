import IdBasedEncryption.CurvePoints

namespace IdBasedEncryption.SlopeFormulas

open Gmp CurvePoints

variable {p : Nat} [hp : Fact p.Prime]

section Affine

variable {P Q : Int × Int} {l : ZMod p}

/-- The double has the coordinates that the slope of the tangent leads to. -/
theorem cast_zzpPointDouble (h2 : 2 * (P.2 : ZMod p) ≠ 0) (hl : l * (2 * P.2) = 3 * P.1 ^ 2) :
    ((zzpPointDouble P p).1 : ZMod p) = l ^ 2 - P.1 - P.1 ∧
      ((zzpPointDouble P p).2 : ZMod p) = l * (P.1 - (l ^ 2 - P.1 - P.1)) - P.2 := by
  rw [two_mul] at h2 hl
  have hslope : ((P.1 + P.1 + P.1) * P.1 * (P.2 + P.2 : ZMod p)⁻¹ : ZMod p) = l := by
    rw [mul_inv_eq_iff_eq_mul₀ h2, hl]
    ring
  have hx : ((zzpPointDouble P p).1 : ZMod p) = l ^ 2 - P.1 - P.1 := by
    rw [← hslope]
    simp [zzpPointDouble, cast_mpzInvert, h2]
    ring
  refine ⟨hx, ?_⟩
  rw [← hx, ← hslope]
  simp [zzpPointDouble, cast_mpzInvert, h2]
  exact mul_comm _ _

/-- So has the sum, with the slope of the chord. -/
theorem cast_zzpPointAdd (hne : (Q.1 : ZMod p) ≠ P.1) (hl : l * (Q.1 - P.1) = Q.2 - P.2) :
    ((zzpPointAdd P Q p).1 : ZMod p) = l ^ 2 - P.1 - Q.1 ∧
      ((zzpPointAdd P Q p).2 : ZMod p) = l * (P.1 - (l ^ 2 - P.1 - Q.1)) - P.2 := by
  have hsub := sub_ne_zero.2 hne
  have hslope : ((Q.2 - P.2) * (Q.1 - P.1 : ZMod p)⁻¹ : ZMod p) = l := by
    rw [mul_inv_eq_iff_eq_mul₀ hsub, hl]
  have hx : ((zzpPointAdd P Q p).1 : ZMod p) = l ^ 2 - P.1 - Q.1 := by
    rw [← hslope]
    simp [zzpPointAdd, cast_mpzInvert, hsub]
    ring
  refine ⟨hx, ?_⟩
  rw [← hx, ← hslope]
  simp [zzpPointAdd, cast_mpzInvert, hsub]
  exact mul_comm _ _

end Affine

section Projective

variable {R : Proj} {x y l : ZMod p} (h2 : (2 : ZMod p) ≠ 0) (hz : (R.z : ZMod p) ≠ 0)
  (hx : (R.x : ZMod p) = x * R.z ^ 2) (hy : (R.y : ZMod p) = y * R.z ^ 3)
include h2

theorem cast_half (hodd : p % 2 = 1) {n : Int} {w : ZMod p} (h : (n : ZMod p) = 2 * w) :
    (((if n % 2 = 1 then n + p else n) / 2 : Int) : ZMod p) = w := by
  apply mul_left_cancel₀ h2
  rw [← h]
  split
  · have hmul : 2 * ((n + p) / 2) = n + p := by omega
    simpa using congrArg (Int.cast : Int → ZMod p) hmul
  · have hmul : 2 * (n / 2) = n := by omega
    simpa using congrArg (Int.cast : Int → ZMod p) hmul

include hz hx hy

/-- Doubling keeps the scale of `x` and `y`. -/
theorem projDouble_slope (hy0 : y ≠ 0) (hl : l * (2 * y) = 3 * x ^ 2) :
    ((projDouble R p).z : ZMod p) ≠ 0 ∧
      ((projDouble R p).x : ZMod p) = (l ^ 2 - x - x) * (projDouble R p).z ^ 2 ∧
      ((projDouble R p).y : ZMod p) =
        (l * (x - (l ^ 2 - x - x)) - y) * (projDouble R p).z ^ 3 := by
  have hz' : ((projDouble R p).z : ZMod p) = 2 * y * R.z ^ 4 := by
    simp [projDouble, hy]
    ring
  rw [hz']
  refine ⟨mul_ne_zero (mul_ne_zero h2 hy0) (pow_ne_zero 4 hz), ?_, ?_⟩
  · simp [projDouble, hx, hy]
    linear_combination (-(R.z : ZMod p) ^ 8 * (l * (2 * y) + 3 * x ^ 2)) * hl
  · simp [projDouble, hx, hy]
    linear_combination ((R.z : ZMod p) ^ 12 * ((l * (2 * y)) ^ 2 +
      l * (2 * y) * (3 * x ^ 2) + (3 * x ^ 2) ^ 2 - 12 * x * y ^ 2)) * hl

/-- So does mixed addition. -/
theorem projMixIn_slope (hodd : p % 2 = 1) {a b : Int} (hxa : (a : ZMod p) ≠ x)
    (hl : l * (a - x) = b - y) : ((projMixIn R a b p).z : ZMod p) ≠ 0 ∧
      ((projMixIn R a b p).x : ZMod p) = (l ^ 2 - x - a) * (projMixIn R a b p).z ^ 2 ∧
      ((projMixIn R a b p).y : ZMod p) =
        (l * (x - (l ^ 2 - x - a)) - y) * (projMixIn R a b p).z ^ 3 := by
  have hz' : ((projMixIn R a b p).z : ZMod p) = R.z ^ 3 * (x - a) := by
    simp [projMixIn, hx]
    ring
  have hb : (b : ZMod p) = y + l * (a - x) := by rw [hl, add_sub_cancel]
  rw [hz']
  refine ⟨mul_ne_zero (pow_ne_zero 3 hz) (sub_ne_zero.2 hxa.symm), ?_, ?_⟩
  · simp [projMixIn, hx, hy, hb]
    ring
  · refine cast_half h2 hodd ?_
    simp [hx, hy, hb]
    ring

end Projective

end IdBasedEncryption.SlopeFormulas
