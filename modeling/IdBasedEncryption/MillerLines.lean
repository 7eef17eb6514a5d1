import IdBasedEncryption.PointValues
import IdBasedEncryption.TatePairing

namespace IdBasedEncryption.MillerLines

open WeierstrassCurve.Affine CurveDivisors MillerFunctions MordellCurve LineReciprocity
open Gmp Fp2Arith Fp2Value FieldExtension MordellGroup CurvePoints TatePairing PointValues

variable {p : Nat} [hp : Fact p.Prime] [hp12 : Fact (p % 12 = 11)]

/-- The code point that stands for the image of `(x, y)` under
`(x, y) ↦ (zeta x, y)`. -/
structure IsPhi (Q : Point) (x y : ZMod p) : Prop where
  finite : Q.infinity = false
  x : val p Q.x = zeta p * algebraMap (ZMod p) (K p) x
  y : val p Q.y = algebraMap (ZMod p) (K p) y

/-- A pair of coefficients of the line `y + a x + c` through `A` and `B`. -/
def LineFor (a c : Int) (A B : E p) : Prop :=
  ∃ x₁ y₁ h₁ x₂ y₂ h₂, A = .some x₁ y₁ h₁ ∧ B = .some x₂ y₂ h₂ ∧ A + B ≠ 0 ∧
    (a : ZMod p) = -(mordell (ZMod p)).slope x₁ x₂ y₁ y₂ ∧
    (c : ZMod p) = (mordell (ZMod p)).slope x₁ x₂ y₁ y₂ * x₁ - y₁

/-- The constant of the vertical line `x + c` through `A`. -/
def VerticalFor (c : Int) (A : E p) : Prop :=
  ∃ x y h, A = .some x y h ∧ (c : ZMod p) = -x

section Lines

omit hp12 in
theorem val_ptsGetVertical_eq (v : Fp2) (Q P : Point) (z : Int) :
    val p (ptsGetVertical v Q P z p) = val p v *
      (val p Q.x * algebraMap (ZMod p) (K p) (z * z) - algebraMap (ZMod p) (K p) P.x.a) := by
  rw [ptsGetVertical, val_fp2Mul]
  congr 1
  ext <;> simp [fp2MulMpz]

omit hp12 in
theorem val_ptsGetTangent_eq (v : Fp2) (Q P : Point) (z : Int) :
    val p (ptsGetTangent v Q P z p) = val p v *
      (val p Q.x * algebraMap (ZMod p) (K p) (-(3 * P.x.a ^ 2 * z ^ 2)) +
        val p Q.y * algebraMap (ZMod p) (K p) (2 * P.y.a * z ^ 3) +
          algebraMap (ZMod p) (K p) (3 * P.x.a ^ 3 - 2 * P.y.a ^ 2)) := by
  rw [ptsGetTangent, val_fp2Mul]
  congr 1
  ext
  · simp [fp2MulMpz, fp2Add, pow_succ]
    ring
  · simp [fp2MulMpz, fp2Add, pow_succ]
    ring

end Lines

section Values

variable {Q : Point} {x y : ZMod p} (hQ : IsPhi Q x y) (hS : (mordell (ZMod p)).Equation x y)

theorem evalPhi_chord {x₁ y₁ x₂ y₂ : ZMod p} {h₁ : (mordell (ZMod p)).Nonsingular x₁ y₁}
    {h₂ : (mordell (ZMod p)).Nonsingular x₂ y₂}
    (h : Point.some x₁ y₁ h₁ + Point.some x₂ y₂ h₂ ≠ 0) :
    evalPhi zeta_cube hS (chord (.some x₁ y₁ h₁) (.some x₂ y₂ h₂)) =
      algebraMap (ZMod p) (K p) y - (algebraMap (ZMod p) (K p) ((mordell (ZMod p)).slope x₁ x₂ y₁ y₂) *
        (zeta p * algebraMap (ZMod p) (K p) x - algebraMap (ZMod p) (K p) x₁) +
          algebraMap (ZMod p) (K p) y₁) := by
  rw [chord, if_neg fun hxy => h (Point.add_of_Y_eq hxy.1 hxy.2), evalPhi, evalAt_YClass]

theorem evalPhi_vertical {x₁ y₁ : ZMod p} (h₁ : (mordell (ZMod p)).Nonsingular x₁ y₁) :
    evalPhi zeta_cube hS (vertical (.some x₁ y₁ h₁)) =
      zeta p * algebraMap (ZMod p) (K p) x - algebraMap (ZMod p) (K p) x₁ := by
  rw [vertical_some, evalPhi_XClass]

include hQ

section Cached

theorem val_cachedLine {a c : Int} {A B : E p} (h : LineFor a c A B) :
    val p (cachedLine Q a c p) = evalPhi zeta_cube hS (chord A B) := by
  obtain ⟨x₁, y₁, h₁, x₂, y₂, h₂, rfl, rfl, hne, ha, hc⟩ := h
  have hval : val p (cachedLine Q a c p) =
      val p Q.x * algebraMap (ZMod p) (K p) a + val p Q.y + algebraMap (ZMod p) (K p) c := by
    ext <;> simp [cachedLine, fp2Add, fp2MulMpz]
  rw [hval, evalPhi_chord hS hne, hQ.x, hQ.y, ha, hc, map_neg, map_sub, map_mul]
  ring

theorem val_cachedVertical {c : Int} {A : E p} (h : VerticalFor c A) :
    val p (cachedVertical Q c) = evalPhi zeta_cube hS (vertical A) := by
  obtain ⟨x₁, y₁, h₁, rfl, hc⟩ := h
  have hval : val p (cachedVertical Q c) = val p Q.x + algebraMap (ZMod p) (K p) c := by
    ext <;> simp [cachedVertical]
  rw [hval, evalPhi_vertical, hQ.x, hc, map_neg]
  ring

end Cached

section Direct

theorem val_ptsGetVertical {v : Fp2} {P : Point} {z : Int} {A : E p}
    (hP : ProjRepresents ⟨P.x.a, P.y.a, z⟩ A) :
    ∃ c : ZMod p, c ≠ 0 ∧ val p (ptsGetVertical v Q P z p) =
      val p v * (algebraMap (ZMod p) (K p) c * evalPhi zeta_cube hS (vertical A)) := by
  obtain ⟨x₁, y₁, h₁, rfl, hz, hx, hy⟩ := hP
  refine ⟨(z : ZMod p) ^ 2, pow_ne_zero 2 hz, ?_⟩
  simp only at hx
  rw [val_ptsGetVertical_eq, evalPhi_vertical, hQ.x, hx, map_mul, map_mul, map_pow]
  ring

theorem val_ptsGetTangent {v : Fp2} {P : Point} {z : Int} {A : E p}
    (hP : ProjRepresents ⟨P.x.a, P.y.a, z⟩ A) (hA : A + A ≠ 0) :
    ∃ c : ZMod p, c ≠ 0 ∧ val p (ptsGetTangent v Q P z p) =
      val p v * (algebraMap (ZMod p) (K p) c * evalPhi zeta_cube hS (chord A A)) := by
  obtain ⟨x₁, y₁, h₁, rfl, hz, hx, hy⟩ := hP
  have hne := y_ne_neg_of_add_self hA
  have hy0 := y_ne_zero_of_add_self hA
  refine ⟨2 * y₁ * z ^ 6, mul_ne_zero (mul_ne_zero two_ne_zero' hy0) (pow_ne_zero 6 hz), ?_⟩
  simp only at hx hy
  have hslope : 2 * y₁ * (mordell (ZMod p)).slope x₁ x₁ y₁ y₁ = 3 * x₁ ^ 2 := by
    rw [slope_self hne]
    field_simp [two_ne_zero' (p := p)]
  have hmap := congrArg (algebraMap (ZMod p) (K p)) hslope
  rw [val_ptsGetTangent_eq, evalPhi_chord hS hA, hQ.x, hQ.y, hx, hy]
  simp only [map_mul, map_sub, map_neg, map_pow, map_ofNat] at hmap ⊢
  linear_combination (val p v * algebraMap (ZMod p) (K p) z ^ 6 *
    (zeta p * algebraMap (ZMod p) (K p) x - algebraMap (ZMod p) (K p) x₁)) * hmap

theorem val_tateGetVertical {v : Fp2} {P : Point} {A : E p} (hP : Stands P A) :
    val p (tateGetVertical v Q P p) = val p v * evalPhi zeta_cube hS (vertical A) := by
  obtain ⟨x₁, y₁, h₁, rfl, hP, -⟩ := hP
  rw [tateGetVertical, if_neg (by simp [hQ.finite, hP.finite]), val_fp2Mul, val_fp2Sub, hQ.x,
    hP.val_x, evalPhi_vertical]

theorem val_tateGetLine {v : Fp2} {P P' : Point} {A B : E p} (hP : Stands P A)
    (hP' : Stands P' B) (hAB : A ≠ B) (hne : A + B ≠ 0) :
    ∃ c : ZMod p, c ≠ 0 ∧ val p (tateGetLine v Q P P' p) =
      val p v * (algebraMap (ZMod p) (K p) c * evalPhi zeta_cube hS (chord A B)) := by
  obtain ⟨x₁, y₁, h₁, rfl, hP, -⟩ := hP
  obtain ⟨x₂, y₂, h₂, rfl, hP', -⟩ := hP'
  have hx := x_ne_of_add_ne_zero hAB hne
  have hsub := sub_ne_zero.2 hx
  have hneq : ¬fp2Equal P.x P'.x = true := by
    rw [fp2Equal_iff]
    intro he
    have hv := congrArg (val p) he
    rw [hP.val_x, hP'.val_x] at hv
    exact hx ((algebraMap (ZMod p) (K p)).injective hv)
  refine ⟨x₂ - x₁, sub_ne_zero.2 (Ne.symm hx), ?_⟩
  have hslope : (mordell (ZMod p)).slope x₁ x₂ y₁ y₂ * (x₁ - x₂) = y₁ - y₂ := by
    rw [slope_of_ne _ _ hx]
    field_simp
  have hmap := congrArg (algebraMap (ZMod p) (K p)) hslope
  rw [tateGetLine, if_neg (by simp [hP.finite]), if_neg (by simp [hP'.finite]), if_neg hneq]
  simp only [tateMulLine, hQ.finite]
  rw [if_neg Bool.false_ne_true, evalPhi_chord hS hne]
  simp only [val_fp2Mul, val_fp2Add, val_fp2Sub, val_fp2Neg, hP.val_x, hP.val_y, hP'.val_x,
    hP'.val_y, hQ.x, hQ.y, map_mul, map_sub] at hmap ⊢
  linear_combination (-val p v * (zeta p * algebraMap (ZMod p) (K p) x -
    algebraMap (ZMod p) (K p) x₁)) * hmap

end Direct

end Values

end IdBasedEncryption.MillerLines
