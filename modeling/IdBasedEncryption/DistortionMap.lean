import IdBasedEncryption.IbeLib
import IdBasedEncryption.PointAddition

namespace IdBasedEncryption.DistortionMap

open WeierstrassCurve.Affine MordellCurve Gmp Fp2Arith Fp2Value FieldExtension MordellGroup
open CurvePoints PointValues PointAddition IbeLib

variable {p : Nat} [hp : Fact p.Prime]

section Unity

variable [hp12 : Fact (p % 12 = 11)]

theorem reduced_fp2SetCbrtUnity : Reduced p (fp2SetCbrtUnity p) where
  a_nonneg := by
    have h12 := hp12.out
    simp only [fp2SetCbrtUnity]
    omega
  a_lt := by
    have h12 := hp12.out
    simp only [fp2SetCbrtUnity]
    omega
  b_nonneg := Int.emod_nonneg _ pos.ne'
  b_lt := Int.emod_lt_of_pos _ pos

theorem fp2SetCbrtUnity_b_ne_zero : (fp2SetCbrtUnity p).b ≠ 0 := by
  intro h
  apply zeta_im_ne_zero (p := p)
  rw [zeta, val_im, h, Int.cast_zero]

end Unity

/-- `point_add` finds no opposite points where the sum is finite. -/
theorem ne_opposite_of_add_ne_zero {A B : E p} (hA : A ≠ 0) (hB : B ≠ 0) (hAB : A + B ≠ 0) :
    ¬((ofPoint A).x = (ofPoint B).x ∧ (ofPoint A).y = fp2Neg (ofPoint B).y p) := by
  rintro ⟨hx, hy⟩
  have hinj := (algebraMap (ZMod p) (K p)).injective
  cases A with
  | zero => exact hA rfl
  | some x₁ y₁ h₁ =>
      cases B with
      | zero => exact hB rfl
      | some x₂ y₂ h₂ =>
          have hvx := congrArg (val p) hx
          have hvy := congrArg (val p) hy
          rw [(represents_some h₁).val_x, (represents_some h₂).val_x] at hvx
          rw [val_fp2Neg, (represents_some h₁).val_y, (represents_some h₂).val_y, ← map_neg] at hvy
          apply hAB
          exact Point.add_of_Y_eq (hinj hvx) (by rw [negY_eq, hinj hvy])

section Rotate

variable [hp4 : Fact (p % 4 = 3)] {z : K p} (hz : z ^ 3 = 1)
include hz

/-- The sum of the rotated points, of which the slope is turned the other way. -/
theorem rotate_onLine {R S : Point} {x₁ x₂ y₁ l : K p} (hR : OnLine R x₁ x₂ y₁ l)
    (hS : OnLine S (z * x₁) (z * x₂) y₁ (z ^ 2 * l)) :
    val p S.x = z * val p R.x ∧ val p S.y = val p R.y := by
  have hsq : (z ^ 2 * l) ^ 2 = z * l ^ 2 := by linear_combination z * l ^ 2 * hz
  constructor
  · rw [hS.x, hR.x]
    linear_combination hsq
  · rw [hS.y, hR.y]
    linear_combination (2 * x₁ + x₂ - l ^ 2) * l * hz - z ^ 2 * l * hsq

theorem rotate_chord (x₁ x₂ y₁ y₂ : K p) :
    (y₂ - y₁) / (z * x₂ - z * x₁) = z ^ 2 * ((y₂ - y₁) / (x₂ - x₁)) := by
  have hinv : z⁻¹ = z ^ 2 := (eq_inv_of_mul_eq_one_left (by rw [← hz]; ring)).symm
  rw [← mul_sub, div_mul_eq_div_div, div_eq_mul_inv _ z, hinv]
  ring

omit hz in
theorem rotate_tangent (x y : K p) :
    3 * (z * x) ^ 2 / (2 * y) = z ^ 2 * (3 * x ^ 2 / (2 * y)) := by
  ring

end Rotate

section Phi

variable [hp12 : Fact (p % 12 = 11)] {params : Params} (hpp : params.p = p)
  (hz : params.zeta = fp2SetCbrtUnity p) {P Q D : Point}
include hpp

omit hp12 in
theorem reduced_pointPhi (hP : ReducedPoint p P) : ReducedPoint p (pointPhi D P params) := by
  refine ⟨?_, hP.y⟩
  rw [pointPhi, hpp]
  exact reduced_fp2Mul pos _ _

include hz

omit hp12 in
theorem val_pointPhi_x : val p (pointPhi D P params).x = zeta p * val p P.x := by
  rw [pointPhi, hpp, hz, val_fp2Mul, mul_comm, zeta]

theorem equation_pointPhi (hP : (mordell (K p)).Equation (val p P.x) (val p P.y)) :
    (mordell (K p)).Equation (val p (pointPhi D P params).x) (val p (pointPhi D P params).y) := by
  rw [MordellCurve.equation_iff] at hP ⊢
  rw [val_pointPhi_x hpp hz, mul_pow, zeta_cube, one_mul]
  exact hP

theorem pointPhi_x_inj (hP : Reduced p P.x) (hQ : Reduced p Q.x) {D' : Point} :
    (pointPhi D P params).x = (pointPhi D' Q params).x ↔ P.x = Q.x := by
  constructor
  · intro h
    apply eq_of_val_eq hP hQ
    have hv := congrArg (val p) h
    rw [val_pointPhi_x hpp hz, val_pointPhi_x hpp hz] at hv
    exact mul_left_cancel₀ zeta_ne_zero hv
  · intro h
    rw [pointPhi, pointPhi, h]

/-- The tests of `point_add` have the same results for the images, so that the
same branch is taken. -/
theorem pointPhi_pointAdd (hP : ReducedPoint p P) (hQ : ReducedPoint p Q)
    (hPf : P.infinity = false) (hQf : Q.infinity = false)
    (hsum : ¬(P.x = Q.x ∧ P.y = fp2Neg Q.y p)) {DP DQ : Point} (hD : D.infinity = false)
    (hDP : DP.infinity = false) (hDQ : DQ.infinity = false) :
    pointPhi D (pointAdd P Q p) params =
      pointAdd (pointPhi DP P params) (pointPhi DQ Q params) p := by
  have hsumr := reduced_pointAdd hP hQ
  have hphir := reduced_pointAdd (reduced_pointPhi (D := DP) hpp hP)
    (reduced_pointPhi (D := DQ) hpp hQ)
  have hcoords : val p (pointAdd (pointPhi DP P params) (pointPhi DQ Q params) p).x =
        zeta p * val p (pointAdd P Q p).x ∧
      val p (pointAdd (pointPhi DP P params) (pointPhi DQ Q params) p).y =
        val p (pointAdd P Q p).y ∧
      (pointAdd (pointPhi DP P params) (pointPhi DQ Q params) p).infinity = false := by
    by_cases hx : P.x = Q.x
    · have hy : P.y ≠ fp2Neg Q.y p := fun hy => hsum ⟨hx, hy⟩
      have hR := pointAdd_tangent hPf hQf hx hy
      have hS := pointAdd_tangent (P := pointPhi DP P params) (Q := pointPhi DQ Q params) hDP hDQ
        ((pointPhi_x_inj hpp hz hP.x hQ.x).2 hx) hy
      rw [val_pointPhi_x hpp hz, rotate_tangent] at hS
      obtain ⟨h₁, h₂⟩ := rotate_onLine zeta_cube hR hS
      exact ⟨h₁, h₂, hS.finite⟩
    · have hR := pointAdd_chord (p := p) hPf hQf hx
      have hS := pointAdd_chord (p := p) (P := pointPhi DP P params) (Q := pointPhi DQ Q params) hDP
        hDQ (fun h => hx ((pointPhi_x_inj hpp hz hP.x hQ.x).1 h))
      rw [val_pointPhi_x hpp hz, val_pointPhi_x hpp hz, rotate_chord zeta_cube] at hS
      obtain ⟨h₁, h₂⟩ := rotate_onLine zeta_cube hR hS
      exact ⟨h₁, h₂, hS.finite⟩
  obtain ⟨h₁, h₂, h₃⟩ := hcoords
  apply Point.ext
  · apply eq_of_val_eq (reduced_pointPhi hpp hsumr).x hphir.x
    rw [val_pointPhi_x hpp hz, h₁]
  · exact eq_of_val_eq hsumr.y hphir.y h₂.symm
  · exact hD.trans h₃.symm

end Phi

/-- The distortion map takes the curve over `F_p` to the curve over `F_p^2` and
commutes with `point_add`. -/
theorem distortion_homomorphism [hp12 : Fact (p % 12 = 11)] {params : Params} (hpp : params.p = p)
    (hz : params.zeta = fp2SetCbrtUnity p) :
    (Reduced p (fp2SetCbrtUnity p) ∧ (fp2SetCbrtUnity p).b ≠ 0 ∧
      val p (fp2SetCbrtUnity p) ^ 2 + val p (fp2SetCbrtUnity p) + 1 = 0) ∧
    ∀ A B : E p, A ≠ 0 → B ≠ 0 → A + B ≠ 0 → ∀ D D₁ D₂ : Point, D.infinity = false →
      D₁.infinity = false → D₂.infinity = false →
      (mordell (K p)).Equation (val p (pointPhi D (ofPoint A) params).x)
        (val p (pointPhi D (ofPoint A) params).y) ∧
      pointPhi D (pointAdd (ofPoint A) (ofPoint B) p) params =
        pointAdd (pointPhi D₁ (ofPoint A) params) (pointPhi D₂ (ofPoint B) params) p := by
  refine ⟨⟨reduced_fp2SetCbrtUnity, fp2SetCbrtUnity_b_ne_zero, zeta_quadratic⟩, ?_⟩
  intro A B hA hB hAB D D₁ D₂ hD hD₁ hD₂
  have hsum := ne_opposite_of_add_ne_zero hA hB hAB
  cases A with
  | zero => exact absurd rfl hA
  | some x₁ y₁ h₁ =>
      cases B with
      | zero => exact absurd rfl hB
      | some x₂ y₂ h₂ =>
          constructor
          · apply equation_pointPhi hpp hz
            rw [(represents_some h₁).val_x, (represents_some h₁).val_y, MordellCurve.equation_iff,
              ← map_pow, MordellCurve.equation_iff.1 h₁.1, map_add, map_pow, map_one]
          · exact pointPhi_pointAdd hpp hz (reducedPoint_some h₁) (reducedPoint_some h₂) rfl rfl hsum
              hD hD₁ hD₂

/-- The double of the point with coordinates 2 and 3 over the field with 11
elements. -/
theorem distortion_eleven :
    pointPhi pointInit (pointAdd ⟨⟨2, 0⟩, ⟨3, 0⟩, false⟩ ⟨⟨2, 0⟩, ⟨3, 0⟩, false⟩ 11) (paramsInit 11 3 ibeVersion) =
      pointAdd (pointPhi pointInit ⟨⟨2, 0⟩, ⟨3, 0⟩, false⟩ (paramsInit 11 3 ibeVersion))
        (pointPhi pointInit ⟨⟨2, 0⟩, ⟨3, 0⟩, false⟩ (paramsInit 11 3 ibeVersion)) 11 := by
  have h : (mordell (ZMod 11)).Nonsingular 2 3 := (MordellCurve.nonsingular_iff (by decide)).2 rfl
  have hne : (Point.some 2 3 h : E 11) ≠ 0 := Point.some_ne_zero h
  have hsum : (Point.some 2 3 h + .some 2 3 h : E 11) ≠ 0 := by
    rw [Point.add_self_of_Y_ne (by decide)]
    exact Point.some_ne_zero _
  exact ((distortion_homomorphism (p := 11) rfl rfl).2 _ _ hne hne hsum pointInit pointInit pointInit
    rfl rfl rfl).2

end IdBasedEncryption.DistortionMap
