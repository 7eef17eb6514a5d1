import Mathlib

namespace IdBasedEncryption.CurveDivisors

open Polynomial WeierstrassCurve.Affine WeierstrassCurve.Affine.CoordinateRing
open scoped Polynomial.Bivariate

variable {F : Type*} [Field F] {W : WeierstrassCurve.Affine F}

/-- The functions that vanish at a finite point, and the whole coordinate ring
for the point at infinity. -/
noncomputable def pointIdeal : W.Point → Ideal W.CoordinateRing
  | .zero => ⊤
  | .some x y _ => XYIdeal W x (C y)

noncomputable def vertical : W.Point → W.CoordinateRing
  | .zero => 1
  | .some x _ _ => XClass W x

@[simp] theorem pointIdeal_zero : pointIdeal (0 : W.Point) = ⊤ := rfl

@[simp] theorem pointIdeal_some {x y : F} (h : W.Nonsingular x y) :
    pointIdeal (.some x y h) = XYIdeal W x (C y) := rfl

@[simp] theorem vertical_zero : vertical (0 : W.Point) = 1 := rfl

@[simp] theorem vertical_some {x y : F} (h : W.Nonsingular x y) :
    vertical (.some x y h) = XClass W x := rfl

@[simp] theorem vertical_neg (A : W.Point) : vertical (-A) = vertical A := by
  cases A <;> rfl

theorem vertical_ne_zero (A : W.Point) : vertical A ≠ 0 := by
  cases A with
  | zero => exact one_ne_zero
  | some x y h => exact XClass_ne_zero x

theorem pointIdeal_mul_neg (A : W.Point) :
    pointIdeal A * pointIdeal (-A) = Ideal.span {vertical A} := by
  cases A with
  | zero => simp [← Point.zero_def]
  | some x y h => rw [mul_comm]; exact XYIdeal_neg_mul h

section Chord

variable [DecidableEq F]

/-- The line through two points, which is the tangent at a repeated point and
the vertical when the points add up to infinity or one is at infinity. -/
noncomputable def chord : W.Point → W.Point → W.CoordinateRing
  | .zero, B => vertical B
  | .some x₁ y₁ h₁, .zero => vertical (.some x₁ y₁ h₁)
  | .some x₁ y₁ _, .some x₂ y₂ _ =>
      if x₁ = x₂ ∧ y₁ = W.negY x₂ y₂ then XClass W x₁
      else YClass W (linePolynomial x₁ y₁ (W.slope x₁ x₂ y₁ y₂))

theorem chord_of_add_eq_zero {A B : W.Point} (h : A + B = 0) : chord A B = vertical A := by
  rcases A with _ | ⟨x₁, y₁, h₁⟩
  · obtain rfl : B = 0 := by rwa [← Point.zero_def, zero_add] at h
    rfl
  · rcases B with _ | ⟨x₂, y₂, h₂⟩
    · rfl
    · rw [chord, vertical_some]
      split
      · rfl
      · rename_i hxy
        rw [Point.add_some hxy] at h
        exact absurd h (Point.some_ne_zero _)

/-- The divisor of a line: it meets the curve at the two points and at the
negative of their sum. -/
theorem vertical_mul_pointIdeal (A B : W.Point) :
    Ideal.span {vertical (A + B)} * (pointIdeal A * pointIdeal B) =
      Ideal.span {chord A B} * pointIdeal (A + B) := by
  rcases A with _ | ⟨x₁, y₁, h₁⟩
  · simp only [← Point.zero_def, zero_add, pointIdeal_zero, Ideal.top_mul]
    rfl
  · rcases B with _ | ⟨x₂, y₂, h₂⟩
    · simp only [← Point.zero_def, add_zero, pointIdeal_zero, Ideal.mul_top]
      rfl
    · by_cases hxy : x₁ = x₂ ∧ y₁ = W.negY x₂ y₂
      · have hneg : Point.some x₁ y₁ h₁ = -Point.some x₂ y₂ h₂ := by
          rw [Point.neg_some, Point.some.injEq]
          exact hxy
        rw [Point.add_of_Y_eq hxy.1 hxy.2, vertical_zero, pointIdeal_zero, Ideal.span_singleton_one,
          Ideal.top_mul, Ideal.mul_top, chord, if_pos hxy, hneg, mul_comm, pointIdeal_mul_neg,
          vertical_some, hxy.1]
      · rw [Point.add_some hxy, chord, if_neg hxy]
        exact XYIdeal_mul_XYIdeal h₁.1 h₂.1 hxy

/-- A line does not vanish where none of the verticals through its three points
does. -/
theorem map_chord_ne_zero {K : Type*} [Field K] (e : W.CoordinateRing →+* K) {A B : W.Point}
    (hA : e (vertical A) ≠ 0) (hB : e (vertical B) ≠ 0) (hAB : e (vertical (A + B)) ≠ 0) :
    e (chord A B) ≠ 0 := by
  have hle : Ideal.span {vertical (A + B) * vertical A * vertical B} ≤ Ideal.span {chord A B} := by
    simp only [← Ideal.span_singleton_mul_span_singleton]
    calc Ideal.span {vertical (A + B)} * Ideal.span {vertical A} * Ideal.span {vertical B}
        = Ideal.span {vertical (A + B)} * (pointIdeal A * pointIdeal B) *
            (pointIdeal (-A) * pointIdeal (-B)) := by
          rw [← pointIdeal_mul_neg A, ← pointIdeal_mul_neg B]
          ring
      _ = Ideal.span {chord A B} * (pointIdeal (A + B) * (pointIdeal (-A) * pointIdeal (-B))) := by
          rw [vertical_mul_pointIdeal, mul_assoc]
      _ ≤ Ideal.span {chord A B} := Ideal.mul_le_left
  obtain ⟨k, hk⟩ := Ideal.mem_span_singleton'.1 (hle (Ideal.mem_span_singleton_self _))
  intro h0
  apply mul_ne_zero (mul_ne_zero hAB hA) hB
  rw [← map_mul, ← map_mul, ← hk, map_mul, h0, mul_zero]

end Chord

/-- Ideals of points can be cancelled, being factors of principal ideals. -/
theorem pointIdeal_mul_cancel {A : W.Point} {I J : Ideal W.CoordinateRing}
    (h : pointIdeal A * I = pointIdeal A * J) : I = J := by
  have hv : Ideal.span {vertical A} * I = Ideal.span {vertical A} * J := by
    rw [← pointIdeal_mul_neg, mul_comm (pointIdeal A), mul_assoc, mul_assoc, h]
  exact (Ideal.span_singleton_mul_right_inj (vertical_ne_zero A)).1 hv

theorem pointIdeal_pow_mul_cancel {A : W.Point} (n : Nat) {I J : Ideal W.CoordinateRing}
    (h : pointIdeal A ^ n * I = pointIdeal A ^ n * J) : I = J := by
  induction n with
  | zero => simpa using h
  | succ n ih =>
      apply ih
      apply pointIdeal_mul_cancel (A := A)
      rwa [← mul_assoc, ← mul_assoc, ← pow_succ']

/-- The only units of the coordinate ring are the nonzero constants. -/
theorem exists_algebraMap_of_isUnit {u : W.CoordinateRing} (hu : IsUnit u) :
    ∃ c : F, c ≠ 0 ∧ u = algebraMap F W.CoordinateRing c := by
  obtain ⟨a, b, rfl⟩ := exists_smul_basis_eq u
  have hn : IsUnit (Algebra.norm F[X] (a • (1 : W.CoordinateRing) + b • mk W Y)) := hu.map _
  have hdeg : (Algebra.norm F[X] (a • (1 : W.CoordinateRing) + b • mk W Y)).degree = _ :=
    degree_norm_smul_basis a b
  rw [Polynomial.degree_eq_zero_of_isUnit hn] at hdeg
  have hb : b = 0 := by
    by_contra hb
    have hle : (2 • b.degree + 3 : WithBot Nat) ≤ 0 := hdeg ▸ le_max_right _ _
    rw [Polynomial.degree_eq_natDegree hb, nsmul_eq_mul] at hle
    have h3 : 2 * b.natDegree + 3 ≤ 0 := by exact_mod_cast hle
    omega
  subst hb
  have ha : a ≠ 0 := by
    rintro rfl
    simp at hdeg
  have h0 : a.natDegree = 0 := by
    have hle : (2 • a.degree : WithBot Nat) ≤ 0 := hdeg ▸ le_max_left _ _
    rw [Polynomial.degree_eq_natDegree ha, nsmul_eq_mul] at hle
    have h2 : 2 * a.natDegree ≤ 0 := by exact_mod_cast hle
    omega
  obtain ⟨c, rfl⟩ := Polynomial.natDegree_eq_zero.1 h0
  refine ⟨c, fun hc => ha (by rw [hc, C_0]), ?_⟩
  rw [zero_smul, add_zero, smul, mul_one]
  rfl

/-- Generators of one ideal differ by a nonzero constant. -/
theorem exists_mul_algebraMap_of_span_eq {f g : W.CoordinateRing}
    (h : Ideal.span {f} = Ideal.span {g}) :
    ∃ c : F, c ≠ 0 ∧ g = f * algebraMap F W.CoordinateRing c := by
  obtain ⟨u, hu⟩ := Ideal.span_singleton_eq_span_singleton.1 h
  obtain ⟨c, hc, hcu⟩ := exists_algebraMap_of_isUnit u.isUnit
  exact ⟨c, hc, by rw [← hcu, hu]⟩

end IdBasedEncryption.CurveDivisors
