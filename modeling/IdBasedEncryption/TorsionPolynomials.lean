import IdBasedEncryption.MordellCurve
import IdBasedEncryption.TopCoefficient

namespace IdBasedEncryption.TorsionPolynomials

open Polynomial WeierstrassCurve.Affine MordellCurve TopCoefficient

variable {K : Type*} [Field K]

/-- Numerator and denominator of the first coordinate of `2 ^ k P`, as
polynomials in the first coordinate of `P`. -/
noncomputable def doubling (K : Type*) [Field K] : Nat → K[X] × K[X]
  | 0 => (X, 1)
  | k + 1 =>
      let A := (doubling K k).1
      let B := (doubling K k).2
      (A ^ 4 - C 8 * (A * B ^ 3), C 4 * (B * (A ^ 3 + B ^ 3)))

theorem doubling_top (k : Nat) : ∃ d, 4 ^ k = d + 1 ∧ Top (doubling K k).1 (d + 1) 1 ∧
    Top (doubling K k).2 d (4 ^ k) := by
  induction k with
  | zero => exact ⟨0, rfl, Top.X, by simpa [doubling] using Top.const (1 : K)⟩
  | succ k ih =>
      obtain ⟨d, hd, hA, hB⟩ := ih
      refine ⟨4 * d + 3, by rw [pow_succ, hd]; ring, ?_, ?_⟩
      · have hlow := ((Top.const (8 : K)).mul (hA.mul (hB.pow 3))).of_lt (n := 4 * d + 3 + 1) (by omega)
        exact (((hA.pow 4).congr (by ring) rfl).sub hlow).congr rfl (by ring)
      · have hcube := (hA.pow 3).add ((hB.pow 3).of_lt (n := 3 * (d + 1)) (by omega))
        exact ((Top.const (4 : K)).mul (hB.mul hcube)).congr (by ring) (by ring)

/-- Vanishes on the first coordinates of three points that add up to zero for
some choice of signs. -/
def summation (x₁ x₂ x₃ : K) : K :=
  (x₃ * (x₁ - x₂) ^ 2 - x₁ * x₂ * (x₁ + x₂) - 2) ^ 2 - 4 * (x₁ ^ 3 + 1) * (x₂ ^ 3 + 1)

/-- `summation` of the first coordinates of `2 ^ b P`, `P` and `2 ^ a P`, freed
of denominators. -/
noncomputable def solinasPolynomial (K : Type*) [Field K] (a b : Nat) : K[X] :=
  let A := (doubling K a).1
  let B := (doubling K a).2
  let A' := (doubling K b).1
  let B' := (doubling K b).2
  (A * (A' - X * B') ^ 2 - B * X * (A' * (A' + X * B')) - C 2 * (B * B' ^ 2)) ^ 2 -
    C 4 * (B ^ 2 * (B' * (A' ^ 3 + B' ^ 3) * (X ^ 3 + 1)))

theorem solinasPolynomial_top (a b : Nat) :
    Top (solinasPolynomial K a b) (2 * 4 ^ a + 4 * 4 ^ b)
      (((1 - 4 ^ b) ^ 2 - 4 ^ a * (1 + 4 ^ b)) ^ 2 - 4 * (4 ^ a) ^ 2 * 4 ^ b) := by
  obtain ⟨d, hd, hA, hB⟩ := doubling_top (K := K) a
  obtain ⟨e, he, hA', hB'⟩ := doubling_top (K := K) b
  have hXB' : Top (X * (doubling K b).2) (e + 1) (4 ^ b) :=
    (Top.X.mul hB').congr (by ring) (one_mul _)
  have hXB : Top ((doubling K a).2 * X) (d + 1) (4 ^ a) := (hB.mul Top.X).congr rfl (mul_one _)
  have h₁ := hA.mul ((hA'.sub hXB').pow 2)
  have h₂ := hXB.mul (hA'.mul (hA'.add hXB'))
  have h₃ := ((Top.const (2 : K)).mul (hB.mul (hB'.pow 2))).of_lt (n := d + 1 + 2 * (e + 1)) (by omega)
  have hinner := ((h₁.sub (h₂.congr (by ring) rfl)).sub h₃).pow 2
  have hone : Top (1 : K[X]) 3 0 := by
    have h : Top (C (1 : K)) 0 1 := Top.const 1
    exact (h.congr rfl rfl).of_lt (by omega)
  have hcube := (hA'.pow 3).add ((hB'.pow 3).of_lt (n := 3 * (e + 1)) (by omega))
  have h₄ := (Top.const (4 : K)).mul ((hB.pow 2).mul ((hB'.mul hcube).mul ((Top.X.pow 3).add hone)))
  rw [hd, he]
  exact ((hinner.congr (by ring) rfl).sub (h₄.congr (by ring) rfl)).congr rfl (by ring)

section Points

variable [DecidableEq K]

theorem exists_double (h2 : (2 : K) ≠ 0) {x y : K} (h : (mordell K).Nonsingular x y)
    (h0 : 2 • Point.some x y h ≠ 0) :
    ∃ x' y' h', 2 • Point.some x y h = .some x' y' h' ∧ x ^ 3 + 1 ≠ 0 ∧
      x' * (4 * (x ^ 3 + 1)) = x ^ 4 - 8 * x := by
  have hne : y ≠ -y := by
    intro hy
    refine h0 ?_
    rw [two_nsmul]
    exact Point.add_self_of_Y_eq (by rwa [negY_eq])
  have hy : y ≠ 0 := by
    rintro rfl
    exact hne neg_zero.symm
  have hxy := MordellCurve.equation_iff.1 h.1
  refine ⟨_, _, _, by rw [two_nsmul]; exact Point.add_self_of_Y_ne (by rwa [negY_eq]), ?_, ?_⟩
  · rw [← hxy]
    exact pow_ne_zero 2 hy
  · rw [addX_eq, slope_self hne]
    have hs : (3 * x ^ 2 / (2 * y)) ^ 2 * (4 * y ^ 2) = 9 * x ^ 4 := by
      field_simp
      ring
    rw [← hxy]
    linear_combination hs - 8 * x * hxy

theorem doubling_eval (h2 : (2 : K) ≠ 0) {x y : K} {h : (mordell K).Nonsingular x y}
    (h0 : ∀ k, 2 ^ k • Point.some x y h ≠ 0) (k : Nat) :
    ∃ u v h', 2 ^ k • Point.some x y h = .some u v h' ∧ (doubling K k).2.eval x ≠ 0 ∧
      u * (doubling K k).2.eval x = (doubling K k).1.eval x := by
  induction k with
  | zero => exact ⟨x, y, h, by simp, by simp [doubling], by simp [doubling]⟩
  | succ k ih =>
      obtain ⟨u, v, h', hP, hB, hu⟩ := ih
      have hsucc : 2 ^ (k + 1) • Point.some x y h = 2 • Point.some u v h' := by
        rw [← hP, ← mul_smul, pow_succ']
      obtain ⟨u', v', h'', hd, hne, hx⟩ := exists_double h2 h' (hsucc ▸ h0 (k + 1))
      refine ⟨u', v', h'', hsucc.trans hd, ?_, ?_⟩
      · have h4 : (4 : K) ≠ 0 := by
          have := pow_ne_zero 2 h2
          norm_num at this
          exact this
        have he : ((doubling K (k + 1)).2).eval x =
            4 * ((doubling K k).2.eval x ^ 4 * (u ^ 3 + 1)) := by
          simp only [doubling, eval_mul, eval_add, eval_pow, eval_C, ← hu]
          ring
        rw [he]
        exact mul_ne_zero h4 (mul_ne_zero (pow_ne_zero 4 hB) hne)
      · simp only [doubling, eval_mul, eval_add, eval_sub, eval_pow, eval_C, ← hu]
        linear_combination (doubling K k).2.eval x ^ 4 * hx

/-- The first coordinates of two points and of their sum. -/
theorem summation_eq_zero {x₁ y₁ x₂ y₂ x₃ y₃ : K} {h₁ : (mordell K).Nonsingular x₁ y₁}
    {h₂ : (mordell K).Nonsingular x₂ y₂} {h₃ : (mordell K).Nonsingular x₃ y₃}
    (h : Point.some x₁ y₁ h₁ + Point.some x₂ y₂ h₂ = .some x₃ y₃ h₃) : summation x₁ x₂ x₃ = 0 := by
  have e₁ := MordellCurve.equation_iff.1 h₁.1
  have e₂ := MordellCurve.equation_iff.1 h₂.1
  by_cases hx : x₁ = x₂
  · subst hx
    rw [summation]
    ring
  · rw [Point.add_of_X_ne hx, Point.some.injEq, addX_eq, slope_of_ne y₁ y₂ hx] at h
    have hs : (x₁ + x₂ + x₃) * (x₁ - x₂) ^ 2 = (y₁ - y₂) ^ 2 := by
      have hne := sub_ne_zero.2 hx
      rw [← h.1]
      field_simp
      ring
    have hmid : x₃ * (x₁ - x₂) ^ 2 - x₁ * x₂ * (x₁ + x₂) - 2 = -2 * (y₁ * y₂) := by
      linear_combination hs + e₁ + e₂
    rw [summation, hmid]
    linear_combination 4 * y₂ ^ 2 * e₁ + 4 * (x₁ ^ 3 + 1) * e₂

/-- Up to sign, a point of order `2 ^ a ± 2 ^ b ± 1` is the sum of its multiples
by the two powers. Its first coordinate is then a root of the polynomial. -/
theorem solinasPolynomial_eval (h2 : (2 : K) ≠ 0) {x y : K} {h : (mordell K).Nonsingular x y}
    (h0 : ∀ k, 2 ^ k • Point.some x y h ≠ 0) {a b : Nat} {s t : Int}
    (hs : s = 1 ∨ s = -1) (ht : t = 1 ∨ t = -1)
    (hsum : (2 ^ a + s * 2 ^ b + t : Int) • Point.some x y h = 0) :
    (solinasPolynomial K a b).eval x = 0 := by
  obtain ⟨u, v, hu, hP, hB, he⟩ := doubling_eval h2 h0 a
  obtain ⟨u', v', hu', hP', hB', he'⟩ := doubling_eval h2 h0 b
  have hsplit : s • Point.some u' v' hu' + t • Point.some x y h = -Point.some u v hu := by
    rw [← hP, ← hP', eq_neg_iff_add_eq_zero, ← hsum, ← natCast_zsmul, ← natCast_zsmul, ← mul_smul,
      ← add_smul, ← add_smul]
    congr 1
    push_cast
    ring
  have hsummation : summation u' x u = 0 := by
    rcases hs with rfl | rfl <;> rcases ht with rfl | rfl <;>
      simp only [one_smul, neg_smul, Point.neg_some] at hsplit <;>
      exact summation_eq_zero hsplit
  have heval : (solinasPolynomial K a b).eval x =
      (doubling K a).2.eval x ^ 2 * (doubling K b).2.eval x ^ 4 * summation u' x u := by
    simp only [solinasPolynomial, summation, eval_sub, eval_mul, eval_add, eval_pow, eval_C, eval_X,
      eval_one, ← he, ← he']
    ring
  rw [heval, hsummation, mul_zero]

end Points

end IdBasedEncryption.TorsionPolynomials
