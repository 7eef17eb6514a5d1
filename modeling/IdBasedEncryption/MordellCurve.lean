import Mathlib

namespace IdBasedEncryption.MordellCurve

open WeierstrassCurve.Affine

/-- The curve `y ^ 2 = x ^ 3 + 1`. -/
@[simps]
def mordell (F : Type*) [Field F] : WeierstrassCurve.Affine F := ⟨0, 0, 0, 0, 1⟩

variable {F K : Type*} [Field F] [Field K]

theorem equation_iff {x y : F} : (mordell F).Equation x y ↔ y ^ 2 = x ^ 3 + 1 := by
  simp [WeierstrassCurve.Affine.equation_iff]

@[simp] theorem negY_eq (x y : F) : (mordell F).negY x y = -y := by
  simp [negY]

@[simp] theorem addX_eq (x₁ x₂ l : F) : (mordell F).addX x₁ x₂ l = l ^ 2 - x₁ - x₂ := by
  simp [addX]

@[simp] theorem addY_eq (x₁ x₂ y₁ l : F) :
    (mordell F).addY x₁ x₂ y₁ l = -(l * (l ^ 2 - x₁ - x₂ - x₁) + y₁) := by
  rw [addY, negY_eq, negAddY, addX_eq]

section Slope

variable [DecidableEq F]

theorem slope_of_ne {x₁ x₂ : F} (y₁ y₂ : F) (h : x₁ ≠ x₂) :
    (mordell F).slope x₁ x₂ y₁ y₂ = (y₁ - y₂) / (x₁ - x₂) :=
  slope_of_X_ne h

theorem slope_mul_sub {x₁ x₂ : F} (y₁ y₂ : F) (h : x₁ ≠ x₂) :
    (mordell F).slope x₁ x₂ y₁ y₂ * (x₂ - x₁) = y₂ - y₁ := by
  rw [slope_of_ne y₁ y₂ h, ← neg_sub x₁, mul_neg, div_mul_cancel₀ _ (sub_ne_zero.2 h), neg_sub]

theorem slope_self {x y : F} (h : y ≠ -y) :
    (mordell F).slope x x y y = 3 * x ^ 2 / (2 * y) := by
  rw [slope_of_Y_ne rfl (by rwa [negY_eq])]
  simp [two_mul]

theorem x_ne_of_add_ne_zero {x₁ y₁ x₂ y₂ : F} {h₁ : (mordell F).Nonsingular x₁ y₁}
    {h₂ : (mordell F).Nonsingular x₂ y₂} (hne : Point.some x₁ y₁ h₁ ≠ .some x₂ y₂ h₂)
    (hadd : Point.some x₁ y₁ h₁ + .some x₂ y₂ h₂ ≠ 0) : x₁ ≠ x₂ := by
  intro hx
  have hor : Point.some x₁ y₁ h₁ = .some x₂ y₂ h₂ ∨ Point.some x₁ y₁ h₁ = -.some x₂ y₂ h₂ :=
    Point.X_eq_iff.1 hx
  refine hor.elim hne fun h => hadd ?_
  rw [h, neg_add_cancel]

theorem y_ne_neg_of_add_self {x y : F} {h : (mordell F).Nonsingular x y}
    (hadd : Point.some x y h + .some x y h ≠ 0) : y ≠ -y := fun he =>
  hadd (Point.add_self_of_Y_eq (by rwa [negY_eq]))

theorem y_ne_zero_of_add_self {x y : F} {h : (mordell F).Nonsingular x y}
    (hadd : Point.some x y h + .some x y h ≠ 0) : y ≠ 0 := by
  rintro rfl
  exact y_ne_neg_of_add_self hadd neg_zero.symm

theorem some_add_self {x y l x' y' : F} {h : (mordell F).Nonsingular x y}
    {h' : (mordell F).Nonsingular x' y'} (hy : y ≠ -y) (hl : l * (2 * y) = 3 * x ^ 2)
    (hx' : x' = l ^ 2 - x - x) (hy' : y' = l * (x - x') - y) :
    Point.some x y h + .some x y h = .some x' y' h' := by
  have h2 : 2 * y ≠ 0 := fun h2 => hy (by linear_combination h2)
  have hs : (mordell F).slope x x y y = l := by rw [slope_self hy, div_eq_iff h2, hl]
  rw [Point.add_self_of_Y_ne (by rwa [negY_eq]), Point.some.injEq, addX_eq, addY_eq, hs]
  subst hx' hy'
  exact ⟨rfl, by ring⟩

theorem some_add_some {x₁ y₁ x₂ y₂ l x' y' : F} {h₁ : (mordell F).Nonsingular x₁ y₁}
    {h₂ : (mordell F).Nonsingular x₂ y₂} {h' : (mordell F).Nonsingular x' y'} (hx : x₁ ≠ x₂)
    (hl : l * (x₁ - x₂) = y₁ - y₂) (hx' : x' = l ^ 2 - x₁ - x₂) (hy' : y' = l * (x₁ - x') - y₁) :
    Point.some x₁ y₁ h₁ + .some x₂ y₂ h₂ = .some x' y' h' := by
  have hs : (mordell F).slope x₁ x₂ y₁ y₂ = l := by
    rw [slope_of_ne y₁ y₂ hx, div_eq_iff (sub_ne_zero.2 hx), hl]
  rw [Point.add_of_X_ne hx, Point.some.injEq, addX_eq, addY_eq, hs]
  subst hx' hy'
  exact ⟨rfl, by ring⟩

/-- The line `y = l x + k` through two points meets the curve in three points,
whose first coordinates have these symmetric functions. -/
theorem chord_symmetric {x₁ x₂ y₁ y₂ l k x₃ : F} (h₁ : (mordell F).Equation x₁ y₁)
    (h₂ : (mordell F).Equation x₂ y₂) (hxy : ¬(x₁ = x₂ ∧ y₁ = (mordell F).negY x₂ y₂))
    (hl : l = (mordell F).slope x₁ x₂ y₁ y₂) (hk : k = y₁ - l * x₁) (hx₃ : x₃ = l ^ 2 - x₁ - x₂) :
    x₁ * x₂ + x₁ * x₃ + x₂ * x₃ = -2 * l * k ∧ x₁ * x₂ * x₃ = k ^ 2 - 1 := by
  have hpoly := addPolynomial_slope h₁ h₂ hxy
  rw [← hl, addPolynomial_eq, neg_inj, addX_eq, ← hx₃, Cubic.prod_X_sub_C_eq,
    Cubic.toPoly_injective] at hpoly
  simp only [Cubic.mk.injEq, mordell_a₁, mordell_a₂, mordell_a₃, mordell_a₄, mordell_a₆] at hpoly
  obtain ⟨-, -, hc, hd⟩ := hpoly
  subst hk
  constructor
  · linear_combination -hc
  · linear_combination hd

/-- The second point lies on the line through the first with the given slope. -/
theorem eq_slope_mul_add {x₁ x₂ y₁ y₂ l : F} (h₁ : (mordell F).Equation x₁ y₁)
    (h₂ : (mordell F).Equation x₂ y₂) (hxy : ¬(x₁ = x₂ ∧ y₁ = (mordell F).negY x₂ y₂))
    (hl : l = (mordell F).slope x₁ x₂ y₁ y₂) : y₂ = l * (x₂ - x₁) + y₁ := by
  by_cases hx : x₁ = x₂
  · obtain rfl := Y_eq_of_Y_ne h₁ h₂ hx fun hy => hxy ⟨hx, hy⟩
    simp [hx]
  · rw [hl, slope_of_ne y₁ y₂ hx]
    field_simp [sub_ne_zero.2 hx]
    ring

end Slope

section Nonsingular

variable (h6 : (6 : F) ≠ 0)
include h6

theorem two_ne_zero_of_six : (2 : F) ≠ 0 := fun h => h6 (by linear_combination 3 * h)

theorem three_ne_zero_of_six : (3 : F) ≠ 0 := fun h => h6 (by linear_combination 2 * h)

theorem nonsingular_iff {x y : F} : (mordell F).Nonsingular x y ↔ y ^ 2 = x ^ 3 + 1 := by
  rw [WeierstrassCurve.Affine.nonsingular_iff', equation_iff, and_iff_left_iff_imp]
  intro h
  by_cases hy : y = 0
  · left
    have hx : x ≠ 0 := by
      rintro rfl
      simp [hy] at h
    simpa using ⟨three_ne_zero_of_six h6, hx⟩
  · right
    simpa using ⟨two_ne_zero_of_six h6, hy⟩

end Nonsingular

end IdBasedEncryption.MordellCurve
