import IdBasedEncryption.CubeRoots
import IdBasedEncryption.FieldExtension
import IdBasedEncryption.ReducedTate

namespace IdBasedEncryption.MordellGroup

open WeierstrassCurve.Affine CurveDivisors MordellCurve LineReciprocity ReducedTate
open Fp2Value FieldExtension

section Points

variable {F : Type*} [Field F] [DecidableEq F]

theorem three_smul_of_x_eq_zero (h2 : (2 : F) ≠ 0) {y : F} (h : (mordell F).Nonsingular 0 y) :
    3 • Point.some 0 y h = 0 := by
  have hy : y ^ 2 = 1 := by simpa using MordellCurve.equation_iff.1 h.1
  have hy0 : y ≠ 0 := by
    rintro rfl
    simp at hy
  have hne : y ≠ -y := by
    intro he
    have h0 : 2 * y = 0 := by linear_combination he
    exact (mul_ne_zero h2 hy0) h0
  have hdouble : Point.some 0 y h + Point.some 0 y h = -Point.some 0 y h := by
    rw [Point.add_self_of_Y_ne (by rwa [negY_eq]), Point.neg_some, Point.some.injEq, slope_self hne]
    simp
  rw [show 3 = 2 + 1 by rfl, add_nsmul, two_nsmul, one_nsmul, hdouble, neg_add_cancel]

theorem two_smul_of_y_eq_zero {x : F} (h : (mordell F).Nonsingular x 0) :
    2 • Point.some x 0 h = 0 := by
  rw [two_nsmul]
  exact Point.add_of_Y_eq rfl (by simp)

theorem coprime_order_ne_zero {q k : Nat} (hq : q.Coprime k) (hq1 : q ≠ 1)
    {A : (mordell F).Point} (hA : addOrderOf A = q) : k • A ≠ 0 := by
  intro h
  have hdvd := addOrderOf_dvd_of_nsmul_eq_zero h
  rw [hA] at hdvd
  exact hq1 (hq.eq_one_of_dvd hdvd)

end Points

variable {p : Nat} [hp : Fact p.Prime] [hp12 : Fact (p % 12 = 11)]

abbrev E (p : Nat) [Fact p.Prime] := (mordell (ZMod p)).Point

theorem six_ne_zero : (6 : ZMod p) ≠ 0 := by
  have h12 := hp12.out
  exact_mod_cast natCast_ne_zero_of_lt (p := p) (k := 6) (by omega) (by omega)

theorem two_ne_zero' : (2 : ZMod p) ≠ 0 := two_ne_zero_of_six six_ne_zero

omit hp12 in
theorem two_ne_zero_of_odd [hp2 : Fact (p % 2 = 1)] : (2 : ZMod p) ≠ 0 := by
  have h2 := hp2.out
  have hp1 := hp.out.one_lt
  exact_mod_cast natCast_ne_zero_of_lt (p := p) (k := 2) (by omega) (by omega)

omit hp in
theorem mod_three : p % 3 = 2 := by
  have h12 := hp12.out
  omega

/-- The exponent that `curve_init` computes takes cube roots. -/
theorem cube_pow (x : ZMod p) : (x ^ 3) ^ ((2 * p - 1) / 3) = x := CubeRoots.cube_pow mod_three x

theorem pow_cube (x : ZMod p) : (x ^ ((2 * p - 1) / 3)) ^ 3 = x := CubeRoots.pow_cube mod_three x

theorem cube_injective {x y : ZMod p} (h : x ^ 3 = y ^ 3) : x = y :=
  CubeRoots.cube_injective mod_three h

theorem nonsingular_cbrt (y : ZMod p) :
    (mordell (ZMod p)).Nonsingular ((y ^ 2 - 1) ^ ((2 * p - 1) / 3)) y := by
  rw [MordellCurve.nonsingular_iff six_ne_zero, pow_cube]
  ring

/-- Every second coordinate belongs to exactly one finite point. -/
def pointEquiv : E p ≃ Option (ZMod p) where
  toFun
    | .zero => none
    | .some _ y _ => some y
  invFun
    | none => .zero
    | some y => .some _ y (nonsingular_cbrt y)
  left_inv := by
    rintro (_ | ⟨x, y, h⟩)
    · rfl
    · have hxy := MordellCurve.equation_iff.1 h.1
      simp only [Point.some.injEq, and_true]
      rw [hxy, add_sub_cancel_right, cube_pow]
  right_inv := by rintro (_ | y) <;> rfl

instance finite_E : Finite (E p) := Finite.of_equiv _ pointEquiv.symm

theorem card_points : Nat.card (E p) = p + 1 := by
  rw [Nat.card_congr pointEquiv, Finite.card_option, Nat.card_zmod]

theorem smul_card (A : E p) : (p + 1) • A = 0 := by
  rw [← card_points (p := p)]
  exact card_nsmul_eq_zero'

theorem x_ne_zero {q : Nat} (hq : q.Prime) (hq3 : 3 < q) {x y : ZMod p}
    {h : (mordell (ZMod p)).Nonsingular x y} (ho : addOrderOf (Point.some x y h) = q) : x ≠ 0 := by
  rintro rfl
  refine coprime_order_ne_zero ?_ hq.one_lt.ne' ho (three_smul_of_x_eq_zero two_ne_zero' h)
  exact (Nat.coprime_primes hq Nat.prime_three).2 (by omega)

omit hp12 in
theorem y_ne_zero {q : Nat} (hq : q.Prime) (hq3 : 3 < q) {x y : ZMod p}
    {h : (mordell (ZMod p)).Nonsingular x y} (ho : addOrderOf (Point.some x y h) = q) : y ≠ 0 := by
  rintro rfl
  refine coprime_order_ne_zero ?_ hq.one_lt.ne' ho (two_smul_of_y_eq_zero h)
  exact (Nat.coprime_primes hq Nat.prime_two).2 (by omega)

omit hp12 in
theorem addOrderOf_smul {q k : Nat} (hq : q.Prime) {A : E p} (hA : addOrderOf A = q) (hk : ¬q ∣ k) :
    addOrderOf (k • A) = q := by
  have hcop : (addOrderOf A).Coprime k := by
    rw [hA]
    exact (Nat.Prime.coprime_iff_not_dvd hq).2 hk
  rw [Nat.Coprime.addOrderOf_nsmul hcop, hA]

omit hp12 in
theorem addOrderOf_eq {q : Nat} (hq : q.Prime) {A : E p} (hA : q • A = 0) (h0 : A ≠ 0) :
    addOrderOf A = q := by
  have : Fact q.Prime := ⟨hq⟩
  exact addOrderOf_eq_prime hA h0

omit hp12 in
theorem ne_zero_of_order {q : Nat} (hq : q.Prime) {A : E p} (hA : addOrderOf A = q) : A ≠ 0 := by
  rintro rfl
  exact hq.one_lt.ne (addOrderOf_zero.symm.trans hA)

omit hp12 in
theorem smul_eq_zero_of_order {q : Nat} {A : E p} (hA : addOrderOf A = q) : q • A = 0 := by
  rw [← hA]
  exact addOrderOf_nsmul_eq_zero A

omit hp12 in
theorem two_pow_nsmul_ne_zero {q : Nat} (hq : q.Prime) (hq3 : 3 < q) {A : E p} (hA : q • A = 0)
    (h0 : A ≠ 0) (k : Nat) : 2 ^ k • A ≠ 0 :=
  coprime_order_ne_zero (Nat.Coprime.pow_right k ((Nat.coprime_primes hq Nat.prime_two).2
    (by omega))) hq.one_lt.ne' (addOrderOf_eq hq hA h0)

omit hp12 in
theorem add_self_ne_zero {q : Nat} (hq : q.Prime) (hq3 : 3 < q) {A : E p} (hA : q • A = 0)
    (h0 : A ≠ 0) : A + A ≠ 0 := by
  have h := two_pow_nsmul_ne_zero hq hq3 hA h0 1
  rwa [pow_one, two_nsmul] at h

theorem avoiding {q : Nat} (hq : q.Prime) (hq3 : 3 < q) {A : E p} (hA : addOrderOf A = q) :
    Avoiding (zeta p) q A where
  order := hA
  one_lt := hq.one_lt
  ne k hk hkq hz S := by
    have ho := addOrderOf_smul hq hA (k := k) fun h => absurd (Nat.le_of_dvd hk h) (by omega)
    cases S with
    | zero => exact one_ne_zero
    | some x y h =>
        generalize k • A = B at ho ⊢
        cases B with
        | zero => exact absurd (addOrderOf_zero.symm.trans ho) hq.one_lt.ne
        | some u v hu =>
            simpa [sub_eq_zero] using zeta_mul_ne (a := x) (x_ne_zero hq hq3 ho)

theorem finalExponent {q : Nat} (hq : q ∣ p + 1) :
    FinalExponent (ZMod p) (K p) ((p - 1) * ((p + 1) / q)) q where
  const c hc := by rw [pow_mul, algebraMap_pow_sub_one hc, one_pow]
  pow w hw := by
    rw [← pow_mul, mul_left_comm, Nat.mul_div_cancel' hq, pow_card_sub_one hw]

end IdBasedEncryption.MordellGroup
