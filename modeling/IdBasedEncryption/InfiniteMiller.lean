import IdBasedEncryption.SlidingMiller

namespace IdBasedEncryption.InfiniteMiller

open WeierstrassCurve.Affine MordellCurve
open Gmp Fp2Arith Fp2Value FieldExtension MordellGroup CurvePoints PointValues PointAddition
open GeneralMultiples GeneralMiller EvaluatedLines MillerSteps

variable {p : Nat} [hp : Fact p.Prime] [hp12 : Fact (p % 12 = 11)] {Qhat R2 Z B : Point}
  {A A' : E2 p} {f : K p} {n j q : Nat} {s : Accumulator} {e : Fp2 × Point}

/-- The quotient is the power of `f` alone. -/
def Powers (f : K p) (n : Nat) (v d : K p) : Prop := d ≠ 0 ∧ v / d = f ^ n

/-- The vertical through `B` at the coordinates that the infinite points store. -/
noncomputable def storedVertical (Qhat R2 : Point) : E2 p → K p
  | .zero => 1
  | .some x _ _ => (val p Qhat.x - x) / (val p R2.x - x)

open Classical in
/-- What the last step contributes when it adds `B`. Only opposite points that are
recognised have a line. -/
noncomputable def storedFactor (Qhat R2 : Point) (B : E2 p) : K p :=
  if MissedInverse (-B) B then 1 else storedVertical Qhat R2 B

theorem storedFactor_eq_one (hx : Qhat.x = R2.x) {B : E2 p} (h : storedFactor Qhat R2 B ≠ 0) :
    storedFactor Qhat R2 B = 1 := by
  rw [storedFactor] at h ⊢
  split
  · rfl
  · rename_i hmiss
    rw [if_neg hmiss] at h
    cases B with
    | zero => rfl
    | some x y hxy =>
        rw [storedVertical, hx] at h ⊢
        exact div_self fun h0 => h (by rw [h0, div_zero])

section Lines

omit hp hp12 in
theorem getVertical_of_infinite (hQ : Qhat.infinity = true) (p : Int) (P : Point) :
    getVertical Qhat R2 P p = (none, none) := if_pos (by simp [hQ])

variable (hQ : Qhat.infinity = true) (hR : R2.infinity = true)
include hQ hR

omit hp hp12 in
theorem evalLines_of_infinite (a b c : Fp2) (p : Int) :
    (evalLine Qhat a b c p, evalLine R2 a b c p) = (none, none) := by
  rw [evalLine, evalLine, if_pos hQ, if_pos hR]

theorem getTangent_of_infinite (hZ : Canonical Z A) (hA : A ≠ 0 → A + A ≠ 0) :
    getTangent Qhat R2 Z p = (none, none) := by
  rw [getTangent]
  cases A with
  | zero => exact if_pos (hZ.infinity.2 rfl)
  | some x y h =>
      obtain ⟨-, hy⟩ := hZ.coordinates _ _ _ rfl
      have hneg := y_ne_neg_of_add_self (hA (Point.some_ne_zero h))
      have hy0 : ¬fp2Is0 Z.y = true := by
        intro h0
        have hZ0 : Z.y = fp2Set0 := by simpa [fp2Is0, fp2Set0, Fp2.ext_iff] using h0
        rw [← hy, hZ0, val_fp2Set0, neg_zero] at hneg
        exact hneg rfl
      rw [if_neg (by simp [hZ.finite]), if_neg hy0]
      exact evalLines_of_infinite hQ hR _ _ _ p

theorem getLine_of_infinite (hZ : Canonical Z A) (hB : Canonical B A') (hne : A + A' ≠ 0) :
    getLine Qhat R2 Z B p = (none, none) := by
  rw [getLine]
  cases A with
  | zero =>
      rw [if_pos (hZ.infinity.2 rfl)]
      exact getVertical_of_infinite hQ p B
  | some x₁ y₁ hxy₁ =>
      rw [if_neg (by simp [hZ.finite])]
      cases A' with
      | zero =>
          rw [if_pos (hB.infinity.2 rfl)]
          exact getVertical_of_infinite hQ p Z
      | some x₂ y₂ hxy₂ =>
          obtain ⟨hx₁, hy₁⟩ := hZ.coordinates _ _ _ rfl
          obtain ⟨hx₂, hy₂⟩ := hB.coordinates _ _ _ rfl
          rw [if_neg (by simp [hB.finite])]
          split
          · rename_i hx
            have hx12 : x₁ = x₂ := by rw [← hx₁, ← hx₂, (fp2Equal_iff _ _).1 hx]
            subst hx12
            have hy12 : y₁ ≠ -y₂ := fun h => hne (Point.add_of_Y_eq rfl (by simpa using h))
            obtain rfl : y₁ = y₂ := Y_eq_of_Y_ne hxy₁.1 hxy₂.1 rfl fun h => hy12 (by simpa using h)
            have hneg : ¬fp2Equal Z.y (fp2Neg B.y p) = true := by
              intro h
              have hval := congrArg (val p) ((fp2Equal_iff _ _).1 h)
              rw [val_fp2Neg, hy₁, hy₂] at hval
              exact hy12 hval
            rw [if_neg hneg]
            exact getTangent_of_infinite hQ hR hZ fun _ => hne
          · exact evalLines_of_infinite hQ hR _ _ _ p

end Lines

section Steps

variable (hQ : Qhat.infinity = true) (hR : R2.infinity = true)
include hQ hR

omit hQ hR in
theorem powers_one (f : K p) : Powers f 1 f 1 := ⟨one_ne_zero, by rw [div_one, pow_one]⟩

omit hQ hR in
theorem Powers.mul {v d v' d' : K p} (h : Powers f n v d) (h' : Powers f j v' d') :
    Powers f (n + j) (v * v') (d * d') :=
  ⟨mul_ne_zero h.1 h'.1, by rw [mul_div_mul_comm, h.2, h'.2, pow_add]⟩

theorem stepRule_powers (hq : q.Prime) (hq2 : 2 < q) (hA : addOrderOf A = q) (f : K p) :
    StepRule (Powers f) A Qhat R2 where
  zero := ⟨one_ne_zero, by rw [div_one, pow_zero]⟩
  div n v d h := ⟨one_ne_zero, by rw [div_one, h.2]⟩
  line n j Z B v d v' d' hZ hB hne h h' := by
    rw [getLine_of_infinite hQ hR hZ hB hne, getVertical_of_infinite hR]
    simpa [lineValue] using h.mul h'
  tangent n Z v d v' d' hZ h h' := by
    rw [getTangent_of_infinite hQ hR hZ (double_ne_zero hq hq2 hA), getVertical_of_infinite hR]
    simpa [lineValue] using h.mul h'

/-- The step that reaches infinity. -/
theorem div_addStep (hq : q.Prime) (hq2 : 2 < q) (hA : addOrderOf A = q)
    (hs : Holds (Powers f) A n s) (he : Entry (Powers f) A j e) (hnj : n + j = q) :
    val p (addStep Qhat R2 e.1 e.2 p s).v / val p (addStep Qhat R2 e.1 e.2 p s).vdenom =
      f ^ q * storedFactor Qhat R2 (j • A) := by
  have hsum : n • A + j • A = 0 := by rw [← add_nsmul, hnj, nsmul_eq_zero_iff hA]
  have hneg : n • A = -(j • A) := eq_neg_of_add_eq_zero_left hsum
  have hpow := hs.value.mul he.value
  rw [mul_one, hnj] at hpow
  simp only [addStep, val_mul_v, val_mul_vdenom, val_fp2Mul, getVertical_of_infinite hR]
  simp only [lineValue, Option.map_none, Option.getD_none, mul_one]
  rw [mul_div_mul_comm, hpow.2]
  congr 1
  by_cases hmiss : MissedInverse (n • A) (j • A)
  · obtain ⟨hline, -⟩ := eq_double_of_missedInverse Qhat R2 hs.point he.point hmiss
    rw [storedFactor, if_pos (hneg ▸ hmiss), hline,
      getTangent_of_infinite hQ hR hs.point (double_ne_zero hq hq2 hA)]
    simp
  · rw [storedFactor, if_neg (hneg ▸ hmiss)]
    have hZ := hs.point
    have hB := he.point
    rw [hneg] at hZ hmiss
    cases hj : j • A with
    | zero =>
        rw [hj] at hB
        rw [getLine, if_pos (hB.infinity.2 rfl), getVertical_of_infinite hQ,
          getVertical_of_infinite hQ, ite_self]
        simp [storedVertical]
    | some x y h =>
        rw [hj] at hB hZ hmiss
        rw [getLine_neg _ _ hZ hB (Point.some_ne_zero h) hmiss]
        rw [Point.neg_some] at hZ
        simp [storedVertical, val_fp2Sub, (hZ.coordinates _ _ _ rfl).1]

end Steps

end IdBasedEncryption.InfiniteMiller
