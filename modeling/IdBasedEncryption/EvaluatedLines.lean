import IdBasedEncryption.GeneralMiller
import IdBasedEncryption.MillerRatios
import IdBasedEncryption.PointAddition

namespace IdBasedEncryption.EvaluatedLines

open WeierstrassCurve.Affine WeierstrassCurve.Affine.CoordinateRing CurveDivisors MillerFunctions
open MillerRatios MordellCurve Gmp Fp2Arith Fp2Value FieldExtension MordellGroup CurvePoints
open PointValues PointAddition GeneralMiller

variable {p : Nat} [hp : Fact p.Prime] [hp12 : Fact (p % 12 = 11)]

section Evaluation

abbrev Functions (p : Nat) [Fact p.Prime] [Fact (p % 12 = 11)] :=
  WeierstrassCurve.Affine.CoordinateRing (mordell (K p))

/-- The value at the coordinates of a point that the program holds. -/
structure EvaluatesAt (Q : Point) (e : Functions p →+* K p) : Prop where
  finite : Q.infinity = false
  xClass (a : K p) : e (XClass (mordell (K p)) a) = val p Q.x - a
  yClass (a b l : K p) : e (YClass (mordell (K p)) (linePolynomial a b l)) =
    val p Q.y - (l * (val p Q.x - a) + b)
  const (c : K p) : e (algebraMap (K p) (Functions p) c) = c

theorem map_mordell : (mordell (K p)).map (algebraMap (K p) (K p)) = mordell (K p) :=
  WeierstrassCurve.map_id (mordell (K p))

/-- Evaluation at a point of the curve. -/
noncomputable def evalPoint {x y : K p} (h : (mordell (K p)).Equation x y) : Functions p →+* K p :=
  have hmap : ((mordell (K p)).map (algebraMap (K p) (K p))).toAffine.Equation x y :=
    (map_mordell (p := p)).symm ▸ h
  evalAt hmap

theorem evaluatesAt {Q : Point} {x y : K p} {h : (mordell (K p)).Nonsingular x y}
    (hQ : Canonical Q (.some x y h : E2 p)) : EvaluatesAt Q (evalPoint h.1) := by
  obtain ⟨hx, hy⟩ := hQ.coordinates _ _ _ rfl
  refine ⟨hQ.finite, ?_, ?_, ?_⟩
  · intro a
    rw [evalPoint, evalAt_XClass, hx]
    rfl
  · intro a b l
    rw [evalPoint, evalAt_YClass, hx, hy]
    rfl
  · intro c
    rw [evalPoint, evalAt_algebraMap]
    rfl

end Evaluation

section Lines

/-- What an evaluation contributes to a product. -/
def lineValue (p : Nat) (l : Option Fp2) : K p := (l.map (val p)).getD 1

omit hp12 in
theorem val_mulLine (v : Fp2) (l : Option Fp2) :
    val p (mulLine v l p) = val p v * lineValue p l := by
  cases l with
  | none => exact (mul_one _).symm
  | some t => exact val_fp2Mul v t

omit hp in
/-- As `p` is odd, no element is the negative that the program computes of it. -/
theorem ne_fp2Neg (y : Fp2) : y ≠ fp2Neg y p := by
  intro h
  have ha : y.a = p - y.a := congrArg Fp2.a h
  have h12 := hp12.out
  omega

omit hp in
theorem getLine_self (Q₁ Q₂ P : Point) : getLine Q₁ Q₂ P P p = getTangent Q₁ Q₂ P p := by
  rw [getLine]
  split
  · rename_i hP
    rw [getVertical, getTangent, if_pos hP, if_pos hP]
    split <;> rfl
  · rw [if_pos (by simp), if_neg (by simpa using ne_fp2Neg P.y)]

variable {Q₁ Q₂ P P' : Point} {e₁ e₂ : Functions p →+* K p} {A B : E2 p}

theorem valuesOf_one : ValuesOf e₁ e₂ 1 1 1 :=
  ⟨1, one_ne_zero, by rw [map_one, one_mul], by rw [map_one, one_mul]⟩

/-- Opposite points that are recognised have a vertical. -/
theorem getLine_neg (Q₁ Q₂ : Point) (hP : Canonical P (-A)) (hP' : Canonical P' A) (h0 : A ≠ 0)
    (hne : ¬MissedInverse (-A) A) :
    getLine Q₁ Q₂ P P' p = (some (fp2Sub Q₁.x P.x p), some (fp2Sub Q₂.x P.x p)) := by
  cases A with
  | zero => exact absurd rfl h0
  | some x y h =>
      rw [Point.neg_some] at hP
      obtain ⟨hx₁, hy₁⟩ := hP.coordinates _ _ _ rfl
      obtain ⟨hx₂, hy₂⟩ := hP'.coordinates _ _ _ rfl
      have hx : P.x = P'.x := eq_of_val_eq hP.reduced.x hP'.reduced.x (by rw [hx₁, hx₂])
      have hy : P.y = fp2Neg P'.y p := by
        refine (eq_fp2Neg_iff hP.reduced.y hP'.reduced.y).2 ⟨by rw [hy₁, hy₂, negY_eq], ?_⟩
        rw [hy₂, ← not_or]
        exact fun hor => hne ⟨x, y, h, rfl, rfl, hor⟩
      rw [getLine, if_neg (by simp [hP.finite]), if_neg (by simp [hP'.finite]),
        if_pos (by simpa using hx), if_pos (by simpa using hy)]

variable (h₁ : EvaluatesAt Q₁ e₁) (h₂ : EvaluatesAt Q₂ e₂)
include h₁ h₂

theorem valuesOf_sub {x : Fp2} {a : K p} (hx : val p x = a) :
    ValuesOf e₁ e₂ (XClass (mordell (K p)) a) (lineValue p (some (fp2Sub Q₁.x x p)))
      (lineValue p (some (fp2Sub Q₂.x x p))) := by
  refine ⟨1, one_ne_zero, ?_, ?_⟩
  · rw [h₁.xClass, ← hx, one_mul]
    exact val_fp2Sub ..
  · rw [h₂.xClass, ← hx, one_mul]
    exact val_fp2Sub ..

theorem valuesOf_getVertical (hP : Canonical P A) :
    ValuesOf e₁ e₂ (vertical A) (lineValue p (getVertical Q₁ Q₂ P p).1)
      (lineValue p (getVertical Q₁ Q₂ P p).2) := by
  rw [getVertical, if_neg (by simp [h₁.finite, h₂.finite])]
  cases A with
  | zero =>
      rw [if_pos (hP.infinity.2 rfl)]
      exact valuesOf_one
  | some x y h =>
      rw [if_neg (by simp [hP.finite])]
      exact valuesOf_sub h₁ h₂ (hP.coordinates _ _ _ rfl).1

/-- The line `a x + b y + c` with `a = -l b` through a point. -/
theorem valuesOf_evalLine {a b c : Fp2} {x y l : K p} (hb : val p b ≠ 0)
    (ha : val p a = -(l * val p b)) (hc : val p c = -(val p a * x + val p b * y)) :
    ValuesOf e₁ e₂ (YClass (mordell (K p)) (linePolynomial x y l))
      (lineValue p (evalLine Q₁ a b c p)) (lineValue p (evalLine Q₂ a b c p)) := by
  have hline {Q : Point} {e : Functions p →+* K p} (hQ : EvaluatesAt Q e) :
      lineValue p (evalLine Q a b c p) =
        val p b * e (YClass (mordell (K p)) (linePolynomial x y l)) := by
    rw [evalLine, if_neg (by simp [hQ.finite]), hQ.yClass]
    simp only [lineValue, Option.map_some, Option.getD_some, val_fp2Add, val_fp2Mul]
    rw [hc, ha]
    ring
  exact ⟨_, hb, hline h₁, hline h₂⟩

theorem valuesOf_getTangent (hP : Canonical P A) (hA : A ≠ 0 → A + A ≠ 0) :
    ValuesOf e₁ e₂ (chord A A) (lineValue p (getTangent Q₁ Q₂ P p).1)
      (lineValue p (getTangent Q₁ Q₂ P p).2) := by
  rw [getTangent]
  cases A with
  | zero =>
      rw [if_pos (hP.infinity.2 rfl)]
      exact valuesOf_one
  | some x y h =>
      obtain ⟨hx, hy⟩ := hP.coordinates _ _ _ rfl
      have hneg := y_ne_neg_of_add_self (hA (Point.some_ne_zero h))
      have h2 : 2 * y ≠ 0 := fun h0 => hneg (by linear_combination h0)
      have hy0 : ¬fp2Is0 P.y = true := by
        intro h0
        have hP0 : P.y = fp2Set0 := by simpa [fp2Is0, fp2Set0, Fp2.ext_iff] using h0
        rw [← hy, hP0, val_fp2Set0, mul_zero] at h2
        exact h2 rfl
      rw [if_neg (by simp [hP.finite]), if_neg hy0, chord,
        if_neg fun hxy => hneg (by simpa using hxy.2)]
      apply valuesOf_evalLine h₁ h₂
      · rw [val_fp2Add, hy, ← two_mul]
        exact h2
      · have hslope := div_mul_cancel₀ (3 * x ^ 2) h2
        rw [slope_self hneg]
        simp only [val_fp2Neg, val_fp2Mul, val_fp2Add, hx, hy]
        linear_combination hslope
      · simp only [val_fp2Neg, val_fp2Mul, val_fp2Add, hx, hy]

theorem valuesOf_getLine (hP : Canonical P A) (hP' : Canonical P' B) (hne : ¬MissedInverse A B) :
    ValuesOf e₁ e₂ (chord A B) (lineValue p (getLine Q₁ Q₂ P P' p).1)
      (lineValue p (getLine Q₁ Q₂ P P' p).2) := by
  cases A with
  | zero =>
      rw [getLine, if_pos (hP.infinity.2 rfl)]
      exact valuesOf_getVertical h₁ h₂ hP'
  | some x₁ y₁ hxy₁ =>
      cases B with
      | zero =>
          rw [getLine, if_neg (by simp [hP.finite]), if_pos (hP'.infinity.2 rfl)]
          exact valuesOf_getVertical h₁ h₂ hP
      | some x₂ y₂ hxy₂ =>
          obtain ⟨hx₁, hy₁⟩ := hP.coordinates _ _ _ rfl
          obtain ⟨hx₂, hy₂⟩ := hP'.coordinates _ _ _ rfl
          by_cases hx : x₁ = x₂
          · subst hx
            by_cases hy : y₁ = -y₂
            · have hopp : Point.some x₁ y₁ hxy₁ = -Point.some x₁ y₂ hxy₂ := by
                rw [Point.neg_some, Point.some.injEq, negY_eq]
                exact ⟨rfl, hy⟩
              rw [getLine_neg Q₁ Q₂ (hopp ▸ hP) hP' (Point.some_ne_zero _) (hopp ▸ hne), chord,
                if_pos ⟨rfl, by simpa using hy⟩]
              exact valuesOf_sub h₁ h₂ hx₁
            · have hPx : P.x = P'.x := eq_of_val_eq hP.reduced.x hP'.reduced.x (by rw [hx₁, hx₂])
              have hneg := eq_fp2Neg_iff hP.reduced.y hP'.reduced.y
              rw [hy₁, hy₂] at hneg
              obtain rfl : y₁ = y₂ := Y_eq_of_Y_ne hxy₁.1 hxy₂.1 rfl fun h => hy (by simpa using h)
              rw [getLine, if_neg (by simp [hP.finite]), if_neg (by simp [hP'.finite]),
                if_pos (by simpa using hPx), if_neg (by simpa using fun h => hy (hneg.1 h).1)]
              refine valuesOf_getTangent h₁ h₂ hP fun _ h0 => hy ?_
              have hopp : Point.some x₁ y₁ hxy₁ = -Point.some x₁ y₁ hxy₁ :=
                eq_neg_of_add_eq_zero_left h0
              rw [Point.neg_some, Point.some.injEq, negY_eq] at hopp
              exact hopp.2
          · have hPx : ¬P.x = P'.x := fun h => hx (by rw [← hx₁, ← hx₂, h])
            have hsub : x₂ - x₁ ≠ 0 := sub_ne_zero.2 (Ne.symm hx)
            have hsub' : x₁ - x₂ ≠ 0 := sub_ne_zero.2 hx
            rw [getLine, if_neg (by simp [hP.finite]), if_neg (by simp [hP'.finite]),
              if_neg (by simpa using hPx), chord, if_neg fun h => hx h.1]
            apply valuesOf_evalLine h₁ h₂
            · rw [val_fp2Sub, hx₁, hx₂]
              exact hsub
            · have hslope := div_mul_cancel₀ (y₁ - y₂) hsub'
              rw [slope_of_ne _ _ hx]
              simp only [val_fp2Sub, hx₁, hx₂, hy₁, hy₂]
              linear_combination -hslope
            · simp only [val_fp2Neg, val_fp2Mul, val_fp2Add, val_fp2Sub, hx₁, hx₂, hy₁, hy₂]

omit h₁ h₂ in
/-- Opposite points that are not recognised are taken for equal ones. -/
theorem eq_double_of_missedInverse (Q₁ Q₂ : Point) (hP : Canonical P A) (hP' : Canonical P' B)
    (h : MissedInverse A B) : getLine Q₁ Q₂ P P' p = getTangent Q₁ Q₂ P p ∧
      pointAdd P P' p = pointAdd P P p := by
  obtain ⟨x, y, hxy, rfl, hA, hor⟩ := h
  rw [Point.neg_some] at hA
  subst hA
  obtain ⟨hx₁, hy₁⟩ := hP.coordinates _ _ _ rfl
  obtain ⟨hx₂, hy₂⟩ := hP'.coordinates _ _ _ rfl
  have hPx : P.x = P'.x := eq_of_val_eq hP.reduced.x hP'.reduced.x (by rw [hx₁, hx₂])
  have hPy : P.y ≠ fp2Neg P'.y p := by
    intro heq
    obtain ⟨-, hre, him⟩ := (eq_fp2Neg_iff hP.reduced.y hP'.reduced.y).1 heq
    rw [hy₂] at hre him
    exact hor.elim hre him
  have hfinite : ¬P.infinity = true := by simp [hP.finite]
  have hfinite' : ¬P'.infinity = true := by simp [hP'.finite]
  constructor
  · rw [getLine, if_neg hfinite, if_neg hfinite', if_pos (by simpa using hPx),
      if_neg (by simpa using hPy)]
  · rw [pointAdd, pointAdd, if_neg hfinite, if_neg hfinite', if_pos (by simpa using hPx),
      if_neg (by simpa using hPy), if_neg hfinite, if_neg hfinite, if_pos (by simp),
      if_neg (by simpa using ne_fp2Neg P.y)]

end Lines

end IdBasedEncryption.EvaluatedLines
