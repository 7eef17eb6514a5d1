import IdBasedEncryption.EvaluatedLines
import IdBasedEncryption.GeneralMultiples

namespace IdBasedEncryption.MillerSteps

open WeierstrassCurve.Affine CurveDivisors MillerFunctions MillerRatios MordellCurve
open Gmp SlidingWindow Fp2Arith Fp2Value FieldExtension MordellGroup CurvePoints
open PointValues PointAddition GeneralMultiples GeneralMiller EvaluatedLines

variable {p : Nat} [hp : Fact p.Prime] [hp12 : Fact (p % 12 = 11)]

section Invariant

variable (C : Nat → K p → K p → Prop) (A : E2 p)

/-- The loops have come to `n A`, with a quotient that `C` allows there. -/
structure Holds (n : Nat) (s : Accumulator) : Prop where
  point : Canonical s.Z (n • A)
  value : C n (val p s.v) (val p s.vdenom)

/-- An entry of the tables `g` and `bP`. -/
structure Entry (j : Nat) (e : Fp2 × Point) : Prop where
  point : Canonical e.2 (j • A)
  value : C j (val p e.1) 1

/-- `C` is kept by the lines of every step that does not lead to infinity. -/
structure StepRule (Qhat R2 : Point) : Prop where
  zero : C 0 1 1
  div : ∀ n v d, C n v d → C n (v / d) 1
  line : ∀ n j Z B v d v' d', Canonical Z (n • A) → Canonical B (j • A) → n • A + j • A ≠ 0 →
    C n v d → C j v' d' → C (n + j)
      (v * v' * lineValue p (getLine Qhat R2 Z B p).1 *
        lineValue p (getVertical R2 Qhat (pointAdd Z B p) p).1)
      (d * d' * lineValue p (getLine Qhat R2 Z B p).2 *
        lineValue p (getVertical R2 Qhat (pointAdd Z B p) p).2)
  tangent : ∀ n Z v d v' d', Canonical Z (n • A) → C n v d → C n v' d' → C (n + n)
    (v * v' * lineValue p (getTangent Qhat R2 Z p).1 *
      lineValue p (getVertical R2 Qhat (pointAdd Z Z p) p).1)
    (d * d' * lineValue p (getTangent Qhat R2 Z p).2 *
      lineValue p (getVertical R2 Qhat (pointAdd Z Z p) p).2)

variable {C A} {Qhat R2 : Point}

theorem StepRule.holds_accumulatorInit (hC : StepRule C A Qhat R2) :
    Holds C A 0 accumulatorInit where
  point := by
    rw [zero_nsmul]
    exact canonical_pointSetO
  value := by
    rw [accumulatorInit, val_fp2Set1]
    exact hC.zero

end Invariant

section Steps

variable {C : Nat → K p → K p → Prop} {A : E2 p} {Qhat R2 : Point} {n j : Nat} {s : Accumulator}
  {e e' : Fp2 × Point} {l : Lines}

omit hp12 in
@[simp] theorem val_mul_v (s : Accumulator) (l : Lines) :
    val p (s.mul l p).v = val p s.v * lineValue p l.1 := val_mulLine ..

omit hp12 in
@[simp] theorem val_mul_vdenom (s : Accumulator) (l : Lines) :
    val p (s.mul l p).vdenom = val p s.vdenom * lineValue p l.2 := val_mulLine ..

theorem StepRule.addStep (hC : StepRule C A Qhat R2) (hs : Holds C A n s) (he : Entry C A j e)
    (hne : n • A + j • A ≠ 0) : Holds C A (n + j) (addStep Qhat R2 e.1 e.2 p s) where
  point := by
    rw [add_nsmul]
    exact (canonical_pointAdd_iff hs.point he.point).2 (not_missedInverse hne)
  value := by
    have h := hC.line n j _ _ _ _ _ _ hs.point he.point hne hs.value he.value
    rw [mul_one] at h
    simp only [GeneralMiller.addStep, val_mul_v, val_mul_vdenom, val_fp2Mul]
    exact h

theorem StepRule.doubleStep (hC : StepRule C A Qhat R2) (hs : Holds C A n s)
    (hne : ¬MissedInverse (n • A) (n • A)) :
    Holds C A (2 * n) (doubleStep Qhat R2 (getTangent Qhat R2 s.Z p) p s) where
  point := by
    rw [two_mul, add_nsmul]
    exact (canonical_pointAdd_iff hs.point hs.point).2 hne
  value := by
    have h := hC.tangent n _ _ _ _ _ hs.point hs.value hs.value
    rw [two_mul]
    simp only [GeneralMiller.doubleStep, val_mul_v, val_mul_vdenom, val_fp2Sqr, sq]
    exact h

end Steps

section Entries

variable {C : Nat → K p → K p → Prop} {A : E2 p} {Qhat R2 : Point} {j k : Nat} {e e' : Fp2 × Point}
  {l : Lines}

/-- The factors that a new entry takes from its two lines. -/
def entryLines (Qhat R2 : Point) (l : Lines) (bP : Point) (p : Int) : Accumulator :=
  (accumulatorInit.mul l p).mul (getVertical R2 Qhat bP p) p

variable (p Qhat R2) in
omit hp12 in
theorem val_entryLines (l : Lines) (bP : Point) :
    val p (entryLines Qhat R2 l bP p).v =
        lineValue p l.1 * lineValue p (getVertical R2 Qhat bP p).1 ∧
      val p (entryLines Qhat R2 l bP p).vdenom =
        lineValue p l.2 * lineValue p (getVertical R2 Qhat bP p).2 := by
  simp only [entryLines, val_mul_v, val_mul_vdenom, accumulatorInit, val_fp2Set1, one_mul, and_self]

/-- A new entry, with what `C` says about the lines that it takes. -/
theorem StepRule.entry (hC : StepRule C A Qhat R2) {bP : Point} (hbP : Canonical bP ((j + k) • A))
    (h : C (j + k)
      (val p e.1 * val p e'.1 * lineValue p l.1 * lineValue p (getVertical R2 Qhat bP p).1)
      (1 * 1 * lineValue p l.2 * lineValue p (getVertical R2 Qhat bP p).2)) {g : Fp2}
    (hg : val p g = val p e.1 * val p e'.1 * val p (entryLines Qhat R2 l bP p).v /
      val p (entryLines Qhat R2 l bP p).vdenom) : Entry C A (j + k) (g, bP) := by
  obtain ⟨hv, hd⟩ := val_entryLines p Qhat R2 l bP
  have hvalue := hC.div _ _ _ h
  rw [one_mul, one_mul, mul_assoc (val p e.1 * val p e'.1), ← hv, ← hd, ← hg] at hvalue
  exact ⟨hbP, hvalue⟩

omit hp12 in
/-- The checks behind a new entry keep the vertical through its point from vanishing. -/
theorem vertical_ne_zero {bP : Point} (hv : val p (entryLines Qhat R2 l bP p).v ≠ 0)
    (hd : val p (entryLines Qhat R2 l bP p).vdenom ≠ 0) :
    lineValue p (getVertical R2 Qhat bP p).1 ≠ 0 ∧ lineValue p (getVertical R2 Qhat bP p).2 ≠ 0 := by
  obtain ⟨hv', hd'⟩ := val_entryLines p Qhat R2 l bP
  rw [hv'] at hv
  rw [hd'] at hd
  exact ⟨right_ne_zero_of_mul hv, right_ne_zero_of_mul hd⟩

end Entries

section Ratios

variable {Qhat R2 : Point} {e₁ e₂ : Functions p →+* K p} {A : E2 p} {f : K p} {n j : Nat}
  {s : Accumulator} {e : Fp2 × Point}

/-- The quotient is the ratio of a Miller function at the two points, with `f` for
the function `f_1`. -/
def Ratios (e₁ e₂ : Functions p →+* K p) (A : E2 p) (f : K p) (n : Nat) (v d : K p) : Prop :=
  Carries e₁ e₂ A (n • A) n (f ^ n) v d

open Classical in
/-- What the last step contributes beside the function, when it adds `B`. -/
noncomputable def lastFactor (e₁ e₂ : Functions p →+* K p) (B : E2 p) : K p :=
  if MissedInverse (-B) B then slip e₁ e₂ B else 1

theorem ratios_one (e₁ e₂ : Functions p →+* K p) (A : E2 p) (f : K p) : Ratios e₁ e₂ A f 1 f 1 := by
  rw [Ratios, one_nsmul, pow_one]
  exact Carries.one A f

variable (h₁ : EvaluatesAt Qhat e₁) (h₂ : EvaluatesAt R2 e₂)
include h₁ h₂

theorem vertical_values_ne_zero {B : Point} (hB : Canonical B A)
    (hv : lineValue p (getVertical R2 Qhat B p).1 ≠ 0)
    (hd : lineValue p (getVertical R2 Qhat B p).2 ≠ 0) :
    e₁ (vertical A) ≠ 0 ∧ e₂ (vertical A) ≠ 0 := by
  obtain ⟨c, -, hb₂, hb₁⟩ := valuesOf_getVertical h₂ h₁ hB
  rw [hb₂] at hv
  rw [hb₁] at hd
  exact ⟨right_ne_zero_of_mul hd, right_ne_zero_of_mul hv⟩

theorem Ratios.add {Z B : Point} {v d v' d' : K p} {l : Lines} (h : Ratios e₁ e₂ A f n v d)
    (h' : Ratios e₁ e₂ A f j v' d') (hZ : Canonical Z (n • A)) (hB : Canonical B (j • A))
    (hne : ¬MissedInverse (n • A) (j • A))
    (hl : ValuesOf e₁ e₂ (chord (n • A) (j • A)) (lineValue p l.1) (lineValue p l.2)) :
    Ratios e₁ e₂ A f (n + j)
      (v * v' * lineValue p l.1 * lineValue p (getVertical R2 Qhat (pointAdd Z B p) p).1)
      (d * d' * lineValue p l.2 * lineValue p (getVertical R2 Qhat (pointAdd Z B p) p).2) := by
  have hsum := (canonical_pointAdd_iff hZ hB).2 hne
  rw [Ratios, add_nsmul, pow_add]
  exact Carries.add h h' hl (valuesOf_getVertical h₂ h₁ hsum)

theorem stepRule_ratios {q : Nat} (hq : q.Prime) (hq2 : 2 < q) (hA : addOrderOf A = q) (f : K p) :
    StepRule (Ratios e₁ e₂ A f) A Qhat R2 where
  zero := by
    rw [Ratios, zero_nsmul, pow_zero]
    exact Carries.zero A
  div _ _ _ h := Carries.div h
  line n j Z B v d v' d' hZ hB hne h h' :=
    h.add h₁ h₂ h' hZ hB (not_missedInverse hne)
      (valuesOf_getLine h₁ h₂ hZ hB (not_missedInverse hne))
  tangent n Z v d v' d' hZ h h' :=
    h.add h₁ h₂ h' hZ hZ (not_missedInverse_self hq hq2 hA n)
      (valuesOf_getTangent h₁ h₂ hZ (double_ne_zero hq hq2 hA))

/-- The step that reaches infinity. It takes the two points for equal ones when
it does not recognise them as opposite. -/
theorem Holds.closes {q : Nat} (hq : q.Prime) (hq2 : 2 < q) (hA : addOrderOf A = q)
    (hs : Holds (Ratios e₁ e₂ A f) A n s) (he : Entry (Ratios e₁ e₂ A f) A j e) (hnj : n + j = q)
    (hv₁ : e₁ (vertical (j • A)) ≠ 0) (hv₂ : e₂ (vertical (j • A)) ≠ 0)
    (hv : val p (addStep Qhat R2 e.1 e.2 p s).v ≠ 0)
    (hd : val p (addStep Qhat R2 e.1 e.2 p s).vdenom ≠ 0) :
    Closes e₁ e₂ A q (f ^ q) (lastFactor e₁ e₂ (j • A))
      (val p (addStep Qhat R2 e.1 e.2 p s).v) (val p (addStep Qhat R2 e.1 e.2 p s).vdenom) := by
  have hsum : n • A + j • A = 0 := by rw [← add_nsmul, hnj, nsmul_eq_zero_iff hA]
  have hneg : n • A = -(j • A) := eq_neg_of_add_eq_zero_left hsum
  simp only [addStep, val_mul_v, val_mul_vdenom, val_fp2Mul] at hv hd ⊢
  by_cases hmiss : MissedInverse (n • A) (j • A)
  · rw [lastFactor, if_pos (hneg ▸ hmiss)]
    obtain ⟨hline, hadd⟩ := eq_double_of_missedInverse Qhat R2 hs.point he.point hmiss
    have hself := not_missedInverse_self hq hq2 hA n
    have hZ : Canonical (pointAdd s.Z s.Z p) (n • A + n • A) :=
      (canonical_pointAdd_iff hs.point hs.point).2 hself
    have hchord := valuesOf_getTangent h₁ h₂ hs.point (double_ne_zero hq hq2 hA)
    have hvertical := valuesOf_getVertical h₂ h₁ hZ
    rw [hline, hadd] at hv hd ⊢
    have hcarries := hs.value
    rw [Ratios, hneg] at hcarries
    rw [hneg] at hchord hvertical
    have hcloses := hcarries.closes_slip he.value hchord hvertical hv₁ hv₂
      (left_ne_zero_of_mul (left_ne_zero_of_mul hv))
      (by rw [mul_one]; exact left_ne_zero_of_mul (left_ne_zero_of_mul hd))
    rwa [hnj, ← pow_add, hnj, mul_one] at hcloses
  · rw [lastFactor, if_neg (hneg ▸ hmiss)]
    have hvalue := hs.value.add h₁ h₂ he.value hs.point he.point hmiss
      (valuesOf_getLine h₁ h₂ hs.point he.point hmiss)
    rw [Ratios, hnj, (nsmul_eq_zero_iff hA q).2 dvd_rfl, mul_one] at hvalue
    exact hvalue.closes hv hd

end Ratios

end IdBasedEncryption.MillerSteps
