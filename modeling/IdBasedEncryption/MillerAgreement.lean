import IdBasedEncryption.KeyEncapsulation
import IdBasedEncryption.InfiniteMiller

namespace IdBasedEncryption.MillerAgreement

open WeierstrassCurve.Affine CurveDivisors MillerFunctions MillerRatios MordellCurve
open Gmp Fp2Arith Fp2Value FieldExtension MordellGroup CurvePoints PointValues PointAddition
open GeneralMiller EvaluatedLines NonzeroLines MillerSteps SlidingMiller InfiniteMiller
open KeyEncapsulation

section Main

variable {p : Nat} [hp : Fact p.Prime] [hp12 : Fact (p % 12 = 11)] {P Phat Qhat R1 R2 : Point}
  {curve : Curve} {q : Nat} {A : E2 p}

/-- The first line of the loop is the vertical through `P`. -/
theorem vertical_ne_zero_of_lines {e₁ e₂ : Functions p →+* K p} (h₁ : EvaluatesAt Qhat e₁)
    (h₂ : EvaluatesAt R2 e₂) (hQhat : ReducedPoint p Qhat) (hR2 : ReducedPoint p R2)
    (hP : Canonical P A) {f : Fp2} {m : Nat} (hm : q.testBit m = true)
    (hlines : ∀ t ∈ (simpleLoop P Qhat R2 f q p m accumulatorInit).lines, fp2Is0 t = false) :
    e₁ (vertical A) ≠ 0 ∧ e₂ (vertical A) ≠ 0 := by
  have hsub : (getVertical Qhat R2 P p).1.toList ++ (getVertical Qhat R2 P p).2.toList ⊆
      (simpleLoop P Qhat R2 f q p m accumulatorInit).lines := by
    have hfirst : (getVertical Qhat R2 P p).1.toList ++ (getVertical Qhat R2 P p).2.toList ⊆
        (addStep Qhat R2 f P p accumulatorInit).lines := List.subset_append_left _ _
    cases m with
    | zero =>
        rw [simpleLoop, mpzTstbit_natCast, hm, if_pos rfl]
        exact hfirst
    | succ m =>
        rw [simpleLoop, mpzTstbit_natCast, hm, if_pos rfl]
        exact List.Subset.trans hfirst
          (List.Subset.trans (subset_doubleStep _ _) (subset_simpleLoop _ _ _))
  have hred := reducedLines_getVertical hQhat hR2 hP.reduced
  simp only [ReducedLines, List.forall_mem_append] at hred
  have hne : ∀ t ∈ (getVertical Qhat R2 P p).1.toList ++ (getVertical Qhat R2 P p).2.toList,
      fp2Is0 t = false := fun t ht => hlines t (hsub ht)
  simp only [List.forall_mem_append] at hne
  obtain ⟨c, -, ha₁, ha₂⟩ := valuesOf_getVertical h₁ h₂ hP
  have hv₁ := lineValue_ne_zero hred.1 hne.1
  have hv₂ := lineValue_ne_zero hred.2 hne.2
  rw [ha₁] at hv₁
  rw [ha₂] at hv₂
  exact ⟨right_ne_zero_of_mul hv₁, right_ne_zero_of_mul hv₂⟩

theorem fp2Div_eq_iff {v d r : Fp2} (hr : Reduced p r) :
    fp2Div v d p = r ↔ val p v / val p d = val p r := by
  rw [← val_fp2Div]
  constructor
  · intro h
    rw [h]
  · exact eq_of_val_eq (reduced_fp2Div pos _ _) hr

omit hp hp12 in
theorem testBit_size {q : Nat} (hq : q.Prime) : q.testBit (mpzSizeinbase2 q - 1) = true := by
  rw [mpzSizeinbase2, Int.natAbs_natCast, Nat.add_sub_cancel]
  exact Nat.testBit_log2 hq.ne_zero

omit hp hp12 in
theorem shiftRight_size (q : Nat) : q >>> (mpzSizeinbase2 q - 1 + 1) = 0 := by
  rw [Nat.shiftRight_eq_div_pow]
  exact Nat.div_eq_of_lt (lt_two_pow_mpzSizeinbase2 q)

variable (hcp : curve.p = p) (hcq : curve.q = q) (hP : Canonical P A) {r : Fp2}
include hcp hcq hP

/-- Without a line that vanishes the loop has values that are not zero. -/
theorem simpleLoop_ne_zero (hQhat : ReducedPoint p Qhat) (hR2 : ReducedPoint p R2)
    (hr : generalMiller P Phat Qhat R1 R2 curve = some r)
    (hlines : ∀ t ∈ (simpleMiller P Phat Qhat R1 R2 curve).2, fp2Is0 t = false) :
    let s := simpleLoop P Qhat R2 (firstValue P Phat Qhat R1 R2 p) q p (mpzSizeinbase2 q - 1)
      accumulatorInit
    (∀ t ∈ s.lines, fp2Is0 t = false) ∧ val p s.v ≠ 0 ∧ val p s.vdenom ≠ 0 := by
  rw [simpleMiller, hcp, hcq] at hlines
  have hloop := (List.forall_mem_append.1 hlines).2
  have hsound := sound_simpleLoop hQhat hR2 hP.reduced (firstValue_ne_zero hcp hr) q
    (mpzSizeinbase2 q - 1) sound_accumulatorInit
  exact ⟨hloop, hsound.nonzero hloop⟩

variable (hq : q.Prime) (hA : addOrderOf A = q)
include hq hA

/-- How `simple_miller` ends. -/
theorem exists_last_simpleMiller (hq2 : 2 < q) {C : Nat → K p → K p → Prop}
    (hC : StepRule C A Qhat R2) (hC1 : C 1 (val p (firstValue P Phat Qhat R1 R2 p)) 1) :
    ∃ n s, n + 1 = q ∧ Holds C A n s ∧ Entry C A 1 (firstValue P Phat Qhat R1 R2 p, P) ∧
      simpleLoop P Qhat R2 (firstValue P Phat Qhat R1 R2 p) q p (mpzSizeinbase2 q - 1)
        accumulatorInit = addStep Qhat R2 (firstValue P Phat Qhat R1 R2 p) P p s ∧
      (simpleMiller P Phat Qhat R1 R2 curve).1 =
        fp2Div (addStep Qhat R2 (firstValue P Phat Qhat R1 R2 p) P p s).v
          (addStep Qhat R2 (firstValue P Phat Qhat R1 R2 p) P p s).vdenom p := by
  have hentry : Entry C A 1 (firstValue P Phat Qhat R1 R2 p, P) := ⟨by rwa [one_nsmul], hC1⟩
  have hstart : Holds C A (2 * (q >>> (mpzSizeinbase2 q - 1 + 1))) accumulatorInit := by
    rw [shiftRight_size]
    exact hC.holds_accumulatorInit
  obtain ⟨n, s, hn, hs, hloop⟩ := exists_last_simpleLoop hC hq hq2 hA hentry hstart
  refine ⟨n, s, hn, hs, hentry, hloop, ?_⟩
  rw [simpleMiller, hcp, hcq, ← hloop]
  rfl

variable (hq64 : 64 < q)
include hq64

/-- At finite points the two functions agree exactly when their last steps
contribute the same. -/
theorem simpleMiller_eq_iff_of_finite {x y x' y' : K p} {hB : (mordell (K p)).Nonsingular x y}
    {hC : (mordell (K p)).Nonsingular x' y'} (hQhat : Canonical Qhat (.some x y hB : E2 p))
    (hR2 : Canonical R2 (.some x' y' hC : E2 p))
    (hr : generalMiller P Phat Qhat R1 R2 curve = some r)
    (hlines : ∀ t ∈ (simpleMiller P Phat Qhat R1 R2 curve).2, fp2Is0 t = false) :
    (simpleMiller P Phat Qhat R1 R2 curve).1 = r ↔
      lastFactor (evalPoint hB.1) (evalPoint hC.1) A =
        lastFactor (evalPoint hB.1) (evalPoint hC.1) (lastWindow q • A) := by
  have h₁ := evaluatesAt hQhat
  have h₂ := evaluatesAt hR2
  have hq2 : 2 < q := by omega
  have hrule := stepRule_ratios h₁ h₂ hq hq2 hA (val p (firstValue P Phat Qhat R1 R2 p))
  have hone := ratios_one (evalPoint hB.1) (evalPoint hC.1) A (val p (firstValue P Phat Qhat R1 R2 p))
  obtain ⟨n, s, hn, hs, hentry, hloop, hsimple⟩ :=
    exists_last_simpleMiller hcp hcq hP hq hA hq2 hrule hone
  obtain ⟨n', j, e, s', hn', rfl, hs', he, hkept, hv', hd', hred, hval⟩ :=
    exists_last_generalMiller hrule hone hq hq64 hA hcp hcq hP hr
  obtain ⟨hlines, hv, hd⟩ :=
    simpleLoop_ne_zero hcp hcq hP hQhat.reduced hR2.reduced hr hlines
  obtain ⟨hv₁, hv₂⟩ := vertical_ne_zero_of_lines h₁ h₂ hQhat.reduced hR2.reduced hP
    (testBit_size hq) hlines
  have hverticals : evalPoint hB.1 (vertical (lastWindow q • A)) ≠ 0 ∧
      evalPoint hC.1 (vertical (lastWindow q • A)) ≠ 0 := by
    by_cases hj : lastWindow q = 1
    · rw [hj, one_nsmul]
      exact ⟨hv₁, hv₂⟩
    · exact vertical_values_ne_zero h₁ h₂ he.point (hkept hj).1 (hkept hj).2
  rw [hloop] at hv hd
  have hplain := hs.closes h₁ h₂ hq hq2 hA hentry hn (by rwa [one_nsmul]) (by rwa [one_nsmul]) hv hd
  have hgeneral := hs'.closes h₁ h₂ hq hq2 hA he hn' hverticals.1 hverticals.2 hv' hd'
  rw [one_nsmul] at hplain
  rw [hsimple, fp2Div_eq_iff hred, hval]
  exact hplain.div_eq_iff (fun c => by rw [h₁.const, h₂.const]) hgeneral

/-- At infinite points nothing but a recognised pair of opposite points is left to
contribute. When both store the same first coordinate, not even that. -/
theorem simpleMiller_eq_iff_of_infinite (hQhat : Qhat.infinity = true) (hR2 : R2.infinity = true)
    (hQr : ReducedPoint p Qhat) (hRr : ReducedPoint p R2)
    (hr : generalMiller P Phat Qhat R1 R2 curve = some r)
    (hlines : ∀ t ∈ (simpleMiller P Phat Qhat R1 R2 curve).2, fp2Is0 t = false) :
    ((simpleMiller P Phat Qhat R1 R2 curve).1 = r ↔
      storedFactor Qhat R2 A = storedFactor Qhat R2 (lastWindow q • A)) ∧
    (Qhat.x = R2.x → (simpleMiller P Phat Qhat R1 R2 curve).1 = r) := by
  have hq2 : 2 < q := by omega
  have hrule := stepRule_powers hQhat hR2 hq hq2 hA (val p (firstValue P Phat Qhat R1 R2 p))
  have hone := powers_one (val p (firstValue P Phat Qhat R1 R2 p))
  obtain ⟨n, s, hn, hs, hentry, hloop, hsimple⟩ :=
    exists_last_simpleMiller hcp hcq hP hq hA hq2 hrule hone
  obtain ⟨n', j, e, s', hn', rfl, hs', he, -, hv', hd', hred, hval⟩ :=
    exists_last_generalMiller hrule hone hq hq64 hA hcp hcq hP hr
  obtain ⟨-, hv, hd⟩ := simpleLoop_ne_zero hcp hcq hP hQr hRr hr hlines
  rw [hloop] at hv hd
  have hplain := div_addStep hQhat hR2 hq hq2 hA hs hentry hn
  have hgeneral := div_addStep hQhat hR2 hq hq2 hA hs' he hn'
  rw [one_nsmul] at hplain
  have hiff : (simpleMiller P Phat Qhat R1 R2 curve).1 = r ↔
      storedFactor Qhat R2 A = storedFactor Qhat R2 (lastWindow q • A) := by
    rw [hsimple, fp2Div_eq_iff hred, hval, hplain, hgeneral]
    exact mul_right_inj' (pow_ne_zero q (firstValue_ne_zero hcp hr))
  refine ⟨hiff, fun hx => hiff.2 ?_⟩
  have hne := div_ne_zero hv hd
  have hne' := div_ne_zero hv' hd'
  rw [hplain] at hne
  rw [hgeneral] at hne'
  rw [storedFactor_eq_one hx (right_ne_zero_of_mul hne),
    storedFactor_eq_one hx (right_ne_zero_of_mul hne')]

/-- When the two functions agree. -/
theorem simpleMiller_eq_iff {B C : E2 p} (hQhat : Canonical Qhat B) (hR2 : Canonical R2 C)
    (hr : generalMiller P Phat Qhat R1 R2 curve = some r)
    (hlines : ∀ t ∈ (simpleMiller P Phat Qhat R1 R2 curve).2, fp2Is0 t = false) :
    (∀ x y x' y' hB hC, B = .some x y hB → C = .some x' y' hC →
      ((simpleMiller P Phat Qhat R1 R2 curve).1 = r ↔
        lastFactor (evalPoint hB.1) (evalPoint hC.1) A =
          lastFactor (evalPoint hB.1) (evalPoint hC.1) (lastWindow q • A))) ∧
    (B = 0 → C = 0 →
      ((simpleMiller P Phat Qhat R1 R2 curve).1 = r ↔
        storedFactor Qhat R2 A = storedFactor Qhat R2 (lastWindow q • A)) ∧
      (Qhat.x = R2.x → (simpleMiller P Phat Qhat R1 R2 curve).1 = r)) ∧
    (Sparse q → (simpleMiller P Phat Qhat R1 R2 curve).1 = r) := by
  refine ⟨?_, ?_, ?_⟩
  · rintro x y x' y' hB hC rfl rfl
    exact simpleMiller_eq_iff_of_finite hcp hcq hP hq hA hq64 hQhat hR2 hr hlines
  · intro hB hC
    exact simpleMiller_eq_iff_of_infinite hcp hcq hP hq hA hq64 (hQhat.infinity.2 hB)
      (hR2.infinity.2 hC) hQhat.reduced hR2.reduced hr hlines
  · exact fun hsparse => simpleMiller_of_sparse hsparse hcp hcq hr

end Main

section Example

theorem nonsingular_1607 {x y : K 1607} (hy : y ^ 2 = x ^ 3 + 1) :
    (mordell (K 1607)).Nonsingular x y :=
  (MordellCurve.nonsingular_iff (by decide)).2 hy

/-- The point `gen` in the group over the extension. -/
def genK : E2 1607 := .some (val 1607 ⟨23, 0⟩) (val 1607 ⟨1156, 0⟩) (nonsingular_1607 (by decide))

theorem addOrderOf_genK : addOrderOf genK = 67 := by
  have hns {x y : K 1607} (h : y ^ 2 = x ^ 3 + 1) : (mordell (K 1607)).Nonsingular x y :=
    nonsingular_1607 h
  have h2 : genK + genK = .some (val 1607 ⟨94, 0⟩) (val 1607 ⟨510, 0⟩) (hns (by decide)) :=
    some_add_self (l := val 1607 ⟨1493, 0⟩) (by decide) (by decide) (by decide) (by decide)
  have h3 : genK + genK + genK = .some (val 1607 ⟨991, 0⟩) (val 1607 ⟨1065, 0⟩) (hns (by decide)) := by
    rw [h2, genK]
    exact some_add_some (l := val 1607 ⟨1530, 0⟩) (by decide) (by decide) (by decide) (by decide)
  have h4 : 4 • genK = .some (val 1607 ⟨797, 0⟩) (val 1607 ⟨1563, 0⟩) (hns (by decide)) := by
    rw [show 4 • genK = genK + genK + (genK + genK) by abel, h2]
    exact some_add_self (l := val 1607 ⟨1028, 0⟩) (by decide) (by decide) (by decide) (by decide)
  have h8 : 8 • genK = .some (val 1607 ⟨1454, 0⟩) (val 1607 ⟨1004, 0⟩) (hns (by decide)) := by
    rw [show 8 • genK = 4 • genK + 4 • genK by abel, h4]
    exact some_add_self (l := val 1607 ⟨204, 0⟩) (by decide) (by decide) (by decide) (by decide)
  have h16 : 16 • genK = .some (val 1607 ⟨401, 0⟩) (val 1607 ⟨987, 0⟩) (hns (by decide)) := by
    rw [show 16 • genK = 8 • genK + 8 • genK by abel, h8]
    exact some_add_self (l := val 1607 ⟨1177, 0⟩) (by decide) (by decide) (by decide) (by decide)
  have h32 : 32 • genK = .some (val 1607 ⟨1417, 0⟩) (val 1607 ⟨889, 0⟩) (hns (by decide)) := by
    rw [show 32 • genK = 16 • genK + 16 • genK by abel, h16]
    exact some_add_self (l := val 1607 ⟨789, 0⟩) (by decide) (by decide) (by decide) (by decide)
  have h64 : 64 • genK = -(genK + genK + genK) := by
    rw [show 64 • genK = 32 • genK + 32 • genK by abel, h32, h3, Point.neg_some]
    exact some_add_self (l := val 1607 ⟨1169, 0⟩) (by decide) (by decide) (by decide) (by decide)
  have hprime : Fact (Nat.Prime 67) := ⟨by norm_num⟩
  refine addOrderOf_eq_prime ?_ (Point.some_ne_zero _)
  calc 67 • genK = 64 • genK + (genK + genK + genK) := by abel
    _ = 0 := by rw [h64, neg_add_cancel]

def genPoint : Point := ⟨⟨23, 0⟩, ⟨1156, 0⟩, false⟩

def shiftPoint : Point := ⟨⟨580, 0⟩, ⟨1458, 0⟩, false⟩

def firstPlace : Point := ⟨⟨673, 77⟩, ⟨320, 62⟩, false⟩

def secondPlace : Point := ⟨⟨1107, 1544⟩, ⟨195, 173⟩, false⟩

theorem canonical_genPoint : Canonical genPoint genK :=
  canonical_some ⟨by constructor <;> decide, by constructor <;> decide⟩ rfl rfl rfl

theorem nonsingular_firstPlace :
    (mordell (K 1607)).Nonsingular (val 1607 firstPlace.x) (val 1607 firstPlace.y) :=
  nonsingular_1607 (by decide)

theorem nonsingular_secondPlace :
    (mordell (K 1607)).Nonsingular (val 1607 secondPlace.x) (val 1607 secondPlace.y) :=
  nonsingular_1607 (by decide)

theorem canonical_firstPlace : Canonical firstPlace (.some _ _ nonsingular_firstPlace : E2 1607) :=
  canonical_some ⟨by constructor <;> decide, by constructor <;> decide⟩ rfl rfl rfl

theorem canonical_secondPlace :
    Canonical secondPlace (.some _ _ nonsingular_secondPlace : E2 1607) :=
  canonical_some ⟨by constructor <;> decide, by constructor <;> decide⟩ rfl rfl rfl

/-- All three results at one input. -/
theorem results_genPoint :
    generalMiller genPoint (pointAdd genPoint shiftPoint 1607) firstPlace shiftPoint secondPlace
        (curveInit 1607 67) = some ⟨1568, 644⟩ ∧
      (simpleMiller genPoint (pointAdd genPoint shiftPoint 1607) firstPlace shiftPoint secondPlace
        (curveInit 1607 67)).1 = ⟨773, 484⟩ ∧
      ∀ t ∈ (simpleMiller genPoint (pointAdd genPoint shiftPoint 1607) firstPlace shiftPoint
        secondPlace (curveInit 1607 67)).2, fp2Is0 t = false := by
  decide +kernel

/-- There the last steps contribute differently. -/
theorem lastFactor_genK :
    lastFactor (evalPoint nonsingular_firstPlace.1) (evalPoint nonsingular_secondPlace.1) genK ≠
      lastFactor (evalPoint nonsingular_firstPlace.1) (evalPoint nonsingular_secondPlace.1)
        (lastWindow 67 • genK) := by
  obtain ⟨hgeneral, hsimple, hlines⟩ := results_genPoint
  intro h
  obtain ⟨hiff, -⟩ := simpleMiller_eq_iff (q := 67) rfl rfl canonical_genPoint (by norm_num)
    addOrderOf_genK (by norm_num) canonical_firstPlace canonical_secondPlace hgeneral hlines
  have heq := (hiff _ _ _ _ _ _ rfl rfl).2 h
  rw [hsimple] at heq
  exact absurd heq (by decide)

/-- The loops do not agree on a point of order 67 over the prime field. -/
theorem simpleMiller_ne :
    ¬∀ (p q : Nat) [Fact p.Prime] [Fact (p % 12 = 11)] (curve : Curve)
      (P Qhat R1 R2 : Point) (A B C D : E2 p) (r : Fp2), q.Prime → 64 < q → q ∣ p + 1 →
      curve.p = p → curve.q = q → P.infinity = false → Canonical P A → addOrderOf A = q →
      Canonical Qhat B → Canonical R1 C → Canonical R2 D →
      generalMiller P (pointAdd P R1 p) Qhat R1 R2 curve = some r →
      (∀ t ∈ (simpleMiller P (pointAdd P R1 p) Qhat R1 R2 curve).2, fp2Is0 t = false) →
      (simpleMiller P (pointAdd P R1 p) Qhat R1 R2 curve).1 = r := by
  obtain ⟨hgeneral, hsimple, hlines⟩ := results_genPoint
  have hshift : (mordell (K 1607)).Nonsingular (val 1607 shiftPoint.x) (val 1607 shiftPoint.y) :=
    nonsingular_1607 (by decide)
  have hcanonical : Canonical shiftPoint (.some _ _ hshift : E2 1607) :=
    canonical_some ⟨by constructor <;> decide, by constructor <;> decide⟩ rfl rfl rfl
  intro h
  have heq := h 1607 67 (curveInit 1607 67) genPoint firstPlace shiftPoint secondPlace genK _ _ _ _
    (by norm_num) (by norm_num) (by norm_num) rfl rfl rfl canonical_genPoint addOrderOf_genK
    canonical_firstPlace hcanonical canonical_secondPlace hgeneral hlines
  have hval : (⟨773, 484⟩ : Fp2) = ⟨1568, 644⟩ := hsimple.symm.trans heq
  exact absurd hval (by decide)

end Example

end IdBasedEncryption.MillerAgreement
