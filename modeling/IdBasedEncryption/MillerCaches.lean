import IdBasedEncryption.MillerLoops

namespace IdBasedEncryption.MillerCaches

open WeierstrassCurve.Affine CurveDivisors MillerFunctions MordellCurve LineReciprocity ReducedTate
open Gmp Fp2Arith Fp2Value FieldExtension MordellGroup SolinasForm CurvePoints TatePairing
open PointValues MillerLines ModifiedPairing MillerLoops

variable {p : Nat} [hp : Fact p.Prime] [hp12 : Fact (p % 12 = 11)]

/-- The entries for the first `k` doublings of `P`. -/
def Rounds (mc : MillerCache) (P : E p) (k : Nat) : Prop :=
  ∀ i < k, LineFor (mc.numa i) (mc.numc i) (2 ^ i • P) (2 ^ i • P) ∧
    VerticalFor (mc.denomc i) (2 ^ (i + 1) • P)

/-- What a cache for `P` contains. -/
structure IsCache (mc : MillerCache) (P : E p) (curve : Curve) : Prop where
  rounds : Rounds mc P curve.solinasa.natAbs
  line : curve.solinasb ≠ 0 → LineFor mc.numl1a mc.numl1c (2 ^ curve.solinasa.natAbs • P)
    (curve.solinasb.sign • (2 ^ curve.solinasb.natAbs • P))
  sum : curve.solinasb ≠ 0 → VerticalFor mc.denoml1c (-(curve.solinasa.sign • P))
  middle : curve.solinasb < 0 → VerticalFor mc.denomsb (2 ^ curve.solinasb.natAbs • P)
  last : VerticalFor mc.numl2c (-(curve.solinasa.sign • P))
  closing : curve.solinasa < 0 → VerticalFor mc.denoms1 P

section Preprocess

omit hp12 in
theorem verticalFor_neg {A : E p} (hA : A ≠ 0) : VerticalFor (-(ofPoint A).x.a) A := by
  rcases A with _ | ⟨x, y, h⟩
  · exact absurd rfl hA
  · exact ⟨x, y, h, rfl, by simp [ofPoint, ofResidue]⟩

omit hp12 in
theorem verticalFor_sub {A : E p} (hA : A ≠ 0) : VerticalFor (p - (ofPoint A).x.a) A := by
  rcases A with _ | ⟨x, y, h⟩
  · exact absurd rfl hA
  · exact ⟨x, y, h, rfl, by simp [ofPoint, ofResidue]⟩

variable {Z : Point} {z : Int} {A : E p} {mc : MillerCache} {i : Nat}

omit hp12 in
theorem verticalFor_preprocess (h : Scaled Z z A) :
    VerticalFor ((ptsPreprocessVertical mc i Z z p).denomc i) A := by
  obtain ⟨⟨x, y, hxy, rfl, hz, hx, hy⟩, -⟩ := h
  refine ⟨x, y, hxy, rfl, ?_⟩
  simp only at hz hx
  simp [ptsPreprocessVertical, cast_mpzInvert, hz, hx]
  field_simp

theorem lineFor_preprocess (h : Scaled Z z A) (hA : A + A ≠ 0) :
    LineFor ((ptsPreprocessTangent mc i Z z p).numa i) ((ptsPreprocessTangent mc i Z z p).numc i)
      A A := by
  obtain ⟨⟨x, y, hxy, rfl, hz, hx, hy⟩, -⟩ := h
  have hne := y_ne_neg_of_add_self hA
  have hy0 := y_ne_zero_of_add_self hA
  simp only at hz hx hy
  have hnuma : (((ptsPreprocessTangent mc i Z z p).numa i : Int) : ZMod p) =
      -(mordell (ZMod p)).slope x x y y := by
    rw [slope_self hne]
    simp [ptsPreprocessTangent, cast_mpzInvert, hz, hx, hy, hy0, two_ne_zero' (p := p)]
    field_simp
  have hnumc : ((ptsPreprocessTangent mc i Z z p).numc i : Int) =
      -((ptsPreprocessTangent mc i Z z p).numa i * Z.x.a * z + Z.y.a) *
        mpzInvert (z * z * z) (z * z * z) p % p := by
    simp [ptsPreprocessTangent]
  refine ⟨x, y, hxy, x, y, hxy, rfl, rfl, hA, hnuma, ?_⟩
  rw [hnumc]
  simp [cast_mpzInvert, hz, hx, hy, hnuma]
  field_simp
  ring

omit hp12 in
theorem lineFor_preprocessLine {A B : E p} {bP : Point} (hA : A ≠ 0) (hB : Stands bP B)
    (hAB : A ≠ B) (hne : A + B ≠ 0) :
    LineFor (ptsPreprocessLine (ofPoint A) bP p).1 (ptsPreprocessLine (ofPoint A) bP p).2 A B := by
  obtain ⟨x₂, y₂, h₂, rfl, hB, -⟩ := hB
  rcases A with _ | ⟨x₁, y₁, h₁⟩
  · exact absurd rfl hA
  have hx := x_ne_of_add_ne_zero hAB hne
  have hsub := sub_ne_zero.2 (Ne.symm hx)
  have ha : (((ptsPreprocessLine (ofPoint (.some x₁ y₁ h₁)) bP p).1 : Int) : ZMod p) =
      -(mordell (ZMod p)).slope x₁ x₂ y₁ y₂ := by
    rw [slope_of_ne _ _ hx]
    simp [ptsPreprocessLine, cast_mpzInvert, ofPoint, ofResidue, hB.xa, hB.ya, hsub]
    rw [← neg_sub x₂ x₁, div_neg, neg_neg, div_eq_mul_inv]
  refine ⟨x₁, y₁, h₁, x₂, y₂, h₂, rfl, rfl, hne, ha, ?_⟩
  have hc : (ptsPreprocessLine (ofPoint (.some x₁ y₁ h₁)) bP p).2 =
      -((ptsPreprocessLine (ofPoint (.some x₁ y₁ h₁)) bP p).1 * (ofPoint (.some x₁ y₁ h₁)).x.a +
        (ofPoint (.some x₁ y₁ h₁)).y.a) % p := rfl
  rw [hc]
  generalize (ptsPreprocessLine (ofPoint (.some x₁ y₁ h₁)) bP p).1 = a at ha ⊢
  simp [ha, ofPoint, ofResidue]
  ring

section Run

variable {q : Nat} (hq : q.Prime) (hq3 : 3 < q) {P : E p} (hP : q • P = 0)
include hq hq3 hP

theorem round_preprocess {s : Preprocess} {k : Nat} (h : Scaled s.Z s.z (2 ^ k • P))
    (hr : Rounds s.mc P k) :
    Scaled (preprocessRound p s k).Z (preprocessRound p s k).z (2 ^ (k + 1) • P) ∧
      Rounds (preprocessRound p s k).mc P (k + 1) := by
  have hk : q • (2 ^ k • P) = 0 := by rw [smul_comm, hP, nsmul_zero]
  have h2 := add_self_ne_zero hq hq3 hk h.point.ne_zero
  have hsum : 2 ^ k • P + 2 ^ k • P = 2 ^ (k + 1) • P := by
    rw [← two_nsmul, ← mul_smul, pow_succ']
  have hd := h.double h2
  rw [hsum] at hd
  refine ⟨hd, fun i hi => ?_⟩
  have hline : LineFor ((ptsPreprocessTangent s.mc k s.Z s.z p).numa k) _ _ _ :=
    lineFor_preprocess h h2
  have hvertical : VerticalFor ((preprocessRound p s k).mc.denomc k) _ := verticalFor_preprocess hd
  rcases Nat.lt_succ_iff_lt_or_eq.1 hi with hik | rfl
  · have hold := hr i hik
    simpa [preprocessRound, ptsPreprocessVertical, ptsPreprocessTangent, hik.ne] using hold
  · exact ⟨hline, hvertical⟩

theorem foldl_preprocess {s : Preprocess} {k : Nat} (h : Scaled s.Z s.z (2 ^ k • P))
    (hr : Rounds s.mc P k) (n : Nat) :
    let s' := (List.range' k n).foldl (preprocessRound p) s
    Scaled s'.Z s'.z (2 ^ (k + n) • P) ∧ Rounds s'.mc P (k + n) ∧
      s'.mc.denomsb = s.mc.denomsb := by
  induction n generalizing k s with
  | zero => exact ⟨h, hr, rfl⟩
  | succ n ih =>
      obtain ⟨h', hr'⟩ := round_preprocess hq hq3 hP h hr
      rw [List.range'_succ, List.foldl_cons, show k + (n + 1) = k + 1 + n by omega]
      exact ih h' hr'

theorem scaled_preprocessStart (h0 : P ≠ 0) (mc : MillerCache) (b : Nat) :
    Scaled (preprocessStart mc (ofPoint P) b p).Z (preprocessStart mc (ofPoint P) b p).z
        (2 ^ b • P) ∧
      Rounds (preprocessStart mc (ofPoint P) b p).mc P b ∧
      (preprocessStart mc (ofPoint P) b p).Z = ofPoint (2 ^ b • P) := by
  have hstart : Scaled (ofPoint P) 1 (2 ^ 0 • P) := by
    rw [pow_zero, one_smul]
    exact scaled_ofPoint h0
  obtain ⟨hb, hr, -⟩ := foldl_preprocess hq hq3 hP (s := ⟨mc, ofPoint P, 1⟩) hstart
    (fun i hi => absurd hi (Nat.not_lt_zero i)) b
  rw [zero_add, ← List.range_eq_range'] at hb hr
  rw [preprocessStart]
  split
  · rename_i hb0
    subst hb0
    exact ⟨hb, hr, by simp⟩
  · have hZ := hb.normalize
    refine ⟨?_, hr, hZ⟩
    simp only [hZ]
    exact scaled_ofPoint hb.point.ne_zero

omit hp12 hq hq3 hP in
theorem isCache_finish {curve : Curve} (hcurve : SolinasCurve p q curve) (h0 : P ≠ 0)
    {s : Preprocess} (hZ : s.Z = ofPoint (-(curve.solinasa.sign • P)))
    (hr : Rounds s.mc P curve.solinasa.natAbs)
    (hline : curve.solinasb ≠ 0 → LineFor s.mc.numl1a s.mc.numl1c
      (2 ^ curve.solinasa.natAbs • P) (curve.solinasb.sign • (2 ^ curve.solinasb.natAbs • P)))
    (hsum : curve.solinasb ≠ 0 → VerticalFor s.mc.denoml1c (-(curve.solinasa.sign • P)))
    (hmiddle : curve.solinasb < 0 →
      VerticalFor s.mc.denomsb (2 ^ curve.solinasb.natAbs • P)) :
    IsCache (preprocessFinish curve s) P curve := by
  have hR0 := neg_last_smul_ne_zero hcurve.form h0
  have hlast := verticalFor_sub hR0
  rw [preprocessFinish, hcurve.p_eq, hZ]
  by_cases ha : curve.solinasa < 0
  · simp only [if_pos ha]
    refine ⟨hr, hline, hsum, hmiddle, hlast, fun _ => ?_⟩
    rwa [Int.sign_eq_neg_one_of_neg ha, neg_smul, one_smul, neg_neg] at hlast ⊢
  · simp only [if_neg ha]
    exact ⟨hr, hline, hsum, hmiddle, hlast, fun h => absurd h ha⟩

/-- `tate_preprocess` stores the lines that the Miller loop meets. -/
theorem isCache_tatePreprocess {curve : Curve} (hcurve : SolinasCurve p q curve) (h0 : P ≠ 0)
    (mc : MillerCache) : IsCache (tatePreprocess mc (ofPoint P) curve) P curve := by
  have hs := hcurve.form
  have hsum := sum_eq_neg hs hP
  have hba := hs.le
  have hpow (k : Nat) : q • (2 ^ k • P) = 0 := by rw [smul_comm, hP, nsmul_zero]
  have hR0 := neg_last_smul_ne_zero hs h0
  obtain ⟨hstart, hr, hZ⟩ := scaled_preprocessStart hq hq3 hP h0 mc curve.solinasb.natAbs
  rw [tatePreprocess, hcurve.p_eq]
  dsimp only
  generalize preprocessStart mc (ofPoint P) curve.solinasb.natAbs p = s at hstart hr hZ ⊢
  obtain ⟨mc', Z, z⟩ := s
  simp only at hstart hr hZ ⊢
  set mc₁ := if curve.solinasb < 0 then { mc' with denomsb := -Z.x.a } else mc' with hmc₁
  have hs₁ : (if curve.solinasb < 0 then ⟨{ mc' with denomsb := -Z.x.a }, Z, z⟩
      else ⟨mc', Z, z⟩ : Preprocess) = ⟨mc₁, Z, z⟩ := by
    rw [hmc₁]
    split <;> rfl
  have hr₁ : Rounds mc₁ P curve.solinasb.natAbs := by
    rw [hmc₁]
    split <;> exact hr
  have hmiddle (h : curve.solinasb < 0) : VerticalFor mc₁.denomsb (2 ^ curve.solinasb.natAbs • P) := by
    rw [hmc₁, if_pos h, hZ]
    exact verticalFor_neg hstart.point.ne_zero
  obtain ⟨hloop, hr₂, hsb⟩ := foldl_preprocess hq hq3 hP (s := ⟨mc₁, Z, z⟩) hstart hr₁
    (curve.solinasa.natAbs - curve.solinasb.natAbs)
  rw [Nat.add_sub_cancel' hba] at hloop hr₂
  rw [hs₁, hloop.normalize]
  generalize (List.range' curve.solinasb.natAbs (curve.solinasa.natAbs - curve.solinasb.natAbs)).foldl
    (preprocessRound p) ⟨mc₁, Z, z⟩ = s at hloop hr₂ hsb ⊢
  by_cases hb : curve.solinasb = 0
  · rw [if_pos (by simpa using hb)]
    rw [hb, Int.sign_zero, zero_zsmul, add_zero] at hsum
    exact isCache_finish hcurve h0 (by simp only [hsum]) hr₂ (fun h => absurd hb h)
      (fun h => absurd hb h) fun h => absurd h (by omega)
  · rw [if_neg (by simpa using hb)]
    have hne := two_pow_ne hs (by simpa using hb) (addOrderOf_eq hq hP h0)
    have hbP := stands_signed curve.solinasb hb hstart.point.ne_zero
    rw [← hZ] at hbP
    have hadd := pointAdd_stands hloop.point.ne_zero hbP (by rwa [hsum])
    rw [hsum] at hadd
    have hl := lineFor_preprocessLine hloop.point.ne_zero hbP hne (by rwa [hsum])
    have hv := verticalFor_sub hR0
    rw [← hadd] at hv
    exact isCache_finish hcurve h0 hadd hr₂ (fun _ => hl) (fun _ => hv) fun h => by
      rw [preprocessAdd]
      exact hsb ▸ hmiddle h

end Run

end Preprocess

section Postprocess

variable {q : Nat} (hq : q.Prime) (hq3 : 3 < q) {P : E p} (hP : q • P = 0) {Q : Point}
  {x y : ZMod p} (hQ : IsPhi Q x y) (hS : (mordell (ZMod p)).Nonsingular x y) {mc : MillerCache}
  {curve : Curve}
include hq hq3 hP hQ

theorem round_postprocess {f : Fp2 × Fp2} {k n : Nat} (hr : Rounds mc P n) (hk : k < n)
    (h : MillerValue (evalPhi zeta_cube hS.1) P (2 ^ k • P) (2 ^ k) 0 (val p f.1) (val p f.2)) :
    MillerValue (evalPhi zeta_cube hS.1) P (2 ^ (k + 1) • P) (2 ^ (k + 1)) 0
      (val p (postprocessRound mc Q p f k).1) (val p (postprocessRound mc Q p f k).2) := by
  obtain ⟨hline, hvertical⟩ := hr k hk
  have hsum : 2 ^ k • P + 2 ^ k • P = 2 ^ (k + 1) • P := by
    rw [← two_nsmul, ← mul_smul, pow_succ']
  have hpow (k : Nat) : q • (2 ^ k • P) = 0 := by rw [smul_comm, hP, nsmul_zero]
  have hne (k : Nat) := evalPhi_vertical_ne_zero hq hq3 (hpow k) hS
  have hadd := h.add (evalPhi_algebraMap zeta_cube hS.1) h (hne k) (hne k) (by rw [hsum]; exact hne _)
    (c := 1) (k := 1) one_ne_zero one_ne_zero
  rw [hsum, map_one, one_mul, one_mul, ← two_mul, ← pow_succ'] at hadd
  simp only [postprocessRound, val_fp2Mul, val_fp2Sqr, val_cachedLine hQ hS.1 hline,
    val_cachedVertical hQ hS.1 hvertical, sq]
  exact hadd

theorem foldl_postprocess {f : Fp2 × Fp2} {k n : Nat} (hr : Rounds mc P (k + n))
    (h : MillerValue (evalPhi zeta_cube hS.1) P (2 ^ k • P) (2 ^ k) 0 (val p f.1) (val p f.2)) :
    let f' := (List.range' k n).foldl (postprocessRound mc Q p) f
    MillerValue (evalPhi zeta_cube hS.1) P (2 ^ (k + n) • P) (2 ^ (k + n)) 0
      (val p f'.1) (val p f'.2) := by
  induction n generalizing k f with
  | zero => exact h
  | succ n ih =>
      rw [List.range'_succ, List.foldl_cons]
      rw [show k + (n + 1) = k + 1 + n by omega] at hr ⊢
      exact ih hr (round_postprocess hq hq3 hP hQ hS hr (by omega) h)

theorem exists_postprocessFinish (hcurve : SolinasCurve p q curve) (hmc : IsCache mc P curve)
    {f : Fp2 × Fp2} {i j : Nat} (hij : (i : Int) = j + q - curve.solinasa.sign)
    (h : MillerValue (evalPhi zeta_cube hS.1) P (-(curve.solinasa.sign • P)) i j
      (val p f.1) (val p f.2)) :
    ∃ g, IsTateFunction P q g ∧
      val p (postprocessFinish mc Q curve f) = evalPhi zeta_cube hS.1 g := by
  have hvP := evalPhi_vertical_ne_zero hq hq3 hP hS
  obtain ⟨g, hg, hv⟩ := exists_isTateFunction_of_close
    (evalPhi_algebraMap (K := K p) zeta_cube hS.1) hvP hcurve.form.last hij h
  refine ⟨g, hg, ?_⟩
  rw [← hv, postprocessFinish, hcurve.p_eq, val_fp2Div, val_fp2Mul,
    val_cachedVertical hQ hS.1 hmc.last]
  congr 1
  simp only [Int.sign_neg_iff]
  split
  · rename_i ha
    rw [val_fp2Mul, val_cachedVertical hQ hS.1 (hmc.closing ha)]
  · rfl

theorem postprocess_signed (hb : curve.solinasb ≠ 0) (hmc : IsCache mc P curve) {f : Fp2 × Fp2}
    {i : Nat} (h : MillerValue (evalPhi zeta_cube hS.1) P (2 ^ curve.solinasb.natAbs • P) i 0
      (val p f.1) (val p f.2)) :
    let fb := if curve.solinasb < 0 then (f.2, fp2Mul f.1 (cachedVertical Q mc.denomsb) p) else f
    ∃ i' j' : Nat, (i' : Int) = j' + curve.solinasb.sign * i ∧
      MillerValue (evalPhi zeta_cube hS.1) P
        (curve.solinasb.sign • (2 ^ curve.solinasb.natAbs • P)) i' j' (val p fb.1) (val p fb.2) := by
  by_cases hneg : curve.solinasb < 0
  · simp only [if_pos hneg, Int.sign_eq_neg_one_of_neg hneg, neg_smul, one_smul]
    refine ⟨0, i, by simp, ?_⟩
    rw [val_fp2Mul, val_cachedVertical hQ hS.1 (hmc.middle hneg)]
    refine h.neg (evalPhi_vertical_ne_zero hq hq3 ?_ hS)
    rw [smul_comm, hP, nsmul_zero]
  · simp only [if_neg hneg, Int.sign_eq_one_of_pos (show 0 < curve.solinasb by omega), one_smul,
      one_mul]
    exact ⟨i, 0, by simp, h⟩

/-- The cached loop evaluates a function with a zero of order `q` at `P`. -/
theorem exists_millerPostprocess (hcurve : SolinasCurve p q curve)
    (hmc : IsCache mc P curve) :
    ∃ g, IsTateFunction P q g ∧
      val p (millerPostprocess mc Q curve) = evalPhi zeta_cube hS.1 g := by
  have hs := hcurve.form
  have heq := hs.eq
  have hsum := sum_eq_neg hs hP
  have hba := hs.le
  have hpow (k : Nat) : q • (2 ^ k • P) = 0 := by rw [smul_comm, hP, nsmul_zero]
  have hone : MillerValue (evalPhi zeta_cube hS.1) P (2 ^ 0 • P) (2 ^ 0) 0
      (val p fp2Set1) (val p fp2Set1) := by
    simpa using MillerValue.one P
  have hrb : Rounds mc P (0 + curve.solinasb.natAbs) := fun i hi => hmc.rounds i (by omega)
  have hb := foldl_postprocess hq hq3 hP hQ hS (f := (fp2Set1, fp2Set1)) hrb hone
  rw [← List.range_eq_range', zero_add] at hb
  rw [millerPostprocess, hcurve.p_eq]
  generalize (List.range curve.solinasb.natAbs).foldl (postprocessRound mc Q p) (fp2Set1, fp2Set1) =
    f at hb ⊢
  have hra : Rounds mc P (curve.solinasb.natAbs + (curve.solinasa.natAbs - curve.solinasb.natAbs)) := by
    rw [Nat.add_sub_cancel' hba]
    exact hmc.rounds
  have ha := foldl_postprocess hq hq3 hP hQ hS hra hb
  rw [Nat.add_sub_cancel' hba] at ha
  dsimp only at ha
  generalize (List.range' curve.solinasb.natAbs (curve.solinasa.natAbs - curve.solinasb.natAbs)).foldl
    (postprocessRound mc Q p) f = f' at ha ⊢
  by_cases hb0 : curve.solinasb = 0
  · rw [if_pos (by simpa using hb0)]
    rw [hb0, Int.sign_zero, zero_zsmul, add_zero] at hsum
    rw [hsum] at ha
    refine exists_postprocessFinish hq hq3 hP hQ hS hcurve hmc ?_ ha
    rw [hb0] at heq
    push_cast
    simp at heq
    linarith
  · rw [if_neg (by simpa using hb0)]
    obtain ⟨i', j', hij, hfb⟩ := postprocess_signed hq hq3 hP hQ hS hb0 hmc hb
    generalize (if curve.solinasb < 0 then (f.2, fp2Mul f.1 (cachedVertical Q mc.denomsb) p) else f) =
      fb at hfb ⊢
    have hB : q • (curve.solinasb.sign • (2 ^ curve.solinasb.natAbs • P)) = 0 := by
      rw [smul_comm, hpow, zsmul_zero]
    have hsum0 : q • (-(curve.solinasa.sign • P)) = 0 := by
      rw [neg_nsmul, smul_comm, hP, zsmul_zero, neg_zero]
    have hadd := ha.add (evalPhi_algebraMap zeta_cube hS.1) hfb
      (evalPhi_vertical_ne_zero hq hq3 (hpow _) hS) (evalPhi_vertical_ne_zero hq hq3 hB hS)
      (by rw [hsum]; exact evalPhi_vertical_ne_zero hq hq3 hsum0 hS) (c := 1) (k := 1) one_ne_zero
      one_ne_zero
    rw [hsum, map_one, one_mul, one_mul, ← val_cachedLine hQ hS.1 (hmc.line hb0),
      ← val_cachedVertical hQ hS.1 (hmc.sum hb0)] at hadd
    simp only [← val_fp2Mul] at hadd
    refine exists_postprocessFinish hq hq3 hP hQ hS hcurve hmc ?_ hadd
    push_cast at hij ⊢
    linarith

end Postprocess

end IdBasedEncryption.MillerCaches
