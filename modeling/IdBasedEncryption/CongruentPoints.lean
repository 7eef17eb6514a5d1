import IdBasedEncryption.PairingValues

namespace IdBasedEncryption.CongruentPoints

open MordellCurve Gmp Fp2Arith Fp2Value FieldExtension MordellGroup SolinasForm CurvePoints TatePairing
open PointValues MillerLines ModifiedPairing MillerLoops PairingValues

variable {p : Nat}

structure Congruent (p : Nat) (P P' : Point) : Prop where
  x : val p P'.x = val p P.x
  y : val p P'.y = val p P.y
  infinity : P'.infinity = P.infinity

theorem Congruent.refl (P : Point) : Congruent p P P := ⟨rfl, rfl, rfl⟩

theorem congruent_of_represents [Fact p.Prime] {P P' : Point} {x y : ZMod p} (hP : Represents P x y)
    (hP' : Represents P' x y) : Congruent p P P' :=
  ⟨hP'.val_x.trans hP.val_x.symm, hP'.val_y.trans hP.val_y.symm, hP'.finite.trans hP.finite.symm⟩

section Lines

variable {v v' : Fp2} (hv : val p v' = val p v) {A B P P' : Point}
include hv

theorem val_fp2Mul_congr (x : Fp2) : val p (fp2Mul v' x p) = val p (fp2Mul v x p) := by
  rw [val_fp2Mul, val_fp2Mul, hv]

theorem val_tateGetVertical_congr (hP : Congruent p P P') :
    val p (tateGetVertical v' A P' p) = val p (tateGetVertical v A P p) := by
  rw [tateGetVertical, tateGetVertical, hP.infinity]
  split
  · exact hv
  · rw [val_fp2Mul, val_fp2Mul, val_fp2Sub, val_fp2Sub, hv, hP.x]

theorem val_tateMulLine_congr (a b c : Fp2) :
    val p (tateMulLine v' A a b c p) = val p (tateMulLine v A a b c p) := by
  rw [tateMulLine, tateMulLine]
  split
  · exact hv
  · exact val_fp2Mul_congr hv _

theorem val_tateGetTangent_congr :
    val p (tateGetTangent v' A P p) = val p (tateGetTangent v A P p) := by
  rw [tateGetTangent, tateGetTangent]
  split
  · exact hv
  · split
    · exact val_fp2Mul_congr hv _
    · exact val_tateMulLine_congr hv _ _ _

theorem val_tateGetLine_congr :
    val p (tateGetLine v' A P B p) = val p (tateGetLine v A P B p) := by
  rw [tateGetLine, tateGetLine]
  split
  · exact val_tateGetVertical_congr hv (.refl B)
  · split
    · exact val_tateGetVertical_congr hv (.refl P)
    · split
      · split
        · exact val_fp2Mul_congr hv _
        · exact val_tateGetTangent_congr hv
      · exact val_tateMulLine_congr hv _ _ _

end Lines

/-- Two runs of the Miller loop that differ by multiples of `p` only. -/
structure SameMiller (p : Nat) (s s' : Miller) : Prop where
  Z : Congruent p s.Z s'.Z
  z : (s'.z : ZMod p) = s.z
  v : val p s'.v = val p s.v
  vdenom : val p s'.vdenom = val p s.vdenom

section Loops

variable {s s' : Miller} {Q P P' Z Z' : Point} {z z' : Int}

theorem Congruent.cast (h : Congruent p Z Z') :
    (Z'.x.a : ZMod p) = Z.x.a ∧ (Z'.y.a : ZMod p) = Z.y.a :=
  ⟨congrArg QuadraticAlgebra.re h.x, congrArg QuadraticAlgebra.re h.y⟩

theorem congruent_doublePoint (hZ : Congruent p Z Z') (hz : (z' : ZMod p) = z) :
    Congruent p (doublePoint Z z p).1 (doublePoint Z' z' p).1 ∧
      ((doublePoint Z' z' p).2 : ZMod p) = (doublePoint Z z p).2 := by
  obtain ⟨hx, hy⟩ := hZ.cast
  have hxb := congrArg QuadraticAlgebra.im hZ.x
  have hyb := congrArg QuadraticAlgebra.im hZ.y
  simp only [val_im] at hxb hyb
  refine ⟨⟨?_, ?_, hZ.infinity⟩, ?_⟩
  · ext <;> simp [doublePoint, projDouble, hx, hy, hxb]
  · ext <;> simp [doublePoint, projDouble, hx, hy, hyb]
  · simp [doublePoint, projDouble, hy, hz]

variable [hp : Fact p.Prime]

theorem normalize_congr (hZ : Congruent p Z Z') (hz : (z' : ZMod p) = z) :
    normalize Z' z' p = normalize Z z p := by
  have hinv : (mpzInvert z' z' p : ZMod p) = mpzInvert z z p := by
    rw [cast_mpzInvert, cast_mpzInvert, hz]
  apply Point.ext
  · apply eq_of_val_eq (reduced_fp2MulMpz pos _ _) (reduced_fp2MulMpz pos _ _)
    rw [val_fp2MulMpz, val_fp2MulMpz, hZ.x, cast_zpMul, cast_zpMul, hinv]
  · apply eq_of_val_eq (reduced_fp2MulMpz pos _ _) (reduced_fp2MulMpz pos _ _)
    simp only [val_fp2MulMpz, hZ.y, cast_zpMul, hinv]
  · exact hZ.infinity

theorem SameMiller.normalize (hs : SameMiller p s s') :
    SameMiller p { s with Z := TatePairing.normalize s.Z s.z p, z := 1 }
      { s' with Z := TatePairing.normalize s'.Z s'.z p, z := 1 } := by
  rw [normalize_congr hs.Z hs.z]
  exact ⟨.refl _, rfl, hs.v, hs.vdenom⟩

theorem SameMiller.round (hs : SameMiller p s s') :
    SameMiller p (millerRound Q p s) (millerRound Q p s') := by
  obtain ⟨hZ, hz⟩ := congruent_doublePoint hs.Z hs.z
  obtain ⟨hx, hy⟩ := hs.Z.cast
  refine ⟨hZ, hz, ?_, ?_⟩
  · simp only [millerRound]
    rw [val_ptsGetTangent_eq, val_ptsGetTangent_eq, val_fp2Sqr, val_fp2Sqr, hs.v, hx, hy, hs.z]
  · simp only [millerRound]
    rw [val_ptsGetVertical_eq, val_ptsGetVertical_eq, val_fp2Sqr, val_fp2Sqr, hs.vdenom, hZ.cast.1, hz]

theorem SameMiller.iterate (hs : SameMiller p s s') (k : Nat) :
    SameMiller p ((millerRound Q p)^[k] s) ((millerRound Q p)^[k] s') := by
  induction k with
  | zero => exact hs
  | succ k ih =>
      rw [Function.iterate_succ_apply', Function.iterate_succ_apply']
      exact ih.round

/-- The loop for `2 ^ b` ends with the same point, unless it is empty. -/
theorem sameMiller_start (hP : Congruent p P P') (b : Nat) :
    SameMiller p (millerStart P Q b p) (millerStart P' Q b p) ∧
      (b ≠ 0 → (millerStart P' Q b p).Z = (millerStart P Q b p).Z) := by
  have hone : SameMiller p ⟨fp2Set1, fp2Set1, P, 1⟩ ⟨fp2Set1, fp2Set1, P', 1⟩ := ⟨hP, rfl, rfl, rfl⟩
  have h := hone.iterate (Q := Q) b
  rw [millerStart, millerStart]
  split
  · rename_i hb
    exact ⟨h, fun hb' => absurd hb hb'⟩
  · exact ⟨h.normalize, fun _ => normalize_congr h.Z h.z⟩

omit hp in
theorem val_millerAdd_congr (hv : val p s'.v = val p s.v) (hd : val p s'.vdenom = val p s.vdenom)
    (hZ : s'.Z = s.Z) {bP : Point} {fb fb' : Fp2 × Fp2} (hf₁ : val p fb'.1 = val p fb.1)
    (hf₂ : val p fb'.2 = val p fb.2) :
    SameMiller p (millerAdd Q bP fb p s) (millerAdd Q bP fb' p s') := by
  refine ⟨?_, rfl, ?_, ?_⟩
  · simp only [millerAdd, hZ]
    exact .refl _
  · simp only [millerAdd, hZ]
    exact val_tateGetLine_congr (by rw [val_fp2Mul, val_fp2Mul, hv, hf₁])
  · simp only [millerAdd, hZ]
    exact val_tateGetVertical_congr (by rw [val_fp2Mul, val_fp2Mul, hd, hf₂]) (.refl _)

variable [hp4 : Fact (p % 4 = 3)] {q : Nat} {curve : Curve} (hcurve : SolinasCurve p q curve) (hP : Congruent p P P')
include hcurve hP

theorem SameMiller.finish (hs : SameMiller p s s') :
    val p (millerFinish P' Q curve s') = val p (millerFinish P Q curve s) := by
  rw [millerFinish, millerFinish, hcurve.p_eq, val_fp2Div, val_fp2Div,
    val_tateGetVertical_congr hs.v hs.Z]
  congr 1
  split
  · exact val_tateGetVertical_congr hs.vdenom hP
  · exact hs.vdenom

theorem val_tateSolinasMiller_congr :
    val p (tateSolinasMiller P' Q curve) = val p (tateSolinasMiller P Q curve) := by
  obtain ⟨hs, hsZ⟩ := sameMiller_start (Q := Q) hP curve.solinasb.natAbs
  have hloop := hs.iterate (Q := Q) (curve.solinasa.natAbs - curve.solinasb.natAbs)
  rw [tateSolinasMiller, tateSolinasMiller, hcurve.p_eq]
  dsimp only
  refine SameMiller.finish hcurve hP ?_
  split
  · exact hloop.normalize
  · rename_i hb
    have hnorm := hloop.normalize
    rw [hsZ hb]
    by_cases hneg : curve.solinasb < 0
    · simp only [if_pos hneg]
      exact val_millerAdd_congr hnorm.v hnorm.vdenom (normalize_congr hloop.Z hloop.z) hs.vdenom
        (val_tateGetVertical_congr hs.v (.refl _))
    · simp only [if_neg hneg]
      exact val_millerAdd_congr hnorm.v hnorm.vdenom (normalize_congr hloop.Z hloop.z) hs.v hs.vdenom

/-- The pairing of a point does not depend on the representatives of its
coordinates. -/
theorem tatePairing_congr : tatePairing P' Q curve = tatePairing P Q curve := by
  apply eq_of_val_eq (reduced_tatePairing hcurve _ _) (reduced_tatePairing hcurve _ _)
  rw [tatePairing, tatePairing, val_tatePower hcurve, val_tatePower hcurve,
    val_tateSolinasMiller_congr hcurve hP]

end Loops

end IdBasedEncryption.CongruentPoints
