import IdBasedEncryption.MillerLines
import IdBasedEncryption.ModifiedPairing

namespace IdBasedEncryption.MillerLoops

open WeierstrassCurve.Affine CurveDivisors MillerFunctions MordellCurve LineReciprocity ReducedTate
open Gmp Fp2Arith Fp2Value FieldExtension MordellGroup SolinasForm CurvePoints TatePairing
open PointValues MillerLines ModifiedPairing

variable {p : Nat} [hp : Fact p.Prime] [hp12 : Fact (p % 12 = 11)]

/-- A point whose coordinates are scaled by `z`. -/
structure Scaled (Z : Point) (z : Int) (A : E p) : Prop where
  point : ProjRepresents ⟨Z.x.a, Z.y.a, z⟩ A
  finite : Z.infinity = false
  xb : Z.x.b = 0
  yb : Z.y.b = 0

section Scaled

variable {Z : Point} {z : Int} {A : E p}

omit hp12 in
theorem scaled_ofPoint (hA : A ≠ 0) : Scaled (ofPoint A) 1 A := by
  rcases A with _ | ⟨x, y, h⟩
  · exact absurd rfl hA
  · exact ⟨⟨x, y, h, rfl, by simp, by simp [ofPoint, ofResidue], by simp [ofPoint, ofResidue]⟩,
      rfl, rfl, rfl⟩

theorem Scaled.double (h : Scaled Z z A) (hA : A + A ≠ 0) :
    Scaled (doublePoint Z z p).1 (doublePoint Z z p).2 (A + A) :=
  ⟨h.point.double two_ne_zero' hA, h.finite, h.xb, h.yb⟩

omit hp12 in
theorem Scaled.normalize (h : Scaled Z z A) : normalize Z z p = ofPoint A := by
  obtain ⟨⟨x, y, hxy, rfl, hz, hx, hy⟩, hf, hxb, hyb⟩ := h
  have hpp := pos (p := p)
  have hinv : ((mpzInvert z z p : Int) : ZMod p) = (z : ZMod p)⁻¹ := by
    rw [cast_mpzInvert, if_neg hz]
  simp only at hz hx hy
  have hr : ReducedPoint p (TatePairing.normalize Z z p) :=
    ⟨reduced_fp2MulMpz hpp _ _, reduced_fp2MulMpz hpp _ _⟩
  refine Represents.eq_ofPoint (P := TatePairing.normalize Z z p) ⟨hf, ?_, ?_, ?_, ?_⟩ hr hxy
  · simp [TatePairing.normalize, fp2MulMpz, hinv, hx]
    field_simp
  · simp [TatePairing.normalize, fp2MulMpz, hxb]
  · simp [TatePairing.normalize, fp2MulMpz, hinv, hy]
    field_simp
  · simp [TatePairing.normalize, fp2MulMpz, hyb]

end Scaled

section Torsion

variable {q : Nat} (hq : q.Prime) (hq3 : 3 < q)
include hq hq3

theorem evalPhi_vertical_ne_zero {A : E p} (hA : q • A = 0) {x y : ZMod p}
    (hS : (mordell (ZMod p)).Nonsingular x y) :
    evalPhi (zeta_cube (p := p)) hS.1 (vertical A) ≠ 0 := by
  by_cases h0 : A = 0
  · simp [h0]
  · have h := (avoiding hq hq3 (addOrderOf_eq hq hA h0)).ne 1 one_pos hq.one_lt zeta_cube
      (.some x y hS)
    rwa [one_nsmul] at h

variable {P : E p} {Q : Point} {x y : ZMod p} (hS : (mordell (ZMod p)).Nonsingular x y)

/-- What the loops keep: the accumulated values belong to a Miller function of
the point reached. -/
structure Loop (P : E p) {x y : ZMod p} (hS : (mordell (ZMod p)).Nonsingular x y) (A : E p)
    (i j : Nat) (s : Miller) : Prop where
  point : Scaled s.Z s.z A
  value : MillerValue (evalPhi zeta_cube hS.1) P A i j (val p s.v) (val p s.vdenom)

variable {hS} {A : E p} {i j : Nat} {s : Miller}

theorem Loop.round (hQ : IsPhi Q x y) (h : Loop P hS A i j s) (hA : q • A = 0) :
    Loop P hS (A + A) (i + i) (j + j) (millerRound Q p s) := by
  have h2 := add_self_ne_zero hq hq3 hA h.point.point.ne_zero
  have hZ := h.point.double h2
  obtain ⟨c, hc, hv⟩ := val_ptsGetTangent hQ hS.1 (v := fp2Sqr s.v p) h.point.point h2
  obtain ⟨k, hk, hd⟩ := val_ptsGetVertical hQ hS.1 (v := fp2Sqr s.vdenom p) hZ.point
  have hne := evalPhi_vertical_ne_zero hq hq3 hA hS
  have hne2 := evalPhi_vertical_ne_zero hq hq3 (A := A + A) (by rw [nsmul_add, hA, add_zero]) hS
  have hM := h.value.add (evalPhi_algebraMap zeta_cube hS.1) h.value hne hne hne2 hc hk
  refine ⟨hZ, ?_⟩
  simp only [millerRound]
  rwa [hv, hd, val_fp2Sqr, val_fp2Sqr, sq, sq]

theorem Loop.iterate (hQ : IsPhi Q x y) (h : Loop P hS A i j s) (hA : q • A = 0) (k : Nat) :
    Loop P hS (2 ^ k • A) (2 ^ k * i) (2 ^ k * j) ((millerRound Q p)^[k] s) := by
  induction k with
  | zero => simpa using h
  | succ k ih =>
      have hkA : q • (2 ^ k • A) = 0 := by rw [smul_comm, hA, nsmul_zero]
      have hr := ih.round hq hq3 hQ hkA
      rw [Function.iterate_succ_apply', pow_succ', mul_smul, two_nsmul, mul_assoc, mul_assoc,
        two_mul, two_mul]
      exact hr

end Torsion

/-- The parameters of the curve of a prime `q` for which `curve_init` finds a
decomposition. -/
structure SolinasCurve (p q : Nat) (curve : Curve) : Prop where
  p_eq : curve.p = p
  p1onq_eq : curve.p1onq = ((p + 1) / q : Nat)
  form : IsSolinas q curve.solinasa.natAbs curve.solinasb.natAbs curve.solinasb.sign
    curve.solinasa.sign

section Sum

variable {q a b : Nat} {s t : Int} (hs : IsSolinas q a b s t) {P : E p}
include hs

omit hp12 in
theorem sum_eq_neg (hP : q • P = 0) : 2 ^ a • P + s • (2 ^ b • P) = -(t • P) := by
  have h0 : (2 ^ a + s * 2 ^ b + t : Int) • P = 0 := by rw [← hs.eq, natCast_zsmul, hP]
  rw [eq_neg_iff_add_eq_zero, ← h0, add_zsmul, add_zsmul, mul_zsmul, ← natCast_zsmul,
    ← natCast_zsmul]
  push_cast
  rfl

omit hp12 in
theorem neg_last_smul_ne_zero (h0 : P ≠ 0) : -(t • P) ≠ 0 := by
  rcases hs.last with h | h <;> simpa [h] using h0

omit hp12 in
/-- The two points that the last addition meets are different. -/
theorem two_pow_ne (hb : b ≠ 0) (ho : addOrderOf P = q) : 2 ^ a • P ≠ s • (2 ^ b • P) := by
  intro h
  obtain ⟨hb2, hba, hs1⟩ := hs.middle.resolve_left fun h => hb h.1
  have hsub : (2 ^ a - s * 2 ^ b : Int) • P = 0 := by
    rw [sub_zsmul, mul_zsmul, ← sub_eq_add_neg, sub_eq_zero]
    rw [← natCast_zsmul, ← natCast_zsmul] at h
    push_cast at h
    exact h
  have hdvd := addOrderOf_dvd_iff_zsmul_eq_zero.2 hsub
  rw [ho] at hdvd
  have hdvd' : (q : Int) ∣ t + 2 * s * 2 ^ b := by
    have hq := dvd_sub (dvd_refl (q : Int)) hdvd
    rwa [show (q : Int) - (2 ^ a - s * 2 ^ b) = t + 2 * s * 2 ^ b by rw [hs.eq]; ring] at hq
  have hle := (hs.pow_le hb).1
  have heq := hs.eq
  have hpos : 2 ^ 2 ≤ 2 ^ b := Nat.pow_le_pow_right (by omega) hb2
  have hlt : |t + 2 * s * 2 ^ b| < q := by
    rw [abs_lt]
    zify at hle hpos
    rcases hs1 with rfl | rfl <;> rcases hs.last with rfl | rfl <;> omega
  have hzero := Int.eq_zero_of_abs_lt_dvd hdvd' hlt
  zify at hpos
  rcases hs1 with rfl | rfl <;> rcases hs.last with rfl | rfl <;> omega

end Sum

section Close

variable {q : Nat} {t : Int} {P : E p} {e : (mordell (ZMod p)).CoordinateRing →+* K p}
  {i j : Nat} {v d : K p}

/-- The last addition of the loops, of `P` or of its negative. -/
theorem exists_isTateFunction_of_close
    (he : ∀ c : ZMod p, e (algebraMap (ZMod p) _ c) = algebraMap (ZMod p) (K p) c)
    (hP : e (vertical P) ≠ 0) (ht : t = 1 ∨ t = -1) (hij : (i : Int) = j + q - t)
    (h : MillerValue e P (-(t • P)) i j v d) :
    ∃ f, IsTateFunction P q f ∧
      v * e (vertical (-(t • P))) / (if t < 0 then d * e (vertical P) else d) = e f := by
  rcases ht with rfl | rfl
  · simp only [one_smul] at h ⊢
    have hM := h.close he hP
    rw [show i + 1 = j + q by omega] at hM
    exact hM.exists_isTateFunction
  · simp only [neg_smul, one_smul, neg_neg] at h ⊢
    have hM := h.close_neg he hP
    rw [show i = j + 1 + q by omega] at hM
    exact hM.exists_isTateFunction

end Close

section Direct

variable {q : Nat} (hq : q.Prime) (hq3 : 3 < q) {P A B : E p} (hA : q • A = 0) {Q : Point}
  {x y : ZMod p} (hQ : IsPhi Q x y) {hS : (mordell (ZMod p)).Nonsingular x y} {i j : Nat}
  {s : Miller}
include hq hq3 hA hQ

omit hp12 hq hq3 hA hQ in
theorem stands_signed (n : Int) (hn : n ≠ 0) (h0 : A ≠ 0) :
    Stands (if n < 0 then { ofPoint A with y := fp2Neg (ofPoint A).y p } else ofPoint A)
      (n.sign • A) := by
  have hst := stands_ofPoint h0
  by_cases hneg : n < 0
  · rw [if_pos hneg, Int.sign_eq_neg_one_of_neg hneg, neg_smul, one_smul]
    exact hst.neg
  · rw [if_neg hneg, Int.sign_eq_one_of_pos (show 0 < n by omega), one_smul]
    exact hst

theorem Loop.signed {n : Int} (hn : n ≠ 0) (h : Loop P hS A i 0 s) (hZ : s.Z = ofPoint A) :
    let fb := if n < 0 then (s.vdenom, tateGetVertical s.v Q s.Z p) else (s.v, s.vdenom)
    ∃ i' j' : Nat, (i' : Int) = j' + n.sign * i ∧
      MillerValue (evalPhi zeta_cube hS.1) P (n.sign • A) i' j' (val p fb.1) (val p fb.2) := by
  by_cases hneg : n < 0
  · simp only [if_pos hneg, Int.sign_eq_neg_one_of_neg hneg, neg_smul, one_smul]
    refine ⟨0, i, by simp, ?_⟩
    rw [hZ, val_tateGetVertical hQ hS.1 (stands_ofPoint h.point.point.ne_zero)]
    exact h.value.neg (evalPhi_vertical_ne_zero hq hq3 hA hS)
  · simp only [if_neg hneg, Int.sign_eq_one_of_pos (show 0 < n by omega), one_smul, one_mul]
    exact ⟨i, 0, by simp, h.value⟩

theorem Loop.millerAdd (h : Loop P hS A i 0 s) (hZ : s.Z = ofPoint A) (hB : q • B = 0)
    (hAB : A ≠ B) (hne : A + B ≠ 0) {bP : Point} (hbP : Stands bP B) {fb : Fp2 × Fp2} {i' j' : Nat}
    (hfb : MillerValue (evalPhi zeta_cube hS.1) P B i' j' (val p fb.1) (val p fb.2)) :
    Loop P hS (A + B) (i + i') j' (millerAdd Q bP fb p s) ∧
      (millerAdd Q bP fb p s).Z = ofPoint (A + B) := by
  have h0 := h.point.point.ne_zero
  have hR : pointAdd s.Z bP p = ofPoint (A + B) := by
    rw [hZ]
    exact pointAdd_stands h0 hbP hne
  have hAB0 : q • (A + B) = 0 := by rw [nsmul_add, hA, hB, add_zero]
  obtain ⟨c, hc, hv⟩ := val_tateGetLine hQ hS.1 (v := fp2Mul s.v fb.1 p) (stands_ofPoint h0) hbP
    hAB hne
  have hd := val_tateGetVertical hQ hS.1 (v := fp2Mul s.vdenom fb.2 p) (stands_ofPoint hne)
  have hM := h.value.add (evalPhi_algebraMap zeta_cube hS.1) hfb
    (evalPhi_vertical_ne_zero hq hq3 hA hS) (evalPhi_vertical_ne_zero hq hq3 hB hS)
    (evalPhi_vertical_ne_zero hq hq3 hAB0 hS) (k := 1) hc one_ne_zero
  rw [map_one, one_mul, zero_add] at hM
  refine ⟨⟨?_, ?_⟩, hR⟩
  · simp only [TatePairing.millerAdd, hR]
    exact scaled_ofPoint hne
  · simp only [TatePairing.millerAdd, hR]
    rwa [hZ, hv, hd, val_fp2Mul, val_fp2Mul]

omit hA

theorem loop_millerStart (hP : q • P = 0) (h0 : P ≠ 0) (b : Nat) :
    Loop P hS (2 ^ b • P) (2 ^ b) 0 (millerStart (ofPoint P) Q b p) ∧
      (millerStart (ofPoint P) Q b p).Z = ofPoint (2 ^ b • P) := by
  have hone : Loop P hS P 1 0 ⟨fp2Set1, fp2Set1, ofPoint P, 1⟩ :=
    ⟨scaled_ofPoint h0, by simpa using MillerValue.one P⟩
  have hit := hone.iterate hq hq3 hQ hP b
  rw [mul_one, mul_zero] at hit
  rw [millerStart]
  split
  · rename_i hb
    subst hb
    exact ⟨hit, by simp⟩
  · have hZ := hit.point.normalize
    refine ⟨⟨?_, hit.value⟩, hZ⟩
    simp only [hZ]
    exact scaled_ofPoint (two_pow_nsmul_ne_zero hq hq3 hP h0 b)

theorem Loop.finish {curve : Curve} (hcurve : SolinasCurve p q curve) (hP : q • P = 0) (h0 : P ≠ 0)
    (h : Loop P hS (-(curve.solinasa.sign • P)) i j s)
    (hZ : s.Z = ofPoint (-(curve.solinasa.sign • P)))
    (hij : (i : Int) = j + q - curve.solinasa.sign) :
    ∃ f, IsTateFunction P q f ∧
      val p (millerFinish (ofPoint P) Q curve s) = evalPhi zeta_cube hS.1 f := by
  have hvP := evalPhi_vertical_ne_zero hq hq3 hP hS
  obtain ⟨f, hf, hv⟩ := exists_isTateFunction_of_close
    (evalPhi_algebraMap (K := K p) zeta_cube hS.1) hvP hcurve.form.last hij h.value
  refine ⟨f, hf, ?_⟩
  rw [← hv, millerFinish, hcurve.p_eq, val_fp2Div, hZ,
    val_tateGetVertical hQ hS.1 (stands_ofPoint h.point.point.ne_zero)]
  congr 1
  simp only [Int.sign_neg_iff]
  split
  · exact val_tateGetVertical hQ hS.1 (stands_ofPoint h0)
  · rfl

variable (hS) in
/-- The Miller loop evaluates a function with a zero of order `q` at `P`. -/
theorem exists_tateSolinasMiller {curve : Curve} (hcurve : SolinasCurve p q curve)
    (hP : q • P = 0) (h0 : P ≠ 0) :
    ∃ f, IsTateFunction P q f ∧
      val p (tateSolinasMiller (ofPoint P) Q curve) = evalPhi zeta_cube hS.1 f := by
  have hs := hcurve.form
  have heq := hs.eq
  have hsum := sum_eq_neg hs hP
  have hba := hs.le
  obtain ⟨hstart, hstartZ⟩ : Loop P hS _ _ _ _ ∧ _ :=
    loop_millerStart hq hq3 hQ hP h0 curve.solinasb.natAbs
  have hpow (k : Nat) : q • (2 ^ k • P) = 0 := by rw [smul_comm, hP, nsmul_zero]
  have hloop := hstart.iterate hq hq3 hQ (hpow _) (curve.solinasa.natAbs - curve.solinasb.natAbs)
  rw [← mul_smul, ← pow_add, mul_zero, Nat.sub_add_cancel hba] at hloop
  rw [tateSolinasMiller, hcurve.p_eq]
  dsimp only
  rw [hloop.point.normalize]
  generalize (millerRound Q p)^[curve.solinasa.natAbs - curve.solinasb.natAbs]
    (millerStart (ofPoint P) Q curve.solinasb.natAbs p) = s at hloop ⊢
  have hnorm : Loop P hS (2 ^ curve.solinasa.natAbs • P) (2 ^ curve.solinasa.natAbs) 0
      { s with Z := ofPoint (2 ^ curve.solinasa.natAbs • P), z := 1 } :=
    ⟨scaled_ofPoint hloop.point.point.ne_zero, hloop.value⟩
  by_cases hb : curve.solinasb.natAbs = 0
  · have hb' : curve.solinasb.sign = 0 := by simpa using hb
    rw [if_pos hb]
    rw [hb', zero_zsmul, add_zero] at hsum
    rw [hsum] at hnorm ⊢
    refine hnorm.finish hq hq3 hQ hcurve hP h0 rfl ?_
    rw [hb'] at heq
    push_cast
    omega
  · rw [if_neg hb]
    have hb0 : curve.solinasb ≠ 0 := by simpa using hb
    have hbP := stands_signed curve.solinasb hb0 hstart.point.point.ne_zero
    rw [← hstartZ] at hbP
    obtain ⟨i', j', hij, hfb⟩ := hstart.signed hq hq3 (hpow _) hQ hb0 hstartZ
    have hB : q • (curve.solinasb.sign • (2 ^ curve.solinasb.natAbs • P)) = 0 := by
      rw [smul_comm, hpow, zsmul_zero]
    have hR0 := neg_last_smul_ne_zero hs h0
    have hadd := hnorm.millerAdd hq hq3 (hpow _) hQ rfl hB
      (two_pow_ne hs hb (addOrderOf_eq hq hP h0)) (by rwa [hsum]) hbP hfb
    rw [hsum] at hadd
    refine hadd.1.finish hq hq3 hQ hcurve hP h0 hadd.2 ?_
    push_cast at hij ⊢
    linarith

end Direct

end IdBasedEncryption.MillerLoops
