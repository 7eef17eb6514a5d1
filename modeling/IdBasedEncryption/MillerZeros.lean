import IdBasedEncryption.OriginPairings

namespace IdBasedEncryption.MillerZeros

open WeierstrassCurve.Affine MordellCurve Gmp Fp2Arith Fp2Value FieldExtension MordellGroup
open SolinasForm CurvePoints TatePairing PointValues MillerLines ModifiedPairing MillerLoops
open PairingValues

variable {p : Nat} [hp : Fact p.Prime]

/-- The tangent at a finite point passes through `Q`. -/
def TangentMeets (A : E p) (Q : Point) : Prop :=
  ∃ x y h, A = .some x y h ∧ 2 • algebraMap (ZMod p) (K p) y * (val p Q.y - algebraMap (ZMod p) (K p) y) =
    3 • algebraMap (ZMod p) (K p) x ^ 2 * (val p Q.x - algebraMap (ZMod p) (K p) x)

/-- The line through two finite points passes through `Q`. -/
def ChordMeets (A B : E p) (Q : Point) : Prop :=
  ∃ x₁ y₁ h₁ x₂ y₂ h₂, A = .some x₁ y₁ h₁ ∧ B = .some x₂ y₂ h₂ ∧
    algebraMap (ZMod p) (K p) (x₂ - x₁) * (val p Q.y - algebraMap (ZMod p) (K p) y₁) =
      algebraMap (ZMod p) (K p) (y₂ - y₁) * (val p Q.x - algebraMap (ZMod p) (K p) x₁)

/-- A line of the Miller loop for `q` and the point `A` passes through `Q`. -/
def LineMeets (curve : Curve) (A : E p) (Q : Point) : Prop :=
  (∃ i < curve.solinasa.natAbs, TangentMeets (2 ^ i • A) Q) ∨
    curve.solinasb ≠ 0 ∧ ChordMeets (2 ^ curve.solinasa.natAbs • A)
      (curve.solinasb.sign • 2 ^ curve.solinasb.natAbs • A) Q

/-- A finite point whose first coordinate belongs to no point of order `q`. -/
structure OffVerticals (p q : Nat) [Fact p.Prime] (Q : Point) : Prop where
  finite : Q.infinity = false
  ne : ∀ (x y : ZMod p) (h : (mordell (ZMod p)).Nonsingular x y), q • (.some x y h : E p) = 0 →
    val p Q.x ≠ algebraMap (ZMod p) (K p) x

section Factors

variable {q : Nat} {Q P P' : Point} (hQ : OffVerticals p q Q) {A B : E p} {v : Fp2} [hp12 : Fact (p % 12 = 11)]
include hQ

theorem val_ptsGetVertical_eq_zero_iff {z : Int} (hP : ProjRepresents ⟨P.x.a, P.y.a, z⟩ A)
    (hA : q • A = 0) : val p (ptsGetVertical v Q P z p) = 0 ↔ val p v = 0 := by
  obtain ⟨x, y, h, rfl, hz, hx, hy⟩ := hP
  simp only at hx
  have hne := sub_ne_zero.2 (hQ.ne x y h hA)
  have hz2 : algebraMap (ZMod p) (K p) (z ^ 2) ≠ 0 := (map_ne_zero _).2 (pow_ne_zero 2 hz)
  have heq : val p Q.x * algebraMap (ZMod p) (K p) (z * z) - algebraMap (ZMod p) (K p) P.x.a =
      algebraMap (ZMod p) (K p) (z ^ 2) * (val p Q.x - algebraMap (ZMod p) (K p) x) := by
    rw [hx, map_mul, map_mul, map_pow]
    ring
  rw [val_ptsGetVertical_eq, heq, mul_eq_zero, or_iff_left (mul_ne_zero hz2 hne)]

theorem val_tateGetVertical_eq_zero_iff (hP : Stands P A) (hA : q • A = 0) :
    val p (tateGetVertical v Q P p) = 0 ↔ val p v = 0 := by
  obtain ⟨x, y, h, rfl, hP, -⟩ := hP
  have hne := sub_ne_zero.2 (hQ.ne x y h hA)
  rw [tateGetVertical, if_neg (by simp [hQ.finite, hP.finite]), val_fp2Mul, val_fp2Sub, hP.val_x,
    mul_eq_zero, or_iff_left hne]

omit hQ in
theorem val_ptsGetTangent_eq_zero_iff {z : Int} (hP : ProjRepresents ⟨P.x.a, P.y.a, z⟩ A) :
    val p (ptsGetTangent v Q P z p) = 0 ↔ val p v = 0 ∨ TangentMeets A Q := by
  obtain ⟨x, y, h, rfl, hz, hx, hy⟩ := hP
  simp only at hx hy
  have hz6 : algebraMap (ZMod p) (K p) (z ^ 6) ≠ 0 := (map_ne_zero _).2 (pow_ne_zero 6 hz)
  have heq : val p Q.x * algebraMap (ZMod p) (K p) (-(3 * P.x.a ^ 2 * z ^ 2)) +
      val p Q.y * algebraMap (ZMod p) (K p) (2 * P.y.a * z ^ 3) +
        algebraMap (ZMod p) (K p) (3 * P.x.a ^ 3 - 2 * P.y.a ^ 2) =
      algebraMap (ZMod p) (K p) (z ^ 6) *
        (2 * algebraMap (ZMod p) (K p) y * (val p Q.y - algebraMap (ZMod p) (K p) y) -
          3 * algebraMap (ZMod p) (K p) x ^ 2 * (val p Q.x - algebraMap (ZMod p) (K p) x)) := by
    rw [hx, hy]
    simp only [map_mul, map_sub, map_neg, map_pow, map_ofNat]
    ring
  have htan : TangentMeets (.some x y h) Q ↔
      2 * algebraMap (ZMod p) (K p) y * (val p Q.y - algebraMap (ZMod p) (K p) y) -
        3 * algebraMap (ZMod p) (K p) x ^ 2 * (val p Q.x - algebraMap (ZMod p) (K p) x) = 0 := by
    simp only [TangentMeets, nsmul_eq_mul, Nat.cast_ofNat, sub_eq_zero]
    constructor
    · rintro ⟨x', y', h', heq, he⟩
      obtain ⟨rfl, rfl⟩ := Point.some.inj heq
      exact he
    · exact fun he => ⟨x, y, h, rfl, he⟩
  rw [val_ptsGetTangent_eq, heq, mul_eq_zero, mul_eq_zero, or_iff_right hz6, htan]

theorem val_tateGetLine_eq_zero_iff (hP : Stands P A) (hP' : Stands P' B) (hAB : A ≠ B)
    (hne : A + B ≠ 0) :
    val p (tateGetLine v Q P P' p) = 0 ↔ val p v = 0 ∨ ChordMeets A B Q := by
  obtain ⟨x₁, y₁, h₁, rfl, hP, -⟩ := hP
  obtain ⟨x₂, y₂, h₂, rfl, hP', -⟩ := hP'
  have hneq : ¬fp2Equal P.x P'.x = true := by
    rw [fp2Equal_iff]
    intro he
    have hv := congrArg (val p) he
    rw [hP.val_x, hP'.val_x] at hv
    exact x_ne_of_add_ne_zero hAB hne ((algebraMap (ZMod p) (K p)).injective hv)
  have hchord : ChordMeets (.some x₁ y₁ h₁) (.some x₂ y₂ h₂) Q ↔
      algebraMap (ZMod p) (K p) (x₂ - x₁) * (val p Q.y - algebraMap (ZMod p) (K p) y₁) -
        algebraMap (ZMod p) (K p) (y₂ - y₁) * (val p Q.x - algebraMap (ZMod p) (K p) x₁) = 0 := by
    rw [sub_eq_zero]
    constructor
    · rintro ⟨x₁', y₁', h₁', x₂', y₂', h₂', heq, heq', he⟩
      obtain ⟨rfl, rfl⟩ := Point.some.inj heq
      obtain ⟨rfl, rfl⟩ := Point.some.inj heq'
      exact he
    · exact fun he => ⟨x₁, y₁, h₁, x₂, y₂, h₂, rfl, rfl, he⟩
  rw [tateGetLine, if_neg (by simp [hP.finite]), if_neg (by simp [hP'.finite]), if_neg hneq]
  simp only [tateMulLine, hQ.finite]
  rw [if_neg Bool.false_ne_true, hchord, val_fp2Mul, mul_eq_zero]
  simp only [val_fp2Mul, val_fp2Add, val_fp2Sub, val_fp2Neg, hP.val_x, hP.val_y, hP'.val_x,
    hP'.val_y, map_sub]
  ring_nf

end Factors

section Loops

variable {q : Nat} (hq : q.Prime) (hq3 : 3 < q) [hp12 : Fact (p % 12 = 11)]

/-- What the loops keep: the accumulated value is zero exactly when one of the
lines so far passes through the point, and the denominator only then. -/
structure Trace (A : E p) (C : Prop) (s : Miller) : Prop where
  point : Scaled s.Z s.z A
  v : val p s.v = 0 ↔ C
  vdenom : val p s.vdenom = 0 → C

variable {Q : Point} (hQ : OffVerticals p q Q) {A B P : E p} {C : Prop} {s : Miller}
include hq hq3 hQ

theorem Trace.round (h : Trace A C s) (hA : q • A = 0) :
    Trace (A + A) (C ∨ TangentMeets A Q) (millerRound Q p s) := by
  have hA2 : q • (A + A) = 0 := by rw [nsmul_add, hA, add_zero]
  have hZ := h.point.double (add_self_ne_zero hq hq3 hA h.point.point.ne_zero)
  refine ⟨hZ, ?_, fun h0 => ?_⟩
  · rw [millerRound, val_ptsGetTangent_eq_zero_iff h.point.point, val_fp2Sqr,
      pow_eq_zero_iff two_ne_zero, h.v]
  · rw [millerRound, val_ptsGetVertical_eq_zero_iff hQ hZ.point hA2, val_fp2Sqr,
      pow_eq_zero_iff two_ne_zero] at h0
    exact Or.inl (h.vdenom h0)

theorem Trace.iterate (h : Trace A C s) (hA : q • A = 0) (k : Nat) :
    Trace (2 ^ k • A) (C ∨ ∃ i < k, TangentMeets (2 ^ i • A) Q) ((millerRound Q p)^[k] s) := by
  induction k with
  | zero => simpa using h
  | succ k ih =>
      have hkA : q • (2 ^ k • A) = 0 := by rw [smul_comm, hA, nsmul_zero]
      have hr := ih.round hq hq3 hQ hkA
      have hC : (C ∨ ∃ i < k + 1, TangentMeets (2 ^ i • A) Q) ↔
          (C ∨ ∃ i < k, TangentMeets (2 ^ i • A) Q) ∨ TangentMeets (2 ^ k • A) Q := by
        rw [or_assoc]
        refine or_congr_right ⟨?_, ?_⟩
        · rintro ⟨i, hi, ht⟩
          rcases Nat.lt_succ_iff_lt_or_eq.1 hi with hik | rfl
          · exact Or.inl ⟨i, hik, ht⟩
          · exact Or.inr ht
        · rintro (⟨i, hi, ht⟩ | ht)
          · exact ⟨i, Nat.lt_succ_of_lt hi, ht⟩
          · exact ⟨k, Nat.lt_succ_self k, ht⟩
      rw [Function.iterate_succ_apply', pow_succ', mul_smul, two_nsmul, hC]
      exact hr

omit hq hq3 in
theorem Trace.signed (n : Int) (h : Trace A C s) (hZ : s.Z = ofPoint A) (hA : q • A = 0) :
    let fb := if n < 0 then (s.vdenom, tateGetVertical s.v Q s.Z p) else (s.v, s.vdenom)
    (val p fb.1 = 0 → C) ∧ (val p fb.2 = 0 → C) := by
  by_cases hneg : n < 0
  · simp only [if_pos hneg]
    refine ⟨h.vdenom, fun h0 => ?_⟩
    rw [hZ, val_tateGetVertical_eq_zero_iff hQ (stands_ofPoint h.point.point.ne_zero) hA] at h0
    exact h.v.1 h0
  · simp only [if_neg hneg]
    exact ⟨h.v.1, h.vdenom⟩

omit hq hq3 in
theorem Trace.millerAdd (h : Trace A C s) (hZ : s.Z = ofPoint A) (hA : q • A = 0) (hB : q • B = 0)
    (hAB : A ≠ B) (hne : A + B ≠ 0) {bP : Point} (hbP : Stands bP B) {fb : Fp2 × Fp2}
    (hfb₁ : val p fb.1 = 0 → C) (hfb₂ : val p fb.2 = 0 → C) :
    Trace (A + B) (C ∨ ChordMeets A B Q) (millerAdd Q bP fb p s) ∧
      (millerAdd Q bP fb p s).Z = ofPoint (A + B) := by
  have h0 := h.point.point.ne_zero
  have hR : pointAdd s.Z bP p = ofPoint (A + B) := by
    rw [hZ]
    exact pointAdd_stands h0 hbP hne
  have hAB0 : q • (A + B) = 0 := by rw [nsmul_add, hA, hB, add_zero]
  refine ⟨⟨?_, ?_, fun hd => ?_⟩, hR⟩
  · simp only [TatePairing.millerAdd, hR]
    exact scaled_ofPoint hne
  · rw [TatePairing.millerAdd, hZ,
      val_tateGetLine_eq_zero_iff hQ (stands_ofPoint h0) hbP hAB hne, val_fp2Mul, mul_eq_zero, h.v,
      or_iff_left_of_imp hfb₁]
  · rw [TatePairing.millerAdd, hR, val_tateGetVertical_eq_zero_iff hQ (stands_ofPoint hne) hAB0,
      val_fp2Mul, mul_eq_zero] at hd
    exact Or.inl (hd.elim h.vdenom hfb₂)

theorem trace_millerStart (hP : q • P = 0) (h0 : P ≠ 0) (b : Nat) :
    Trace (2 ^ b • P) (∃ i < b, TangentMeets (2 ^ i • P) Q) (millerStart (ofPoint P) Q b p) ∧
      (millerStart (ofPoint P) Q b p).Z = ofPoint (2 ^ b • P) := by
  have hone : Trace P False ⟨fp2Set1, fp2Set1, ofPoint P, 1⟩ :=
    ⟨scaled_ofPoint h0, by simp, by simp⟩
  have hit := hone.iterate hq hq3 hQ hP b
  rw [false_or] at hit
  rw [millerStart]
  split
  · rename_i hb
    subst hb
    exact ⟨hit, by simp⟩
  · have hZ := hit.point.normalize
    refine ⟨⟨?_, hit.v, hit.vdenom⟩, hZ⟩
    simp only [hZ]
    exact scaled_ofPoint (two_pow_nsmul_ne_zero hq hq3 hP h0 b)

omit hq hq3 in
theorem Trace.finish {curve : Curve} (hcurve : SolinasCurve p q curve) (hP : q • P = 0) (h0 : P ≠ 0)
    (h : Trace A C s) (hZ : s.Z = ofPoint A) (hA : q • A = 0) :
    val p (millerFinish (ofPoint P) Q curve s) = 0 ↔ C := by
  rw [millerFinish, hcurve.p_eq, val_fp2Div, div_eq_zero_iff, hZ,
    val_tateGetVertical_eq_zero_iff hQ (stands_ofPoint h.point.point.ne_zero) hA, h.v]
  refine or_iff_left_of_imp ?_
  split
  · rw [val_tateGetVertical_eq_zero_iff hQ (stands_ofPoint h0) hP]
    exact h.vdenom
  · exact h.vdenom

/-- The Miller loop leads to zero exactly when one of its lines passes through
the point. -/
theorem val_tateSolinasMiller_eq_zero_iff {curve : Curve} (hcurve : SolinasCurve p q curve)
    (hP : q • P = 0) (h0 : P ≠ 0) :
    val p (tateSolinasMiller (ofPoint P) Q curve) = 0 ↔ LineMeets curve P Q := by
  have hs := hcurve.form
  have hsum := sum_eq_neg hs hP
  have hba := hs.le
  obtain ⟨hstart, hstartZ⟩ := trace_millerStart hq hq3 hQ hP h0 curve.solinasb.natAbs
  have hpow (k : Nat) : q • (2 ^ k • P) = 0 := by rw [smul_comm, hP, nsmul_zero]
  have hloop := hstart.iterate hq hq3 hQ (hpow _) (curve.solinasa.natAbs - curve.solinasb.natAbs)
  have hC : ((∃ i < curve.solinasb.natAbs, TangentMeets (2 ^ i • P) Q) ∨
      ∃ i < curve.solinasa.natAbs - curve.solinasb.natAbs,
        TangentMeets (2 ^ i • 2 ^ curve.solinasb.natAbs • P) Q) ↔
      ∃ i < curve.solinasa.natAbs, TangentMeets (2 ^ i • P) Q := by
    constructor
    · rintro (⟨i, hi, ht⟩ | ⟨i, hi, ht⟩)
      · exact ⟨i, by omega, ht⟩
      · rw [← mul_smul, ← pow_add] at ht
        exact ⟨_, by omega, ht⟩
    · rintro ⟨i, hi, ht⟩
      by_cases hib : i < curve.solinasb.natAbs
      · exact Or.inl ⟨i, hib, ht⟩
      · refine Or.inr ⟨i - curve.solinasb.natAbs, by omega, ?_⟩
        rwa [← mul_smul, ← pow_add, Nat.sub_add_cancel (by omega)]
  rw [← mul_smul, ← pow_add, Nat.sub_add_cancel hba, hC] at hloop
  rw [tateSolinasMiller, hcurve.p_eq]
  dsimp only
  rw [hloop.point.normalize]
  generalize (millerRound Q p)^[curve.solinasa.natAbs - curve.solinasb.natAbs]
    (millerStart (ofPoint P) Q curve.solinasb.natAbs p) = s at hloop ⊢
  have hnorm : Trace (2 ^ curve.solinasa.natAbs • P)
      (∃ i < curve.solinasa.natAbs, TangentMeets (2 ^ i • P) Q)
      { s with Z := ofPoint (2 ^ curve.solinasa.natAbs • P), z := 1 } :=
    ⟨scaled_ofPoint hloop.point.point.ne_zero, hloop.v, hloop.vdenom⟩
  by_cases hb : curve.solinasb = 0
  · rw [if_pos (by simpa using hb), LineMeets, or_iff_left fun h => h.1 hb]
    exact hnorm.finish hQ hcurve hP h0 rfl (hpow _)
  · have hb' : curve.solinasb.natAbs ≠ 0 := by simpa using hb
    rw [if_neg hb', LineMeets, and_iff_right hb]
    have hbP := stands_signed curve.solinasb hb hstart.point.point.ne_zero
    rw [← hstartZ] at hbP
    have hB : q • (curve.solinasb.sign • (2 ^ curve.solinasb.natAbs • P)) = 0 := by
      rw [smul_comm, hpow, zsmul_zero]
    have hR0 := neg_last_smul_ne_zero hs h0
    have hlow : (∃ i < curve.solinasb.natAbs, TangentMeets (2 ^ i • P) Q) →
        ∃ i < curve.solinasa.natAbs, TangentMeets (2 ^ i • P) Q := fun h => hC.1 (Or.inl h)
    obtain ⟨hfb₁, hfb₂⟩ := hstart.signed hQ curve.solinasb hstartZ (hpow _)
    have hadd := hnorm.millerAdd hQ rfl (hpow _) hB (two_pow_ne hs hb' (addOrderOf_eq hq hP h0))
      (by rwa [hsum]) hbP (fun h => hlow (hfb₁ h)) fun h => hlow (hfb₂ h)
    exact hadd.1.finish hQ hcurve hP h0 hadd.2 (by rw [nsmul_add, hpow, hB, add_zero])

theorem val_tatePairing_eq_zero_iff (hqp : q ∣ p + 1) {curve : Curve}
    (hcurve : SolinasCurve p q curve) (hP : q • P = 0) (h0 : P ≠ 0) :
    val p (tatePairing (ofPoint P) Q curve) = 0 ↔ LineMeets curve P Q := by
  have hdiv := Nat.div_pos (Nat.le_of_dvd p.succ_pos hqp) hq.pos
  have hp1 := hp.out.one_lt
  have hne : finalPower p q ≠ 0 := (Nat.mul_pos (by omega) hdiv).ne'
  rw [tatePairing, val_tatePower hcurve, pow_eq_zero_iff hne,
    val_tateSolinasMiller_eq_zero_iff hq hq3 hQ hcurve hP h0]

end Loops

section Twisted

variable [hp12 : Fact (p % 12 = 11)]

theorem eq_zero_of_zeta_mul_add {a c : ZMod p}
    (h : zeta p * algebraMap (ZMod p) (K p) a + algebraMap (ZMod p) (K p) c = 0) : a = 0 := by
  have him := congrArg QuadraticAlgebra.im h
  simp at him
  exact him.resolve_left zeta_im_ne_zero

variable {q : Nat} (hq : q.Prime) (hq3 : 3 < q) {Q : Point} {x y : ZMod p} (hQ : IsPhi Q x y)
  (hx : x ≠ 0)
include hQ hx

theorem offVerticals_of_isPhi : OffVerticals p q Q where
  finite := hQ.finite
  ne x' y' h' _ he := by
    refine hx (eq_zero_of_zeta_mul_add (c := -x') ?_)
    rw [← hQ.x, he, map_neg, add_neg_cancel]

include hq hq3

theorem not_tangentMeets {A : E p} (hA : q • A = 0) : ¬TangentMeets A Q := by
  rintro ⟨x₁, y₁, h₁, rfl, he⟩
  rw [nsmul_eq_mul, nsmul_eq_mul, Nat.cast_ofNat, Nat.cast_ofNat] at he
  have hx₁ := x_ne_zero hq hq3 (addOrderOf_eq hq hA (Point.some_ne_zero h₁))
  have h0 := eq_zero_of_zeta_mul_add (a := 3 * x₁ ^ 2 * x)
    (c := -(3 * x₁ ^ 3) - 2 * y₁ * (y - y₁)) (by
      rw [hQ.x, hQ.y] at he
      simp only [map_mul, map_sub, map_neg, map_pow, map_ofNat]
      linear_combination -he)
  exact mul_ne_zero (mul_ne_zero FieldExtension.three_ne_zero (pow_ne_zero 2 hx₁)) hx h0

omit hq hq3 in
theorem not_chordMeets {A B : E p} (hAB : A ≠ B) : ¬ChordMeets A B Q := by
  rintro ⟨x₁, y₁, h₁, x₂, y₂, h₂, rfl, rfl, he⟩
  have h0 := eq_zero_of_zeta_mul_add (a := (y₂ - y₁) * x)
    (c := -((y₂ - y₁) * x₁) - (x₂ - x₁) * (y - y₁)) (by
      rw [hQ.x, hQ.y] at he
      simp only [map_mul, map_sub, map_neg] at he ⊢
      linear_combination -he)
  obtain rfl := (sub_eq_zero.1 ((mul_eq_zero.1 h0).resolve_right hx)).symm
  have hcube : x₁ ^ 3 = x₂ ^ 3 := by
    linear_combination (MordellCurve.equation_iff.1 h₂.1) - (MordellCurve.equation_iff.1 h₁.1)
  obtain rfl := cube_injective hcube
  exact hAB rfl

/-- The lines of the loop miss the image of every pair whose first entry is not
zero, be it a point or not. -/
theorem not_lineMeets {curve : Curve} (hcurve : SolinasCurve p q curve) {A : E p} (hA : q • A = 0)
    (h0 : A ≠ 0) : ¬LineMeets curve A Q := by
  rintro (⟨i, -, ht⟩ | ⟨hb, hc⟩)
  · exact not_tangentMeets hq hq3 hQ hx (by rw [smul_comm, hA, nsmul_zero]) ht
  · exact not_chordMeets hQ hx
      (two_pow_ne hcurve.form (by simpa using hb) (addOrderOf_eq hq hA h0)) hc

theorem val_tatePairing_ne_zero (hqp : q ∣ p + 1) {curve : Curve} (hcurve : SolinasCurve p q curve)
    {A : E p} (hA : q • A = 0) (h0 : A ≠ 0) : val p (tatePairing (ofPoint A) Q curve) ≠ 0 := by
  rw [Ne, val_tatePairing_eq_zero_iff hq hq3 (offVerticals_of_isPhi hQ hx) hqp hcurve hA h0]
  exact not_lineMeets hq hq3 hQ hx hcurve hA h0

end Twisted

section Origin

variable {q : Nat} (hq : q.Prime) (hq3 : 3 < q) [hp12 : Fact (p % 12 = 11)]
include hq hq3

/-- The origin lies on no vertical through a point of order `q`. -/
theorem offVerticals_origin : OffVerticals p q pointInit where
  finite := rfl
  ne x y h hA he := by
    have hx := x_ne_zero hq hq3 (addOrderOf_eq hq hA (Point.some_ne_zero h))
    rw [pointInit, val_fp2Set0, eq_comm, map_eq_zero] at he
    exact hx he

end Origin

section Position

variable {q : Nat} (hq : q.Prime) (hq3 : 3 < q) [hp12 : Fact (p % 12 = 11)] {A : E p} (hA : q • A = 0)
  {Q : Point}
include hq hq3 hA

theorem scaled_iterate {s : Miller} (hs : Scaled s.Z s.z A) (k : Nat) :
    Scaled ((millerRound Q p)^[k] s).Z ((millerRound Q p)^[k] s).z (2 ^ k • A) := by
  induction k with
  | zero => simpa using hs
  | succ k ih =>
      have hkA : q • (2 ^ k • A) = 0 := by rw [smul_comm, hA, nsmul_zero]
      rw [Function.iterate_succ_apply', pow_succ', mul_smul, two_nsmul]
      exact ih.double (add_self_ne_zero hq hq3 hkA ih.point.ne_zero)

theorem millerStart_Z (h0 : A ≠ 0) (b : Nat) :
    (millerStart (ofPoint A) Q b p).Z = ofPoint (2 ^ b • A) := by
  have hit := scaled_iterate (Q := Q) hq hq3 hA (s := ⟨fp2Set1, fp2Set1, ofPoint A, 1⟩)
    (scaled_ofPoint h0) b
  rw [millerStart]
  split
  · rename_i hb
    subst hb
    simp
  · exact hit.normalize

/-- Wherever the lines are evaluated, the loop leads to the point or to its
negative. -/
theorem exists_millerFinish (h0 : A ≠ 0) {curve : Curve} (hcurve : SolinasCurve p q curve) :
    ∃ s, tateSolinasMiller (ofPoint A) Q curve = millerFinish (ofPoint A) Q curve s ∧
      s.Z = ofPoint (-(curve.solinasa.sign • A)) := by
  have hs := hcurve.form
  have hsum := sum_eq_neg hs hA
  have hba := hs.le
  have hpow (k : Nat) : q • (2 ^ k • A) = 0 := by rw [smul_comm, hA, nsmul_zero]
  have hb0 := two_pow_nsmul_ne_zero hq hq3 hA h0 curve.solinasb.natAbs
  have hstartZ := millerStart_Z (Q := Q) hq hq3 hA h0 curve.solinasb.natAbs
  have hstart : Scaled (millerStart (ofPoint A) Q curve.solinasb.natAbs p).Z
      (millerStart (ofPoint A) Q curve.solinasb.natAbs p).z (2 ^ curve.solinasb.natAbs • A) := by
    have hz : (millerStart (ofPoint A) Q curve.solinasb.natAbs p).z = 1 := by
      rw [millerStart]
      split
      · rename_i hb
        rw [hb]
        rfl
      · rfl
    rw [hstartZ, hz]
    exact scaled_ofPoint hb0
  have hloop := scaled_iterate (Q := Q) hq hq3 (hpow _) hstart
    (curve.solinasa.natAbs - curve.solinasb.natAbs)
  rw [← mul_smul, ← pow_add, Nat.sub_add_cancel hba] at hloop
  rw [tateSolinasMiller, hcurve.p_eq]
  dsimp only
  refine ⟨_, rfl, ?_⟩
  rw [hloop.normalize]
  by_cases hb : curve.solinasb = 0
  · rw [if_pos (by simpa using hb), ← hsum, hb, Int.sign_zero, zero_zsmul, add_zero]
  · have hbP := stands_signed curve.solinasb hb hb0
    rw [← hstartZ] at hbP
    have hR0 := neg_last_smul_ne_zero hs h0
    rw [if_neg (by simpa using hb), millerAdd]
    rw [← hsum] at hR0 ⊢
    exact pointAdd_stands hloop.point.ne_zero hbP hR0

/-- The last vertical vanishes where the first coordinate is that of the point
itself. -/
theorem val_tatePairing_eq_zero_of_x_eq (hqp : q ∣ p + 1) {curve : Curve}
    (hcurve : SolinasCurve p q curve) (hQ : Q.infinity = false) {x y : ZMod p}
    {h : (mordell (ZMod p)).Nonsingular x y} (hAx : A = .some x y h)
    (hx : val p Q.x = algebraMap (ZMod p) (K p) x) :
    val p (tatePairing (ofPoint A) Q curve) = 0 := by
  have h0 : A ≠ 0 := by
    rw [hAx]
    exact Point.some_ne_zero h
  obtain ⟨s, hs, hZ⟩ := exists_millerFinish (Q := Q) hq hq3 hA h0 hcurve
  have hZx : s.Z.infinity = false ∧ val p s.Z.x = algebraMap (ZMod p) (K p) x := by
    rw [hZ, hAx]
    rcases hcurve.form.last with ht | ht
    · rw [ht, one_smul, Point.neg_some]
      exact ⟨rfl, (represents_some _).val_x⟩
    · rw [ht, neg_smul, one_smul, neg_neg]
      exact ⟨rfl, (represents_some _).val_x⟩
  rw [tatePairing, val_tatePower hcurve, hs, millerFinish, hcurve.p_eq, val_fp2Div, tateGetVertical,
    if_neg (by simp [hQ, hZx.1]), val_fp2Mul, val_fp2Sub, hx, hZx.2, sub_self, mul_zero, zero_div]
  have hdiv := Nat.div_pos (Nat.le_of_dvd p.succ_pos hqp) hq.pos
  have hp1 := hp.out.one_lt
  exact zero_pow (Nat.mul_pos (by omega) hdiv).ne'

end Position

end IdBasedEncryption.MillerZeros
