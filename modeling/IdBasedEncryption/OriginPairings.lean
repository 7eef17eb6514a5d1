import IdBasedEncryption.ConjugatePairings
import IdBasedEncryption.PairingLaws

namespace IdBasedEncryption.OriginPairings

open MordellCurve Gmp Fp2Arith Fp2Value FieldExtension MordellGroup SolinasForm CurvePoints TatePairing
open PointValues MillerLines ModifiedPairing MillerLoops PairingValues ConjugatePairings IbeLib
open PairingLaws

variable {p : Nat} [hp : Fact p.Prime]

section Zero

variable {v : Fp2} (hv : val p v = 0)
include hv

theorem val_mul_eq_zero (x : Fp2) : val p (fp2Mul v x p) = 0 := by
  rw [val_fp2Mul, hv, zero_mul]

theorem val_tateGetVertical_eq_zero (A P : Point) : val p (tateGetVertical v A P p) = 0 := by
  rw [tateGetVertical]
  split
  · exact hv
  · exact val_mul_eq_zero hv _

theorem val_tateMulLine_eq_zero (A : Point) (a b c : Fp2) : val p (tateMulLine v A a b c p) = 0 := by
  rw [tateMulLine]
  split
  · exact hv
  · exact val_mul_eq_zero hv _

theorem val_tateGetTangent_eq_zero (A P : Point) : val p (tateGetTangent v A P p) = 0 := by
  rw [tateGetTangent]
  split
  · exact hv
  · split
    · exact val_mul_eq_zero hv _
    · exact val_tateMulLine_eq_zero hv ..

theorem val_tateGetLine_eq_zero (A P Q : Point) : val p (tateGetLine v A P Q p) = 0 := by
  rw [tateGetLine]
  split
  · exact val_tateGetVertical_eq_zero hv ..
  · split
    · exact val_tateGetVertical_eq_zero hv ..
    · split
      · split
        · exact val_mul_eq_zero hv _
        · exact val_tateGetTangent_eq_zero hv ..
      · exact val_tateMulLine_eq_zero hv ..

end Zero

section Left

/-- Once the value is zero, it stays zero. -/
theorem val_millerRound_eq_zero {s : Miller} (hs : val p s.v = 0) (Qhat : Point) :
    val p (millerRound Qhat p s).v = 0 := by
  rw [millerRound, ptsGetTangent]
  refine val_mul_eq_zero ?_ _
  rw [val_fp2Sqr, hs, zero_pow two_ne_zero]

theorem val_millerRound_iterate_eq_zero {s : Miller} (hs : val p s.v = 0) (Qhat : Point) (k : Nat) :
    val p ((millerRound Qhat p)^[k] s).v = 0 :=
  Function.Iterate.rec (fun s : Miller => val p s.v = 0) hs (fun _ h => val_millerRound_eq_zero h Qhat) k

/-- The tangent at the origin has all coefficients zero. -/
theorem val_millerRound_origin (s : Miller) (hx : s.Z.x.a = 0) (hy : s.Z.y.a = 0) (Qhat : Point) :
    val p (millerRound Qhat p s).v = 0 := by
  rw [millerRound, ptsGetTangent, val_fp2Mul]
  refine mul_eq_zero_of_right _ ?_
  ext <;> simp [hx, hy, fp2Add, fp2MulMpz]

theorem val_millerRound_iterate_origin {s : Miller} (hx : s.Z.x.a = 0) (hy : s.Z.y.a = 0)
    (Qhat : Point) {k : Nat} (hk : 0 < k) : val p ((millerRound Qhat p)^[k] s).v = 0 := by
  obtain ⟨k, rfl⟩ : ∃ j, k = j + 1 := ⟨k - 1, by omega⟩
  exact val_millerRound_iterate_eq_zero (val_millerRound_origin s hx hy Qhat) Qhat k

/-- Whatever the lengths of the two loops, one of them makes a round. -/
theorem val_millerLoops_origin (Qhat : Point) {a b : Nat} (hba : b < a) :
    val p ((millerRound Qhat p)^[a - b] (millerStart pointInit Qhat b p)).v = 0 := by
  by_cases hb : b = 0
  · rw [hb]
    exact val_millerRound_iterate_origin rfl rfl Qhat (by omega)
  · refine val_millerRound_iterate_eq_zero ?_ Qhat _
    rw [millerStart, if_neg hb]
    exact val_millerRound_iterate_origin rfl rfl Qhat (Nat.pos_of_ne_zero hb)

theorem val_millerAdd_eq_zero {s : Miller} (hs : val p s.v = 0) (Qhat bP : Point)
    (fb : Fp2 × Fp2) : val p (millerAdd Qhat bP fb p s).v = 0 :=
  val_tateGetLine_eq_zero (val_mul_eq_zero hs _) ..

variable [hp4 : Fact (p % 4 = 3)] {q : Nat} (hq3 : 3 < q) {curve : Curve}
  (hcurve : SolinasCurve p q curve)
include hcurve

theorem val_millerFinish_eq_zero {s : Miller} (hs : val p s.v = 0) (P Qhat : Point) :
    val p (millerFinish P Qhat curve s) = 0 := by
  rw [millerFinish, hcurve.p_eq, val_fp2Div, val_tateGetVertical_eq_zero hs, zero_div]

theorem val_tatePower_eq_zero (hqp : q ∣ p + 1) {v : Fp2} (hv : val p v = 0) :
    val p (tatePower v curve) = 0 := by
  have hdiv := Nat.div_pos (Nat.le_of_dvd p.succ_pos hqp) (Nat.pos_of_dvd_of_pos hqp p.succ_pos)
  have hp1 := hp.out.one_lt
  rw [val_tatePower hcurve, hv, finalPower, zero_pow (Nat.mul_pos (by omega) hdiv).ne']

include hq3

omit hp hp4 in
theorem natAbs_solinasb_lt : curve.solinasb.natAbs < curve.solinasa.natAbs := by
  have h := hcurve.form
  rcases h.middle with ⟨hb, hs⟩ | ⟨-, hba, -⟩
  · rw [hb]
    refine Nat.pos_of_ne_zero fun ha => ?_
    have heq := h.eq
    rw [ha, hs] at heq
    rcases h.last with ht | ht <;> rw [ht] at heq <;> omega
  · omega

theorem val_tatePairing_origin (hqp : q ∣ p + 1) (Q : Point) :
    val p (tatePairing pointInit Q curve) = 0 := by
  have hloops := val_millerLoops_origin (p := p) Q (natAbs_solinasb_lt hq3 hcurve)
  refine val_tatePower_eq_zero hcurve hqp ?_
  rw [tateSolinasMiller, hcurve.p_eq]
  dsimp only
  apply val_millerFinish_eq_zero hcurve
  split
  · exact hloops
  · refine val_millerAdd_eq_zero ?_ ..
    exact hloops

end Left

section Right

variable [hp4 : Fact (p % 4 = 3)] {q : Nat} {curve : Curve} (hcurve : SolinasCurve p q curve)
include hcurve

omit hp4 hcurve in
theorem conjPoint_origin : ConjPoint p pointInit pointInit :=
  ⟨isReal_zero.conj, isReal_zero.conj, rfl⟩

/-- The origin is its own conjugate, and so are the values there. -/
theorem isReal_tateSolinasMiller {P : Point} (hP : RealPoint p P) :
    IsReal p (tateSolinasMiller P pointInit curve) := by
  have : Fact (p % 2 = 1) := ⟨by have := hp4.out; omega⟩
  exact (conj_tateSolinasMiller conjPoint_origin hcurve hP).isReal

/-- The pairing of a point over the prime field with the origin is zero or one,
as the final powering takes all nonzero elements of that field to one. -/
theorem val_tatePairing_origin_right {P : Point} (hP : RealPoint p P) :
    val p (tatePairing P pointInit curve) = 0 ∨ val p (tatePairing P pointInit curve) = 1 := by
  obtain ⟨c, hc⟩ := isReal_tateSolinasMiller hcurve hP
  rw [tatePairing, val_tatePower hcurve, ← hc, finalPower, pow_mul]
  by_cases h0 : c = 0
  · rw [h0, map_zero, ← pow_mul]
    by_cases he : (p - 1) * ((p + 1) / q) = 0
    · right
      rw [he, pow_zero]
    · left
      exact zero_pow he
  · right
    rw [algebraMap_pow_sub_one h0, one_pow]

end Right

section Cache

/-- The first `k` entries of a cache are all zero. -/
def NullRounds (mc : MillerCache) (k : Nat) : Prop :=
  ∀ i < k, mc.numa i = 0 ∧ mc.numc i = 0 ∧ mc.denomc i = 0

/-- All that is read from a cache is zero modulo `p`. -/
structure NullCache (p : Nat) (mc : MillerCache) (curve : Curve) : Prop where
  rounds : NullRounds mc curve.solinasa.natAbs
  line : curve.solinasb ≠ 0 → (mc.numl1a : ZMod p) = 0 ∧ (mc.numl1c : ZMod p) = 0 ∧
    (mc.denoml1c : ZMod p) = 0
  middle : curve.solinasb < 0 → (mc.denomsb : ZMod p) = 0
  last : (mc.numl2c : ZMod p) = 0
  closing : curve.solinasa < 0 → (mc.denoms1 : ZMod p) = 0

section Preprocess

theorem normalize_pointInit (z p : Int) : normalize pointInit z p = pointInit := by
  simp [TatePairing.normalize, pointInit, fp2MulMpz, fp2Set0, zpMul]

theorem preprocessRound_null {s : Preprocess} {k : Nat} (hZ : s.Z = pointInit)
    (hs : NullRounds s.mc k) (p : Int) :
    (preprocessRound p s k).Z = pointInit ∧ NullRounds (preprocessRound p s k).mc (k + 1) := by
  have hd : (doublePoint s.Z s.z p).1 = pointInit := by
    simp [doublePoint, projDouble, hZ, pointInit, fp2Set0]
  refine ⟨hd, fun i hi => ?_⟩
  rcases Nat.lt_succ_iff_lt_or_eq.1 hi with hik | rfl
  · have hold := hs i hik
    simpa [preprocessRound, ptsPreprocessVertical, ptsPreprocessTangent, hik.ne] using hold
  · simp [preprocessRound, ptsPreprocessVertical, ptsPreprocessTangent, hZ, doublePoint, projDouble,
      pointInit, fp2Set0]

theorem foldl_preprocess_null {s : Preprocess} {k : Nat} (hZ : s.Z = pointInit)
    (hs : NullRounds s.mc k) (p : Int) (n : Nat) :
    let s' := (List.range' k n).foldl (preprocessRound p) s
    s'.Z = pointInit ∧ NullRounds s'.mc (k + n) ∧ s'.mc.denomsb = s.mc.denomsb := by
  induction n generalizing k s with
  | zero => exact ⟨hZ, hs, rfl⟩
  | succ n ih =>
      obtain ⟨hZ', hs'⟩ := preprocessRound_null hZ hs p
      rw [List.range'_succ, List.foldl_cons, show k + (n + 1) = k + 1 + n by omega]
      exact ih hZ' hs'

theorem preprocessStart_null (mc : MillerCache) (b : Nat) (p : Int) :
    (preprocessStart mc pointInit b p).Z = pointInit ∧
      NullRounds (preprocessStart mc pointInit b p).mc b := by
  obtain ⟨hZ, hr, -⟩ := foldl_preprocess_null (s := ⟨mc, pointInit, 1⟩) rfl
    (fun i hi => absurd hi (Nat.not_lt_zero i)) p b
  rw [zero_add, ← List.range_eq_range'] at hr
  rw [← List.range_eq_range'] at hZ
  rw [preprocessStart]
  split
  · exact ⟨hZ, hr⟩
  · refine ⟨?_, hr⟩
    simp only [hZ, normalize_pointInit]

/-- The middle term of the origin, whose negative has `p` in place of zero. -/
theorem pointAdd_origin {p : Int} (hp : 0 < p) {bP : Point}
    (hb : bP = pointInit ∨ bP = { pointInit with y := fp2Neg pointInit.y p }) :
    (pointAdd pointInit bP p).x.a = 0 := by
  rcases hb with rfl | rfl
  · have hne : ¬fp2Equal pointInit.y (fp2Neg pointInit.y p) = true := by
      simp [pointInit, fp2Set0, fp2Neg, fp2Equal, hp.ne]
    rw [pointAdd, if_neg (by simp [pointInit]), if_neg (by simp [pointInit]), if_pos (by simp),
      if_neg hne]
    simp [pointInit, fp2Set0, fp2Sub, fp2Sqr, fp2Div, fp2Mul, fp2Add, zpAdd, zpSub, hp.not_ge]
  · rw [pointAdd, if_neg (by simp [pointInit]), if_neg (by simp [pointInit]), if_pos (by simp),
      if_pos (by simp [pointInit, fp2Set0, fp2Neg, fp2Equal])]
    rfl

variable {curve : Curve}

theorem nullCache_finish {s : Preprocess} (hp : curve.p = p) (hx : s.Z.x.a = 0)
    (hr : NullRounds s.mc curve.solinasa.natAbs)
    (hl : curve.solinasb ≠ 0 → (s.mc.numl1a : ZMod p) = 0 ∧ (s.mc.numl1c : ZMod p) = 0 ∧
      (s.mc.denoml1c : ZMod p) = 0)
    (hm : curve.solinasb < 0 → (s.mc.denomsb : ZMod p) = 0) :
    NullCache p (preprocessFinish curve s) curve := by
  rw [preprocessFinish, hp, hx]
  split
  · exact ⟨hr, hl, hm, by simp, fun _ => by simp⟩
  · exact ⟨hr, hl, hm, by simp, fun h => by contradiction⟩

theorem nullCache_tatePreprocess {q : Nat} (hq3 : 3 < q) (hcurve : SolinasCurve p q curve)
    (mc : MillerCache) : NullCache p (tatePreprocess mc pointInit curve) curve := by
  have hba := natAbs_solinasb_lt hq3 hcurve
  obtain ⟨hZ, hr⟩ := preprocessStart_null mc curve.solinasb.natAbs p
  rw [tatePreprocess, hcurve.p_eq]
  dsimp only
  generalize preprocessStart mc pointInit curve.solinasb.natAbs p = s at hZ hr ⊢
  obtain ⟨mc', Z, z⟩ := s
  obtain rfl : Z = pointInit := hZ
  simp only at hr ⊢
  set mc₁ := if curve.solinasb < 0 then { mc' with denomsb := -pointInit.x.a } else mc' with hmc₁
  have hs₁ : (if curve.solinasb < 0 then ⟨{ mc' with denomsb := -pointInit.x.a }, pointInit, z⟩
      else ⟨mc', pointInit, z⟩ : Preprocess) = ⟨mc₁, pointInit, z⟩ := by
    rw [hmc₁]
    split <;> rfl
  have hr₁ : NullRounds mc₁ curve.solinasb.natAbs := by
    rw [hmc₁]
    split <;> exact hr
  have hm₁ (h : curve.solinasb < 0) : (mc₁.denomsb : ZMod p) = 0 := by
    rw [hmc₁, if_pos h]
    simp [pointInit, fp2Set0]
  obtain ⟨hZ₂, hr₂, hsb⟩ := foldl_preprocess_null (s := ⟨mc₁, pointInit, z⟩) rfl hr₁ p
    (curve.solinasa.natAbs - curve.solinasb.natAbs)
  rw [Nat.add_sub_cancel' hba.le] at hr₂
  rw [hs₁]
  generalize (List.range' curve.solinasb.natAbs (curve.solinasa.natAbs - curve.solinasb.natAbs)).foldl
    (preprocessRound p) ⟨mc₁, pointInit, z⟩ = s at hZ₂ hr₂ hsb ⊢
  rw [hZ₂, normalize_pointInit]
  by_cases hb : curve.solinasb = 0
  · rw [if_pos (by simpa using hb)]
    exact nullCache_finish hcurve.p_eq rfl hr₂ (fun h => absurd hb h) fun h => absurd h (by omega)
  · rw [if_neg (by simpa using hb)]
    generalize hbP : (if curve.solinasb < 0 then { pointInit with y := fp2Neg pointInit.y p }
      else pointInit) = bP
    have hor : bP = pointInit ∨ bP = { pointInit with y := fp2Neg pointInit.y p } := by
      rw [← hbP]
      split
      · exact Or.inr rfl
      · exact Or.inl rfl
    have hx := pointAdd_origin pos hor
    have hbx : bP.x.a = 0 := by rcases hor with h | h <;> rw [h] <;> rfl
    refine nullCache_finish hcurve.p_eq hx hr₂ (fun _ => ?_) fun h => ?_
    · have hl : ((ptsPreprocessLine pointInit bP p).1 : ZMod p) = 0 ∧
          ((ptsPreprocessLine pointInit bP p).2 : ZMod p) = 0 := by
        simp [ptsPreprocessLine, pointInit, fp2Set0, hbx]
      exact ⟨hl.1, hl.2, by simp [preprocessAdd, hx]⟩
    · rw [preprocessAdd]
      exact hsb ▸ hm₁ h

end Preprocess

section Postprocess

variable {mc : MillerCache} {Q : Point} {f : Fp2 × Fp2}

/-- The lines of a null cache are the two coordinates. -/
theorem val_cachedLine_null (hy : val p Q.y ≠ 0) {a c : Int} (ha : (a : ZMod p) = 0)
    (hc : (c : ZMod p) = 0) : val p (cachedLine Q a c p) ≠ 0 := by
  have hval : val p (cachedLine Q a c p) = val p Q.y := by
    ext <;> simp [cachedLine, fp2Add, fp2MulMpz, ha, hc]
  rwa [hval]

theorem val_cachedVertical_null (hx : val p Q.x ≠ 0) {c : Int} (hc : (c : ZMod p) = 0) :
    val p (cachedVertical Q c) ≠ 0 := by
  have hval : val p (cachedVertical Q c) = val p Q.x := by
    ext <;> simp [cachedVertical, hc]
  rwa [hval]

def NonzeroPair (p : Nat) (f : Fp2 × Fp2) : Prop := val p f.1 ≠ 0 ∧ val p f.2 ≠ 0

variable [hp4 : Fact (p % 4 = 3)] (hx : val p Q.x ≠ 0) (hy : val p Q.y ≠ 0)
include hx hy

theorem foldl_postprocess_null {k n : Nat} (hr : NullRounds mc (k + n)) (hf : NonzeroPair p f) :
    NonzeroPair p ((List.range' k n).foldl (postprocessRound mc Q p) f) := by
  induction n generalizing k f with
  | zero => exact hf
  | succ n ih =>
      rw [List.range'_succ, List.foldl_cons]
      obtain ⟨ha, hc, hd⟩ := hr k (by omega)
      rw [show k + (n + 1) = k + 1 + n by omega] at hr
      refine ih hr ?_
      rw [NonzeroPair, postprocessRound, val_fp2Mul, val_fp2Mul, val_fp2Sqr, val_fp2Sqr]
      exact ⟨mul_ne_zero (pow_ne_zero 2 hf.1) (val_cachedLine_null hy (by simp [ha]) (by simp [hc])),
        mul_ne_zero (pow_ne_zero 2 hf.2) (val_cachedVertical_null hx (by simp [hd]))⟩

variable {q : Nat} (hq3 : 3 < q) {curve : Curve} (hcurve : SolinasCurve p q curve)
  (hmc : NullCache p mc curve)
include hcurve hmc

omit hy in
theorem val_postprocessFinish_null (hf : NonzeroPair p f) :
    val p (postprocessFinish mc Q curve f) ≠ 0 := by
  rw [postprocessFinish, hcurve.p_eq, val_fp2Div, val_fp2Mul]
  refine div_ne_zero (mul_ne_zero hf.1 (val_cachedVertical_null hx hmc.last)) ?_
  split
  · rename_i ha
    rw [val_fp2Mul]
    exact mul_ne_zero hf.2 (val_cachedVertical_null hx (hmc.closing ha))
  · exact hf.2

include hq3

/-- A null cache never leads to zero. -/
theorem val_tatePostprocess_null : val p (tatePostprocess mc Q curve) ≠ 0 := by
  have hba := natAbs_solinasb_lt hq3 hcurve
  have hone : NonzeroPair p (fp2Set1, fp2Set1) := by simp [NonzeroPair]
  have hb := foldl_postprocess_null hx hy (k := 0) (n := curve.solinasb.natAbs)
    (fun i hi => hmc.rounds i (by omega)) hone
  have hr := hmc.rounds
  rw [← Nat.add_sub_cancel' hba.le] at hr
  have ha := foldl_postprocess_null hx hy hr hb
  rw [← List.range_eq_range'] at hb ha
  rw [tatePostprocess, val_tatePower hcurve]
  refine pow_ne_zero _ ?_
  rw [millerPostprocess, hcurve.p_eq]
  apply val_postprocessFinish_null hx hcurve hmc
  split
  · exact ha
  · rename_i hb0
    obtain ⟨hla, hlc, hs⟩ := hmc.line (by simpa using hb0)
    have hline := val_cachedLine_null hy hla hlc
    have hvert := val_cachedVertical_null hx hs
    rw [NonzeroPair, postprocessAdd]
    simp only [val_fp2Mul]
    by_cases hneg : curve.solinasb < 0
    · simp only [if_pos hneg, val_fp2Mul]
      have hm := val_cachedVertical_null hx (hmc.middle hneg)
      exact ⟨mul_ne_zero (mul_ne_zero ha.1 hb.2) hline,
        mul_ne_zero (mul_ne_zero ha.2 (mul_ne_zero hb.1 hm)) hvert⟩
    · simp only [if_neg hneg]
      exact ⟨mul_ne_zero (mul_ne_zero ha.1 hb.1) hline, mul_ne_zero (mul_ne_zero ha.2 hb.2) hvert⟩

end Postprocess

end Cache

end IdBasedEncryption.OriginPairings
