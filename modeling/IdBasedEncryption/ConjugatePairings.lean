import IdBasedEncryption.PairingValues

namespace IdBasedEncryption.ConjugatePairings

open MordellCurve Gmp Fp2Arith Fp2Value FieldExtension MordellGroup SolinasForm CurvePoints TatePairing
open PointValues MillerLines ModifiedPairing MillerLoops PairingValues

variable {p : Nat} [hp : Fact p.Prime]

section Real

def IsReal (p : Nat) [Fact p.Prime] (x : Fp2) : Prop := val p x ∈ (algebraMap (ZMod p) (K p)).range

variable {x y : Fp2}

theorem isReal_iff : IsReal p x ↔ (x.b : ZMod p) = 0 := by
  constructor
  · rintro ⟨c, hc⟩
    simpa using (congrArg QuadraticAlgebra.im hc).symm
  · intro h
    exact ⟨x.a, by ext <;> simp [h]⟩

theorem IsReal.mul (hx : IsReal p x) (hy : IsReal p y) : IsReal p (fp2Mul x y p) := by
  rw [IsReal, val_fp2Mul]
  exact mul_mem hx hy

theorem IsReal.sqr (hx : IsReal p x) : IsReal p (fp2Sqr x p) := by
  rw [IsReal, val_fp2Sqr]
  exact pow_mem hx 2

theorem IsReal.add (hx : IsReal p x) (hy : IsReal p y) : IsReal p (fp2Add x y p) := by
  rw [IsReal, val_fp2Add]
  exact add_mem hx hy

theorem IsReal.sub (hx : IsReal p x) (hy : IsReal p y) : IsReal p (fp2Sub x y p) := by
  rw [IsReal, val_fp2Sub]
  exact sub_mem hx hy

theorem IsReal.neg (hx : IsReal p x) : IsReal p (fp2Neg x p) := by
  rw [IsReal, val_fp2Neg]
  exact neg_mem hx

theorem IsReal.div [Fact (p % 4 = 3)] (hx : IsReal p x) (hy : IsReal p y) :
    IsReal p (fp2Div x y p) := by
  obtain ⟨a, ha⟩ := hx
  obtain ⟨b, hb⟩ := hy
  exact ⟨a / b, by rw [map_div₀, ha, hb, val_fp2Div]⟩

theorem IsReal.mulMpz (hx : IsReal p x) (n : Int) : IsReal p (fp2MulMpz x n p) := by
  rw [isReal_iff] at hx ⊢
  simp [fp2MulMpz, hx]

theorem isReal_zero : IsReal p fp2Set0 := isReal_iff.2 (by simp [fp2Set0])

theorem isReal_one : IsReal p fp2Set1 := isReal_iff.2 (by simp [fp2Set1])

structure RealPoint (p : Nat) [Fact p.Prime] (P : Point) : Prop where
  x : IsReal p P.x
  y : IsReal p P.y

theorem realPoint_ofPoint (A : E p) : RealPoint p (ofPoint A) := by
  cases A with
  | zero => exact ⟨isReal_zero, isReal_one⟩
  | some x y h => exact ⟨isReal_iff.2 Int.cast_zero, isReal_iff.2 Int.cast_zero⟩

variable {P Q : Point}

theorem RealPoint.neg (hP : RealPoint p P) : RealPoint p { P with y := fp2Neg P.y p } :=
  ⟨hP.x, hP.y.neg⟩

theorem RealPoint.double (hP : RealPoint p P) (z : Int) : RealPoint p (doublePoint P z p).1 :=
  ⟨isReal_iff.2 (isReal_iff (x := P.x).1 hP.x), isReal_iff.2 (isReal_iff (x := P.y).1 hP.y)⟩

theorem RealPoint.normalize (hP : RealPoint p P) (z : Int) : RealPoint p (normalize P z p) :=
  ⟨hP.x.mulMpz _, hP.y.mulMpz _⟩

theorem RealPoint.add [Fact (p % 4 = 3)] (hP : RealPoint p P) (hQ : RealPoint p Q) :
    RealPoint p (pointAdd P Q p) := by
  rw [pointAdd]
  split
  · exact hQ
  · split
    · exact hP
    · split
      · split
        · exact ⟨isReal_zero, isReal_one⟩
        · have hl := (((hP.x.add hP.x).add hP.x).mul hP.x).div (hP.y.add hP.y)
          have hx := hl.sqr.sub (hP.x.add hP.x)
          exact ⟨hx, ((hP.x.sub hx).mul hl).sub hP.y⟩
      · have hl := (hQ.y.sub hP.y).div (hQ.x.sub hP.x)
        have hx := (hl.sqr.sub hP.x).sub hQ.x
        exact ⟨hx, ((hP.x.sub hx).mul hl).sub hP.y⟩

end Real

section Conjugates

def Conj (p : Nat) (x x' : Fp2) : Prop := val p x' = star (val p x)

variable {x x' y y' : Fp2}

theorem IsReal.conj (hx : IsReal p x) : Conj p x x := by
  obtain ⟨c, hc⟩ := hx
  rw [Conj, ← hc, star_algebraMap]

theorem Conj.isReal [Fact (p % 2 = 1)] (h : Conj p x x) : IsReal p x := by
  have him := congrArg QuadraticAlgebra.im h
  simp at him
  have h2 : 2 * (x.b : ZMod p) = 0 := by linear_combination him
  exact isReal_iff.2 ((mul_eq_zero.1 h2).resolve_left two_ne_zero_of_odd)

omit hp in
theorem Conj.mul (hx : Conj p x x') (hy : Conj p y y') : Conj p (fp2Mul x y p) (fp2Mul x' y' p) := by
  rw [Conj, val_fp2Mul, val_fp2Mul, hx, hy, star_mul']

theorem Conj.sqr (hx : Conj p x x') : Conj p (fp2Sqr x p) (fp2Sqr x' p) := by
  rw [Conj, val_fp2Sqr, val_fp2Sqr, hx, star_pow]

theorem Conj.add (hx : Conj p x x') (hy : Conj p y y') : Conj p (fp2Add x y p) (fp2Add x' y' p) := by
  rw [Conj, val_fp2Add, val_fp2Add, hx, hy, star_add]

theorem Conj.sub (hx : Conj p x x') (hy : Conj p y y') : Conj p (fp2Sub x y p) (fp2Sub x' y' p) := by
  rw [Conj, val_fp2Sub, val_fp2Sub, hx, hy, star_sub]

theorem Conj.div [Fact (p % 4 = 3)] (hx : Conj p x x') (hy : Conj p y y') :
    Conj p (fp2Div x y p) (fp2Div x' y' p) := by
  rw [Conj, val_fp2Div, val_fp2Div, hx, hy, star_div₀]

/-- The coordinates of the second point are the conjugates of those of the first
one. -/
structure ConjPoint (p : Nat) (Q Q' : Point) : Prop where
  x : Conj p Q.x Q'.x
  y : Conj p Q.y Q'.y
  infinity : Q'.infinity = Q.infinity

section Lines

variable {v v' : Fp2} (hv : Conj p v v') {Q Q' : Point} (hQ : ConjPoint p Q Q') {A B : Point}
include hv hQ

theorem Conj.ptsGetVertical (P : Point) (z : Int) :
    Conj p (ptsGetVertical v Q P z p) (ptsGetVertical v' Q' P z p) := by
  rw [Conj, val_ptsGetVertical_eq, val_ptsGetVertical_eq, hv, hQ.x, star_mul', star_sub, star_mul',
    star_algebraMap, star_algebraMap]

theorem Conj.ptsGetTangent (P : Point) (z : Int) :
    Conj p (ptsGetTangent v Q P z p) (ptsGetTangent v' Q' P z p) := by
  rw [Conj, val_ptsGetTangent_eq, val_ptsGetTangent_eq, hv, hQ.x, hQ.y, star_mul', star_add, star_add,
    star_mul', star_mul', star_algebraMap, star_algebraMap, star_algebraMap]

theorem Conj.tateMulLine {a b c : Fp2} (ha : IsReal p a) (hb : IsReal p b) (hc : IsReal p c) :
    Conj p (tateMulLine v Q a b c p) (tateMulLine v' Q' a b c p) := by
  rw [TatePairing.tateMulLine, TatePairing.tateMulLine, hQ.infinity]
  split
  · exact hv
  · exact hv.mul (((ha.conj.mul hQ.x).add (hb.conj.mul hQ.y)).add hc.conj)

variable (hA : RealPoint p A) (hB : RealPoint p B)
include hA

theorem Conj.mul_vertical :
    Conj p (fp2Mul v (fp2Sub Q.x A.x p) p) (fp2Mul v' (fp2Sub Q'.x A.x p) p) :=
  hv.mul (hQ.x.sub hA.x.conj)

theorem Conj.tateGetVertical : Conj p (tateGetVertical v Q A p) (tateGetVertical v' Q' A p) := by
  rw [TatePairing.tateGetVertical, TatePairing.tateGetVertical, hQ.infinity]
  split
  · exact hv
  · exact hv.mul_vertical hQ hA

theorem Conj.tateGetTangent : Conj p (tateGetTangent v Q A p) (tateGetTangent v' Q' A p) := by
  have ha := (((hA.x.add hA.x).add hA.x).mul hA.x).neg
  have hb := hA.y.add hA.y
  rw [TatePairing.tateGetTangent, TatePairing.tateGetTangent]
  split
  · exact hv
  · split
    · exact hv.mul_vertical hQ hA
    · exact hv.tateMulLine hQ ha hb ((ha.mul hA.x).add (hb.mul hA.y)).neg

include hB

theorem Conj.tateGetLine : Conj p (tateGetLine v Q A B p) (tateGetLine v' Q' A B p) := by
  have ha := hA.y.sub hB.y
  have hb := hB.x.sub hA.x
  rw [TatePairing.tateGetLine, TatePairing.tateGetLine]
  split
  · exact hv.tateGetVertical hQ hB
  · split
    · exact hv.tateGetVertical hQ hA
    · split
      · split
        · exact hv.mul_vertical hQ hA
        · exact hv.tateGetTangent hQ hA
      · exact hv.tateMulLine hQ ha hb ((ha.mul hA.x).add (hb.mul hA.y)).neg

end Lines

/-- Two runs of the Miller loop at conjugate points: they are at the same place
with conjugate values. -/
structure ConjMiller (p : Nat) [Fact p.Prime] (s s' : Miller) : Prop where
  Z : s'.Z = s.Z
  z : s'.z = s.z
  real : RealPoint p s.Z
  v : Conj p s.v s'.v
  vdenom : Conj p s.vdenom s'.vdenom

section Loops

variable {s s' : Miller} {Q Q' P : Point} (hQ : ConjPoint p Q Q')

theorem ConjMiller.normalize (hs : ConjMiller p s s') :
    ConjMiller p { s with Z := TatePairing.normalize s.Z s.z p, z := 1 }
      { s' with Z := TatePairing.normalize s'.Z s'.z p, z := 1 } where
  Z := by simp only [hs.Z, hs.z]
  z := rfl
  real := hs.real.normalize _
  v := hs.v
  vdenom := hs.vdenom

include hQ

theorem ConjMiller.round (hs : ConjMiller p s s') :
    ConjMiller p (millerRound Q p s) (millerRound Q' p s') where
  Z := by simp only [millerRound, hs.Z, hs.z]
  z := by simp only [millerRound, hs.Z, hs.z]
  real := hs.real.double _
  v := by
    simp only [millerRound, hs.Z, hs.z]
    exact hs.v.sqr.ptsGetTangent hQ _ _
  vdenom := by
    simp only [millerRound, hs.Z, hs.z]
    exact hs.vdenom.sqr.ptsGetVertical hQ _ _

theorem ConjMiller.iterate (hs : ConjMiller p s s') (k : Nat) :
    ConjMiller p ((millerRound Q p)^[k] s) ((millerRound Q' p)^[k] s') := by
  induction k with
  | zero => exact hs
  | succ k ih =>
      rw [Function.iterate_succ_apply', Function.iterate_succ_apply']
      exact ih.round hQ

theorem conjMiller_start (hP : RealPoint p P) (b : Nat) :
    ConjMiller p (millerStart P Q b p) (millerStart P Q' b p) := by
  have hone : ConjMiller p ⟨fp2Set1, fp2Set1, P, 1⟩ ⟨fp2Set1, fp2Set1, P, 1⟩ :=
    ⟨rfl, rfl, hP, isReal_one.conj, isReal_one.conj⟩
  have h := hone.iterate hQ b
  rw [millerStart, millerStart]
  split
  · exact h
  · exact h.normalize

variable [hp4 : Fact (p % 4 = 3)]

theorem ConjMiller.add (hs : ConjMiller p s s') {bP : Point} {fb fb' : Fp2 × Fp2}
    (hb : RealPoint p bP) (hf₁ : Conj p fb.1 fb'.1) (hf₂ : Conj p fb.2 fb'.2) :
    ConjMiller p (millerAdd Q bP fb p s) (millerAdd Q' bP fb' p s') where
  Z := by simp only [millerAdd, hs.Z]
  z := rfl
  real := hs.real.add hb
  v := by
    simp only [millerAdd, hs.Z]
    exact (hs.v.mul hf₁).tateGetLine hQ hs.real hb
  vdenom := by
    simp only [millerAdd, hs.Z]
    exact (hs.vdenom.mul hf₂).tateGetVertical hQ (hs.real.add hb)

variable {q : Nat} {curve : Curve} (hcurve : SolinasCurve p q curve) (hP : RealPoint p P)
include hcurve hP

theorem ConjMiller.finish (hs : ConjMiller p s s') :
    Conj p (millerFinish P Q curve s) (millerFinish P Q' curve s') := by
  rw [millerFinish, millerFinish, hcurve.p_eq, hs.Z]
  refine (hs.v.tateGetVertical hQ hs.real).div ?_
  split
  · exact hs.vdenom.tateGetVertical hQ hP
  · exact hs.vdenom

theorem conj_tateSolinasMiller :
    Conj p (tateSolinasMiller P Q curve) (tateSolinasMiller P Q' curve) := by
  have hs := conjMiller_start hQ hP curve.solinasb.natAbs
  have hloop := hs.iterate hQ (curve.solinasa.natAbs - curve.solinasb.natAbs)
  rw [tateSolinasMiller, tateSolinasMiller, hcurve.p_eq]
  dsimp only
  refine ConjMiller.finish hQ hcurve hP ?_
  split
  · exact hloop.normalize
  · rw [hs.Z]
    by_cases hb : curve.solinasb < 0
    · simp only [if_pos hb]
      exact hloop.normalize.add hQ hs.real.neg hs.vdenom (hs.v.tateGetVertical hQ hs.real)
    · simp only [if_neg hb]
      exact hloop.normalize.add hQ hs.real hs.v hs.vdenom

theorem val_tatePairing_conj :
    val p (tatePairing P Q' curve) = star (val p (tatePairing P Q curve)) := by
  rw [tatePairing, tatePairing, val_tatePower hcurve, val_tatePower hcurve,
    conj_tateSolinasMiller hQ hcurve hP, star_pow]

end Loops

end Conjugates

section Twins

variable [hp12 : Fact (p % 12 = 11)] {q : Nat} (hq : q.Prime) (hq3 : 3 < q) (hqp : q ∣ p + 1)
  {A S : E p}
include hq hq3 hqp

theorem pairing_neg_pow_char (hA : q • A = 0) : pairing q A (-S) ^ p = pairing q A S := by
  have hmul : pairing q A S * pairing q A (-S) = 1 := by
    rw [← pairing_add_right hq hq3 hqp hA, add_neg_cancel, pairing_zero_right hq hqp hA]
  have hpow : pairing q A (-S) ^ (p + 1) = 1 := by
    obtain ⟨k, hk⟩ := hqp
    rw [hk, pow_mul, pairing_pow hq hq3 (by rw [hk]; exact dvd_mul_right q k) hA, one_pow]
  calc pairing q A (-S) ^ p = pairing q A S * pairing q A (-S) * pairing q A (-S) ^ p := by
        rw [hmul, one_mul]
    _ = pairing q A S * pairing q A (-S) ^ (p + 1) := by rw [mul_assoc, ← pow_succ']
    _ = pairing q A S := by rw [hpow, mul_one]

/-- The pairing takes its value at a point a second time, at the conjugate of
the image of the negative. -/
theorem val_tatePairing_twin {curve : Curve} (hcurve : SolinasCurve p q curve) (hA : q • A = 0)
    (h0 : A ≠ 0) {x y : ZMod p} (h : (mordell (ZMod p)).Nonsingular x y) {Q : Point}
    (hQ : Q.infinity = false) (hx : val p Q.x = zeta p ^ 2 * algebraMap (ZMod p) (K p) x)
    (hy : val p Q.y = -algebraMap (ZMod p) (K p) y) :
    val p (tatePairing (ofPoint A) Q curve) = pairing q A (.some x y h) := by
  have hphi : IsPhi ⟨⟨Q.x.a, -Q.x.b⟩, Q.y, Q.infinity⟩ x (-y) := by
    refine ⟨hQ, ?_, by rw [hy, map_neg]⟩
    have hstar : val p ⟨Q.x.a, -Q.x.b⟩ = star (val p Q.x) := by ext <;> simp
    rw [hstar, hx, star_mul', star_algebraMap, star_pow, star_zeta, ← pow_mul,
      show 2 * 2 = 3 + 1 by rfl, pow_succ, zeta_cube, one_mul]
  have hconj : ConjPoint p ⟨⟨Q.x.a, -Q.x.b⟩, Q.y, Q.infinity⟩ Q := by
    refine ⟨?_, ?_, rfl⟩
    · rw [Conj]
      ext <;> simp
    · rw [Conj, hy, star_neg, star_algebraMap]
  have hns : (mordell (ZMod p)).Nonsingular x (-y) := by
    rw [MordellCurve.nonsingular_iff six_ne_zero, neg_sq]
    exact MordellCurve.equation_iff.1 h.1
  have hneg : -WeierstrassCurve.Affine.Point.some x y h = .some x (-y) hns := by
    rw [WeierstrassCurve.Affine.Point.neg_some]
    simp
  rw [val_tatePairing_conj hconj hcurve (realPoint_ofPoint A),
    val_tatePairing hq hq3 hqp hcurve hA hphi hns h0, ← hneg, ← pow_char_eq_star,
    pairing_neg_pow_char hq hq3 hqp hA]

end Twins

end IdBasedEncryption.ConjugatePairings
