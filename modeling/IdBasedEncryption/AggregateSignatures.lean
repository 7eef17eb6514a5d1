import IdBasedEncryption.DecodedPoints
import IdBasedEncryption.KeyEncapsulation
import IdBasedEncryption.MillerZeros

namespace IdBasedEncryption.AggregateSignatures

open WeierstrassCurve.Affine MordellCurve Gmp Fp2Arith Fp2Value FieldExtension MordellGroup CurvePoints
open TatePairing PointValues MillerLines ModifiedPairing MillerLoops PairingValues Multiples ByteStrings
open PointBytes IbeLib PairingLaws ConjugatePairings OriginPairings KeyEncapsulation MillerZeros
open DecodedPoints

variable {p : Nat} [hp : Fact p.Prime]

section Plain

/-- A finite point with least residues of the prime field as coordinates. -/
structure Plain (p : Nat) (P : Point) : Prop where
  finite : P.infinity = false
  reduced : ReducedPoint p P
  xb : P.x.b = 0
  yb : P.y.b = 0

variable {P Q : Point}

theorem plain_pointInit : Plain p pointInit where
  finite := rfl
  reduced := ⟨⟨le_rfl, pos, le_rfl, pos⟩, ⟨le_rfl, pos, le_rfl, pos⟩⟩
  xb := rfl
  yb := rfl

theorem plain_ofPoint {A : E p} (hA : A ≠ 0) : Plain p (ofPoint A) := by
  cases A with
  | zero => exact absurd rfl hA
  | some x y h => exact ⟨rfl, reducedPoint_some h, rfl, rfl⟩

theorem eq_zero_of_isReal {x : Fp2} (h : IsReal p x) (hx : Reduced p x) : x.b = 0 := by
  have hdvd := (ZMod.intCast_zmod_eq_zero_iff_dvd x.b p).1 (isReal_iff.1 h)
  exact Int.eq_zero_of_dvd_of_nonneg_of_lt hx.b_nonneg hx.b_lt hdvd

/-- `point_add` does not recognise opposite points, so the sum is finite. -/
theorem Plain.add [Fact (p % 4 = 3)] (hP : Plain p P) (hQ : Plain p Q) : Plain p (pointAdd P Q p) := by
  have hr := reduced_pointAdd hP.reduced hQ.reduced
  have hreal : RealPoint p (pointAdd P Q p) :=
    RealPoint.add ⟨isReal_iff.2 (by simp [hP.xb]), isReal_iff.2 (by simp [hP.yb])⟩
      ⟨isReal_iff.2 (by simp [hQ.xb]), isReal_iff.2 (by simp [hQ.yb])⟩
  refine ⟨?_, hr, eq_zero_of_isReal hreal.x hr.x, eq_zero_of_isReal hreal.y hr.y⟩
  by_cases hx : P.x = Q.x
  · refine (pointAdd_tangent (p := p) hP.finite hQ.finite hx fun hy => ?_).finite
    have hb := congrArg Fp2.b hy
    simp only [fp2Neg, hP.yb, hQ.yb] at hb
    have hpp := pos (p := p)
    omega
  · exact (pointAdd_chord (p := p) hP.finite hQ.finite hx).finite

omit hp in
theorem Plain.readBack (hsize : p ≤ 256 ^ maxBytes) (hP : Plain p P) {D : Point}
    (hD : D.infinity = false) : pointSetByteString D (byteStringSetPoint P) = P := by
  have hsize' : (p : Int) ≤ 256 ^ maxBytes := by exact_mod_cast hsize
  rw [pointSetByteString_set (encodable_of_reduced hsize' hP.reduced.x hP.xb)
    (encodable_of_reduced hsize' hP.reduced.y hP.yb), hD, ← hP.finite]

end Plain

section Coded

variable [hp12 : Fact (p % 12 = 11)] {q : Nat} (hq : q.Prime) (hq64 : 64 < q) {n : Nat} {A B : E p}

/-- What `point_mul` makes of a point of order `q`. -/
def codedMultiple (n q : Nat) (A : E p) : Point :=
  if meetsDoubling n q then pointInit else ofPoint (n • A)

omit hp12 in
theorem plain_codedMultiple (hA : n • A ≠ 0) : Plain p (codedMultiple n q A) := by
  rw [codedMultiple]
  split
  · exact plain_pointInit
  · exact plain_ofPoint hA

include hq hq64

theorem pointMul_coded (hA : addOrderOf A = q) (hn : 0 < n) (hnq : n < q) :
    pointMul n (ofPoint A) p = some (codedMultiple n q A) := by
  have hP := affRepresents_ofPoint (ne_zero_of_order hq hA)
  rw [codedMultiple]
  split
  · rename_i h
    exact pointMul_eq_pointInit hq hq64 hA hP hn hnq h rfl
  · rename_i h
    exact pointMul_eq hq hq64 hA hP hn hnq (by simpa using h) rfl

variable (hqp : q ∣ p + 1) {params : Params} (hs : Suits params p q)
include hqp hs

/-- The pairing of a point that `point_mul` has lost is zero. -/
theorem val_tatePairing_coded (hA : addOrderOf A = q) (hn : 0 < n) (hnq : n < q) (hB : B ≠ 0) :
    val p (tatePairing (codedMultiple n q A) (pointPhi (ofPoint B) (ofPoint B) params) params.curve) =
      if meetsDoubling n q then 0 else pairing q A B ^ n := by
  have hfinite : (ofPoint B).infinity = false := (plain_ofPoint hB).finite
  rw [codedMultiple]
  split
  · exact val_tatePairing_origin (by omega) hs.curve hqp _
  · have horder := addOrderOf_nsmul_of_lt hq hA hn hnq
    rw [val_tatePairing_pointPhi hq (by omega) hqp hs (smul_eq_zero_of_order horder)
      (denotes_ofPoint (ne_zero_of_order hq horder)) (denotes_ofPoint hB) hfinite,
      pairing_nsmul_left hq (by omega) hqp (smul_eq_zero_of_order hA)]

end Coded

section Equation

variable [hp12 : Fact (p % 12 = 11)] {q m x : Nat} {params : Params} {G H M : E p}
  {md : ByteString → ByteString} {message priv pub : ByteString} {id : CString}

/-- The signer with the private key `x` signs under a certificate that the master
key `m` leads to, and the signature is accepted. -/
def Accepted (md : ByteString → ByteString) (m x : Nat) (message : ByteString) (id : CString)
    (params : Params) : Prop :=
  ∃ priv pub cert sig, ibeKeygen x params = some (priv, pub) ∧
    ibeCertify md (byteStringSetMpz m) pub id params = some cert ∧
    ibeSign md message priv cert params = some sig ∧
    ibeVerify md sig message pub id params = some true

/-- The parameters for a master key, whether its multiples are lost or not. -/
structure Keyed (params : Params) (q m : Nat) (G : E p) : Prop where
  suits : Suits params p q
  P_eq : params.P = ofPoint G
  Ppub_eq : params.Ppub = codedMultiple m q G

variable (hq : q.Prime) (hq64 : 64 < q) (hqp : q ∣ p + 1) (hG : addOrderOf G = q)
  (hm : 0 < m) (hmq : m < q) (hx : 0 < x) (hxq : x < q)
include hq hq64 hG

theorem keyed (hsol : (curveInit p q).solinasa ≠ 0) (hm : 0 < m) (hmq : m < q) {name : CString}
    (hset : setupPoints m (ofPoint G) (paramsInit p q name) = some params) : Keyed params q m G := by
  obtain ⟨hi, hpp, hpq⟩ := initialized_setupPoints (initialized_initpq _) hset
  have hs := suits_of_initialized hq (by omega) hi hpp hpq hsol
  have hcurve : (paramsInit p q name).curve = curveInit p q := rfl
  rw [setupPoints, hcurve, show (curveInit p q).p = p by rfl, pointMul_coded hq hq64 hG hm hmq] at hset
  simp only [Option.bind_eq_bind, Option.bind_some, Option.pure_def, Option.some.injEq] at hset
  subst hset
  exact ⟨hs, rfl, rfl⟩

include hx hxq

theorem ibeKeygen_coded (hk : Keyed params q m G) :
    ibeKeygen x params =
      some (byteStringSetMpz x, byteStringSetPoint (codedMultiple x q G)) := by
  simp [ibeKeygen, blsKeygen, hk.P_eq, hk.suits.curve.p_eq, pointMul_coded hq hq64 hG hx hxq]

include hqp hm hmq

theorem accepted_iff_pairings (hsize : p ≤ 256 ^ maxBytes) (hk : Keyed params q m G)
    (hH : MapsTo md params
      (cryptoVaHash md [byteStringSetPoint (codedMultiple x q G), byteStringSet id]) q H)
    (hM : MapsTo md params message q M) {C : Point}
    (hC : C = pointAdd (codedMultiple m q H) (codedMultiple x q M) p) :
    Accepted md m x message id params ↔
      val p (tatePairing (ofPoint G) (pointPhi C C params) params.curve) =
        (if meetsDoubling x q then 0 else pairing q G M ^ x) *
          if meetsDoubling m q then 0 else pairing q G H ^ m := by
  have hs := hk.suits
  have hne {n : Nat} {A : E p} (hA : addOrderOf A = q) (hn : 0 < n) (hnq : n < q) : n • A ≠ 0 :=
    ne_zero_of_order hq (addOrderOf_nsmul_of_lt hq hA hn hnq)
  have hmH := plain_codedMultiple (q := q) (hne hH.1 hm hmq)
  have hxG := plain_codedMultiple (q := q) (hne hG hx hxq)
  have hxM := plain_codedMultiple (q := q) (hne hM.1 hx hxq)
  have hCp : Plain p C := hC ▸ hmH.add hxM
  have hPinf : params.P.infinity = false := hk.P_eq ▸ (plain_ofPoint (ne_zero_of_order hq hG)).finite
  have hcert : ibeCertify md (byteStringSetMpz m) (byteStringSetPoint (codedMultiple x q G)) id
      params = some (byteStringSetPoint (codedMultiple m q H)) := by
    simp [ibeCertify, ibeExtractByteString, hH.2, inpRaw_setMpz, hs.curve.p_eq,
      pointMul_coded hq hq64 hH.1 hm hmq]
  have hsign : ibeSign md message (byteStringSetMpz x) (byteStringSetPoint (codedMultiple m q H))
      params = some (byteStringSetPoint C) := by
    simp [ibeSign, hM.2, inpRaw_setMpz, hs.curve.p_eq, pointMul_coded hq hq64 hM.1 hx hxq,
      hmH.readBack hsize, hC, pointInit]
  have hverify : ibeVerify md (byteStringSetPoint C) message
      (byteStringSetPoint (codedMultiple x q G)) id params = some true ↔
      tatePairing (ofPoint G) (pointPhi C C params) params.curve = fp2Mul
        (tatePairing (codedMultiple x q G) (pointPhi (ofPoint M) (ofPoint M) params) params.curve)
        (tatePairing (codedMultiple m q G) (pointPhi (ofPoint H) (ofPoint H) params) params.curve) p := by
    rw [ibeVerify, hCp.readBack hsize rfl, hxG.readBack hsize hPinf]
    simp only [hM.2, hH.2, Option.bind_eq_bind, Option.bind_some, Option.pure_def, Option.some.injEq,
      fp2Equal_iff, hk.P_eq, hk.Ppub_eq, hs.p_eq]
  rw [← val_tatePairing_coded hq hq64 hqp hs hG hx hxq (ne_zero_of_order hq hM.1),
    ← val_tatePairing_coded hq hq64 hqp hs hG hm hmq (ne_zero_of_order hq hH.1), ← val_fp2Mul]
  have hacc : Accepted md m x message id params ↔ ibeVerify md (byteStringSetPoint C) message
      (byteStringSetPoint (codedMultiple x q G)) id params = some true := by
    have hkey := ibeKeygen_coded hq hq64 hG hx hxq hk
    constructor
    · rintro ⟨priv, pub, cert, sig, hk', hc', hs', hv⟩
      rw [hkey, Option.some.injEq, Prod.mk.injEq] at hk'
      obtain ⟨rfl, rfl⟩ := hk'
      obtain rfl := Option.some.inj (hcert.symm.trans hc')
      obtain rfl := Option.some.inj (hsign.symm.trans hs')
      exact hv
    · intro hv
      exact ⟨_, _, _, _, hkey, hcert, hsign, hv⟩
  rw [hacc, hverify]
  constructor
  · intro h
    rw [h]
  · exact eq_of_val_eq (reduced_tatePairing hs.curve _ _) (reduced_fp2Mul pos _ _)

end Equation

section Sums

variable {A B : E p}

theorem ofPoint_y_ne_neg (hA : A ≠ 0) (hB : B ≠ 0) : (ofPoint A).y ≠ fp2Neg (ofPoint B).y p := by
  intro h
  have hb := congrArg Fp2.b h
  simp only [fp2Neg, (plain_ofPoint hA).yb, (plain_ofPoint hB).yb] at hb
  have hpp := pos (p := p)
  omega

variable [hp4 : Fact (p % 4 = 3)]

/-- The sum of opposite points is taken to be a double. -/
theorem pointAdd_opposite (hA : A ≠ 0) (h2 : A + A ≠ 0) :
    pointAdd (ofPoint A) (ofPoint (-A)) p = ofPoint (A + A) := by
  have hneg : -A ≠ 0 := neg_ne_zero.2 hA
  have hP := plain_ofPoint hA
  have hQ := plain_ofPoint hneg
  have hx : (ofPoint A).x = (ofPoint (-A)).x := by
    cases A with
    | zero => exact absurd rfl hA
    | some x y h => rw [Point.neg_some]; rfl
  have hopp := pointAdd_tangent (p := p) hP.finite hQ.finite hx (ofPoint_y_ne_neg hA hneg)
  have hself := pointAdd_tangent (p := p) hP.finite hP.finite rfl (ofPoint_y_ne_neg hA hA)
  rw [← pointAdd_ofPoint hA hA h2]
  have hr := (hP.add hQ).reduced
  have hr' := (hP.add hP).reduced
  apply Point.ext
  · exact eq_of_val_eq hr.x hr'.x (hopp.x.trans hself.x.symm)
  · exact eq_of_val_eq hr.y hr'.y (hopp.y.trans hself.y.symm)
  · exact hopp.finite.trans hself.finite.symm

theorem represents_add_origin {x y : ZMod p} (h : (mordell (ZMod p)).Nonsingular x y) (hx : x ≠ 0) :
    (∃ y', Represents (pointAdd (ofPoint (.some x y h)) pointInit p) (1 / x ^ 2) y') ∧
      ∃ y', Represents (pointAdd pointInit (ofPoint (.some x y h)) p) (1 / x ^ 2) y' := by
  have hA := represents_some h
  have hxy := MordellCurve.equation_iff.1 h.1
  have hne : (ofPoint (.some x y h)).x ≠ pointInit.x := by
    intro he
    have hval := hA.val_x
    rw [he, pointInit, val_fp2Set0, eq_comm, map_eq_zero] at hval
    exact hx hval
  have hslope : (y / x) ^ 2 - x = 1 / x ^ 2 := by
    field_simp
    linear_combination hxy
  have h0 : val p pointInit.x = algebraMap (ZMod p) (K p) 0 ∧
      val p pointInit.y = algebraMap (ZMod p) (K p) 0 := by simp [pointInit]
  constructor
  · have hl := pointAdd_chord (p := p) hA.finite (show pointInit.infinity = false by rfl) hne
    rw [hA.val_x, hA.val_y, h0.1, h0.2, ← map_sub, ← map_sub, ← map_div₀, zero_sub, zero_sub,
      neg_div_neg_eq] at hl
    have hR := hl.represents
    rw [sub_zero, hslope] at hR
    exact ⟨_, hR⟩
  · have hl := pointAdd_chord (p := p) (show pointInit.infinity = false by rfl) hA.finite hne.symm
    rw [hA.val_x, hA.val_y, h0.1, h0.2, ← map_sub, ← map_sub, ← map_div₀, sub_zero, sub_zero] at hl
    have hR := hl.represents
    rw [sub_zero, hslope] at hR
    exact ⟨_, hR⟩

theorem pointAdd_origin_origin : pointAdd pointInit pointInit p = pointInit := by
  have hr := (Plain.add (p := p) plain_pointInit plain_pointInit).reduced
  have hy : pointInit.y ≠ fp2Neg pointInit.y p := by
    intro h
    have hb := congrArg Fp2.b h
    simp only [fp2Neg, pointInit, fp2Set0] at hb
    have hpp := pos (p := p)
    omega
  have hl := pointAdd_tangent (p := p) (P := pointInit) (Q := pointInit) rfl rfl rfl hy
  have h0 : val p pointInit.x = 0 ∧ val p pointInit.y = 0 := by simp [pointInit]
  have hinit := (plain_pointInit (p := p)).reduced
  apply Point.ext
  · apply eq_of_val_eq hr.x hinit.x
    rw [hl.x, h0.1, h0.2]
    simp
  · apply eq_of_val_eq hr.y hinit.y
    rw [hl.y, h0.1, h0.2]
    simp
  · exact hl.finite

end Sums

section Cases

theorem pointPhi_origin (params : Params) : pointPhi pointInit pointInit params = pointInit := by
  simp [pointPhi, pointInit, fp2Mul, fp2Set0]

variable [hp12 : Fact (p % 12 = 11)] {q m x : Nat} {params : Params} {G A B : E p} (hq : q.Prime)
  (hq3 : 3 < q) (hqp : q ∣ p + 1) (hs : Suits params p q) (hG : addOrderOf G = q)
include hq hq3 hqp hs hG

/-- When one of the two multiples is lost, the sum still has a value that is not
zero. -/
theorem val_tatePairing_add_origin (hB : addOrderOf B = q) {C : Point}
    (hC : C = pointAdd (ofPoint B) pointInit p ∨ C = pointAdd pointInit (ofPoint B) p) :
    val p (tatePairing (ofPoint G) (pointPhi C C params) params.curve) ≠ 0 := by
  cases B with
  | zero => exact absurd rfl (ne_zero_of_order hq hB)
  | some x y h =>
      have hx := x_ne_zero hq hq3 hB
      have hne : 1 / x ^ 2 ≠ 0 := one_div_ne_zero (pow_ne_zero 2 hx)
      obtain ⟨y', hr⟩ : ∃ y', Represents C (1 / x ^ 2) y' := by
        rcases hC with rfl | rfl
        · exact (represents_add_origin h hx).1
        · exact (represents_add_origin h hx).2
      exact val_tatePairing_ne_zero hq hq3 (isPhi_of_represents hs hr.finite hr) hne hqp hs.curve
        (smul_eq_zero_of_order hG) (ne_zero_of_order hq hG)

theorem val_tatePairing_origin_eq_zero_iff :
    val p (tatePairing (ofPoint G) (pointPhi pointInit pointInit params) params.curve) = 0 ↔
      LineMeets params.curve G pointInit := by
  rw [pointPhi_origin, val_tatePairing_eq_zero_iff hq hq3 (offVerticals_origin hq hq3) hqp hs.curve
    (smul_eq_zero_of_order hG) (ne_zero_of_order hq hG)]

theorem val_tatePairing_add_iff (hA : addOrderOf A = q) (hB : addOrderOf B = q) {C : Point}
    (hC : C = pointAdd (ofPoint A) (ofPoint B) p) :
    val p (tatePairing (ofPoint G) (pointPhi C C params) params.curve) = pairing q G B * pairing q G A ↔
      A + B ≠ 0 ∨ q ^ 2 ∣ p + 1 := by
  have hqG := smul_eq_zero_of_order hG
  have hG0 := denotes_ofPoint (ne_zero_of_order hq hG)
  have hA0 := ne_zero_of_order hq hA
  have hval {C : E p} (hC : C ≠ 0) :
      val p (tatePairing (ofPoint G) (pointPhi (ofPoint C) (ofPoint C) params) params.curve) =
        pairing q G C :=
    val_tatePairing_pointPhi hq hq3 hqp hs hqG hG0 (denotes_ofPoint hC) (plain_ofPoint hC).finite
  rw [← pairing_add_right hq hq3 hqp hqG, add_comm B A]
  by_cases hAB : A + B = 0
  · have h2 : A + A ≠ 0 := add_self_ne_zero hq hq3 (smul_eq_zero_of_order hA) hA0
    rw [eq_neg_of_add_eq_zero_right hAB, pointAdd_opposite hA0 h2] at hC
    have horder : addOrderOf (A + A) = q :=
      addOrderOf_eq hq (by rw [nsmul_add, smul_eq_zero_of_order hA, add_zero]) h2
    rw [hC, hval h2, hAB, pairing_zero_right hq hqp hqG,
      pairing_eq_one_iff hq hq3 hqp hs.curve.form hG horder]
    simp
  · rw [hC, pointAdd_ofPoint hA0 (ne_zero_of_order hq hB) hAB, hval hAB]
    simp [hAB]

end Cases

section Main

variable [hp12 : Fact (p % 12 = 11)] {q m x : Nat} {params : Params} {G H M : E p}
  {md : ByteString → ByteString} {message priv pub : ByteString} {id : CString}

/-- Either no multiple is lost, and the certificate and the signature are not
opposite. Or all multiples are lost, and a line of the Miller loop passes through
the origin. -/
def SumsUp (q m x : Nat) (curve : Curve) (G H M : E p) : Prop :=
  meetsDoubling m q = false ∧ meetsDoubling x q = false ∧ (m • H + x • M ≠ 0 ∨ q ^ 2 ∣ p + 1) ∨
    meetsDoubling m q = true ∧ meetsDoubling x q = true ∧ LineMeets curve G pointInit

theorem accepted_iff_sumsUp (hq : q.Prime) (hq64 : 64 < q) (hqp : q ∣ p + 1) (hG : addOrderOf G = q)
    (hm : 0 < m) (hmq : m < q) (hx : 0 < x) (hxq : x < q) (hsize : p ≤ 256 ^ maxBytes)
    (hk : Keyed params q m G) (hH : MapsTo md params
      (cryptoVaHash md [byteStringSetPoint (codedMultiple x q G), byteStringSet id]) q H)
    (hM : MapsTo md params message q M) :
    Accepted md m x message id params ↔ SumsUp q m x params.curve G H M := by
  have hqG := smul_eq_zero_of_order hG
  have hmH := addOrderOf_nsmul_of_lt hq hH.1 hm hmq
  have hxM := addOrderOf_nsmul_of_lt hq hM.1 hx hxq
  rw [accepted_iff_pairings hq hq64 hqp hG hm hmq hx hxq hsize hk hH hM rfl, SumsUp, codedMultiple,
    codedMultiple]
  by_cases hmd : meetsDoubling m q = true <;> by_cases hxd : meetsDoubling x q = true
  · simp only [hmd, hxd, if_true, mul_zero, pointAdd_origin_origin]
    rw [val_tatePairing_origin_eq_zero_iff hq (by omega) hqp hk.suits hG]
    simp
  · have hne := val_tatePairing_add_origin hq (by omega) hqp hk.suits hG hxM (Or.inr rfl)
    simp [hmd, hxd, hne]
  · have hne := val_tatePairing_add_origin hq (by omega) hqp hk.suits hG hmH (Or.inl rfl)
    simp [hmd, hxd, hne]
  · have hadd := val_tatePairing_add_iff hq (by omega) hqp hk.suits hG hmH hxM rfl
    rw [pairing_nsmul_right hq (by omega) hqp hqG, pairing_nsmul_right hq (by omega) hqp hqG] at hadd
    rw [Bool.not_eq_true] at hmd hxd
    simp only [hmd, hxd, Bool.false_eq_true, if_false, hadd]
    simp

/-- When a signature under a certificate is accepted. -/
theorem accepted_iff (hq : q.Prime) (hq64 : 64 < q) (hqp : 12 * q ∣ p + 1)
    (hsol : (curveInit p q).solinasa ≠ 0) (hm : 0 < m) (hmq : m < q) (hx : 0 < x) (hxq : x < q)
    (hG : addOrderOf G = q) {name : CString}
    (hset : setupPoints m (ofPoint G) (paramsInit p q name) = some params)
    (hkey : ibeKeygen x params = some (priv, pub))
    (hH : MapsTo md params (cryptoVaHash md [pub, byteStringSet id]) q H)
    (hM : MapsTo md params message q M) :
    p ≤ 256 ^ maxBytes → (Accepted md m x message id params ↔ SumsUp q m x params.curve G H M) := by
  intro hsize
  have hk := keyed hq hq64 hG hsol hm hmq hset
  rw [ibeKeygen_coded hq hq64 hG hx hxq hk, Option.some.injEq, Prod.mk.injEq] at hkey
  obtain ⟨-, rfl⟩ := hkey
  exact accepted_iff_sumsUp hq hq64 (dvd_of_mul_left_dvd hqp) hG hm hmq hx hxq hsize hk hH hM

theorem mapsTo_gen (bs : ByteString) : MapsTo (fun _ => [5, 1]) genParams bs 67 gen :=
  ⟨addOrderOf_gen, mapsTo_genId.2⟩

theorem keyed_gen : Keyed genParams 67 2 gen :=
  keyed (by norm_num) (by norm_num) addOrderOf_gen (by decide) (by norm_num) (by norm_num)
    setupPoints_gen

/-- The private key 2 with a certificate for the same point. -/
theorem accepted_gen : Accepted (fun _ => [5, 1]) 2 2 [] genId genParams := by
  refine (accepted_iff (by norm_num) (by norm_num) (by norm_num) (by decide) (by norm_num) (by norm_num)
    (by norm_num) (by norm_num) addOrderOf_gen setupPoints_gen
    (ibeKeygen_coded (by norm_num) (by norm_num) addOrderOf_gen (by norm_num) (by norm_num) keyed_gen)
    (mapsTo_gen _) (mapsTo_gen _) (le_pow_maxBytes (by norm_num))).2 (Or.inl ⟨by decide, by decide, ?_⟩)
  left
  rw [← add_nsmul]
  exact ne_zero_of_order (by norm_num) (addOrderOf_smul (by norm_num) addOrderOf_gen (by norm_num))

/-- With the private key 65 the signature is the opposite of the certificate. -/
theorem not_accepted_gen :
    (∀ bs, MapsTo (fun _ => [5, 1]) genParams bs 67 gen) ∧
      ¬Accepted (fun _ => [5, 1]) 2 65 [] genId genParams := by
  refine ⟨mapsTo_gen, fun h => ?_⟩
  rw [accepted_iff_sumsUp (by norm_num) (by norm_num) (by norm_num) addOrderOf_gen (by norm_num)
    (by norm_num) (by norm_num) (by norm_num) (le_pow_maxBytes (by norm_num)) keyed_gen (mapsTo_gen _)
    (mapsTo_gen _)] at h
  rcases h with ⟨-, -, h | h⟩ | ⟨h, -⟩
  · rw [← add_nsmul] at h
    exact h (smul_eq_zero_of_order addOrderOf_gen)
  · norm_num at h
  · exact absurd h (by decide)

end Main

end IdBasedEncryption.AggregateSignatures
