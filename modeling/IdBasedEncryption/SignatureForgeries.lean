import IdBasedEncryption.DecodedPoints
import IdBasedEncryption.KeyEncapsulation
import IdBasedEncryption.MillerZeros
import IdBasedEncryption.ScalarMultiples

namespace IdBasedEncryption.SignatureForgeries

open WeierstrassCurve.Affine MordellCurve Gmp Fp2Arith Fp2Value FieldExtension MordellGroup CurvePoints
open TatePairing PointValues ModifiedPairing MillerLoops PairingValues ScalarMultiples ByteStrings
open PointBytes IbeLib PairingLaws ConjugatePairings OriginPairings KeyEncapsulation MillerZeros
open DecodedPoints

section Values

variable (md : ByteString → ByteString)

/-- The three values that `IBE_verify` compares. -/
def verifyValues (sig message pub : ByteString) (id : CString) (params : Params) :
    Option (Fp2 × Fp2 × Fp2) := do
  let Q := pointSetByteString pointInit sig
  let f1 := tatePairing params.P (pointPhi Q Q params) params.curve
  let P := pointSetByteString params.P pub
  let Q ← mapByteStringToPoint md message params
  let f2 := tatePairing P (pointPhi Q Q params) params.curve
  let H := cryptoVaHash md [pub, byteStringSet id]
  let Q ← mapByteStringToPoint md H params
  let f3 := tatePairing params.Ppub (pointPhi Q Q params) params.curve
  return (f1, f2, f3)

theorem ibeVerify_eq_map (sig message pub : ByteString) (id : CString) (params : Params) :
    ibeVerify md sig message pub id params = (verifyValues md sig message pub id params).map
      fun f => fp2Equal f.1 (fp2Mul f.2.1 f.2.2 params.p) := by
  rw [ibeVerify, verifyValues]
  cases mapByteStringToPoint md message params with
  | none => rfl
  | some Q =>
      simp only [Option.bind_eq_bind, Option.bind_some]
      cases mapByteStringToPoint md (cryptoVaHash md [pub, byteStringSet id]) params with
      | none => rfl
      | some Q => rfl

/-- Acceptance tells that both strings are points and that all three values are
other than zero. -/
def Sound (p : Nat) [Fact p.Prime] (sig message pub : ByteString) (id : CString) (params : Params) :
    Prop :=
  ibeVerify md sig message pub id params = some true →
    (∃ A : E p, Decodes pub A) ∧ (∃ S : E p, Decodes sig S) ∧
      ∃ f1 f2 f3, verifyValues md sig message pub id params = some (f1, f2, f3) ∧
        f1 ≠ fp2Set0 ∧ f2 ≠ fp2Set0 ∧ f3 ≠ fp2Set0

end Values

variable {p : Nat} [hp : Fact p.Prime]

section Elements

/-- The least residues of both components. -/
def ofElement (u : K p) : Fp2 := ⟨u.re.val, u.im.val⟩

theorem reduced_ofElement (u : K p) : Reduced p (ofElement u) where
  a_nonneg := Int.natCast_nonneg _
  a_lt := Int.ofNat_lt.2 (ZMod.val_lt _)
  b_nonneg := Int.natCast_nonneg _
  b_lt := Int.ofNat_lt.2 (ZMod.val_lt _)

theorem val_ofElement (u : K p) : val p (ofElement u) = u := by
  ext <;> simp [ofElement]

/-- The encoding of a pair of coordinates. -/
def pairBytes (u w : K p) : ByteString := byteStringSetPoint ⟨ofElement u, ofElement w, false⟩

/-- The number of bytes that `p` may have for both components of an element to
be encoded. -/
def maxHalfBytes : Nat := 32764

omit hp in
theorem encodable_of_le (hsize : p ≤ 256 ^ maxHalfBytes) {x : Fp2} (hx : Reduced p x) : Encodable x := by
  have hlen {z : Int} (hz : 0 ≤ z) (hzp : z < p) : mympzSizeinbytes z ≤ maxHalfBytes := by
    obtain ⟨n, rfl⟩ := Int.eq_ofNat_of_zero_le hz
    exact mympzSizeinbytes_le (by decide) ((Int.ofNat_lt.1 hzp).trans_le hsize)
  have ha := hlen hx.a_nonneg hx.a_lt
  have hb := hlen hx.b_nonneg hx.b_lt
  rw [maxHalfBytes] at ha hb
  exact ⟨hx.a_nonneg, hx.b_nonneg, by omega⟩

theorem pointSetByteString_pairBytes (hsize : p ≤ 256 ^ maxHalfBytes) (u w : K p) :
    pointSetByteString pointInit (pairBytes u w) = ⟨ofElement u, ofElement w, false⟩ := by
  rw [pairBytes, pointSetByteString_set (encodable_of_le hsize (reduced_ofElement u))
    (encodable_of_le hsize (reduced_ofElement w))]
  rfl

/-- A pair whose first coordinate lies outside the prime field is no point. -/
theorem not_decodes_pairBytes (hsize : p ≤ 256 ^ maxHalfBytes) {u w : K p} (hu : u.im ≠ 0) :
    ¬∃ S : E p, Decodes (pairBytes u w) S := by
  rintro ⟨S, x, y, h, rfl, hr⟩
  rw [pointSetByteString_pairBytes hsize] at hr
  exact hu (by simpa [ofElement] using hr.xb)

end Elements

variable [hp12 : Fact (p % 12 = 11)] {q : Nat} {params : Params} {G : E p}

section Targets

variable (hq : q.Prime) (hq3 : 3 < q) (hqp : q ∣ p + 1) (hs : Suits params p q) (hG : addOrderOf G = q)

/-- The second power of the root of unity lies outside the prime field. -/
theorem zeta_sq_im_ne_zero : (zeta p ^ 2).im ≠ 0 := by
  rw [← star_zeta]
  simpa using zeta_im_ne_zero (p := p)

omit hp12 in
theorem mul_algebraMap_im_ne_zero {u : K p} (hu : u.im ≠ 0) {c : ZMod p} (hc : c ≠ 0) :
    (u * algebraMap (ZMod p) (K p) c).im ≠ 0 := by
  have him : (u * algebraMap (ZMod p) (K p) c).im = u.im * c := by simp
  rw [him]
  exact mul_ne_zero hu hc

include hs

omit hp12 in
theorem val_pointPhi_ofElement (u w : K p) :
    val p (pointPhi ⟨ofElement u, ofElement w, false⟩ ⟨ofElement u, ofElement w, false⟩ params).x =
      u * zeta p ∧
    val p (pointPhi ⟨ofElement u, ofElement w, false⟩ ⟨ofElement u, ofElement w, false⟩ params).y = w := by
  rw [pointPhi, hs.p_eq, hs.zeta_eq]
  exact ⟨by rw [val_fp2Mul, val_ofElement, zeta], val_ofElement w⟩

include hq hq3 hqp hG

/-- A pair outside the prime field whose value is zero. -/
theorem exists_value_zero : ∃ u w : K p, u.im ≠ 0 ∧
    val p (tatePairing (ofPoint G) (pointPhi ⟨ofElement u, ofElement w, false⟩
      ⟨ofElement u, ofElement w, false⟩ params) params.curve) = 0 := by
  cases hGx : G with
  | zero => exact absurd hGx (ne_zero_of_order hq hG)
  | some x y h =>
      have hx := x_ne_zero hq hq3 (hGx ▸ hG)
      refine ⟨zeta p ^ 2 * algebraMap (ZMod p) (K p) x, 0,
        mul_algebraMap_im_ne_zero zeta_sq_im_ne_zero hx, ?_⟩
      rw [← hGx]
      refine val_tatePairing_eq_zero_of_x_eq hq hq3 (smul_eq_zero_of_order hG) hqp hs.curve rfl hGx ?_
      rw [(val_pointPhi_ofElement hs _ _).1, mul_right_comm, ← pow_succ, zeta_cube, one_mul]

omit hs in
/-- Every root of unity is the value of a point whose first coordinate is not
zero. -/
theorem exists_pairing_eq_of_pow {c : K p} (hc : c ^ q = 1) :
    ∃ x y, ∃ h : (mordell (ZMod p)).Nonsingular x y, x ≠ 0 ∧ pairing q G (.some x y h) = c := by
  have hqG := smul_eq_zero_of_order hG
  by_cases hone : c = 1
  · have h : (mordell (ZMod p)).Nonsingular (-1) 0 :=
      (MordellCurve.nonsingular_iff six_ne_zero).2 (by ring)
    refine ⟨-1, 0, h, neg_ne_zero.2 one_ne_zero, ?_⟩
    rw [hone]
    exact pairing_eq_one_of_two_smul hq hq3 hqp hqG (two_smul_of_y_eq_zero h)
  · obtain ⟨S, hS⟩ := exists_pairing_eq hq hq3 hqp hG hc
    cases S with
    | zero => exact absurd (hS.symm.trans (pairing_zero_right hq hqp hqG)) hone
    | some x y h =>
        refine ⟨x, y, h, ?_, hS⟩
        rintro rfl
        have h3 : c ^ 3 = 1 := by
          rw [← hS, ← pairing_nsmul_right hq hq3 hqp hqG, three_smul_of_x_eq_zero two_ne_zero' h]
          exact pairing_zero_right hq hqp hqG
        have hcop : Nat.Coprime 3 q := (Nat.coprime_primes Nat.prime_three hq).2 (by omega)
        have h1 := pow_gcd_eq_one.2 ⟨h3, hc⟩
        rw [hcop, pow_one] at h1
        exact hone h1

/-- A pair outside the prime field for every root of unity. -/
theorem exists_value_eq {c : K p} (hc : c ^ q = 1) : ∃ u w : K p, u.im ≠ 0 ∧
    val p (tatePairing (ofPoint G) (pointPhi ⟨ofElement u, ofElement w, false⟩
      ⟨ofElement u, ofElement w, false⟩ params) params.curve) = c := by
  obtain ⟨x, y, h, hx, rfl⟩ := exists_pairing_eq_of_pow hq hq3 hqp hG hc
  refine ⟨zeta p * algebraMap (ZMod p) (K p) x, -algebraMap (ZMod p) (K p) y,
    mul_algebraMap_im_ne_zero zeta_im_ne_zero hx, ?_⟩
  obtain ⟨hxv, hyv⟩ := val_pointPhi_ofElement hs (zeta p * algebraMap (ZMod p) (K p) x)
    (-algebraMap (ZMod p) (K p) y)
  refine val_tatePairing_twin hq hq3 hqp hs.curve (smul_eq_zero_of_order hG) (ne_zero_of_order hq hG) h
    rfl ?_ hyv
  rw [hxv, mul_right_comm, ← sq]

end Targets

section Verify

variable {md : ByteString → ByteString} {sig message pub : ByteString} {id : CString}

omit hp hp12 in
/-- The hash to a point always ends. -/
theorem exists_mapByteStringToPoint (hq : q.Prime) (hqp : q ∣ p + 1) (hs : Suits params p q)
    (md : ByteString → ByteString) (bs : ByteString) :
    ∃ d, mapByteStringToPoint md bs params = some d := by
  have hn : 0 < (p + 1) / q := Nat.div_pos (Nat.le_of_dvd p.succ_pos hqp) hq.pos
  rw [mapByteStringToPoint_eq, pointMakeOrderQ, hs.p1onq_eq]
  exact exists_pointMul hn _ _

omit hp hp12 in
/-- Only the first of the three values depends on the signature. -/
theorem exists_verifyValues (hq : q.Prime) (hqp : q ∣ p + 1) (hs : Suits params p q)
    (md : ByteString → ByteString) (message pub : ByteString) (id : CString) :
    ∃ A B C D : Point, ∀ sig, verifyValues md sig message pub id params =
      some (tatePairing params.P (pointPhi (pointSetByteString pointInit sig)
          (pointSetByteString pointInit sig) params) params.curve,
        tatePairing A B params.curve, tatePairing C D params.curve) := by
  obtain ⟨Q, hQ⟩ := exists_mapByteStringToPoint hq hqp hs md message
  obtain ⟨H, hH⟩ := exists_mapByteStringToPoint hq hqp hs md (cryptoVaHash md [pub, byteStringSet id])
  refine ⟨pointSetByteString params.P pub, pointPhi Q Q params, params.Ppub, pointPhi H H params, ?_⟩
  intro sig
  simp [verifyValues, hQ, hH]

omit hp12 in
theorem ibeVerify_eq_some_true_iff (hs : Suits params p q) {A₁ B₁ A₂ B₂ A₃ B₃ : Point}
    (h : verifyValues md sig message pub id params = some (tatePairing A₁ B₁ params.curve,
      tatePairing A₂ B₂ params.curve, tatePairing A₃ B₃ params.curve)) :
    ibeVerify md sig message pub id params = some true ↔
      val p (tatePairing A₁ B₁ params.curve) =
        val p (tatePairing A₂ B₂ params.curve) * val p (tatePairing A₃ B₃ params.curve) := by
  rw [ibeVerify_eq_map, h, Option.map_some, Option.some.injEq, fp2Equal_iff, ← val_fp2Mul, hs.p_eq]
  constructor
  · exact congrArg (val p)
  · exact eq_of_val_eq (reduced_tatePairing hs.curve _ _) (reduced_fp2Mul pos _ _)

variable (hq : q.Prime) (hq3 : 3 < q) (hqp : q ∣ p + 1) (hs : Suits params p q)
  (hP : params.P = ofPoint G) (hG : addOrderOf G = q)
include hq hq3 hqp hs hP hG

/-- The first value of a signature that is a point is not zero. -/
theorem sound_of_decodes (hsig : ∃ S : E p, Decodes sig S) (hpub : ∃ A : E p, Decodes pub A) :
    Sound md p sig message pub id params := by
  intro hacc
  obtain ⟨S, hS⟩ := hsig
  obtain ⟨A, B, C, D, hv⟩ := exists_verifyValues hq hqp hs md message pub id
  have hval := val_tatePairing_pointPhi hq hq3 hqp hs (smul_eq_zero_of_order hG)
    (denotes_ofPoint (ne_zero_of_order hq hG)) hS (D := pointSetByteString pointInit sig) rfl
  rw [← hP] at hval
  have hne := pairing_ne_zero hq hq3 hqp (smul_eq_zero_of_order hG) S
  have hmul := (ibeVerify_eq_some_true_iff hs (hv sig)).1 hacc
  rw [← hval] at hne
  rw [hmul] at hne
  have h0 {f : Fp2} (hf : val p f ≠ 0) : f ≠ fp2Set0 := by
    rintro rfl
    exact hf val_fp2Set0
  refine ⟨hpub, ⟨S, hS⟩, _, _, _, hv sig, h0 ?_, h0 (left_ne_zero_of_mul hne), h0 (right_ne_zero_of_mul hne)⟩
  rwa [hmul]

/-- There is a signature outside of the curve over the prime field for every
product of the other two values. -/
theorem exists_forgery (hsize : p ≤ 256 ^ maxHalfBytes) :
    ∃ sig, (¬∃ S : E p, Decodes sig S) ∧ ibeVerify md sig message pub id params = some true := by
  obtain ⟨A, B, C, D, hv⟩ := exists_verifyValues hq hqp hs md message pub id
  have htarget : ∃ u w : K p, u.im ≠ 0 ∧ val p (tatePairing (ofPoint G)
      (pointPhi ⟨ofElement u, ofElement w, false⟩ ⟨ofElement u, ofElement w, false⟩ params)
      params.curve) = val p (tatePairing A B params.curve) * val p (tatePairing C D params.curve) := by
    generalize hc : val p (tatePairing A B params.curve) * val p (tatePairing C D params.curve) = c
    by_cases h0 : c = 0
    · rw [h0]
      exact exists_value_zero hq hq3 hqp hs hG
    · rw [← hc] at h0
      apply exists_value_eq hq hq3 hqp hs hG
      rw [← hc, mul_pow, tatePairing, tatePairing,
        val_tatePower_pow hqp hs.curve (left_ne_zero_of_mul h0),
        val_tatePower_pow hqp hs.curve (right_ne_zero_of_mul h0), one_mul]
  obtain ⟨u, w, hu, hval⟩ := htarget
  refine ⟨pairBytes u w, not_decodes_pairBytes hsize hu, ?_⟩
  rw [ibeVerify_eq_some_true_iff hs (hv _), pointSetByteString_pairBytes hsize, hP, hval]

end Verify

section Main

/-- A signature of two points is sound. But for every message, identity and public key
there is a signature outside of the curve over the prime field. -/
theorem sound_and_exists_forgery (hq : q.Prime) (hq3 : 3 < q) (hqp : 12 * q ∣ p + 1)
    (hsol : (curveInit p q).solinasa ≠ 0) (hi : Initialized params) (hpp : params.p = p)
    (hpq : params.q = q) (hP : params.P = ofPoint G) (hG : addOrderOf G = q)
    (md : ByteString → ByteString) (message pub : ByteString) (id : CString) :
    (∀ sig, (∃ S : E p, Decodes sig S) → (∃ A : E p, Decodes pub A) →
      Sound md p sig message pub id params) ∧
    (p ≤ 256 ^ maxHalfBytes → ∃ sig, (¬∃ S : E p, Decodes sig S) ∧
      ibeVerify md sig message pub id params = some true) := by
  have hqp' := dvd_of_mul_left_dvd hqp
  have hs := suits_of_initialized hq hq3 hi hpp hpq hsol
  exact ⟨fun sig => sound_of_decodes hq hq3 hqp' hs hP hG, exists_forgery hq hq3 hqp' hs hP hG⟩

theorem sound_and_exists_forgery_gen :
    Sound id 1607 (byteStringSetPoint (ofPoint gen)) [1] (byteStringSetPoint (ofPoint gen)) genId
        genParams ∧
      ∃ sig, (¬∃ S : E 1607, Decodes sig S) ∧
        ibeVerify id sig [1] (byteStringSetPoint (ofPoint gen)) genId genParams = some true := by
  obtain ⟨hi, hpp, hpq⟩ := initialized_genParams
  have hgen := decodes_setPoint (le_pow_maxBytes (by norm_num))
    (ne_zero_of_order (by norm_num) addOrderOf_gen)
  obtain ⟨hsound, hforge⟩ := sound_and_exists_forgery (p := 1607) (q := 67) (by norm_num) (by norm_num)
    (by norm_num) (by decide) hi hpp hpq rfl addOrderOf_gen id [1] (byteStringSetPoint (ofPoint gen))
    genId
  refine ⟨hsound _ ⟨gen, hgen⟩ ⟨gen, hgen⟩, hforge ?_⟩
  exact le_trans (by norm_num) (Nat.pow_le_pow_right (by norm_num) (show 2 ≤ maxHalfBytes by decide))

/-- The empty public key makes the second value zero, and the first coordinate of the
signature makes the first value zero. -/
theorem not_sound_gen :
    setupPoints 2 (ofPoint gen) (paramsInit 1607 67 ibeVersion) = some genParams ∧
      ¬Sound id 1607 (byteStringSetPoint ⟨⟨792, 363⟩, ⟨0, 0⟩, false⟩) [1] [] genId genParams := by
  refine ⟨setupPoints_gen, fun h => ?_⟩
  obtain ⟨-, ⟨S, x, y, hxy, rfl, hr⟩, -⟩ := h (by decide +kernel)
  have hb := hr.xb
  rw [pointSetByteString_set ⟨by norm_num, by norm_num, by decide⟩ ⟨by norm_num, by norm_num, by decide⟩]
    at hb
  exact absurd hb (by decide)

end Main

end IdBasedEncryption.SignatureForgeries
