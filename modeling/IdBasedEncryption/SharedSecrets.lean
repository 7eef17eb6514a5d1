import IdBasedEncryption.PairingLaws

namespace IdBasedEncryption.SharedSecrets

open MordellCurve Fp2Arith MordellGroup CurvePoints TatePairing PointValues MillerCaches PairingValues
open ByteStrings PointBytes IbeLib PairingLaws

variable {p : Nat} [hp : Fact p.Prime] [hp12 : Fact (p % 12 = 11)] {q : Nat} (hq : q.Prime)
  (hq3 : 3 < q) (hqp : q ∣ p + 1)
include hq hq3 hqp

section Cache

variable {params : Params} (hs : Suits params p q) {A B : E p} (hA : q • A = 0) (hA0 : A ≠ 0)
  (hB0 : B ≠ 0)
include hs hA hA0 hB0

theorem tatePostprocess_pointPhi {mc : MillerCache} (hmc : IsCache mc A params.curve) :
    tatePostprocess mc (pointPhi (ofPoint B) (ofPoint B) params) params.curve =
      modifiedPairing (ofPoint A) (ofPoint B) params := by
  cases B with
  | zero => exact absurd rfl hB0
  | some x y h =>
      exact tatePostprocess_eq_tatePairing hq hq3 hqp hs.curve hA
        (isPhi_pointPhi hs.p_eq hs.zeta_eq h) h hA0 hmc

theorem tatePostprocess_tatePreprocess (mc : MillerCache) :
    tatePostprocess (tatePreprocess mc (ofPoint A) params.curve)
        (pointPhi (ofPoint B) (ofPoint B) params) params.curve =
      modifiedPairing (ofPoint A) (ofPoint B) params :=
  tatePostprocess_pointPhi hq hq3 hqp hs hA hA0 hB0 (isCache_tatePreprocess hq hq3 hA hs.curve hA0 mc)

end Cache

/-- Both ways to a shared secret lead to the same pairing, whatever the cache
held before. -/
theorem postprocess_preprocess_eq (params : Params) (hi : Initialized params) (hp : params.p = p)
    (hpq : params.q = q) (hsol : (curveInit p q).solinasa ≠ 0) {A B : E p} (hA : addOrderOf A = q)
    (hB : addOrderOf B = q) (mc : MillerCache) :
    let Q := pointPhi (ofPoint B) (ofPoint B) params
    tatePostprocess (tatePreprocess mc (ofPoint A) params.curve) Q params.curve =
      tatePairing (ofPoint A) Q params.curve ∧
    ∀ (md : ByteString → ByteString) (id : CString) (key : ByteString),
      pointSetByteString pointInit key = ofPoint A → mapToPoint md id params = some (ofPoint B) →
      ∃ s, ibeGetSharedSecretPostprocess md id (ibeGetSharedSecretPreprocess mc key params) params =
          some s ∧
        ibeGetSharedSecret md id key params = some s := by
  have hs := suits_of_initialized hq hq3 hi hp hpq hsol
  have hpair := tatePostprocess_tatePreprocess hq hq3 hqp hs (smul_eq_zero_of_order hA)
    (ne_zero_of_order hq hA) (ne_zero_of_order hq hB) mc
  refine ⟨hpair, fun md id key hkey hid => ?_⟩
  refine ⟨hashH md (modifiedPairing (ofPoint A) (ofPoint B) params), ?_, ?_⟩
  · simp [ibeGetSharedSecretPostprocess, ibeGetSharedSecretPreprocess, hkey, hid, hpair]
  · simp [ibeGetSharedSecret, hkey, hid, modifiedPairing]

omit hp hp12 hq hq3 hqp in
theorem postprocess_preprocess_eq_fifth :
    let params := paramsInit 59 5 ibeVersion
    let md : ByteString → ByteString := fun _ => [37]
    let key := byteStringSetPoint (ofPoint fifth)
    let pk := ibeGetSharedSecretPreprocess millerCacheInit key params
    ∃ s, ibeGetSharedSecretPostprocess md ibeVersion pk params = some s ∧
      ibeGetSharedSecret md ibeVersion key params = some s := by
  have h := addOrderOf_fifth
  exact (postprocess_preprocess_eq (p := 59) (q := 5) (by norm_num) (by norm_num) (by norm_num)
    (paramsInit 59 5 ibeVersion) (initialized_initpq _) rfl rfl (by decide) h h
    millerCacheInit).2 _ _ _ (by decide +kernel) (by decide +kernel)

end IdBasedEncryption.SharedSecrets
