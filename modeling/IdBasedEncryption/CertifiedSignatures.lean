import IdBasedEncryption.AggregateSignatures
import IdBasedEncryption.ThresholdKeys

namespace IdBasedEncryption.CertifiedSignatures

open MordellGroup CurvePoints PointValues Multiples ByteStrings PointBytes IbeLib KeyEncapsulation
open AggregateSignatures ThresholdKeys PairingLaws

variable {p : Nat} [hp : Fact p.Prime] {q : Nat} [hq : Fact q.Prime] [hp12 : Fact (p % 12 = 11)]
  {m x t n : Nat} {r places : Nat → Int} {pos : List Nat} {params : Params} {G H M : E p}
  {md : ByteString → ByteString} {message : ByteString} {id : CString}

/-- The certificate comes from shares of the servers at the positions `pos`, and the
signature under it is accepted. -/
def AcceptedFromShares (md : ByteString → ByteString) (m x t n : Nat) (r places : Nat → Int)
    (pos : List Nat) (message : ByteString) (id : CString) (params : Params) : Prop :=
  ∃ priv pub, ibeKeygen x params = some (priv, pub) ∧ ∀ old, ∃ cert sig,
    combinedKey (ibeCertifyShare md · pub id ·) (byteStringSetMpz m) t n params r places pos old =
      some (1, cert) ∧
    ibeSign md message priv cert params = some sig ∧
    ibeVerify md sig message pub id params = some true

/-- Shares of a certificate do not make a difference for the signatures under it. -/
theorem acceptedFromShares_iff_accepted {priv pub : ByteString} (hkey : ibeKeygen x params = some (priv, pub))
    {cert : ByteString} (hcert : ibeCertify md (byteStringSetMpz m) pub id params = some cert)
    (hshares : ∀ old, combinedKey (ibeCertifyShare md · pub id ·) (byteStringSetMpz m) t n params r
      places pos old = some (1, cert)) :
    AcceptedFromShares md m x t n r places pos message id params ↔
      Accepted md m x message id params := by
  constructor
  · rintro ⟨priv', pub', hkey', hall⟩
    obtain ⟨rfl, rfl⟩ := Prod.mk.inj (Option.some.inj (hkey.symm.trans hkey'))
    obtain ⟨cert', sig, hcert', hsign, hverify⟩ := hall []
    obtain rfl := (Prod.mk.inj (Option.some.inj ((hshares []).symm.trans hcert'))).2
    exact ⟨priv, pub, cert, sig, hkey, hcert, hsign, hverify⟩
  · rintro ⟨priv', pub', cert', sig, hkey', hcert', hsign, hverify⟩
    obtain ⟨rfl, rfl⟩ := Prod.mk.inj (Option.some.inj (hkey.symm.trans hkey'))
    obtain rfl := Option.some.inj (hcert.symm.trans hcert')
    exact ⟨priv, pub, hkey, fun old => ⟨cert, sig, hshares old, hsign, hverify⟩⟩

/-- A signature under a certificate that any servers make up is accepted exactly when
it does not cancel with the certificate. -/
theorem acceptedFromShares_iff {name : CString} (hf : Founded q m name G params)
    (hc : Enough p q m t n r places pos) (hx : 0 < x) (hxq : x < q)
    (hH : MapsTo md params (cryptoVaHash md
      [byteStringSetPoint (codedMultiple x q G), byteStringSet id]) q H)
    (hM : MapsTo md params message q M) :
    AcceptedFromShares md m x t n r places pos message id params ↔
      meetsDoubling x q = false ∧ (m • H + x • M ≠ 0 ∨ q ^ 2 ∣ p + 1) := by
  have hqp := dvd_of_mul_left_dvd hf.dvd
  have hk := keyed hf.prime hf.lt hf.order hf.solinas hf.pos hf.x_lt hf.setup_eq
  have hsize : p ≤ 256 ^ maxBytes :=
    hc.size.trans (Nat.pow_le_pow_right (by norm_num) (by decide))
  have hkey := ibeKeygen_coded hf.prime hf.lt hf.order hx hxq hk
  have hcombined := combinedKey_of_mapsTo hf.lt hqp hk.suits.q_eq hk.suits.curve.p_eq hc.sharet_pos hf.pos
    hf.x_lt hc.places_mem hc.injOn hc.pos_lt hc.length_eq hc.toThresholdCondition hH
  rw [acceptedFromShares_iff_accepted hkey (hcombined []).1 fun old => (hcombined old).2,
    accepted_iff_sumsUp hf.prime hf.lt hqp hf.order hf.pos hf.x_lt hx hxq hsize hk hH hM, SumsUp]
  simp [hc.master]

/-- The private key 2 with a certificate of the third server and the first. -/
theorem acceptedFromShares_gen : AcceptedFromShares (fun _ => [5, 1]) 2 2 2 3 (fun _ => 1)
    (fun i => i + 1) [2, 0] [] genId genParams := by
  refine Iff.mpr (acceptedFromShares_iff founded_gen enough_gen (by norm_num) (by norm_num) (mapsTo_gen _)
    (mapsTo_gen _)) ⟨by decide, Or.inl ?_⟩
  rw [← add_nsmul]
  exact ne_zero_of_order (by norm_num) (addOrderOf_smul (by norm_num) addOrderOf_gen (by norm_num))

end IdBasedEncryption.CertifiedSignatures
