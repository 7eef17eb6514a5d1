import IdBasedEncryption.DecodedPoints
import IdBasedEncryption.KeyEncapsulation

namespace IdBasedEncryption.UniqueSignatures

open WeierstrassCurve.Affine MordellCurve Fp2Arith Fp2Value FieldExtension MordellGroup CurvePoints
open TatePairing PointValues ModifiedPairing MillerLoops PairingValues ByteStrings PointBytes IbeLib
open Multiples PairingLaws KeyEncapsulation DecodedPoints

variable {p : Nat} [hp : Fact p.Prime] [hp12 : Fact (p % 12 = 11)] {q x : Nat} {params : Params}
  {md : ByteString → ByteString} {message pub sig : ByteString} {G H C : E p}

section Equation

variable (hq : q.Prime) (hq3 : 3 < q) (hqp : q ∣ p + 1) (hs : Suits params p q)
include hq hq3 hqp hs

theorem blsVerify_eq_some_true_iff (hP : params.P = ofPoint G) (hG : addOrderOf G = q)
    (hM : MapsTo md params message q H) (hpub : Decodes pub (x • G)) (hsig : Decodes sig C) :
    blsVerify md sig message pub params = some true ↔ pairing q G C = pairing q G (x • H) := by
  have hqG := smul_eq_zero_of_order hG
  have hqx : q • (x • G) = 0 := by rw [smul_comm, hqG, nsmul_zero]
  have hPG : Denotes params.P G := hP ▸ denotes_ofPoint (ne_zero_of_order hq hG)
  have hH := denotes_ofPoint (ne_zero_of_order hq hM.1)
  have ha := val_tatePairing_pointPhi hq hq3 hqp hs hqG hPG hsig (D := pointInit) rfl
  have hb := val_tatePairing_pointPhi hq hq3 hqp hs hqx hpub hH (D := pointInit) rfl
  rw [pairing_nsmul_left hq hq3 hqp hqG, ← pairing_nsmul_right hq hq3 hqp hqG] at hb
  rw [blsVerify, hM.2]
  simp only [Option.bind_eq_bind, Option.bind_some, Option.pure_def, Option.some.injEq, isDdhTuple,
    fp2Equal_iff]
  rw [← ha, ← hb]
  constructor
  · intro h
    rw [h]
  · exact eq_of_val_eq (reduced_tatePairing hs.curve _ _) (reduced_tatePairing hs.curve _ _)

end Equation

/-- What is signed is accepted. -/
theorem blsVerify_blsSign (hq : q.Prime) (hq64 : 64 < q) (hqp : q ∣ p + 1) (hs : Suits params p q)
    (hP : params.P = ofPoint G) (hG : addOrderOf G = q) (hx : 0 < x) (hxq : x < q)
    (hxd : meetsDoubling x q = false) (hsize : p ≤ 256 ^ maxBytes) (hM : MapsTo md params message q H) :
    ∃ priv pub sig, blsKeygen x params = some (priv, pub) ∧ blsSign md message priv params = some sig ∧
      blsVerify md sig message pub params = some true := by
  have hxG := ne_zero_of_order hq (addOrderOf_nsmul_of_lt hq hG hx hxq)
  have hxH := ne_zero_of_order hq (addOrderOf_nsmul_of_lt hq hM.1 hx hxq)
  have hmulG := pointMul_master hq hq64 hG hx hxq hxd
  have hmulH := pointMul_master hq hq64 hM.1 hx hxq hxd
  refine ⟨byteStringSetMpz x, _, _, ?_, ?_, (blsVerify_eq_some_true_iff hq (by omega) hqp hs hP hG hM
    (decodes_setPoint hsize hxG) (decodes_setPoint hsize hxH)).2 rfl⟩
  · simp only [blsKeygen, hP, hs.curve.p_eq, hmulG, Option.bind_eq_bind, Option.bind_some, Option.pure_def]
  · simp only [blsSign, hM.2, inpRaw_setMpz, hs.curve.p_eq, hmulH, Option.bind_eq_bind, Option.bind_some,
      Option.pure_def]

section Main

/-- Among the strings that are read as finite points of the group, the accepted
ones are read as `x` times the point of the message, up to what the cofactor
kills. -/
theorem blsVerify_iff (hq : q.Prime) (hq64 : 64 < q) (hqp : 12 * q ∣ p + 1)
    (hsol : (curveInit p q).solinasa ≠ 0) (hi : Initialized params) (hpp : params.p = p)
    (hpq : params.q = q) (hP : params.P = ofPoint G) (hG : addOrderOf G = q) (hx : 0 < x) (hxq : x < q)
    (hM : MapsTo md params message q H) :
    (∀ pub sig (C : E p), Decodes pub (x • G) → Decodes sig C →
      (blsVerify md sig message pub params = some true ↔ ((p + 1) / q) • (C - x • H) = 0)) ∧
    (∀ C : E p, addOrderOf C = q →
      (((p + 1) / q) • (C - x • H) = 0 ↔ C = x • H ∨ q ^ 2 ∣ p + 1)) ∧
    (p ≤ 256 ^ maxBytes → Decodes (byteStringSetPoint (ofPoint (x • G))) (x • G) ∧
      Decodes (byteStringSetPoint (ofPoint (x • H))) (x • H)) := by
  have hqp' := dvd_of_mul_left_dvd hqp
  have hs := suits_of_initialized hq (by omega) hi hpp hpq hsol
  refine ⟨?_, ?_, ?_⟩
  · intro pub sig C hpub hsig
    rw [blsVerify_eq_some_true_iff hq (by omega) hqp' hs hP hG hM hpub hsig,
      pairing_eq_pairing_iff hq (by omega) hqp' hs.curve.form hG]
  · intro C hC
    have hqH : q • (x • H) = 0 := by rw [smul_comm, smul_eq_zero_of_order hM.1, nsmul_zero]
    exact cofactor_smul_sub_eq_zero_iff hq (by omega) hqp' hs.curve.form hG (smul_eq_zero_of_order hC) hqH
  · intro hsize
    exact ⟨decodes_setPoint hsize (ne_zero_of_order hq (addOrderOf_nsmul_of_lt hq hG hx hxq)),
      decodes_setPoint hsize (ne_zero_of_order hq (addOrderOf_nsmul_of_lt hq hM.1 hx hxq))⟩

theorem two_smul_gen : ofPoint (2 • gen) = ⟨⟨94, 0⟩, ⟨510, 0⟩, false⟩ := by
  have h : gen + gen =
      .some 94 510 ((MordellCurve.nonsingular_iff six_ne_zero).2 (by decide)) :=
    some_add_self (l := 1493) (by decide) (by decide) (by decide) (by decide)
  rw [two_nsmul, h]
  rfl

/-- The signature of the private key 2 is accepted. -/
theorem blsVerify_gen :
    blsVerify id (byteStringSetPoint (ofPoint (2 • gen))) (byteStringSet genId)
      (byteStringSetPoint (ofPoint (2 • gen))) genParams = some true := by
  obtain ⟨hi, hpp, hpq⟩ := initialized_genParams
  obtain ⟨hiff, -, hdec⟩ := blsVerify_iff (x := 2) (by norm_num) (by norm_num) (by norm_num) (by decide) hi
    hpp hpq rfl addOrderOf_gen (by norm_num) (by norm_num) mapsTo_genId
  obtain ⟨hpub, hsig⟩ := hdec (le_pow_maxBytes (by norm_num))
  exact (hiff _ _ _ hpub hsig).2 (by rw [sub_self, nsmul_zero])

/-- So is the encoding of the sum with the point of order three. -/
theorem not_unique_gen :
    MapsTo id genParams (byteStringSet genId) 67 gen ∧
      ¬∀ sig, blsVerify id sig (byteStringSet genId) (byteStringSetPoint (ofPoint (2 • gen)))
        genParams = some true ↔ sig = byteStringSetPoint (ofPoint (2 • gen)) := by
  refine ⟨mapsTo_genId, fun h => ?_⟩
  rw [two_smul_gen] at h
  have hsum := (h (byteStringSetPoint ⟨⟨1050, 0⟩, ⟨1391, 0⟩, false⟩)).1 (by decide +kernel)
  exact absurd hsum (by decide)

end Main

end IdBasedEncryption.UniqueSignatures
