import IdBasedEncryption.BilinearMaps
import IdBasedEncryption.KeyEncapsulation

namespace IdBasedEncryption.KeyAgreement

open MordellCurve Gmp NonAdjacentForm Fp2Arith Fp2Value FieldExtension MordellGroup SolinasForm
open CyclicTorsion CurvePoints TatePairing PointValues Multiples ByteStrings PointBytes IbeLib
open PairingLaws SharedSecrets KeyEncapsulation BilinearMaps

variable {p : Nat} [hp : Fact p.Prime] [hp12 : Fact (p % 12 = 11)] {q : Nat} {params : Params}

section Cache

/-- Without a decomposition both fields of the curve are zero. -/
theorem solinas_eq_zero (hq : q.Prime) (hq3 : 3 < q) (h : (solinas q).1 = 0) : solinas q = (0, 0) := by
  have h0 := digit_zero_ne_zero (Nat.odd_iff.1 (hq.odd_of_ne_two (by omega)))
  have hfound := found_foldl h0 (mpzSizeinbase2 q)
  rw [solinas] at h ⊢
  generalize (List.range (mpzSizeinbase2 q + 1)).foldl (solinasRound q) ⟨0, 0, 0, false⟩ = s
    at hfound h ⊢
  cases hfound with
  | stopped => rfl
  | one hd => exact absurd h h0
  | two i hi hik hdi hd =>
      have hi0 : (i : Int) ≠ 0 := by exact_mod_cast hi.ne'
      exact absurd h (mul_ne_zero h0 (mul_ne_zero hi0 hdi))
  | three i j hi hij hdi hdj hd =>
      have hj0 : (j : Int) ≠ 0 := by exact_mod_cast (hi.trans hij).ne'
      exact absurd h (mul_ne_zero h0 hj0)

/-- Without a decomposition both Miller loops are empty. -/
theorem tatePostprocess_of_zero {curve : Curve} (hpp : curve.p = p) (ha : curve.solinasa = 0)
    (hb : curve.solinasb = 0) {A : E p} (hA : A ≠ 0) {Q : Point} (hQ : Q.infinity = false)
    (mc : MillerCache) :
    tatePostprocess (tatePreprocess mc (ofPoint A) curve) Q curve = tatePairing (ofPoint A) Q curve := by
  rw [tatePostprocess, tatePairing]
  congr 1
  cases A with
  | zero => exact absurd rfl hA
  | some x y h =>
      apply eq_of_val_eq (p := p)
      · rw [millerPostprocess, hpp, postprocessFinish, hpp]
        exact reduced_fp2Div pos _ _
      · rw [tateSolinasMiller, hpp, millerFinish, hpp]
        exact reduced_fp2Div pos _ _
      · simp [millerPostprocess, postprocessFinish, tatePreprocess, preprocessFinish, preprocessStart,
          tateSolinasMiller, millerFinish, millerStart, ha, hb, hpp, cachedVertical, tateGetVertical,
          TatePairing.normalize, hQ, ofPoint]
        ext <;> simp [fp2MulMpz, ofResidue, zpMul, sub_eq_add_neg]

end Cache

section Agreement

/-- The values of the pairing that the library computes. -/
def pairingValue (params : Params) (A B : E p) : K p :=
  val p (modifiedPairing (ofPoint A) (ofPoint B) params)

/-- The byte strings of the coordinates have lengths that their 16-bit headers
hold. -/
def EncodablePoint (P : Point) : Prop := Encodable P.x ∧ Encodable P.y

variable {md : ByteString → ByteString}

omit hp12 in
theorem pointSetByteString_of_encodable {A : E p} (hA : A ≠ 0) (h : EncodablePoint (ofPoint A)) :
    pointSetByteString pointInit (byteStringSetPoint (ofPoint A)) = ofPoint A := by
  rw [pointSetByteString_set h.1 h.2]
  cases A with
  | zero => exact absurd rfl hA
  | some x y hxy => rfl

/-- Both computations of the secret of a key and an identity hash the pairing of
their points. -/
theorem sharedSecret_eq (hq : q.Prime) (hq3 : 3 < q) (hqp : q ∣ p + 1) (hi : Initialized params)
    (hpp : params.p = p) (hpq : params.q = q) {id : CString} {A B : E p} (hA : addOrderOf A = q)
    (henc : EncodablePoint (ofPoint A)) (hB : MapsTo md params (byteStringSet id) q B)
    (mc : MillerCache) :
    ibeGetSharedSecret md id (byteStringSetPoint (ofPoint A)) params =
        some (hashH md (modifiedPairing (ofPoint A) (ofPoint B) params)) ∧
      ibeGetSharedSecretPostprocess md id
          (ibeGetSharedSecretPreprocess mc (byteStringSetPoint (ofPoint A)) params) params =
        some (hashH md (modifiedPairing (ofPoint A) (ofPoint B) params)) := by
  have hA0 := ne_zero_of_order hq hA
  have hB0 := ne_zero_of_order hq hB.1
  have hkey := pointSetByteString_of_encodable hA0 henc
  have hid : mapToPoint md id params = some (ofPoint B) := hB.2
  have hpair : tatePostprocess (tatePreprocess mc (ofPoint A) params.curve)
      (pointPhi (ofPoint B) (ofPoint B) params) params.curve =
        modifiedPairing (ofPoint A) (ofPoint B) params := by
    by_cases hsol : (curveInit p q).solinasa = 0
    · have hzero := solinas_eq_zero hq hq3 hsol
      have hcp : params.curve.p = p := by rw [hi.curve_eq]; exact hpp
      have hca : params.curve.solinasa = 0 := by rw [hi.curve_eq, hpp, hpq]; exact hsol
      have hcb : params.curve.solinasb = 0 := by
        rw [hi.curve_eq, hpp, hpq]
        exact congrArg Prod.snd hzero
      refine tatePostprocess_of_zero hcp hca hcb hA0 ?_ mc
      cases B with
      | zero => exact absurd rfl hB0
      | some x y h => rfl
    · exact tatePostprocess_tatePreprocess hq hq3 hqp (suits_of_initialized hq hq3 hi hpp hpq hsol)
        (smul_eq_zero_of_order hA) hA0 hB0 mc
  rw [ibeGetSharedSecret, ibeGetSharedSecretPostprocess, ibeGetSharedSecretPreprocess, hkey, hid]
  simp only [Option.bind_eq_bind, Option.bind_some, hpair, Option.pure_def, modifiedPairing, and_self]

theorem modifiedPairing_agree (hq : q.Prime) (hcp : params.curve.p = p)
    (hcyc : IsAddCyclic (torsion p q)) (hbil : BilinearOn q (pairingValue (p := p) params)) {x : Nat}
    (hx : 0 < x) (hxq : x < q) {A B : E p} (hA : addOrderOf A = q) (hB : addOrderOf B = q) :
    modifiedPairing (ofPoint (x • A)) (ofPoint B) params =
      modifiedPairing (ofPoint (x • B)) (ofPoint A) params := by
  have hred (P Q : Point) : Reduced p (modifiedPairing P Q params) := by
    rw [modifiedPairing, tatePairing, tatePower, hcp]
    exact reduced_fp2Div pos _ _
  refine eq_of_val_eq (hred _ _) (hred _ _) ?_
  calc pairingValue params (x • A) B = pairingValue params A B ^ x :=
        hbil.nsmul_left hq hA hB hx hxq
    _ = pairingValue params B A ^ x := by
        rw [hbil.symm hq hA hB (T := torsion p q) (fun C => mem_torsion) hcyc]
    _ = pairingValue params (x • B) A := (hbil.nsmul_left hq hB hA hx hxq).symm

/-- Two users derive the same bytes from their own key and the name of the
other, with a cache or without. -/
theorem sharedSecrets_agree (hq : q.Prime) (hq3 : 3 < q) (hqp : q ∣ p + 1) (hi : Initialized params)
    (hpp : params.p = p) (hpq : params.q = q) (hcyc : IsAddCyclic (torsion p q))
    (hbil : BilinearOn q (pairingValue (p := p) params)) {x : Nat} (hx : 0 < x) (hxq : x < q)
    (hmul : ∀ A : E p, addOrderOf A = q → pointMul x (ofPoint A) p = some (ofPoint (x • A)))
    {idA idB : CString} {A B : E p} (hA : MapsTo md params (byteStringSet idA) q A)
    (hB : MapsTo md params (byteStringSet idB) q B) (hencA : EncodablePoint (ofPoint (x • A)))
    (hencB : EncodablePoint (ofPoint (x • B))) (mc mc' : MillerCache) :
    ∃ keyA keyB s, ibeExtract md (byteStringSetMpz x) idA params = some keyA ∧
      ibeExtract md (byteStringSetMpz x) idB params = some keyB ∧
      ibeGetSharedSecret md idB keyA params = some s ∧
      ibeGetSharedSecret md idA keyB params = some s ∧
      ibeGetSharedSecretPostprocess md idB (ibeGetSharedSecretPreprocess mc keyA params) params =
        some s ∧
      ibeGetSharedSecretPostprocess md idA (ibeGetSharedSecretPreprocess mc' keyB params) params =
        some s := by
  have hcp : params.curve.p = p := by rw [hi.curve_eq]; exact hpp
  have hextract {id : CString} {C : E p} (hC : MapsTo md params (byteStringSet id) q C) :
      ibeExtract md (byteStringSetMpz x) id params = some (byteStringSetPoint (ofPoint (x • C))) := by
    simp [ibeExtract, ibeExtractByteString, hC.2, inpRaw_setMpz, hcp, hmul C hC.1]
  have hagree := modifiedPairing_agree hq hcp hcyc hbil hx hxq hA.1 hB.1
  obtain ⟨h₁, h₂⟩ := sharedSecret_eq hq hq3 hqp hi hpp hpq
    (addOrderOf_nsmul_of_lt hq hA.1 hx hxq) hencA hB mc
  obtain ⟨h₃, h₄⟩ := sharedSecret_eq hq hq3 hqp hi hpp hpq
    (addOrderOf_nsmul_of_lt hq hB.1 hx hxq) hencB hA mc'
  rw [← hagree] at h₃ h₄
  exact ⟨_, _, _, hextract hA, hextract hB, h₁, h₃, h₂, h₄⟩

end Agreement

section Solinas

variable (hq : q.Prime) (hq3 : 3 < q) (hqp : q ∣ p + 1) (hs : Suits params p q)
include hq hq3 hqp hs

theorem bilinearOn_pairingValue : BilinearOn q (pairingValue (p := p) params) where
  add_left A B C hA hB hC hAB := by
    rw [pairingValue, modifiedPairing_add_left hq hq3 hqp hs (smul_eq_zero_of_order hA)
      (ne_zero_of_order hq hA) (smul_eq_zero_of_order hB) (ne_zero_of_order hq hB)
      (ne_zero_of_order hq hC) hAB, val_fp2Mul, pairingValue, pairingValue]
  add_right A B C hA hB hC hAB := by
    rw [pairingValue, modifiedPairing_add_right hq hq3 hqp hs (smul_eq_zero_of_order hC)
      (ne_zero_of_order hq hC) (ne_zero_of_order hq hA) (ne_zero_of_order hq hB) hAB, val_fp2Mul,
      pairingValue, pairingValue]

theorem isAddCyclic_torsion {A : E p} (hA : addOrderOf A = q) : IsAddCyclic (torsion p q) := by
  refine ⟨⟨A, smul_eq_zero_of_order hA⟩, fun B => ?_⟩
  obtain ⟨k, hk⟩ := exists_nsmul_eq hq hq3 hqp hs.curve.form hA (mem_torsion.1 B.2)
  refine ⟨k, Subtype.ext ?_⟩
  rw [hk]
  exact natCast_zsmul ..

end Solinas

omit hp12 in
theorem encodablePoint_ofPoint (hsize : p ≤ 256 ^ maxBytes) {A : E p} (hA : A ≠ 0) :
    EncodablePoint (ofPoint A) := by
  have hsize' : (p : Int) ≤ 256 ^ maxBytes := by exact_mod_cast hsize
  cases A with
  | zero => exact absurd rfl hA
  | some x y h =>
      have hr := reducedPoint_some h
      exact ⟨encodable_of_reduced hsize' hr.x rfl, encodable_of_reduced hsize' hr.y rfl⟩

theorem sharedSecrets_agree_gen :
    ∃ key s, ibeExtract id (byteStringSetMpz 2) genId genParams = some key ∧
      ibeGetSharedSecret id genId key genParams = some s ∧
      ibeGetSharedSecretPostprocess id genId
        (ibeGetSharedSecretPreprocess millerCacheInit key genParams) genParams = some s := by
  have hq : Nat.Prime 67 := by norm_num
  have hs : Suits genParams 1607 67 :=
    (established (x := 2) hq (by norm_num) (by decide) addOrderOf_gen (by norm_num) (by norm_num)
      (by decide) (Option.some_get _).symm).suits
  have hi : Initialized genParams :=
    (initialized_setupPoints (initialized_initpq _) (Option.some_get _).symm).1
  have henc : EncodablePoint (ofPoint (2 • gen)) :=
    encodablePoint_ofPoint (le_pow_maxBytes (by norm_num))
      (ne_zero_of_order hq (addOrderOf_nsmul_of_lt hq addOrderOf_gen (by norm_num) (by norm_num)))
  obtain ⟨keyA, keyB, s, hA, hB, h₁, h₂, h₃, h₄⟩ := sharedSecrets_agree (p := 1607) (q := 67) (x := 2)
    hq (by norm_num) (by norm_num) hi hs.p_eq hs.q_eq
    (isAddCyclic_torsion hq (by norm_num) (by norm_num) hs addOrderOf_gen)
    (bilinearOn_pairingValue hq (by norm_num) (by norm_num) hs) (by norm_num) (by norm_num)
    (fun A hA => pointMul_master hq (by norm_num) hA (by norm_num) (by norm_num) (by decide))
    mapsTo_genId mapsTo_genId henc henc millerCacheInit millerCacheInit
  exact ⟨keyA, s, hA, h₁, h₃⟩

end IdBasedEncryption.KeyAgreement
