import IdBasedEncryption.Multiples
import IdBasedEncryption.OriginPairings
import IdBasedEncryption.SharedSecrets

namespace IdBasedEncryption.KeyEncapsulation

open WeierstrassCurve.Affine MordellCurve Fp2Arith Fp2Value FieldExtension MordellGroup CurvePoints TatePairing PointValues
open ModifiedPairing MillerCaches PairingValues Multiples ByteStrings PointBytes IbeLib PairingLaws
open ConjugatePairings OriginPairings SharedSecrets

variable {p : Nat} [hp : Fact p.Prime] [hp12 : Fact (p % 12 = 11)]

/-- Parameters whose points are the generator `G` and its multiple by the
master key `x`, with the tables and the cache that belong to them. -/
structure Established (params : Params) (q x : Nat) (G : E p) : Prop where
  suits : Suits params p q
  P_eq : params.P = ofPoint G
  Ppub_eq : params.Ppub = ofPoint (x • G)
  table : Preprocessed params.curve q G
  cache : IsCache params.ppubMc (x • G) params.curve

/-- For this identity the hash leads to a point of order `q`. -/
def MapsTo (md : ByteString → ByteString) (params : Params) (bs : ByteString) (q : Nat) (B : E p) :
    Prop :=
  addOrderOf B = q ∧ mapByteStringToPoint md bs params = some (ofPoint B)

section Setup

variable {q x : Nat} (hq : q.Prime) (hq64 : 64 < q) (hsol : (curveInit p q).solinasa ≠ 0) {G : E p}
  (hG : addOrderOf G = q) (hx : 0 < x) (hxq : x < q) (hxd : meetsDoubling x q = false)
include hq hq64 hG hx hxq hxd

theorem pointMul_master : pointMul x (ofPoint G) p = some (ofPoint (x • G)) :=
  pointMul_eq hq hq64 hG (affRepresents_ofPoint (ne_zero_of_order hq hG)) hx hxq hxd rfl

omit hp12 hq64 hx hxq hxd in
theorem addOrderOf_nsmul_of_lt {n : Nat} (hn : 0 < n) (hnq : n < q) : addOrderOf (n • G) = q :=
  addOrderOf_smul hq hG fun h => absurd (Nat.le_of_dvd hn h) (by omega)

include hsol

theorem established {id : CString} {params : Params}
    (hset : setupPoints x (ofPoint G) (paramsInit p q id) = some params) :
    Established params q x G := by
  have hmul := pointMul_master hq hq64 hG hx hxq hxd
  obtain ⟨hi, hpp, hpq⟩ := initialized_setupPoints (initialized_initpq _) hset
  have hs := suits_of_initialized hq (by omega) hi hpp hpq hsol
  have horder := addOrderOf_nsmul_of_lt hq hG hx hxq
  have hcurve : (paramsInit p q id).curve = curveInit p q := rfl
  rw [setupPoints, hcurve, show (curveInit p q).p = p by rfl, hmul] at hset
  simp only [Option.bind_eq_bind, Option.bind_some, Option.pure_def, Option.some.injEq] at hset
  subst hset
  exact ⟨hs, rfl, rfl, preprocessed_pointMulPreprocess hq (by omega) hG rfl rfl,
    isCache_tatePreprocess hq (by omega) (smul_eq_zero_of_order horder) hs.curve
      (ne_zero_of_order hq horder) _⟩

end Setup

section Kem

variable {md : ByteString → ByteString} {params : Params} {q x : Nat} {G B : E p} {id : CString}

/-- Every secret that the sender writes is the one that the receiver computes
from the common `U` and the extracted key. -/
def KemCorrect (md : ByteString → ByteString) (master : ByteString) (r : Int) (U : ByteString)
    (ids : List CString) (params : Params) : Prop :=
  ∃ s U', ibeKemEncryptArray md r U ids params = some (s, U') ∧
    List.Forall₂ (fun id secret => ∃ key, ibeExtract md master id params = some key ∧
      ibeKemDecrypt md U' key params = secret) ids s

variable (hq : q.Prime) (hq64 : 64 < q)
include hq hq64

theorem ibeExtractByteString_eq (hpp : params.curve.p = p) (hx : 0 < x) (hxq : x < q)
    (hxd : meetsDoubling x q = false) {bs : ByteString} (hB : MapsTo md params bs q B) :
    ibeExtractByteString md (byteStringSetMpz x) bs params =
      some (byteStringSetPoint (ofPoint (x • B))) := by
  simp [ibeExtractByteString, hB.2, inpRaw_setMpz, hpp, pointMul_master hq hq64 hB.1 hx hxq hxd]

variable (hqp : q ∣ p + 1) (he : Established params q x G) (hG : addOrderOf G = q)
  (hB : addOrderOf B = q) (hx : 0 < x) (hxq : x < q)
include hqp he hG hB hx hxq

/-- The value that sender and receiver share. -/
theorem fp2Pow_tatePostprocess {r : Nat} (hr : 0 < r) (hrq : r < q) :
    fp2Pow (tatePostprocess params.ppubMc (pointPhi (ofPoint B) (ofPoint B) params) params.curve) r p =
      modifiedPairing (ofPoint (x • B)) (ofPoint (r • G)) params := by
  have hq3 : 3 < q := by omega
  have hs := he.suits
  have hxG := addOrderOf_nsmul_of_lt hq hG hx hxq
  have hxB := addOrderOf_nsmul_of_lt hq hB hx hxq
  have hrG := addOrderOf_nsmul_of_lt hq hG hr hrq
  have hqB := smul_eq_zero_of_order hB
  have hqG := smul_eq_zero_of_order hG
  have h1 : (1 : Int) < p := by exact_mod_cast hp.out.one_lt
  rw [tatePostprocess_pointPhi hq hq3 hqp hs (smul_eq_zero_of_order hxG) (ne_zero_of_order hq hxG)
    (ne_zero_of_order hq hB) he.cache]
  apply eq_of_val_eq (reduced_fp2Pow pos h1 _ _) (reduced_modifiedPairing hs _ _)
  rw [val_fp2Pow, val_modifiedPairing hq hq3 hqp hs (smul_eq_zero_of_order hxG)
      (ne_zero_of_order hq hxG) (ne_zero_of_order hq hB),
    val_modifiedPairing hq hq3 hqp hs (smul_eq_zero_of_order hxB) (ne_zero_of_order hq hxB)
      (ne_zero_of_order hq hrG),
    pairing_nsmul_right hq hq3 hqp (smul_eq_zero_of_order hxB), pairing_nsmul_left hq hq3 hqp hqG,
    pairing_nsmul_left hq hq3 hqp hqB, pairing_symm hq hq3 hqp hs.curve.form hG hqB]

omit hp12 hqp he hG hB hx hxq hq hq64 in
theorem ibeKemDecrypt_eq (hsize : p ≤ 256 ^ maxBytes) {A C : E p} (hA : A ≠ 0) (hC : C ≠ 0) :
    ibeKemDecrypt md (byteStringSetPoint (ofPoint C)) (byteStringSetPoint (ofPoint A)) params =
      hashH md (modifiedPairing (ofPoint A) (ofPoint C) params) := by
  rw [ibeKemDecrypt, pointSetByteString_ofPoint hsize hA rfl, pointSetByteString_ofPoint hsize hC rfl,
    modifiedPairing]

/-- The three ways for a multiplication to meet a special case are excluded, and
points fit into their byte strings. -/
structure KemCondition (p q x r : Nat) : Prop where
  pos : 0 < r
  ne : ¬(q % 4 = 1 ∧ r + 2 = q)
  master : meetsDoubling x q = false
  size : p ≤ 256 ^ maxBytes

omit hB in
theorem kemCorrect_of_condition {r : Nat} (hrq : r < q) (hc : KemCondition p q x r) (U : ByteString) {ids : List CString}
    (hids : ∀ id ∈ ids, ∃ B : E p, MapsTo md params (byteStringSet id) q B) :
    KemCorrect md (byteStringSetMpz x) r U ids params := by
  by_cases hlen : ids.length ≤ 0
  · obtain rfl : ids = [] := by simpa using hlen
    exact ⟨[], U, by simp [ibeKemEncryptArray], .nil⟩
  · have hpp := he.suits.curve.p_eq
    have hr := pointMulPostprocess_eq hq (by omega) hG he.table hc.pos hrq hc.ne
    have hall : ∀ id ∈ ids, ∃ s, kemSecret md r params id = some s ∧
        ∃ key, ibeExtract md (byteStringSetMpz x) id params = some key ∧
          ibeKemDecrypt md (byteStringSetPoint (ofPoint (r • G))) key params = s := by
      intro id hid
      obtain ⟨B, hB⟩ := hids id hid
      have hxB := addOrderOf_nsmul_of_lt hq hB.1 hx hxq
      have hrG := addOrderOf_nsmul_of_lt hq hG hc.pos hrq
      have hv := fp2Pow_tatePostprocess hq hq64 hqp he hG hB.1 hx hxq hc.pos hrq
      refine ⟨_, ?_, _, ibeExtractByteString_eq hq hq64 hpp hx hxq hc.master hB,
        ibeKemDecrypt_eq hc.size (ne_zero_of_order hq hxB) (ne_zero_of_order hq hrG)⟩
      simp [kemSecret, mapToPoint, hB.2, he.suits.p_eq, hv]
    obtain ⟨s, hs, hrel⟩ := exists_mapM_eq_some hall
    refine ⟨s, byteStringSetPoint (ofPoint (r • G)), ?_, hrel⟩
    rw [ibeKemEncryptArray, if_neg hlen, hr, hs]
    rfl

end Kem

section Failures

variable {md : ByteString → ByteString} {params : Params} {q x : Nat} {G : E p} {id : CString}
  {ids : List CString} {r : Nat} {U : ByteString}

omit hp hp12 in
theorem KemCorrect.head {master : ByteString} (h : KemCorrect md master r U (id :: ids) params) :
    ∃ rP secret key, pointMulPostprocess r params.curve = some rP ∧
      kemSecret md r params id = some secret ∧ ibeExtract md master id params = some key ∧
      ibeKemDecrypt md (byteStringSetPoint rP) key params = secret := by
  obtain ⟨s, U', henc, hrel⟩ := h
  rw [ibeKemEncryptArray, if_neg (by simp)] at henc
  simp only [List.mapM_cons, Option.bind_eq_bind, Option.bind_eq_some_iff, Option.pure_def,
    Option.some.injEq, Prod.mk.injEq] at henc
  obtain ⟨rP, hr, ss, ⟨secret, hs, rest, -, rfl⟩, rfl, rfl⟩ := henc
  obtain ⟨⟨key, hkey, hdec⟩, -⟩ := List.forall₂_cons.1 hrel
  exact ⟨rP, secret, key, hr, hs, hkey, hdec⟩

variable (hq : q.Prime) (hq64 : 64 < q) (hqp : q ∣ p + 1) (hsol : (curveInit p q).solinasa ≠ 0)
  (hG : addOrderOf G = q) (hx : 0 < x) (hxq : x < q)
include hq hq64 hqp hsol hG hx hxq

omit hqp in
/-- The parameters that a master key leads to whose multiples are no points. -/
theorem nullCache_of_meetsDoubling (hxd : meetsDoubling x q = true) {name : CString}
    (hset : setupPoints x (ofPoint G) (paramsInit p q name) = some params) :
    Suits params p q ∧ NullCache p params.ppubMc params.curve := by
  have hmul := pointMul_eq_pointInit hq hq64 hG (affRepresents_ofPoint (ne_zero_of_order hq hG)) hx
    hxq hxd (B := ofPoint G) rfl
  obtain ⟨hi, hpp, hpq⟩ := initialized_setupPoints (initialized_initpq _) hset
  have hs := suits_of_initialized hq (by omega) hi hpp hpq hsol
  have hcurve : (paramsInit p q name).curve = curveInit p q := rfl
  rw [setupPoints, hcurve, show (curveInit p q).p = p by rfl, hmul] at hset
  simp only [Option.bind_eq_bind, Option.bind_some, Option.pure_def, Option.some.injEq] at hset
  subst hset
  exact ⟨hs, nullCache_tatePreprocess (by omega) hs.curve _⟩

/-- With such a master key the receiver computes zero and the sender does not. -/
theorem not_kemCorrect_of_meetsDoubling (hxd : meetsDoubling x q = true) {name : CString}
    (hset : setupPoints x (ofPoint G) (paramsInit p q name) = some params)
    (hmd : Set.InjOn (hashH md) {a | Reduced p a}) {B : E p}
    (hB : MapsTo md params (byteStringSet id) q B) :
    ¬KemCorrect md (byteStringSetMpz x) r U (id :: ids) params := by
  intro h
  obtain ⟨hs, hnull⟩ := nullCache_of_meetsDoubling hq hq64 hsol hG hx hxq hxd hset
  obtain ⟨rP, secret, key, -, hsecret, hkey, hdec⟩ := h.head
  have hmul := pointMul_eq_pointInit hq hq64 hB.1 (affRepresents_ofPoint (ne_zero_of_order hq hB.1)) hx
    hxq hxd (B := ofPoint B) rfl
  rw [ibeExtract, ibeExtractByteString, hB.2] at hkey
  simp only [Option.bind_eq_bind, Option.bind_some, inpRaw_setMpz, hs.curve.p_eq, hmul,
    Option.pure_def, Option.some.injEq] at hkey
  subst hkey
  simp only [kemSecret, mapToPoint, hB.2, Option.bind_eq_bind, Option.bind_some, Option.pure_def,
    Option.some.injEq] at hsecret
  rw [← hsecret, ibeKemDecrypt, pointSetByteString_pointInit, hs.p_eq] at hdec
  have h1 : (1 : Int) < p := by exact_mod_cast hp.out.one_lt
  have heq := hmd (reduced_tatePairing hs.curve ..) (reduced_fp2Pow pos h1 _ _) hdec
  have hval := congrArg (val p) heq
  obtain ⟨hx0, hy0⟩ := val_pointPhi_ne_zero hq (by omega) hs.p_eq hs.zeta_eq hB.1
  rw [val_fp2Pow, val_tatePairing_origin (by omega) hs.curve hqp] at hval
  exact pow_ne_zero r (val_tatePostprocess_null hx0 hy0 (by omega) hs.curve hnull) hval.symm

omit hsol
variable (he : Established params q x G) (hq2 : ¬q ^ 2 ∣ p + 1)
  (hsize : p ≤ 256 ^ maxBytes) (hxd : meetsDoubling x q = false)
  (hmd : Set.InjOn (hashH md) {a | Reduced p a}) {B : E p}
  (hB : MapsTo md params (byteStringSet id) q B)
include he hq2 hsize hxd hmd hB

/-- For `r` zero the sender computes one, and the receiver the pairing of its
key with the generator. -/
theorem not_kemCorrect_zero (hr0 : r = 0) :
    ¬KemCorrect md (byteStringSetMpz x) r U (id :: ids) params := by
  intro h
  have hs := he.suits
  have hxB := addOrderOf_nsmul_of_lt hq hB.1 hx hxq
  have hG0 := ne_zero_of_order hq hG
  obtain ⟨rP, secret, key, hr, hsecret, hkey, hdec⟩ := h.head
  rw [hr0, Int.natCast_zero, pointMulPostprocess_zero he.table] at hr
  rw [ibeExtract, ibeExtractByteString_eq hq hq64 hs.curve.p_eq hx hxq hxd hB] at hkey
  obtain rfl := Option.some.inj hr
  obtain rfl := Option.some.inj hkey
  simp only [kemSecret, mapToPoint, hB.2, Option.bind_eq_bind, Option.bind_some, Option.pure_def,
    Option.some.injEq] at hsecret
  rw [← hsecret, ibeKemDecrypt_eq hsize (ne_zero_of_order hq hxB) hG0, hs.p_eq] at hdec
  have h1 : (1 : Int) < p := by exact_mod_cast hp.out.one_lt
  have heq := hmd (reduced_modifiedPairing hs _ _) (reduced_fp2Pow pos h1 _ _) hdec
  have hval := congrArg (val p) heq
  rw [val_fp2Pow, hr0, pow_zero, val_modifiedPairing hq (by omega) hqp hs
    (smul_eq_zero_of_order hxB) (ne_zero_of_order hq hxB) hG0] at hval
  exact pairing_ne_one hq (by omega) hqp hs.curve.form hq2 hxB hG hval

/-- When the last addition meets a doubling, `U` is the origin and the receiver
computes zero or one. -/
theorem not_kemCorrect_doubling (hr : 0 < r) (h4 : q % 4 = 1) (hr2 : r + 2 = q) :
    ¬KemCorrect md (byteStringSetMpz x) r U (id :: ids) params := by
  intro h
  have hs := he.suits
  have hxB := addOrderOf_nsmul_of_lt hq hB.1 hx hxq
  have hxG := addOrderOf_nsmul_of_lt hq hG hx hxq
  obtain ⟨rP, secret, key, hrP, hsecret, hkey, hdec⟩ := h.head
  rw [pointMulPostprocess_eq_pointInit hq (by omega) hG he.table hr (by omega) h4 hr2] at hrP
  rw [ibeExtract, ibeExtractByteString_eq hq hq64 hs.curve.p_eq hx hxq hxd hB] at hkey
  obtain rfl := Option.some.inj hrP
  obtain rfl := Option.some.inj hkey
  simp only [kemSecret, mapToPoint, hB.2, Option.bind_eq_bind, Option.bind_some, Option.pure_def,
    Option.some.injEq] at hsecret
  have hphi : pointPhi pointInit pointInit params = pointInit := by
    simp [pointPhi, pointInit, fp2Mul, fp2Set0]
  rw [← hsecret, ibeKemDecrypt, pointSetByteString_ofPoint hsize (ne_zero_of_order hq hxB) rfl,
    pointSetByteString_pointInit, hphi, hs.p_eq] at hdec
  have h1 : (1 : Int) < p := by exact_mod_cast hp.out.one_lt
  have heq := hmd (reduced_tatePairing hs.curve ..) (reduced_fp2Pow pos h1 _ _) hdec
  have hval := congrArg (val p) heq
  rw [val_fp2Pow, tatePostprocess_pointPhi hq (by omega) hqp hs (smul_eq_zero_of_order hxG)
    (ne_zero_of_order hq hxG) (ne_zero_of_order hq hB.1) he.cache,
    val_modifiedPairing hq (by omega) hqp hs (smul_eq_zero_of_order hxG) (ne_zero_of_order hq hxG)
      (ne_zero_of_order hq hB.1)] at hval
  have hreal := realPoint_ofPoint (x • B)
  have hne := pairing_ne_zero hq (by omega) hqp (smul_eq_zero_of_order hxG) B
  rcases val_tatePairing_origin_right hs.curve hreal with h0 | h0
  · rw [h0] at hval
    exact pow_ne_zero r hne hval.symm
  · rw [h0] at hval
    have hcop : r.Coprime q := by
      refine Nat.Coprime.symm ((Nat.Prime.coprime_iff_not_dvd hq).2 fun hdvd => ?_)
      exact absurd (Nat.le_of_dvd hr hdvd) (by omega)
    have hpow := pow_gcd_eq_one.2 ⟨hval.symm, pairing_pow hq (by omega) hqp
      (smul_eq_zero_of_order hxG) B⟩
    rw [hcop, pow_one] at hpow
    exact pairing_ne_one hq (by omega) hqp hs.curve.form hq2 hxG hB.1 hpow

end Failures

section Founded

/-- The parameters of a setup with the master key `x` and the generator `G`. -/
structure Founded (q x : Nat) (name : CString) (G : E p) (params : Params) : Prop where
  prime : q.Prime
  lt : 64 < q
  dvd : 12 * q ∣ p + 1
  solinas : (curveInit p q).solinasa ≠ 0
  pos : 0 < x
  x_lt : x < q
  order : addOrderOf G = q
  setup_eq : setupPoints x (ofPoint G) (paramsInit p q name) = some params

variable {q x r : Nat} {name : CString} {G : E p} {params : Params}

theorem Founded.established (h : Founded q x name G params) (hxd : meetsDoubling x q = false) :
    Established params q x G :=
  KeyEncapsulation.established h.prime h.lt h.solinas h.order h.pos h.x_lt hxd h.setup_eq

theorem Founded.kemCorrect (h : Founded q x name G params) (hc : KemCondition p q x r) (hrq : r < q)
    {md : ByteString → ByteString} {ids : List CString}
    (hids : ∀ id ∈ ids, ∃ B : E p, MapsTo md params (byteStringSet id) q B) (U : ByteString) :
    KemCorrect md (byteStringSetMpz x) r U ids params :=
  kemCorrect_of_condition h.prime h.lt (dvd_of_mul_left_dvd h.dvd) (h.established hc.master) h.order h.pos
    h.x_lt hrq hc U hids

end Founded

section Main

/-- Sender and receiver agree for the numbers of the condition. For the other
ones the values that they hash are different, unless the pairing is trivial. -/
theorem kemCorrect_iff {q x r : Nat} (hq : q.Prime) (hq64 : 64 < q) (hqp : 12 * q ∣ p + 1)
    (hsol : (curveInit p q).solinasa ≠ 0) (hx : 0 < x) (hxq : x < q) (hrq : r < q) {G : E p}
    (hG : addOrderOf G = q) {name : CString} {params : Params}
    (hset : setupPoints x (ofPoint G) (paramsInit p q name) = some params)
    {md : ByteString → ByteString} {ids : List CString}
    (hids : ∀ id ∈ ids, ∃ B : E p, MapsTo md params (byteStringSet id) q B) (U : ByteString) :
    (KemCondition p q x r → KemCorrect md (byteStringSetMpz x) r U ids params) ∧
    (ids ≠ [] → p ≤ 256 ^ maxBytes → ¬q ^ 2 ∣ p + 1 → Set.InjOn (hashH md) {a | Reduced p a} →
      KemCorrect md (byteStringSetMpz x) r U ids params → KemCondition p q x r) := by
  have hqp' := dvd_of_mul_left_dvd hqp
  refine ⟨fun hc => ?_, fun hne hsize hq2 hmd h => ?_⟩
  · exact kemCorrect_of_condition hq hq64 hqp' (established hq hq64 hsol hG hx hxq hc.master hset) hG
      hx hxq hrq hc U hids
  · obtain ⟨id, ids, rfl⟩ := List.exists_cons_of_ne_nil hne
    obtain ⟨B, hB⟩ := hids id List.mem_cons_self
    by_cases hxd : meetsDoubling x q = true
    · exact absurd h (not_kemCorrect_of_meetsDoubling hq hq64 hqp' hsol hG hx hxq hxd hset hmd hB)
    · rw [Bool.not_eq_true] at hxd
      have he := established hq hq64 hsol hG hx hxq hxd hset
      refine ⟨Nat.pos_of_ne_zero fun hr0 => ?_, fun hr => ?_, hxd, hsize⟩
      · exact not_kemCorrect_zero hq hq64 hqp' hG hx hxq he hq2 hsize hxd hmd hB hr0 h
      · exact not_kemCorrect_doubling hq hq64 hqp' hG hx hxq he hq2 hsize hxd hmd hB (by omega)
          hr.1 hr.2 h

instance fact_prime_1607 : Fact (Nat.Prime 1607) := ⟨by norm_num⟩

instance fact_mod_1607 : Fact (1607 % 12 = 11) := ⟨rfl⟩

def gen : E 1607 := .some 23 1156 ((MordellCurve.nonsingular_iff six_ne_zero).2 (by decide))

theorem addOrderOf_gen : addOrderOf gen = 67 := by
  have hns {x y : ZMod 1607} (h : y ^ 2 = x ^ 3 + 1) : (mordell (ZMod 1607)).Nonsingular x y :=
    (MordellCurve.nonsingular_iff six_ne_zero).2 h
  have h2 : gen + gen = .some 94 510 (hns (by decide)) :=
    some_add_self (l := 1493) (by decide) (by decide) (by decide) (by decide)
  have h3 : gen + gen + gen = .some 991 1065 (hns (by decide)) := by
    rw [h2, gen]
    exact some_add_some (l := 1530) (by decide) (by decide) (by decide) (by decide)
  have h4 : 4 • gen = .some 797 1563 (hns (by decide)) := by
    rw [show 4 • gen = gen + gen + (gen + gen) by abel, h2]
    exact some_add_self (l := 1028) (by decide) (by decide) (by decide) (by decide)
  have h8 : 8 • gen = .some 1454 1004 (hns (by decide)) := by
    rw [show 8 • gen = 4 • gen + 4 • gen by abel, h4]
    exact some_add_self (l := 204) (by decide) (by decide) (by decide) (by decide)
  have h16 : 16 • gen = .some 401 987 (hns (by decide)) := by
    rw [show 16 • gen = 8 • gen + 8 • gen by abel, h8]
    exact some_add_self (l := 1177) (by decide) (by decide) (by decide) (by decide)
  have h32 : 32 • gen = .some 1417 889 (hns (by decide)) := by
    rw [show 32 • gen = 16 • gen + 16 • gen by abel, h16]
    exact some_add_self (l := 789) (by decide) (by decide) (by decide) (by decide)
  have h64 : 64 • gen = -(gen + gen + gen) := by
    rw [show 64 • gen = 32 • gen + 32 • gen by abel, h32, h3, Point.neg_some]
    exact some_add_self (l := 1169) (by decide) (by decide) (by decide) (by decide)
  refine addOrderOf_eq (by norm_num) ?_ (Point.some_ne_zero _)
  calc 67 • gen = 64 • gen + (gen + gen + gen) := by abel
    _ = 0 := by rw [h64, neg_add_cancel]

def genParams : Params :=
  (setupPoints 2 (ofPoint gen) (paramsInit 1607 67 ibeVersion)).get (by decide)

theorem setupPoints_gen :
    setupPoints 2 (ofPoint gen) (paramsInit 1607 67 ibeVersion) = some genParams :=
  (Option.some_get _).symm

theorem founded_gen : Founded 67 2 ibeVersion gen genParams :=
  ⟨by norm_num, by norm_num, by norm_num, by decide, by norm_num, by norm_num, addOrderOf_gen,
    setupPoints_gen⟩

theorem kemCondition_gen : KemCondition 1607 67 2 1 :=
  ⟨by norm_num, by norm_num, by decide, le_pow_maxBytes (by norm_num)⟩

theorem initialized_genParams : Initialized genParams ∧ genParams.p = 1607 ∧ genParams.q = 67 :=
  initialized_setupPoints (initialized_initpq _) setupPoints_gen

def genId : CString := ⟨[5, 1], by decide⟩

theorem mapsTo_genId : MapsTo id genParams (byteStringSet genId) 67 gen :=
  ⟨addOrderOf_gen, by decide +kernel⟩

theorem kemCorrect_gen : KemCorrect id (byteStringSetMpz 2) 1 [] [genId] genParams := by
  refine (kemCorrect_iff (x := 2) (r := 1) (by norm_num) (by norm_num) (by norm_num) (by decide)
    (by norm_num) (by norm_num) (by norm_num) addOrderOf_gen setupPoints_gen ?_ []).1 ?_
  · intro id' hid
    obtain rfl := List.mem_singleton.1 hid
    exact ⟨gen, mapsTo_genId⟩
  · exact kemCondition_gen

/-- The number zero, for a digest that keeps everything. -/
theorem not_kemCorrect_gen :
    setupPoints 2 (ofPoint gen) (paramsInit 1607 67 ibeVersion) = some genParams ∧
      MapsTo id genParams (byteStringSet genId) 67 gen ∧
      ¬KemCorrect id (byteStringSetMpz 2) 0 [] [genId] genParams := by
  have he := established (x := 2) (by norm_num) (by norm_num) (by decide) addOrderOf_gen
    (by norm_num) (by norm_num) (by decide) setupPoints_gen
  refine ⟨setupPoints_gen, mapsTo_genId, ?_⟩
  exact not_kemCorrect_zero (x := 2) (r := 0) (by norm_num) (by norm_num) (by norm_num) addOrderOf_gen
    (by norm_num) (by norm_num) he (by norm_num) (le_pow_maxBytes (by norm_num)) (by decide)
    (injOn_setFp2 (by norm_num)) mapsTo_genId rfl

end Main

end IdBasedEncryption.KeyEncapsulation
