import IdBasedEncryption.IbeLib
import IdBasedEncryption.PairingValues

namespace IdBasedEncryption.PairingLaws

open WeierstrassCurve.Affine MordellCurve Gmp Fp2Arith Fp2Value FieldExtension MordellGroup
open SolinasForm CurvePoints TatePairing PointValues MillerLines ModifiedPairing MillerLoops
open MillerCaches PairingValues IbeLib

/-- The pairing that the library computes of two points over `F_p`. -/
def modifiedPairing (P Q : Point) (params : Params) : Fp2 :=
  tatePairing P (pointPhi Q Q params) params.curve

/-- Parameters for the primes `p` and `q` of which `q` has a decomposition. -/
structure Suits (params : Params) (p q : Nat) : Prop where
  p_eq : params.p = p
  q_eq : params.q = q
  p1onq_eq : params.p1onq = ((p + 1) / q : Nat)
  zeta_eq : params.zeta = fp2SetCbrtUnity p
  curve : SolinasCurve p q params.curve

theorem suits_of_initialized {p q : Nat} (hq : q.Prime) (hq3 : 3 < q) {params : Params}
    (hi : Initialized params) (hp : params.p = p) (hpq : params.q = q)
    (hsol : (curveInit p q).solinasa ≠ 0) : Suits params p q where
  p_eq := hp
  q_eq := hpq
  p1onq_eq := by simp [hi.p1onq_eq, hp, hpq]
  zeta_eq := by rw [hi.zeta_eq, hp]
  curve := by
    have h := solinasCurve_curveInit hq hq3 hsol
    rw [hi.curve_eq, hp, hpq]
    exact ⟨h.p_eq, h.p1onq_eq, h.form⟩

variable {p : Nat} [hp : Fact p.Prime] [hp12 : Fact (p % 12 = 11)] {q : Nat} {params : Params}

section Phi

omit hp12 in
theorem isPhi_pointPhi (hp : params.p = p) (hz : params.zeta = fp2SetCbrtUnity p) {x y : ZMod p}
    (h : (mordell (ZMod p)).Nonsingular x y) :
    IsPhi (pointPhi (ofPoint (.some x y h)) (ofPoint (.some x y h)) params) x y where
  finite := rfl
  x := by
    have hx := (represents_some h).val_x
    rw [pointPhi, hp, hz, val_fp2Mul, hx, mul_comm, zeta]
  y := (represents_some h).val_y

theorem val_pointPhi_ne_zero (hq : q.Prime) (hq3 : 3 < q) (hp : params.p = p)
    (hz : params.zeta = fp2SetCbrtUnity p) {B : E p} (hB : addOrderOf B = q) :
    val p (pointPhi (ofPoint B) (ofPoint B) params).x ≠ 0 ∧
      val p (pointPhi (ofPoint B) (ofPoint B) params).y ≠ 0 := by
  have hinj (c : ZMod p) (hc : c ≠ 0) : algebraMap (ZMod p) (K p) c ≠ 0 := by
    rwa [map_ne_zero_iff _ (algebraMap (ZMod p) (K p)).injective]
  cases B with
  | zero => exact absurd rfl (ne_zero_of_order hq hB)
  | some x y h =>
      have hphi := isPhi_pointPhi hp hz h
      rw [hphi.x, hphi.y]
      exact ⟨mul_ne_zero zeta_ne_zero (hinj x (x_ne_zero hq hq3 hB)), hinj y (y_ne_zero hq hq3 hB)⟩

end Phi

section Laws

variable (hq : q.Prime) (hq3 : 3 < q) (hqp : q ∣ p + 1) (hs : Suits params p q)
include hq hq3 hqp hs

omit hp12 hq hq3 hqp in
theorem reduced_modifiedPairing (P Q : Point) : Reduced p (modifiedPairing P Q params) :=
  reduced_tatePairing hs.curve ..

theorem val_modifiedPairing {A B : E p} (hA : q • A = 0) (hA0 : A ≠ 0) (hB0 : B ≠ 0) :
    val p (modifiedPairing (ofPoint A) (ofPoint B) params) = pairing q A B := by
  cases B with
  | zero => exact absurd rfl hB0
  | some x y h =>
      exact val_tatePairing hq hq3 hqp hs.curve hA (isPhi_pointPhi hs.p_eq hs.zeta_eq h) h hA0

variable {A B C : E p} (hA : q • A = 0) (hA0 : A ≠ 0) (hB : q • B = 0) (hB0 : B ≠ 0)
include hA hA0 hB0

theorem modifiedPairing_add_right (hC0 : C ≠ 0) (hBC : B + C ≠ 0) :
    modifiedPairing (ofPoint A) (ofPoint (B + C)) params =
      fp2Mul (modifiedPairing (ofPoint A) (ofPoint B) params)
        (modifiedPairing (ofPoint A) (ofPoint C) params) p := by
  apply eq_of_val_eq (reduced_modifiedPairing hs _ _) (reduced_fp2Mul pos _ _)
  rw [val_fp2Mul, val_modifiedPairing hq hq3 hqp hs hA hA0 hBC,
    val_modifiedPairing hq hq3 hqp hs hA hA0 hB0, val_modifiedPairing hq hq3 hqp hs hA hA0 hC0,
    pairing_add_right hq hq3 hqp hA]

theorem modifiedPairing_pow :
    fp2Pow (modifiedPairing (ofPoint A) (ofPoint B) params) q p = fp2Set1 := by
  have h1 : (1 : Int) < p := by exact_mod_cast hp.out.one_lt
  have hone : Reduced (p : Int) fp2Set1 := ⟨zero_le_one, h1, le_rfl, pos⟩
  apply eq_of_val_eq (reduced_fp2Pow pos h1 _ _) hone
  rw [val_fp2Pow, val_modifiedPairing hq hq3 hqp hs hA hA0 hB0, pairing_pow hq hq3 hqp hA,
    val_fp2Set1]

include hB

theorem modifiedPairing_add_left (hC0 : C ≠ 0) (hAB : A + B ≠ 0) :
    modifiedPairing (ofPoint (A + B)) (ofPoint C) params =
      fp2Mul (modifiedPairing (ofPoint A) (ofPoint C) params)
        (modifiedPairing (ofPoint B) (ofPoint C) params) p := by
  have hsum : q • (A + B) = 0 := by rw [nsmul_add, hA, hB, add_zero]
  apply eq_of_val_eq (reduced_modifiedPairing hs _ _) (reduced_fp2Mul pos _ _)
  rw [val_fp2Mul, val_modifiedPairing hq hq3 hqp hs hsum hAB hC0,
    val_modifiedPairing hq hq3 hqp hs hA hA0 hC0, val_modifiedPairing hq hq3 hqp hs hB hB0 hC0,
    pairing_add_left hq hq3 hqp hA hB]

theorem modifiedPairing_symm :
    modifiedPairing (ofPoint A) (ofPoint B) params = modifiedPairing (ofPoint B) (ofPoint A) params := by
  apply eq_of_val_eq (reduced_modifiedPairing hs _ _) (reduced_modifiedPairing hs _ _)
  rw [val_modifiedPairing hq hq3 hqp hs hA hA0 hB0, val_modifiedPairing hq hq3 hqp hs hB hB0 hA0]
  exact pairing_symm hq hq3 hqp hs.curve.form (addOrderOf_eq hq hA hA0) hB

omit hB hB0

theorem modifiedPairing_self_ne_one (hq2 : ¬q ^ 2 ∣ p + 1) :
    modifiedPairing (ofPoint A) (ofPoint A) params ≠ fp2Set1 := by
  intro h
  have hval := congrArg (val p) h
  rw [val_modifiedPairing hq hq3 hqp hs hA hA0 hA0, val_fp2Set1] at hval
  exact pairing_self_ne_one hq hq3 hqp hs.curve.form hq2 (addOrderOf_eq hq hA hA0) hval

end Laws

section Main

/-- The laws of the pairing for every prime `q` that `curve_init` decomposes. -/
theorem modifiedPairing_laws (params : Params) (hi : Initialized params) (hq : q.Prime) (hq3 : 3 < q)
    (hqp : q ∣ p + 1) (hp : params.p = p) (hpq : params.q = q) (hsol : (curveInit p q).solinasa ≠ 0) {A B C : E p}
    (hA : addOrderOf A = q) (hB : addOrderOf B = q) (hC : addOrderOf C = q) (hAB : A + B ≠ 0) :
    let e P Q := modifiedPairing P Q params
    let S := pointAdd (ofPoint A) (ofPoint B) p
    e S (ofPoint C) = fp2Mul (e (ofPoint A) (ofPoint C)) (e (ofPoint B) (ofPoint C)) p ∧
    e (ofPoint C) S = fp2Mul (e (ofPoint C) (ofPoint A)) (e (ofPoint C) (ofPoint B)) p ∧
    e (ofPoint A) (ofPoint C) = e (ofPoint C) (ofPoint A) ∧
    fp2Pow (e (ofPoint A) (ofPoint C)) q p = fp2Set1 ∧
    (¬q ^ 2 ∣ p + 1 → e (ofPoint A) (ofPoint A) ≠ fp2Set1) := by
  have hs := suits_of_initialized hq hq3 hi hp hpq hsol
  have hA0 := ne_zero_of_order hq hA
  have hB0 := ne_zero_of_order hq hB
  have hC0 := ne_zero_of_order hq hC
  have hqA := smul_eq_zero_of_order hA
  have hqB := smul_eq_zero_of_order hB
  have hqC := smul_eq_zero_of_order hC
  intro e S
  have hS : S = ofPoint (A + B) := pointAdd_ofPoint hA0 hB0 hAB
  rw [hS]
  exact ⟨modifiedPairing_add_left hq hq3 hqp hs hqA hA0 hqB hB0 hC0 hAB,
    modifiedPairing_add_right hq hq3 hqp hs hqC hC0 hA0 hB0 hAB,
    modifiedPairing_symm hq hq3 hqp hs hqA hA0 hqC hC0,
    modifiedPairing_pow hq hq3 hqp hs hqA hA0 hC0,
    modifiedPairing_self_ne_one hq hq3 hqp hs hqA hA0⟩

instance fact_prime_59 : Fact (Nat.Prime 59) := ⟨by norm_num⟩

instance fact_mod_59 : Fact (59 % 12 = 11) := ⟨rfl⟩

def fifth : E 59 := .some 18 13 ((MordellCurve.nonsingular_iff six_ne_zero).2 (by decide))

theorem addOrderOf_fifth : addOrderOf fifth = 5 := by
  have h2 : fifth + fifth = .some 28 8 ((MordellCurve.nonsingular_iff six_ne_zero).2 (by decide)) :=
    some_add_self (l := 51) (by decide) (by decide) (by decide) (by decide)
  have h4 : fifth + fifth + (fifth + fifth) = -fifth := by
    rw [h2, fifth, Point.neg_some]
    exact some_add_self (l := 29) (by decide) (by decide) (by decide) (by decide)
  refine addOrderOf_eq (by norm_num) ?_ (Point.some_ne_zero _)
  calc 5 • fifth = fifth + fifth + (fifth + fifth) + fifth := by abel
    _ = 0 := by rw [h4, neg_add_cancel]

theorem modifiedPairing_laws_fifth :
    let e P Q := modifiedPairing P Q (paramsInit 59 5 ibeVersion)
    let A := ofPoint fifth
    e (pointAdd A A 59) A = fp2Mul (e A A) (e A A) 59 ∧ e A A ≠ fp2Set1 := by
  have h := addOrderOf_fifth
  have hne : fifth + fifth ≠ 0 := by
    rw [← two_nsmul]
    exact coprime_order_ne_zero (by norm_num) (by norm_num) h
  obtain ⟨hadd, -, -, -, hself⟩ := modifiedPairing_laws (p := 59) (q := 5)
    (paramsInit 59 5 ibeVersion) (initialized_initpq _) (by norm_num) (by norm_num) (by norm_num) rfl
    rfl (by decide) h h h hne
  exact ⟨hadd, hself (by norm_num)⟩

end Main

end IdBasedEncryption.PairingLaws
