import IdBasedEncryption.CyclicTorsion
import IdBasedEncryption.Nondegenerate
import IdBasedEncryption.PrimeIndex

namespace IdBasedEncryption.ModifiedPairing

open WeierstrassCurve.Affine CurveDivisors MillerFunctions MordellCurve LineReciprocity ReducedTate
open Fp2Value FieldExtension MordellGroup SolinasForm CyclicTorsion Nondegenerate PrimeIndex

variable {p : Nat} [hp : Fact p.Prime] [hp12 : Fact (p % 12 = 11)]

/-- The exponent of the final powering. -/
def finalPower (p q : Nat) : Nat := (p - 1) * ((p + 1) / q)

/-- The pairing of two points over the prime field, the second one being moved
by `(x, y) ↦ (zeta x, y)`. -/
noncomputable def pairing (q : Nat) (A S : E p) : K p :=
  open scoped Classical in
  if h : ∃ f, IsTateFunction A q f then reducedTate zeta_cube (finalPower p q) h.choose S else 1

section Laws

variable {q : Nat} (hq : q.Prime) (hq3 : 3 < q) (hqp : q ∣ p + 1)
include hqp

theorem card_points_eq_mul : Nat.card (E p) = q * ((p + 1) / q) := by
  rw [card_points, Nat.mul_div_cancel' hqp]

/-- The pairing does not depend on the choice of the Tate function. -/
theorem pairing_eq {A : E p} {f : (mordell (ZMod p)).CoordinateRing} (hf : IsTateFunction A q f)
    (S : E p) : pairing q A S = reducedTate zeta_cube (finalPower p q) f S := by
  have h : ∃ f, IsTateFunction A q f := ⟨f, hf⟩
  obtain ⟨c, hc, he⟩ := hf.unique h.choose_spec
  rw [pairing, dif_pos h, he, reducedTate, reducedTate, map_mul, mul_pow, finalPower,
    valueAt_const_pow _ (finalExponent hqp) S hc, mul_one]

@[simp] theorem pairing_zero_left (S : E p) : pairing q 0 S = 1 := by
  have h : IsTateFunction (0 : E p) q 1 := by simp [IsTateFunction, ← Ideal.one_eq_top]
  rw [pairing_eq hqp h, reducedTate, map_one, one_pow]

include hq hq3

theorem pairing_add_right {A : E p} (hA : q • A = 0) (S T : E p) :
    pairing q A (S + T) = pairing q A S * pairing q A T := by
  obtain ⟨f, hf⟩ := exists_isTateFunction hq.pos hA
  by_cases h0 : A = 0
  · simp [h0, hqp]
  · rw [pairing_eq hqp hf, pairing_eq hqp hf, pairing_eq hqp hf]
    exact (avoiding hq hq3 (addOrderOf_eq hq hA h0)).reducedTate_add zeta_cube hf
      (finalExponent hqp) S T

theorem pairing_add_left {A B : E p} (hA : q • A = 0) (hB : q • B = 0) (S : E p) :
    pairing q (A + B) S = pairing q A S * pairing q B S := by
  obtain ⟨f, hf⟩ := exists_isTateFunction hq.pos hA
  obtain ⟨g, hg⟩ := exists_isTateFunction hq.pos hB
  have hM := finalExponent (p := p) hqp
  by_cases hA0 : A = 0
  · simp [hA0, hqp]
  by_cases hB0 : B = 0
  · simp [hB0, hqp]
  have hA' := avoiding hq hq3 (addOrderOf_eq hq hA hA0)
  by_cases hAB0 : A + B = 0
  · obtain rfl := eq_neg_of_add_eq_zero_right hAB0
    rw [hAB0, pairing_zero_left hqp, pairing_eq hqp hf, pairing_eq hqp hg]
    exact (hA'.reducedTate_neg_left zeta_cube hf hM hg S).symm
  · have hAB : q • (A + B) = 0 := by rw [nsmul_add, hA, hB, add_zero]
    obtain ⟨k, hk⟩ := exists_isTateFunction hq.pos hAB
    rw [pairing_eq hqp hf, pairing_eq hqp hg, pairing_eq hqp hk]
    exact reducedTate_add_left zeta_cube hM hA' (avoiding hq hq3 (addOrderOf_eq hq hB hB0))
      (avoiding hq hq3 (addOrderOf_eq hq hAB hAB0)) hf hg hk S

omit hq3 in
theorem pairing_zero_right {A : E p} (hA : q • A = 0) : pairing q A 0 = 1 := by
  obtain ⟨f, hf⟩ := exists_isTateFunction hq.pos hA
  rw [pairing_eq hqp hf, reducedTate_zero]

theorem pairing_nsmul_right {A : E p} (hA : q • A = 0) (S : E p) (k : Nat) :
    pairing q A (k • S) = pairing q A S ^ k := by
  induction k with
  | zero => rw [zero_nsmul, pairing_zero_right hq hqp hA, pow_zero]
  | succ k ih => rw [succ_nsmul, pairing_add_right hq hq3 hqp hA, ih, pow_succ]

theorem pairing_nsmul_left {A : E p} (hA : q • A = 0) (S : E p) (k : Nat) :
    pairing q (k • A) S = pairing q A S ^ k := by
  induction k with
  | zero => rw [zero_nsmul, pairing_zero_left hqp, pow_zero]
  | succ k ih =>
      have hkA : q • (k • A) = 0 := by rw [smul_comm, hA, nsmul_zero]
      rw [succ_nsmul, pairing_add_left hq hq3 hqp hkA hA, ih, pow_succ]

theorem pairing_ne_zero {A : E p} (hA : q • A = 0) (S : E p) : pairing q A S ≠ 0 := by
  obtain ⟨f, hf⟩ := exists_isTateFunction hq.pos hA
  by_cases h0 : A = 0
  · simp [h0, hqp]
  · rw [pairing_eq hqp hf]
    exact pow_ne_zero _
      ((avoiding hq hq3 (addOrderOf_eq hq hA h0)).valueAt_ne_zero zeta_cube hf S)

theorem pairing_pow {A : E p} (hA : q • A = 0) (S : E p) : pairing q A S ^ q = 1 := by
  rw [← pairing_nsmul_left hq hq3 hqp hA, hA, pairing_zero_left hqp]

theorem exists_pairing_ne_one {A : E p} (hA : addOrderOf A = q) : ∃ S, pairing q A S ≠ 1 := by
  obtain ⟨f, hf⟩ := exists_isTateFunction hq.pos (smul_eq_zero_of_order hA)
  obtain ⟨S, hS⟩ := exists_reducedTate_ne_one hq hq3 hqp hA hf
  refine ⟨S, ?_⟩
  rw [pairing_eq hqp hf]
  exact hS

section Solinas

variable {a b : Nat} {s t : Int} (hs : IsSolinas q a b s t)
include hs

theorem pairing_symm {A B : E p} (hA : addOrderOf A = q) (hB : q • B = 0) :
    pairing q A B = pairing q B A := by
  have hA0 := smul_eq_zero_of_order hA
  obtain ⟨k, rfl⟩ := exists_nsmul_eq hq hq3 hqp hs hA hB
  rw [pairing_nsmul_right hq hq3 hqp hA0, pairing_nsmul_left hq hq3 hqp hA0]

theorem pairing_self_ne_one (hq2 : ¬q ^ 2 ∣ p + 1) {A : E p} (hA : addOrderOf A = q) :
    pairing q A A ≠ 1 := by
  have hA0 := smul_eq_zero_of_order hA
  obtain ⟨S, hS⟩ := exists_pairing_ne_one hq hq3 hqp hA
  have hmul : q * ((p + 1) / q) = p + 1 := Nat.mul_div_cancel' hqp
  have hcop : q.Coprime ((p + 1) / q) := by
    refine (Nat.Prime.coprime_iff_not_dvd hq).2 fun h => hq2 ?_
    rw [sq, ← hmul]
    exact Nat.mul_dvd_mul_left q h
  have hT : q • (((p + 1) / q) • S) = 0 := by rw [← mul_smul, hmul, smul_card]
  obtain ⟨k, hk⟩ := exists_nsmul_eq hq hq3 hqp hs hA hT
  intro hone
  have hpow : pairing q A S ^ ((p + 1) / q) = 1 := by
    rw [← pairing_nsmul_right hq hq3 hqp hA0, hk, pairing_nsmul_right hq hq3 hqp hA0, hone, one_pow]
  have h1 := pow_gcd_eq_one.2 ⟨pairing_pow hq hq3 hqp hA0 S, hpow⟩
  rw [hcop, pow_one] at h1
  exact hS h1

/-- All points of order `q` are multiples of one another, so none of their
pairings is trivial. -/
theorem pairing_ne_one (hq2 : ¬q ^ 2 ∣ p + 1) {A B : E p} (hA : addOrderOf A = q)
    (hB : addOrderOf B = q) : pairing q A B ≠ 1 := by
  have hA0 := smul_eq_zero_of_order hA
  obtain ⟨k, rfl⟩ := exists_nsmul_eq hq hq3 hqp hs hA (smul_eq_zero_of_order hB)
  have hk : k.Coprime q := by
    refine Nat.Coprime.symm ((Nat.Prime.coprime_iff_not_dvd hq).2 ?_)
    rintro ⟨c, rfl⟩
    refine ne_zero_of_order hq hB ?_
    rw [mul_comm, mul_smul, hA0, nsmul_zero]
  intro hone
  rw [pairing_nsmul_right hq hq3 hqp hA0] at hone
  have h1 := pow_gcd_eq_one.2 ⟨hone, pairing_pow hq hq3 hqp hA0 A⟩
  rw [hk, pow_one] at h1
  exact pairing_self_ne_one hq hq3 hqp hs hq2 hA h1

theorem card_torsion {A : E p} (hA : addOrderOf A = q) : Nat.card (torsion p q) = q := by
  have htors : torsion p q = AddSubgroup.zmultiples A := by
    apply le_antisymm
    · intro T hT
      obtain ⟨k, rfl⟩ := exists_nsmul_eq hq hq3 hqp hs hA hT
      exact AddSubgroup.nsmul_mem_zmultiples A k
    · rw [AddSubgroup.zmultiples_le]
      exact smul_eq_zero_of_order hA
  rw [htors, Nat.card_zmultiples, hA]

/-- When `q` divides `p + 1` twice, the points of order `q` are multiples of `q`. -/
theorem exists_eq_smul_of_sq_dvd (hq2 : q ^ 2 ∣ p + 1) {A B : E p} (hA : addOrderOf A = q)
    (hB : q • B = 0) : ∃ C : E p, B = q • C := by
  refine (nsmul_cofactor_eq_zero_iff hq (card_points_eq_mul hqp)
    (card_torsion hq hq3 hqp hs hA)).1 ?_
  obtain ⟨m, hm⟩ := hq2
  rw [hm, sq, mul_assoc, Nat.mul_div_cancel_left _ hq.pos, mul_comm, mul_smul, hB, nsmul_zero]

/-- The pairing is trivial then. -/
theorem pairing_eq_one_of_sq_dvd (hq2 : q ^ 2 ∣ p + 1) {A B : E p} (hA : addOrderOf A = q)
    (hB : q • B = 0) : pairing q A B = 1 := by
  have hA0 := smul_eq_zero_of_order hA
  obtain ⟨C, rfl⟩ := exists_eq_smul_of_sq_dvd hq hq3 hqp hs hq2 hA hB
  rw [pairing_nsmul_right hq hq3 hqp hA0, pairing_pow hq hq3 hqp hA0]

theorem pairing_eq_one_iff {A B : E p} (hA : addOrderOf A = q) (hB : addOrderOf B = q) :
    pairing q A B = 1 ↔ q ^ 2 ∣ p + 1 := by
  constructor
  · intro h
    by_contra hq2
    exact pairing_ne_one hq hq3 hqp hs hq2 hA hB h
  · intro hq2
    exact pairing_eq_one_of_sq_dvd hq hq3 hqp hs hq2 hA (smul_eq_zero_of_order hB)

end Solinas

theorem exists_pairing_eq {A : E p} (hA : addOrderOf A = q) {c : K p} (hc : c ^ q = 1) :
    ∃ S, pairing q A S = c := by
  have : Fact q.Prime := ⟨hq⟩
  have hA0 := smul_eq_zero_of_order hA
  obtain ⟨S, hS⟩ := exists_pairing_ne_one hq hq3 hqp hA
  have hroot := IsPrimitiveRoot.orderOf (pairing q A S)
  rw [orderOf_eq_prime (pairing_pow hq hq3 hqp hA0 S) hS] at hroot
  obtain ⟨k, -, hk⟩ := hroot.eq_pow_of_pow_eq_one hc
  exact ⟨k • S, by rw [pairing_nsmul_right hq hq3 hqp hA0, hk]⟩

/-- The points that pair trivially with one of order `q` are those that the
cofactor kills. -/
theorem pairing_eq_one_iff_cofactor {a b : Nat} {s t : Int} (hs : IsSolinas q a b s t) {A : E p}
    (hA : addOrderOf A = q) (T : E p) : pairing q A T = 1 ↔ ((p + 1) / q) • T = 0 := by
  have hA0 := smul_eq_zero_of_order hA
  have hmultiple (D : E p) : pairing q A (q • D) = 1 := by
    rw [pairing_nsmul_right hq hq3 hqp hA0, pairing_pow hq hq3 hqp hA0]
  rw [nsmul_cofactor_eq_zero_iff hq (card_points_eq_mul hqp) (card_torsion hq hq3 hqp hs hA)]
  constructor
  · intro hT
    by_contra! hD
    -- the pairing would be trivial on every point
    obtain ⟨S, hS⟩ := exists_pairing_ne_one hq hq3 hqp hA
    obtain ⟨k, D, rfl⟩ := exists_eq_nsmul_add hq (card_points_eq_mul hqp)
      (card_torsion hq hq3 hqp hs hA) hD S
    rw [pairing_add_right hq hq3 hqp hA0, pairing_nsmul_right hq hq3 hqp hA0, hT, one_pow,
      one_mul] at hS
    exact hS (hmultiple D)
  · rintro ⟨D, rfl⟩
    exact hmultiple D

theorem pairing_eq_one_of_two_smul {A T : E p} (hA : q • A = 0) (hT : 2 • T = 0) :
    pairing q A T = 1 := by
  have h2 : pairing q A T ^ 2 = 1 := by
    rw [← pairing_nsmul_right hq hq3 hqp hA, hT, pairing_zero_right hq hqp hA]
  have hcop : Nat.Coprime 2 q := (Nat.coprime_primes Nat.prime_two hq).2 (by omega)
  have h1 := pow_gcd_eq_one.2 ⟨h2, pairing_pow hq hq3 hqp hA T⟩
  rwa [hcop, pow_one] at h1

section Comparison

variable {a b : Nat} {s t : Int} (hs : IsSolinas q a b s t) {A B G : E p} (hG : addOrderOf G = q)
include hs hG

/-- The pairing with a generator sees a point up to what the cofactor kills. -/
theorem pairing_eq_pairing_iff :
    pairing q G A = pairing q G B ↔ ((p + 1) / q) • (A - B) = 0 := by
  have hqG := smul_eq_zero_of_order hG
  have hsplit : pairing q G A = pairing q G (A - B) * pairing q G B := by
    rw [← pairing_add_right hq hq3 hqp hqG, sub_add_cancel]
  rw [hsplit, mul_eq_right₀ (pairing_ne_zero hq hq3 hqp hqG B),
    pairing_eq_one_iff_cofactor hq hq3 hqp hs hG]

variable (hA : q • A = 0) (hB : q • B = 0)
include hA hB

/-- Of a point that `q` kills that is nothing, or everything. -/
theorem cofactor_smul_sub_eq_zero_iff :
    ((p + 1) / q) • (A - B) = 0 ↔ A = B ∨ q ^ 2 ∣ p + 1 := by
  by_cases hAB : A = B
  · simp [hAB]
  · have hdiff : q • (A - B) = 0 := by rw [nsmul_sub, hA, hB, sub_zero]
    rw [← pairing_eq_one_iff_cofactor hq hq3 hqp hs hG,
      pairing_eq_one_iff hq hq3 hqp hs hG (addOrderOf_eq hq hdiff (sub_ne_zero.2 hAB)),
      or_iff_right hAB]

/-- Pairings tell points of the order apart, unless all of them are 1. -/
theorem pairing_eq_pairing_iff_of_torsion :
    pairing q G A = pairing q G B ↔ A = B ∨ q ^ 2 ∣ p + 1 := by
  rw [pairing_eq_pairing_iff hq hq3 hqp hs hG, cofactor_smul_sub_eq_zero_iff hq hq3 hqp hs hG hA hB]

end Comparison

end Laws

end IdBasedEncryption.ModifiedPairing
