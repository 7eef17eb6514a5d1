import IdBasedEncryption.MordellGroup
import IdBasedEncryption.SolinasForm
import IdBasedEncryption.TorsionPolynomials

namespace IdBasedEncryption.CyclicTorsion

open Polynomial WeierstrassCurve.Affine MordellCurve TopCoefficient TorsionPolynomials
open Fp2Value FieldExtension MordellGroup SolinasForm

section Twist

variable {F K : Type*} [Field F] [Field K] [DecidableEq F] [DecidableEq K]

theorem slope_twist (σ : F →+* K) {u : K} (hu : u ^ 3 = 1) {x₁ y₁ x₂ y₂ : F}
    (h₁ : (mordell F).Equation x₁ y₁) (h₂ : (mordell F).Equation x₂ y₂)
    (hxy : ¬(x₁ = x₂ ∧ y₁ = (mordell F).negY x₂ y₂)) :
    (mordell K).slope (u * σ x₁) (u * σ x₂) (σ y₁) (σ y₂) =
      u ^ 2 * σ ((mordell F).slope x₁ x₂ y₁ y₂) := by
  have hu0 : u ≠ 0 := by
    rintro rfl
    simp at hu
  by_cases hx : x₁ = x₂
  · subst hx
    have hy : y₁ = y₂ := Y_eq_of_Y_ne h₁ h₂ rfl fun hy => hxy ⟨rfl, hy⟩
    subst hy
    have hne : y₁ ≠ -y₁ := fun hy => hxy ⟨rfl, by rwa [negY_eq]⟩
    have hne' : σ y₁ ≠ -σ y₁ := by
      rw [← map_neg]
      exact fun h => hne (σ.injective h)
    rw [slope_self hne, slope_self hne', map_div₀, map_mul, map_mul, map_pow, map_ofNat, map_ofNat]
    ring
  · have hx' : u * σ x₁ ≠ u * σ x₂ := fun h => hx (σ.injective (mul_left_cancel₀ hu0 h))
    have hne : σ x₁ - σ x₂ ≠ 0 := sub_ne_zero.2 fun h => hx (σ.injective h)
    rw [slope_of_ne _ _ hx, slope_of_ne _ _ hx', map_div₀, map_sub, map_sub]
    field_simp
    linear_combination -(σ y₁ - σ y₂) * hu

/-- The image of a point under `(x, y) ↦ (u x, y)` over a field extension, for a
cube root of unity `u`. -/
def twistPoint (h6 : (6 : K) ≠ 0) (σ : F →+* K) {u : K} (hu : u ^ 3 = 1) :
    (mordell F).Point → (mordell K).Point
  | .zero => .zero
  | .some x y h => .some (u * σ x) (σ y) ((MordellCurve.nonsingular_iff h6).2 (by
      rw [mul_pow, hu, one_mul, ← map_pow, MordellCurve.equation_iff.1 h.1, map_add, map_pow,
        map_one]))

theorem twistPoint_add (h6 : (6 : K) ≠ 0) (σ : F →+* K) {u : K} (hu : u ^ 3 = 1)
    (A B : (mordell F).Point) :
    twistPoint h6 σ hu (A + B) = twistPoint h6 σ hu A + twistPoint h6 σ hu B := by
  rcases A with _ | ⟨x₁, y₁, h₁⟩
  · rw [← Point.zero_def, zero_add]
    exact (zero_add _).symm
  rcases B with _ | ⟨x₂, y₂, h₂⟩
  · rw [← Point.zero_def, add_zero]
    exact (add_zero _).symm
  by_cases hxy : x₁ = x₂ ∧ y₁ = (mordell F).negY x₂ y₂
  · rw [Point.add_of_Y_eq hxy.1 hxy.2]
    refine (Point.add_of_Y_eq ?_ ?_).symm
    · rw [hxy.1]
    · rw [hxy.2, negY_eq, negY_eq, map_neg]
  · have hu0 : u ≠ 0 := by
      rintro rfl
      simp at hu
    have hxy' : ¬(u * σ x₁ = u * σ x₂ ∧ σ y₁ = (mordell K).negY (u * σ x₂) (σ y₂)) := by
      rw [negY_eq, ← map_neg, mul_right_inj' hu0, σ.injective.eq_iff, σ.injective.eq_iff]
      rwa [negY_eq] at hxy
    rw [Point.add_some hxy]
    simp only [twistPoint]
    rw [Point.add_some hxy', Point.some.injEq, slope_twist σ hu h₁.1 h₂.1 hxy]
    simp only [addX_eq, addY_eq, map_sub, map_pow, map_neg, map_add, map_mul]
    constructor
    · linear_combination (-(u * σ ((mordell F).slope x₁ x₂ y₁ y₂) ^ 2)) * hu
    · linear_combination (σ ((mordell F).slope x₁ x₂ y₁ y₂) ^ 3 * (u ^ 3 + 1) -
        σ ((mordell F).slope x₁ x₂ y₁ y₂) * (2 * σ x₁ + σ x₂)) * hu

def twist (h6 : (6 : K) ≠ 0) (σ : F →+* K) {u : K} (hu : u ^ 3 = 1) :
    (mordell F).Point →+ (mordell K).Point where
  toFun := twistPoint h6 σ hu
  map_zero' := rfl
  map_add' := twistPoint_add h6 σ hu

theorem twist_injective (h6 : (6 : K) ≠ 0) (σ : F →+* K) {u : K} (hu : u ^ 3 = 1) :
    Function.Injective (twist h6 σ hu) := by
  rw [injective_iff_map_eq_zero]
  rintro (_ | ⟨x, y, h⟩) h0
  · rfl
  · exact absurd h0 (Point.some_ne_zero _)

end Twist

section Count

variable {K : Type*} [Field K] [DecidableEq K]

/-- At most two points share a first coordinate. -/
theorem card_le_two_mul_natDegree {f : K[X]} (hf : f ≠ 0) (s : Finset (mordell K).Point)
    (hs : ∀ A ∈ s, ∃ x y h, A = .some x y h ∧ f.eval x = 0) : s.card ≤ 2 * f.natDegree := by
  let first : (mordell K).Point → K
    | .zero => 0
    | .some x _ _ => x
  have himage : (s.image first).card ≤ f.natDegree := by
    refine (Finset.card_le_card fun x hx => ?_).trans (f.roots.toFinset_card_le.trans (card_roots' f))
    obtain ⟨A, hA, rfl⟩ := Finset.mem_image.1 hx
    obtain ⟨x, y, h, rfl, he⟩ := hs A hA
    exact Multiset.mem_toFinset.2 ((mem_roots hf).2 he)
  have hfiber : ∀ x ∈ s.image first, (s.filter fun A => first A = x).card ≤ 2 := by
    intro x hx
    obtain ⟨A, hA, rfl⟩ := Finset.mem_image.1 hx
    obtain ⟨x, y, h, rfl, -⟩ := hs A hA
    refine (Finset.card_le_card fun B hB => ?_).trans (Finset.card_le_two (a := .some x y h)
      (b := -.some x y h))
    obtain ⟨hBs, hBx⟩ := Finset.mem_filter.1 hB
    obtain ⟨u, v, h', rfl, -⟩ := hs B hBs
    have hBA : Point.some u v h' = .some x y h ∨ Point.some u v h' = -.some x y h :=
      Point.X_eq_iff.1 hBx
    simpa only [Finset.mem_insert, Finset.mem_singleton] using hBA
  exact (Finset.card_le_mul_card_image s 2 hfiber).trans (Nat.mul_le_mul_left 2 himage)

end Count

/-- A finite group killed by a prime `q` is a vector space over `F_q`. -/
theorem exists_card_eq_pow {G : Type*} [AddCommGroup G] [Finite G] {q : Nat} [Fact q.Prime]
    (h : ∀ A : G, q • A = 0) : ∃ d, Nat.card G = q ^ d := by
  let _ : Module (ZMod q) G := AddCommGroup.zmodModule h
  exact ⟨Module.finrank (ZMod q) G, by
    rw [Module.natCard_eq_pow_finrank (K := ZMod q), Nat.card_zmod]⟩

section Polynomial

variable {p : Nat} [hp : Fact p.Prime] [hp12 : Fact (p % 12 = 11)]

theorem intCast_ne_zero {n : Int} (h0 : 0 < n) (hn : n < p) : (n : K p) ≠ 0 := by
  obtain ⟨k, rfl⟩ := Int.eq_ofNat_of_zero_le h0.le
  have hk := natCast_ne_zero_of_lt (p := p) (k := k) (by omega) (by omega)
  have := (map_ne_zero (algebraMap (ZMod p) (K p))).2 hk
  simpa using this

theorem six_ne_zero_K : (6 : K p) ≠ 0 := by
  have := (map_ne_zero (algebraMap (ZMod p) (K p))).2 six_ne_zero
  rwa [map_ofNat] at this

section Solinas

variable {q a b : Nat} {s t : Int} (hq : q.Prime) (hq3 : 3 < q) (hqp : q ∣ p + 1)
  (hs : IsSolinas q a b s t)
include hq hq3 hqp hs

theorem doubling_sub_ne_zero (hb : b = 0) :
    (doubling (K p) a).1 - X * (doubling (K p) a).2 ≠ 0 := by
  have hpq := twelve_mul_le hp12.out hq hq3 hqp
  obtain ⟨hlow, hhigh⟩ := hs.pow_le_of_zero hb
  obtain ⟨d, hd, hA, hB⟩ := doubling_top (K := K p) a
  have htop := hA.sub ((Top.X.mul hB).congr (Nat.add_comm 1 d) (one_mul _))
  refine htop.ne_zero ?_
  have hfactor : (1 : K p) - 4 ^ a =
      -((((2 ^ a : Nat) - 1 : Int) : K p) * (((2 ^ a : Nat) + 1 : Int) : K p)) := by
    push_cast
    rw [show (4 : K p) = 2 ^ 2 by norm_num, ← pow_mul]
    ring
  rw [hfactor]
  exact neg_ne_zero.2 (mul_ne_zero (intCast_ne_zero (by omega) (by omega))
    (intCast_ne_zero (by omega) (by omega)))

theorem solinasPolynomial_ne_zero (hb : b ≠ 0) : solinasPolynomial (K p) a b ≠ 0 := by
  have hpq := twelve_mul_le hp12.out hq hq3 hqp
  obtain ⟨hv, hu⟩ := hs.pow_le hb
  have hb2 : 2 ≤ 2 ^ b := Nat.le_self_pow hb 2
  refine (solinasPolynomial_top a b).ne_zero ?_
  have hfactor : ((1 - 4 ^ b) ^ 2 - 4 ^ a * (1 + 4 ^ b)) ^ 2 - 4 * (4 ^ a) ^ 2 * 4 ^ b =
      (((2 ^ b : Nat) - 1 : Int) : K p) ^ 2 * (((2 ^ b : Nat) + 1 : Int) : K p) ^ 2 *
        ((((2 ^ a : Nat) - (2 ^ b : Nat) - 1 : Int) : K p) *
          (((2 ^ a : Nat) + (2 ^ b : Nat) + 1 : Int) : K p) *
          (((2 ^ a : Nat) + (2 ^ b : Nat) - 1 : Int) : K p) *
          (((2 ^ a : Nat) - (2 ^ b : Nat) + 1 : Int) : K p)) := by
    push_cast
    rw [show (4 : K p) = 2 ^ 2 by norm_num, ← pow_mul, ← pow_mul, mul_comm 2 a, mul_comm 2 b,
      pow_mul, pow_mul]
    ring
  have hne {n : Int} (h0 : 0 < n) (hn : n < p) := intCast_ne_zero (p := p) h0 hn
  rw [hfactor]
  exact mul_ne_zero (mul_ne_zero (pow_ne_zero 2 (hne (by omega) (by omega)))
    (pow_ne_zero 2 (hne (by omega) (by omega))))
    (mul_ne_zero (mul_ne_zero (mul_ne_zero (hne (by omega) (by omega)) (hne (by omega) (by omega)))
      (hne (by omega) (by omega))) (hne (by omega) (by omega)))

omit hqp hs in
theorem two_pow_smul_ne_zero {x y : K p} {h : (mordell (K p)).Nonsingular x y}
    (h0 : q • Point.some x y h = 0) (k : Nat) : 2 ^ k • Point.some x y h ≠ 0 := by
  have : Fact q.Prime := ⟨hq⟩
  exact coprime_order_ne_zero (Nat.Coprime.pow_right k ((Nat.coprime_primes hq Nat.prime_two).2
    (by omega))) hq.one_lt.ne' (addOrderOf_eq_prime h0 (Point.some_ne_zero h))

/-- A polynomial of small degree whose roots include the first coordinates of
all points of order `q`. -/
theorem exists_torsion_polynomial :
    ∃ f : (K p)[X], f ≠ 0 ∧ 2 * f.natDegree + 1 < q ^ 4 ∧
      ∀ x y (h : (mordell (K p)).Nonsingular x y), q • Point.some x y h = 0 → f.eval x = 0 := by
  have h2 : (2 : K p) ≠ 0 := two_ne_zero_of_six six_ne_zero_K
  have hq4 : q ≠ 4 := by
    rintro rfl
    exact absurd hq (by decide)
  have hzsmul {x y : K p} {h : (mordell (K p)).Nonsingular x y} (h0 : q • Point.some x y h = 0) :
      (2 ^ a + s * 2 ^ b + t : Int) • Point.some x y h = 0 := by
    rw [← hs.eq, natCast_zsmul, h0]
  by_cases hb : b = 0
  · refine ⟨_, doubling_sub_ne_zero hq hq3 hqp hs hb, ?_, fun x y h h0 => ?_⟩
    · obtain ⟨d, hd, hA, hB⟩ := doubling_top (K := K p) a
      have hdeg := (hA.sub ((Top.X.mul hB).congr (Nat.add_comm 1 d) (one_mul _))).natDegree_le
      have hlt := hs.degree_lt_of_zero hb (by omega)
      omega
    · obtain ⟨u, v, hu, hP, -, he⟩ := doubling_eval h2 (two_pow_smul_ne_zero hq hq3 h0) a
      have hux : u = x := by
        obtain ⟨-, rfl⟩ := hs.middle.resolve_right fun h => by omega
        have hsplit : t • Point.some x y h = -Point.some u v hu := by
          rw [← hP, eq_neg_iff_add_eq_zero, ← hzsmul h0, ← natCast_zsmul, ← add_zsmul]
          congr 1
          push_cast
          ring
        rcases hs.last with rfl | rfl <;>
          simp only [one_smul, neg_smul, Point.neg_some, Point.some.injEq] at hsplit <;>
          exact hsplit.1.symm
      rw [eval_sub, eval_mul, eval_X, ← he, hux, sub_self]
  · obtain ⟨-, -, hsign⟩ := hs.middle.resolve_left fun h => hb h.1
    refine ⟨_, solinasPolynomial_ne_zero hq hq3 hqp hs hb, ?_, fun x y h h0 =>
      solinasPolynomial_eval h2 (two_pow_smul_ne_zero hq hq3 h0) hsign hs.last (hzsmul h0)⟩
    have hdeg := (solinasPolynomial_top (K := K p) a b).natDegree_le
    have hlt := hs.degree_lt hb (by omega)
    omega

def torsion (p q : Nat) [Fact p.Prime] : AddSubgroup (E p) := (nsmulAddMonoidHom q).ker

omit hp12 hq hq3 hqp hs in
@[simp] theorem mem_torsion {A : E p} : A ∈ torsion p q ↔ q • A = 0 := Iff.rfl

/-- The sum of a point and the image of another under `(x, y) ↦ (zeta x, y)`. -/
noncomputable def twistedSum (S T : E p) : (mordell (K p)).Point :=
  twist six_ne_zero_K (algebraMap (ZMod p) (K p)) (one_pow 3) S +
    twist six_ne_zero_K (algebraMap (ZMod p) (K p)) zeta_cube T

omit hq hq3 hqp hs in
theorem twistedSum_sub (S T S' T' : E p) :
    twistedSum (S - S') (T - T') = twistedSum S T - twistedSum S' T' := by
  simp only [twistedSum, map_sub]
  abel

omit hqp hs in
theorem eq_zero_of_twistedSum_eq_zero {S T : E p} (hT : q • T = 0) (h : twistedSum S T = 0) :
    S = 0 ∧ T = 0 := by
  have : Fact q.Prime := ⟨hq⟩
  have hneg := eq_neg_of_add_eq_zero_left h
  rw [← map_neg] at hneg
  cases hT' : -T with
  | zero =>
      have hT0 : T = 0 := neg_eq_zero.1 hT'
      refine ⟨twist_injective six_ne_zero_K (algebraMap (ZMod p) (K p)) (one_pow 3) ?_, hT0⟩
      rw [hneg, hT', map_zero]
      rfl
  | some x y hxy =>
      have ho : addOrderOf (Point.some x y hxy) = q := by
        refine addOrderOf_eq_prime ?_ (Point.some_ne_zero hxy)
        rw [← hT', neg_nsmul, hT, neg_zero]
      rw [hT'] at hneg
      cases S with
      | zero => exact absurd hneg.symm (Point.some_ne_zero _)
      | some u v huv =>
          have hx := (Point.some.inj hneg).1
          rw [one_mul] at hx
          have hu : u ≠ 0 := by
            rintro rfl
            rw [map_zero, eq_comm, mul_eq_zero, map_eq_zero] at hx
            refine hx.elim (fun hz => ?_) (x_ne_zero hq hq3 ho)
            have hcube := zeta_cube (p := p)
            rw [hz] at hcube
            simp at hcube
          exact absurd hx.symm (zeta_mul_ne hu)

theorem card_torsion_sq_lt : Nat.card (torsion p q) ^ 2 < q ^ 4 := by
  classical
  obtain ⟨f, hf, hdeg, hroot⟩ := exists_torsion_polynomial hq hq3 hqp hs
  have := Fintype.ofFinite (torsion p q)
  let sums : Finset (mordell (K p)).Point :=
    (Finset.univ : Finset (torsion p q × torsion p q)).image fun A => twistedSum A.1.1 A.2.1
  have hcard : sums.card = Nat.card (torsion p q) ^ 2 := by
    rw [Finset.card_image_of_injective, Finset.card_univ, Fintype.card_prod,
      Nat.card_eq_fintype_card, sq]
    rintro ⟨⟨S, hS⟩, T, hT⟩ ⟨⟨S', hS'⟩, T', hT'⟩ he
    have h0 : twistedSum (S - S') (T - T') = 0 := by
      rw [twistedSum_sub]
      exact sub_eq_zero.2 he
    have hTT : q • (T - T') = 0 := (torsion p q).sub_mem hT hT'
    obtain ⟨h₁, h₂⟩ := eq_zero_of_twistedSum_eq_zero hq hq3 hTT h0
    exact Prod.ext (Subtype.ext (sub_eq_zero.1 h₁)) (Subtype.ext (sub_eq_zero.1 h₂))
  have hle := card_le_two_mul_natDegree hf (sums.erase 0) fun A hA => by
    obtain ⟨hA0, hA⟩ := Finset.mem_erase.1 hA
    obtain ⟨⟨⟨S, hS⟩, T, hT⟩, -, rfl⟩ := Finset.mem_image.1 hA
    have htors : q • twistedSum S T = 0 := by
      rw [twistedSum, nsmul_add, ← map_nsmul, ← map_nsmul, mem_torsion.1 hS, mem_torsion.1 hT,
        map_zero, map_zero, add_zero]
    cases hST : twistedSum S T with
    | zero => exact absurd hST hA0
    | some x y h => exact ⟨x, y, h, rfl, hroot x y h (hST ▸ htors)⟩
  have herase := Finset.pred_card_le_card_erase (s := sums) (a := 0)
  omega

theorem exists_nsmul_eq {A B : E p} (hA : addOrderOf A = q) (hB : q • B = 0) :
    ∃ k : Nat, B = k • A := by
  have : Fact q.Prime := ⟨hq⟩
  obtain ⟨d, hpow⟩ := exists_card_eq_pow (q := q) (G := torsion p q) fun S =>
    Subtype.ext (mem_torsion.1 S.2)
  have hlt := card_torsion_sq_lt hq hq3 hqp hs
  rw [hpow, ← pow_mul] at hlt
  have hone := (Nat.pow_lt_pow_iff_right hq.one_lt).1 hlt
  have hle : AddSubgroup.zmultiples A ≤ torsion p q := by
    rw [AddSubgroup.zmultiples_le, mem_torsion, ← hA]
    exact addOrderOf_nsmul_eq_zero A
  have heq : AddSubgroup.zmultiples A = torsion p q := by
    apply AddSubgroup.eq_of_le_of_card_ge hle
    rw [Nat.card_zmultiples, hA, hpow]
    exact (Nat.pow_le_pow_right hq.pos (by omega)).trans_eq (pow_one q)
  have hmem : B ∈ AddSubgroup.zmultiples A := heq ▸ hB
  obtain ⟨k, hk⟩ := mem_multiples_iff_mem_zmultiples.2 hmem
  exact ⟨k, hk.symm⟩

end Solinas

end Polynomial

end IdBasedEncryption.CyclicTorsion
