import IdBasedEncryption.MordellGroup

namespace IdBasedEncryption.Nondegenerate

open Polynomial WeierstrassCurve.Affine WeierstrassCurve.Affine.CoordinateRing CurveDivisors
open MillerFunctions MordellCurve LineReciprocity ReducedTate Fp2Value FieldExtension MordellGroup
open scoped Polynomial.Bivariate

section Weight

variable {F : Type*} [Field F]

/-- The function `a + b y` has a pole of order at most `m` at infinity. -/
structure WeightLE (a b : F[X]) (m : Nat) : Prop where
  fst : 2 * a.natDegree ≤ m
  snd : b = 0 ∨ 2 * b.natDegree + 3 ≤ m

theorem WeightLE.one : WeightLE (1 : F[X]) 0 0 := ⟨by simp, .inl rfl⟩

theorem natDegree_mul_snd_le {a b : F[X]} {m n : Nat} (ha : 2 * a.natDegree ≤ m)
    (hb : b = 0 ∨ 2 * b.natDegree + 3 ≤ n) : a * b = 0 ∨ 2 * (a * b).natDegree + 3 ≤ m + n := by
  rcases hb with rfl | hb
  · exact .inl (mul_zero a)
  · have := natDegree_mul_le (p := a) (q := b)
    right
    omega

theorem snd_add {b c : F[X]} {m : Nat} (hb : b = 0 ∨ 2 * b.natDegree + 3 ≤ m)
    (hc : c = 0 ∨ 2 * c.natDegree + 3 ≤ m) : b + c = 0 ∨ 2 * (b + c).natDegree + 3 ≤ m := by
  rcases hb with rfl | hb
  · rwa [zero_add]
  · rcases hc with rfl | hc
    · rw [add_zero]
      exact .inr hb
    · have := natDegree_add_le b c
      right
      omega

theorem WeightLE.mul {a b c d : F[X]} {m n : Nat} (h : WeightLE a b m) (h' : WeightLE c d n) :
    WeightLE (a * c + b * d * (X ^ 3 + 1)) (a * d + c * b) (m + n) := by
  constructor
  · have hac := natDegree_mul_le (p := a) (q := c)
    have h₁ := h.fst
    have h₂ := h'.fst
    have hbd : 2 * (b * d * (X ^ 3 + 1)).natDegree ≤ m + n := by
      rcases h.snd with rfl | hb
      · simp
      · rcases h'.snd with rfl | hd
        · simp
        · have h₃ := natDegree_mul_le (p := b * d) (q := X ^ 3 + 1)
          have h₄ := natDegree_mul_le (p := b) (q := d)
          have h₅ : (X ^ 3 + 1 : F[X]).natDegree = 3 := by compute_degree!
          omega
    have := natDegree_add_le (a * c) (b * d * (X ^ 3 + 1))
    omega
  · have h₁ := natDegree_mul_snd_le h.fst h'.snd
    have h₂ := natDegree_mul_snd_le h'.fst h.snd
    rw [add_comm n m] at h₂
    exact snd_add h₁ h₂

/-- Powers of `a + b y` on the curve are again of that form. -/
theorem WeightLE.exists_pow {a b : F[X]} {m : Nat} (h : WeightLE a b m) (N : Nat) :
    ∃ c d : F[X], WeightLE c d (m * N) ∧ ∀ x y : F, y ^ 2 = x ^ 3 + 1 →
      (a.eval x + b.eval x * y) ^ N = c.eval x + d.eval x * y := by
  induction N with
  | zero => exact ⟨1, 0, WeightLE.one, fun x y _ => by simp⟩
  | succ N ih =>
      obtain ⟨c, d, hcd, heval⟩ := ih
      refine ⟨_, _, hcd.mul h, fun x y hxy => ?_⟩
      rw [pow_succ, heval x y hxy]
      simp only [eval_add, eval_mul, eval_pow, eval_X, eval_one]
      linear_combination (d.eval x * b.eval x) * hxy

end Weight

section Norm

variable {F K : Type*} [Field F] [Field K] [Algebra F K] {W : WeierstrassCurve.Affine F}

theorem natDegree_norm_vertical {x y : F} (h : W.Nonsingular x y) (n : Nat) :
    (Algebra.norm F[X] (vertical (Point.some x y h) ^ n)).natDegree = 2 * n := by
  have hv : vertical (Point.some x y h) = algebraMap F[X] W.CoordinateRing (X - C x) := rfl
  rw [hv, ← map_pow, Algebra.norm_algebraMap_of_basis (CoordinateRing.basis W), Fintype.card_fin,
    ← pow_mul, natDegree_pow, natDegree_X_sub_C]
  ring

theorem norm_ne_zero {f : W.CoordinateRing} (hf : f ≠ 0) : Algebra.norm F[X] f ≠ 0 :=
  (Algebra.norm_ne_zero_iff_of_basis (CoordinateRing.basis W)).2 hf

theorem weightLE_of_natDegree_norm {a b : F[X]} {m : Nat}
    (h : (Algebra.norm F[X] (a • (1 : W.CoordinateRing) + b • mk W Y)).natDegree ≤ m) :
    WeightLE a b m := by
  have hdeg : (Algebra.norm F[X] (a • (1 : W.CoordinateRing) + b • mk W Y)).degree = _ :=
    degree_norm_smul_basis a b
  have hm : (Algebra.norm F[X] (a • (1 : W.CoordinateRing) + b • mk W Y)).degree ≤ m :=
    degree_le_of_natDegree_le h
  rw [hdeg, max_le_iff] at hm
  constructor
  · by_cases ha : a = 0
    · simp [ha]
    · have h₁ := hm.1
      rw [degree_eq_natDegree ha, nsmul_eq_mul] at h₁
      exact_mod_cast h₁
  · by_cases hb : b = 0
    · exact .inl hb
    · right
      have h₂ := hm.2
      rw [degree_eq_natDegree hb, nsmul_eq_mul] at h₂
      exact_mod_cast h₂

end Norm

section TateFunction

variable {F K : Type*} [Field F] [Field K] [Algebra F K]

/-- Of the Tate functions of a point and of its negative one has a pole of
order at most `n`. -/
theorem exists_weightLE {x y : F} {h : (mordell F).Nonsingular x y} {n : Nat}
    {f g : (mordell F).CoordinateRing} (hf : IsTateFunction (.some x y h) n f)
    (hg : IsTateFunction (-.some x y h) n g) :
    (∃ a b : F[X], f = a • 1 + b • mk (mordell F) Y ∧ WeightLE a b n) ∨
      ∃ a b : F[X], g = a • 1 + b • mk (mordell F) Y ∧ WeightLE a b n := by
  obtain ⟨u, hu⟩ := Ideal.span_singleton_eq_span_singleton.1 (hf.span_mul_neg hg)
  have hfg : f * g ≠ 0 := by
    intro h0
    rw [h0, zero_mul] at hu
    exact pow_ne_zero n (vertical_ne_zero (W := mordell F) (.some x y h)) hu.symm
  have hunit : (Algebra.norm F[X] (u : (mordell F).CoordinateRing)).natDegree = 0 :=
    natDegree_eq_zero_of_isUnit (u.isUnit.map (Algebra.norm F[X]))
  have hnorm := congrArg (fun r => (Algebra.norm F[X] r).natDegree) hu
  simp only [map_mul, natDegree_norm_vertical] at hnorm
  rw [natDegree_mul (mul_ne_zero (norm_ne_zero (left_ne_zero_of_mul hfg))
    (norm_ne_zero (right_ne_zero_of_mul hfg))) (norm_ne_zero u.ne_zero),
    natDegree_mul (norm_ne_zero (left_ne_zero_of_mul hfg))
    (norm_ne_zero (right_ne_zero_of_mul hfg)), hunit] at hnorm
  obtain ⟨a, b, rfl⟩ := exists_smul_basis_eq f
  obtain ⟨c, d, rfl⟩ := exists_smul_basis_eq g
  rcases le_total (Algebra.norm F[X] (a • (1 : (mordell F).CoordinateRing) + b • mk _ Y)).natDegree n
    with hle | hle
  · exact .inl ⟨a, b, rfl, weightLE_of_natDegree_norm hle⟩
  · exact .inr ⟨c, d, rfl, weightLE_of_natDegree_norm (W := mordell F) (by omega)⟩

theorem evalPhi_basis {z : K} (hz : z ^ 3 = 1) {x y : F} (h : (mordell F).Equation x y)
    (a b : F[X]) : evalPhi hz h (a • 1 + b • mk (mordell F) Y) =
      (a.map (algebraMap F K)).eval (z * algebraMap F K x) +
        (b.map (algebraMap F K)).eval (z * algebraMap F K x) * algebraMap F K y := by
  rw [evalPhi, map_add, CoordinateRing.smul, CoordinateRing.smul, mul_one, map_mul, evalAt_mk,
    evalAt_mk, evalAt_mk]
  simp [eval_map]

theorem valueAt_self {P : (mordell F).Point} (hP : P ≠ 0) {n : Nat} (hn : 0 < n)
    {f : (mordell F).CoordinateRing} (hf : IsTateFunction P n f) :
    valueAt (one_pow 3 : (1 : K) ^ 3 = 1) P f = 0 := by
  rcases P with _ | ⟨x, y, h⟩
  · exact absurd rfl hP
  have hle : pointIdeal (.some x y h) ≤ RingHom.ker (evalPhi (one_pow 3 : (1 : K) ^ 3 = 1) h.1) := by
    rw [pointIdeal_some, XYIdeal, Ideal.span_le]
    rintro r (rfl | rfl)
    · simp
    · rw [SetLike.mem_coe, RingHom.mem_ker, YClass, evalPhi, evalAt_mk]
      simp
  have hmem : f ∈ pointIdeal (.some x y h) := by
    have hf' : f ∈ pointIdeal (.some x y h) ^ n := hf ▸ Ideal.mem_span_singleton_self f
    exact Ideal.pow_le_self hn.ne' hf'
  exact hle hmem

end TateFunction

section Roots

variable {p : Nat} [hp : Fact p.Prime] [hp12 : Fact (p % 12 = 11)]

/-- First coordinates of points, indexed by half of the second coordinates. -/
noncomputable def root (p : Nat) (k : Nat) : K p :=
  algebraMap (ZMod p) (K p) (((k : ZMod p) ^ 2 - 1) ^ ((2 * p - 1) / 3))

theorem root_injOn {j k : Nat} (hj : 2 * j < p) (hk : 2 * k < p) (h : root p j = root p k) :
    j = k := by
  have hsq : (j : ZMod p) ^ 2 = (k : ZMod p) ^ 2 := by
    have h' := (algebraMap (ZMod p) (K p)).injective h
    have h'' := congrArg (· ^ 3) h'
    simp only [pow_cube] at h''
    linear_combination h''
  rcases sq_eq_sq_iff_eq_or_eq_neg.1 hsq with h | h
  · have h' := (ZMod.natCast_eq_natCast_iff' j k p).1 h
    rwa [Nat.mod_eq_of_lt (by omega), Nat.mod_eq_of_lt (by omega)] at h'
  · have hz : ((j + k : Nat) : ZMod p) = 0 := by push_cast; rw [h]; ring
    by_contra hne
    exact natCast_ne_zero_of_lt (p := p) (k := j + k) (by omega) (by omega) hz

theorem eval_root_eq_zero {a b : (K p)[X]}
    (h : ∀ x y : ZMod p, y ^ 2 = x ^ 3 + 1 →
      a.eval (algebraMap _ _ x) + b.eval (algebraMap _ _ x) * algebraMap (ZMod p) (K p) y = 0)
    (k : Nat) :
    a.eval (root p k) = 0 ∧ b.eval (root p k) * algebraMap (ZMod p) (K p) (k : ZMod p) = 0 := by
  have hk : (k : ZMod p) ^ 2 = (((k : ZMod p) ^ 2 - 1) ^ ((2 * p - 1) / 3)) ^ 3 + 1 := by
    rw [pow_cube]
    ring
  have hpos := h _ _ hk
  have hneg := h _ (-k) (by rw [neg_sq]; exact hk)
  rw [map_neg] at hneg
  have h2 : (2 : K p) ≠ 0 := by
    have := (map_ne_zero (algebraMap (ZMod p) (K p))).2 two_ne_zero'
    rwa [map_ofNat] at this
  have hsum : 2 * a.eval (root p k) = 0 := by
    rw [root]
    linear_combination hpos + hneg
  have ha := (mul_eq_zero.1 hsum).resolve_left h2
  refine ⟨ha, ?_⟩
  rw [root] at ha ⊢
  linear_combination hpos - ha

/-- A function `a + b y` with a pole of order at most `p + 1` that vanishes at
all points over the prime field is zero, if the leading term of `a` is missing. -/
theorem eq_zero_of_vanishing {a b : (K p)[X]} (hab : WeightLE a b (p + 1))
    (hlead : a.coeff ((p + 1) / 2) = 0)
    (h : ∀ x y : ZMod p, y ^ 2 = x ^ 3 + 1 →
      a.eval (algebraMap _ _ x) + b.eval (algebraMap _ _ x) * algebraMap (ZMod p) (K p) y = 0) :
    a = 0 ∧ b = 0 := by
  have h12 := hp12.out
  constructor
  · refine eq_zero_of_natDegree_lt_card_of_eval_eq_zero a (f := fun i : Fin ((p + 1) / 2) => root p i)
      (fun i j hij => Fin.ext (root_injOn (by omega) (by omega) hij))
      (fun i => (eval_root_eq_zero h i).1) ?_
    rw [Fintype.card_fin]
    have hle := hab.fst
    by_contra hlt
    have hdeg : a.natDegree = (p + 1) / 2 := by omega
    rw [← hdeg, coeff_natDegree, leadingCoeff_eq_zero] at hlead
    rw [hlead, natDegree_zero] at hdeg
    omega
  · rcases hab.snd with hb | hb
    · exact hb
    · refine eq_zero_of_natDegree_lt_card_of_eval_eq_zero b
        (f := fun i : Fin ((p - 1) / 2) => root p (i + 1))
        (fun i j hij => Fin.ext (by have := root_injOn (by omega) (by omega) hij; omega))
        (fun i => ?_) (by rw [Fintype.card_fin]; omega)
      have hi := natCast_ne_zero_of_lt (p := p) (k := i + 1) (by omega) (by omega)
      exact (mul_eq_zero.1 (eval_root_eq_zero h (i + 1)).2).resolve_right
        ((map_ne_zero (algebraMap (ZMod p) (K p))).2 hi)

end Roots

section Main

theorem star_eval_map {p : Nat} (a : (ZMod p)[X]) (w : K p) :
    star ((a.map (algebraMap (ZMod p) (K p))).eval w) =
      (a.map (algebraMap (ZMod p) (K p))).eval (star w) := by
  have hcomp : (starRingEnd (K p)).comp (algebraMap (ZMod p) (K p)) = algebraMap (ZMod p) (K p) :=
    RingHom.ext fun c => star_algebraMap c
  rw [eval_map, eval_map, ← starRingEnd_apply, hom_eval₂, hcomp, starRingEnd_apply]

variable {p : Nat} [hp : Fact p.Prime] [hp12 : Fact (p % 12 = 11)]

theorem WeightLE.map {a b : (ZMod p)[X]} {m : Nat} (h : WeightLE a b m) :
    WeightLE (a.map (algebraMap (ZMod p) (K p))) (b.map (algebraMap (ZMod p) (K p))) m := by
  refine ⟨by rw [natDegree_map]; exact h.fst, ?_⟩
  rcases h.snd with rfl | hb
  · exact .inl (Polynomial.map_zero _)
  · exact .inr (by rwa [natDegree_map])

/-- The difference of a function moved by the two cube roots of unity. -/
theorem WeightLE.sub_comp {c d : (K p)[X]} {m : Nat} (h : WeightLE c d m) (u v : K p) :
    WeightLE (c.comp (C u * X) - c.comp (C v * X)) (d.comp (C u * X) - d.comp (C v * X)) m := by
  have hcomp (e : (K p)[X]) (w : K p) : (e.comp (C w * X)).natDegree ≤ e.natDegree := by
    refine natDegree_comp_le.trans ?_
    have := (natDegree_C_mul_le w (X : (K p)[X])).trans natDegree_X_le
    exact (Nat.mul_le_mul_left _ this).trans (mul_one _).le
  constructor
  · have h₁ := natDegree_sub_le (c.comp (C u * X)) (c.comp (C v * X))
    have h₂ := hcomp c u
    have h₃ := hcomp c v
    have := h.fst
    omega
  · rcases h.snd with rfl | hd
    · exact .inl (by simp)
    · have h₁ := natDegree_sub_le (d.comp (C u * X)) (d.comp (C v * X))
      have h₂ := hcomp d u
      have h₃ := hcomp d v
      right
      omega

/-- The pairing with a function of small enough pole is not trivial. -/
theorem exists_ne_one_of_weightLE {q : Nat} (hq : q.Prime) (hq3 : 3 < q) (hqp : q ∣ p + 1) {A : E p}
    (hA : addOrderOf A = q) {a b : (ZMod p)[X]} (hab : WeightLE a b q)
    (hf : IsTateFunction A q (a • 1 + b • mk (mordell (ZMod p)) Y)) :
    ∃ S : E p, reducedTate (zeta_cube (p := p)) ((p - 1) * ((p + 1) / q)) (a • 1 + b • mk _ Y) S ≠ 1 := by
  by_contra hall
  push Not at hall
  have h12 := hp12.out
  have hz3 := zeta_cube (p := p)
  have hz6 : (zeta p ^ 2) ^ 3 = 1 := by rw [pow_right_comm, hz3, one_pow]
  set N := (p + 1) / q with hN
  have hqN : q * N = p + 1 := Nat.mul_div_cancel' hqp
  have hN0 : N ≠ 0 := by
    intro h
    rw [h, mul_zero] at hqN
    omega
  obtain ⟨c, d, hcd, heval⟩ := hab.map.exists_pow N
  rw [hqN] at hcd
  have hmoved {w : K p} (hw : w ^ 3 = 1) {x y : ZMod p} (h : (mordell (ZMod p)).Nonsingular x y) :
      evalPhi hw h.1 (a • 1 + b • mk _ Y) ^ N = c.eval (w * algebraMap (ZMod p) (K p) x) +
        d.eval (w * algebraMap (ZMod p) (K p) x) * algebraMap (ZMod p) (K p) y := by
    rw [evalPhi_basis, heval]
    rw [mul_pow, hw, one_mul, map_equation h.1]
  obtain ⟨hA0, hB0⟩ := eq_zero_of_vanishing (hcd.sub_comp (zeta p) (zeta p ^ 2))
    (by
      obtain ⟨k, hk⟩ : ∃ k, (p + 1) / 2 = 3 * k := ⟨(p + 1) / 6, by omega⟩
      rw [coeff_sub, comp_C_mul_X_coeff, comp_C_mul_X_coeff, hk, pow_mul, pow_mul, hz3, hz6, sub_self])
    (by
      intro x y hxy
      have hns := (MordellCurve.nonsingular_iff six_ne_zero).2 hxy
      have hone : evalPhi hz3 hns.1 (a • 1 + b • mk _ Y) ^ ((p - 1) * N) = 1 := hall (.some x y hns)
      have hstar : star (evalPhi hz3 hns.1 (a • 1 + b • mk _ Y)) =
          evalPhi hz6 hns.1 (a • 1 + b • mk _ Y) := by
        rw [evalPhi_basis, evalPhi_basis, star_add, star_mul', star_eval_map, star_eval_map,
          star_mul', star_zeta, star_algebraMap, star_algebraMap]
      have hpow : evalPhi hz6 hns.1 (a • 1 + b • mk _ Y) ^ N =
          evalPhi hz3 hns.1 (a • 1 + b • mk _ Y) ^ N := by
        rw [← hstar, ← pow_char_eq_star, ← pow_mul,
          show p * N = (p - 1) * N + N by rw [← Nat.succ_mul]; congr 1; omega, pow_add, hone, one_mul]
      rw [hmoved hz6 hns, hmoved hz3 hns] at hpow
      simp only [eval_sub, eval_comp, eval_mul, eval_C, eval_X]
      linear_combination -hpow)
  -- at the image of `A` under the square of the map one of the two factors vanishes
  rcases A with _ | ⟨x, y, h⟩
  · exact hq.one_lt.ne (addOrderOf_zero.symm.trans hA)
  have hne := (avoiding hq hq3 hA).valueAt_ne_zero hz3 hf (.some x y h)
  have hself := valueAt_self (K := K p) (Point.some_ne_zero h) hq.pos hf
  have h₁ := hmoved (one_pow 3) h
  have h₂ := hmoved hz3 h
  have hA := congrArg (eval (zeta p ^ 2 * algebraMap (ZMod p) (K p) x)) hA0
  have hB := congrArg (eval (zeta p ^ 2 * algebraMap (ZMod p) (K p) x)) hB0
  have hw₁ : zeta p * (zeta p ^ 2 * algebraMap (ZMod p) (K p) x) = 1 * algebraMap (ZMod p) (K p) x := by
    rw [← mul_assoc, ← pow_succ', hz3]
  have hw₂ : zeta p ^ 2 * (zeta p ^ 2 * algebraMap (ZMod p) (K p) x) =
      zeta p * algebraMap (ZMod p) (K p) x := by
    linear_combination (zeta p * algebraMap (ZMod p) (K p) x) * hz3
  simp only [eval_sub, eval_comp, eval_mul, eval_C, eval_X, eval_zero, hw₁, hw₂] at hA hB
  refine pow_ne_zero N hne ?_
  rw [valueAt_some] at hself ⊢
  rw [hself, zero_pow hN0] at h₁
  rw [h₂]
  linear_combination -h₁ - hA - algebraMap (ZMod p) (K p) y * hB

/-- The pairing is not trivial: its exact opposite, the value one at all points,
would make the functions moved by the two cube roots of unity agree. -/
theorem exists_reducedTate_ne_one {q : Nat} (hq : q.Prime) (hq3 : 3 < q) (hqp : q ∣ p + 1) {A : E p}
    (hA : addOrderOf A = q) {f : (mordell (ZMod p)).CoordinateRing} (hf : IsTateFunction A q f) :
    ∃ S : E p, reducedTate (zeta_cube (p := p)) ((p - 1) * ((p + 1) / q)) f S ≠ 1 := by
  have hA' : addOrderOf (-A) = q := by rw [addOrderOf_neg, hA]
  have hneg : q • -A = 0 := by rw [← hA']; exact addOrderOf_nsmul_eq_zero _
  obtain ⟨g, hg⟩ := exists_isTateFunction hq.pos hneg
  rcases A with _ | ⟨x, y, h⟩
  · exact absurd (addOrderOf_zero.symm.trans hA) hq.one_lt.ne
  rcases exists_weightLE hf hg with ⟨a, b, rfl, hab⟩ | ⟨a, b, rfl, hab⟩
  · exact exists_ne_one_of_weightLE hq hq3 hqp hA hab hf
  · obtain ⟨S, hS⟩ := exists_ne_one_of_weightLE hq hq3 hqp hA' hab hg
    refine ⟨S, fun hone => hS ?_⟩
    have he := (avoiding hq hq3 hA).reducedTate_neg_left zeta_cube hf (finalExponent hqp) hg S
    rwa [hone, one_mul] at he

end Main

end IdBasedEncryption.Nondegenerate
