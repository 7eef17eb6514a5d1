import IdBasedEncryption.LineReciprocity

namespace IdBasedEncryption.ReducedTate

open WeierstrassCurve.Affine WeierstrassCurve.Affine.CoordinateRing CurveDivisors MillerFunctions
open MordellCurve LineReciprocity

variable {F K : Type*} [Field F] [Field K] [Algebra F K] [DecidableEq F] {z : K} (hz : z ^ 3 = 1)
  {M n : Nat}

/-- The exponent `M` of the final powering removes constants and `n`-th powers. -/
structure FinalExponent (F K : Type*) [Field F] [Field K] [Algebra F K] (M n : Nat) : Prop where
  const : ∀ c : F, c ≠ 0 → algebraMap F K c ^ M = 1
  pow : ∀ w : K, w ≠ 0 → (w ^ n) ^ M = 1

/-- A point of order `n`, none of whose nonzero multiples shares its first
coordinate with the image of a point under `(x, y) ↦ (z x, y)`. -/
structure Avoiding (z : K) (n : Nat) (P : (mordell F).Point) : Prop where
  order : addOrderOf P = n
  one_lt : 1 < n
  ne : ∀ k, 0 < k → k < n → ∀ (hz : z ^ 3 = 1) (S : (mordell F).Point),
    valueAt hz S (vertical (k • P)) ≠ 0

/-- The Tate function `f` at the image of a point, made independent of scaling. -/
noncomputable def reducedTate (M : Nat) (f : (mordell F).CoordinateRing) (S : (mordell F).Point) : K :=
  valueAt hz S f ^ M

omit [DecidableEq F] in
@[simp] theorem reducedTate_zero (f : (mordell F).CoordinateRing) :
    reducedTate hz M f 0 = 1 := by
  simp [reducedTate]

omit [DecidableEq F] in
theorem valueAt_const_pow (hM : FinalExponent F K M n) (S : (mordell F).Point) {c : F} (hc : c ≠ 0) :
    valueAt hz S (algebraMap F _ c) ^ M = 1 := by
  cases S with
  | zero => exact one_pow M
  | some x y h => simpa using hM.const c hc

section Point

variable {P : (mordell F).Point} (hP : Avoiding z n P) {f : (mordell F).CoordinateRing}
  (hf : IsTateFunction P n f)
include hP

theorem Avoiding.smul_ne_zero {k : Nat} (hk : 0 < k) (hkn : k < n) : k • P ≠ 0 := by
  intro h
  have := Nat.le_of_dvd hk (addOrderOf_dvd_of_nsmul_eq_zero h)
  rw [hP.order] at this
  omega

theorem Avoiding.smul_eq_zero : n • P = 0 := by
  rw [← hP.order]
  exact addOrderOf_nsmul_eq_zero P

include hf in
theorem Avoiding.valueAt_ne_zero (S : (mordell F).Point) : valueAt hz S f ≠ 0 := by
  cases S with
  | zero => exact one_ne_zero
  | some x y h =>
      refine hf.map_ne_zero (evalPhi hz h.1) ?_
      have := hP.ne 1 one_pos hP.one_lt hz (.some x y h)
      rwa [one_nsmul] at this

include hf in
/-- Reciprocity after the final powering: the values at the points of a
divisor multiply to one. -/
theorem Avoiding.pow_eq_one_of_reciprocity (hM : FinalExponent F K M n)
    (N : (mordell F).CoordinateRing →* K) (g : (mordell F).Point → K)
    (hvertical : ∀ A, A ≠ 0 → N (vertical A) = g A * g (-A))
    (hchord : ∀ A B, A ≠ 0 → B ≠ 0 → A + B ≠ 0 →
      N (chord A B) = -1 * (g A * g B * g (-(A + B))))
    (hne : ∀ k, 0 < k → k < n → N (vertical (k • P)) ≠ 0)
    (hconst : ∀ c : F, c ≠ 0 → N (algebraMap F _ c) ^ M = 1) : N f ^ M = 1 := by
  obtain ⟨m, rfl⟩ : ∃ m, n = m + 2 := ⟨n - 2, by have := hP.one_lt; omega⟩
  obtain ⟨c, hc, hN⟩ := map_isTateFunction N g (-1) hvertical hchord
    (fun k hk hkn => hP.smul_ne_zero hk (by omega)) hP.smul_eq_zero
    (fun k hk hkn => hne k hk (by omega)) hf
  have hg : g P ≠ 0 := by
    have h := hne 1 one_pos (by omega)
    rw [one_nsmul, hvertical P (by simpa using hP.smul_ne_zero one_pos hP.one_lt)] at h
    exact left_ne_zero_of_mul h
  have hneg : ((-1 : K) ^ m) ^ M = 1 := by
    have h := hM.const (-1) (neg_ne_zero.2 one_ne_zero)
    rw [map_neg, map_one] at h
    rw [pow_right_comm, h, one_pow]
  have hpow := congrArg (· ^ M) hN
  simp only [mul_pow, hconst c hc, mul_one, hneg, one_mul] at hpow
  rw [hpow, hM.pow _ hg]

include hf in
theorem Avoiding.reducedTate_mul_neg (hM : FinalExponent F K M n) (S : (mordell F).Point) :
    reducedTate hz M f S * reducedTate hz M f (-S) = 1 := by
  cases S with
  | zero => simp [← Point.zero_def]
  | some x y h =>
      rw [reducedTate, reducedTate, ← mul_pow]
      refine hP.pow_eq_one_of_reciprocity hf hM (valueAt hz (.some x y h) * valueAt hz (-.some x y h))
        (verticalAt z x) (fun A hA => valueAt_neg_vertical hz h hA)
        (fun A B hA hB hAB => valueAt_neg_chord hz h hA hB hAB)
        (fun k hk hkn => mul_ne_zero (hP.ne k hk hkn hz _) (hP.ne k hk hkn hz _)) fun c hc => ?_
      rw [MonoidHom.mul_apply, mul_pow, valueAt_const_pow hz hM _ hc, valueAt_const_pow hz hM _ hc,
        one_mul]

include hf in
theorem Avoiding.reducedTate_add (hM : FinalExponent F K M n) (S T : (mordell F).Point) :
    reducedTate hz M f (S + T) = reducedTate hz M f S * reducedTate hz M f T := by
  by_cases hS : S = 0
  · simp [hS]
  by_cases hT : T = 0
  · simp [hT]
  by_cases hST : S + T = 0
  · rw [hST, reducedTate_zero, ← neg_eq_of_add_eq_zero_right hST,
      hP.reducedTate_mul_neg hz hf hM]
  obtain ⟨l, k, x₁, x₂, x₃, hl⟩ := exists_isChord hS hT hST
  have h : (valueAt hz S f * valueAt hz T f * valueAt hz (-(S + T)) f) ^ M = 1 := by
    refine hP.pow_eq_one_of_reciprocity hf hM
      (valueAt hz S * valueAt hz T * valueAt hz (-(S + T))) (lineAt z l k)
      (fun A hA => hl.valueAt_vertical hz hA) (fun A B hA hB hAB => hl.valueAt_chord hz hA hB hAB)
      (fun k hk hkn => mul_ne_zero (mul_ne_zero (hP.ne k hk hkn hz _) (hP.ne k hk hkn hz _))
        (hP.ne k hk hkn hz _)) fun c hc => ?_
    simp only [MonoidHom.mul_apply, mul_pow, valueAt_const_pow hz hM _ hc, one_mul]
  have hneg := hP.reducedTate_mul_neg hz hf hM (S + T)
  rw [mul_pow, mul_pow] at h
  simp only [reducedTate] at hneg ⊢
  linear_combination (-valueAt hz (S + T) f ^ M) * h +
    (valueAt hz S f ^ M * valueAt hz T f ^ M) * hneg

include hf in
theorem Avoiding.reducedTate_neg_left (hM : FinalExponent F K M n)
    {g : (mordell F).CoordinateRing} (hg : IsTateFunction (-P) n g) (S : (mordell F).Point) :
    reducedTate hz M f S * reducedTate hz M g S = 1 := by
  obtain ⟨c, hc, hw⟩ := exists_mul_algebraMap_of_span_eq (hf.span_mul_neg hg)
  have hv := hP.ne 1 one_pos hP.one_lt hz S
  rw [one_nsmul] at hv
  have he := congrArg (fun r => valueAt hz S r ^ M) hw
  simp only [map_mul, map_pow, mul_pow, hM.pow _ hv, valueAt_const_pow _ hM S hc, mul_one] at he
  exact he.symm

end Point

theorem reducedTate_add_left (hM : FinalExponent F K M n) {A B : (mordell F).Point}
    (hA : Avoiding z n A) (hB : Avoiding z n B) (hAB : Avoiding z n (A + B))
    {f g k : (mordell F).CoordinateRing} (hf : IsTateFunction A n f) (hg : IsTateFunction B n g)
    (hk : IsTateFunction (A + B) n k) (S : (mordell F).Point) :
    reducedTate hz M k S = reducedTate hz M f S * reducedTate hz M g S := by
  cases S with
  | zero => simp [← Point.zero_def]
  | some x y h =>
      obtain ⟨c, hc, hck⟩ := hf.add hg hk
      have hne {C : (mordell F).Point} (hC : Avoiding z n C) : evalPhi hz h.1 (vertical C) ≠ 0 := by
        have := hC.ne 1 one_pos hC.one_lt hz (.some x y h)
        rwa [one_nsmul] at this
      have hchord : evalPhi hz h.1 (chord A B) ≠ 0 :=
        map_chord_ne_zero _ (hne hA) (hne hB) (hne hAB)
      have he := congrArg (fun r => evalPhi hz h.1 r ^ M) hck
      simp only [map_mul, map_pow, mul_pow, evalPhi_algebraMap, hM.const c hc, hM.pow _ hchord,
        hM.pow _ (hne hAB), one_mul, mul_one] at he
      exact he

end IdBasedEncryption.ReducedTate
