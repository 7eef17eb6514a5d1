import IdBasedEncryption.CurveDivisors

namespace IdBasedEncryption.MillerFunctions

open Polynomial WeierstrassCurve.Affine WeierstrassCurve.Affine.CoordinateRing CurveDivisors
open scoped Polynomial.Bivariate

variable {F K : Type*} [Field F] [Field K] [Algebra F K] {W : WeierstrassCurve.Affine F}

/-- Evaluation of functions at a point of the curve with coordinates in an
extension field. -/
noncomputable def evalAt {x y : K} (h : (W.map (algebraMap F K)).toAffine.Equation x y) :
    W.CoordinateRing →+* K :=
  AdjoinRoot.lift (eval₂RingHom (algebraMap F K) x) y (by
    have he := (equation_iff ..).1 h
    simp only [WeierstrassCurve.map_a₁, WeierstrassCurve.map_a₂, WeierstrassCurve.map_a₃,
      WeierstrassCurve.map_a₄, WeierstrassCurve.map_a₆] at he
    simp only [polynomial, eval₂_add, eval₂_sub, eval₂_mul, eval₂_pow, eval₂_C, eval₂_X,
      coe_eval₂RingHom]
    linear_combination he)

section EvalAt

variable {x y : K} (h : (W.map (algebraMap F K)).toAffine.Equation x y)

theorem evalAt_mk (f : F[X][Y]) :
    evalAt h (mk W f) = f.eval₂ (eval₂RingHom (algebraMap F K) x) y :=
  AdjoinRoot.lift_mk _ f

@[simp] theorem evalAt_XClass (a : F) : evalAt h (XClass W a) = x - algebraMap F K a := by
  rw [XClass, evalAt_mk]
  simp

@[simp] theorem evalAt_YClass (a b l : F) : evalAt h (YClass W (linePolynomial a b l)) =
    y - (algebraMap F K l * (x - algebraMap F K a) + algebraMap F K b) := by
  rw [YClass, evalAt_mk]
  simp [linePolynomial]

@[simp] theorem evalAt_algebraMap (c : F) :
    evalAt h (algebraMap F W.CoordinateRing c) = algebraMap F K c := by
  have hc : algebraMap F W.CoordinateRing c = mk W (C (C c)) := rfl
  rw [hc, evalAt_mk]
  simp

end EvalAt

/-- A function with a zero of order `n` at `P` and no other finite zero. When
`n P` is infinity its pole there has order `n`. -/
def IsTateFunction (P : W.Point) (n : Nat) (f : W.CoordinateRing) : Prop :=
  Ideal.span {f} = pointIdeal P ^ n

/-- The pair stands for a function `V / D` with a zero of order `i - j` at `P`
and a simple pole at `A`. -/
def IsMiller (P A : W.Point) (i j : Nat) (V D : W.CoordinateRing) : Prop :=
  Ideal.span {V} * pointIdeal A * pointIdeal P ^ j = Ideal.span {D} * pointIdeal P ^ i

theorem span_mul_const {c : F} (hc : c ≠ 0) (f : W.CoordinateRing) :
    Ideal.span {f * algebraMap F W.CoordinateRing c} = Ideal.span {f} :=
  Ideal.span_singleton_mul_right_unit (hc.isUnit.map _) f

theorem IsMiller.one (P : W.Point) : IsMiller P P 1 0 1 1 := by
  simp [IsMiller]

theorem IsMiller.neg {P A : W.Point} {i j : Nat} {V D : W.CoordinateRing}
    (h : IsMiller P A i j V D) : IsMiller P (-A) j i D (V * vertical A) := by
  rw [IsMiller] at h ⊢
  rw [← Ideal.span_singleton_mul_span_singleton, ← pointIdeal_mul_neg]
  calc Ideal.span {D} * pointIdeal (-A) * pointIdeal P ^ i
      = Ideal.span {D} * pointIdeal P ^ i * pointIdeal (-A) := by ring
    _ = Ideal.span {V} * pointIdeal A * pointIdeal P ^ j * pointIdeal (-A) := by rw [h]
    _ = Ideal.span {V} * (pointIdeal A * pointIdeal (-A)) * pointIdeal P ^ j := by ring

theorem IsMiller.scale {P A : W.Point} {i j : Nat} {V D : W.CoordinateRing}
    (h : IsMiller P A i j V D) {c d : F} (hc : c ≠ 0) (hd : d ≠ 0) :
    IsMiller P A i j (V * algebraMap F _ c) (D * algebraMap F _ d) := by
  rwa [IsMiller, span_mul_const hc, span_mul_const hd]

/-- At infinity a Miller pair is a Tate function written as a quotient. -/
theorem IsMiller.exists_isTateFunction {P : W.Point} {n j : Nat} {V D : W.CoordinateRing}
    (h : IsMiller P 0 (j + n) j V D) (hD : D ≠ 0) :
    ∃ f, IsTateFunction P n f ∧ V = D * f := by
  have hspan : Ideal.span {V} = Ideal.span {D} * pointIdeal P ^ n := by
    apply pointIdeal_pow_mul_cancel (A := P) j
    rw [IsMiller, pointIdeal_zero, Ideal.mul_top] at h
    calc pointIdeal P ^ j * Ideal.span {V} = Ideal.span {V} * pointIdeal P ^ j := by ring
      _ = Ideal.span {D} * pointIdeal P ^ (j + n) := h
      _ = pointIdeal P ^ j * (Ideal.span {D} * pointIdeal P ^ n) := by ring
  have hmem : V ∈ Ideal.span {D} := by
    have hle : Ideal.span {V} ≤ Ideal.span {D} := hspan ▸ Ideal.mul_le_left
    exact hle (Ideal.mem_span_singleton_self V)
  obtain ⟨f, rfl⟩ := Ideal.mem_span_singleton'.1 hmem
  refine ⟨f, ?_, mul_comm f D⟩
  rw [mul_comm f D, ← Ideal.span_singleton_mul_span_singleton] at hspan
  exact (Ideal.span_singleton_mul_right_inj hD).1 hspan

/-- Tate functions of one point differ by a nonzero constant. -/
theorem IsTateFunction.unique {P : W.Point} {n : Nat} {f g : W.CoordinateRing}
    (hf : IsTateFunction P n f) (hg : IsTateFunction P n g) :
    ∃ c : F, c ≠ 0 ∧ g = f * algebraMap F _ c :=
  exists_mul_algebraMap_of_span_eq (hf.trans hg.symm)

theorem IsTateFunction.span_mul_neg {P : W.Point} {n : Nat} {f g : W.CoordinateRing}
    (hf : IsTateFunction P n f) (hg : IsTateFunction (-P) n g) :
    Ideal.span {f * g} = Ideal.span {vertical P ^ n} := by
  rw [IsTateFunction] at hf hg
  rw [← Ideal.span_singleton_mul_span_singleton, hf, hg, ← mul_pow, pointIdeal_mul_neg,
    Ideal.span_singleton_pow]

omit [Algebra F K] in
theorem IsTateFunction.map_ne_zero {P : W.Point} {n : Nat} {f : W.CoordinateRing}
    (hf : IsTateFunction P n f) (e : W.CoordinateRing →+* K) (hP : e (vertical P) ≠ 0) :
    e f ≠ 0 := by
  have hmem : vertical P ^ n ∈ Ideal.span {f} := by
    have hle : Ideal.span {vertical P ^ n} ≤ Ideal.span {f} := by
      rw [IsTateFunction] at hf
      rw [hf, ← Ideal.span_singleton_pow, ← pointIdeal_mul_neg, mul_pow]
      exact Ideal.mul_le_left
    exact hle (Ideal.mem_span_singleton_self _)
  obtain ⟨g, hg⟩ := Ideal.mem_span_singleton'.1 hmem
  intro h0
  apply pow_ne_zero n hP
  rw [← map_pow, ← hg, map_mul, h0, mul_zero]

section Chord

variable [DecidableEq F]

theorem IsMiller.add {P A A' : W.Point} {i j i' j' : Nat} {V D V' D' : W.CoordinateRing}
    (h : IsMiller P A i j V D) (h' : IsMiller P A' i' j' V' D') :
    IsMiller P (A + A') (i + i') (j + j') (V * V' * chord A A') (D * D' * vertical (A + A')) := by
  rw [IsMiller] at h h' ⊢
  simp only [← Ideal.span_singleton_mul_span_singleton]
  have hc := vertical_mul_pointIdeal A A'
  calc Ideal.span {V} * Ideal.span {V'} * Ideal.span {chord A A'} * pointIdeal (A + A') *
        pointIdeal P ^ (j + j')
      = Ideal.span {V} * Ideal.span {V'} * (Ideal.span {chord A A'} * pointIdeal (A + A')) *
        pointIdeal P ^ (j + j') := by ring
    _ = Ideal.span {V} * Ideal.span {V'} *
        (Ideal.span {vertical (A + A')} * (pointIdeal A * pointIdeal A')) *
        pointIdeal P ^ (j + j') := by rw [hc]
    _ = Ideal.span {V} * pointIdeal A * pointIdeal P ^ j *
        (Ideal.span {V'} * pointIdeal A' * pointIdeal P ^ j') *
        Ideal.span {vertical (A + A')} := by ring
    _ = Ideal.span {D} * pointIdeal P ^ i * (Ideal.span {D'} * pointIdeal P ^ i') *
        Ideal.span {vertical (A + A')} := by rw [h, h']
    _ = Ideal.span {D} * Ideal.span {D'} * Ideal.span {vertical (A + A')} *
        pointIdeal P ^ (i + i') := by ring

section Value

variable (e : W.CoordinateRing →+* K)

/-- A numerator and a denominator that a Miller pair takes under an evaluation,
neither of them zero. -/
def MillerValue (P A : W.Point) (i j : Nat) (v d : K) : Prop :=
  v ≠ 0 ∧ d ≠ 0 ∧ ∃ V D, IsMiller P A i j V D ∧ v = e V ∧ d = e D

variable {e} {P A A' : W.Point} {i j i' j' : Nat} {v d v' d' : K}

omit [Algebra F K] [DecidableEq F] in
theorem MillerValue.one (P : W.Point) : MillerValue e P P 1 0 1 1 :=
  ⟨one_ne_zero, one_ne_zero, 1, 1, IsMiller.one P, (map_one e).symm, (map_one e).symm⟩

omit [Algebra F K] [DecidableEq F] in
theorem MillerValue.neg (h : MillerValue e P A i j v d) (hA : e (vertical A) ≠ 0) :
    MillerValue e P (-A) j i d (v * e (vertical A)) := by
  obtain ⟨hv, hd, V, D, hM, rfl, rfl⟩ := h
  exact ⟨hd, mul_ne_zero hv hA, D, V * vertical A, hM.neg, rfl, (map_mul e ..).symm⟩

/-- Addition of points, with lines known up to constants of the base field. -/
theorem MillerValue.add (he : ∀ c : F, e (algebraMap F _ c) = algebraMap F K c)
    (h : MillerValue e P A i j v d) (h' : MillerValue e P A' i' j' v' d')
    (hA : e (vertical A) ≠ 0) (hA' : e (vertical A') ≠ 0) (hAA' : e (vertical (A + A')) ≠ 0)
    {c k : F} (hc : c ≠ 0) (hk : k ≠ 0) :
    MillerValue e P (A + A') (i + i') (j + j') (v * v' * (algebraMap F K c * e (chord A A')))
      (d * d' * (algebraMap F K k * e (vertical (A + A')))) := by
  obtain ⟨hv, hd, V, D, hM, rfl, rfl⟩ := h
  obtain ⟨hv', hd', V', D', hM', rfl, rfl⟩ := h'
  have hconst {c : F} (hc : c ≠ 0) : algebraMap F K c ≠ 0 :=
    (map_ne_zero_iff _ (algebraMap F K).injective).2 hc
  refine ⟨mul_ne_zero (mul_ne_zero hv hv') (mul_ne_zero (hconst hc) (map_chord_ne_zero e hA hA' hAA')),
    mul_ne_zero (mul_ne_zero hd hd') (mul_ne_zero (hconst hk) hAA'), _, _,
    (hM.add hM').scale hc hk, ?_, ?_⟩
  · simp only [map_mul, he]
    ring
  · simp only [map_mul, he]
    ring

theorem MillerValue.close (he : ∀ c : F, e (algebraMap F _ c) = algebraMap F K c)
    (h : MillerValue e P (-P) i j v d) (hP : e (vertical P) ≠ 0) :
    MillerValue e P 0 (i + 1) j (v * e (vertical (-P))) d := by
  have hneg : -P + P = 0 := neg_add_cancel P
  have hadd := h.add he (MillerValue.one P) (by rwa [vertical_neg]) hP (by simp [hneg])
    (c := 1) (k := 1) one_ne_zero one_ne_zero
  simpa [hneg, chord_of_add_eq_zero hneg] using hadd

theorem MillerValue.close_neg (he : ∀ c : F, e (algebraMap F _ c) = algebraMap F K c)
    (h : MillerValue e P P i j v d) (hP : e (vertical P) ≠ 0) :
    MillerValue e P 0 i (j + 1) (v * e (vertical P)) (d * e (vertical P)) := by
  have hneg : P + -P = 0 := add_neg_cancel P
  have hadd := h.add he ((MillerValue.one P).neg hP) hP (by rwa [vertical_neg]) (by simp [hneg])
    (c := 1) (k := 1) one_ne_zero one_ne_zero
  simpa [hneg, chord_of_add_eq_zero hneg] using hadd

omit [Algebra F K] [DecidableEq F] in
theorem MillerValue.exists_isTateFunction {n : Nat} (h : MillerValue e P 0 (j + n) j v d) :
    ∃ f, IsTateFunction P n f ∧ v / d = e f := by
  obtain ⟨-, hd, V, D, hM, rfl, rfl⟩ := h
  have hD : D ≠ 0 := by
    rintro rfl
    exact hd (map_zero e)
  obtain ⟨f, hf, rfl⟩ := hM.exists_isTateFunction hD
  exact ⟨f, hf, by rw [map_mul, mul_div_cancel_left₀ _ hd]⟩

end Value

/-- Tate functions are multiplicative in the point, up to an `n`-th power. -/
theorem IsTateFunction.add {A B : W.Point} {n : Nat} {f g k : W.CoordinateRing}
    (hf : IsTateFunction A n f) (hg : IsTateFunction B n g) (hk : IsTateFunction (A + B) n k) :
    ∃ c : F, c ≠ 0 ∧
      chord A B ^ n * k = f * g * vertical (A + B) ^ n * algebraMap F _ c := by
  apply exists_mul_algebraMap_of_span_eq
  rw [IsTateFunction] at hf hg hk
  simp only [← Ideal.span_singleton_mul_span_singleton, ← Ideal.span_singleton_pow, hf, hg, hk]
  rw [← mul_pow, ← mul_pow, ← mul_pow, mul_comm, vertical_mul_pointIdeal]

/-- The function with a zero of order `n` at `P` and a pole at `n P`, by adding
`P` one step at a time. -/
noncomputable def naive (P : W.Point) : Nat → W.CoordinateRing × W.CoordinateRing
  | 0 => (1, 1)
  | 1 => (1, 1)
  | n + 2 =>
      ((naive P (n + 1)).1 * chord ((n + 1) • P) P,
        (naive P (n + 1)).2 * vertical ((n + 2) • P))

theorem isMiller_naive (P : W.Point) (n : Nat) :
    IsMiller P ((n + 1) • P) (n + 1) 0 (naive P (n + 1)).1 (naive P (n + 1)).2 := by
  induction n with
  | zero => simpa [naive] using IsMiller.one P
  | succ n ih =>
      have h := ih.add (IsMiller.one P)
      rwa [mul_one, mul_one, ← succ_nsmul] at h

theorem naive_snd_ne_zero (P : W.Point) (n : Nat) : (naive P (n + 1)).2 ≠ 0 := by
  induction n with
  | zero => simp [naive]
  | succ n ih => exact mul_ne_zero ih (vertical_ne_zero _)

theorem exists_isTateFunction {P : W.Point} {n : Nat} (hn : 0 < n) (hP : n • P = 0) :
    ∃ f, IsTateFunction P n f := by
  obtain ⟨k, rfl⟩ : ∃ k, n = k + 1 := ⟨n - 1, by omega⟩
  have h : IsMiller P 0 (0 + (k + 1)) 0 (naive P (k + 1)).1 (naive P (k + 1)).2 := by
    rw [zero_add, ← hP]
    exact isMiller_naive P k
  obtain ⟨f, hf, -⟩ := h.exists_isTateFunction (naive_snd_ne_zero P k)
  exact ⟨f, hf⟩

section Reciprocity

variable {L : Type*} [CommRing L] (N : W.CoordinateRing →* L) (g : W.Point → L) (ε : L)

/-- Weil reciprocity along the naive chain. `N` multiplies the values at the
points of a divisor and `g` evaluates a function that cuts that divisor out. -/
theorem map_naive (hvertical : ∀ A, A ≠ 0 → N (vertical A) = g A * g (-A))
    (hchord : ∀ A B, A ≠ 0 → B ≠ 0 → A + B ≠ 0 →
      N (chord A B) = ε * (g A * g B * g (-(A + B))))
    {P : W.Point} {n : Nat} (hn : ∀ k, 0 < k → k ≤ n + 1 → k • P ≠ 0) :
    N (naive P (n + 1)).1 * g ((n + 1) • P) = ε ^ n * g P ^ (n + 1) * N (naive P (n + 1)).2 := by
  induction n with
  | zero => simp [naive]
  | succ n ih =>
      have hP : P ≠ 0 := by simpa using hn 1 one_pos (by omega)
      have hsum : (n + 1) • P + P = (n + 2) • P := (succ_nsmul P (n + 1)).symm
      have hih := ih (fun k hk hkn => hn k hk (by omega))
      have hc := hchord ((n + 1) • P) P (hn _ (by omega) (by omega)) hP
        (hsum ▸ hn _ (by omega) le_rfl)
      have hv := hvertical ((n + 2) • P) (hn _ (by omega) le_rfl)
      rw [hsum] at hc
      simp only [naive, map_mul, hc, hv]
      linear_combination (ε * g P * g ((n + 2) • P) * g (-((n + 2) • P))) * hih

theorem map_naive_snd_ne_zero [IsDomain L] {P : W.Point} {n : Nat}
    (hne : ∀ k, 0 < k → k ≤ n + 1 → N (vertical (k • P)) ≠ 0) :
    N (naive P (n + 1)).2 ≠ 0 := by
  induction n with
  | zero => simp [naive]
  | succ n ih =>
      rw [naive, map_mul]
      exact mul_ne_zero (ih fun k hk hkn => hne k hk (by omega)) (hne _ (by omega) le_rfl)

/-- Weil reciprocity for Tate functions. The last step of the chain meets the
vertical line through `P`. -/
theorem map_isTateFunction [IsDomain L] (hvertical : ∀ A, A ≠ 0 → N (vertical A) = g A * g (-A))
    (hchord : ∀ A B, A ≠ 0 → B ≠ 0 → A + B ≠ 0 →
      N (chord A B) = ε * (g A * g B * g (-(A + B))))
    {P : W.Point} {n : Nat} (hn : ∀ k, 0 < k → k ≤ n + 1 → k • P ≠ 0) (hP : (n + 2) • P = 0)
    (hne : ∀ k, 0 < k → k ≤ n + 1 → N (vertical (k • P)) ≠ 0) {f : W.CoordinateRing}
    (hf : IsTateFunction P (n + 2) f) :
    ∃ c : F, c ≠ 0 ∧ N f * N (algebraMap F _ c) = ε ^ n * g P ^ (n + 2) := by
  have hsum : (n + 1) • P + P = 0 := by rw [← succ_nsmul, hP]
  have hlast := hn (n + 1) (by omega) le_rfl
  have hnaive := map_naive N g ε hvertical hchord hn
  have hne' := map_naive_snd_ne_zero N hne
  have hv : N (vertical ((n + 1) • P)) = g ((n + 1) • P) * g P := by
    rw [hvertical _ hlast, neg_eq_of_add_eq_zero_right hsum]
  have hmiller : IsMiller P 0 (0 + (n + 2)) 0 (naive P (n + 2)).1 (naive P (n + 2)).2 := by
    rw [zero_add, ← hP]
    exact isMiller_naive P (n + 1)
  obtain ⟨f', hf', hV⟩ := hmiller.exists_isTateFunction (naive_snd_ne_zero P (n + 1))
  obtain ⟨c, hc, hfc⟩ := hf.unique hf'
  refine ⟨c, hc, mul_right_cancel₀ hne' ?_⟩
  have hN := congrArg N hV
  simp only [naive, hP, vertical_zero, mul_one, chord_of_add_eq_zero hsum, hfc, map_mul, hv] at hN
  linear_combination g P * hnaive - hN

end Reciprocity

end Chord

end IdBasedEncryption.MillerFunctions
