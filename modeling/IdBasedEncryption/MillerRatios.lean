import IdBasedEncryption.MillerFunctions

namespace IdBasedEncryption.MillerRatios

open WeierstrassCurve.Affine WeierstrassCurve.Affine.CoordinateRing CurveDivisors MillerFunctions

variable {F K : Type*} [Field F] [Field K] {W : WeierstrassCurve.Affine F}
  (e₁ e₂ : W.CoordinateRing →+* K)

/-- The value of `V / D` at one place over that at another. -/
noncomputable def ratio (V D : W.CoordinateRing) : K := e₁ V * e₂ D / (e₂ V * e₁ D)

structure Nonvanishing (V D : W.CoordinateRing) : Prop where
  v₁ : e₁ V ≠ 0
  v₂ : e₂ V ≠ 0
  d₁ : e₁ D ≠ 0
  d₂ : e₂ D ≠ 0

/-- The values of a function at two places, up to a common factor. -/
def ValuesOf (f : W.CoordinateRing) (a₁ a₂ : K) : Prop :=
  ∃ c : K, c ≠ 0 ∧ a₁ = c * e₁ f ∧ a₂ = c * e₂ f

/-- The quotient `v / d` is the ratio of a Miller function for `n`, up to `g`. -/
def Carries (P A : W.Point) (n : Nat) (g v d : K) : Prop :=
  ∃ V D, IsMiller P A n 0 V D ∧ v / d = g * ratio e₁ e₂ V D ∧
    (v ≠ 0 → d ≠ 0 → Nonvanishing e₁ e₂ V D)

variable {e₁ e₂} {P A A' : W.Point} {n n' : Nat} {g g' v d v' d' a₁ a₂ b₁ b₂ : K}

theorem ratio_mul (V D V' D' : W.CoordinateRing) :
    ratio e₁ e₂ (V * V') (D * D') = ratio e₁ e₂ V D * ratio e₁ e₂ V' D' := by
  simp only [ratio, map_mul]
  rw [div_mul_div_comm]
  ring_nf

theorem Nonvanishing.mul {V D V' D' : W.CoordinateRing} (h : Nonvanishing e₁ e₂ V D)
    (h' : Nonvanishing e₁ e₂ V' D') : Nonvanishing e₁ e₂ (V * V') (D * D') where
  v₁ := by rw [map_mul]; exact mul_ne_zero h.v₁ h'.v₁
  v₂ := by rw [map_mul]; exact mul_ne_zero h.v₂ h'.v₂
  d₁ := by rw [map_mul]; exact mul_ne_zero h.d₁ h'.d₁
  d₂ := by rw [map_mul]; exact mul_ne_zero h.d₂ h'.d₂

/-- Functions with the same zeros and poles have the same ratio. -/
theorem ratio_eq (he : ∀ c : F, e₁ (algebraMap F _ c) = e₂ (algebraMap F _ c)) {i j : Nat}
    {V D V' D' : W.CoordinateRing} (h : IsMiller P A i j V D) (h' : IsMiller P A i j V' D')
    (hn : Nonvanishing e₁ e₂ V D) (hn' : Nonvanishing e₁ e₂ V' D') :
    ratio e₁ e₂ V D = ratio e₁ e₂ V' D' := by
  have hspan : Ideal.span {V * D'} = Ideal.span {V' * D} := by
    rw [IsMiller] at h h'
    apply pointIdeal_mul_cancel (A := A)
    apply pointIdeal_pow_mul_cancel (A := P) j
    simp only [← Ideal.span_singleton_mul_span_singleton]
    calc pointIdeal P ^ j * (pointIdeal A * (Ideal.span {V} * Ideal.span {D'}))
        = Ideal.span {V} * pointIdeal A * pointIdeal P ^ j * Ideal.span {D'} := by ring
      _ = Ideal.span {D'} * pointIdeal P ^ i * Ideal.span {D} := by rw [h]; ring
      _ = pointIdeal P ^ j * (pointIdeal A * (Ideal.span {V'} * Ideal.span {D})) := by
          rw [← h']
          ring
  obtain ⟨c, hc, heq⟩ := exists_mul_algebraMap_of_span_eq hspan
  have h₁ := congrArg e₁ heq
  have h₂ := congrArg e₂ heq
  simp only [map_mul] at h₁ h₂
  rw [he] at h₁
  have hc₂ : e₂ (algebraMap F _ c) ≠ 0 := by
    intro h0
    rw [h0, mul_zero] at h₂
    exact mul_ne_zero hn'.v₂ hn.d₂ h₂
  rw [ratio, ratio, div_eq_div_iff (mul_ne_zero hn.v₂ hn.d₁) (mul_ne_zero hn'.v₂ hn'.d₁)]
  apply mul_right_cancel₀ hc₂
  linear_combination (e₁ V' * e₁ D) * h₂ - (e₂ V' * e₂ D) * h₁

/-- The factors of the lines do not matter. -/
theorem div_of_lines {c k x₁ x₂ y₁ y₂ : K} (hc : c ≠ 0) (hk : k ≠ 0) :
    v * v' * (c * x₁) * (k * y₂) / (d * d' * (c * x₂) * (k * y₁)) =
      v / d * (v' / d') * (x₁ * y₂ / (x₂ * y₁)) := by
  have hv : v * v' * (c * x₁) * (k * y₂) = c * k * (v * v' * (x₁ * y₂)) := by ring
  have hd : d * d' * (c * x₂) * (k * y₁) = c * k * (d * d' * (x₂ * y₁)) := by ring
  rw [hv, hd, mul_div_mul_left _ _ (mul_ne_zero hc hk), mul_div_mul_comm, mul_div_mul_comm v]

namespace Carries

theorem zero (P : W.Point) : Carries e₁ e₂ P 0 0 1 1 1 := by
  refine ⟨1, 1, ?_, by simp [ratio], fun _ _ => by constructor <;> simp⟩
  simp [IsMiller]

theorem one (P : W.Point) (g : K) : Carries e₁ e₂ P P 1 g g 1 :=
  ⟨1, 1, IsMiller.one P, by simp [ratio], fun _ _ => by constructor <;> simp⟩

theorem div (h : Carries e₁ e₂ P A n g v d) : Carries e₁ e₂ P A n g (v / d) 1 := by
  obtain ⟨V, D, hM, hv, hne⟩ := h
  refine ⟨V, D, hM, by rw [div_one, hv], fun h0 _ => hne ?_ ?_⟩
  · exact fun hv0 => h0 (by rw [hv0, zero_div])
  · exact fun hd0 => h0 (by rw [hd0, div_zero])

/-- What is carried for one point does not depend on how it was reached. -/
theorem unique (he : ∀ c : F, e₁ (algebraMap F _ c) = e₂ (algebraMap F _ c))
    (h : Carries e₁ e₂ P A n g v d) (h' : Carries e₁ e₂ P A n g v' d') (hv : v ≠ 0) (hd : d ≠ 0)
    (hv' : v' ≠ 0) (hd' : d' ≠ 0) : v / d = v' / d' := by
  obtain ⟨V, D, hM, heq, hne⟩ := h
  obtain ⟨V', D', hM', heq', hne'⟩ := h'
  rw [heq, heq', ratio_eq he hM hM' (hne hv hd) (hne' hv' hd')]

variable [DecidableEq F]

theorem add (h : Carries e₁ e₂ P A n g v d) (h' : Carries e₁ e₂ P A' n' g' v' d')
    (hchord : ValuesOf e₁ e₂ (chord A A') a₁ a₂)
    (hvertical : ValuesOf e₂ e₁ (vertical (A + A')) b₁ b₂) :
    Carries e₁ e₂ P (A + A') (n + n') (g * g') (v * v' * a₁ * b₁) (d * d' * a₂ * b₂) := by
  obtain ⟨V, D, hM, hv, hne⟩ := h
  obtain ⟨V', D', hM', hv', hne'⟩ := h'
  obtain ⟨c, hc, rfl, rfl⟩ := hchord
  obtain ⟨k, hk, rfl, rfl⟩ := hvertical
  have hsum := hM.add hM'
  rw [add_zero] at hsum
  refine ⟨_, _, hsum, ?_, ?_⟩
  · rw [div_of_lines hc hk, hv, hv', ratio_mul, ratio_mul, mul_mul_mul_comm, mul_assoc]
    rfl
  · intro h₁ h₂
    have hv₁ := left_ne_zero_of_mul (left_ne_zero_of_mul h₁)
    have hd₁ := left_ne_zero_of_mul (left_ne_zero_of_mul h₂)
    have hlines : Nonvanishing e₁ e₂ (chord A A') (vertical (A + A')) :=
      ⟨right_ne_zero_of_mul (right_ne_zero_of_mul (left_ne_zero_of_mul h₁)),
        right_ne_zero_of_mul (right_ne_zero_of_mul (left_ne_zero_of_mul h₂)),
        right_ne_zero_of_mul (right_ne_zero_of_mul h₂),
        right_ne_zero_of_mul (right_ne_zero_of_mul h₁)⟩
    exact ((hne (left_ne_zero_of_mul hv₁) (left_ne_zero_of_mul hd₁)).mul
      (hne' (right_ne_zero_of_mul hv₁) (right_ne_zero_of_mul hd₁))).mul hlines

end Carries

section Closing

variable [DecidableEq F] (e₁ e₂)

/-- What the last step contributes too much when it takes `-B + B` for the double of
`-B`: the tangent over two verticals. -/
noncomputable def slip (B : W.Point) : K :=
  ratio e₁ e₂ (chord (-B) (-B)) (vertical (-B + -B) * vertical B)

/-- At infinity, the quotient `v / d` is the ratio of a Miller function for `n`, up
to `g` and the factor `k`. -/
def Closes (P : W.Point) (n : Nat) (g k v d : K) : Prop :=
  ∃ w u, Carries e₁ e₂ P 0 n g w u ∧ w ≠ 0 ∧ u ≠ 0 ∧ v / d = w / u * k

variable {e₁ e₂} {B : W.Point} {k k' : K}

omit [DecidableEq F] in
theorem Carries.closes (h : Carries e₁ e₂ P 0 n g v d) (hv : v ≠ 0) (hd : d ≠ 0) :
    Closes e₁ e₂ P n g 1 v d :=
  ⟨v, d, h, hv, hd, (mul_one _).symm⟩

theorem Carries.closes_slip (h : Carries e₁ e₂ P (-B) n g v d) (h' : Carries e₁ e₂ P B n' g' v' d')
    (hchord : ValuesOf e₁ e₂ (chord (-B) (-B)) a₁ a₂)
    (hvertical : ValuesOf e₂ e₁ (vertical (-B + -B)) b₁ b₂) (h₁ : e₁ (vertical B) ≠ 0)
    (h₂ : e₂ (vertical B) ≠ 0) (hv : v * v' ≠ 0) (hd : d * d' ≠ 0) :
    Closes e₁ e₂ P (n + n') (g * g') (slip e₁ e₂ B) (v * v' * a₁ * b₁) (d * d' * a₂ * b₂) := by
  have hsum : -B + B = 0 := neg_add_cancel B
  have hline : ValuesOf e₁ e₂ (chord (-B) B) (e₁ (vertical B)) (e₂ (vertical B)) := by
    rw [chord_of_add_eq_zero hsum, vertical_neg]
    exact ⟨1, one_ne_zero, (one_mul _).symm, (one_mul _).symm⟩
  have hone : ValuesOf e₂ e₁ (vertical (-B + B)) 1 1 := by
    rw [hsum, vertical_zero]
    exact ⟨1, one_ne_zero, by rw [map_one, one_mul], by rw [map_one, one_mul]⟩
  have hadd := h.add h' hline hone
  rw [hsum, mul_one, mul_one] at hadd
  refine ⟨_, _, hadd, mul_ne_zero hv h₁, mul_ne_zero hd h₂, ?_⟩
  obtain ⟨c, hc, rfl, rfl⟩ := hchord
  obtain ⟨k, hk, rfl, rfl⟩ := hvertical
  rw [div_of_lines hc hk, slip, ratio, map_mul, map_mul, mul_div_mul_comm (v * v'),
    mul_div_mul_comm v]
  field_simp

omit [DecidableEq F] in
/-- Two ways to close give the same value when they do so with the same factor. -/
theorem Closes.div_eq_iff (he : ∀ c : F, e₁ (algebraMap F _ c) = e₂ (algebraMap F _ c))
    (h : Closes e₁ e₂ P n g k v d) (h' : Closes e₁ e₂ P n g k' v' d') :
    v / d = v' / d' ↔ k = k' := by
  obtain ⟨w, u, hc, hw, hu, heq⟩ := h
  obtain ⟨w', u', hc', hw', hu', heq'⟩ := h'
  rw [heq, heq', hc.unique he hc' hw hu hw' hu']
  exact mul_right_inj' (div_ne_zero hw' hu')

end Closing

end IdBasedEncryption.MillerRatios
