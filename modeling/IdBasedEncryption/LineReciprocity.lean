import IdBasedEncryption.MillerFunctions
import IdBasedEncryption.MordellCurve

namespace IdBasedEncryption.LineReciprocity

open WeierstrassCurve.Affine WeierstrassCurve.Affine.CoordinateRing CurveDivisors MillerFunctions
open MordellCurve

section Identities

variable {K : Type*} [Field K] {z l k x₁ x₂ x₃ m n u₁ u₂ u₃ : K}

/-- Two lines evaluated at each other's points, the points of the first being
moved by a cube root of unity. -/
theorem prod_line_line (hz : z ^ 3 = 1) (h₁ : x₁ + x₂ + x₃ = l ^ 2)
    (h₂ : x₁ * x₂ + x₁ * x₃ + x₂ * x₃ = -2 * l * k) (h₃ : x₁ * x₂ * x₃ = k ^ 2 - 1)
    (e₁ : u₁ + u₂ + u₃ = m ^ 2) (e₂ : u₁ * u₂ + u₁ * u₃ + u₂ * u₃ = -2 * m * n)
    (e₃ : u₁ * u₂ * u₃ = n ^ 2 - 1) :
    (l * x₁ + k - (m * (z * x₁) + n)) * (l * x₂ + k - (m * (z * x₂) + n)) *
        (l * x₃ + k - (m * (z * x₃) + n)) =
      -((m * u₁ + n - (l * (z ^ 2 * u₁) + k)) * (m * u₂ + n - (l * (z ^ 2 * u₂) + k)) *
        (m * u₃ + n - (l * (z ^ 2 * u₃) + k))) := by
  set a := l - m * z with ha
  set b := k - n with hb
  have hleft (x : K) : l * x + k - (m * (z * x) + n) = a * x + b := by rw [ha, hb]; ring
  have hright (u : K) : m * u + n - (l * (z ^ 2 * u) + k) = -(z ^ 2 * a * u + b) := by
    rw [ha, hb]
    linear_combination -(m * u) * hz
  have hmid : a ^ 3 * (k ^ 2 - 1) - 2 * a ^ 2 * b * l * k + a * b ^ 2 * l ^ 2 =
      a ^ 3 * (n ^ 2 - 1) - 2 * a ^ 2 * b * (m * z) * n + a * b ^ 2 * (m * z) ^ 2 := by
    rw [ha, hb]
    ring
  rw [hleft, hleft, hleft, hright, hright, hright]
  linear_combination a ^ 3 * h₃ + a ^ 2 * b * h₂ + a * b ^ 2 * h₁ - z ^ 6 * a ^ 3 * e₃ -
    z ^ 4 * a ^ 2 * b * e₂ - z ^ 2 * a * b ^ 2 * e₁ + hmid -
    ((z ^ 3 + 1) * a ^ 3 * (n ^ 2 - 1) - 2 * a ^ 2 * b * m * n * z) * hz

theorem prod_vertical_line {c d : K} (hz : z ^ 3 = 1) (h₁ : x₁ + x₂ + x₃ = l ^ 2)
    (h₂ : x₁ * x₂ + x₁ * x₃ + x₂ * x₃ = -2 * l * k) (h₃ : x₁ * x₂ * x₃ = k ^ 2 - 1)
    (hd : d ^ 2 = c ^ 3 + 1) :
    (z * x₁ - c) * (z * x₂ - c) * (z * x₃ - c) =
      (d - (l * (z ^ 2 * c) + k)) * (-d - (l * (z ^ 2 * c) + k)) := by
  linear_combination z ^ 3 * h₃ - z ^ 2 * c * h₂ + z * c ^ 2 * h₁ +
    (k ^ 2 - 1 - z * l ^ 2 * c ^ 2) * hz + hd

theorem mul_line_neg {t d : K} (e₁ : u₁ + u₂ + u₃ = m ^ 2)
    (e₂ : u₁ * u₂ + u₁ * u₃ + u₂ * u₃ = -2 * m * n) (e₃ : u₁ * u₂ * u₃ = n ^ 2 - 1)
    (hd : d ^ 2 = t ^ 3 + 1) :
    (d - (m * t + n)) * (-d - (m * t + n)) = -((t - u₁) * (t - u₂) * (t - u₃)) := by
  linear_combination -hd - t ^ 2 * e₁ + t * e₂ - e₃

end Identities

variable {F K : Type*} [Field F] [Field K] [Algebra F K] [DecidableEq F] {z : K} (hz : z ^ 3 = 1)

section EvalPhi

omit [DecidableEq F]

include hz in
theorem phi_equation {x y : F} (h : (mordell F).Equation x y) :
    ((mordell F).map (algebraMap F K)).toAffine.Equation (z * algebraMap F K x)
      (algebraMap F K y) := by
  have hxy := congrArg (algebraMap F K) (MordellCurve.equation_iff.1 h)
  simp only [map_add, map_pow, map_one] at hxy
  simp only [WeierstrassCurve.Affine.equation_iff, WeierstrassCurve.map_a₁, WeierstrassCurve.map_a₂,
    WeierstrassCurve.map_a₃, WeierstrassCurve.map_a₄, WeierstrassCurve.map_a₆, mordell_a₁,
    mordell_a₂, mordell_a₃, mordell_a₄, mordell_a₆, map_zero, map_one]
  linear_combination hxy - algebraMap F K x ^ 3 * hz

/-- Evaluation of functions at the image `(z x, y)` of a point. -/
noncomputable def evalPhi {x y : F} (h : (mordell F).Equation x y) :
    (mordell F).CoordinateRing →+* K :=
  evalAt (phi_equation hz h)

@[simp] theorem evalPhi_algebraMap {x y : F} (h : (mordell F).Equation x y) (c : F) :
    evalPhi hz h (algebraMap F _ c) = algebraMap F K c :=
  evalAt_algebraMap _ c

@[simp] theorem evalPhi_XClass {x y : F} (h : (mordell F).Equation x y) (u : F) :
    evalPhi hz h (XClass (mordell F) u) = z * algebraMap F K x - algebraMap F K u :=
  evalAt_XClass _ u

end EvalPhi

/-- `y = m x + n` is the line through `A`, `B` and `-(A + B)`, whose first
coordinates are `u₁`, `u₂` and `u₃`. -/
structure IsChord (A B : (mordell F).Point) (m n u₁ u₂ u₃ : F) : Prop where
  fst : ∃ h, A = .some u₁ (m * u₁ + n) h
  snd : ∃ h, B = .some u₂ (m * u₂ + n) h
  neg_add : ∃ h, -(A + B) = .some u₃ (m * u₃ + n) h
  sum : u₁ + u₂ + u₃ = m ^ 2
  pairs : u₁ * u₂ + u₁ * u₃ + u₂ * u₃ = -2 * m * n
  prod : u₁ * u₂ * u₃ = n ^ 2 - 1
  chord_eq : chord A B = YClass (mordell F) (linePolynomial u₁ (m * u₁ + n) m)

theorem exists_isChord {A B : (mordell F).Point} (hA : A ≠ 0) (hB : B ≠ 0) (hAB : A + B ≠ 0) :
    ∃ m n u₁ u₂ u₃, IsChord A B m n u₁ u₂ u₃ := by
  rcases A with _ | ⟨u₁, v₁, h₁⟩
  · exact absurd rfl hA
  rcases B with _ | ⟨u₂, v₂, h₂⟩
  · exact absurd rfl hB
  have hu : ¬(u₁ = u₂ ∧ v₁ = (mordell F).negY u₂ v₂) := fun h => hAB (Point.add_of_Y_eq h.1 h.2)
  have hv := eq_slope_mul_add h₁.1 h₂.1 hu rfl
  obtain ⟨hpairs, hprod⟩ := chord_symmetric h₁.1 h₂.1 hu rfl rfl rfl
  have hchord : chord (.some u₁ v₁ h₁) (.some u₂ v₂ h₂) =
      YClass (mordell F) (linePolynomial u₁ v₁ ((mordell F).slope u₁ u₂ v₁ v₂)) := if_neg hu
  have hns := (nonsingular_neg ..).2 (nonsingular_add h₁ h₂ hu)
  have hneg := congrArg Neg.neg (@Point.add_some _ _ _ _ _ _ _ _ hu h₁ h₂)
  rw [Point.neg_some] at hneg
  set m := (mordell F).slope u₁ u₂ v₁ v₂
  have hx : (mordell F).addX u₁ u₂ m = m ^ 2 - u₁ - u₂ := addX_eq ..
  have hy : (mordell F).negY ((mordell F).addX u₁ u₂ m) ((mordell F).addY u₁ u₂ v₁ m) =
      m * (m ^ 2 - u₁ - u₂) + (v₁ - m * u₁) := by
    rw [negY_eq, addY_eq]
    ring
  have hv₁ : m * u₁ + (v₁ - m * u₁) = v₁ := by ring
  have hv₂ : m * u₂ + (v₁ - m * u₁) = v₂ := by rw [hv]; ring
  refine ⟨m, v₁ - m * u₁, u₁, u₂, m ^ 2 - u₁ - u₂, ⟨?_, ?_⟩, ⟨?_, ?_⟩, ⟨?_, ?_⟩, by ring,
    hpairs, hprod, ?_⟩
  · rwa [hv₁]
  · simp only [hv₁]
  · rwa [hv₂]
  · simp only [hv₂]
  · rw [hy] at hns
    rwa [hx] at hns
  · rw [hneg, Point.some.injEq]
    exact ⟨hx, hy⟩
  · rw [hchord, hv₁]

section IsChord

variable {A B : (mordell F).Point} {m n u₁ u₂ u₃ : F} (hm : IsChord A B m n u₁ u₂ u₃)
include hm

theorem IsChord.evalPhi_chord {x y : F} (h : (mordell F).Equation x y) :
    evalPhi hz h (chord A B) =
      algebraMap F K y - (algebraMap F K m * (z * algebraMap F K x) + algebraMap F K n) := by
  rw [hm.chord_eq, evalPhi, evalAt_YClass]
  simp only [map_add, map_mul]
  ring

theorem IsChord.map_sum : algebraMap F K u₁ + algebraMap F K u₂ + algebraMap F K u₃ =
    algebraMap F K m ^ 2 := by
  simpa using congrArg (algebraMap F K) hm.sum

theorem IsChord.map_pairs : algebraMap F K u₁ * algebraMap F K u₂ +
    algebraMap F K u₁ * algebraMap F K u₃ + algebraMap F K u₂ * algebraMap F K u₃ =
      -2 * algebraMap F K m * algebraMap F K n := by
  simpa [map_ofNat] using congrArg (algebraMap F K) hm.pairs

theorem IsChord.map_prod : algebraMap F K u₁ * algebraMap F K u₂ * algebraMap F K u₃ =
    algebraMap F K n ^ 2 - 1 := by
  simpa using congrArg (algebraMap F K) hm.prod

end IsChord

/-- Evaluation of functions at the image of a point under `(x, y) ↦ (z x, y)`. -/
noncomputable def valueAt : (mordell F).Point → (mordell F).CoordinateRing →* K
  | .zero => 1
  | .some _ _ h => (evalPhi hz h.1 : (mordell F).CoordinateRing →* K)

omit [DecidableEq F] in
@[simp] theorem valueAt_zero (f : (mordell F).CoordinateRing) : valueAt hz 0 f = 1 := rfl

omit [DecidableEq F] in
@[simp] theorem valueAt_some {x y : F} (h : (mordell F).Nonsingular x y)
    (f : (mordell F).CoordinateRing) : valueAt hz (.some x y h) f = evalPhi hz h.1 f := rfl

/-- The line `y = l x + k` moved by `(x, y) ↦ (z x, y)`. -/
def lineAt (z : K) (l k : F) : (mordell F).Point → K
  | .zero => 1
  | .some u v _ =>
      algebraMap F K v - (algebraMap F K l * (z ^ 2 * algebraMap F K u) + algebraMap F K k)

/-- The vertical line through the first coordinate `x` moved by
`(x, y) ↦ (z x, y)`. -/
def verticalAt (z : K) (x : F) : (mordell F).Point → K
  | .zero => 1
  | .some u _ _ => z * algebraMap F K x - algebraMap F K u

omit [DecidableEq F] in
theorem map_equation {x y : F} (h : (mordell F).Equation x y) :
    algebraMap F K y ^ 2 = algebraMap F K x ^ 3 + 1 := by
  simpa using congrArg (algebraMap F K) (MordellCurve.equation_iff.1 h)

section Line

variable {S T : (mordell F).Point} {l k x₁ x₂ x₃ : F} (hl : IsChord S T l k x₁ x₂ x₃)
include hl

theorem IsChord.valueAt_vertical {A : (mordell F).Point} (hA : A ≠ 0) :
    (valueAt hz S * valueAt hz T * valueAt hz (-(S + T))) (vertical A) =
      lineAt z l k A * lineAt z l k (-A) := by
  rcases A with _ | ⟨c, d, hd⟩
  · exact absurd rfl hA
  obtain ⟨_, hS⟩ := hl.fst
  obtain ⟨_, hT⟩ := hl.snd
  obtain ⟨_, hST⟩ := hl.neg_add
  have h := prod_vertical_line hz hl.map_sum hl.map_pairs hl.map_prod (map_equation hd.1)
  rw [hST, hS, hT]
  simpa [lineAt] using h

theorem IsChord.valueAt_chord {A B : (mordell F).Point} (hA : A ≠ 0) (hB : B ≠ 0)
    (hAB : A + B ≠ 0) :
    (valueAt hz S * valueAt hz T * valueAt hz (-(S + T))) (chord A B) =
      -1 * (lineAt z l k A * lineAt z l k B * lineAt z l k (-(A + B))) := by
  obtain ⟨m, n, u₁, u₂, u₃, hm⟩ := exists_isChord hA hB hAB
  obtain ⟨_, hS⟩ := hl.fst
  obtain ⟨_, hT⟩ := hl.snd
  obtain ⟨_, hST⟩ := hl.neg_add
  obtain ⟨_, hA'⟩ := hm.fst
  obtain ⟨_, hB'⟩ := hm.snd
  obtain ⟨_, hAB'⟩ := hm.neg_add
  have h := prod_line_line hz (hl.map_sum (K := K)) hl.map_pairs hl.map_prod hm.map_sum
    hm.map_pairs hm.map_prod
  rw [hST, hS, hT]
  simp only [MonoidHom.mul_apply, valueAt_some, hm.evalPhi_chord hz, map_add, map_mul]
  rw [h, hAB', hA', hB']
  simp [lineAt]

end Line

omit [DecidableEq F] in
theorem valueAt_neg_vertical {x y : F} (h : (mordell F).Nonsingular x y) {A : (mordell F).Point}
    (hA : A ≠ 0) :
    (valueAt hz (.some x y h) * valueAt hz (-.some x y h)) (vertical A) =
      verticalAt z x A * verticalAt z x (-A) := by
  rcases A with _ | ⟨c, d, hd⟩
  · exact absurd rfl hA
  · simp [verticalAt]

theorem valueAt_neg_chord {x y : F} (h : (mordell F).Nonsingular x y) {A B : (mordell F).Point}
    (hA : A ≠ 0) (hB : B ≠ 0) (hAB : A + B ≠ 0) :
    (valueAt hz (.some x y h) * valueAt hz (-.some x y h)) (chord A B) =
      -1 * (verticalAt z x A * verticalAt z x B * verticalAt z x (-(A + B))) := by
  obtain ⟨m, n, u₁, u₂, u₃, hm⟩ := exists_isChord hA hB hAB
  obtain ⟨_, hA'⟩ := hm.fst
  obtain ⟨_, hB'⟩ := hm.snd
  obtain ⟨_, hAB'⟩ := hm.neg_add
  have hxy : algebraMap F K y ^ 2 = (z * algebraMap F K x) ^ 3 + 1 := by
    rw [map_equation h.1, mul_pow, hz, one_mul]
  have h' := mul_line_neg hm.map_sum hm.map_pairs hm.map_prod hxy
  rw [Point.neg_some]
  simp only [MonoidHom.mul_apply, valueAt_some, hm.evalPhi_chord hz, negY_eq, map_neg]
  rw [h', hAB', hA', hB']
  simp [verticalAt]

end IdBasedEncryption.LineReciprocity
