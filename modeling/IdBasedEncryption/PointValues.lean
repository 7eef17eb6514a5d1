import IdBasedEncryption.MordellGroup
import IdBasedEncryption.SlopeFormulas

namespace IdBasedEncryption.PointValues

open WeierstrassCurve.Affine MordellCurve Gmp Fp2Arith Fp2Value FieldExtension MordellGroup
open CurvePoints SlopeFormulas

variable {p : Nat}

/-- The point of the group that a finite point over `F_p` stands for. -/
structure Represents (P : Point) (x y : ZMod p) : Prop where
  finite : P.infinity = false
  xa : (P.x.a : ZMod p) = x
  xb : (P.x.b : ZMod p) = 0
  ya : (P.y.a : ZMod p) = y
  yb : (P.y.b : ZMod p) = 0

structure ReducedPoint (p : Int) (P : Point) : Prop where
  x : Reduced p P.x
  y : Reduced p P.y

def ofResidue (x : ZMod p) : Fp2 := ⟨x.val, 0⟩

variable [hp : Fact p.Prime]

/-- The canonical form of a point of the group. -/
def ofPoint : E p → Point
  | .zero => pointSetO
  | .some x y _ => ⟨ofResidue x, ofResidue y, false⟩

theorem pos : (0 : Int) < p := Int.natCast_pos.2 hp.out.pos

section Canonical

@[simp] theorem ofPoint_zero : ofPoint (0 : E p) = pointSetO := rfl

theorem reduced_ofResidue (x : ZMod p) : Reduced p (ofResidue x) where
  a_nonneg := Int.natCast_nonneg _
  a_lt := Int.ofNat_lt.2 (ZMod.val_lt x)
  b_nonneg := le_rfl
  b_lt := pos

theorem reducedPoint_some {x y : ZMod p} (h : (mordell (ZMod p)).Nonsingular x y) :
    ReducedPoint p (ofPoint (.some x y h)) :=
  ⟨reduced_ofResidue x, reduced_ofResidue y⟩

theorem represents_some {x y : ZMod p} (h : (mordell (ZMod p)).Nonsingular x y) :
    Represents (ofPoint (.some x y h)) x y := by
  constructor <;> simp [ofPoint, ofResidue]

variable {P : Point} {x y : ZMod p}

theorem Represents.val_x (h : Represents P x y) : val p P.x = algebraMap (ZMod p) (K p) x := by
  ext <;> simp [h.xa, h.xb]

theorem Represents.val_y (h : Represents P x y) : val p P.y = algebraMap (ZMod p) (K p) y := by
  ext <;> simp [h.ya, h.yb]

theorem Represents.eq_ofPoint (h : Represents P x y) (hr : ReducedPoint p P)
    (hxy : (mordell (ZMod p)).Nonsingular x y) : P = ofPoint (.some x y hxy) := by
  have hc := represents_some hxy
  have hcr := reducedPoint_some hxy
  exact Point.ext (eq_of_val_eq hr.x hcr.x (h.val_x.trans hc.val_x.symm))
    (eq_of_val_eq hr.y hcr.y (h.val_y.trans hc.val_y.symm)) h.finite

theorem ofPoint_injective : Function.Injective (ofPoint (p := p)) := by
  intro A B hAB
  cases A with
  | zero =>
      cases B with
      | zero => rfl
      | some x y h => cases congrArg Point.infinity hAB
  | some x y h =>
      cases B with
      | zero => cases congrArg Point.infinity hAB
      | some x' y' h' =>
          have hA := represents_some h
          have hB := represents_some h'
          rw [hAB] at hA
          rw [Point.some.injEq]
          exact ⟨hA.xa.symm.trans hB.xa, hA.ya.symm.trans hB.ya⟩

theorem represents_of_val (hf : P.infinity = false)
    (hx : val p P.x = algebraMap (ZMod p) (K p) x) (hy : val p P.y = algebraMap (ZMod p) (K p) y) :
    Represents P x y where
  finite := hf
  xa := by simpa using congrArg QuadraticAlgebra.re hx
  xb := by simpa using congrArg QuadraticAlgebra.im hx
  ya := by simpa using congrArg QuadraticAlgebra.re hy
  yb := by simpa using congrArg QuadraticAlgebra.im hy

end Canonical

section Add

theorem zpSub_reduced {a b p : Int} (ha : 0 ≤ a) (hap : a < p) (hb : 0 ≤ b) (hbp : b < p) :
    0 ≤ zpSub a b p ∧ zpSub a b p < p := by
  rw [zpSub]
  split <;> omega

theorem zpAdd_reduced {a b p : Int} (ha : 0 ≤ a) (hap : a < p) (hb : 0 ≤ b) (hbp : b ≤ p) :
    0 ≤ zpAdd a b p ∧ zpAdd a b p < p := by
  rw [zpAdd]
  split <;> omega

theorem reduced_fp2Sub {p : Int} {x y : Fp2} (hx : Reduced p x) (hy : Reduced p y) :
    Reduced p (fp2Sub x y p) := by
  obtain ⟨h₁, h₂⟩ := zpSub_reduced hx.a_nonneg hx.a_lt hy.a_nonneg hy.a_lt
  obtain ⟨h₃, h₄⟩ := zpSub_reduced hx.b_nonneg hx.b_lt hy.b_nonneg hy.b_lt
  exact ⟨h₁, h₂, h₃, h₄⟩

theorem reduced_fp2Add {p : Int} {x y : Fp2} (hx : Reduced p x) (hy : Reduced p y) :
    Reduced p (fp2Add x y p) := by
  obtain ⟨h₁, h₂⟩ := zpAdd_reduced hx.a_nonneg hx.a_lt hy.a_nonneg hy.a_lt.le
  obtain ⟨h₃, h₄⟩ := zpAdd_reduced hx.b_nonneg hx.b_lt hy.b_nonneg hy.b_lt.le
  exact ⟨h₁, h₂, h₃, h₄⟩

theorem reduced_pointSetO : ReducedPoint p pointSetO := by
  have h1 : (1 : Int) < p := by exact_mod_cast hp.out.one_lt
  exact ⟨⟨le_rfl, pos, le_rfl, pos⟩, ⟨zero_le_one, h1, le_rfl, pos⟩⟩

theorem reduced_pointAdd_of_finite {P Q : Point} (hP : ReducedPoint p P) (hfP : P.infinity = false)
    (hQ : Reduced p Q.x) (hfQ : Q.infinity = false) : ReducedPoint p (pointAdd P Q p) := by
  have hpp := pos (p := p)
  rw [pointAdd, if_neg (by simp [hfP]), if_neg (by simp [hfQ])]
  split
  · split
    · exact reduced_pointSetO
    · exact ⟨reduced_fp2Sub (reduced_fp2Sqr hpp _) (reduced_fp2Add hP.x hP.x),
        reduced_fp2Sub (reduced_fp2Mul hpp _ _) hP.y⟩
  · exact ⟨reduced_fp2Sub (reduced_fp2Sub (reduced_fp2Sqr hpp _) hP.x) hQ,
      reduced_fp2Sub (reduced_fp2Mul hpp _ _) hP.y⟩

theorem reduced_pointAdd {P Q : Point} (hP : ReducedPoint p P) (hQ : ReducedPoint p Q) :
    ReducedPoint p (pointAdd P Q p) := by
  by_cases hfP : P.infinity = true
  · rwa [pointAdd, if_pos hfP]
  · by_cases hfQ : Q.infinity = true
    · rwa [pointAdd, if_neg hfP, if_pos hfQ]
    · exact reduced_pointAdd_of_finite hP (by simpa using hfP) hQ.x (by simpa using hfQ)

/-- A finite point with the coordinates that the slope `l` leads to. -/
structure OnLine (R : Point) (x₁ x₂ y₁ l : K p) : Prop where
  finite : R.infinity = false
  x : val p R.x = l ^ 2 - x₁ - x₂
  y : val p R.y = (x₁ - (l ^ 2 - x₁ - x₂)) * l - y₁

variable [Fact (p % 4 = 3)] {P Q : Point} {x₁ y₁ x₂ y₂ : ZMod p}

theorem pointAdd_chord (hP : P.infinity = false) (hQ : Q.infinity = false) (hx : P.x ≠ Q.x) :
    OnLine (pointAdd P Q p) (val p P.x) (val p Q.x) (val p P.y)
      ((val p Q.y - val p P.y) / (val p Q.x - val p P.x)) := by
  rw [pointAdd, if_neg (by simp [hP]), if_neg (by simp [hQ]), if_neg (by simpa using hx)]
  refine ⟨rfl, ?_, ?_⟩
  · simp only [val_fp2Sub, val_fp2Sqr, val_fp2Div]
  · simp only [val_fp2Sub, val_fp2Mul, val_fp2Sqr, val_fp2Div]

/-- The branch for a common first coordinate, unless `fp2_neg` leads from one
second coordinate to the other. -/
theorem pointAdd_tangent (hP : P.infinity = false) (hQ : Q.infinity = false) (hx : P.x = Q.x)
    (hy : P.y ≠ fp2Neg Q.y p) :
    OnLine (pointAdd P Q p) (val p P.x) (val p P.x) (val p P.y)
      (3 * val p P.x ^ 2 / (2 * val p P.y)) := by
  rw [pointAdd, if_neg (by simp [hP]), if_neg (by simp [hQ]), if_pos (by simpa using hx),
    if_neg (by simpa using hy)]
  have hl : val p (fp2Div (fp2Mul (fp2Add (fp2Add P.x P.x p) P.x p) P.x p) (fp2Add P.y P.y p) p) =
      3 * val p P.x ^ 2 / (2 * val p P.y) := by
    simp only [val_fp2Div, val_fp2Mul, val_fp2Add]
    ring
  refine ⟨rfl, ?_, ?_⟩
  · simp only [val_fp2Sub, val_fp2Sqr, val_fp2Add, hl]
    ring
  · simp only [val_fp2Sub, val_fp2Mul, val_fp2Sqr, val_fp2Add, hl]
    ring

omit [Fact (p % 4 = 3)] in
theorem OnLine.represents {R : Point} {l : ZMod p}
    (h : OnLine R (algebraMap (ZMod p) (K p) x₁) (algebraMap (ZMod p) (K p) x₂)
      (algebraMap (ZMod p) (K p) y₁) (algebraMap (ZMod p) (K p) l)) :
    Represents R (l ^ 2 - x₁ - x₂) (-(l * (l ^ 2 - x₁ - x₂ - x₁) + y₁)) := by
  refine represents_of_val h.finite ?_ ?_
  · rw [h.x]
    simp only [map_sub, map_pow]
  · rw [h.y]
    simp only [map_sub, map_pow, map_neg, map_add, map_mul]
    ring

theorem pointAdd_represents (hP : Represents P x₁ y₁) (hPr : ReducedPoint p P)
    (hQ : Represents Q x₂ y₂) (hQr : Reduced p Q.x)
    (h₁ : (mordell (ZMod p)).Equation x₁ y₁) (h₂ : (mordell (ZMod p)).Equation x₂ y₂)
    (hxy : ¬(x₁ = x₂ ∧ y₁ = -y₂)) :
    Represents (pointAdd P Q p) (((mordell (ZMod p)).slope x₁ x₂ y₁ y₂) ^ 2 - x₁ - x₂)
        (-(((mordell (ZMod p)).slope x₁ x₂ y₁ y₂) *
          (((mordell (ZMod p)).slope x₁ x₂ y₁ y₂) ^ 2 - x₁ - x₂ - x₁) + y₁)) := by
  have hinj := (algebraMap (ZMod p) (K p)).injective
  by_cases hx : x₁ = x₂
  · have hPQ : P.x = Q.x := eq_of_val_eq hPr.x hQr (by rw [hP.val_x, hQ.val_x, hx])
    obtain rfl : y₁ = y₂ := Y_eq_of_Y_ne h₁ h₂ hx fun hy => hxy ⟨hx, by rwa [negY_eq] at hy⟩
    subst hx
    have hne : y₁ ≠ -y₁ := fun hy => hxy ⟨rfl, hy⟩
    have hneq : P.y ≠ fp2Neg Q.y p := by
      intro he
      have hv := congrArg (val p) he
      rw [val_fp2Neg, hP.val_y, hQ.val_y, ← map_neg] at hv
      exact hne (hinj hv)
    have hl := pointAdd_tangent (p := p) hP.finite hQ.finite hPQ hneq
    rw [hP.val_x, hP.val_y] at hl
    apply OnLine.represents
    rw [slope_self hne]
    simpa only [map_div₀, map_mul, map_pow, map_ofNat] using hl
  · have hPQ : P.x ≠ Q.x := by
      intro he
      have hv := congrArg (val p) he
      rw [hP.val_x, hQ.val_x] at hv
      exact hx (hinj hv)
    have hl := pointAdd_chord (p := p) hP.finite hQ.finite hPQ
    rw [hP.val_x, hP.val_y, hQ.val_x, hQ.val_y] at hl
    apply OnLine.represents
    rw [slope_of_ne _ _ hx, ← neg_sub y₂, ← neg_sub x₂, neg_div_neg_eq]
    simpa only [map_div₀, map_sub] using hl

/-- A representation of a finite point whose first coordinate is reduced. -/
def Stands (P : Point) (A : E p) : Prop :=
  ∃ x y h, A = .some x y h ∧ Represents P x y ∧ Reduced p P.x

omit [Fact (p % 4 = 3)] in
theorem stands_ofPoint {A : E p} (hA : A ≠ 0) : Stands (ofPoint A) A := by
  rcases A with _ | ⟨x, y, h⟩
  · exact absurd rfl hA
  · exact ⟨x, y, h, rfl, represents_some h, (reducedPoint_some h).x⟩

omit [Fact (p % 4 = 3)] in
/-- The second coordinate is negated as `fp2_neg` does it, which leaves `p` for
zero. -/
theorem Stands.neg {A : E p} (h : Stands P A) : Stands { P with y := fp2Neg P.y p } (-A) := by
  obtain ⟨x, y, hxy, rfl, hP, hr⟩ := h
  have hneg : (mordell (ZMod p)).Nonsingular x (-y) := by
    rw [← negY_eq]
    exact (nonsingular_neg ..).2 hxy
  refine ⟨x, -y, hneg, ?_, ⟨hP.finite, hP.xa, hP.xb, ?_, ?_⟩, hr⟩
  · simp [Point.neg_some]
  · simp [fp2Neg, hP.ya]
  · simp [fp2Neg, hP.yb]

theorem pointAdd_stands {A B : E p} (hA : A ≠ 0) (hQ : Stands Q B) (hAB : A + B ≠ 0) :
    pointAdd (ofPoint A) Q p = ofPoint (A + B) := by
  rcases A with _ | ⟨x₁, y₁, h₁⟩
  · exact absurd rfl hA
  obtain ⟨x₂, y₂, h₂, rfl, hQ, hQr⟩ := hQ
  have hxy : ¬(x₁ = x₂ ∧ y₁ = (mordell (ZMod p)).negY x₂ y₂) := fun h =>
    hAB (Point.add_of_Y_eq h.1 h.2)
  have hR := pointAdd_represents (represents_some h₁) (reducedPoint_some h₁) hQ hQr h₁.1 h₂.1
    (by rwa [negY_eq] at hxy)
  have hr := reduced_pointAdd_of_finite (reducedPoint_some h₁) (represents_some h₁).finite hQr hQ.finite
  rw [Point.add_some hxy]
  refine Represents.eq_ofPoint ?_ hr _
  rwa [addX_eq, addY_eq]

/-- `point_add` on finite points. It does not recognise opposite points, as
`fp2_neg` turns a second component of zero into `p`. -/
theorem pointAdd_ofPoint {A B : E p} (hA : A ≠ 0) (hB : B ≠ 0) (hAB : A + B ≠ 0) :
    pointAdd (ofPoint A) (ofPoint B) p = ofPoint (A + B) :=
  pointAdd_stands hA (stands_ofPoint hB) hAB

end Add

section Proj

/-- The point of the group that projective coordinates stand for. -/
def ProjRepresents (R : Proj) (A : E p) : Prop :=
  ∃ x y h, A = .some x y h ∧ (R.z : ZMod p) ≠ 0 ∧ (R.x : ZMod p) = x * R.z ^ 2 ∧
    (R.y : ZMod p) = y * R.z ^ 3

variable {R : Proj} {A B : E p}

theorem ProjRepresents.ne_zero (h : ProjRepresents R A) : A ≠ 0 := by
  obtain ⟨x, y, hxy, rfl, -⟩ := h
  exact Point.some_ne_zero hxy

theorem projRepresents_one {x y : Int} {h : (mordell (ZMod p)).Nonsingular x y} :
    ProjRepresents ⟨x, y, 1⟩ (.some (x : ZMod p) (y : ZMod p) h) :=
  ⟨x, y, h, rfl, by simp, by simp, by simp⟩

theorem ProjRepresents.double (h2 : (2 : ZMod p) ≠ 0) (h : ProjRepresents R A)
    (hA : A + A ≠ 0) : ProjRepresents (projDouble R p) (A + A) := by
  obtain ⟨x, y, hxy, rfl, hz, hx, hy⟩ := h
  have hne := y_ne_neg_of_add_self hA
  have hy0 := y_ne_zero_of_add_self hA
  have hslope : (mordell (ZMod p)).slope x x y y * (2 * y) = 3 * x ^ 2 := by
    rw [slope_self hne, div_mul_cancel₀ _ (mul_ne_zero h2 hy0)]
  obtain ⟨hz', hx', hy'⟩ := projDouble_slope h2 hz hx hy hy0 hslope
  refine ⟨_, _, _, Point.add_self_of_Y_ne (by rwa [negY_eq]), hz', ?_, ?_⟩
  · rw [hx', addX_eq]
  · rw [hy', addY_eq]
    ring

theorem ProjRepresents.mixIn (h2 : (2 : ZMod p) ≠ 0) (hodd : p % 2 = 1) (h : ProjRepresents R A)
    {a b : Int} {hab : (mordell (ZMod p)).Nonsingular a b}
    (hne : A ≠ .some (a : ZMod p) (b : ZMod p) hab)
    (hneg : A + .some (a : ZMod p) (b : ZMod p) hab ≠ 0) :
    ProjRepresents (projMixIn R a b p) (A + .some (a : ZMod p) (b : ZMod p) hab) := by
  obtain ⟨x, y, hxy, rfl, hz, hx, hy⟩ := h
  have hxa := x_ne_of_add_ne_zero hne hneg
  obtain ⟨hz', hx', hy'⟩ := projMixIn_slope h2 hz hx hy hodd hxa.symm (slope_mul_sub y b hxa)
  refine ⟨_, _, _, Point.add_of_X_ne hxa, hz', ?_, ?_⟩
  · rw [hx', addX_eq]
  · rw [hy', addY_eq]
    ring

theorem ProjRepresents.affine (h : ProjRepresents R A) : projAffine R p = ofPoint A := by
  obtain ⟨x, y, hxy, rfl, hz, hx, hy⟩ := h
  have hinv : ((mpzInvert R.z R.z p : Int) : ZMod p) = (R.z : ZMod p)⁻¹ := by
    rw [cast_mpzInvert, if_neg hz]
  have hpp := pos (p := p)
  have h0 : (0 : Int) % p = 0 := Int.zero_emod _
  refine Represents.eq_ofPoint ⟨rfl, ?_, by simp [projAffine], ?_, by simp [projAffine]⟩ ⟨?_, ?_⟩ hxy
  · simp [projAffine, hinv, hx]
    field_simp
  · simp [projAffine, hinv, hy]
    field_simp
  · simpa [projAffine] using reduced_emod hpp (R.x * _) 0
  · simpa [projAffine] using reduced_emod hpp (R.y * _) 0

end Proj

end IdBasedEncryption.PointValues
