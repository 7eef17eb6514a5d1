import IdBasedEncryption.PointValues

namespace IdBasedEncryption.PointAddition

open WeierstrassCurve.Affine MordellCurve Gmp Fp2Arith Fp2Value FieldExtension MordellGroup
open CurvePoints PointValues

section Cells

/-- The cells of the memory that hold points. -/
abbrev Cells (ι : Type) := ι → Point

variable {ι : Type} [DecidableEq ι]

def setX (m : Cells ι) (R : ι) (x : Fp2) : Cells ι := Function.update m R { m R with x }

def setY (m : Cells ι) (R : ι) (y : Fp2) : Cells ι := Function.update m R { m R with y }

def setInfinity (m : Cells ι) (R : ι) (infinity : Bool) : Cells ι :=
  Function.update m R { m R with infinity }

/-- `point_add` on pointers, of which some may be equal. Each step reads the
cells as the steps before it left them. -/
def pointAddAt (R P Q : ι) (p : Int) (m : Cells ι) : Cells ι :=
  if (m P).infinity then Function.update m R (m Q)
  else if (m Q).infinity then Function.update m R (m P)
  else
    let m := setInfinity m R false
    if fp2Equal (m P).x (m Q).x then
      let temp := fp2Neg (m Q).y p
      if fp2Equal (m P).y temp then Function.update m R pointSetO
      else
        let lambda := fp2Add (m P).x (m P).x p
        let lambda := fp2Add lambda (m P).x p
        let lambda := fp2Mul lambda (m P).x p
        let temp := fp2Add (m P).y (m P).y p
        let lambda := fp2Div lambda temp p
        let temp := (m P).x
        let m := setX m R (fp2Sqr lambda p)
        let temp2 := fp2Add temp temp p
        let m := setX m R (fp2Sub (m R).x temp2 p)
        let temp := fp2Sub temp (m R).x p
        let temp := fp2Mul temp lambda p
        setY m R (fp2Sub temp (m P).y p)
    else
      let lambda := fp2Sub (m Q).y (m P).y p
      let temp := fp2Sub (m Q).x (m P).x p
      let lambda := fp2Div lambda temp p
      let temp := (m P).x
      let temp2 := fp2Sqr lambda p
      let temp2 := fp2Sub temp2 temp p
      let m := setX m R (fp2Sub temp2 (m Q).x p)
      let temp := fp2Sub temp (m R).x p
      let temp := fp2Mul temp lambda p
      setY m R (fp2Sub temp (m P).y p)

section Set

variable (m : Cells ι) (R i : ι)

@[simp] theorem setX_x_self (x : Fp2) : (setX m R x R).x = x := by simp [setX]

@[simp] theorem setX_y (x : Fp2) : (setX m R x i).y = (m i).y := by
  by_cases h : i = R
  · subst h
    simp [setX]
  · simp [setX, h]

@[simp] theorem setInfinity_x (b : Bool) : (setInfinity m R b i).x = (m i).x := by
  by_cases h : i = R
  · subst h
    simp [setInfinity]
  · simp [setInfinity, h]

@[simp] theorem setInfinity_y (b : Bool) : (setInfinity m R b i).y = (m i).y := by
  by_cases h : i = R
  · subst h
    simp [setInfinity]
  · simp [setInfinity, h]

end Set

/-- Whatever the pointers are, only the destination changes and it receives the
value that distinct cells lead to. -/
theorem pointAddAt_eq (R P Q : ι) (p : Int) (m : Cells ι) :
    pointAddAt R P Q p m = Function.update m R (pointAdd (m P) (m Q) p) := by
  rw [pointAddAt, pointAdd]
  split
  · rfl
  · split
    · rfl
    · simp only [setInfinity_x, setInfinity_y, setX_x_self, setX_y]
      split
      · split
        · simp [setInfinity]
        · simp [setX, setY, setInfinity]
      · simp [setX, setY, setInfinity]

end Cells

section Law

variable {p : Nat} [hp : Fact p.Prime] [hp12 : Fact (p % 12 = 11)]

abbrev E2 (p : Nat) [Fact p.Prime] [Fact (p % 12 = 11)] := (mordell (K p)).Point

/-- A point in canonical coordinates. At infinity they are arbitrary. -/
structure Canonical (P : Point) (A : E2 p) : Prop where
  reduced : ReducedPoint p P
  infinity : P.infinity = true ↔ A = 0
  coordinates : ∀ x y h, A = .some x y h → val p P.x = x ∧ val p P.y = y

/-- Opposite finite points of which the second coordinate has a component that
is zero. -/
def MissedInverse (A B : E2 p) : Prop :=
  ∃ x y h, B = .some x y h ∧ A = -B ∧ (y.re = 0 ∨ y.im = 0)

variable {P Q : Point} {A B : E2 p}

theorem Canonical.finite {x y : K p} {h : (mordell (K p)).Nonsingular x y}
    (hP : Canonical P (.some x y h : E2 p)) : P.infinity = false := by
  rw [← Bool.not_eq_true, hP.infinity]
  exact Point.some_ne_zero h

theorem canonical_some {x y : K p} {h : (mordell (K p)).Nonsingular x y} (hr : ReducedPoint p P)
    (hf : P.infinity = false) (hx : val p P.x = x) (hy : val p P.y = y) :
    Canonical P (.some x y h : E2 p) where
  reduced := hr
  infinity := by simp [hf, Point.some_ne_zero]
  coordinates x' y' h' he := by
    obtain ⟨rfl, rfl⟩ := Point.some.inj he
    exact ⟨hx, hy⟩

omit hp12 in
/-- `fp2_neg` leads to the negative in canonical form unless a component is
zero. -/
theorem eq_fp2Neg_iff {x y : Fp2} (hx : Reduced p x) (hy : Reduced p y) :
    x = fp2Neg y p ↔ val p x = -val p y ∧ (val p y).re ≠ 0 ∧ (val p y).im ≠ 0 := by
  have hpp := pos (p := p)
  have hcomp (a b : Int) (ha : 0 ≤ a) (hap : a < p) (hb : 0 ≤ b) (hbp : b < p) :
      a = p - b ↔ (a : ZMod p) = -(b : ZMod p) ∧ (b : ZMod p) ≠ 0 := by
    have hsum : (a : ZMod p) = -(b : ZMod p) ↔ (p : Int) ∣ a + b := by
      rw [← ZMod.intCast_zmod_eq_zero_iff_dvd, Int.cast_add, eq_neg_iff_add_eq_zero]
    have hzero : (b : ZMod p) ≠ 0 ↔ ¬(p : Int) ∣ b := by
      rw [Ne, ZMod.intCast_zmod_eq_zero_iff_dvd]
    rw [hsum, hzero]
    constructor
    · rintro rfl
      refine ⟨⟨1, by ring⟩, fun hdvd => ?_⟩
      have := Int.eq_zero_of_dvd_of_nonneg_of_lt hb hbp hdvd
      omega
    · rintro ⟨⟨k, hk⟩, hne⟩
      have hk1 : k = 1 := by
        have hb0 : 0 < b := lt_of_le_of_ne hb fun h0 => hne (h0 ▸ dvd_zero _)
        have hlt : k < 2 := by nlinarith
        have hgt : 0 < k := by nlinarith
        omega
      rw [hk1] at hk
      omega
  rw [Fp2.ext_iff, QuadraticAlgebra.ext_iff]
  simp only [fp2Neg, val_re, val_im, QuadraticAlgebra.re_neg, QuadraticAlgebra.im_neg]
  rw [hcomp _ _ hx.a_nonneg hx.a_lt hy.a_nonneg hy.a_lt,
    hcomp _ _ hx.b_nonneg hx.b_lt hy.b_nonneg hy.b_lt]
  tauto

theorem canonical_pointSetO : Canonical pointSetO (0 : E2 p) where
  reduced := reduced_pointSetO
  infinity := by simp [pointSetO]
  coordinates x y h he := absurd he.symm (Point.some_ne_zero h)

section Some

variable {x₁ y₁ x₂ y₂ : K p} {h₁ : (mordell (K p)).Nonsingular x₁ y₁}
  {h₂ : (mordell (K p)).Nonsingular x₂ y₂} (hP : Canonical P (.some x₁ y₁ h₁ : E2 p))
  (hQ : Canonical Q (.some x₂ y₂ h₂ : E2 p))
include hP hQ

/-- The formulas of both branches are those of the group. -/
theorem canonical_of_onLine (hxy : ¬(x₁ = x₂ ∧ y₁ = -y₂))
    (hl : OnLine (pointAdd P Q p) x₁ x₂ y₁ ((mordell (K p)).slope x₁ x₂ y₁ y₂)) :
    Canonical (pointAdd P Q p) (.some x₁ y₁ h₁ + .some x₂ y₂ h₂ : E2 p) := by
  rw [Point.add_some (by rwa [negY_eq])]
  refine canonical_some (reduced_pointAdd hP.reduced hQ.reduced) hl.finite ?_ ?_
  · rw [hl.x, addX_eq]
  · rw [hl.y, addY_eq]
    ring

theorem canonical_pointAdd_of_ne (hxy : ¬(x₁ = x₂ ∧ y₁ = -y₂)) :
    Canonical (pointAdd P Q p) (.some x₁ y₁ h₁ + .some x₂ y₂ h₂ : E2 p) := by
  obtain ⟨hPx, hPy⟩ := hP.coordinates _ _ _ rfl
  obtain ⟨hQx, hQy⟩ := hQ.coordinates _ _ _ rfl
  by_cases hx : x₁ = x₂
  · have hPQ : P.x = Q.x := eq_of_val_eq hP.reduced.x hQ.reduced.x (by rw [hPx, hQx, hx])
    obtain rfl : y₁ = y₂ := Y_eq_of_Y_ne h₁.1 h₂.1 hx fun hy => hxy ⟨hx, by rwa [negY_eq] at hy⟩
    subst hx
    have hne : y₁ ≠ -y₁ := fun hy => hxy ⟨rfl, hy⟩
    have hneq : P.y ≠ fp2Neg Q.y p := by
      intro he
      have hv := congrArg (val p) he
      rw [val_fp2Neg, hPy, hQy] at hv
      exact hne hv
    have hl := pointAdd_tangent (p := p) hP.finite hQ.finite hPQ hneq
    rw [hPx, hPy, ← slope_self hne] at hl
    exact canonical_of_onLine hP hQ hxy hl
  · have hPQ : P.x ≠ Q.x := by
      intro he
      have hv := congrArg (val p) he
      rw [hPx, hQx] at hv
      exact hx hv
    have hl := pointAdd_chord (p := p) hP.finite hQ.finite hPQ
    rw [hPx, hPy, hQx, hQy, ← neg_sub y₁, ← neg_sub x₁, neg_div_neg_eq, ← slope_of_ne _ _ hx] at hl
    exact canonical_of_onLine hP hQ hxy hl

theorem pointAdd_opposite (hx : x₁ = x₂) (hy : y₁ = -y₂) :
    (y₂.re ≠ 0 ∧ y₂.im ≠ 0 → pointAdd P Q p = pointSetO) ∧
      (¬(y₂.re ≠ 0 ∧ y₂.im ≠ 0) → (pointAdd P Q p).infinity = false) := by
  obtain ⟨hPx, hPy⟩ := hP.coordinates _ _ _ rfl
  obtain ⟨hQx, hQy⟩ := hQ.coordinates _ _ _ rfl
  have hPQ : P.x = Q.x := eq_of_val_eq hP.reduced.x hQ.reduced.x (by rw [hPx, hQx, hx])
  have hneg := eq_fp2Neg_iff hP.reduced.y hQ.reduced.y
  rw [hPy, hQy, and_iff_right hy] at hneg
  constructor
  · intro h
    rw [pointAdd, if_neg (by simp [hP.finite]), if_neg (by simp [hQ.finite]),
      if_pos (by simpa using hPQ), if_pos (by simpa using hneg.2 h)]
  · intro h
    exact (pointAdd_tangent (p := p) hP.finite hQ.finite hPQ fun he => h (hneg.1 he)).finite

end Some

/-- `point_add` is the addition of the group except for the opposite points that
it does not recognise. -/
theorem canonical_pointAdd_iff (hP : Canonical P A) (hQ : Canonical Q B) :
    Canonical (pointAdd P Q p) (A + B) ↔ ¬MissedInverse A B := by
  cases A with
  | zero =>
      have hPi : P.infinity = true := hP.infinity.2 rfl
      have hne : ¬MissedInverse (0 : E2 p) B := by
        rintro ⟨x, y, h, rfl, hneg, -⟩
        exact Point.some_ne_zero h (neg_eq_zero.1 hneg.symm)
      have hsum : (Point.zero + B : E2 p) = B := zero_add B
      rw [pointAdd, if_pos hPi, hsum]
      exact iff_of_true hQ hne
  | some x₁ y₁ h₁ =>
      cases B with
      | zero =>
          have hQi : Q.infinity = true := hQ.infinity.2 rfl
          have hne : ¬MissedInverse (.some x₁ y₁ h₁ : E2 p) 0 := by
            rintro ⟨x, y, h, h0, -⟩
            exact Point.some_ne_zero h h0.symm
          have hsum : (.some x₁ y₁ h₁ + Point.zero : E2 p) = .some x₁ y₁ h₁ := add_zero _
          rw [pointAdd, if_neg (by simp [hP.finite]), if_pos hQi, hsum]
          exact iff_of_true hP hne
      | some x₂ y₂ h₂ =>
          have hopp : (.some x₁ y₁ h₁ : E2 p) = -.some x₂ y₂ h₂ ↔ x₁ = x₂ ∧ y₁ = -y₂ := by
            rw [Point.neg_some, Point.some.injEq, negY_eq]
          by_cases hxy : x₁ = x₂ ∧ y₁ = -y₂
          · have hsum : (.some x₁ y₁ h₁ + .some x₂ y₂ h₂ : E2 p) = 0 := by
              rw [hopp.2 hxy, neg_add_cancel]
            have hmiss : MissedInverse (.some x₁ y₁ h₁ : E2 p) (.some x₂ y₂ h₂) ↔
                ¬(y₂.re ≠ 0 ∧ y₂.im ≠ 0) := by
              rw [not_and_or, not_not, not_not]
              constructor
              · rintro ⟨x, y, h, he, -, hor⟩
                obtain ⟨rfl, rfl⟩ := Point.some.inj he
                exact hor
              · exact fun hor => ⟨x₂, y₂, h₂, rfl, hopp.2 hxy, hor⟩
            obtain ⟨hpos, hneg⟩ := pointAdd_opposite hP hQ hxy.1 hxy.2
            rw [hsum, hmiss, not_not]
            constructor
            · intro hc
              by_contra h
              have hinf := hc.infinity.2 rfl
              rw [hneg h] at hinf
              exact Bool.noConfusion hinf
            · intro h
              rw [hpos h]
              exact canonical_pointSetO
          · refine iff_of_true (canonical_pointAdd_of_ne hP hQ hxy) ?_
            rintro ⟨-, -, -, -, hneg, -⟩
            exact hxy (hopp.1 hneg)

/-- The same through pointers, of which some may be equal. The other cells keep
their points. -/
theorem pointAddAt_canonical_iff {ι : Type} [DecidableEq ι] (R P Q : ι) (m : Cells ι) (A B : E2 p)
    (hP : Canonical (m P) A) (hQ : Canonical (m Q) B) :
    (Canonical (pointAddAt R P Q p m R) (A + B) ∧ ∀ i, i ≠ R → pointAddAt R P Q p m i = m i) ↔
      ¬MissedInverse A B := by
  have hframe (i : ι) (hi : i ≠ R) : pointAddAt R P Q p m i = m i := by
    rw [pointAddAt_eq, Function.update_of_ne hi]
  rw [and_iff_left hframe, pointAddAt_eq, Function.update_self, canonical_pointAdd_iff hP hQ]

section Example

instance fact_prime_11 : Fact (Nat.Prime 11) := ⟨by norm_num⟩

instance fact_mod_11 : Fact (11 % 12 = 11) := ⟨rfl⟩

theorem nonsingular_eleven {x y : K 11} (hy : y ^ 2 = x ^ 3 + 1) : (mordell (K 11)).Nonsingular x y :=
  (MordellCurve.nonsingular_iff (by decide)).2 hy

/-- The two points with first coordinate 2. -/
def plus : E2 11 := .some (val 11 ⟨2, 0⟩) (val 11 ⟨3, 0⟩) (nonsingular_eleven (by decide))

def minus : E2 11 := .some (val 11 ⟨2, 0⟩) (val 11 ⟨8, 0⟩) (nonsingular_eleven (by decide))

theorem canonical_plus : Canonical ⟨⟨2, 0⟩, ⟨3, 0⟩, false⟩ plus :=
  canonical_some ⟨by constructor <;> decide, by constructor <;> decide⟩ rfl (by decide) (by decide)

/-- A point is doubled in place. -/
theorem canonical_double_in_place :
    Canonical (pointAddAt () () () 11 (fun _ => ⟨⟨2, 0⟩, ⟨3, 0⟩, false⟩) ()) (plus + plus) := by
  refine ((pointAddAt_canonical_iff (p := 11) () () () _ plus plus canonical_plus
    canonical_plus).2 ?_).1
  rintro ⟨x, y, h, he, hneg, -⟩
  rw [plus, Point.neg_some, Point.some.injEq] at hneg
  exact absurd hneg.2 (by decide)

/-- The sum of opposite points over the prime field is not recognised. -/
theorem not_canonical_opposite :
    plus + minus = 0 ∧
      ¬Canonical (pointAddAt 2 0 1 11 (fun i : Nat => if i = 0 then ⟨⟨2, 0⟩, ⟨3, 0⟩, false⟩ else
        ⟨⟨2, 0⟩, ⟨8, 0⟩, false⟩) 2) (plus + minus) := by
  have hsum : plus + minus = 0 := Point.add_of_Y_eq rfl (by decide)
  refine ⟨hsum, fun h => ?_⟩
  rw [hsum] at h
  have hinf := h.infinity.2 rfl
  exact absurd hinf (by decide)

end Example

end Law

end IdBasedEncryption.PointAddition
