import IdBasedEncryption.PointValues

namespace IdBasedEncryption.ProjectiveFormulas

open MordellGroup CurvePoints SlopeFormulas PointValues

variable {p : Nat} {R : Proj} {P Q : Int × Int}

/-- The triple stands for the affine coordinates `(x / z ^ 2, y / z ^ 3)`. -/
structure StandsFor (p : Nat) (R : Proj) (P : Int × Int) : Prop where
  z : (R.z : ZMod p) ≠ 0
  x : (R.x : ZMod p) = P.1 * R.z ^ 2
  y : (R.y : ZMod p) = P.2 * R.z ^ 3

def InRange (p : Nat) (n : Int) : Prop := 0 ≤ n ∧ n < p

structure ProjInRange (p : Nat) (R : Proj) : Prop where
  x : InRange p R.x
  y : InRange p R.y
  z : InRange p R.z

structure AffInRange (p : Nat) (P : Int × Int) : Prop where
  x : InRange p P.1
  y : InRange p P.2

section Ranges

theorem inRange_half (hodd : p % 2 = 1) {n : Int} (hn : InRange p n) :
    InRange p ((if n % 2 = 1 then n + p else n) / 2) := by
  obtain ⟨h0, hlt⟩ := hn
  rw [InRange]
  split <;> omega

variable [hp : Fact p.Prime]

theorem inRange_emod (n : Int) : InRange p (n % p) :=
  ⟨Int.emod_nonneg n pos.ne', Int.emod_lt_of_pos n pos⟩

theorem projInRange_projDouble (R : Proj) : ProjInRange p (projDouble R p) :=
  ⟨inRange_emod _, inRange_emod _, inRange_emod _⟩

theorem projInRange_projMixIn (hodd : p % 2 = 1) (R : Proj) (a b : Int) :
    ProjInRange p (projMixIn R a b p) :=
  ⟨inRange_emod _, inRange_half hodd (inRange_emod _), inRange_emod _⟩

theorem affInRange_zzpPointDouble (P : Int × Int) : AffInRange p (zzpPointDouble P p) :=
  ⟨inRange_emod _, inRange_emod _⟩

theorem affInRange_zzpPointAdd (P Q : Int × Int) : AffInRange p (zzpPointAdd P Q p) :=
  ⟨inRange_emod _, inRange_emod _⟩

end Ranges

section Formulas

variable [hp : Fact p.Prime]

theorem StandsFor.double (h2 : (2 : ZMod p) ≠ 0) (h : StandsFor p R P) (hy : (R.y : ZMod p) ≠ 0) :
    StandsFor p (projDouble R p) (zzpPointDouble P p) := by
  have hPy : (P.2 : ZMod p) ≠ 0 := by
    intro h0
    exact hy (by rw [h.y, h0, zero_mul])
  have h2y : 2 * (P.2 : ZMod p) ≠ 0 := mul_ne_zero h2 hPy
  have hslope := div_mul_cancel₀ (3 * (P.1 : ZMod p) ^ 2) h2y
  obtain ⟨hX, hY⟩ := cast_zzpPointDouble h2y hslope
  obtain ⟨hz, hx, hy'⟩ := projDouble_slope h2 h.z h.x h.y hPy hslope
  exact ⟨hz, by rw [hX, hx], by rw [hY, hy']⟩

theorem StandsFor.mixIn (hodd : p % 2 = 1) (h2 : (2 : ZMod p) ≠ 0) (h : StandsFor p R P)
    (hne : (Q.1 : ZMod p) ≠ P.1) : StandsFor p (projMixIn R Q.1 Q.2 p) (zzpPointAdd P Q p) := by
  have hslope := div_mul_cancel₀ ((Q.2 : ZMod p) - P.2) (sub_ne_zero.2 hne)
  obtain ⟨hX, hY⟩ := cast_zzpPointAdd hne hslope
  obtain ⟨hz, hx, hy⟩ := projMixIn_slope h2 h.z h.x h.y hodd hne hslope
  exact ⟨hz, by rw [hX, hx], by rw [hY, hy]⟩

/-- Doubling and mixed addition compute what the affine formulas do. That the
points are on the curve is not needed. -/
theorem standsFor_projective (hodd : p % 2 = 1) (h : StandsFor p R P) :
    ((R.y : ZMod p) ≠ 0 → StandsFor p (projDouble R p) (zzpPointDouble P p)) ∧
    (∀ a b : Int, (a : ZMod p) ≠ P.1 → StandsFor p (projMixIn R a b p) (zzpPointAdd P (a, b) p)) ∧
    ProjInRange p (projDouble R p) ∧ AffInRange p (zzpPointDouble P p) ∧
    ∀ a b, ProjInRange p (projMixIn R a b p) ∧ AffInRange p (zzpPointAdd P (a, b) p) := by
  have hp2 : Fact (p % 2 = 1) := ⟨hodd⟩
  have h2 : (2 : ZMod p) ≠ 0 := two_ne_zero_of_odd
  refine ⟨h.double h2, ?_, projInRange_projDouble R, affInRange_zzpPointDouble P, ?_⟩
  · intro a b hne
    exact h.mixIn (Q := (a, b)) hodd h2 hne
  · intro a b
    exact ⟨projInRange_projMixIn hodd R a b, affInRange_zzpPointAdd P (a, b)⟩

end Formulas

/-- The double of the point `(2, 3)`, held with `z = 2`. -/
theorem standsFor_eleven : StandsFor 11 (projDouble ⟨8, 24, 2⟩ 11) (zzpPointDouble (2, 3) 11) := by
  have h : StandsFor 11 ⟨8, 24, 2⟩ (2, 3) := ⟨by decide, by decide, by decide⟩
  have hy : ((24 : Int) : ZMod 11) ≠ 0 := by decide
  have hp : Fact (Nat.Prime 11) := ⟨by norm_num⟩
  exact (standsFor_projective rfl h).1 hy

end IdBasedEncryption.ProjectiveFormulas
