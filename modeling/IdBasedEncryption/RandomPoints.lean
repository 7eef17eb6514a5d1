import IdBasedEncryption.CubeRoots
import IdBasedEncryption.IbeLib
import IdBasedEncryption.PointValues

namespace IdBasedEncryption.RandomPoints

open CubeRoots Gmp Fp2Arith Fp2Value CurvePoints PointValues IbeLib

variable {p : Nat} [hp : Fact p.Prime]

/-- The finite points of `E/F_p`. -/
def FinitePoint (p : Nat) := {P : ZMod p × ZMod p // P.2 ^ 2 = P.1 ^ 3 + 1}

section Roots

variable (h3 : p % 3 = 2) (q y : Int)

theorem cast_xFromY : (xFromY y (curveInit p q) : ZMod p) = ((y : ZMod p) ^ 2 - 1) ^ ((2 * p - 1) / 3) := by
  have hpos := hp.out.pos
  have hpwr : (curveInit p q).cbrtpwr.toNat = (2 * p - 1) / 3 := by
    simp only [curveInit]
    omega
  simp only [xFromY, curveInit, cast_mpzPowm] at hpwr ⊢
  rw [hpwr, ZMod.intCast_mod]
  push_cast
  rw [sq]

theorem xFromY_nonneg : 0 ≤ xFromY y (curveInit p q) := Int.emod_nonneg _ pos.ne'

theorem xFromY_lt : xFromY y (curveInit p q) < p := Int.emod_lt_of_pos _ pos

include h3

theorem cube_xFromY_iff (x : Int) :
    x ^ 3 ≡ y ^ 2 - 1 [ZMOD p] ↔ (x : ZMod p) = xFromY y (curveInit p q) := by
  rw [← ZMod.intCast_eq_intCast_iff, cast_xFromY, ← cube_eq_iff h3]
  push_cast
  rfl

/-- The residue in range whose cube is `y ^ 2 - 1`. -/
theorem xFromY_unique {x : Int} (h0 : 0 ≤ x) (hx : x < p) :
    x ^ 3 ≡ y ^ 2 - 1 [ZMOD p] ↔ x = xFromY y (curveInit p q) := by
  rw [cube_xFromY_iff h3 q, ZMod.intCast_eq_intCast_iff, Int.ModEq, Int.emod_eq_of_lt h0 hx,
    Int.emod_eq_of_lt (xFromY_nonneg q y) (xFromY_lt q y)]

theorem equation_xFromY : (y : ZMod p) ^ 2 = (xFromY y (curveInit p q) : ZMod p) ^ 3 + 1 := by
  have h := (cube_eq_iff h3).2 (cast_xFromY (p := p) q y)
  rw [h]
  ring

theorem equation_val (y : ZMod p) :
    y ^ 2 = (xFromY y.val (curveInit p q) : ZMod p) ^ 3 + 1 := by
  have h := equation_xFromY h3 q y.val
  rwa [Int.cast_natCast, ZMod.natCast_zmod_val] at h

def pointOf (y : ZMod p) : FinitePoint p :=
  ⟨(xFromY y.val (curveInit p q), y), equation_val h3 q y⟩

theorem bijective_pointOf : Function.Bijective (pointOf (p := p) h3 q) := by
  constructor
  · intro y y' h
    exact congrArg (fun P : FinitePoint p => P.val.2) h
  · rintro ⟨⟨x, y⟩, h⟩
    refine ⟨y, Subtype.ext (Prod.ext ?_ rfl)⟩
    have hx : x ^ 3 = y ^ 2 - 1 := by rw [h]; ring
    have hroot := (cube_eq_iff h3).1 hx
    have hval := cast_xFromY (p := p) q y.val
    rw [Int.cast_natCast, ZMod.natCast_zmod_val] at hval
    exact hval.trans hroot.symm

/-- A random point passes the check, whatever flag it had before. -/
theorem pointValidP_pointRandom (infinity : Bool) :
    pointValidP { pointRandom y (curveInit p q) with infinity } (curveInit p q) = true := by
  have hcurve := equation_xFromY h3 q y
  have herror : (zpSub (y * y % p) (xFromY y (curveInit p q) * xFromY y (curveInit p q) % p *
      xFromY y (curveInit p q) % p) p - 1) % p = 0 := by
    apply Int.emod_eq_zero_of_dvd
    rw [← ZMod.intCast_zmod_eq_zero_iff_dvd]
    push_cast [cast_zpSub, ZMod.intCast_mod]
    linear_combination hcurve
  have hp0 : zpSub 0 0 (p : Int) = 0 := rfl
  have hcp : (curveInit p q).p = p := rfl
  simp [pointValidP, pointRandom, fp2Mul, fp2Sub, fp2SubUi, hcp, hp0, herror]

/-- The exponent that `curve_init` computes gives the unique cube root, so that
every second coordinate belongs to one finite point. -/
theorem xFromY_eq_iff :
    (∀ x y : Int, x = xFromY y (curveInit p q) ↔
      0 ≤ x ∧ x < p ∧ x ^ 3 ≡ y ^ 2 - 1 [ZMOD p]) ∧
    Function.Bijective (pointOf h3 q) ∧
    ∀ y infinity, pointValidP { pointRandom y (curveInit p q) with infinity } (curveInit p q) =
      true := by
  refine ⟨fun x y => ?_, bijective_pointOf h3 q, pointValidP_pointRandom h3 q⟩
  constructor
  · rintro rfl
    have h0 := xFromY_nonneg (p := p) q y
    have hx := xFromY_lt (p := p) q y
    exact ⟨h0, hx, (xFromY_unique h3 q y h0 hx).2 rfl⟩
  · rintro ⟨h0, hx, h⟩
    exact (xFromY_unique h3 q y h0 hx).1 h

end Roots

omit hp in
theorem xFromY_five : xFromY 2 (curveInit 5 7) = 2 := by
  have hp5 : Fact (Nat.Prime 5) := ⟨by norm_num⟩
  exact (((xFromY_eq_iff (p := 5) rfl 7).1 2 2).2 ⟨by decide, by decide, rfl⟩).symm

end IdBasedEncryption.RandomPoints
