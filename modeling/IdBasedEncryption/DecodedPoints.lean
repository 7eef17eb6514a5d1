import IdBasedEncryption.CongruentPoints
import IdBasedEncryption.PairingLaws

namespace IdBasedEncryption.DecodedPoints

open WeierstrassCurve.Affine MordellCurve Fp2Arith Fp2Value FieldExtension MordellGroup CurvePoints
open TatePairing PointValues MillerLines ModifiedPairing MillerLoops PairingValues ByteStrings
open PointBytes IbeLib PairingLaws CongruentPoints

variable {p : Nat} [hp : Fact p.Prime]

/-- A finite point of the group, with coordinates that need not be least
residues. -/
def Denotes (P : Point) (A : E p) : Prop :=
  ∃ x y h, A = .some x y h ∧ Represents P x y

/-- What the bytes of a finite point of the group are read as. -/
def Decodes (bs : ByteString) (A : E p) : Prop := Denotes (pointSetByteString pointInit bs) A

section Denotes

variable {P : Point} {A B : E p}

theorem denotes_ofPoint (hA : A ≠ 0) : Denotes (ofPoint A) A := by
  cases A with
  | zero => exact absurd rfl hA
  | some x y h => exact ⟨x, y, h, rfl, represents_some h⟩

theorem Denotes.ne_zero (h : Denotes P A) : A ≠ 0 := by
  obtain ⟨x, y, hxy, rfl, -⟩ := h
  exact Point.some_ne_zero hxy

theorem Denotes.congruent (h : Denotes P A) : Congruent p (ofPoint A) P := by
  obtain ⟨x, y, hxy, rfl, hP⟩ := h
  exact congruent_of_represents (represents_some hxy) hP

theorem Denotes.unique (hA : Denotes P A) (hB : Denotes P B) : A = B := by
  obtain ⟨x, y, hxy, rfl, hP⟩ := hA
  obtain ⟨x', y', hxy', rfl, hP'⟩ := hB
  rw [Point.some.injEq]
  exact ⟨hP.xa.symm.trans hP'.xa, hP.ya.symm.trans hP'.ya⟩

/-- The check lets exactly the finite points over the prime field through. -/
theorem pointSpecialP_iff [Fact (p % 12 = 11)] {curve : Curve} (hcp : curve.p = p) :
    pointSpecialP P curve = true ↔ P.x.b = 0 ∧ P.y.b = 0 ∧ ∃ A : E p, Denotes P A := by
  have hroot : (P.y.a * P.y.a - P.x.a * P.x.a % p * P.x.a % p - 1) % p = 0 ↔
      (P.y.a : ZMod p) ^ 2 = (P.x.a : ZMod p) ^ 3 + 1 := by
    rw [← Int.dvd_iff_emod_eq_zero, ← ZMod.intCast_zmod_eq_zero_iff_dvd]
    push_cast [ZMod.intCast_mod]
    rw [← sub_eq_zero (a := (P.y.a : ZMod p) ^ 2)]
    ring_nf
  simp only [pointSpecialP, hcp, hroot, Bool.and_eq_true, Bool.not_eq_true', decide_eq_true_eq]
  constructor
  · rintro ⟨⟨⟨hfinite, hxb⟩, hyb⟩, hcurve⟩
    exact ⟨hxb, hyb, _, _, _, (MordellCurve.nonsingular_iff six_ne_zero).2 hcurve, rfl, hfinite, rfl,
      by rw [hxb, Int.cast_zero], rfl, by rw [hyb, Int.cast_zero]⟩
  · rintro ⟨hxb, hyb, A, x, y, hns, rfl, hP⟩
    refine ⟨⟨⟨hP.finite, hxb⟩, hyb⟩, ?_⟩
    rw [hP.xa, hP.ya]
    exact (MordellCurve.nonsingular_iff six_ne_zero).1 hns

theorem decodes_setPoint (hsize : p ≤ 256 ^ maxBytes) (hA : A ≠ 0) :
    Decodes (byteStringSetPoint (ofPoint A)) A := by
  rw [Decodes, pointSetByteString_ofPoint hsize hA rfl]
  exact denotes_ofPoint hA

end Denotes

section Pairing

variable [hp12 : Fact (p % 12 = 11)] {q : Nat} {params : Params}

omit hp12 in
theorem isPhi_of_represents (hs : Suits params p q) {D Q : Point} (hD : D.infinity = false)
    {x y : ZMod p} (hQ : Represents Q x y) : IsPhi (pointPhi D Q params) x y where
  finite := hD
  x := by rw [pointPhi, hs.p_eq, hs.zeta_eq, val_fp2Mul, hQ.val_x, mul_comm, zeta]
  y := hQ.val_y

/-- The pairing of points that are given by any of their representatives. -/
theorem val_tatePairing_pointPhi (hq : q.Prime) (hq3 : 3 < q) (hqp : q ∣ p + 1) (hs : Suits params p q)
    {P Q D : Point} {A B : E p} (hA : q • A = 0) (hP : Denotes P A) (hQ : Denotes Q B)
    (hD : D.infinity = false) :
    val p (tatePairing P (pointPhi D Q params) params.curve) = pairing q A B := by
  obtain ⟨x, y, hxy, rfl, hQ⟩ := hQ
  rw [tatePairing_congr hs.curve hP.congruent]
  exact val_tatePairing hq hq3 hqp hs.curve hA (isPhi_of_represents hs hD hQ) hxy hP.ne_zero

end Pairing

end IdBasedEncryption.DecodedPoints
