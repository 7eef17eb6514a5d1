import IdBasedEncryption.Multiples

namespace IdBasedEncryption.ScalarMultiples

open WeierstrassCurve.Affine MordellCurve Gmp SlidingWindow NonAdjacentForm Fp2Arith CurvePoints
open MordellGroup PointValues MultipleBounds Multiples

section Total

theorem exists_entry (P : Int × Int) (p : Int) {v : Int} (hodd : v % 2 = 1) (hv : |v| ≤ 31) :
    ∃ M, signedMultiple P p v = some M := by
  obtain ⟨hlo, hhi⟩ := abs_le.1 hv
  rw [signedMultiple, multiple, if_neg (by omega), if_pos (by omega)]
  exact ⟨_, rfl⟩

/-- `point_mul` never reads an entry that it has not set up, whatever the point
is. -/
theorem exists_pointMul {n : Nat} (hn : 0 < n) (P : Point) (p : Int) :
    ∃ R, pointMul n P p = some R := by
  rw [pointMul, Int.toNat_natCast]
  generalize hl : windowStart (digit n) windowsize (topDigit n) = l
  obtain ⟨hle, hlt, hl0⟩ := first_window hn hl
  obtain ⟨M, hM⟩ := exists_entry (P.x.a, P.y.a) p (window_odd hle hl0)
    ((abs_window_le hlt).trans (by norm_num))
  have hloop : ∃ R, windowLoop (digit n) windowsize (Option.map (projDouble · p))
      (mulMixIn (P.x.a, P.y.a) p) l l (some ⟨M.1, M.2, 1⟩) = some R := by
    refine windowLoop_rep (by decide) _ _ (fun _ s => ∃ R, s = some R) (topDigit n + 1) ?_ le_rfl
      (by omega) ?_ ⟨_, rfl⟩
    · rintro r i s - - ⟨R, rfl⟩
      exact ⟨_, rfl⟩
    · rintro l' m s hw ⟨R, rfl⟩
      obtain ⟨hlm, -, hw5, hd', -⟩ := mem_windows (by decide) hw
      obtain ⟨M', hM'⟩ := exists_entry (P.x.a, P.y.a) p (window_odd hlm hd')
        ((abs_window_le hw5).trans (by norm_num))
      exact ⟨projMixIn R M'.1 M'.2 p, by simp [mulMixIn, hM']⟩
  obtain ⟨R, hR⟩ := hloop
  exact ⟨projAffine R p, by simp [hM, hR]⟩

/-- For `n` zero it reads an entry that it has not set up. -/
theorem pointMul_zero (P : Point) (p : Int) : pointMul 0 P p = none := rfl

end Total

section Multiples

variable {p : Nat} [hp : Fact p.Prime]

/-- Both ways to multiply leave the multiple of the group law. -/
def MultipliesCorrectly (n : Nat) (A : E p) (curve : Curve) : Prop :=
  pointMul n (ofPoint A) p = some (ofPoint (n • A)) ∧
    pointMulPostprocess n (pointMulPreprocess (ofPoint A) curve) = some (ofPoint (n • A))

theorem ofPoint_ne_pointInit (A : E p) : ofPoint A ≠ pointInit := by
  cases A with
  | zero => exact fun h => Bool.noConfusion (congrArg Point.infinity h : true = false)
  | some x y h =>
      intro he
      obtain ⟨⟨hx, -⟩, ⟨hy, -⟩, -⟩ : ((x.val : Int) = 0 ∧ _) ∧ ((y.val : Int) = 0 ∧ _) ∧ _ := by
        simpa only [ofPoint, ofResidue, pointInit, fp2Set0, Point.mk.injEq, Fp2.mk.injEq] using he
      have hx0 : x = 0 := (ZMod.val_eq_zero x).1 (by exact_mod_cast hx)
      have hy0 : y = 0 := (ZMod.val_eq_zero y).1 (by exact_mod_cast hy)
      have heq := MordellCurve.equation_iff.1 h.1
      simp [hx0, hy0] at heq

variable [hp2 : Fact (p % 2 = 1)] {q : Nat} (hq : q.Prime) (hq64 : 64 < q) {A : E p}
  (ho : addOrderOf A = q) {n : Nat} (hn : 0 < n) (hnq : n < q)
include hq hq64 ho hn hnq

theorem pointMul_iff :
    pointMul n (ofPoint A) p = some (ofPoint (n • A)) ↔ meetsDoubling n q = false := by
  have hA := affRepresents_ofPoint (ne_zero_of_order hq ho)
  constructor
  · intro h
    rw [← Bool.not_eq_true]
    intro hm
    rw [pointMul_eq_pointInit hq hq64 ho hA hn hnq hm rfl] at h
    exact ofPoint_ne_pointInit _ (Option.some.inj h).symm
  · intro h
    exact pointMul_eq hq hq64 ho hA hn hnq h rfl

theorem pointMulPostprocess_iff {curve : Curve} (hcp : curve.p = p) (hcq : curve.q = q) :
    pointMulPostprocess n (pointMulPreprocess (ofPoint A) curve) = some (ofPoint (n • A)) ↔
      ¬(q % 4 = 1 ∧ n + 2 = q) := by
  have hq3 : 3 < q := by omega
  have htable := preprocessed_pointMulPreprocess hq hq3 ho hcp hcq
  constructor
  · rintro h ⟨h4, hn2⟩
    rw [pointMulPostprocess_eq_pointInit hq hq3 ho htable hn hnq h4 hn2] at h
    exact ofPoint_ne_pointInit _ (Option.some.inj h).symm
  · intro h
    exact pointMulPostprocess_eq hq hq3 ho htable hn hnq h

/-- A multiplication goes wrong exactly when its last addition meets a doubling. -/
theorem multipliesCorrectly_iff {curve : Curve} (hcp : curve.p = p) (hcq : curve.q = q) :
    MultipliesCorrectly n A curve ↔
      meetsDoubling n q = false ∧ ¬(q % 4 = 1 ∧ n + 2 = q) := by
  rw [MultipliesCorrectly, pointMul_iff hq hq64 ho hn hnq,
    pointMulPostprocess_iff hq hq64 ho hn hnq hcp hcq]

end Multiples

section Example

instance fact_prime_4817 : Fact (Nat.Prime 4817) := ⟨by norm_num⟩

instance fact_mod_4817 : Fact (4817 % 2 = 1) := ⟨rfl⟩

theorem nonsingular_4817 {x y : ZMod 4817} (h : y ^ 2 = x ^ 3 + 1) :
    (mordell (ZMod 4817)).Nonsingular x y :=
  (MordellCurve.nonsingular_iff (by decide)).2 h

def base : E 4817 := .some 131 275 (nonsingular_4817 (by decide))

theorem addOrderOf_base : addOrderOf base = 73 := by
  have h2 : 2 • base = .some 2533 2142 (nonsingular_4817 (by decide)) := by
    rw [two_nsmul]
    exact some_add_self (l := 1854) (by decide) (by decide) (by decide) (by decide)
  have h4 : 4 • base = .some 2291 2615 (nonsingular_4817 (by decide)) := by
    rw [show 4 • base = 2 • base + 2 • base by abel, h2]
    exact some_add_self (l := 995) (by decide) (by decide) (by decide) (by decide)
  have h8 : 8 • base = .some 4014 3428 (nonsingular_4817 (by decide)) := by
    rw [show 8 • base = 4 • base + 4 • base by abel, h4]
    exact some_add_self (l := 838) (by decide) (by decide) (by decide) (by decide)
  have h16 : 16 • base = .some 2561 3141 (nonsingular_4817 (by decide)) := by
    rw [show 16 • base = 8 • base + 8 • base by abel, h8]
    exact some_add_self (l := 4490) (by decide) (by decide) (by decide) (by decide)
  have h32 : 32 • base = .some 2428 1701 (nonsingular_4817 (by decide)) := by
    rw [show 32 • base = 16 • base + 16 • base by abel, h16]
    exact some_add_self (l := 1630) (by decide) (by decide) (by decide) (by decide)
  have h64 : 64 • base = .some 2068 4613 (nonsingular_4817 (by decide)) := by
    rw [show 64 • base = 32 • base + 32 • base by abel, h32]
    exact some_add_self (l := 526) (by decide) (by decide) (by decide) (by decide)
  have h72 : 64 • base + 8 • base = -base := by
    rw [h64, h8, base, Point.neg_some]
    exact some_add_some (l := 992) (by decide) (by decide) (by decide) (by decide)
  refine addOrderOf_eq (by norm_num) ?_ (Point.some_ne_zero _)
  calc 73 • base = 64 • base + 8 • base + base := by abel
    _ = 0 := by rw [h72, neg_add_cancel]

theorem multipliesCorrectly_base : MultipliesCorrectly 9 base (curveInit 4817 73) :=
  (multipliesCorrectly_iff (q := 73) (by norm_num) (by norm_num) addOrderOf_base (by norm_num)
    (by norm_num) rfl rfl).2 ⟨by decide, by decide⟩

/-- For `71` both additions meet a doubling. -/
theorem not_multipliesCorrectly_base :
    addOrderOf base = 73 ∧ ¬MultipliesCorrectly 71 base (curveInit 4817 73) ∧
      pointMul 71 (ofPoint base) 4817 = some pointInit ∧
      pointMulPostprocess 71 (pointMulPreprocess (ofPoint base) (curveInit 4817 73)) =
        some pointInit := by
  refine ⟨addOrderOf_base, ?_, by decide +kernel, by decide +kernel⟩
  intro h
  have hzero : pointMul 71 (ofPoint base) 4817 = some pointInit := by decide +kernel
  exact ofPoint_ne_pointInit _ (Option.some.inj (h.1.symm.trans hzero))

end Example

end IdBasedEncryption.ScalarMultiples
