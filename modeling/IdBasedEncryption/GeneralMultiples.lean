import IdBasedEncryption.PointAddition

namespace IdBasedEncryption.GeneralMultiples

open WeierstrassCurve.Affine MordellCurve Gmp SlidingWindow Fp2Arith Fp2Value FieldExtension
open CurvePoints PointValues PointAddition

variable {p : Nat} [hp : Fact p.Prime] [hp12 : Fact (p % 12 = 11)]

section Notes

/-- A sum in the group with a note whether `point_add` recognises all the
additions that led to it. -/
abbrev Noted (p : Nat) [Fact p.Prime] [Fact (p % 12 = 11)] := E2 p × Prop

def Noted.add (s t : Noted p) : Noted p := (s.1 + t.1, s.2 ∧ t.2 ∧ ¬MissedInverse s.1 t.1)

@[simp] theorem Noted.add_fst (s t : Noted p) : (s.add t).1 = s.1 + t.1 := rfl

/-- Entry `2 i + 1` of the table of odd multiples. -/
def notedMultiple (A : E2 p) : Nat → Noted p
  | 0 => (A, True)
  | i + 1 => (notedMultiple A i).add (Noted.add (A, True) (A, True))

/-- The loop of `general_point_mul` in the group. -/
def notedLoop (n : Int) (A : E2 p) : Noted p :=
  windowLoop (bit n) windowsize (fun s => s.add s)
    (fun j s => s.add (notedMultiple A ((j.toNat - 1) / 2))) (mpzSizeinbase2 n) (mpzSizeinbase2 n)
    (0, True)

/-- No addition that leads to the multiple meets opposite points which
`point_add` does not recognise. -/
def Recognised (n : Int) (A : E2 p) : Prop := (notedLoop n A).2

theorem notedMultiple_fst (A : E2 p) (i : Nat) : (notedMultiple A i).1 = (2 * i + 1) • A := by
  induction i with
  | zero => simp [notedMultiple]
  | succ i ih =>
      rw [notedMultiple, Noted.add_fst, ih]
      simp only [Noted.add_fst, add_smul, mul_smul, one_smul, mul_add, two_nsmul]
      abel

theorem notedLoop_fst (n : Nat) (A : E2 p) : (notedLoop n A).1 = n • A := by
  have h : (notedLoop n A).1 = digitsValue (bit n) 0 (mpzSizeinbase2 n) • A := by
    let Rep : Int → Noted p → Prop := fun k s => s.1 = k • A
    refine windowLoop_rep (by decide) _ _ Rep (mpzSizeinbase2 n) ?_ le_rfl le_rfl ?_ ?_
    · intro r i s _ _ hs
      simp only [Rep] at hs ⊢
      rw [Noted.add_fst, hs, ← add_zsmul, pow_succ]
      ring_nf
    · intro l m s hl hs
      obtain ⟨hlm, hm, -, hd, -⟩ := mem_windows (by decide) hl
      obtain ⟨j, hj, hodd⟩ := exists_window_bit hlm hd
      simp only [Rep] at hs ⊢
      rw [Noted.add_fst, hs, digitsValue_split hlm hm, hj, Int.toNat_natCast, notedMultiple_fst, hodd,
        add_zsmul, natCast_zsmul, add_comm]
    · simp [Rep]
  rw [h, digitsValue_bit, Nat.shiftRight_zero, Nat.mod_eq_of_lt (lt_two_pow_mpzSizeinbase2 n),
    natCast_zsmul]

end Notes

section Multiplication

variable {P Q : Point} {A : E2 p}

/-- What the program holds for a noted sum. -/
def StandsFor (P : Point) (s : Noted p) : Prop := s.2 → Canonical P s.1

theorem StandsFor.add {s t : Noted p} (hP : StandsFor P s) (hQ : StandsFor Q t) :
    StandsFor (pointAdd P Q p) (s.add t) := by
  rintro ⟨hs, ht, hne⟩
  exact (canonical_pointAdd_iff (hP hs) (hQ ht)).2 hne

theorem standsFor_generalMultiple (hP : Canonical P A) (i : Nat) :
    StandsFor (generalMultiple P p i) (notedMultiple A i) := by
  have h1 : StandsFor P (A, True) := fun _ => hP
  induction i with
  | zero => exact h1
  | succ i ih => exact ih.add (h1.add h1)

/-- The loop of the program follows the one in the group. -/
theorem standsFor_loop (hP : Canonical P A) (n : Int) :
    StandsFor (windowLoop (bit n) windowsize (fun R => pointAdd R R p)
      (fun j R => pointAdd R (generalMultiple P p ((j.toNat - 1) / 2)) p) (mpzSizeinbase2 n)
      (mpzSizeinbase2 n) pointSetO) (notedLoop n A) :=
  windowLoop_related (R := StandsFor (p := p)) (fun _ _ h => h.add h)
    (fun _ _ _ _ _ h => h.add (standsFor_generalMultiple hP _)) fun _ => canonical_pointSetO

theorem canonical_unique {A B : E2 p} (hA : Canonical P A) (hB : Canonical P B) : A = B := by
  cases A with
  | zero => exact (hB.infinity.1 (hA.infinity.2 rfl)).symm
  | some x y h =>
      cases B with
      | zero => exact absurd (hA.infinity.1 (hB.infinity.2 rfl)) (Point.some_ne_zero h)
      | some x' y' h' =>
          obtain ⟨hx, hy⟩ := hA.coordinates _ _ _ rfl
          obtain ⟨hx', hy'⟩ := hB.coordinates _ _ _ rfl
          rw [Point.some.injEq]
          exact ⟨hx.symm.trans hx', hy.symm.trans hy'⟩

theorem canonical_generalPointMul {q : Nat} (hq : 0 < q) {curve : Curve} (hcp : curve.p = p)
    (hcq : curve.q = q) (hP : Canonical P A) (a : Int) (hr : Recognised (a % q) A) :
    Canonical (generalPointMul a P curve) ((a % q) • A) := by
  rw [generalPointMul, hcp, hcq]
  by_cases hinf : P.infinity = true
  · rw [if_pos hinf, hP.infinity.1 hinf, zsmul_zero]
    exact canonical_pointSetO
  · rw [if_neg hinf]
    by_cases ha : a = 0
    · rw [if_pos ha, ha, Int.zero_emod, zero_zsmul]
      exact canonical_pointSetO
    · rw [if_neg ha]
      have hn := Int.emod_nonneg a (Int.natCast_pos.2 hq).ne'
      generalize a % q = n at hn hr ⊢
      obtain ⟨n, rfl⟩ := Int.eq_ofNat_of_zero_le hn
      have h := standsFor_loop hP n hr
      rwa [notedLoop_fst, ← natCast_zsmul] at h

/-- `general_point_mul` computes the multiple exactly when the reduction of the
scalar does no harm, as long as the sums of the reduced one are recognised. -/
theorem generalPointMul_iff {q : Nat} (hqp : q ∣ p + 1) {curve : Curve} (hcp : curve.p = p)
    (hcq : curve.q = q) (hP : Canonical P A) (a : Int) (hr : Recognised (a % q) A) :
    Canonical (generalPointMul a P curve) (a • A) ↔ (q * (a / q)) • A = 0 := by
  have hq := Nat.pos_of_dvd_of_pos hqp p.succ_pos
  have h := canonical_generalPointMul hq hcp hcq hP a hr
  have hsplit : a • A = (a % q) • A + (q * (a / q)) • A := by
    rw [← add_zsmul, Int.emod_add_mul_ediv]
  constructor
  · intro hc
    have heq := canonical_unique h hc
    rwa [hsplit, left_eq_add] at heq
  · intro h0
    rwa [hsplit, h0, add_zero]

section Torsion

variable {q : Nat} (hq : q.Prime) (hq2 : 2 < q) {A : E2 p} (hA : addOrderOf A = q)

theorem not_missedInverse {B C : E2 p} (h : B + C ≠ 0) : ¬MissedInverse B C := by
  rintro ⟨x, y, hxy, rfl, rfl, -⟩
  exact h (neg_add_cancel _)

include hA

theorem nsmul_eq_zero_iff (n : Nat) : n • A = 0 ↔ q ∣ n := by
  rw [← hA]
  exact addOrderOf_dvd_iff_nsmul_eq_zero.symm

theorem nsmul_ne_zero {n : Nat} (h0 : 0 < n) (hn : n < q) : n • A ≠ 0 := by
  rw [Ne, nsmul_eq_zero_iff hA]
  exact fun h => absurd (Nat.le_of_dvd h0 h) (not_le.2 hn)

include hq hq2

theorem double_ne_zero {n : Nat} (hn : n • A ≠ 0) : n • A + n • A ≠ 0 := by
  rw [← add_nsmul, ← two_mul, Ne, nsmul_eq_zero_iff hA, hq.dvd_mul]
  rw [Ne, nsmul_eq_zero_iff hA] at hn
  rintro (h2 | h)
  · exact absurd (Nat.le_of_dvd two_pos h2) (not_le.2 hq2)
  · exact hn h

theorem not_missedInverse_self (n : Nat) : ¬MissedInverse (n • A) (n • A) := by
  by_cases h0 : n • A = 0
  · rintro ⟨x, y, hxy, hsome, -⟩
    rw [h0] at hsome
    exact Point.some_ne_zero hxy hsome.symm
  · exact not_missedInverse (double_ne_zero hq hq2 hA h0)

end Torsion

section Order

variable {q n : Nat} (hq : q.Prime) (hq32 : 32 < q) (hA : addOrderOf A = q)
include hq32 hA

/-- The table of a point of large prime order is set up without a special case. -/
theorem notedMultiple_snd {i : Nat} (hi : i ≤ 15) : (notedMultiple A i).2 := by
  have hdouble : ¬MissedInverse A A := by
    apply not_missedInverse
    rw [← two_nsmul]
    exact nsmul_ne_zero hA two_pos (by omega)
  induction i with
  | zero => trivial
  | succ i ih =>
      refine ⟨ih (by omega), ⟨trivial, trivial, hdouble⟩, not_missedInverse ?_⟩
      rw [notedMultiple_fst, Noted.add_fst, ← two_nsmul, ← add_nsmul]
      exact nsmul_ne_zero hA (Nat.succ_pos _) (by omega)

include hq

/-- So are the multiples below the order. -/
theorem recognised_of_order (hn : n < q) : Recognised n A := by
  have hq2 : 2 < q := by omega
  let Rep : Int → Noted p → Prop := fun k s => ∃ i : Nat, k = i ∧ s.1 = i • A ∧ s.2
  have hloop : Rep (digitsValue (bit n) 0 (mpzSizeinbase2 n)) (notedLoop n A) := by
    refine windowLoop_rep (by decide) _ _ Rep (mpzSizeinbase2 n) ?_ le_rfl le_rfl ?_ ?_
    · rintro r i s - - ⟨k, hk, hs, hnote⟩
      refine ⟨2 * k, by rw [pow_succ', mul_assoc, hk]; push_cast; rfl, ?_, hnote, hnote, ?_⟩
      · rw [Noted.add_fst, hs, two_mul, add_nsmul]
      · rw [hs]
        exact not_missedInverse_self hq hq2 hA k
    · rintro l m s hl ⟨k, hk, hs, hnote⟩
      obtain ⟨hlm, hm, hspan, hd, -⟩ := mem_windows (by decide) hl
      obtain ⟨j, hj, hodd⟩ := exists_window_bit hlm hd
      have hsplit := digitsValue_split (d := bit n) hlm hm
      have hlt : j < 2 ^ windowsize := by
        have hpow : 2 ^ (m + 1 - l) ≤ 2 ^ windowsize := Nat.pow_le_pow_right two_pos (by omega)
        refine lt_of_lt_of_le ?_ hpow
        rw [digitsValue_bit, Nat.cast_inj] at hj
        rw [← hj]
        exact Nat.mod_lt _ (Nat.two_pow_pos _)
      have htable := notedMultiple_snd (A := A) hq32 hA (i := (j - 1) / 2) (by
        have h5 : 2 ^ windowsize = 32 := rfl
        omega)
      rw [hk, hj] at hsplit
      have hsum : k + j = n >>> l % 2 ^ (mpzSizeinbase2 n - l) := by
        rw [digitsValue_bit] at hsplit
        omega
      have hle : k + j ≤ n := by
        rw [hsum]
        exact (Nat.mod_le _ _).trans (Nat.shiftRight_le n l)
      have hmultiple : (notedMultiple A ((j - 1) / 2)).1 = j • A := by rw [notedMultiple_fst, hodd]
      rw [hj, Int.toNat_natCast]
      refine ⟨k + j, by rw [hsplit]; push_cast; ring, ?_, hnote, htable, not_missedInverse ?_⟩
      · rw [Noted.add_fst, hs, hmultiple, add_nsmul]
      · rw [hs, hmultiple, ← add_nsmul]
        exact nsmul_ne_zero hA (by omega) (hle.trans_lt hn)
    · exact ⟨0, by simp, by simp, trivial⟩
  exact hloop.choose_spec.2.2

/-- For a point whose order is the divisor the reduction does no harm either. -/
theorem canonical_generalPointMul_of_order {curve : Curve} (hcp : curve.p = p) (hcq : curve.q = q)
    (hP : Canonical P A) (a : Int) : Canonical (generalPointMul a P curve) (a • A) := by
  have hq0 : (0 : Int) < q := Int.natCast_pos.2 hq.pos
  have hr : Recognised (a % q) A := by
    obtain ⟨n, hn⟩ := Int.eq_ofNat_of_zero_le (Int.emod_nonneg a hq0.ne')
    have hlt := Int.emod_lt_of_pos a hq0
    rw [hn] at hlt ⊢
    exact recognised_of_order hq hq32 hA (Int.ofNat_lt.1 hlt)
  have h := canonical_generalPointMul hq.pos hcp hcq hP a hr
  have hzero : (q * (a / q)) • A = 0 := by
    rw [mul_comm, mul_zsmul, natCast_zsmul, ← hA, addOrderOf_nsmul_eq_zero, zsmul_zero]
  have hsplit : a • A = (a % q) • A := by
    calc a • A = (a % q + q * (a / q)) • A := by rw [Int.emod_add_mul_ediv]
      _ = (a % q) • A := by rw [add_zsmul, hzero, add_zero]
  rwa [hsplit]

end Order

section Example

theorem double_plus :
    plus + plus = .some 0 1 ((MordellCurve.nonsingular_iff (by decide)).2 (by decide)) :=
  some_add_self (l := 2) (by decide) (by decide) (by decide) (by decide)

theorem triple_plus : plus + plus + plus =
    .some (-1) 0 ((MordellCurve.nonsingular_iff (by decide)).2 (by decide)) := by
  rw [double_plus, plus]
  exact some_add_some (l := 1) (by decide) (by decide) (by decide) (by decide)

instance fact_prime_443 : Fact (Nat.Prime 443) := ⟨by norm_num⟩

instance fact_mod_443 : Fact (443 % 12 = 11) := ⟨rfl⟩

theorem nonsingular_443 {x y : K 443} (hy : y ^ 2 = x ^ 3 + 1) : (mordell (K 443)).Nonsingular x y :=
  (MordellCurve.nonsingular_iff (by decide)).2 hy

def small : E2 443 := .some (val 443 ⟨11, 0⟩) (val 443 ⟨171, 0⟩) (nonsingular_443 (by decide))

theorem canonical_small : Canonical ⟨⟨11, 0⟩, ⟨171, 0⟩, false⟩ small :=
  canonical_some ⟨by constructor <;> decide, by constructor <;> decide⟩ rfl rfl rfl

theorem addOrderOf_small : addOrderOf small = 37 := by
  have hns {x y : K 443} (h : y ^ 2 = x ^ 3 + 1) : (mordell (K 443)).Nonsingular x y :=
    nonsingular_443 h
  have h2 : small + small = .some (val 443 ⟨216, 0⟩) (val 443 ⟨307, 0⟩) (hns (by decide)) :=
    some_add_self (l := val 443 ⟨378, 0⟩) (by decide) (by decide) (by decide) (by decide)
  have h4 : 4 • small = .some (val 443 ⟨292, 0⟩) (val 443 ⟨391, 0⟩) (hns (by decide)) := by
    rw [show 4 • small = small + small + (small + small) by abel, h2]
    exact some_add_self (l := val 443 ⟨189, 0⟩) (by decide) (by decide) (by decide) (by decide)
  have h8 : 8 • small = .some (val 443 ⟨338, 0⟩) (val 443 ⟨328, 0⟩) (hns (by decide)) := by
    rw [show 8 • small = 4 • small + 4 • small by abel, h4]
    exact some_add_self (l := val 443 ⟨437, 0⟩) (by decide) (by decide) (by decide) (by decide)
  have h16 : 16 • small = .some (val 443 ⟨362, 0⟩) (val 443 ⟨369, 0⟩) (hns (by decide)) := by
    rw [show 16 • small = 8 • small + 8 • small by abel, h8]
    exact some_add_self (l := val 443 ⟨174, 0⟩) (by decide) (by decide) (by decide) (by decide)
  have h32 : 32 • small = .some (val 443 ⟨228, 0⟩) (val 443 ⟨374, 0⟩) (hns (by decide)) := by
    rw [show 32 • small = 16 • small + 16 • small by abel, h16]
    exact some_add_self (l := val 443 ⟨313, 0⟩) (by decide) (by decide) (by decide) (by decide)
  have h36 : 36 • small = -small := by
    rw [show 36 • small = 32 • small + 4 • small by abel, h32, h4, small, Point.neg_some]
    exact some_add_some (l := val 443 ⟨201, 0⟩) (by decide) (by decide) (by decide) (by decide)
  have hprime : Fact (Nat.Prime 37) := ⟨by norm_num⟩
  refine addOrderOf_eq_prime ?_ (Point.some_ne_zero _)
  calc 37 • small = 36 • small + small := by abel
    _ = 0 := by rw [h36, neg_add_cancel]

/-- A negative scalar, which is reduced to 35 and takes two windows. -/
theorem canonical_negative_multiple :
    Canonical (generalPointMul (-2) ⟨⟨11, 0⟩, ⟨171, 0⟩, false⟩ (curveInit 443 37))
      ((-2 : Int) • small) := by
  have hprime : Nat.Prime 37 := by norm_num
  have hr : Recognised ((-2) % (37 : Nat)) small :=
    recognised_of_order hprime (by norm_num) addOrderOf_small (n := 35) (by norm_num)
  refine (generalPointMul_iff (p := 443) (q := 37) (by norm_num) rfl rfl canonical_small (-2) hr).2 ?_
  change (-37 : Int) • small = 0
  rw [neg_zsmul, neg_eq_zero]
  exact (nsmul_eq_zero_iff addOrderOf_small 37).2 dvd_rfl

/-- Three times a point of order six is reduced to nothing for the divisor three. -/
theorem not_canonical_reduced_multiple :
    Canonical ⟨⟨2, 0⟩, ⟨3, 0⟩, false⟩ plus ∧
      ¬Canonical (generalPointMul 3 ⟨⟨2, 0⟩, ⟨3, 0⟩, false⟩ (curveInit 11 3)) ((3 : Int) • plus) := by
  refine ⟨canonical_plus, fun h => ?_⟩
  have hinf : (generalPointMul 3 ⟨⟨2, 0⟩, ⟨3, 0⟩, false⟩ (curveInit 11 3)).infinity = true := by
    decide
  have hsum : (3 : Int) • plus = plus + plus + plus := by abel
  rw [hsum, triple_plus] at h
  exact Point.some_ne_zero _ (h.infinity.1 hinf)

end Example

end Multiplication

end IdBasedEncryption.GeneralMultiples
