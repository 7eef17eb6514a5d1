import IdBasedEncryption.KeyEncapsulation
import IdBasedEncryption.ScalarMultiples

namespace IdBasedEncryption.CofactorMultiples

open WeierstrassCurve.Affine MordellCurve Gmp SlidingWindow NonAdjacentForm Fp2Arith FieldExtension
open MordellGroup CurvePoints PointValues MultipleBounds Multiples ScalarMultiples ByteStrings IbeLib
open KeyEncapsulation

section Accumulator

variable {p : Nat} [hp : Fact p.Prime] [hp2 : Fact (p % 2 = 1)] {A B : E p} {R : Proj}

omit hp hp2 in
theorem z_projDouble_eq_zero (hR : R.z = 0) : (projDouble R p).z = 0 := by
  simp [projDouble, hR]

omit hp hp2 in
theorem z_projMixIn_eq_zero (hR : R.z = 0) (a b : Int) : (projMixIn R a b p).z = 0 := by
  simp [projMixIn, hR]

/-- Doubling a point of order two loses it. -/
theorem z_projDouble_of_add_self (hR : ProjRepresents R A) (hA : A + A = 0) :
    (projDouble R p).z = 0 := by
  obtain ⟨x, y, hxy, rfl, hz, hx, hy⟩ := hR
  have hy0 : y = 0 := by
    have hneg : Point.some x y hxy = -Point.some x y hxy := eq_neg_of_add_eq_zero_left hA
    rw [Point.neg_some, Point.some.injEq, negY_eq] at hneg
    have h2 : 2 * y = 0 := by linear_combination hneg.2
    exact (mul_eq_zero.1 h2).resolve_left two_ne_zero_of_odd
  apply Int.emod_eq_zero_of_dvd
  rw [← ZMod.intCast_zmod_eq_zero_iff_dvd]
  push_cast
  rw [hy, hy0]
  ring

omit hp2 in
theorem mixIn_neg {Q : Int × Int} (hR : ProjRepresents R A) (hQ : AffRepresents Q B) (h : A + B = 0) :
    (projMixIn R Q.1 Q.2 p).z = 0 := by
  obtain ⟨hQ, rfl⟩ := hQ
  obtain ⟨x, y, hxy, rfl, -, hx, -⟩ := hR
  have hneg := eq_neg_of_add_eq_zero_left h
  rw [Point.neg_some, Point.some.injEq] at hneg
  obtain ⟨rfl, -⟩ := hneg
  apply Int.emod_eq_zero_of_dvd
  rw [← ZMod.intCast_zmod_eq_zero_iff_dvd]
  push_cast [ZMod.intCast_mod]
  rw [hx]
  ring

end Accumulator

section Loop

variable {p : Nat} [hp : Fact p.Prime]

/-- A point of the group with a note whether the accumulator still stands for
it. -/
abbrev Kept (p : Nat) [Fact p.Prime] := E p × Prop

def Kept.double (t : Kept p) : Kept p := (t.1 + t.1, t.2 ∧ t.1 + t.1 ≠ 0)

def Kept.mix (A : E p) (v : Int) (t : Kept p) : Kept p :=
  (t.1 + v • A, t.2 ∧ t.1 ≠ v • A ∧ t.1 + v • A ≠ 0)

/-- The loop of `point_mul` in the group. -/
def keptLoop (n : Nat) (A : E p) : Kept p :=
  let l := windowStart (digit n) windowsize (topDigit n)
  windowLoop (digit n) windowsize Kept.double (Kept.mix A) l l
    (digitsValue (digit n) l (topDigit n + 1 - l) • A, True)

/-- No multiple in the table of `point_mul` that a window may take is zero. -/
def TableHolds (A : E p) : Prop := ∀ i ≤ 10, (2 * i + 1) • A ≠ 0

/-- `point_mul` meets no special case. -/
def Clear (n : Nat) (A : E p) : Prop := TableHolds A ∧ (keptLoop n A).2

theorem keptLoop_fst (n : Nat) (A : E p) : (keptLoop n A).1 = n • A := by
  have hle := windowStart_le (d := digit n) (w := windowsize) (by decide) (topDigit n)
  have h : (keptLoop n A).1 = digitsValue (digit n) 0 (topDigit n + 1) • A := by
    let Rep : Int → Kept p → Prop := fun k t => t.1 = k • A
    refine windowLoop_rep (by decide) _ _ Rep (topDigit n + 1) ?_ le_rfl (by omega) ?_ ?_
    · intro r i t _ _ ht
      simp only [Rep, Kept.double] at ht ⊢
      rw [ht, ← add_zsmul, pow_succ]
      ring_nf
    · intro l m t hl ht
      obtain ⟨hlm, hm, -⟩ := mem_windows (by decide) hl
      have hsplit := digitsValue_split (d := digit n) hlm (show m < topDigit n + 1 by omega)
      simp only [Rep, Kept.mix] at ht ⊢
      rw [ht, hsplit, ← add_zsmul, add_comm]
    · simp only [Rep]
  have hval : digitsValue (digit n) 0 (topDigit n + 1) = n := highDigits_zero n
  rw [h, hval, natCast_zsmul]

variable [hp2 : Fact (p % 2 = 1)] {A : E p} {P : Int × Int}

/-- What the accumulator holds for a point of the group. -/
def HoldsKept (s : Option Proj) (t : Kept p) : Prop :=
  ∃ R, s = some R ∧ (t.2 → ProjRepresents R t.1) ∧ (¬t.2 → R.z = 0)

omit hp2 in
/-- An accumulator that is settled once the points before are known. -/
theorem holdsKept_of {R : Proj} {B : E p} {c d : Prop} (h : c → d → ProjRepresents R B)
    (hz : c → ¬d → R.z = 0) (hc : ¬c → R.z = 0) : HoldsKept (some R) (B, c ∧ d) := by
  refine ⟨R, rfl, fun hcd => h hcd.1 hcd.2, fun hcd => ?_⟩
  by_cases hc' : c
  · exact hz hc' fun hd => hcd ⟨hc', hd⟩
  · exact hc hc'

theorem HoldsKept.double {s : Option Proj} {t : Kept p} (h : HoldsKept s t) :
    HoldsKept (s.map (projDouble · p)) t.double := by
  obtain ⟨R, rfl, hR, hz⟩ := h
  exact holdsKept_of (fun hc hd => (hR hc).double two_ne_zero_of_odd hd)
    (fun hc hd => z_projDouble_of_add_self (hR hc) (not_not.1 hd)) fun hc =>
      z_projDouble_eq_zero (hz hc)

theorem HoldsKept.mix {v : Int} (hv : ∃ M, signedMultiple P p v = some M ∧ AffRepresents M (v • A))
    {s : Option Proj} {t : Kept p} (h : HoldsKept s t) :
    HoldsKept (mulMixIn P p v s) (t.mix A v) := by
  obtain ⟨R, rfl, hR, hz⟩ := h
  obtain ⟨M, hM, hMr⟩ := hv
  have hmix : mulMixIn P p v (some R) = some (projMixIn R M.1 M.2 p) := by simp [mulMixIn, hM]
  rw [hmix]
  refine holdsKept_of (fun hc hd => mixIn_represents (hR hc) hMr hd.1 hd.2) (fun hc hd => ?_)
    fun hc => z_projMixIn_eq_zero (hz hc) _ _
  by_cases he : t.1 = v • A
  · exact mixIn_self (he ▸ hR hc) hMr
  · exact mixIn_neg (hR hc) hMr (not_not.1 fun hne => hd ⟨he, hne⟩)

omit hp2 in
theorem affRepresents_oddMultiple_of_tableHolds (hP : AffRepresents P A) (hA : TableHolds A)
    (h2 : A + A ≠ 0) {i : Nat} (hi : i ≤ 10) : AffRepresents (oddMultiple P p i) ((2 * i + 1) • A) := by
  induction i with
  | zero => simpa [oddMultiple] using hP
  | succ i ih =>
      have hsum : (2 * i + 1) • A + (A + A) = (2 * (i + 1) + 1) • A := by
        rw [← two_nsmul, ← add_nsmul]
        ring_nf
      rw [oddMultiple, ← hsum]
      refine (ih (by omega)).add (hP.double h2) (fun he => ?_) (by rw [hsum]; exact hA _ hi)
      cases i with
      | zero =>
          have h0 := hA 0 (by omega)
          simp only [mul_zero, zero_add, one_nsmul] at he h0
          exact h0 (left_eq_add.1 he)
      | succ i =>
          refine hA i (by omega) ?_
          have hsplit : (2 * (i + 1) + 1) • A = (2 * i + 1) • A + (A + A) := by
            rw [← two_nsmul, ← add_nsmul]
            ring_nf
          rw [hsplit] at he
          exact add_eq_right.1 he

omit hp2 in
/-- For a point of order two the special case of the doubling does no harm to the
table. -/
theorem affRepresents_oddMultiple_of_two (hP : AffRepresents P A) (h2 : A + A = 0) (hy : (P.2 : ZMod p) = 0)
    (i : Nat) : AffRepresents (oddMultiple P p i) ((2 * i + 1) • A) := by
  have hdouble : ((zzpPointDouble P p).1 : ZMod p) = -(2 * P.1) ∧
      ((zzpPointDouble P p).2 : ZMod p) = 0 := by
    constructor
    · simp [zzpPointDouble, cast_mpzInvert, hy]
      ring
    · simp [zzpPointDouble, cast_mpzInvert, hy]
  have hentry : ((oddMultiple P p i).1 : ZMod p) = P.1 ∧ ((oddMultiple P p i).2 : ZMod p) = 0 := by
    induction i with
    | zero => exact ⟨rfl, hy⟩
    | succ i ih =>
        rw [oddMultiple]
        constructor
        · simp [zzpPointAdd, hdouble, ih]
          ring
        · simp [zzpPointAdd, hdouble, ih]
  have hodd : (2 * i + 1) • A = A := by
    calc (2 * i + 1) • A = i • (A + A) + A := by
          rw [← two_nsmul, ← mul_nsmul, add_nsmul, one_nsmul]
      _ = A := by rw [h2, nsmul_zero, zero_add]
  rw [hodd]
  obtain ⟨h, rfl⟩ := hP
  exact affRepresents_of_eq hentry.1 (by rw [hentry.2, hy])

/-- The entries that the windows take stand for the odd multiples. -/
theorem exists_entry_of_tableHolds (hP : AffRepresents P A) (hA : TableHolds A) {v : Int}
    (hodd : v % 2 = 1) (hv : |v| ≤ 21) :
    ∃ M, signedMultiple P p v = some M ∧ AffRepresents M (v • A) := by
  obtain ⟨hlo, hhi⟩ := abs_le.1 hv
  have hM : AffRepresents (oddMultiple P p (v.natAbs / 2)) ((2 * (v.natAbs / 2) + 1) • A) := by
    by_cases h2 : A + A = 0
    · refine affRepresents_oddMultiple_of_two hP h2 ?_ _
      obtain ⟨h, rfl⟩ := hP
      have hneg := eq_neg_of_add_eq_zero_left h2
      rw [Point.neg_some, Point.some.injEq, negY_eq] at hneg
      have hy : 2 * (P.2 : ZMod p) = 0 := by linear_combination hneg.2
      exact (mul_eq_zero.1 hy).resolve_left two_ne_zero_of_odd
    · exact affRepresents_oddMultiple_of_tableHolds hP hA h2 (by omega)
  have hentry : multiple P p v.natAbs = some (oddMultiple P p (v.natAbs / 2)) := by
    rw [multiple, if_neg (by omega), if_pos (by omega)]
  rw [show 2 * (v.natAbs / 2) + 1 = v.natAbs by omega, ← natCast_zsmul] at hM
  rw [signedMultiple, hentry]
  by_cases hneg : v < 0
  · refine ⟨((oddMultiple P p (v.natAbs / 2)).1, p - (oddMultiple P p (v.natAbs / 2)).2),
      by simp [hneg], ?_⟩
    rw [show (v.natAbs : Int) = -v by omega, neg_zsmul] at hM
    rw [← neg_neg (v • A)]
    exact hM.neg
  · refine ⟨oddMultiple P p (v.natAbs / 2), by simp [hneg], ?_⟩
    rwa [show (v.natAbs : Int) = v by omega] at hM

theorem pointMul_keptLoop {n : Nat} (hn : 0 < n) (hA : TableHolds A) {B : Point}
    (hB : AffRepresents (B.x.a, B.y.a) A) :
    (Clear n A → pointMul n B p = some (ofPoint (n • A)) ∧ n • A ≠ 0) ∧
      (¬Clear n A → pointMul n B p = some pointInit) := by
  obtain ⟨hle, hlt, hl0⟩ := first_window hn rfl
  obtain ⟨M, hM, hMr⟩ := exists_entry_of_tableHolds hB hA (window_odd hle hl0) (abs_window_le hlt)
  have hstart : HoldsKept (some ⟨M.1, M.2, 1⟩)
      (digitsValue (digit n) (windowStart (digit n) windowsize (topDigit n))
        (topDigit n + 1 - windowStart (digit n) windowsize (topDigit n)) • A, True) := by
    obtain ⟨h, he⟩ := hMr
    exact ⟨_, rfl, fun _ => he ▸ projRepresents_one, fun h => absurd trivial h⟩
  have hloop : HoldsKept (windowLoop (digit n) windowsize (Option.map (projDouble · p))
      (mulMixIn (B.x.a, B.y.a) p) (windowStart (digit n) windowsize (topDigit n))
      (windowStart (digit n) windowsize (topDigit n)) (some ⟨M.1, M.2, 1⟩)) (keptLoop n A) := by
    refine windowLoop_related (R := HoldsKept) (fun _ _ h => h.double) (fun l m s t hw h => ?_) hstart
    obtain ⟨hlm, hm, hw5, hd', -⟩ := mem_windows (by decide) hw
    exact h.mix (exists_entry_of_tableHolds hB hA (window_odd hlm hd') (abs_window_le hw5))
  obtain ⟨R, hR, hkept, hlost⟩ := hloop
  have hmul : pointMul n B p = some (projAffine R p) := by
    rw [pointMul, Int.toNat_natCast]
    simp only [hM, hR, Option.bind_eq_bind, Option.bind_some, Option.pure_def]
  rw [hmul]
  rw [keptLoop_fst] at hkept
  constructor
  · rintro ⟨-, hc⟩
    exact ⟨by rw [(hkept hc).affine], (hkept hc).ne_zero⟩
  · intro hc
    rw [projAffine_of_z_eq_zero (hlost fun h => hc ⟨hA, h⟩)]

end Loop

section Three

variable {p : Nat} [hp : Fact p.Prime] [hp2 : Fact (p % 2 = 1)] {A : E p} {P : Int × Int}

/-- One of the two points of order three that a point leads to. -/
def IsSigned (A B : E p) : Prop := B = A ∨ B = -A

omit hp2 in
theorem IsSigned.neg {B : E p} (h : IsSigned A B) : IsSigned A (-B) := by
  rcases h with rfl | rfl
  · exact Or.inr rfl
  · exact Or.inl (neg_neg A)

/-- What the accumulator holds for a point of order three. -/
def HoldsSigned (A : E p) (s : Option Proj) : Prop :=
  ∀ R, s = some R → R.z = 0 ∨ ∃ B, IsSigned A B ∧ ProjRepresents R B

omit hp2 in
/-- The table holds the two points only, as the additions that set it up all meet
a special case. -/
theorem exists_isSigned_oddMultiple (hP : AffRepresents P A) (hx : (P.1 : ZMod p) = 0) (i : Nat) :
    ∃ B, IsSigned A B ∧ AffRepresents (oddMultiple P p i) B ∧ ((oddMultiple P p i).1 : ZMod p) = 0 := by
  have hdouble : ((zzpPointDouble P p).1 : ZMod p) = 0 := by simp [zzpPointDouble, hx]
  induction i with
  | zero => exact ⟨A, Or.inl rfl, hP, hx⟩
  | succ i ih =>
      obtain ⟨B, hB, hBr, hB0⟩ := ih
      have h1 : ((zzpPointAdd (oddMultiple P p i) (zzpPointDouble P p) p).1 : ZMod p) = 0 := by
        simp [zzpPointAdd, cast_mpzInvert, hdouble, hB0]
      have h2 : ((zzpPointAdd (oddMultiple P p i) (zzpPointDouble P p) p).2 : ZMod p) =
          -(oddMultiple P p i).2 := by
        simp [zzpPointAdd, cast_mpzInvert, hdouble, hB0]
      refine ⟨-B, hB.neg, ?_, h1⟩
      obtain ⟨h, rfl⟩ := hBr
      rw [oddMultiple, Point.neg_some]
      refine affRepresents_of_eq ?_ ?_
      · rw [h1, hB0]
      · rw [h2, negY_eq]

omit hp2 in
/-- Every entry that `point_mul` takes is one of the two points. -/
theorem exists_isSigned_signedMultiple (hP : AffRepresents P A) (hx : (P.1 : ZMod p) = 0) {j : Int}
    {M : Int × Int} (hM : signedMultiple P p j = some M) : ∃ B, IsSigned A B ∧ AffRepresents M B := by
  have hentry {M : Int × Int} (hM : multiple P p j.natAbs = some M) :
      ∃ B, IsSigned A B ∧ AffRepresents M B := by
    rw [multiple] at hM
    split at hM
    · obtain rfl := Option.some.inj hM
      obtain ⟨h, rfl⟩ := hP
      refine ⟨_, Or.inr rfl, ?_⟩
      rw [Point.neg_some]
      apply affRepresents_of_eq
      · simp [zzpPointDouble, hx]
      · simp [zzpPointDouble, hx]
    · split at hM
      · obtain ⟨B, hB, hBr, -⟩ := exists_isSigned_oddMultiple hP hx (j.natAbs / 2)
        exact ⟨B, hB, Option.some.inj hM ▸ hBr⟩
      · cases hM
  rw [signedMultiple, Option.map_eq_some_iff] at hM
  obtain ⟨M', hM', rfl⟩ := hM
  obtain ⟨B, hB, hBr⟩ := hentry hM'
  by_cases hj : j < 0
  · rw [if_pos hj]
    exact ⟨-B, hB.neg, hBr.neg⟩
  · rw [if_neg hj]
    exact ⟨B, hB, hBr⟩

theorem HoldsSigned.double (hA : A + A + A = 0) {s : Option Proj} (h : HoldsSigned A s) :
    HoldsSigned A (s.map (projDouble · p)) := by
  intro R hR
  obtain ⟨R', rfl, rfl⟩ := Option.map_eq_some_iff.1 hR
  rcases h R' rfl with hz | ⟨B, hB, hBr⟩
  · exact Or.inl (z_projDouble_eq_zero hz)
  · have hBB : B + B = -B := by
      rcases hB with rfl | rfl
      · exact eq_neg_of_add_eq_zero_left hA
      · rw [← neg_add, eq_neg_of_add_eq_zero_left hA]
    refine Or.inr ⟨-B, hB.neg, hBB ▸ hBr.double two_ne_zero_of_odd ?_⟩
    rw [hBB]
    exact neg_ne_zero.2 hBr.ne_zero

omit hp2 in
theorem HoldsSigned.mix (hP : AffRepresents P A) (hx : (P.1 : ZMod p) = 0) {j : Int}
    {s : Option Proj} (h : HoldsSigned A s) : HoldsSigned A (mulMixIn P p j s) := by
  intro R hR
  simp only [mulMixIn, Option.bind_eq_bind, Option.bind_eq_some_iff, Option.pure_def,
    Option.some.injEq] at hR
  obtain ⟨M, hM, R', rfl, rfl⟩ := hR
  left
  obtain ⟨C, hC, hCr⟩ := exists_isSigned_signedMultiple hP hx hM
  rcases h R' rfl with hz | ⟨B, hB, hBr⟩
  · exact z_projMixIn_eq_zero hz _ _
  · by_cases hBC : B = C
    · exact mixIn_self (hBC ▸ hBr) hCr
    · refine mixIn_neg hBr hCr ?_
      rcases hB with rfl | rfl <;> rcases hC with rfl | rfl
      · exact absurd rfl hBC
      · exact add_neg_cancel _
      · exact neg_add_cancel _
      · exact absurd rfl hBC

/-- A multiple of a point of order three that `point_mul` computes is one of the
two points again, or no point. -/
theorem pointMul_three {n : Int} (hA : A + A + A = 0) {B : Point}
    (hB : AffRepresents (B.x.a, B.y.a) A) (hx : (B.x.a : ZMod p) = 0) {R : Point}
    (hR : pointMul n B p = some R) : R = pointInit ∨ ∃ C, IsSigned A C ∧ R = ofPoint C := by
  simp only [pointMul, Option.bind_eq_bind, Option.bind_eq_some_iff, Option.pure_def,
    Option.some.injEq] at hR
  obtain ⟨M, hM, R', hR', rfl⟩ := hR
  have hloop : HoldsSigned A (some R') := by
    rw [← hR']
    refine windowLoop_preserves (P := HoldsSigned A) (fun _ h => h.double hA)
      (fun _ _ h => h.mix hB hx) ?_
    intro R hR
    obtain rfl := Option.some.inj hR
    obtain ⟨C, hC, h, rfl⟩ := exists_isSigned_signedMultiple hB hx hM
    exact Or.inr ⟨_, hC, projRepresents_one⟩
  rcases hloop R' rfl with hz | ⟨C, hC, hCr⟩
  · exact Or.inl (projAffine_of_z_eq_zero hz)
  · exact Or.inr ⟨C, hC, hCr.affine⟩

end Three

section Landing

variable {p : Nat} [hp : Fact p.Prime] [hp12 : Fact (p % 12 = 11)]

def pointOfY (y : ZMod p) : E p := .some _ y (nonsingular_cbrt y)

theorem eq_pointOfY {x y : ZMod p} (h : (mordell (ZMod p)).Nonsingular x y) :
    .some x y h = pointOfY y := by
  have hxy := MordellCurve.equation_iff.1 h.1
  simp only [pointOfY, Point.some.injEq, and_true]
  rw [hxy, add_sub_cancel_right, cube_pow]

theorem affRepresents_xFromY {curve : Curve} (hcp : curve.p = p)
    (hcbrt : curve.cbrtpwr = (p * 2 - 1) / 3) (y : Int) :
    AffRepresents (xFromY y curve, y) (pointOfY (y : ZMod p)) := by
  have h12 := hp12.out
  have hpwr : curve.cbrtpwr.toNat = (2 * p - 1) / 3 := by omega
  refine affRepresents_of_eq ?_ rfl
  simp only [xFromY, hcp, cast_mpzPowm, hpwr]
  push_cast [ZMod.intCast_mod]
  rw [pow_two]

omit hp12 in
/-- Minus three is a square only where there are further points of order three. -/
theorem x_mul_eq_zero_of_three {x y : ZMod p} {h : (mordell (ZMod p)).Nonsingular x y}
    (h3 : 3 • Point.some x y h = 0) : 3 * (x * (y ^ 2 + 3)) = 0 := by
  have hxy := MordellCurve.equation_iff.1 h.1
  have hdouble : Point.some x y h + Point.some x y h = -Point.some x y h := by
    rw [← two_nsmul]
    exact eq_neg_of_add_eq_zero_left (by rw [← succ_nsmul, h3])
  have hy : y ≠ -y := by
    intro hy
    rw [Point.add_self_of_Y_eq (by rwa [negY_eq])] at hdouble
    exact Point.some_ne_zero h (neg_eq_zero.1 hdouble.symm)
  rw [Point.add_self_of_Y_ne (by rwa [negY_eq]), Point.neg_some, Point.some.injEq, addX_eq,
    slope_self hy] at hdouble
  have h2y : 2 * y ≠ 0 := fun h2 => hy (by linear_combination h2)
  have hsq : (3 * x ^ 2 / (2 * y)) ^ 2 = 3 * x := by linear_combination hdouble.1
  rw [div_pow, div_eq_iff (pow_ne_zero 2 h2y)] at hsq
  linear_combination -hsq - 9 * x * hxy

theorem x_eq_zero_of_three {x y : ZMod p} {h : (mordell (ZMod p)).Nonsingular x y}
    (h3 : 3 • Point.some x y h = 0) : x = 0 := by
  have h6 := six_ne_zero (p := p)
  have hx := (mul_eq_zero.1 (x_mul_eq_zero_of_three h3)).resolve_left (three_ne_zero_of_six h6)
  refine (mul_eq_zero.1 hx).resolve_right fun hy => ?_
  have h2 := two_ne_zero' (p := p)
  have hone : ((y - 1) / 2) ^ 3 = 1 ^ 3 := by
    field_simp
    linear_combination (y - 3) * hy
  have h3y : y = 3 := by
    have h1 := cube_injective hone
    field_simp at h1
    linear_combination h1
  rw [h3y] at hy
  have h12 : (2 : ZMod p) * 6 = 0 := by linear_combination hy
  exact (mul_ne_zero h2 h6) h12

def Lands (p q : Nat) [Fact p.Prime] (d : Option Point) : Prop :=
  ∃ C : E p, addOrderOf C = q ∧ d = some (ofPoint C)

/-- What the cofactor makes of the point for `y`. For an odd order from 5 to 21 the
table holds no points of the curve. -/
def LandsWhenClear (p q : Nat) [Fact p.Prime] [Fact (p % 12 = 11)] (y : Int) (d : Option Point) :
    Prop :=
  let A := pointOfY (y : ZMod p)
  (Clear ((p + 1) / q) A → Lands p q d) ∧
    (TableHolds A ∨ 3 • A = 0 → Lands p q d → Clear ((p + 1) / q) A)

variable {q : Nat} (hq : q.Prime) (hq64 : 64 < q) (hqp : q ∣ p + 1) {params : Params}
  (hi : Initialized params) (hpp : params.p = p) (hpq : params.q = q)
include hq hq64 hqp hi hpp hpq

theorem landsWhenClear_pointMakeOrderQ (y : Int) :
    LandsWhenClear p q y (pointMakeOrderQ (pointRandom y params.curve) params) := by
  rw [LandsWhenClear]
  set A := pointOfY (y : ZMod p)
  generalize hd : pointMakeOrderQ (pointRandom y params.curve) params = d
  have hn : 0 < (p + 1) / q := Nat.div_pos (Nat.le_of_dvd (by omega) hqp) hq.pos
  have hcp : params.curve.p = p := by rw [hi.curve_eq, ← hpp]; rfl
  have hcbrt : params.curve.cbrtpwr = (p * 2 - 1) / 3 := by rw [hi.curve_eq, ← hpp]; rfl
  have hA : AffRepresents ((pointRandom y params.curve).x.a, (pointRandom y params.curve).y.a) A :=
    affRepresents_xFromY hcp hcbrt y
  have hmake : pointMakeOrderQ (pointRandom y params.curve) params =
      pointMul ((p + 1) / q : Nat) (pointRandom y params.curve) p := by
    simp only [pointMakeOrderQ, hi.p1onq_eq, hpp, hpq, hcp]
    norm_cast
  rw [hmake] at hd
  constructor
  · intro hc
    obtain ⟨hmul, h0⟩ := (pointMul_keptLoop hn hc.1 hA).1 hc
    refine ⟨((p + 1) / q) • A, addOrderOf_eq hq ?_ h0, by rw [← hd, hmul]⟩
    rw [← mul_nsmul', Nat.mul_div_cancel' hqp, smul_card]
  · rintro (ht | h3) ⟨C, hC, hdC⟩
    · by_contra hc
      have hmul := (pointMul_keptLoop hn ht hA).2 hc
      rw [hd, hdC] at hmul
      exact ofPoint_ne_pointInit C (Option.some.inj hmul)
    · have hx : ((pointRandom y params.curve).x.a : ZMod p) = 0 := by
        obtain ⟨h, he⟩ := hA
        rw [he] at h3
        exact x_eq_zero_of_three h3
      have h3' : A + A + A = 0 := by rw [← h3]; abel
      rcases pointMul_three h3' hA hx (hd.trans hdC) with h | ⟨B, hB, h⟩
      · exact absurd h (ofPoint_ne_pointInit C)
      · obtain rfl := ofPoint_injective h
        have hq3 : q ∣ 3 := by
          rw [← hC]
          apply addOrderOf_dvd_of_nsmul_eq_zero
          rcases hB with rfl | rfl
          · exact h3
          · rw [neg_nsmul, h3, neg_zero]
        exact absurd (Nat.le_of_dvd (by norm_num) hq3) (by omega)

end Landing

section Main

theorem randomOrderQ_cons (y : Int) (ys : List Int) (params : Params) :
    randomOrderQ params (y :: ys) = pointMakeOrderQ (pointRandom y params.curve) params := by
  rw [randomOrderQ]
  cases h : pointMakeOrderQ (pointRandom y params.curve) params with
  | none => rfl
  | some d => simp [infinity_pointMul h]

variable {p : Nat} [hp : Fact p.Prime] [hp12 : Fact (p % 12 = 11)]

/-- Neither the hash nor the choice of the generator ever goes on to a second
point. -/
theorem landsWhenClear_of_initialized {q : Nat} (hq : q.Prime) (hq64 : 64 < q) (hqp : 12 * q ∣ p + 1) {params : Params}
    (hi : Initialized params) (hpp : params.p = p) (hpq : params.q = q)
    (md : ByteString → ByteString) (bs : ByteString) (y : Int) (ys : List Int) :
    LandsWhenClear p q (hashG md bs params) (mapByteStringToPoint md bs params) ∧
      LandsWhenClear p q y (randomOrderQ params (y :: ys)) := by
  have hqp' := dvd_of_mul_left_dvd hqp
  rw [mapByteStringToPoint_eq, randomOrderQ_cons]
  exact ⟨landsWhenClear_pointMakeOrderQ hq hq64 hqp' hi hpp hpq _,
    landsWhenClear_pointMakeOrderQ hq hq64 hqp' hi hpp hpq _⟩

/-- The digest that leads to the second coordinate 1156. -/
def genDigest : ByteString := 128 :: List.replicate 17 0 ++ [4, 132]

/-- The digest that leads to the second coordinate 1. -/
def thirdDigest : ByteString := 128 :: List.replicate 18 0 ++ [1]

theorem clear_gen : Clear 24 gen := by
  have hne {n : Nat} (hn : 0 < n) (h67 : n < 67) : n • gen ≠ 0 := by
    intro h
    have hdvd := addOrderOf_dvd_of_nsmul_eq_zero h
    rw [addOrderOf_gen] at hdvd
    exact absurd (Nat.le_of_dvd hn hdvd) (by omega)
  refine ⟨fun i hi => hne (by omega) (by omega), ?_⟩
  have hloop : keptLoop 24 gen = (Kept.double (Kept.double (Kept.double ((3 : Int) • gen, True)))) := by
    rfl
  have hsum (k n : Nat) (h : (3 : Int) • gen = n • gen) : k • ((3 : Int) • gen) = (k * n) • gen := by
    rw [h, mul_comm, mul_nsmul]
  rw [hloop]
  simp only [Kept.double, ← two_nsmul, ← mul_nsmul]
  refine ⟨⟨⟨trivial, ?_⟩, ?_⟩, ?_⟩ <;> rw [hsum _ 3 (by abel)]
  · exact hne (by norm_num) (by norm_num)
  · exact hne (by norm_num) (by norm_num)
  · exact hne (by norm_num) (by norm_num)

/-- The generator comes back, multiplied by the cofactor 24. -/
theorem lands_gen : Clear 24 gen ∧
    Lands 1607 67 (mapByteStringToPoint (fun _ => genDigest) [] genParams) ∧
    Lands 1607 67 (randomOrderQ genParams [1156]) := by
  obtain ⟨hi, hpp, hpq⟩ := initialized_genParams
  obtain ⟨⟨hmap, -⟩, hrandom, -⟩ := landsWhenClear_of_initialized (p := 1607) (q := 67) (by norm_num) (by norm_num)
    (by norm_num) hi hpp hpq (fun _ => genDigest) [] 1156 []
  have hgen : pointOfY (1156 : ZMod 1607) = gen := (eq_pointOfY _).symm
  have hhash : hashG (fun _ => genDigest) [] genParams = 1156 := by decide
  rw [hhash] at hmap
  push_cast at hmap hrandom
  rw [hgen] at hmap hrandom
  exact ⟨clear_gen, hmap clear_gen, hrandom clear_gen⟩

/-- The point for 1 has order three, and 24 times this point is none. -/
theorem not_lands_third :
    hashG (fun _ => thirdDigest) [] genParams = 1 ∧
      ¬Lands 1607 67 (mapByteStringToPoint (fun _ => thirdDigest) [] genParams) ∧
      ¬Lands 1607 67 (randomOrderQ genParams [1]) := by
  obtain ⟨hi, hpp, hpq⟩ := initialized_genParams
  have hhash : hashG (fun _ => thirdDigest) [] genParams = 1 := by decide
  have hone : pointOfY (1 : ZMod 1607) = .some 0 1 ((MordellCurve.nonsingular_iff six_ne_zero).2 (by norm_num)) :=
    (eq_pointOfY _).symm
  have h3 : 3 • pointOfY (1 : ZMod 1607) = 0 := by
    rw [hone]
    exact three_smul_of_x_eq_zero two_ne_zero' _
  have hclear : ¬Clear 24 (pointOfY (1 : ZMod 1607)) := fun h => h.1 1 (by norm_num) h3
  obtain ⟨-, hl⟩ := landsWhenClear_pointMakeOrderQ (p := 1607) (q := 67) (by norm_num) (by norm_num)
    (by norm_num) hi hpp hpq 1
  rw [Int.cast_one] at hl
  have hmake := fun h => hclear (hl (Or.inr h3) h)
  refine ⟨hhash, ?_, ?_⟩
  · rwa [mapByteStringToPoint_eq, hhash]
  · rwa [randomOrderQ_cons]

end Main

end IdBasedEncryption.CofactorMultiples
