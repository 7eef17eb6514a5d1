import IdBasedEncryption.MultipleBounds
import IdBasedEncryption.PointValues

namespace IdBasedEncryption.Multiples

open WeierstrassCurve.Affine MordellCurve Gmp SlidingWindow NonAdjacentForm Fp2Arith Fp2Value
open MordellGroup CurvePoints SlopeFormulas PointValues MultipleBounds

variable {p : Nat} [hp : Fact p.Prime] [hp2 : Fact (p % 2 = 1)]

/-- The finite point that affine coordinates stand for. -/
def AffRepresents (P : Int × Int) (A : E p) : Prop :=
  ∃ h, A = .some (P.1 : ZMod p) (P.2 : ZMod p) h

section Affine

variable {P Q : Int × Int} {A B : E p}

omit hp2 in
theorem AffRepresents.ne_zero (h : AffRepresents P A) : A ≠ 0 := by
  obtain ⟨h, rfl⟩ := h
  exact Point.some_ne_zero h

omit hp2 in
theorem affRepresents_ofPoint (hA : A ≠ 0) :
    AffRepresents ((ofPoint A).x.a, (ofPoint A).y.a) A := by
  rcases A with _ | ⟨x, y, h⟩
  · exact absurd rfl hA
  · refine ⟨?_, ?_⟩
    · simpa [ofPoint, ofResidue] using h
    · simp [ofPoint, ofResidue]

omit hp2 in
theorem AffRepresents.neg (h : AffRepresents P A) : AffRepresents (P.1, p - P.2) (-A) := by
  obtain ⟨h, rfl⟩ := h
  refine ⟨?_, ?_⟩
  · have hneg := (nonsingular_neg ..).2 h
    simpa using hneg
  · simp [Point.neg_some]

omit hp2 in
theorem affRepresents_of_eq {x y : ZMod p} {h : (mordell (ZMod p)).Nonsingular x y}
    (hx : (P.1 : ZMod p) = x) (hy : (P.2 : ZMod p) = y) : AffRepresents P (.some x y h) := by
  subst hx hy
  exact ⟨h, rfl⟩

omit hp2 in
theorem AffRepresents.double (h : AffRepresents P A) (hA : A + A ≠ 0) :
    AffRepresents (zzpPointDouble P p) (A + A) := by
  obtain ⟨h, rfl⟩ := h
  have hne := y_ne_neg_of_add_self hA
  have h2 : 2 * (P.2 : ZMod p) ≠ 0 := fun he =>
    hne (eq_neg_of_add_eq_zero_left (by rw [← two_mul, he]))
  have hslope : (mordell (ZMod p)).slope P.1 P.1 P.2 P.2 * (2 * P.2) = 3 * P.1 ^ 2 := by
    rw [slope_self hne, div_mul_cancel₀ _ h2]
  obtain ⟨hx, hy⟩ := cast_zzpPointDouble h2 hslope
  rw [Point.add_self_of_Y_ne (by rwa [negY_eq])]
  refine affRepresents_of_eq (by rw [hx, addX_eq]) ?_
  rw [hy, addY_eq]
  ring

omit hp2 in
theorem AffRepresents.add (hP : AffRepresents P A) (hQ : AffRepresents Q B) (hne : A ≠ B)
    (hneg : A + B ≠ 0) : AffRepresents (zzpPointAdd P Q p) (A + B) := by
  obtain ⟨hP, rfl⟩ := hP
  obtain ⟨hQ, rfl⟩ := hQ
  have hne' := x_ne_of_add_ne_zero hne hneg
  obtain ⟨hx, hy⟩ := cast_zzpPointAdd hne'.symm (slope_mul_sub (P.2 : ZMod p) Q.2 hne')
  rw [Point.add_of_X_ne hne']
  refine affRepresents_of_eq (by rw [hx, addX_eq]) ?_
  rw [hy, addY_eq]
  ring

theorem mixIn_represents {R : Proj} (hR : ProjRepresents R A) (hQ : AffRepresents Q B) (hne : A ≠ B)
    (hneg : A + B ≠ 0) : ProjRepresents (projMixIn R Q.1 Q.2 p) (A + B) := by
  obtain ⟨hQ, rfl⟩ := hQ
  exact hR.mixIn two_ne_zero_of_odd hp2.out hne hneg

omit hp2 in
/-- Mixing in the point that the accumulator stands for loses it. -/
theorem mixIn_self {R : Proj} (hR : ProjRepresents R A) (hQ : AffRepresents Q A) :
    (projMixIn R Q.1 Q.2 p).z = 0 := by
  obtain ⟨h, rfl⟩ := hQ
  obtain ⟨x, y, hxy, he, -, hx, -⟩ := hR
  obtain ⟨rfl, -⟩ := (Point.some.injEq ..).mp he
  apply Int.emod_eq_zero_of_dvd
  rw [← ZMod.intCast_zmod_eq_zero_iff_dvd]
  push_cast [ZMod.intCast_mod]
  rw [hx]
  ring

omit hp2 in
theorem projAffine_of_z_eq_zero {R : Proj} (hR : R.z = 0) : projAffine R p = pointInit := by
  have hinv : mpzInvert 0 0 (p : Int) = 0 := by
    rw [mpzInvert, if_neg]
    simpa using hp.out.ne_one
  simp [projAffine, hR, hinv, pointInit, fp2Set0]

end Affine

section Order

variable {q : Nat} {A : E p} (ho : addOrderOf A = q)
include ho

omit hp2 in
theorem zsmul_ne_zero_of_separated {k : Int} (hk : Separated q k) : k • A ≠ 0 := by
  intro h
  obtain ⟨c, rfl⟩ := ho ▸ addOrderOf_dvd_iff_zsmul_eq_zero.2 h
  have hq : (0 : Int) ≤ q := Int.natCast_nonneg q
  have hc0 : 0 < c := lt_of_not_ge fun h =>
    absurd hk.pos (not_lt.2 (mul_nonpos_of_nonneg_of_nonpos hq h))
  have hc2 : c < 2 := lt_of_mul_lt_mul_left (by linarith [hk.lt]) hq
  obtain rfl : c = 1 := by omega
  exact hk.ne (mul_one _)

/-- Adds the multiple `v` to the multiple `k`. -/
theorem mixIn_zsmul {R : Proj} {M : Int × Int} {k v : Int} (hR : ProjRepresents R (k • A))
    (hM : AffRepresents M (v • A)) (hsum : Separated q (k + v)) (hsub : Separated q (k - v)) :
    ProjRepresents (projMixIn R M.1 M.2 p) ((k + v) • A) := by
  rw [add_zsmul]
  refine mixIn_represents hR hM ?_ ?_
  · rw [← sub_ne_zero, sub_eq_add_neg, ← sub_zsmul]
    exact zsmul_ne_zero_of_separated ho hsub
  · rw [← add_zsmul]
    exact zsmul_ne_zero_of_separated ho hsum

end Order

section Postprocess

/-- The table of the curve holds the points `2 ^ i A`. -/
structure Preprocessed (curve : Curve) (q : Nat) (A : E p) : Prop where
  p_eq : curve.p = p
  table : ∀ i ≤ mpzSizeinbase2 q, ∃ M : Int × Int,
    curve.preX[i]? = some M.1 ∧ curve.preY[i]? = some M.2 ∧ AffRepresents M ((2 ^ i : Int) • A)

variable {q : Nat} (hq : q.Prime) (hq3 : 3 < q) {A : E p} (ho : addOrderOf A = q)
include hq hq3 ho

omit hp2 in
theorem affRepresents_doublings (i : Nat) :
    AffRepresents ((zzpPointDouble · p)^[i] ((ofPoint A).x.a, (ofPoint A).y.a))
      ((2 ^ i : Int) • A) := by
  induction i with
  | zero => simpa using affRepresents_ofPoint (ne_zero_of_order hq ho)
  | succ i ih =>
      have hsum : (2 ^ i : Int) • A + (2 ^ i : Int) • A = (2 ^ (i + 1) : Int) • A := by
        rw [← add_zsmul, pow_succ, mul_two]
      rw [Function.iterate_succ_apply', ← hsum]
      refine ih.double ?_
      rw [hsum, ← Nat.cast_ofNat, ← Nat.cast_pow, natCast_zsmul]
      exact coprime_order_ne_zero (Nat.Coprime.pow_right _ ((Nat.coprime_primes hq Nat.prime_two).2
        (by omega))) hq.one_lt.ne' ho

omit hq hq3 ho hp hp2 in
theorem getElem?_doublings (P : Int × Int) {i k : Nat} (hi : i ≤ k) :
    (doublings P p k)[i]? = some ((zzpPointDouble · p)^[i] P) := by
  rw [doublings, List.getElem?_map, List.getElem?_range (by omega)]
  rfl

omit hp2 in
theorem preprocessed_pointMulPreprocess {curve : Curve} (hp : curve.p = p) (hcq : curve.q = q) :
    Preprocessed (pointMulPreprocess (ofPoint A) curve) q A where
  p_eq := hp
  table i hi := by
    refine ⟨_, ?_, ?_, affRepresents_doublings hq hq3 ho i⟩ <;>
      rw [pointMulPreprocess, hcq, hp, List.getElem?_map, getElem?_doublings _ hi] <;> rfl

variable {curve : Curve} (hcurve : Preprocessed curve q A) {n : Nat} (hn : 0 < n) (hnq : n < q)
include hcurve hn hnq

omit hp2 hq hq3 ho hcurve hn in
theorem topDigit_le_size : topDigit n ≤ mpzSizeinbase2 q := by
  refine (topDigit_le n).trans (Nat.succ_le_succ ?_)
  rw [Int.natAbs_natCast, Int.natAbs_natCast, Nat.log2_eq_log_two, Nat.log2_eq_log_two]
  exact Nat.log_mono_right hnq.le

omit hp2 hq hq3 ho hn in
theorem mulPostprocessRound_eq {l : Nat} (hl : l < topDigit n) (hd : digit n l ≠ 0) (R : Proj) :
    ∃ M : Int × Int, mulPostprocessRound n curve R l = some (projMixIn R M.1 M.2 p) ∧
      AffRepresents M ((2 ^ l * digit n l) • A) := by
  obtain ⟨M, hx, hy, hM⟩ := hcurve.table l (hl.le.trans (topDigit_le_size hnq))
  rw [mulPostprocessRound, Int.toNat_natCast, if_neg hd]
  rcases digit_cases (n := n) l with h | h | h
  · refine ⟨(M.1, p - M.2), by simp [hx, hy, h, hcurve.p_eq], ?_⟩
    rw [h, mul_neg, mul_one, neg_zsmul]
    exact hM.neg
  · exact absurd h hd
  · refine ⟨M, by simp [hx, hy, h, hcurve.p_eq], ?_⟩
    rwa [h, mul_one]

omit hp hp2 hq hq3 ho hcurve hn hnq in
theorem two_pow_mul_highDigits {l : Nat} (hl : l < topDigit n) :
    2 ^ l * highDigits n l = 2 ^ (l + 1) * highDigits n (l + 1) + 2 ^ l * digit n l := by
  rw [highDigits_succ (n := n) (l := l) hl.le]
  ring

theorem mulPostprocessRound_represents {l : Nat} (hne : l = 0 → ¬(q % 4 = 1 ∧ n + 2 = q))
    (hl : l < topDigit n) {R : Proj}
    (hR : ProjRepresents R ((2 ^ (l + 1) * highDigits n (l + 1)) • A)) :
    ∃ R', mulPostprocessRound n curve R l = some R' ∧
      ProjRepresents R' ((2 ^ l * highDigits n l) • A) := by
  have hodd := Nat.odd_iff.1 (hq.odd_of_ne_two (by omega))
  rw [two_pow_mul_highDigits hl]
  by_cases hd : digit n l = 0
  · rw [hd, mul_zero, add_zero, mulPostprocessRound, Int.toNat_natCast, if_pos hd]
    exact ⟨R, rfl, hR⟩
  · obtain ⟨M, hround, hM⟩ := mulPostprocessRound_eq hcurve hnq hl hd R
    exact ⟨_, hround, mixIn_zsmul ho hR hM (separated_sum hn hodd hnq hl hd)
      (separated_sub hn hodd hnq hl hd hne)⟩

/-- The digits from position `k` upwards are added to those above `k + j`. -/
theorem foldlM_mulPostprocessRound {k : Nat} (hne : k = 0 → ¬(q % 4 = 1 ∧ n + 2 = q)) {j : Nat}
    (hj : k + j ≤ topDigit n) {R : Proj}
    (hR : ProjRepresents R ((2 ^ (k + j) * highDigits n (k + j)) • A)) :
    ∃ R', (List.range' k j).reverse.foldlM (mulPostprocessRound n curve) R = some R' ∧
      ProjRepresents R' ((2 ^ k * highDigits n k) • A) := by
  induction j generalizing R with
  | zero => exact ⟨R, rfl, hR⟩
  | succ j ih =>
      obtain ⟨R₁, h₁, hR₁⟩ := mulPostprocessRound_represents hq hq3 ho hcurve hn hnq (l := k + j)
        (fun h => hne (by omega)) hj hR
      obtain ⟨R₂, h₂, hR₂⟩ := ih (by omega) hR₁
      refine ⟨R₂, ?_, hR₂⟩
      rw [List.range'_1_concat, List.reverse_append, List.reverse_singleton, List.singleton_append,
        List.foldlM_cons]
      exact Option.bind_eq_some_iff.2 ⟨R₁, h₁, h₂⟩

omit hp2 hq hq3 ho in
theorem exists_postprocessStart : ∃ M : Int × Int, curve.preX[topDigit n]? = some M.1 ∧
    curve.preY[topDigit n]? = some M.2 ∧
    ProjRepresents ⟨M.1, M.2, 1⟩ ((2 ^ topDigit n * highDigits n (topDigit n)) • A) := by
  obtain ⟨M, hx, hy, hM⟩ := hcurve.table (topDigit n) (topDigit_le_size hnq)
  have htop : highDigits n (topDigit n) = 1 := by
    rw [highDigits, show topDigit n + 1 - topDigit n = 1 by omega, digitsValue_one,
      digit_topDigit hn]
  refine ⟨M, hx, hy, ?_⟩
  rw [htop, mul_one]
  obtain ⟨h, he⟩ := hM
  rw [he]
  exact projRepresents_one

/-- Fixed-base multiplication, unless its last addition meets a doubling. -/
theorem pointMulPostprocess_eq (hne : ¬(q % 4 = 1 ∧ n + 2 = q)) :
    pointMulPostprocess n curve = some (ofPoint (n • A)) := by
  obtain ⟨M, hx, hy, hstart⟩ := exists_postprocessStart hcurve hn hnq
  obtain ⟨R, hR, hR'⟩ := foldlM_mulPostprocessRound hq hq3 ho hcurve hn hnq (fun _ => hne)
    (zero_add _).le (by rwa [zero_add])
  rw [pow_zero, one_mul, highDigits_zero, natCast_zsmul] at hR'
  rw [pointMulPostprocess, List.range_eq_range']
  simp only [hx, hy, hR, Option.bind_eq_bind, Option.bind_some, hcurve.p_eq]
  rw [hR'.affine]
  rfl

/-- The last addition of `-P` to `-P` gives coordinates that are no point. -/
theorem pointMulPostprocess_eq_pointInit (h4 : q % 4 = 1) (hn2 : n + 2 = q) :
    pointMulPostprocess n curve = some pointInit := by
  obtain ⟨M, hx, hy, hstart⟩ := exists_postprocessStart hcurve hn hnq
  have hd : digit n 0 = -1 := digit_zero_eq_neg_one_iff.2 (by omega)
  have htop : 0 < topDigit n := by
    refine Nat.pos_of_ne_zero fun h0 => ?_
    have h1 := digit_topDigit hn
    rw [h0, hd] at h1
    exact absurd h1 (by decide)
  obtain ⟨t, ht⟩ : ∃ t, topDigit n = 1 + t := ⟨topDigit n - 1, by omega⟩
  obtain ⟨R, hR, hR'⟩ := foldlM_mulPostprocessRound hq hq3 ho hcurve hn hnq (k := 1) (j := t)
    (fun h => absurd h one_ne_zero) ht.ge (by rwa [← ht])
  obtain ⟨M', hround, hM'⟩ := mulPostprocessRound_eq hcurve hnq htop (by rw [hd]; decide) R
  have hsplit := two_pow_mul_highDigits htop
  rw [highDigits_zero, hd, zero_add] at hsplit
  have hmul : (2 ^ 1 * highDigits n 1) • A = (2 ^ 0 * digit n 0) • A := by
    rw [hd, show (2 : Int) ^ 1 * highDigits n 1 = 2 ^ 0 * -1 + q by omega, add_zsmul, natCast_zsmul,
      smul_eq_zero_of_order ho, add_zero]
  have hz := mixIn_self (hmul ▸ hR') hM'
  rw [pointMulPostprocess, List.range_eq_range']
  simp only [hx, hy, Option.bind_eq_bind, Option.bind_some]
  rw [ht, add_comm, List.range'_succ, List.reverse_cons, List.foldlM_append, zero_add, hR]
  simp [hround, hcurve.p_eq, projAffine_of_z_eq_zero hz]

omit hn hnq hq hq3 ho hp2 in
/-- For `n` zero the entry of the table for the lowest digit is left. -/
theorem pointMulPostprocess_zero : pointMulPostprocess 0 curve = some (ofPoint A) := by
  obtain ⟨M, hx, hy, hM⟩ := hcurve.table 0 (Nat.zero_le _)
  have htop : topDigit 0 = 0 := rfl
  rw [pow_zero, one_zsmul] at hM
  obtain ⟨h, rfl⟩ := hM
  have hR : ProjRepresents ⟨M.1, M.2, 1⟩ (.some (M.1 : ZMod p) (M.2 : ZMod p) h) :=
    projRepresents_one
  rw [pointMulPostprocess, htop]
  simp [hx, hy, hcurve.p_eq, hR.affine]

end Postprocess

section Window

variable {q : Nat} (hq : q.Prime) (hq64 : 64 < q) {A : E p} (ho : addOrderOf A = q)
  {P : Int × Int} (hP : AffRepresents P A)
include hq hq64 ho hP

omit hp2 hq hq64 hP in
theorem zsmul_ne_zero_of_lt {k : Int} (hk : k ≠ 0) (hkq : |k| < q) : k • A ≠ 0 := by
  intro h
  exact hk (Int.eq_zero_of_abs_lt_dvd (ho ▸ addOrderOf_dvd_iff_zsmul_eq_zero.2 h) hkq)

omit hp2 hq in
theorem affRepresents_double : AffRepresents (zzpPointDouble P p) ((2 : Int) • A) := by
  rw [two_zsmul]
  refine hP.double ?_
  rw [← two_zsmul]
  exact zsmul_ne_zero_of_lt ho two_ne_zero (by rw [abs_two]; omega)

omit hp2 hq in
theorem affRepresents_oddMultiple {i : Nat} (hi : i ≤ 15) :
    AffRepresents (oddMultiple P p i) ((2 * i + 1 : Int) • A) := by
  induction i with
  | zero => simpa [oddMultiple] using hP
  | succ i ih =>
      have hsum : ((i + 1 : Nat) : Int) * 2 + 1 = 2 * i + 1 + 2 := by
        push_cast
        ring
      rw [mul_comm, hsum, add_zsmul, oddMultiple]
      refine (ih (by omega)).add (affRepresents_double hq64 ho hP) ?_ ?_
      · rw [← sub_ne_zero, sub_eq_add_neg, ← sub_zsmul]
        exact zsmul_ne_zero_of_lt ho (by omega) (by rw [abs_lt]; omega)
      · rw [← add_zsmul]
        exact zsmul_ne_zero_of_lt ho (by omega) (by rw [abs_lt]; omega)

omit hp2 hq in
/-- The table of `point_mul` holds the odd multiples of its point. -/
theorem exists_signedMultiple {v : Int} (hodd : v % 2 = 1) (hv : |v| ≤ 31) :
    ∃ M, signedMultiple P p v = some M ∧ AffRepresents M (v • A) := by
  obtain ⟨hlo, hhi⟩ := abs_le.1 hv
  have hM := affRepresents_oddMultiple hq64 ho hP (i := v.natAbs / 2) (by omega)
  have hentry : multiple P p v.natAbs = some (oddMultiple P p (v.natAbs / 2)) := by
    rw [multiple, if_neg (by omega), if_pos (by omega)]
  rw [signedMultiple, hentry]
  by_cases hneg : v < 0
  · refine ⟨((oddMultiple P p (v.natAbs / 2)).1, p - (oddMultiple P p (v.natAbs / 2)).2),
      by simp [hneg], ?_⟩
    rw [show 2 * ((v.natAbs / 2 : Nat) : Int) + 1 = -v by omega, neg_zsmul] at hM
    rw [← neg_neg (v • A)]
    exact hM.neg
  · refine ⟨oddMultiple P p (v.natAbs / 2), by simp [hneg], ?_⟩
    rwa [show 2 * ((v.natAbs / 2 : Nat) : Int) + 1 = v by omega] at hM

/-- The last window that `point_mul` opens on `n` starts at the lowest digit,
and the points it adds are equal in a group of order `q`. -/
def meetsDoubling (n q : Nat) : Bool :=
  let d := digit n
  let l := windowStart d windowsize (topDigit n)
  (windows d windowsize l l).any fun w => w.1 = 0 && (n : Int) - 2 * digitsValue d 0 (w.2 + 1) = q

section Mul

variable {n : Nat} (hn : 0 < n) (hnq : n < q)
include hn hnq

/-- The multiple that an accumulator stands for. -/
def Holds (A : E p) (k : Int) (s : Option Proj) : Prop :=
  ∃ R, s = some R ∧ ProjRepresents R (k • A)

theorem mulMixIn_holds {l m : Nat} (hlm : l ≤ m) (hml : m < l + 5) (hm : m < topDigit n)
    (hd : digit n l ≠ 0)
    (hlast : l = 0 → (n : Int) - 2 * digitsValue (digit n) 0 (m + 1) ≠ q) {s : Option Proj}
    (hs : Holds A (2 ^ (m + 1 - l) * highDigits n (m + 1)) s) :
    Holds A (highDigits n l) (mulMixIn P p (digitsValue (digit n) l (m + 1 - l)) s) := by
  obtain ⟨R, rfl, hR⟩ := hs
  obtain ⟨M, hM, hMr⟩ := exists_signedMultiple hq64 ho hP (window_odd hlm hd)
    ((abs_window_le hml).trans (by norm_num))
  have hsplit := highDigits_add n l (m + 1 - l) (by omega)
  rw [show l + (m + 1 - l) = m + 1 by omega, add_comm] at hsplit
  have hsum := separated_highDigits hn hnq (l := l) (by omega)
  have hsub := separated_window hn hnq hq hq64 hlm hml hm hlast
  rw [hsplit] at hsum ⊢
  exact ⟨projMixIn R M.1 M.2 p, by simp [mulMixIn, hM], mixIn_zsmul ho hR hMr hsum hsub⟩

omit hn hnq hP in
theorem holds_double {k : Int} {s : Option Proj} (hs : Holds A k s) :
    Holds A (2 * k) (s.map (projDouble · p)) := by
  obtain ⟨R, rfl, hR⟩ := hs
  refine ⟨_, rfl, ?_⟩
  rw [two_mul, add_zsmul]
  refine hR.double two_ne_zero_of_odd (add_self_ne_zero hq (by omega) ?_ hR.ne_zero)
  rw [smul_comm, smul_eq_zero_of_order ho, zsmul_zero]

omit hp2 hq hnq in
/-- The window that sets up the accumulator. -/
theorem exists_mulStart {l : Nat} (hl : windowStart (digit n) windowsize (topDigit n) = l) :
    l ≤ topDigit n ∧ ∃ M, signedMultiple P p (digitsValue (digit n) l (topDigit n + 1 - l)) = some M ∧
      Holds A (highDigits n l) (some ⟨M.1, M.2, 1⟩) := by
  obtain ⟨hle, hlt, hl0⟩ := first_window hn hl
  obtain ⟨M, hM, hMr⟩ := exists_signedMultiple hq64 ho hP (window_odd hle hl0)
    ((abs_window_le hlt).trans (by norm_num))
  refine ⟨hle, M, hM, ?_⟩
  obtain ⟨h, he⟩ := hMr
  rw [highDigits]
  exact ⟨_, rfl, he ▸ projRepresents_one⟩

/-- Multiplication by a sliding window, unless its last addition meets a
doubling. -/
theorem pointMul_eq (hne : meetsDoubling n q = false) {B : Point} (hB : (B.x.a, B.y.a) = P) :
    pointMul n B p = some (ofPoint (n • A)) := by
  rw [meetsDoubling] at hne
  rw [pointMul, Int.toNat_natCast, hB]
  generalize hl : windowStart (digit n) windowsize (topDigit n) = l at hne ⊢
  obtain ⟨hle, M, hM, hstart⟩ := exists_mulStart hq64 ho hP hn hl
  have hloop : Holds A (digitsValue (digit n) 0 (topDigit n + 1))
      (windowLoop (digit n) windowsize (Option.map (projDouble · p)) (mulMixIn P p) l l
        (some ⟨M.1, M.2, 1⟩)) := by
    refine windowLoop_rep (by decide) _ _ (Holds A) _ ?_ le_rfl (by omega) ?_ hstart
    · intro r i s _ _ hs
      rw [pow_succ', mul_assoc]
      exact holds_double hq hq64 ho hs
    · intro l' m s hw hs
      obtain ⟨hlm, hml, hw5, hd', -⟩ := mem_windows (by decide) hw
      refine mulMixIn_holds hq hq64 ho hP hn hnq hlm hw5 (by omega) hd' ?_ ?_
      · rintro rfl he
        have h := List.any_eq_false.1 hne (0, m) hw
        exact h (by simpa using he)
      · rwa [highDigits]
  obtain ⟨R, hR, hRr⟩ := hloop
  have hval : digitsValue (digit n) 0 (topDigit n + 1) = n := highDigits_zero n
  rw [hval, natCast_zsmul] at hRr
  simp only [hM, hR, Option.bind_eq_bind, Option.bind_some, hRr.affine]
  rfl

/-- The doubling gives coordinates that are no point. -/
theorem pointMul_eq_pointInit (hm : meetsDoubling n q = true) {B : Point}
    (hB : (B.x.a, B.y.a) = P) : pointMul n B p = some pointInit := by
  rw [meetsDoubling] at hm
  rw [pointMul, Int.toNat_natCast, hB]
  generalize hl : windowStart (digit n) windowsize (topDigit n) = l at hm ⊢
  obtain ⟨hle, M, hM, hstart⟩ := exists_mulStart hq64 ho hP hn hl
  obtain ⟨⟨l₀, m⟩, hw, hany⟩ := List.any_eq_true.1 hm
  obtain ⟨rfl, he⟩ : l₀ = 0 ∧ (n : Int) - 2 * digitsValue (digit n) 0 (m + 1) = q := by
    simpa using hany
  obtain ⟨s, hs, hloop⟩ := windowLoop_last (by decide)
    (Option.map (projDouble · p)) (mulMixIn P p) (Holds A) (topDigit n + 1) (by
      intro r i s _ _ hs
      rw [pow_succ', mul_assoc]
      exact holds_double hq hq64 ho hs) (by omega) (by
      intro l' m' s hw' h0 hs
      obtain ⟨hlm, hml, hw5, hd', -⟩ := mem_windows (by decide) hw'
      refine mulMixIn_holds hq hq64 ho hP hn hnq hlm hw5 (by omega) hd' (fun h => absurd h h0) ?_
      rwa [highDigits]) hstart hw
  obtain ⟨hlm, hml, hw5, hd, -⟩ := mem_windows (by decide) hw
  have hsplit := highDigits_add n 0 (m + 1) (by omega)
  rw [highDigits_zero, zero_add] at hsplit
  obtain ⟨R, rfl, hR⟩ := hs
  obtain ⟨M', hM', hMr⟩ := exists_signedMultiple hq64 ho hP (window_odd hlm hd)
    ((abs_window_le hw5).trans (by norm_num))
  rw [Nat.sub_zero] at hM' hMr
  have hmul : (2 ^ (m + 1) * highDigits n (m + 1)) • A =
      digitsValue (digit n) 0 (m + 1) • A := by
    rw [show 2 ^ (m + 1) * highDigits n (m + 1) = digitsValue (digit n) 0 (m + 1) + q by omega,
      add_zsmul, natCast_zsmul, smul_eq_zero_of_order ho, add_zero]
  have hz := mixIn_self (hmul ▸ hR) hMr
  simp only [hM, hloop, mulMixIn, hM', Option.bind_eq_bind, Option.bind_some, Option.pure_def,
    projAffine_of_z_eq_zero hz]

end Mul

end Window

end IdBasedEncryption.Multiples
