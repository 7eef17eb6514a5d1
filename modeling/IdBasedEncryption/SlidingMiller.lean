import IdBasedEncryption.MillerSteps
import IdBasedEncryption.NonzeroLines

namespace IdBasedEncryption.SlidingMiller

open WeierstrassCurve.Affine CurveDivisors MillerFunctions MillerRatios MordellCurve
open Gmp SlidingWindow Fp2Arith Fp2Value FieldExtension MordellGroup CurvePoints
open PointValues PointAddition GeneralMultiples GeneralMiller EvaluatedLines NonzeroLines MillerSteps

variable {p : Nat} [hp : Fact p.Prime] [hp12 : Fact (p % 12 = 11)] {Qhat R2 : Point}
  {C : Nat → K p → K p → Prop} {A : E2 p}

section Table

variable {j : Nat} {e e' r : Fp2 × Point}

omit hp12 in
theorem reducedValues_entryLines (l : Lines) (bP : Point) :
    ReducedValues p (entryLines Qhat R2 l bP p) :=
  (reducedValues_accumulatorInit.mul l).mul _

/-- The vertical through the point of an entry does not vanish. -/
def Kept (Qhat R2 : Point) (e : Fp2 × Point) : Prop :=
  lineValue p (getVertical R2 Qhat e.2 p).1 ≠ 0 ∧ lineValue p (getVertical R2 Qhat e.2 p).2 ≠ 0

variable {q : Nat} (hC : StepRule C A Qhat R2) (hA : addOrderOf A = q)
include hC hA

theorem entry_nextEntry (hjq : j + 2 < q) (he : Entry C A j e) (he' : Entry C A 2 e')
    (h : nextEntry Qhat R2 e e' p = some r) :
    Entry C A (j + 2) r ∧ Kept (p := p) Qhat R2 r := by
  obtain ⟨hv, hd, rfl⟩ := of_unlessBad (reducedValues_entryLines _ _) h
  have hne : j • A + 2 • A ≠ 0 := by
    rw [← add_nsmul]
    exact nsmul_ne_zero hA (Nat.succ_pos _) hjq
  have hZ : Canonical (pointAdd e.2 e'.2 p) ((j + 2) • A) := by
    rw [add_nsmul]
    exact (canonical_pointAdd_iff he.point he'.point).2 (not_missedInverse hne)
  refine ⟨hC.entry hZ (hC.line _ _ _ _ _ _ _ _ he.point he'.point hne he.value he'.value) ?_,
    vertical_ne_zero hv hd⟩
  rw [val_fp2Div, val_fp2Mul, val_fp2Mul]
  rfl

variable (hq : q.Prime) (hq2 : 2 < q)

include hq hq2 in
theorem entry_secondEntry (he : Entry C A 1 e) (h : secondEntry Qhat R2 e p = some r) :
    Entry C A 2 r := by
  obtain ⟨-, -, rfl⟩ := of_unlessBad (reducedValues_entryLines _ _) h
  have hZ : Canonical (pointAdd e.2 e.2 p) ((1 + 1) • A) := by
    rw [add_nsmul]
    exact (canonical_pointAdd_iff he.point he.point).2 (not_missedInverse_self hq hq2 hA 1)
  refine hC.entry hZ (hC.tangent _ _ _ _ _ _ he.point he.value he.value) ?_
  rw [val_fp2Div, val_fp2Mul, val_fp2Sqr, sq]
  rfl

theorem entry_oddEntry (he : Entry C A 1 e) (he' : Entry C A 2 e') {i : Nat}
    (hiq : 2 * i + 1 < q) (h : oddEntry Qhat R2 e e' p i = some r) :
    Entry C A (2 * i + 1) r ∧ (i ≠ 0 → Kept (p := p) Qhat R2 r) := by
  induction i generalizing r with
  | zero =>
      obtain rfl : e = r := Option.some.inj h
      exact ⟨he, fun h0 => absurd rfl h0⟩
  | succ i ih =>
      rw [oddEntry] at h
      obtain ⟨e'', hi, hnext⟩ := Option.bind_eq_some_iff.1 h
      obtain ⟨hentry, -⟩ := ih (by omega) hi
      have hadd := entry_nextEntry hC hA (by omega) hentry he' hnext
      exact ⟨hadd.1, fun _ => hadd.2⟩

end Table

section General

variable {P Phat R1 : Point} {n q : Nat} {s : Accumulator} {table : Nat → Option (Fp2 × Point)}

/-- The value `f_1` that both functions start from. -/
def firstValue (P Phat Qhat R1 R2 : Point) (p : Int) : Fp2 :=
  let s := firstLines P Phat Qhat R1 R2 p
  fp2Div s.v s.vdenom p

/-- The tables hold all odd multiples that a window can ask for. -/
def Holding (C : Nat → K p → K p → Prop) (A : E2 p) (Qhat R2 : Point)
    (table : Nat → Option (Fp2 × Point)) : Prop :=
  ∀ i ≤ windowsizepower, ∃ e, table i = some e ∧ Entry C A (2 * i + 1) e ∧
    (i ≠ 0 → Kept (p := p) Qhat R2 e)

omit hp12 in
theorem reducedValues_firstLines : ReducedValues p (firstLines P Phat Qhat R1 R2 p) :=
  (reducedValues_accumulatorInit.mul _).mul _

theorem firstValue_ne_zero {curve : Curve} (hcp : curve.p = p) {r : Fp2}
    (h : generalMiller P Phat Qhat R1 R2 curve = some r) :
    val p (firstValue P Phat Qhat R1 R2 p) ≠ 0 := by
  simp only [generalMiller, millerTable, hcp, Option.bind_eq_bind, Option.bind_eq_some_iff] at h
  obtain ⟨table, ⟨e, he, -⟩, -⟩ := h
  obtain ⟨hv, hd, -⟩ := of_unlessBad reducedValues_firstLines he
  rw [firstValue, val_fp2Div]
  exact div_ne_zero hv hd

theorem holding_millerTable (hC : StepRule C A Qhat R2)
    (hC1 : C 1 (val p (firstValue P Phat Qhat R1 R2 p)) 1) (hq : q.Prime) (hq64 : 64 < q)
    (hA : addOrderOf A = q) (hP : Canonical P A) (h : millerTable P Phat Qhat R1 R2 p = some table) :
    Holding C A Qhat R2 table := by
  simp only [millerTable, Option.bind_eq_bind, Option.bind_eq_some_iff] at h
  obtain ⟨e, he, e2, he2, htable⟩ := h
  obtain ⟨-, -, rfl⟩ := of_unlessBad reducedValues_firstLines he
  intro i hi
  have hfirst : Entry C A 1 (firstValue P Phat Qhat R1 R2 p, P) := ⟨by rwa [one_nsmul], hC1⟩
  have hq2 : 2 < q := by omega
  have hsecond := entry_secondEntry hC hA hq hq2 hfirst he2
  split at htable
  · rename_i hall
    obtain rfl := Option.some.inj htable
    have hsome := List.all_eq_true.1 hall i (List.mem_range.2 (Nat.lt_succ_of_le hi))
    obtain ⟨e', he'⟩ := Option.isSome_iff_exists.1 hsome
    have hi15 : i ≤ 15 := hi
    exact ⟨e', he', entry_oddEntry hC hA hfirst hsecond (by omega) he'⟩
  · cases htable

/-- What the last window of `q` adds. -/
def lastWindow (q : Nat) : Nat :=
  (windows (bit q) windowsize (mpzSizeinbase2 q) (mpzSizeinbase2 q)).getLast?.elim 0 fun w =>
    (digitsValue (bit q) w.1 (w.2 + 1 - w.1)).toNat

/-- The state stands for the multiple `k`. -/
def HoldsInt (C : Nat → K p → K p → Prop) (A : E2 p) (k : Int) (s : Accumulator) : Prop :=
  ∃ n : Nat, k = n ∧ Holds C A n s

theorem HoldsInt.double (hC : StepRule C A Qhat R2) (hq : q.Prime) (hq2 : 2 < q)
    (hA : addOrderOf A = q) {k : Int} (hs : HoldsInt C A k s) :
    HoldsInt C A (2 * k) (doubleStep Qhat R2 (getTangent Qhat R2 s.Z p) p s) := by
  obtain ⟨n, rfl, hn⟩ := hs
  exact ⟨2 * n, by push_cast; rfl, hC.doubleStep hn (not_missedInverse_self hq hq2 hA n)⟩

omit hp hp12 in
/-- A window is one of the odd multiples up to 31. -/
theorem window_table {l m fuel r : Nat} (h : (l, m) ∈ windows (bit q) windowsize fuel r) :
    ∃ i ≤ windowsizepower, digitsValue (bit q) l (m + 1 - l) = (2 * i + 1 : Nat) := by
  obtain ⟨hlm, -, hspan, hd, -⟩ := mem_windows (by decide) h
  obtain ⟨j, hj, hodd⟩ := exists_window_bit hlm hd
  have hlt : j < 2 ^ (m + 1 - l) := by
    rw [digitsValue_bit, Nat.cast_inj] at hj
    rw [← hj]
    exact Nat.mod_lt _ (Nat.two_pow_pos _)
  have hpow : 2 ^ (m + 1 - l) ≤ 2 ^ 5 := by
    apply Nat.pow_le_pow_right two_pos
    simp only [windowsize] at hspan
    omega
  refine ⟨(j - 1) / 2, ?_, by rw [hodd, hj]⟩
  rw [windowsizepower]
  omega

omit hp hp12 in
theorem digitsValue_bit_size (l : Nat) (hl : l ≤ mpzSizeinbase2 q) :
    digitsValue (bit q) l (mpzSizeinbase2 q - l) = (q >>> l : Nat) := by
  have hlt := lt_two_pow_mpzSizeinbase2 q
  rw [digitsValue_bit, Nat.mod_eq_of_lt]
  rw [Nat.shiftRight_eq_div_pow, Nat.div_lt_iff_lt_mul (Nat.two_pow_pos l), ← pow_add,
    Nat.sub_add_cancel hl]
  exact hlt

theorem HoldsInt.mix (hC : StepRule C A Qhat R2) (hA : addOrderOf A = q)
    (ht : Holding C A Qhat R2 table) {l m : Nat}
    (hl : (l, m) ∈ windows (bit q) windowsize (mpzSizeinbase2 q) (mpzSizeinbase2 q)) (h0 : l ≠ 0)
    (hs : HoldsInt C A (2 ^ (m + 1 - l) *
      digitsValue (bit q) (m + 1) (mpzSizeinbase2 q - (m + 1))) s) :
    HoldsInt C A (digitsValue (bit q) l (mpzSizeinbase2 q - l))
      (((table (((digitsValue (bit q) l (m + 1 - l)).toNat - 1) / 2)).map
        fun e => addStep Qhat R2 e.1 e.2 p s).getD s) := by
  obtain ⟨hlm, hm, -⟩ := mem_windows (by decide) hl
  obtain ⟨i, hi, hwin⟩ := window_table hl
  obtain ⟨e, he, hentry, -⟩ := ht i hi
  obtain ⟨n, hn, hholds⟩ := hs
  have hsplit := digitsValue_split (d := bit q) hlm hm
  rw [hn, hwin, digitsValue_bit_size l (by omega)] at hsplit
  have hsum : n + (2 * i + 1) = q >>> l := by omega
  have hq0 : 0 < q := by
    apply Nat.pos_of_ne_zero
    rintro rfl
    rw [Nat.zero_shiftRight] at hsum
    omega
  have hlt : q >>> l < q := by
    rw [Nat.shiftRight_eq_div_pow]
    exact Nat.div_lt_self hq0 (Nat.one_lt_two_pow h0)
  have hne : n • A + (2 * i + 1) • A ≠ 0 := by
    rw [← add_nsmul, hsum]
    exact nsmul_ne_zero hA (by omega) hlt
  rw [hwin, Int.toNat_natCast, show (2 * i + 1 - 1) / 2 = i by omega, he, Option.map_some,
    Option.getD_some, digitsValue_bit_size l (by omega), ← hsum]
  exact ⟨_, rfl, hC.addStep hholds hentry hne⟩

theorem exists_holds_generalLoop (hC : StepRule C A Qhat R2) (hq : q.Prime) (hq64 : 64 < q)
    (hA : addOrderOf A = q) (ht : Holding C A Qhat R2 table) :
    ∃ n i e s, i ≤ windowsizepower ∧ table i = some e ∧ n + (2 * i + 1) = q ∧
      lastWindow q = 2 * i + 1 ∧ Holds C A n s ∧
      generalLoop Qhat R2 table q p = addStep Qhat R2 e.1 e.2 p s := by
  have hq2 : 2 < q := by omega
  have hbit : bit q 0 ≠ 0 := by
    have hodd := hq.eq_two_or_odd
    rw [bit_natCast, Nat.toNat_testBit]
    omega
  have hsize : 0 < mpzSizeinbase2 q := Nat.succ_pos _
  obtain ⟨m, hlast⟩ := exists_getLast?_windows (w := windowsize) (by decide) hbit hsize le_rfl
  have hmem := List.mem_of_getLast? hlast
  obtain ⟨-, hm, -⟩ := mem_windows (by decide) hmem
  obtain ⟨i, hi, hwin⟩ := window_table hmem
  obtain ⟨e, he, hentry, -⟩ := ht i hi
  have hinit : HoldsInt C A
      (digitsValue (bit q) (mpzSizeinbase2 q) (mpzSizeinbase2 q - mpzSizeinbase2 q))
      accumulatorInit := by
    rw [Nat.sub_self]
    exact ⟨0, rfl, hC.holds_accumulatorInit⟩
  have hloop : ∃ s, HoldsInt C A
      (2 ^ (m + 1) * digitsValue (bit q) (m + 1) (mpzSizeinbase2 q - (m + 1))) s ∧
      generalLoop Qhat R2 table q p = ((table (((digitsValue (bit q) 0 (m + 1)).toNat - 1) / 2)).map
        fun e => addStep Qhat R2 e.1 e.2 p s).getD s := by
    refine windowLoop_last (by decide) _ _ (HoldsInt C A) _ ?_ le_rfl ?_ hinit hmem
    · intro r i s _ _ hs
      rw [pow_succ', mul_assoc]
      exact hs.double hC hq hq2 hA
    · intro l m s hl h0 hs
      exact hs.mix hC hA ht hl h0
  obtain ⟨s, ⟨n, hn, hholds⟩, hloop⟩ := hloop
  have hsplit := digitsValue_split (d := bit q) (Nat.zero_le m) hm
  rw [digitsValue_bit_size 0 (Nat.zero_le _), Nat.sub_zero] at hsplit
  rw [Nat.sub_zero] at hwin
  rw [hn, hwin, Nat.shiftRight_zero] at hsplit
  refine ⟨n, i, e, s, hi, he, by omega, ?_, hholds, ?_⟩
  · rw [lastWindow, hlast, Option.elim_some, Nat.sub_zero, hwin, Int.toNat_natCast]
  · rw [hloop, hwin, Int.toNat_natCast, show (2 * i + 1 - 1) / 2 = i by omega, he,
      Option.map_some, Option.getD_some]

/-- How `general_miller` ends, as long as it does not reject its points. -/
theorem exists_last_generalMiller (hC : StepRule C A Qhat R2)
    (hC1 : C 1 (val p (firstValue P Phat Qhat R1 R2 p)) 1) (hq : q.Prime) (hq64 : 64 < q)
    (hA : addOrderOf A = q) {curve : Curve} (hcp : curve.p = p) (hcq : curve.q = q)
    (hP : Canonical P A) {r : Fp2} (h : generalMiller P Phat Qhat R1 R2 curve = some r) :
    ∃ n j e s, n + j = q ∧ lastWindow q = j ∧ Holds C A n s ∧ Entry C A j e ∧
      (j ≠ 1 → Kept (p := p) Qhat R2 e) ∧ val p (addStep Qhat R2 e.1 e.2 p s).v ≠ 0 ∧
      val p (addStep Qhat R2 e.1 e.2 p s).vdenom ≠ 0 ∧ Reduced p r ∧
      val p r = val p (addStep Qhat R2 e.1 e.2 p s).v / val p (addStep Qhat R2 e.1 e.2 p s).vdenom := by
  simp only [generalMiller, hcp, hcq, Option.bind_eq_bind, Option.bind_eq_some_iff] at h
  obtain ⟨table, htable, h⟩ := h
  have ht := holding_millerTable hC hC1 hq hq64 hA hP htable
  obtain ⟨n, i, e, s, hi, he, hn, hlast, hs, hloop⟩ := exists_holds_generalLoop hC hq hq64 hA ht
  obtain ⟨e', he', hentry, hvertical⟩ := ht i hi
  obtain rfl : e = e' := Option.some.inj (he.symm.trans he')
  obtain ⟨hv, hd, rfl⟩ := of_unlessBad (reducedValues_generalLoop table q) h
  rw [hloop] at hv hd ⊢
  exact ⟨n, 2 * i + 1, e, s, hn, hlast, hs, hentry, fun h1 => hvertical (by omega), hv, hd,
    reduced_fp2Div pos _ _, val_fp2Div ..⟩

end General

section Simple

variable {P : Point} {n q m : Nat} {s : Accumulator} {g : Fp2}

/-- Bit `m` comes after the bits above it have been doubled. -/
theorem shiftRight_bit (q m : Nat) : q >>> m = 2 * (q >>> (m + 1)) + (q.testBit m).toNat := by
  rw [Nat.toNat_testBit, Nat.shiftRight_succ, ← Nat.shiftRight_eq_div_pow]
  omega

variable (hC : StepRule C A Qhat R2) (hq : q.Prime) (hq2 : 2 < q) (hA : addOrderOf A = q)
include hC hq hq2 hA

/-- The loop ends by adding the point once more. -/
theorem exists_last_simpleLoop (hg : Entry C A 1 (g, P)) (hs : Holds C A (2 * (q >>> (m + 1))) s) :
    ∃ n s', n + 1 = q ∧ Holds C A n s' ∧
      simpleLoop P Qhat R2 g q p m s = addStep Qhat R2 g P p s' := by
  induction m generalizing s with
  | zero =>
      have hbit : q.testBit 0 = true := by
        have hodd := hq.eq_two_or_odd
        rw [Nat.testBit_zero, decide_eq_true_eq]
        omega
      have hn := shiftRight_bit q 0
      rw [hbit, Nat.shiftRight_zero, Bool.toNat_true] at hn
      refine ⟨_, s, hn.symm, hs, ?_⟩
      rw [simpleLoop, mpzTstbit_natCast, hbit, if_pos rfl]
  | succ m ih =>
      have hstep : Holds C A (q >>> (m + 1))
          (if mpzTstbit q (m + 1) then addStep Qhat R2 g P p s else s) := by
        have hn := shiftRight_bit q (m + 1)
        rw [mpzTstbit_natCast]
        split
        · rename_i hbit
          rw [hbit, Bool.toNat_true] at hn
          have hne : (2 * (q >>> (m + 1 + 1))) • A + 1 • A ≠ 0 := by
            rw [← add_nsmul, ← hn]
            refine nsmul_ne_zero hA (by omega) ?_
            rw [Nat.shiftRight_eq_div_pow]
            exact Nat.div_lt_self hq.pos (Nat.one_lt_two_pow (Nat.succ_ne_zero m))
          have hadd := hC.addStep hs hg hne
          rw [hn]
          exact hadd
        · rename_i hbit
          rw [Bool.not_eq_true] at hbit
          rw [hbit, Bool.toNat_false, add_zero] at hn
          rwa [hn]
      have hself := not_missedInverse_self hq hq2 hA (q >>> (m + 1))
      rw [simpleLoop, getLine_self]
      exact ih (hC.doubleStep hstep hself)

end Simple

section Sparse

variable {P Phat R1 : Point} {q m : Nat} {s : Accumulator} {f : Fp2}

/-- No two set bits fall into one window. -/
def Sparse (q : Nat) : Prop :=
  ∀ i j, i < j → q.testBit i = true → q.testBit j = true → i + windowsize ≤ j

omit hp hp12 in
theorem windowStart_of_sparse (hq : Sparse q) (hm : bit q m ≠ 0) :
    windowStart (bit q) windowsize m = m := by
  have hset {i : Nat} (h : bit q i ≠ 0) : q.testBit i = true := by
    rw [bit_natCast] at h
    simpa using h
  have hw : 0 < windowsize := by decide
  have hle := windowStart_le (d := bit q) hw m
  have hlt := lt_windowStart_add (d := bit q) (w := windowsize) m
  refine le_antisymm hle (not_lt.1 fun h => ?_)
  have := hq _ _ h (hset (windowStart_ne_zero hw hm)) (hset hm)
  omega

omit hp hp12 in
/-- Then every window is one bit. -/
theorem windowLoop_round (hq : Sparse q) {double : Accumulator → Accumulator}
    {mix : Int → Accumulator → Accumulator} (fuel m : Nat) (s : Accumulator) :
    windowLoop (bit q) windowsize double mix (fuel + 1) (m + 1) s =
      windowLoop (bit q) windowsize double mix fuel m
        (if q.testBit m then mix 1 (double s) else double s) := by
  have hbit := bit_natCast q m
  rw [windowLoop]
  split
  · rename_i hd
    rw [hd] at hbit
    rw [if_neg]
    intro h
    rw [h] at hbit
    exact absurd hbit (by decide)
  · rename_i hd
    have htest : q.testBit m = true := by
      rw [hbit] at hd
      simpa using hd
    rw [htest] at hbit
    simp only [windowStart_of_sparse hq hd, Nat.add_sub_cancel_left, digitsValue_one, hbit, htest]
    rfl

omit hp in
/-- And the two loops make the same steps. -/
theorem windowLoop_of_sparse (hq : Sparse q) (mix : Int → Accumulator → Accumulator)
    (hmix : ∀ s, mix 1 s = addStep Qhat R2 f P p s) {fuel : Nat} (hfuel : m < fuel) :
    windowLoop (bit q) windowsize (fun s => doubleStep Qhat R2 (getTangent Qhat R2 s.Z p) p s) mix
        fuel (m + 1) s =
      simpleLoop P Qhat R2 f q p m (doubleStep Qhat R2 (getTangent Qhat R2 s.Z p) p s) := by
  obtain ⟨fuel, rfl⟩ := Nat.exists_eq_succ_of_ne_zero (Nat.ne_zero_of_lt hfuel)
  rw [Nat.succ_eq_add_one, windowLoop_round hq, hmix]
  induction m generalizing fuel s with
  | zero =>
      rw [simpleLoop, mpzTstbit_natCast]
      cases fuel <;> rfl
  | succ m ih =>
      obtain ⟨fuel, rfl⟩ := Nat.exists_eq_succ_of_ne_zero (Nat.ne_zero_of_lt (Nat.lt_of_succ_lt_succ hfuel))
      rw [Nat.succ_eq_add_one, windowLoop_round hq, hmix, ih fuel (by omega), simpleLoop,
        mpzTstbit_natCast, getLine_self]

theorem doubleStep_accumulatorInit (Qhat R2 : Point) :
    doubleStep Qhat R2 (getTangent Qhat R2 pointSetO p) p accumulatorInit = accumulatorInit := by
  have h1 : fp2Sqr fp2Set1 p = fp2Set1 := by
    have h1 : (1 : Int) < p := by exact_mod_cast hp.out.one_lt
    refine eq_of_val_eq (reduced_fp2Sqr pos _) ⟨zero_le_one, h1, le_rfl, pos⟩ ?_
    rw [val_fp2Sqr, val_fp2Set1, one_pow]
  have hvertical : getVertical R2 Qhat pointSetO p = (none, none) := by
    rw [getVertical]
    split <;> rfl
  have hadd : pointAdd pointSetO pointSetO p = pointSetO := rfl
  simp only [doubleStep, accumulatorInit, h1, hadd, hvertical]
  rfl

/-- So the two functions compute the same, whatever the points are. -/
theorem simpleMiller_of_sparse (hq : Sparse q) {curve : Curve} (hcp : curve.p = p) (hcq : curve.q = q)
    {r : Fp2} (h : generalMiller P Phat Qhat R1 R2 curve = some r) :
    (simpleMiller P Phat Qhat R1 R2 curve).1 = r := by
  simp only [generalMiller, hcp, hcq, Option.bind_eq_bind, Option.bind_eq_some_iff] at h
  obtain ⟨table, htable, h⟩ := h
  have h0 : table 0 = some (firstValue P Phat Qhat R1 R2 p, P) := by
    simp only [millerTable, Option.bind_eq_bind, Option.bind_eq_some_iff] at htable
    obtain ⟨e, he, e2, -, htable⟩ := htable
    obtain ⟨-, -, rfl⟩ := of_unlessBad reducedValues_firstLines he
    split at htable
    · rw [← Option.some.inj htable]
      rfl
    · cases htable
  obtain ⟨-, -, rfl⟩ := of_unlessBad (reducedValues_generalLoop table q) h
  have hloop : generalLoop Qhat R2 table q p = simpleLoop P Qhat R2
      (firstValue P Phat Qhat R1 R2 p) q p (mpzSizeinbase2 q - 1) accumulatorInit := by
    refine (windowLoop_of_sparse (m := mpzSizeinbase2 q - 1) hq _ (fun s => ?_)
      (Nat.lt_succ_self _)).trans (congrArg _ (doubleStep_accumulatorInit Qhat R2))
    have hindex : (Int.toNat 1 - 1) / 2 = 0 := rfl
    rw [hindex, h0]
    rfl
  rw [simpleMiller, hcp, hcq, hloop]
  rfl

end Sparse

end IdBasedEncryption.SlidingMiller
