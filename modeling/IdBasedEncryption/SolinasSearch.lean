import IdBasedEncryption.SolinasForm
import IdBasedEncryption.TatePairing

namespace IdBasedEncryption.SolinasSearch

open Gmp SlidingWindow NonAdjacentForm CurvePoints SolinasForm TatePairing

section Unique

/-- Signed digits without nonzero neighbours, `F l` being the value of those from
position `l` upwards. -/
structure NonAdjacent (f F : Nat → Int) : Prop where
  cases (l : Nat) : f l = -1 ∨ f l = 0 ∨ f l = 1
  next {l : Nat} : f l ≠ 0 → f (l + 1) = 0
  value (l : Nat) : F l = f l + 2 * F (l + 1)

theorem NonAdjacent.unique {f F g G : Nat → Int} (hf : NonAdjacent f F) (hg : NonAdjacent g G)
    (h0 : F 0 = G 0) (l : Nat) : F l = G l ∧ f l = g l := by
  have hdigit (l : Nat) (h : F l = G l) : f l = g l := by
    have hf1 := hf.value l
    have hf2 := hf.value (l + 1)
    have hg1 := hg.value l
    have hg2 := hg.value (l + 1)
    have hfn := hf.next (l := l)
    have hgn := hg.next (l := l)
    rcases hf.cases l with h1 | h1 | h1 <;> rcases hg.cases l with h2 | h2 | h2 <;>
      simp only [h1, h2] at hf1 hg1 hfn hgn ⊢ <;> omega
  have hF : F l = G l := by
    induction l with
    | zero => exact h0
    | succ l ih =>
        have hf1 := hf.value l
        have hg1 := hg.value l
        have hd := hdigit l ih
        omega
  exact ⟨hF, hdigit l hF⟩

theorem nonAdjacent_digit (n : Nat) :
    NonAdjacent (digit n) fun l => (n >>> l : Nat) + carry n l where
  cases := digit_cases
  next := digit_succ_eq_zero
  value l := by
    have hs : ((n >>> l : Nat) : Int) = (n.testBit l).toNat + 2 * (n >>> (l + 1) : Nat) := by
      exact_mod_cast shiftRight_eq l
    simp only [hs, digit]
    ring

/-- The digit `c` at position `k`, and its value seen from position `l`. -/
def term (c : Int) (k l : Nat) : Int := if l = k then c else 0

def termValue (c : Int) (k l : Nat) : Int := if l ≤ k then c * 2 ^ (k - l) else 0

theorem termValue_eq (c : Int) (k l : Nat) :
    termValue c k l = term c k l + 2 * termValue c k (l + 1) := by
  rcases lt_trichotomy l k with h | h | h
  · have hpow : k - l = k - (l + 1) + 1 := by omega
    have hsucc : l + 1 ≤ k := h
    rw [termValue, if_pos h.le, term, if_neg h.ne, termValue, if_pos hsucc, hpow, pow_succ]
    ring
  · subst h
    simp [termValue, term]
  · simp [termValue, term, h.not_ge, h.ne', show ¬l + 1 ≤ k by omega]

variable {q a b : Nat} {s t : Int}

/-- Only the positions of the three terms have nonzero digits. -/
theorem IsSolinas.digit_eq (h : IsSolinas q a b s t) (ha : 2 ≤ a) (l : Nat) :
    digit q l = term t 0 l + term s b l + term 1 a l := by
  have hform : NonAdjacent (fun l => term t 0 l + term s b l + term 1 a l)
      fun l => termValue t 0 l + termValue s b l + termValue 1 a l := by
    have hlast := h.last
    have hmiddle := h.middle
    constructor
    · intro l
      simp only [term]
      split_ifs <;> omega
    · intro l hl
      by_contra hnext
      simp only [term] at hl hnext
      split_ifs at hl hnext <;> omega
    · intro l
      rw [termValue_eq t, termValue_eq s, termValue_eq 1]
      ring
  have h0 : ((q >>> 0 : Nat) : Int) + carry q 0 =
      termValue t 0 0 + termValue s b 0 + termValue 1 a 0 := by
    have heq := h.eq
    simp only [termValue, Nat.shiftRight_zero, carry]
    simp
    linarith
  exact ((nonAdjacent_digit q).unique hform h0 l).2

end Unique

section Normalize

/-- `q` is a sum of two or three signed powers of two, the highest positive and
the lowest one. -/
def HasSolinasForm (q : Nat) : Prop :=
  (∃ a b : Nat, ∃ s e : Int, 0 < b ∧ b < a ∧ (s = 1 ∨ s = -1) ∧ (e = 1 ∨ e = -1) ∧
    (q : Int) = 2 ^ a + s * 2 ^ b + e) ∨
  ∃ a : Nat, ∃ e : Int, (e = 1 ∨ e = -1) ∧ (q : Int) = 2 ^ a + e

variable {q a b : Nat} {s e : Int}

theorem isSolinas_two (ha : 2 ≤ a) (he : e = 1 ∨ e = -1) (hq : (q : Int) = 2 ^ a + e) :
    ∃ a b s t, 2 ≤ a ∧ IsSolinas q a b s t :=
  ⟨a, 0, 0, e, ha, by rw [hq]; ring, he, Or.inl ⟨rfl, rfl⟩⟩

/-- Neighbouring terms are merged. -/
theorem isSolinas_three (hb : 2 ≤ b) (hba : b < a) (hs : s = 1 ∨ s = -1) (he : e = 1 ∨ e = -1)
    (hq : (q : Int) = 2 ^ a + s * 2 ^ b + e) : ∃ a b s t, 2 ≤ a ∧ IsSolinas q a b s t := by
  by_cases hfar : b + 2 ≤ a
  · exact ⟨a, b, s, e, by omega, hq, he, Or.inr ⟨hb, hfar, hs⟩⟩
  · obtain rfl : a = b + 1 := by omega
    rcases hs with rfl | rfl
    · refine ⟨b + 2, b, -1, e, by omega, ?_, he, Or.inr ⟨hb, le_rfl, Or.inr rfl⟩⟩
      rw [hq]
      ring
    · refine isSolinas_two hb he ?_
      rw [hq]
      ring

theorem HasSolinasForm.isSolinas (h3 : 3 ≤ q) (h : HasSolinasForm q) :
    ∃ a b s t, 2 ≤ a ∧ IsSolinas q a b s t := by
  rcases h with ⟨a, b, s, e, hb, hba, hs, he, hq⟩ | ⟨a, e, he, hq⟩
  · by_cases hb2 : 2 ≤ b
    · exact isSolinas_three hb2 hba hs he hq
    · -- the two lowest terms are worth 3, 1, -1 or -3
      obtain rfl : b = 1 := by omega
      have hthree (ha : a ≠ 2) : 2 < a := by omega
      rcases hs with rfl | rfl <;> rcases he with rfl | rfl
      · by_cases ha : a = 2
        · subst ha
          refine isSolinas_two (a := 3) (e := -1) (by norm_num) (Or.inr rfl) ?_
          rw [hq]
          norm_num
        · refine isSolinas_three (b := 2) (s := 1) (e := -1) le_rfl (hthree ha) (Or.inl rfl)
            (Or.inr rfl) ?_
          rw [hq]
          ring
      · refine isSolinas_two (e := 1) hba (Or.inl rfl) ?_
        rw [hq]
        ring
      · refine isSolinas_two (e := -1) hba (Or.inr rfl) ?_
        rw [hq]
        ring
      · by_cases ha : a = 2
        · subst ha
          omega
        · refine isSolinas_three (b := 2) (s := -1) (e := 1) le_rfl (hthree ha) (Or.inr rfl)
            (Or.inl rfl) ?_
          rw [hq]
          ring
  · by_cases ha : 2 ≤ a
    · exact isSolinas_two ha he hq
    · have hpow : (2 : Int) ^ a ≤ 2 := by
        have ha1 : a ≤ 1 := by omega
        interval_cases a <;> norm_num
      have hq3 : (q : Int) = 3 := by omega
      refine isSolinas_two (a := 2) (e := -1) le_rfl (Or.inr rfl) ?_
      rw [hq3]
      norm_num

theorem IsSolinas.hasSolinasForm {t : Int} (h : IsSolinas q a b s t) : HasSolinasForm q := by
  rcases h.middle with ⟨rfl, rfl⟩ | ⟨hb, hba, hs⟩
  · refine Or.inr ⟨a, t, h.last, ?_⟩
    rw [h.eq]
    ring
  · exact Or.inl ⟨a, b, s, t, by omega, by omega, hs, h.last, h.eq⟩

end Normalize

section Count

/-- The number of nonzero digits below position `k`. -/
def weight (n k : Nat) : Nat := ((List.range k).filter fun i => digit n i ≠ 0).length

/-- The search counts the nonzero digits, and only a fourth one stops it. -/
def Counted (n k : Nat) (s : Solinas) : Prop :=
  (s.stopped = false ∧ s.count = weight n k ∧ s.count ≤ 3) ∨ (s.stopped = true ∧ 4 ≤ weight n k)

theorem weight_succ (n k : Nat) :
    weight n (k + 1) = weight n k + if digit n k = 0 then 0 else 1 := by
  rw [weight, List.range_succ, List.filter_append, List.length_append, ← weight]
  split <;> simp [*]

theorem Counted.round {n k : Nat} {s : Solinas} (h : Counted n k s) :
    Counted n (k + 1) (solinasRound n s k) := by
  have hw := weight_succ n k
  by_cases hd : digit n k = 0
  · rw [if_pos hd, Nat.add_zero] at hw
    have hround : solinasRound n s k = s := if_pos (.inr hd)
    rw [Counted, hw, hround]
    exact h
  · rw [if_neg hd] at hw
    rcases h with ⟨hs, hc, hle⟩ | ⟨hs, hle⟩
    · by_cases hfull : s.count ≥ 3
      · right
        have hround : solinasRound n s k = ⟨0, 0, s.count, true⟩ := by
          simp [solinasRound, hs, hd, hfull]
        rw [hround]
        exact ⟨rfl, by omega⟩
      · left
        simp only [solinasRound, Int.toNat_natCast, hs, hd, Bool.false_eq_true, or_self, if_false,
          if_neg hfull]
        split_ifs <;> simp only [true_and] <;> omega
    · right
      have hround : solinasRound n s k = s := if_pos (.inl hs)
      rw [hround]
      exact ⟨hs, by omega⟩

theorem counted_foldl (n k : Nat) :
    Counted n k ((List.range k).foldl (solinasRound n) ⟨0, 0, 0, false⟩) := by
  induction k with
  | zero => exact Or.inl ⟨rfl, rfl, by norm_num⟩
  | succ k ih =>
      rw [List.range_succ, List.foldl_append]
      exact ih.round

/-- A decomposition leaves at most three nonzero digits. -/
theorem IsSolinas.weight_le {q a b : Nat} {s t : Int} (h : IsSolinas q a b s t) (ha : 2 ≤ a)
    (k : Nat) : weight q k ≤ 3 := by
  have hsub : ((List.range k).filter fun i => digit q i ≠ 0) ⊆ [0, b, a] := by
    intro i hi
    have hd := (List.mem_filter.1 hi).2
    rw [IsSolinas.digit_eq h ha, decide_eq_true_eq] at hd
    simp only [List.mem_cons, List.not_mem_nil, or_false]
    by_contra hne
    simp only [not_or] at hne
    simp [term, hne] at hd
  have hnodup : ((List.range k).filter fun i => digit q i ≠ 0).Nodup := List.nodup_range.filter _
  exact (List.subperm_of_subset hnodup hsub).length_le

/-- Only a search that was stopped leaves `solinasa` at zero. -/
theorem counted_of_fst_eq_zero {q : Nat} (hodd : q % 2 = 1) (h : (solinas q).1 = 0) :
    (solinas q).2 = 0 ∧ 4 ≤ weight q (mpzSizeinbase2 q + 1) := by
  have h0 := digit_zero_ne_zero hodd
  have hfound := found_foldl h0 (mpzSizeinbase2 q)
  have hcounted := counted_foldl q (mpzSizeinbase2 q + 1)
  rw [solinas] at h ⊢
  generalize (List.range (mpzSizeinbase2 q + 1)).foldl (solinasRound q) ⟨0, 0, 0, false⟩ = r
    at hfound hcounted h ⊢
  cases hfound with
  | stopped =>
      rcases hcounted with ⟨hs, -⟩ | ⟨-, hw⟩
      · cases hs
      · exact ⟨rfl, hw⟩
  | one hd => exact absurd h h0
  | two i hi hik hdi hd =>
      have hne : digit q 0 * (i * digit q i) ≠ 0 :=
        mul_ne_zero h0 (mul_ne_zero (by exact_mod_cast hi.ne') hdi)
      exact absurd h hne
  | three i j hi hij hdi hdj hd =>
      have hne : digit q 0 * j ≠ 0 := mul_ne_zero h0 (by omega)
      exact absurd h hne

end Count

section Cache

/-- The number of entries that `miller_cache_init` allocates. -/
def millerCacheCount (curve : Curve) : Nat := mpzSizeinbase2 curve.q

/-- The two caches agree on the entries from `k` upwards. -/
def AgreeFrom (k : Nat) (mc mc' : MillerCache) : Prop :=
  ∀ i, k ≤ i → mc'.numa i = mc.numa i ∧ mc'.numc i = mc.numc i ∧ mc'.denomc i = mc.denomc i

theorem agreeFrom_preprocessRound {mc : MillerCache} {k i : Nat} {s : Preprocess} (hi : i < k)
    (h : AgreeFrom k mc s.mc) (p : Int) : AgreeFrom k mc (preprocessRound p s i).mc := by
  intro j hj
  have hne : j ≠ i := by omega
  simpa [preprocessRound, ptsPreprocessVertical, ptsPreprocessTangent, hne] using h j hj

theorem agreeFrom_foldl {mc : MillerCache} {k : Nat} {is : List Nat} {s : Preprocess} (p : Int)
    (his : ∀ i ∈ is, i < k) (h : AgreeFrom k mc s.mc) :
    AgreeFrom k mc (is.foldl (preprocessRound p) s).mc := by
  induction is generalizing s with
  | nil => exact h
  | cons i is ih =>
      rw [List.forall_mem_cons] at his
      exact ih his.2 (agreeFrom_preprocessRound his.1 h p)

/-- `tate_preprocess` writes no entry beyond those of the two exponents. -/
theorem agreeFrom_tatePreprocess {curve : Curve} {k : Nat} (ha : curve.solinasa.natAbs ≤ k)
    (hb : curve.solinasb.natAbs ≤ k) (mc : MillerCache) (P : Point) :
    AgreeFrom k mc (tatePreprocess mc P curve) := by
  have hstart : AgreeFrom k mc (preprocessStart mc P curve.solinasb.natAbs curve.p).mc := by
    have hloop := agreeFrom_foldl (s := ⟨mc, P, 1⟩) curve.p
      (fun i hi => (List.mem_range.1 hi).trans_le hb) fun _ _ => ⟨rfl, rfl, rfl⟩
    rw [preprocessStart]
    split <;> exact hloop
  have hrange (i : Nat) (hi : i ∈ List.range' curve.solinasb.natAbs
      (curve.solinasa.natAbs - curve.solinasb.natAbs)) : i < k := by
    rw [List.mem_range'_1] at hi
    omega
  have hfinish {s : Preprocess} (h : AgreeFrom k mc s.mc) :
      AgreeFrom k mc (preprocessFinish curve s) := by
    rw [preprocessFinish]
    split <;> exact h
  simp only [tatePreprocess]
  generalize hs : (if curve.solinasb < 0 then _ else _ : Preprocess) = s
  have hmiddle : AgreeFrom k mc s.mc := by
    rw [← hs]
    split <;> exact hstart
  have hloop := agreeFrom_foldl curve.p hrange hmiddle
  apply hfinish
  split
  · exact hloop
  · exact hloop

end Cache

section Init

variable {q a b : Nat} {s t : Int}

theorem IsSolinas.le_size (h : IsSolinas q a b s t) : a ≤ mpzSizeinbase2 q := by
  have hle : 2 ^ a ≤ 2 ^ (mpzSizeinbase2 q + 1) - 1 := by
    have hlt := lt_two_pow_mpzSizeinbase2 q
    rw [pow_succ]
    by_cases hb : b = 0
    · have hpow := (h.pow_le_of_zero hb).1
      omega
    · have hpow := (h.pow_le hb).2
      omega
  have hlt : 2 ^ a < 2 ^ (mpzSizeinbase2 q + 1) :=
    hle.trans_lt (Nat.sub_lt (Nat.two_pow_pos _) Nat.one_pos)
  exact Nat.lt_succ_iff.1 ((Nat.pow_lt_pow_iff_right (by norm_num)).1 hlt)

theorem solinas_ne_zero_iff (h3 : 3 ≤ q) (hodd : q % 2 = 1) :
    (solinas q).1 ≠ 0 ↔ HasSolinasForm q := by
  constructor
  · intro h
    exact IsSolinas.hasSolinasForm (isSolinas_solinas (by omega) hodd h)
  · intro h h0
    obtain ⟨a, b, s, t, ha, hform⟩ := h.isSolinas h3
    have hle := IsSolinas.weight_le hform ha (mpzSizeinbase2 q + 1)
    have hge := (counted_of_fst_eq_zero hodd h0).2
    omega

/-- `curve_init` finds the form of `q` exactly when there is one, and then the
loop of `tate_preprocess` stays inside the cache. -/
theorem curveInit_solinas (prime : Int) {q : Nat} (h3 : 3 ≤ q) (hodd : q % 2 = 1) :
    (HasSolinasForm q →
      (0 < (curveInit prime q).solinasa.natAbs ∧
        (curveInit prime q).solinasa.natAbs ≤ mpzSizeinbase2 q ∧
        (q : Int) = 2 ^ (curveInit prime q).solinasa.natAbs +
          (curveInit prime q).solinasb.sign * 2 ^ (curveInit prime q).solinasb.natAbs +
          (curveInit prime q).solinasa.sign) ∧
      (∀ i < (curveInit prime q).solinasa.natAbs, i < millerCacheCount (curveInit prime q)) ∧
      ∀ mc P, AgreeFrom (millerCacheCount (curveInit prime q)) mc
        (tatePreprocess mc P (curveInit prime q))) ∧
    (¬HasSolinasForm q →
      (curveInit prime q).solinasa = 0 ∧ (curveInit prime q).solinasb = 0) := by
  rw [← solinas_ne_zero_iff h3 hodd]
  constructor
  · intro h
    have hform := isSolinas_solinas (by omega) hodd h
    have hsize := IsSolinas.le_size hform
    have hb : (solinas q).2.natAbs ≤ (solinas q).1.natAbs := by
      rcases hform.middle with hm | hm <;> omega
    refine ⟨⟨Int.natAbs_pos.2 h, hsize, hform.eq⟩, fun i hi => hi.trans_le hsize, fun mc P => ?_⟩
    exact agreeFrom_tatePreprocess hsize (hb.trans hsize) mc P
  · intro h
    rw [not_not] at h
    exact ⟨h, (counted_of_fst_eq_zero hodd h).1⟩

/-- `11 = 2 ^ 4 - 2 ^ 2 - 1` is found with other exponents than those of
`2 ^ 3 + 2 + 1`. -/
theorem curveInit_solinas_eleven :
    (curveInit 131 11).solinasa = -4 ∧ (curveInit 131 11).solinasb = -2 ∧
      (curveInit 131 11).solinasa.natAbs ≤ mpzSizeinbase2 11 ∧
      ∀ mc P, AgreeFrom (millerCacheCount (curveInit 131 11)) mc
        (tatePreprocess mc P (curveInit 131 11)) := by
  have hform : HasSolinasForm 11 :=
    Or.inl ⟨3, 1, 1, 1, by decide, by decide, Or.inl rfl, Or.inl rfl, by norm_num⟩
  have h := (curveInit_solinas 131 (q := 11) (by decide) (by decide)).1 hform
  exact ⟨by decide, by decide, h.1.2.1, h.2.2⟩

end Init

end IdBasedEncryption.SolinasSearch
