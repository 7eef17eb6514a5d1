import IdBasedEncryption.IbeLib
import IdBasedEncryption.Interpolation

namespace IdBasedEncryption.MasterShares

open Polynomial Gmp ByteStrings PointBytes IbeLib Interpolation

/-- A loop over the first `n` numbers keeps an invariant. -/
theorem foldlM_range {σ : Type*} {f : σ → Nat → Option σ} (Inv : Nat → σ → Prop) {n : Nat} {s : σ}
    (h0 : Inv 0 s)
    (hstep : ∀ k < n, ∀ s, Inv k s → ∃ s', f s k = some s' ∧ Inv (k + 1) s') :
    ∃ s', (List.range n).foldlM f s = some s' ∧ Inv n s' := by
  induction n with
  | zero => exact ⟨s, rfl, h0⟩
  | succ n ih =>
      obtain ⟨s₁, h₁, hs₁⟩ := ih fun k hk => hstep k (by omega)
      obtain ⟨s₂, h₂, hs₂⟩ := hstep n n.lt_succ_self s₁ hs₁
      refine ⟨s₂, ?_, hs₂⟩
      rw [List.range_succ, List.foldlM_append, h₁]
      simpa using h₂

variable {q : Nat}

section Value

variable {m : Int} {t : Nat} {r : Nat → Int}

noncomputable def sharePolynomial (q : Nat) (m : Int) (t : Nat) (r : Nat → Int) : (ZMod q)[X] :=
  ∑ j ∈ Finset.range t, C ((if j = 0 then m else r j : Int) : ZMod q) * X ^ j

theorem cast_foldl_horner (c : Nat → Int) (x z : Int) (t : Nat) :
    (((List.range t).reverse.foldl (fun z j => (z * x + c j) % q) z : Int) : ZMod q) =
      z * (x : ZMod q) ^ t + ∑ j ∈ Finset.range t, (c j : ZMod q) * (x : ZMod q) ^ j := by
  induction t generalizing z with
  | zero => simp
  | succ t ih =>
      rw [List.range_succ, List.reverse_append, List.reverse_singleton, List.singleton_append,
        List.foldl_cons, ih, Finset.sum_range_succ, ZMod.intCast_mod]
      push_cast
      ring

theorem cast_shareValue (x : Int) :
    (shareValue m t r x q : ZMod q) = (sharePolynomial q m t r).eval (x : ZMod q) := by
  rw [shareValue, cast_foldl_horner, sharePolynomial, eval_finsetSum]
  simp

theorem eval_zero_sharePolynomial (ht : 0 < t) : (sharePolynomial q m t r).eval 0 = m := by
  rw [sharePolynomial, eval_finsetSum, Finset.sum_eq_single_of_mem 0 (Finset.mem_range.2 ht)]
  · simp
  · intro j _ hj
    simp [hj]

theorem degree_sharePolynomial : (sharePolynomial q m t r).degree < t := by
  rw [← mem_degreeLT, sharePolynomial]
  refine Submodule.sum_mem _ fun j hj => mem_degreeLT.2 ?_
  exact (degree_C_mul_X_pow_le _ _).trans_lt (by exact_mod_cast Finset.mem_range.1 hj)

theorem shareValue_mem [hq : Fact q.Prime] (ht : 0 < t) (x : Int) :
    0 ≤ shareValue m t r x q ∧ shareValue m t r x q < q := by
  have hq0 : (0 : Int) < q := Int.natCast_pos.2 hq.out.pos
  obtain ⟨t, rfl⟩ := Nat.exists_eq_succ_of_ne_zero ht.ne'
  rw [shareValue, List.range_succ_eq_map, List.reverse_cons, List.foldl_append, List.foldl_cons,
    List.foldl_nil]
  exact ⟨Int.emod_nonneg _ hq0.ne', Int.emod_lt_of_pos _ hq0⟩

theorem eq_of_cast_eq {a b : Int} (ha : 0 ≤ a ∧ a < q) (hb : 0 ≤ b ∧ b < q)
    (h : (a : ZMod q) = b) : a = b := by
  rw [ZMod.intCast_eq_intCast_iff, Int.ModEq, Int.emod_eq_of_lt ha.1 ha.2,
    Int.emod_eq_of_lt hb.1 hb.2] at h
  exact h

end Value

theorem join_inj {bs1 bs2 bs2' : ByteString} :
    byteStringJoin bs1 bs2 = byteStringJoin bs1 bs2' ↔ bs2 = bs2' := by
  constructor
  · intro h
    simp only [byteStringJoin, byteStringEncodeArray, twoBytes, List.flatMap_cons, List.flatMap_nil,
      List.flatten_cons, List.flatten_nil, List.append_nil, List.cons_append, List.nil_append,
      List.length_cons, List.length_nil, List.cons.injEq, List.append_cancel_left_eq] at h
    exact h.2.2.2.2.2.2
  · exact congrArg _

theorem setMpz_inj {a b : Int} (ha : 0 ≤ a) (hb : 0 ≤ b) :
    byteStringSetMpz a = byteStringSetMpz b ↔ a = b := by
  constructor
  · intro h
    rw [← inpRaw_setMpz_of_nonneg ha, h, inpRaw_setMpz_of_nonneg hb]
  · exact congrArg _

section Secrecy

variable [hq : Fact q.Prime] {params : Params} (hpq : params.q = q) {t n : Nat}
  {master master' : ByteString} {r r' x : Nat → Int}
include hpq

theorem masterShare_eq_iff (ht : 0 < t) (i : Nat) :
    masterShare master' t params r' x i = masterShare master t params r x i ↔
      (sharePolynomial q (mympzInpRaw master') t r').eval (x i : ZMod q) =
        (sharePolynomial q (mympzInpRaw master) t r).eval (x i : ZMod q) := by
  have h₁ := shareValue_mem (q := q) (m := mympzInpRaw master) (r := r) ht (x i)
  have h₂ := shareValue_mem (q := q) (m := mympzInpRaw master') (r := r') ht (x i)
  rw [masterShare, masterShare, join_inj, hpq, setMpz_inj h₂.1 h₁.1, ← cast_shareValue,
    ← cast_shareValue]
  constructor
  · intro h
    rw [h]
  · exact eq_of_cast_eq h₂ h₁

/-- For the master key `master'` there are coefficients that lead to the same
shares at the positions in `S`. -/
def SameShares (params : Params) (t n : Nat) (r x : Nat → Int) (master master' : ByteString)
    (S : Finset Nat) : Prop :=
  ∃ r' : Nat → Int, (∀ j, 0 ≤ r' j ∧ r' j < params.q) ∧
    ∀ i ∈ S, (masterShares master' t n params r' x)[i]? = (masterShares master t n params r x)[i]?

omit hpq in
theorem getElem?_masterShares {i : Nat} (hi : i < n) :
    (masterShares master t n params r x)[i]? = some (masterShare master t params r x i) := by
  rw [masterShares, List.getElem?_map, List.getElem?_range hi]
  rfl

/-- The polynomial of a second master key through the shares of the first. -/
theorem sameShares_of_ne_zero (ht : 0 < t) {S : Finset Nat} (hS : ∀ i ∈ S, i < n)
    (hcard : S.card < t) (hx : ∀ i ∈ S, (x i : ZMod q) ≠ 0) :
    SameShares params t n r x master master' S := by
  let places : Finset (ZMod q) := S.image fun i => (x i : ZMod q)
  have h0 : 0 ∉ places := by
    intro h
    obtain ⟨i, hi, hxi⟩ := Finset.mem_image.1 h
    exact hx i hi hxi
  obtain ⟨f, hdeg, hzero, hval⟩ := exists_eval_zero h0 (mympzInpRaw master' : ZMod q)
    fun a => (sharePolynomial q (mympzInpRaw master) t r).eval a
  have hft : f.natDegree < t := hdeg.trans_lt (Finset.card_image_le.trans_lt hcard)
  refine ⟨fun j => (f.coeff j).val, fun j => ?_, fun i hi => ?_⟩
  · rw [hpq]
    exact ⟨Int.natCast_nonneg _, Int.ofNat_lt.2 (ZMod.val_lt _)⟩
  · have hpoly : (sharePolynomial q (mympzInpRaw master') t fun j => (f.coeff j).val) = f := by
      have hsum := f.as_sum_range_C_mul_X_pow' hft
      refine Eq.trans (Finset.sum_congr rfl fun j _ => ?_) hsum.symm
      by_cases hj : j = 0
      · rw [if_pos hj, hj, ← hzero, ← coeff_zero_eq_eval_zero]
      · rw [if_neg hj, Int.cast_natCast, ZMod.natCast_zmod_val]
    rw [getElem?_masterShares (hS i hi), getElem?_masterShares (hS i hi), Option.some.injEq,
      masterShare_eq_iff hpq ht, hpoly]
    exact hval _ (Finset.mem_image_of_mem _ hi)

/-- The shares below the threshold hide the master key exactly when none of them
is taken at zero. -/
theorem sameShares_iff (ht : 0 < t) (hm : mympzInpRaw master < q) (hm' : mympzInpRaw master' < q)
    (hr : ∀ j, 0 ≤ r j ∧ r j < q) (hx : ∀ i, 0 ≤ x i ∧ x i < q) {S : Finset Nat}
    (hS : ∀ i ∈ S, i < n) (hcard : S.card < t) :
    SameShares params t n r x master master' S ↔
      mympzInpRaw master = mympzInpRaw master' ∨ ∀ i ∈ S, x i ≠ 0 := by
  have hq0 : (0 : Int) < q := Int.natCast_pos.2 hq.out.pos
  have hcast (i : Nat) (hi : x i ≠ 0) : (x i : ZMod q) ≠ 0 := fun h =>
    hi (eq_of_cast_eq (hx i) ⟨le_rfl, hq0⟩ (by simpa using h))
  constructor
  · rintro ⟨r', -, hsame⟩
    by_contra hne
    push Not at hne
    obtain ⟨hmm, i, hi, hxi⟩ := hne
    have h := hsame i hi
    rw [getElem?_masterShares (hS i hi), getElem?_masterShares (hS i hi), Option.some.injEq,
      masterShare_eq_iff hpq ht, hxi, Int.cast_zero, eval_zero_sharePolynomial ht,
      eval_zero_sharePolynomial ht] at h
    exact hmm (eq_of_cast_eq ⟨Int.natCast_nonneg _, hm⟩ ⟨Int.natCast_nonneg _, hm'⟩ h.symm)
  · rintro (hmm | hx0)
    · refine ⟨r, fun j => hpq ▸ hr j, fun i hi => ?_⟩
      rw [getElem?_masterShares (hS i hi), getElem?_masterShares (hS i hi), Option.some.injEq,
        masterShare_eq_iff hpq ht, hmm]
    · exact sameShares_of_ne_zero hpq ht hS hcard fun i hi => hcast i (hx0 i hi)

end Secrecy

instance fact_prime_5 : Fact (Nat.Prime 5) := ⟨by norm_num⟩

def fifthParams : Params :=
  { paramsInit 59 5 ibeVersion with sharet := 2, sharen := 3, robustx := [1, 2, 3] }

theorem sameShares_fifth :
    SameShares fifthParams 2 3 (fun _ => 2) (fun i => if i < 3 then i + 1 else 0) [3] [4] {1} :=
  (sameShares_iff (q := 5) rfl (by decide) (by decide) (by decide) (fun _ => by decide)
    (fun i => by split <;> omega) (by decide) (by decide)).2 (Or.inr (by decide))

/-- The share taken at zero is the master key. -/
theorem not_sameShares_fifth :
    masterShare [3] 2 fifthParams (fun _ => 2) (fun _ => 0) 1 =
        byteStringJoin (byteStringSetInt 1) (byteStringSetMpz 3) ∧
      ¬SameShares fifthParams 2 3 (fun _ => 2) (fun _ => 0) [3] [4] {1} := by
  refine ⟨by decide, ?_⟩
  rintro ⟨r', -, h⟩
  have h1 := h 1 (Finset.mem_singleton_self 1)
  rw [getElem?_masterShares (by decide), getElem?_masterShares (by decide), Option.some.injEq,
    masterShare_eq_iff (q := 5) rfl (by decide), Int.cast_zero,
    eval_zero_sharePolynomial (by decide), eval_zero_sharePolynomial (by decide)] at h1
  exact absurd h1 (by decide)

section Coefficient

variable [hq : Fact q.Prime] {params : Params} (hpq : params.q = q) {w : Int → Int}
include hpq

theorem foldlM_coefficientRound {i : Int} (hi : robustxAt params i = some (w i)) {index : List Int}
    (hw : ∀ j ∈ index, robustxAt params j = some (w j)) (s : Int × Int) :
    ∃ s', index.foldlM (coefficientRound params i) s = some s' ∧
      (s'.1 : ZMod q) = s.1 * (index.map fun j => (w j : ZMod q)).prod ∧
      (s'.2 : ZMod q) = s.2 * (index.map fun j => (w j - w i : ZMod q)).prod := by
  induction index generalizing s with
  | nil => exact ⟨s, rfl, by simp, by simp⟩
  | cons j index ih =>
      have hj := hw j List.mem_cons_self
      have hround : coefficientRound params i s j =
          some (s.1 * w j % q, s.2 * (w j - w i) % q) := by
        simp [coefficientRound, hj, hi, hpq]
      obtain ⟨s', hs', h1, h2⟩ := ih (fun k hk => hw k (List.mem_cons_of_mem _ hk))
        (s.1 * w j % q, s.2 * (w j - w i) % q)
      refine ⟨s', ?_, ?_, ?_⟩
      · rw [List.foldlM_cons, hround]
        exact hs'
      · rw [h1, List.map_cons, List.prod_cons, ZMod.intCast_mod]
        push_cast
        ring
      · rw [h2, List.map_cons, List.prod_cons, ZMod.intCast_mod]
        push_cast
        ring

/-- The coefficient of a share is that of the interpolation at zero. -/
theorem shareCoefficient_eq {index : List Int} (hnodup : index.Nodup)
    (hw : ∀ j ∈ index, robustxAt params j = some (w j))
    (hinj : Set.InjOn (fun j => (w j : ZMod q)) index.toFinset) {k : Nat} (hk : k < index.length) :
    ∃ z, shareCoefficient params index k = some z ∧ (0 ≤ z ∧ z < q) ∧
      (z : ZMod q) = weight index.toFinset (fun j => (w j : ZMod q)) index[k] := by
  have hq0 : (0 : Int) < q := Int.natCast_pos.2 hq.out.pos
  have hkm := List.getElem_mem hk
  have hperm : index.eraseIdx k = index.erase index[k] := (hnodup.erase_getElem k hk).symm
  have hset : (index.erase index[k]).toFinset = index.toFinset.erase index[k] := by
    ext j
    simp [hnodup.mem_erase_iff]
  have hnd := hnodup.erase index[k]
  obtain ⟨s, hs, h1, h2⟩ := foldlM_coefficientRound hpq (hw _ hkm)
    (fun j hj => hw j (List.mem_of_mem_erase hj)) (1, 1)
  rw [Int.cast_one, one_mul, ← List.prod_toFinset _ hnd, hset] at h1 h2
  have hne : (s.2 : ZMod q) ≠ 0 := by
    rw [h2]
    refine Finset.prod_ne_zero_iff.2 fun j hj => sub_ne_zero.2 fun h => ?_
    obtain ⟨hjk, hj⟩ := Finset.mem_erase.1 hj
    exact hjk (hinj hj (List.mem_toFinset.2 hkm) h)
  refine ⟨s.1 * mpzInvert s.2 s.2 q % q, ?_, ⟨Int.emod_nonneg _ hq0.ne', Int.emod_lt_of_pos _ hq0⟩, ?_⟩
  · simp [shareCoefficient, hk, hperm, hs, hpq]
  · rw [ZMod.intCast_mod, Int.cast_mul, cast_mpzInvert, if_neg hne, h1, h2, weight,
      Finset.prod_div_distrib, div_eq_mul_inv]

end Coefficient

section Construct

variable [hq : Fact q.Prime] {params : Params} (hpq : params.q = q) {f : (ZMod q)[X]}

/-- A share with the value of the polynomial at the place of its index. -/
def SharesValue (params : Params) (f : (ZMod q)[X]) (share : ByteString) : Prop :=
  ∃ x : Int, robustxAt params (shareIndex share) = some x ∧
    mympzInpRaw (byteStringSplit share).2 = (f.eval (x : ZMod q)).val

/-- The places that the table gives for the indices. -/
def place (params : Params) (i : Int) : Int := (robustxAt params i).getD 0

theorem SharesValue.place_eq {share : ByteString} (h : SharesValue params f share) :
    robustxAt params (shareIndex share) = some (place params (shareIndex share)) := by
  obtain ⟨x, hx, -⟩ := h
  rw [place, hx]
  rfl

theorem SharesValue.cast_eq {share : ByteString} (h : SharesValue params f share) :
    (mympzInpRaw (byteStringSplit share).2 : ZMod q) =
      f.eval (place params (shareIndex share) : ZMod q) := by
  obtain ⟨x, hx, hy⟩ := h
  rw [hy, place, hx, Int.cast_natCast, ZMod.natCast_zmod_val]
  rfl

omit hq in
theorem nodup_index {shares : List ByteString}
    (hdistinct : (shares.map fun s => robustxAt params (shareIndex s)).Nodup) :
    (shares.map shareIndex).Nodup := by
  refine List.Nodup.of_map (robustxAt params) ?_
  rwa [List.map_map]

theorem injOn_place {shares : List ByteString} (hshares : ∀ s ∈ shares, SharesValue params f s)
    (htable : ∀ x ∈ params.robustx, 0 ≤ x ∧ x < q)
    (hdistinct : (shares.map fun s => robustxAt params (shareIndex s)).Nodup) :
    Set.InjOn (fun j => (place params j : ZMod q)) (shares.map shareIndex).toFinset := by
  have hrange {i x : Int} (h : robustxAt params i = some x) : 0 ≤ x ∧ x < q := by
    rw [robustxAt] at h
    split at h
    · exact absurd h (by simp)
    · exact htable x (List.mem_of_getElem? h)
  intro i hi j hj hij
  obtain ⟨s, hs, rfl⟩ := List.mem_map.1 (List.mem_toFinset.1 hi)
  obtain ⟨s', hs', rfl⟩ := List.mem_map.1 (List.mem_toFinset.1 hj)
  have h := (hshares s hs).place_eq
  have h' := (hshares s' hs').place_eq
  have hval := eq_of_cast_eq (hrange h) (hrange h') hij
  rw [List.inj_on_of_nodup_map hdistinct hs hs' (by rw [h, h', hval])]

include hpq

/-- The loop adds up the terms of the interpolation. -/
theorem constructRound_eq {shares : List ByteString} (hshares : ∀ s ∈ shares, SharesValue params f s)
    (hnodup : (shares.map shareIndex).Nodup)
    (hinj : Set.InjOn (fun j => (place params j : ZMod q)) (shares.map shareIndex).toFinset)
    {k : Nat} (hk : k < (shares.map shareIndex).length) {x : Int} (hx : 0 ≤ x ∧ x < q) :
    ∃ x', constructRound params shares x k = some x' ∧ (0 ≤ x' ∧ x' < q) ∧
      (x' : ZMod q) = x + weight (shares.map shareIndex).toFinset (fun j => (place params j : ZMod q))
        (shares.map shareIndex)[k] * f.eval (place params (shares.map shareIndex)[k] : ZMod q) := by
  have hq0 : (0 : Int) < q := Int.natCast_pos.2 hq.out.pos
  have hks : k < shares.length := by rwa [List.length_map] at hk
  have hshare := hshares _ (List.getElem_mem hks)
  have hplaces : ∀ j ∈ shares.map shareIndex, robustxAt params j = some (place params j) := by
    intro j hj
    obtain ⟨s, hs, rfl⟩ := List.mem_map.1 hj
    exact (hshares s hs).place_eq
  obtain ⟨z, hz, -, hzc⟩ := shareCoefficient_eq hpq hnodup hplaces hinj hk
  generalize hy : mympzInpRaw (byteStringSplit shares[k]).2 = y
  have hmod0 := Int.emod_nonneg (z * y) hq0.ne'
  have hmodq := Int.emod_lt_of_pos (z * y) hq0
  have hround : constructRound params shares x k =
      some (if x + z * y % q ≥ q then x + z * y % q - q else x + z * y % q) := by
    simp only [constructRound, List.getElem?_eq_getElem hks, Option.bind_eq_bind, Option.bind_some,
      hz, hy, hpq, Option.pure_def]
  refine ⟨_, hround, by split <;> omega, ?_⟩
  have hcast : ((if x + z * y % q ≥ q then x + z * y % q - q else x + z * y % q : Int) : ZMod q) =
      x + z * y := by
    split <;> simp
  rw [hcast, hzc, ← hy, hshare.cast_eq, List.getElem_map]

/-- The loop at any round has added up the terms of the shares before it. -/
theorem foldlM_constructRound {shares : List ByteString}
    (hshares : ∀ s ∈ shares, SharesValue params f s) (hnodup : (shares.map shareIndex).Nodup)
    (hinj : Set.InjOn (fun j => (place params j : ZMod q)) (shares.map shareIndex).toFinset)
    {k : Nat} (hk : k ≤ shares.length) :
    ∃ x, (List.range k).foldlM (constructRound params shares) 0 = some x ∧ (0 ≤ x ∧ x < q) ∧
      (x : ZMod q) = (((shares.map shareIndex).take k).map fun j =>
        weight (shares.map shareIndex).toFinset (fun j => (place params j : ZMod q)) j *
          f.eval (place params j : ZMod q)).sum := by
  have hq0 : (0 : Int) < q := Int.natCast_pos.2 hq.out.pos
  obtain ⟨x, hx, hxr, hxc⟩ := foldlM_range
    (fun k (x : Int) => (0 ≤ x ∧ x < q) ∧ (x : ZMod q) =
      (((shares.map shareIndex).take k).map fun j =>
        weight (shares.map shareIndex).toFinset (fun j => (place params j : ZMod q)) j *
          f.eval (place params j : ZMod q)).sum)
    (f := constructRound params shares) (n := k) (s := 0) ⟨⟨le_rfl, hq0⟩, by simp⟩ (by
      rintro j hj x ⟨hxr, hxc⟩
      have hlen : j < (shares.map shareIndex).length := by
        rw [List.length_map]
        omega
      obtain ⟨x', hx', hxr', hxc'⟩ := constructRound_eq hpq hshares hnodup hinj hlen hxr
      refine ⟨x', hx', hxr', ?_⟩
      rw [hxc', hxc, List.take_succ_eq_append_getElem hlen, List.map_append, List.sum_append]
      simp)
  exact ⟨x, hx, hxr, hxc⟩

/-- Shares with different indices and places make up the value at zero. -/
theorem ibeConstructMaster_of_injOn {shares : List ByteString} (hlen : params.sharet = shares.length)
    (hf : f.degree < shares.length) (hshares : ∀ s ∈ shares, SharesValue params f s)
    (hnodup : (shares.map shareIndex).Nodup)
    (hinj : Set.InjOn (fun j => (place params j : ZMod q)) (shares.map shareIndex).toFinset) :
    ibeConstructMaster shares params = some (1, byteStringSetMpz (f.eval 0).val) := by
  have hlen' : (shares.map shareIndex).length = shares.length := List.length_map ..
  obtain ⟨x, hx, hxr, hxc⟩ := foldlM_constructRound hpq hshares hnodup hinj le_rfl
  have hsum : (x : ZMod q) = f.eval 0 := by
    rw [hxc, ← hlen', List.take_length, ← List.sum_toFinset _ hnodup]
    refine sum_weight_mul_eval hinj ?_
    rwa [List.toFinset_card_of_nodup hnodup, hlen']
  have hval : x = (f.eval 0).val := by
    refine eq_of_cast_eq hxr ⟨Int.natCast_nonneg _, Int.ofNat_lt.2 (ZMod.val_lt _)⟩ ?_
    rw [hsum, Int.cast_natCast, ZMod.natCast_zmod_val]
  rw [ibeConstructMaster, hlen, Int.toNat_natCast, List.take_length]
  simp [hx, hval]

/-- The master key is the value at zero, in whatever order the shares come. -/
theorem ibeConstructMaster_eq {shares : List ByteString} (hlen : params.sharet = shares.length)
    (hf : f.degree < shares.length) (htable : ∀ x ∈ params.robustx, 0 ≤ x ∧ x < q)
    (hshares : ∀ s ∈ shares, SharesValue params f s)
    (hdistinct : (shares.map fun s => robustxAt params (shareIndex s)).Nodup) :
    ibeConstructMaster shares params = some (1, byteStringSetMpz (f.eval 0).val) :=
  ibeConstructMaster_of_injOn hpq hlen hf hshares (nodup_index hdistinct)
    (injOn_place hshares htable hdistinct)

end Construct

theorem ibeConstructMaster_fifth :
    ibeConstructMaster [byteStringJoin (byteStringSetInt 2) (byteStringSetMpz 4),
      byteStringJoin (byteStringSetInt 1) (byteStringSetMpz 2)] fifthParams =
        some (1, byteStringSetMpz (((C 2 * X + C 3 : (ZMod 5)[X]).eval 0).val)) := by
  refine ibeConstructMaster_eq (q := 5) rfl rfl degree_linear_lt (by decide) ?_ (by decide)
  intro share hshare
  rcases List.mem_pair.1 hshare with rfl | rfl
  · refine ⟨3, by decide, ?_⟩
    rw [eval_add, eval_mul, eval_C, eval_X, eval_C]
    decide
  · refine ⟨2, by decide, ?_⟩
    rw [eval_add, eval_mul, eval_C, eval_X, eval_C]
    decide

end IdBasedEncryption.MasterShares
