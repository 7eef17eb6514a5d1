import IdBasedEncryption.KeyEncapsulation
import IdBasedEncryption.MasterShares
import IdBasedEncryption.ScalarMultiples

namespace IdBasedEncryption.ThresholdKeys

open Polynomial Gmp CurvePoints MordellGroup PointValues Multiples ScalarMultiples ByteStrings PointBytes IbeLib
open KeyEncapsulation Interpolation MasterShares

variable {p : Nat} [hp : Fact p.Prime] {q : Nat} {B : E p}

section Multiples

/-- The multiples of a point by residues. -/
noncomputable def residueMultiple (hB : q • B = 0) : ZMod q →+ E p :=
  ZMod.lift q ⟨zmultiplesHom (E p) B, by simpa using hB⟩

theorem residueMultiple_intCast (hB : q • B = 0) (k : Int) :
    residueMultiple hB (k : ZMod q) = k • B := by
  rw [residueMultiple, ZMod.lift_coe]
  rfl

theorem residueMultiple_eq_zero (hB : q • B = 0) (ho : addOrderOf B = q) {c : ZMod q} :
    residueMultiple hB c = 0 ↔ c = 0 := by
  constructor
  · intro h
    obtain ⟨k, rfl⟩ := ZMod.intCast_surjective c
    rw [residueMultiple_intCast, ← addOrderOf_dvd_iff_zsmul_eq_zero, ho] at h
    exact (ZMod.intCast_zmod_eq_zero_iff_dvd k q).2 h
  · rintro rfl
    exact map_zero _

theorem pointMul_residueMultiple [hq : Fact q.Prime] [Fact (p % 2 = 1)] (hq64 : 64 < q)
    (ho : addOrderOf B = q) (hB : q • B = 0) {c v : ZMod q} (hc : c ≠ 0) (hv : v ≠ 0)
    (hd : meetsDoubling c.val q = false) :
    pointMul c.val (ofPoint (residueMultiple hB v)) p =
      some (ofPoint (residueMultiple hB (c * v))) := by
  have hne : residueMultiple hB v ≠ 0 := fun h => hv ((residueMultiple_eq_zero hB ho).1 h)
  have hord : addOrderOf (residueMultiple hB v) = q := by
    refine addOrderOf_eq hq.out ?_ hne
    rw [← map_nsmul, nsmul_eq_mul, ZMod.natCast_self, zero_mul, map_zero]
  have hpos : 0 < c.val := Nat.pos_of_ne_zero fun h => hc ((ZMod.val_eq_zero c).1 h)
  rw [pointMul_eq hq.out hq64 hord (affRepresents_ofPoint hne) hpos (ZMod.val_lt c) hd rfl,
    ← map_nsmul, nsmul_eq_mul, ZMod.natCast_zmod_val]

theorem pointAdd_ofPoint_of_sum [Fact (p % 4 = 3)] {A C : E p} (hC : C ≠ 0)
    (h : A = 0 ∨ A + C ≠ 0) : pointAdd (ofPoint A) (ofPoint C) p = ofPoint (A + C) := by
  rcases h with rfl | h
  · rw [zero_add, ofPoint_zero, pointAdd, if_pos (by rfl)]
  · by_cases hA : A = 0
    · rw [hA, zero_add, ofPoint_zero, pointAdd, if_pos (by rfl)]
    · exact pointAdd_ofPoint hA hC h

end Multiples

section Shares

/-- The number of bytes that an element of `F_p` may have for the shares of keys
to be encoded. -/
def maxShareBytes : Nat := 32757

theorem le_pow_maxShareBytes {n : Nat} (h : n ≤ 256 ^ 2) : n ≤ 256 ^ maxShareBytes :=
  h.trans (Nat.pow_le_pow_right (by norm_num) (by decide))

/-- The share of a key with index `i`. -/
def keyShare (i : Int) (A : E p) : ByteString :=
  byteStringJoin (byteStringSetInt i) (byteStringSetPoint (ofPoint A))

theorem length_setMpz_val (hsize : p ≤ 256 ^ maxShareBytes) (x : ZMod p) :
    (byteStringSetMpz (x.val : Int)).length ≤ maxShareBytes := by
  rw [length_setMpz]
  exact mympzSizeinbytes_le (by decide) ((ZMod.val_lt x).trans_le hsize)

theorem length_setPoint_lt (hsize : p ≤ 256 ^ maxShareBytes) {A : E p} (hA : A ≠ 0) :
    (byteStringSetPoint (ofPoint A)).length < 2 ^ 16 := by
  cases A with
  | zero => exact absurd rfl hA
  | some x y h =>
      have hx := length_setMpz_val hsize x
      have hy := length_setMpz_val hsize y
      have h0 : (byteStringSetMpz 0).length = 1 := rfl
      simp only [byteStringSetPoint, byteStringSetFp2, length_join, ofPoint, ofResidue, h0]
      rw [maxShareBytes] at hx hy
      omega

theorem split_keyShare (hsize : p ≤ 256 ^ maxShareBytes) (i : Int) {A : E p} (hA : A ≠ 0) :
    shareIndex (keyShare i A) = i % 256 ∧
      pointSetByteString pointInit (byteStringSplit (keyShare i A)).2 = ofPoint A := by
  have hle : (256 : Nat) ^ maxShareBytes ≤ 256 ^ maxBytes :=
    Nat.pow_le_pow_right (by norm_num) (by decide)
  have h4 : (byteStringSetInt i).length < 2 ^ 16 := by
    rw [byteStringSetInt]
    norm_num
  rw [shareIndex, keyShare, split_join h4 (length_setPoint_lt hsize hA), intFromByteString_setInt]
  exact ⟨rfl, pointSetByteString_ofPoint (hsize.trans hle) hA rfl⟩

end Shares

section Combine

variable [hq : Fact q.Prime] {params : Params} {f : (ZMod q)[X]} {kshare : List ByteString}

/-- A share of a key with the multiple that the polynomial gives for its place. -/
structure SharesKey (params : Params) (f : (ZMod q)[X]) (hB : q • B = 0) (share : ByteString) :
    Prop where
  place_eq : robustxAt params (shareIndex share) = some (place params (shareIndex share))
  point_eq : pointSetByteString pointInit (byteStringSplit share).2 =
    ofPoint (residueMultiple hB (f.eval (place params (shareIndex share) : ZMod q)))

/-- What the share with index `j` adds to the interpolation at zero. -/
noncomputable def term (params : Params) (f : (ZMod q)[X]) (index : List Int) (j : Int) : ZMod q :=
  weight index.toFinset (fun j => (place params j : ZMod q)) j * f.eval (place params j : ZMod q)

variable [hp12 : Fact (p % 12 = 11)] (hpq : params.q = q) (hpp : params.curve.p = p) (hq64 : 64 < q)
  (ho : addOrderOf B = q) (hB : q • B = 0) (hshares : ∀ s ∈ kshare, SharesKey params f hB s)
  (hnodup : (kshare.map shareIndex).Nodup)
  (hinj : Set.InjOn (fun j => (place params j : ZMod q)) (kshare.map shareIndex).toFinset)
  (hterm : ∀ j ∈ kshare.map shareIndex, term params f (kshare.map shareIndex) j ≠ 0)
  (hdouble : ∀ j ∈ kshare.map shareIndex, meetsDoubling
    (weight (kshare.map shareIndex).toFinset (fun j => (place params j : ZMod q)) j).val q = false)
include hpq hpp hq64 ho hshares hnodup hinj hterm hdouble

theorem combineRound_eq {k : Nat} (hk : k < (kshare.map shareIndex).length) {S : ZMod q}
    (hS : S = 0 ∨ S + term params f (kshare.map shareIndex) (kshare.map shareIndex)[k] ≠ 0) :
    combineRound params kshare (ofPoint (residueMultiple hB S)) k =
      some (ofPoint (residueMultiple hB
        (S + term params f (kshare.map shareIndex) (kshare.map shareIndex)[k]))) := by
  have hks : k < kshare.length := by rwa [List.length_map] at hk
  have hshare := hshares _ (List.getElem_mem hks)
  have hplaces : ∀ j ∈ kshare.map shareIndex, robustxAt params j = some (place params j) := by
    intro j hj
    obtain ⟨s, hs, rfl⟩ := List.mem_map.1 hj
    exact (hshares s hs).place_eq
  obtain ⟨z, hz, hzr, hzc⟩ := shareCoefficient_eq hpq hnodup hplaces hinj hk
  have hkm := List.getElem_mem hk
  have hd := hdouble _ hkm
  have htk := hterm _ hkm
  have hv : z = ((z : ZMod q).val : Int) := by
    refine eq_of_cast_eq hzr ⟨Int.natCast_nonneg _, Int.ofNat_lt.2 (ZMod.val_lt _)⟩ ?_
    rw [Int.cast_natCast, ZMod.natCast_zmod_val]
  rw [← hzc] at hd
  have hmul := pointMul_residueMultiple hq64 ho hB (c := (z : ZMod q)) ?_ (right_ne_zero_of_mul htk) hd
  · rw [← hv, List.getElem_map, hzc] at hmul
    rw [combineRound]
    simp only [List.getElem?_eq_getElem hks, Option.bind_eq_bind, Option.bind_some, hz,
      hshare.point_eq, hpp, hmul, Option.pure_def, map_add, Option.some.injEq]
    have h0 (c : ZMod q) := (residueMultiple_eq_zero hB ho (c := c)).1
    have hfin : residueMultiple hB S = 0 ∨ residueMultiple hB S +
        residueMultiple hB (term params f (kshare.map shareIndex) (kshare.map shareIndex)[k]) ≠ 0 := by
      rw [← map_add]
      refine hS.imp (fun h => by rw [h, map_zero]) fun h h' => h (h0 _ h')
    rw [term, List.getElem_map] at hfin htk ⊢
    exact pointAdd_ofPoint_of_sum (fun h => htk (h0 _ h)) hfin
  · rw [hzc]
    exact left_ne_zero_of_mul htk

/-- The key that the shares make up is the multiple that the polynomial has at
zero. -/
theorem ibeCombine_eq (hlen : params.sharet = kshare.length) (hf : f.degree < kshare.length)
    (hsums : ∀ k, 0 < k → k < kshare.length →
      (((kshare.map shareIndex).take k).map (term params f (kshare.map shareIndex))).sum ≠ 0)
    (h0 : f.eval 0 ≠ 0) (key : ByteString) :
    ibeCombine key kshare params =
      some (1, byteStringSetPoint (ofPoint (residueMultiple hB (f.eval 0)))) := by
  have hlen' : (kshare.map shareIndex).length = kshare.length := List.length_map ..
  have htotal : ((kshare.map shareIndex).map (term params f (kshare.map shareIndex))).sum =
      f.eval 0 := by
    rw [← List.sum_toFinset _ hnodup]
    refine sum_weight_mul_eval hinj ?_
    rwa [List.toFinset_card_of_nodup hnodup, hlen']
  have hsum {k : Nat} (hk : k < (kshare.map shareIndex).length) :
      (((kshare.map shareIndex).take (k + 1)).map (term params f (kshare.map shareIndex))).sum =
        (((kshare.map shareIndex).take k).map (term params f (kshare.map shareIndex))).sum +
          term params f (kshare.map shareIndex) (kshare.map shareIndex)[k] := by
    rw [List.take_succ_eq_append_getElem hk, List.map_append, List.sum_append]
    simp
  have hne {k : Nat} (hk0 : 0 < k) (hk : k ≤ kshare.length) :
      (((kshare.map shareIndex).take k).map (term params f (kshare.map shareIndex))).sum ≠ 0 := by
    rcases hk.lt_or_eq with hk | rfl
    · exact hsums k hk0 hk
    · rwa [← hlen', List.take_length, htotal]
  obtain ⟨d, hd, hdr⟩ := foldlM_range
    (fun k (d : Point) => d = ofPoint (residueMultiple hB
      (((kshare.map shareIndex).take k).map (term params f (kshare.map shareIndex))).sum))
    (f := combineRound params kshare) (n := kshare.length) (s := pointSetO)
    (by simp) (by
      rintro k hk d rfl
      refine ⟨_, combineRound_eq hpq hpp hq64 ho hB hshares hnodup hinj hterm hdouble
        (by rwa [hlen']) ?_, by rw [hsum (by rwa [hlen'])]⟩
      rw [← hsum (by rwa [hlen'])]
      rcases k.eq_zero_or_pos with rfl | hk0
      · exact Or.inl (by simp)
      · exact Or.inr (hne k.succ_pos hk))
  rw [← hlen', List.take_length, htotal] at hdr
  rw [ibeCombine, hlen, Int.toNat_natCast, List.take_length]
  simp [hnodup, hd, hdr]

end Combine

section Threshold

/-- Splits the master key, extracts shares of a key at the positions `pos` and
combines them. -/
def combinedKey (extractShare : ByteString → Params → Option ByteString) (master : ByteString)
    (t n : Nat) (params : Params) (r x : Nat → Int) (pos : List Nat) (key : ByteString) :
    Option (Int × ByteString) := do
  let (mshare, params) ← ibeSplitMaster master t n params r x
  let kshare ← pos.mapM fun i => do extractShare (← mshare[i]?) params
  ibeCombine key kshare params

/-- The indices that the shares at these positions carry. -/
def indices (pos : List Nat) : List Int := pos.map fun i : Nat => (i : Int) % 256

/-- The coefficient for the index `j`, the places being `x`. -/
def indexWeight (q : Nat) [Fact q.Prime] (x : Nat → Int) (index : List Int) (j : Int) : ZMod q :=
  weight index.toFinset (fun j => (x j.toNat : ZMod q)) j

/-- Every index stands for its position, no number of the computation makes a
multiplication meet a special case, and neither does a partial sum. -/
structure ThresholdCondition (p q : Nat) [Fact q.Prime] (m t n : Nat) (r x : Nat → Int)
    (pos : List Nat) : Prop where
  size : p ≤ 256 ^ maxShareBytes
  master : meetsDoubling m q = false
  nodup : (indices pos).Nodup
  values : ∀ i ∈ pos, shareValue m t r (x (i % 256)) q = shareValue m t r (x i) q
  share_ne_zero : ∀ i < n, shareValue m t r (x i) q ≠ 0
  share : ∀ i ∈ pos, meetsDoubling (shareValue m t r (x i) q).toNat q = false
  coefficient : ∀ j ∈ indices pos, meetsDoubling (indexWeight q x (indices pos) j).val q = false
  sums_ne_zero : ∀ k, 0 < k → k < pos.length →
    (((indices pos).take k).map fun j =>
      indexWeight q x (indices pos) j * (shareValue m t r (x j.toNat) q : ZMod q)).sum ≠ 0

/-- The shares at the positions are as many as it takes, and all shares are at different
places other than zero. -/
structure Enough (p q : Nat) [Fact q.Prime] (m t n : Nat) (r x : Nat → Int) (pos : List Nat) : Prop
    extends ThresholdCondition p q m t n r x pos where
  sharet_pos : 0 < t
  places_mem : ∀ i < n, 0 < x i ∧ x i < q
  injOn : Set.InjOn x {i | i < n}
  pos_lt : ∀ i ∈ pos, i < n
  length_eq : pos.length = t

/-- The parameters with the public part of the shared master key. -/
def sharedParams (params : Params) (t n : Nat) (x : Nat → Int) (robustP : List Point) : Params :=
  { params with sharet := t, sharen := n, robustx := (List.range n).map x, robustP }

variable [hq : Fact q.Prime] [hp12 : Fact (p % 12 = 11)] {m t n : Nat} {r x : Nat → Int}
  {params : Params} {pos : List Nat} (hq64 : 64 < q) (hqp : q ∣ p + 1) (hpq : params.q = q)
  (hpp : params.curve.p = p)

omit hp12 hp in
include hpq in
/-- The table of public points is set up whenever no share is zero. -/
theorem exists_ibeSplitMaster (ht : 0 < t)
    (hne : ∀ i < n, shareValue m t r (x i) q ≠ 0) :
    ∃ robustP, ibeSplitMaster (byteStringSetMpz m) t n params r x =
      some (masterShares (byteStringSetMpz m) t n params r x,
        sharedParams params t n x robustP) := by
  have hmul : ∀ i ∈ List.range n, ∃ R,
      pointMul (shareValue m t r (x i) q) params.Ppub params.curve.p = some R ∧ True := by
    intro i hi
    have hmem := shareValue_mem (q := q) (m := m) (r := r) ht (x i)
    have hi0 := hne i (List.mem_range.1 hi)
    obtain ⟨y, hy⟩ := Int.eq_ofNat_of_zero_le hmem.1
    rw [hy] at hi0 ⊢
    obtain ⟨R, hR⟩ := exists_pointMul (n := y) (by omega) params.Ppub params.curve.p
    exact ⟨R, hR, trivial⟩
  obtain ⟨robustP, hr, -⟩ := exists_mapM_eq_some hmul
  refine ⟨robustP, ?_⟩
  simp [ibeSplitMaster, inpRaw_setMpz, hpq, hr, sharedParams]

include hq64 hqp hpq hpp in
theorem ibeExtractShareByteString_eq (ht : 0 < t) (hc : ThresholdCondition p q m t n r x pos)
    {md : ByteString → ByteString} {bs : ByteString} (hB : addOrderOf B = q)
    (hmap : mapByteStringToPoint md bs params = some (ofPoint B)) {i : Nat} (hi : i ∈ pos)
    (hin : i < n) (hBq : q • B = 0) :
    ibeExtractShareByteString md (masterShare (byteStringSetMpz m) t params r x i) bs params =
      some (keyShare (i % 256) (residueMultiple hBq (shareValue m t r (x i) q : ZMod q))) := by
  have hmem := shareValue_mem (q := q) (m := m) (r := r) ht (x i)
  have hne := hc.share_ne_zero i hin
  have hd := hc.share i hi
  rw [ibeExtractShareByteString, masterShare, inpRaw_setMpz, hpq]
  generalize shareValue m t r (x i) q = y at hmem hne hd
  obtain ⟨y, rfl⟩ := Int.eq_ofNat_of_zero_le hmem.1
  have hyq : y < q := Int.ofNat_lt.1 hmem.2
  have hyp : y ≤ p := by
    have hle := Nat.le_of_dvd p.succ_pos hqp
    omega
  have hy : y < 256 ^ (maxShareBytes + 1) :=
    (hyp.trans hc.size).trans_lt (Nat.pow_lt_pow_right (by norm_num) maxShareBytes.lt_succ_self)
  have hlen : (byteStringSetMpz (y : Int)).length < 2 ^ 16 := by
    rw [length_setMpz]
    have hk : 0 < maxShareBytes + 1 := Nat.succ_pos _
    exact (mympzSizeinbytes_le hk hy).trans_lt (by decide)
  have h4 : (byteStringSetInt i).length < 2 ^ 16 := by
    rw [byteStringSetInt]
    norm_num
  have hmul := pointMul_eq hq.out hq64 hB (affRepresents_ofPoint (ne_zero_of_order hq.out hB))
    (n := y) (by omega) hyq (by simpa using hd) (B := ofPoint B) rfl
  rw [split_join h4 hlen, residueMultiple_intCast, natCast_zsmul]
  simp [intFromByteString_setInt, hmap, inpRaw_setMpz, hpp, hmul, keyShare]

section Table

variable {robustP : List Point}

omit hq hp12 hp in
theorem robustxAt_sharedParams {i : Nat} (hi : i < n) :
    robustxAt (sharedParams params t n x robustP) (i : Int) = some (x i) := by
  rw [robustxAt, if_neg (by omega), Int.toNat_natCast, sharedParams, List.getElem?_map,
    List.getElem?_range hi]
  rfl

omit hq hp12 hp in
theorem mem_indices (hpos : ∀ i ∈ pos, i < n) {j : Int} (hj : j ∈ indices pos) :
    0 ≤ j ∧ j.toNat < n := by
  obtain ⟨i, hi, rfl⟩ := List.mem_map.1 hj
  have hin := hpos i hi
  omega

omit hp12 hp in
theorem injOn_indices (hx : ∀ i < n, 0 < x i ∧ x i < q) (hxne : Set.InjOn x {i | i < n})
    (hpos : ∀ i ∈ pos, i < n) :
    Set.InjOn (fun j : Int => (x j.toNat : ZMod q)) (indices pos).toFinset := by
  intro j hj j' hj' h
  obtain ⟨h0, hlt⟩ := mem_indices hpos (List.mem_toFinset.1 hj)
  obtain ⟨h0', hlt'⟩ := mem_indices hpos (List.mem_toFinset.1 hj')
  have hr := hx _ hlt
  have hr' := hx _ hlt'
  have he := hxne hlt hlt' (eq_of_cast_eq ⟨hr.1.le, hr.2⟩ ⟨hr'.1.le, hr'.2⟩ h)
  omega

omit hp12 hp in
theorem indexWeight_ne_zero (hx : ∀ i < n, 0 < x i ∧ x i < q) (hxne : Set.InjOn x {i | i < n})
    (hpos : ∀ i ∈ pos, i < n) {j : Int} (hj : j ∈ indices pos) :
    indexWeight q x (indices pos) j ≠ 0 := by
  refine weight_ne_zero (injOn_indices hx hxne hpos) (fun k hk => ?_) (List.mem_toFinset.2 hj)
  have hr := hx _ (mem_indices hpos (List.mem_toFinset.1 hk)).2
  intro h
  exact hr.1.ne' (eq_of_cast_eq ⟨hr.1.le, hr.2⟩ ⟨le_rfl, Int.natCast_pos.2 hq.out.pos⟩
    (by simpa using h))

omit hq hp12 hp in
theorem place_sharedParams (hpos : ∀ i ∈ pos, i < n) {j : Int} (hj : j ∈ indices pos) :
    robustxAt (sharedParams params t n x robustP) j = some (x j.toNat) ∧
      place (sharedParams params t n x robustP) j = x j.toNat := by
  obtain ⟨h0, hlt⟩ := mem_indices hpos hj
  have hat : robustxAt (sharedParams params t n x robustP) j.toNat = some (x j.toNat) :=
    robustxAt_sharedParams hlt
  rw [Int.toNat_of_nonneg h0] at hat
  exact ⟨hat, by rw [place, hat]; rfl⟩

omit hp12 hp in
theorem term_sharedParams (hpos : ∀ i ∈ pos, i < n) {j : Int} (hj : j ∈ indices pos) :
    weight (indices pos).toFinset
        (fun j => (place (sharedParams params t n x robustP) j : ZMod q)) j =
      indexWeight q x (indices pos) j ∧
    term (sharedParams params t n x robustP) (sharePolynomial q m t r) (indices pos) j =
      indexWeight q x (indices pos) j * (shareValue m t r (x j.toNat) q : ZMod q) := by
  have hw : weight (indices pos).toFinset
      (fun j => (place (sharedParams params t n x robustP) j : ZMod q)) j =
        indexWeight q x (indices pos) j := by
    refine weight_congr (fun k hk => ?_) (List.mem_toFinset.2 hj)
    rw [(place_sharedParams hpos (List.mem_toFinset.1 hk)).2]
  rw [term, hw, (place_sharedParams hpos hj).2, ← cast_shareValue]
  exact ⟨rfl, rfl⟩

end Table

section Shares

variable (hx : ∀ i < n, 0 < x i ∧ x i < q) (hxne : Set.InjOn x {i | i < n})
  (hpos : ∀ i ∈ pos, i < n) (ht : 0 < t) (hc : ThresholdCondition p q m t n r x pos)
  (robustP : List Point)

include ht hc

omit hp12 hp in
theorem cast_value_ne_zero {i : Nat} (hi : i < n) : (shareValue m t r (x i) q : ZMod q) ≠ 0 := by
  intro h
  exact hc.share_ne_zero i hi (eq_of_cast_eq (shareValue_mem ht _)
    ⟨le_rfl, Int.natCast_pos.2 hq.out.pos⟩ (by simpa using h))

variable (ho : addOrderOf B = q) (hB : q • B = 0)

omit hp12 in
include ho in
theorem residueMultiple_value_ne_zero {i : Nat} (hi : i < n) :
    residueMultiple hB (shareValue m t r (x i) q : ZMod q) ≠ 0 := fun h =>
  cast_value_ne_zero ht hc hi ((residueMultiple_eq_zero hB ho).1 h)

omit hp12 in
include ho hpos in
/-- The share at a position is one for the place of its index. -/
theorem sharesKey_keyShare {i : Nat} (hi : i ∈ pos) :
    SharesKey (sharedParams params t n x robustP) (sharePolynomial q m t r) hB
      (keyShare ((i : Int) % 256) (residueMultiple hB (shareValue m t r (x i) q : ZMod q))) := by
  obtain ⟨hsi, hsp⟩ := split_keyShare hc.size ((i : Int) % 256)
    (residueMultiple_value_ne_zero ht hc ho hB (hpos i hi))
  obtain ⟨hat, hpl⟩ : robustxAt (sharedParams params t n x robustP) _ = _ ∧ _ :=
    place_sharedParams hpos (List.mem_map_of_mem hi)
  have hnat : ((i : Int) % 256).toNat = i % 256 := by omega
  rw [hnat] at hat hpl
  refine ⟨?_, ?_⟩
  · rw [hsi, Int.emod_emod, hat, hpl]
  · rw [hsp, hsi, Int.emod_emod, hpl, ← cast_shareValue, hc.values i hi]

include hq64 hpq hpp hx hxne hpos ho

/-- The shares that the positions yield make up the key of the master key. -/
theorem ibeCombine_keyShares (hm : 0 < m) (hmq : m < q) (hlen : pos.length = t) (key : ByteString) :
    ibeCombine key (pos.map fun i : Nat => keyShare ((i : Int) % 256)
        (residueMultiple hB (shareValue m t r (x i) q : ZMod q))) (sharedParams params t n x robustP) =
      some (1, byteStringSetPoint (ofPoint (m • B))) := by
  generalize hk : pos.map (fun i : Nat => keyShare ((i : Int) % 256)
    (residueMultiple hB (shareValue m t r (x i) q : ZMod q))) = kshare
  have hindex : kshare.map shareIndex = indices pos := by
    rw [← hk, List.map_map, indices]
    refine List.map_congr_left fun i hi => ?_
    rw [Function.comp_apply, (split_keyShare hc.size _
      (residueMultiple_value_ne_zero ht hc ho hB (hpos i hi))).1, Int.emod_emod]
  have hklen : kshare.length = t := by rw [← hk, List.length_map, hlen]
  have hshares : ∀ s ∈ kshare,
      SharesKey (sharedParams params t n x robustP) (sharePolynomial q m t r) hB s := by
    intro s hs
    rw [← hk] at hs
    obtain ⟨i, hi, rfl⟩ := List.mem_map.1 hs
    exact sharesKey_keyShare hpos ht hc robustP ho hB hi
  have hterm : ∀ j ∈ indices pos,
      term (sharedParams params t n x robustP) (sharePolynomial q m t r) (indices pos) j ≠ 0 := by
    intro j hj
    rw [(term_sharedParams hpos hj).2]
    exact mul_ne_zero (indexWeight_ne_zero hx hxne hpos hj)
      (cast_value_ne_zero ht hc (mem_indices hpos hj).2)
  have hdouble : ∀ j ∈ indices pos, meetsDoubling (weight (indices pos).toFinset
      (fun j => (place (sharedParams params t n x robustP) j : ZMod q)) j).val q = false := by
    intro j hj
    rw [(term_sharedParams (m := m) (r := r) hpos hj).1]
    exact hc.coefficient j hj
  have hsums : ∀ k, 0 < k → k < kshare.length → (((indices pos).take k).map
      (term (sharedParams params t n x robustP) (sharePolynomial q m t r) (indices pos))).sum ≠ 0 := by
    intro k hk0 hkl
    rw [hklen, ← hlen] at hkl
    rw [List.map_congr_left fun j hj => (term_sharedParams hpos (List.mem_of_mem_take hj)).2]
    exact hc.sums_ne_zero k hk0 hkl
  have hzero : (sharePolynomial q m t r).eval 0 = (m : ZMod q) := by
    rw [eval_zero_sharePolynomial ht, Int.cast_natCast]
  have hinj : Set.InjOn (fun j => (place (sharedParams params t n x robustP) j : ZMod q))
      (indices pos).toFinset := by
    refine (injOn_indices hx hxne hpos).congr fun j hj => ?_
    rw [(place_sharedParams hpos (List.mem_toFinset.1 hj)).2]
  have hnodup := hc.nodup
  rw [← hindex] at hterm hdouble hsums hinj hnodup
  rw [ibeCombine_eq (show (sharedParams params t n x robustP).q = q from hpq) hpp hq64 ho hB hshares
    hnodup hinj hterm hdouble (by rw [hklen]; rfl) (by rw [hklen]; exact degree_sharePolynomial) hsums
    (by rw [hzero]; exact FieldExtension.natCast_ne_zero_of_lt hm hmq), hzero, ← Int.cast_natCast,
    residueMultiple_intCast, natCast_zsmul]

end Shares

variable {md : ByteString → ByteString}

include hq64 hqp hpq hpp in
/-- Whatever the key belongs to, combining shares of it gives the key that the
master key leads to. -/
theorem combinedKey_of_mapsTo (ht : 0 < t) (hm : 0 < m) (hmq : m < q)
    (hx : ∀ i < n, 0 < x i ∧ x i < q) (hxne : Set.InjOn x {i | i < n}) (hpos : ∀ i ∈ pos, i < n)
    (hlen : pos.length = t) (hc : ThresholdCondition p q m t n r x pos) {bs : ByteString}
    (hB : MapsTo md params bs q B) (key : ByteString) :
    ibeExtractByteString md (byteStringSetMpz m) bs params =
        some (byteStringSetPoint (ofPoint (m • B))) ∧
      combinedKey (ibeExtractShareByteString md · bs ·) (byteStringSetMpz m) t n params r x pos key =
        some (1, byteStringSetPoint (ofPoint (m • B))) := by
  refine ⟨ibeExtractByteString_eq hq.out hq64 hpp hm hmq hc.master hB, ?_⟩
  have hBq := smul_eq_zero_of_order hB.1
  obtain ⟨robustP, hsplit⟩ := exists_ibeSplitMaster hpq ht hc.share_ne_zero
  have hmap : mapByteStringToPoint md bs (sharedParams params t n x robustP) = some (ofPoint B) := by
    rw [← hB.2, mapByteStringToPoint_eq, mapByteStringToPoint_eq]
    rfl
  have hshares := mapM_eq_some_map (l := pos)
    (f := fun i => do
      ibeExtractShareByteString md (← (masterShares (byteStringSetMpz m) t n params r x)[i]?) bs
        (sharedParams params t n x robustP))
    (g := fun i : Nat => keyShare ((i : Int) % 256)
      (residueMultiple hBq (shareValue m t r (x i) q : ZMod q))) (by
      intro i hi
      rw [getElem?_masterShares (hpos i hi)]
      exact ibeExtractShareByteString_eq hq64 hqp
        (show (sharedParams params t n x robustP).q = q from hpq) hpp ht hc hB.1 hmap hi (hpos i hi) hBq)
  rw [combinedKey, hsplit]
  simp only [Option.bind_eq_bind, Option.bind_some]
  rw [Option.bind_eq_some_iff]
  exact ⟨_, hshares, ibeCombine_keyShares hq64 hpq hpp hx hxne hpos ht hc robustP hB.1 hBq hm hmq hlen
    key⟩

/-- Shares of the key for `id` at the positions `pos` lead to the key itself. -/
def KeyCorrect (md : ByteString → ByteString) (master : ByteString) (t n : Nat) (params : Params)
    (r x : Nat → Int) (pos : List Nat) (id : CString) : Prop :=
  ∃ key, ibeExtract md master id params = some key ∧
    ∀ old, combinedKey (ibeExtractShare md · id ·) master t n params r x pos old = some (1, key)

/-- Shares of the certificate for `pub` and `id` lead to the certificate
itself. -/
def CertificateCorrect (md : ByteString → ByteString) (master : ByteString) (t n : Nat)
    (params : Params) (r x : Nat → Int) (pos : List Nat) (pub : ByteString) (id : CString) : Prop :=
  ∃ cert, ibeCertify md master pub id params = some cert ∧
    ∀ old, combinedKey (ibeCertifyShare md · pub id ·) master t n params r x pos old = some (1, cert)

omit hp hp12 hq in
include hpq in
/-- A share that is zero leaves `IBE_split_master` without a result. -/
theorem KeyCorrect.share_ne_zero {master : ByteString} {id : CString}
    (h : KeyCorrect md master t n params r x pos id) {i : Nat} (hi : i < n) :
    shareValue (mympzInpRaw master) t r (x i) q ≠ 0 := by
  intro h0
  obtain ⟨key, -, hall⟩ := h
  have hkey := hall []
  simp only [combinedKey, ibeSplitMaster, Option.bind_eq_bind, Option.bind_eq_some_iff] at hkey
  obtain ⟨-, ⟨robustP, hr, -⟩, -⟩ := hkey
  have hnone : pointMul (shareValue (mympzInpRaw master) t r (x i) params.q) params.Ppub
      params.curve.p = none := by
    rw [hpq, h0]
    exact pointMul_zero _ _
  have hsome : ∀ l : List Nat, i ∈ l → ∀ Ps, l.mapM (fun i =>
      pointMul (shareValue (mympzInpRaw master) t r (x i) params.q) params.Ppub params.curve.p) ≠
        some Ps := by
    intro l hl
    induction l with
    | nil => exact absurd hl (by simp)
    | cons j l ih =>
        intro Ps hPs
        simp only [List.mapM_cons, Option.bind_eq_bind, Option.bind_eq_some_iff] at hPs
        obtain ⟨R, hR, Rs, hRs, -⟩ := hPs
        rcases List.mem_cons.1 hl with rfl | hl
        · rw [hnone] at hR
          exact absurd hR (by simp)
        · exact ih hl Rs hRs
  exact hsome _ (List.mem_range.2 hi) _ hr

end Threshold

section Main

variable [hq : Fact q.Prime] [hp12 : Fact (p % 12 = 11)]

/-- Threshold extraction agrees with direct extraction, for keys and for
certificates, when no number meets a special case. A zero share always breaks
it. -/
theorem keyCorrect_of_condition (hq64 : 64 < q) (hqp : q ∣ p + 1) {params : Params}
    (hpq : params.q = q) (hpp : params.curve.p = p) {m t n : Nat} (ht : 0 < t) (hm : 0 < m)
    (hmq : m < q) {r x : Nat → Int} (hx : ∀ i < n, 0 < x i ∧ x i < q)
    (hxne : Set.InjOn x {i | i < n}) {pos : List Nat} (hpos : ∀ i ∈ pos, i < n)
    (hlen : pos.length = t) (md : ByteString → ByteString) (id : CString) :
    (ThresholdCondition p q m t n r x pos →
      ((∃ B : E p, MapsTo md params (byteStringSet id) q B) →
        KeyCorrect md (byteStringSetMpz m) t n params r x pos id) ∧
      ∀ pub, (∃ B : E p, MapsTo md params (cryptoVaHash md [pub, byteStringSet id]) q B) →
        CertificateCorrect md (byteStringSetMpz m) t n params r x pos pub id) ∧
    (KeyCorrect md (byteStringSetMpz m) t n params r x pos id →
      ∀ i < n, shareValue m t r (x i) q ≠ 0) := by
  refine ⟨fun hc => ⟨?_, ?_⟩, fun h i hi => ?_⟩
  · rintro ⟨B, hB⟩
    have h := combinedKey_of_mapsTo hq64 hqp hpq hpp ht hm hmq hx hxne hpos hlen hc hB
    exact ⟨_, (h []).1, fun old => (h old).2⟩
  · rintro pub ⟨B, hB⟩
    have h := combinedKey_of_mapsTo hq64 hqp hpq hpp ht hm hmq hx hxne hpos hlen hc hB
    exact ⟨_, (h []).1, fun old => (h old).2⟩
  · have hne := h.share_ne_zero hpq hi
    rwa [inpRaw_setMpz] at hne

end Main

instance fact_prime_67 : Fact (Nat.Prime 67) := ⟨by norm_num⟩

theorem not_meetsDoubling {n : Nat} (hn : n < 67) : meetsDoubling n 67 = false := by
  have h : ∀ n < 67, meetsDoubling n 67 = false := by decide
  exact h n hn

theorem thresholdCondition_gen :
    ThresholdCondition 1607 67 2 2 3 (fun _ => 1) (fun i => i + 1) [2, 0] := by
  refine ⟨?_, by decide, by decide, by decide, by decide, by decide,
    fun j _ => not_meetsDoubling (ZMod.val_lt _), ?_⟩
  · exact le_pow_maxShareBytes (by norm_num)
  · intro k hk0 hk
    obtain rfl : k = 1 := by
      rw [List.length_cons, List.length_singleton] at hk
      omega
    decide +kernel

theorem enough_gen : Enough 1607 67 2 2 3 (fun _ => 1) (fun i => i + 1) [2, 0] where
  toThresholdCondition := thresholdCondition_gen
  sharet_pos := Nat.two_pos
  places_mem _ _ := ⟨by omega, by omega⟩
  injOn _ _ _ _ h := by simpa using h
  pos_lt := by decide
  length_eq := rfl

/-- The polynomial `2 + X`, with the third share before the first. -/
theorem keyCorrect_gen :
    KeyCorrect id (byteStringSetMpz 2) 2 3 genParams (fun _ => 1) (fun i => i + 1) [2, 0] genId := by
  have hq : genParams.q = 67 := by decide
  have hp : genParams.curve.p = 1607 := by decide
  have h := (keyCorrect_of_condition (p := 1607) (q := 67) (m := 2) (t := 2) (n := 3)
    (r := fun _ => 1) (x := fun i => i + 1) (by norm_num) (by norm_num) hq hp
    (by norm_num) (by norm_num) (by norm_num) (fun i hi => ⟨by omega, by omega⟩)
    (fun i _ j _ h => by simpa using h) (show ∀ i ∈ [2, 0], i < 3 by decide) rfl id genId).1
  exact (h thresholdCondition_gen).1 ⟨gen, mapsTo_genId⟩

/-- With the polynomial `2 - 6 X + 2 X ^ 2` the first two shares cancel. -/
theorem not_keyCorrect_gen :
    MapsTo id genParams (byteStringSet genId) 67 gen ∧
      ¬KeyCorrect id (byteStringSetMpz 2) 3 3 genParams (fun j => if j = 1 then 61 else 2)
        (fun i => i + 1) [0, 1, 2] genId := by
  refine ⟨mapsTo_genId, ?_⟩
  rintro ⟨key, hkey, hall⟩
  have hne : (ibeExtract id (byteStringSetMpz 2) genId genParams).map (fun key => ((1 : Int), key)) ≠
      combinedKey (ibeExtractShare id · genId ·) (byteStringSetMpz 2) 3 3 genParams
        (fun j => if j = 1 then 61 else 2) (fun i => i + 1) [0, 1, 2] [] := by
    decide +kernel
  rw [hkey, hall []] at hne
  exact hne rfl

end IdBasedEncryption.ThresholdKeys
