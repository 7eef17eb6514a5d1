import IdBasedEncryption.MasterShares
import IdBasedEncryption.SavedStrings
import IdBasedEncryption.ThresholdKeys

namespace IdBasedEncryption.MasterFiles

open Polynomial Gmp ByteStrings PointBytes FuelLoops Stdio IbeLib Interpolation MasterShares CurvePoints
open ThresholdKeys ScalarMultiples Format CryptFiles SavedStrings

variable {E D : Type} (mime : Mime E D)

section Model

/-- The shares are saved one after the other, as long as their files can be opened.
There is no result without a name for every share. -/
def saveShares : List CString → List ByteString → Disk → Option (Int × Disk)
  | _, [], disk => some (1, disk)
  | [], _ :: _, _ => none
  | fname :: fnames, share :: shares, disk =>
      let r := fmtSaveByteString mime disk fname share
      if 1 ≠ r.1 then some (0, r.2) else saveShares fnames shares r.2

/-- The returned number comes with the parameters, which `IBE_split_master` has
written the public part of the shares to. -/
def fmtSplitMaster (fname : List CString) (master : ByteString) (t n : Nat) (params : Params)
    (r x : Nat → Int) (disk : Disk) : Option (Int × Params × Disk) := do
  let (mshare, params) ← ibeSplitMaster master t n params r x
  let (result, disk) ← saveShares mime fname mshare disk
  return (result, params, disk)

/-- The byte strings in the files, unless one of them cannot be opened. -/
def loadShares (disk : Disk) : List CString → Nat → Option (Option (List ByteString))
  | [], _ => some (some [])
  | fname :: fnames, fuel =>
      (fmtLoadByteString mime disk fname fuel).bind fun r =>
        if 1 ≠ r.1.1 then some none
        else (loadShares disk fnames fuel).map (Option.map (r.1.2 :: ·))

/-- The names are `t`, and nothing compares their number with the threshold. The result
of `IBE_construct_master` is not looked at. -/
def fmtConstructMaster (fname : List CString) (params : Params) (disk : Disk) (fuel : Nat) :
    Option (Int × ByteString) :=
  (loadShares mime disk fname fuel).bind fun loaded =>
    match loaded with
    | none => some (0, [])
    | some mshare => (ibeConstructMaster mshare params).map fun r => (1, r.2)

end Model

variable {mime} {disk disk' : Disk} {fname : List CString} {shares : List ByteString}

section Save

theorem fmtSaveByteString_of_writable (mime : Mime E D) {f : CString} (hw : disk.writable f = true) (bs : ByteString) :
    fmtSaveByteString mime disk f bs = (1, { disk with
      files := Function.update disk.files f (some (mimePut mime bs)), written := f :: disk.written }) :=
  if_pos hw

/-- What the disk holds once the shares are saved. -/
structure Saved (mime : Mime E D) (fname : List CString) (shares : List ByteString)
    (disk disk' : Disk) : Prop where
  files_eq : ∀ i (hi : i < fname.length) (hi' : i < shares.length),
    disk'.files fname[i] = some (mimePut mime shares[i])
  others : ∀ f ∉ fname, disk'.files f = disk.files f
  writable_eq : disk'.writable = disk.writable

theorem saveShares_eq (mime : Mime E D) (hnodup : fname.Nodup) (hlen : shares.length = fname.length)
    (hw : ∀ f ∈ fname, disk.writable f = true) :
    ∃ disk', saveShares mime fname shares disk = some (1, disk') ∧ Saved mime fname shares disk disk' := by
  induction fname generalizing shares disk with
  | nil =>
      obtain rfl := List.length_eq_zero_iff.1 hlen
      exact ⟨disk, rfl, fun i hi => absurd hi (Nat.not_lt_zero i), fun _ _ => rfl, rfl⟩
  | cons f fs ih =>
      obtain ⟨hf, hfs⟩ := List.nodup_cons.1 hnodup
      obtain ⟨share, shares, rfl⟩ := List.exists_cons_of_length_eq_add_one hlen
      have hsave := fmtSaveByteString_of_writable mime (hw f List.mem_cons_self) share
      have hwfs : ∀ g ∈ fs, (fmtSaveByteString mime disk f share).2.writable g = true := by
        intro g hg
        rw [hsave]
        exact hw g (List.mem_cons_of_mem _ hg)
      obtain ⟨disk', hrun, hsaved⟩ := ih hfs (Nat.succ.inj hlen) hwfs
      refine ⟨disk', ?_, ?_, fun g hg => ?_, ?_⟩
      · rw [saveShares]
        simp only [hsave, ne_eq, not_true_eq_false, if_false] at hrun ⊢
        exact hrun
      · intro i hi hi'
        cases i with
        | zero =>
            have hfile := hsaved.others f hf
            rw [hsave] at hfile
            exact hfile.trans (Function.update_self ..)
        | succ i => exact hsaved.files_eq i (Nat.lt_of_succ_lt_succ hi) (Nat.lt_of_succ_lt_succ hi')
      · obtain ⟨hgf, hgfs⟩ := not_or.1 (List.mem_cons.not.1 hg)
        rw [hsaved.others g hgfs, hsave]
        exact Function.update_of_ne hgf _ _
      · rw [hsaved.writable_eq, hsave]

end Save

section Load

variable (hmime : Streaming mime)
include hmime

theorem returns_fmtLoadByteString {f : CString} {bs : ByteString}
    (hfile : disk.files f = some (mimePut mime bs)) (hle : bs.length ≤ maxLoaded) :
    ∃ writes, Returns (fmtLoadByteString mime disk f) ((1, bs), writes) ∧ InBuffer writes := by
  obtain ⟨writes, hget, hwrites⟩ := returns_mimeGetBuffer hmime hle
  rw [mimePut_eq hmime.toLossless] at hfile
  refine ⟨writes, ?_, hwrites⟩
  unfold fmtLoadByteString
  simp only [hfile]
  exact hget.map _

theorem returns_loadShares_files {shares : List ByteString}
    (h : List.Forall₂ (fun f share => disk.files f = some (mimePut mime share) ∧
      share.length ≤ maxLoaded) fname shares) :
    Returns (loadShares mime disk fname) (some shares) := by
  induction h with
  | nil => exact returns_some _
  | @cons f share fs shares hf _ ih =>
      obtain ⟨writes, hload, -⟩ := returns_fmtLoadByteString hmime hf.1 hf.2
      have hround : loadShares mime disk (f :: fs) = fun fuel =>
          (fmtLoadByteString mime disk f fuel).bind fun r => if 1 ≠ r.1.1 then some none
            else (loadShares mime disk fs fuel).map (Option.map (r.1.2 :: ·)) := rfl
      rw [hround]
      exact hload.bind (ih.map _)

end Load

section Construct

variable {q : Nat} [hq : Fact q.Prime] {params : Params} (hpq : params.q = q)
include hpq

variable {m t n : Nat} {r x : Nat → Int} (robustP : List Point)

/-- The share at a position, as it is read back. -/
theorem sharesValue_masterShare (ht : 0 < t) (hn : n ≤ 256) (hsize : q ≤ 256 ^ maxShareBytes) {i : Nat}
    (hi : i < n) :
    shareIndex (masterShare (byteStringSetMpz m) t params r x i) = i ∧
      SharesValue (sharedParams params t n x robustP) (sharePolynomial q m t r)
        (masterShare (byteStringSetMpz m) t params r x i) := by
  have hmem := shareValue_mem (q := q) (m := m) (r := r) ht (x i)
  have hval : ((sharePolynomial q m t r).eval (x i : ZMod q)).val = shareValue m t r (x i) q := by
    refine eq_of_cast_eq ⟨Int.natCast_nonneg _, Int.ofNat_lt.2 (ZMod.val_lt _)⟩ hmem ?_
    rw [Int.cast_natCast, ZMod.natCast_zmod_val, cast_shareValue]
  obtain ⟨y, hy⟩ := Int.eq_ofNat_of_zero_le hmem.1
  have hlen : (byteStringSetMpz (shareValue m t r (x i) q)).length < 2 ^ 16 := by
    rw [hy] at hmem ⊢
    rw [length_setMpz]
    refine (mympzSizeinbytes_le (k := maxShareBytes) (by decide) ?_).trans_lt (by decide)
    exact (Int.ofNat_lt.1 hmem.2).trans_le hsize
  have h4 : (byteStringSetInt i).length < 2 ^ 16 := by
    rw [byteStringSetInt]
    norm_num
  have hsplit : byteStringSplit (masterShare (byteStringSetMpz m) t params r x i) =
      (byteStringSetInt i, byteStringSetMpz (shareValue m t r (x i) q)) := by
    rw [masterShare, inpRaw_setMpz, hpq]
    exact split_join h4 hlen
  have hindex : shareIndex (masterShare (byteStringSetMpz m) t params r x i) = i := by
    rw [shareIndex, hsplit, intFromByteString_setInt]
    omega
  refine ⟨hindex, x i, ?_, ?_⟩
  · rw [hindex]
    exact robustxAt_sharedParams hi
  · rw [hsplit, hval]
    exact inpRaw_setMpz_of_nonneg hmem.1

/-- Shares at different positions, as many as the threshold asks for, make up the
master key. -/
theorem ibeConstructMaster_masterShares (ht : 0 < t) (hn : n ≤ 256)
    (hsize : q ≤ 256 ^ maxShareBytes) (hx : ∀ i < n, 0 ≤ x i ∧ x i < q)
    (hinj : Set.InjOn x {i | i < n}) (hm : m < q) {pos : List Nat} (hnodup : pos.Nodup)
    (hpos : ∀ i ∈ pos, i < n) (hlen : pos.length = t) :
    ibeConstructMaster (pos.map (masterShare (byteStringSetMpz m) t params r x))
      (sharedParams params t n x robustP) = some (1, byteStringSetMpz m) := by
  obtain ⟨shares, hshares⟩ : ∃ shares,
      pos.map (masterShare (byteStringSetMpz m) t params r x) = shares := ⟨_, rfl⟩
  have hindex : shares.map shareIndex = pos.map fun i : Nat => (i : Int) := by
    rw [← hshares, List.map_map]
    exact List.map_congr_left fun i hi => (sharesValue_masterShare hpq robustP ht hn hsize
      (hpos i hi)).1
  have hvalues : ∀ s ∈ shares, SharesValue (sharedParams params t n x robustP)
      (sharePolynomial q m t r) s := by
    intro s hs
    rw [← hshares] at hs
    obtain ⟨i, hi, rfl⟩ := List.mem_map.1 hs
    exact (sharesValue_masterShare hpq robustP ht hn hsize (hpos i hi)).2
  have hplace : ∀ i ∈ pos, place (sharedParams params t n x robustP) (i : Int) = x i := by
    intro i hi
    rw [place, robustxAt_sharedParams (hpos i hi)]
    rfl
  have hindices : (shares.map shareIndex).Nodup := by
    rw [hindex]
    exact hnodup.map fun i j h => Int.ofNat.inj h
  have hplaces : Set.InjOn (fun j => (place (sharedParams params t n x robustP) j : ZMod q))
      (shares.map shareIndex).toFinset := by
    intro j hj j' hj' h
    rw [hindex] at hj hj'
    obtain ⟨i, hi, rfl⟩ := List.mem_map.1 (List.mem_toFinset.1 hj)
    obtain ⟨i', hi', rfl⟩ := List.mem_map.1 (List.mem_toFinset.1 hj')
    simp only [hplace i hi, hplace i' hi'] at h
    exact congrArg _ (hinj (hpos i hi) (hpos i' hi') (eq_of_cast_eq (hx i (hpos i hi))
      (hx i' (hpos i' hi')) h))
  have hslen : shares.length = t := by rw [← hshares, List.length_map, hlen]
  have hzero : (sharePolynomial q m t r).eval 0 = (m : ZMod q) := by
    rw [eval_zero_sharePolynomial ht, Int.cast_natCast]
  rw [hshares, ibeConstructMaster_of_injOn (show (sharedParams params t n x robustP).q = q from hpq)
    (by rw [hslen]; rfl) (by rw [hslen]; exact degree_sharePolynomial) hvalues hindices hplaces, hzero,
    ZMod.val_natCast_of_lt hm]

end Construct

section Main

variable {q : Nat} [hq : Fact q.Prime] {params : Params} {m t n : Nat} {r x : Nat → Int}

/-- The positions of some of the names. -/
theorem forall₂_idxOf {names : List CString} (hsub : names ⊆ fname) :
    List.Forall₂ (fun f i => fname[i]? = some f) names (names.map (fname.idxOf ·)) := by
  rw [List.forall₂_map_right_iff, List.forall₂_same]
  intro f hf
  have hlt := List.idxOf_lt_length_of_mem (hsub hf)
  rw [List.getElem?_eq_getElem hlt, List.getElem_idxOf hlt]

theorem nodup_idxOf {names : List CString} (hnodup : names.Nodup) (hsub : names ⊆ fname) :
    (names.map (fname.idxOf ·)).Nodup := by
  refine hnodup.map_on fun f hf g hg h => ?_
  rw [← List.getElem_idxOf (List.idxOf_lt_length_of_mem (hsub hf)),
    ← List.getElem_idxOf (List.idxOf_lt_length_of_mem (hsub hg))]
  simp only [h]

theorem lt_of_mem_idxOf {names : List CString} (hsub : names ⊆ fname) {i : Nat}
    (hi : i ∈ names.map (fname.idxOf ·)) : i < fname.length := by
  obtain ⟨f, hf, rfl⟩ := List.mem_map.1 hi
  exact List.idxOf_lt_length_of_mem (hsub hf)

theorem length_masterShare_le (hpq : params.q = q) (ht : 0 < t) (hsize : q ≤ 256 ^ maxShareBytes)
    (i : Nat) : (masterShare (byteStringSetMpz m) t params r x i).length ≤ maxLoaded := by
  have hmem := shareValue_mem (q := q) (m := m) (r := r) ht (x i)
  obtain ⟨y, hy⟩ := Int.eq_ofNat_of_zero_le hmem.1
  have hlen : (byteStringSetMpz (y : Int)).length ≤ maxShareBytes := by
    rw [hy] at hmem
    rw [length_setMpz]
    exact mympzSizeinbytes_le (by decide) ((Int.ofNat_lt.1 hmem.2).trans_le hsize)
  have h4 : (byteStringSetInt i).length = 4 := rfl
  have hmax : maxShareBytes + 10 ≤ maxLoaded := by decide
  rw [masterShare, inpRaw_setMpz, hpq, length_join, h4, hy]
  omega

theorem fmtSplitMaster_eq (mime : Mime E D) (hpq : params.q = q) (ht : 0 < t)
    (hne : ∀ i < n, shareValue m t r (x i) q ≠ 0) (hnodup : fname.Nodup) (hlen : fname.length = n)
    (hw : ∀ f ∈ fname, disk.writable f = true) :
    ∃ robustP disk', ibeSplitMaster (byteStringSetMpz m) t n params r x =
        some (masterShares (byteStringSetMpz m) t n params r x, sharedParams params t n x robustP) ∧
      fmtSplitMaster mime fname (byteStringSetMpz m) t n params r x disk =
        some (1, sharedParams params t n x robustP, disk') ∧
      Saved mime fname (masterShares (byteStringSetMpz m) t n params r x) disk disk' := by
  obtain ⟨robustP, hsplit⟩ := exists_ibeSplitMaster hpq ht hne
  have hslen : (masterShares (byteStringSetMpz m) t n params r x).length = fname.length := by
    rw [masterShares, List.length_map, List.length_range, hlen]
  obtain ⟨disk', hsave, hsaved⟩ := saveShares_eq mime hnodup hslen hw
  refine ⟨robustP, disk', hsplit, ?_, hsaved⟩
  simp only [fmtSplitMaster, hsplit, Option.bind_eq_bind, Option.bind_some, hsave]
  rfl

omit hq in
theorem Saved.masterShare_eq (h : Saved mime fname (masterShares (byteStringSetMpz m) t n params r x)
    disk disk') (hlen : fname.length = n) {i : Nat} {f : CString} (hf : fname[i]? = some f) :
    disk'.files f = some (mimePut mime (masterShare (byteStringSetMpz m) t params r x i)) := by
  obtain ⟨hi, rfl⟩ := List.getElem?_eq_some_iff.1 hf
  have hin : i < n := hlen ▸ hi
  have hslen : i < (masterShares (byteStringSetMpz m) t n params r x).length := by
    rwa [masterShares, List.length_map, List.length_range]
  have hget : (masterShares (byteStringSetMpz m) t n params r x)[i]? =
      some (masterShare (byteStringSetMpz m) t params r x i) := getElem?_masterShares hin
  rw [List.getElem?_eq_getElem hslen] at hget
  rw [h.files_eq i hi hslen, Option.some.inj hget]

theorem Saved.returns_fmtConstructMaster
    (h : Saved mime fname (masterShares (byteStringSetMpz m) t n params r x) disk disk') (hmime : Streaming mime) (hpq : params.q = q) (ht : 0 < t) (hn : n ≤ 256)
    (hsize : q ≤ 256 ^ maxShareBytes) (hx : ∀ i < n, 0 ≤ x i ∧ x i < q)
    (hinj : Set.InjOn x {i | i < n}) (hm : m < q) (hlen : fname.length = n) (robustP : List Point)
    {names : List CString} (hnames : names.Nodup) (hsub : names ⊆ fname) (ht' : names.length = t) :
    Returns (fmtConstructMaster mime names (sharedParams params t n x robustP) disk')
      (1, byteStringSetMpz m) := by
  have hrel := forall₂_idxOf hsub
  obtain ⟨pos, hpos⟩ : ∃ pos, names.map (fname.idxOf ·) = pos := ⟨_, rfl⟩
  have hplen : pos.length = t := by rw [← hpos, List.length_map, ht']
  have hpnodup := nodup_idxOf hnames hsub
  have hlt : ∀ i ∈ pos, i < n := fun i hi => hlen ▸ lt_of_mem_idxOf hsub (hpos.symm ▸ hi)
  rw [hpos] at hrel hpnodup
  have hfiles : List.Forall₂ (fun f share => disk'.files f = some (mimePut mime share) ∧
      share.length ≤ maxLoaded) names
      (pos.map (masterShare (byteStringSetMpz m) t params r x)) := by
    rw [List.forall₂_map_right_iff]
    exact hrel.imp fun f i hfi => ⟨h.masterShare_eq hlen hfi, length_masterShare_le hpq ht hsize i⟩
  have hload := returns_loadShares_files hmime hfiles
  have hconstruct := ibeConstructMaster_masterShares (r := r) hpq robustP ht hn hsize
    hx hinj hm hpnodup hlt hplen
  refine hload.bind ?_
  simp only [hconstruct]
  exact returns_some _

/-- Any files of a number that reaches the threshold, in any order, give back the
master key that has been split into them. -/
theorem fmtConstructMaster_split (hmime : Streaming mime) (hpq : params.q = q) (ht : 0 < t)
    (hn : n ≤ 256) (hsize : q ≤ 256 ^ maxShareBytes) (hx : ∀ i < n, 0 ≤ x i ∧ x i < q)
    (hinj : Set.InjOn x {i | i < n}) (hm : m < q) (hne : ∀ i < n, shareValue m t r (x i) q ≠ 0)
    (hnodup : fname.Nodup) (hlen : fname.length = n) (hw : ∀ f ∈ fname, disk.writable f = true) :
    ∃ shared disk', fmtSplitMaster mime fname (byteStringSetMpz m) t n params r x disk =
        some (1, shared, disk') ∧ (∀ f ∉ fname, disk'.files f = disk.files f) ∧
      ∀ names : List CString, names.Nodup → names ⊆ fname → names.length = t →
        Returns (fmtConstructMaster mime names shared disk') (1, byteStringSetMpz m) := by
  obtain ⟨robustP, disk', -, hrun, hsaved⟩ := fmtSplitMaster_eq mime hpq ht hne hnodup hlen hw
  refine ⟨_, disk', hrun, hsaved.others, fun names hnames hsub ht' => ?_⟩
  exact hsaved.returns_fmtConstructMaster hmime hpq ht hn hsize hx hinj hm hlen robustP hnames hsub
    ht'

end Main

section Sample

open KeyEncapsulation

def sampleNames : List CString :=
  [charstarFromByteString (bytes "a"), charstarFromByteString (bytes "b"),
    charstarFromByteString (bytes "c")]

/-- The first and the last of three files. -/
theorem fmtConstructMaster_split_gen : ∃ shared disk', fmtSplitMaster base64 sampleNames
      (byteStringSetMpz 2) 2 3 genParams (fun _ => 1) (fun i => i + 1) emptyDisk =
        some (1, shared, disk') ∧
      Returns (fmtConstructMaster base64 [charstarFromByteString (bytes "c"),
        charstarFromByteString (bytes "a")] shared disk') (1, byteStringSetMpz 2) := by
  have hpq : genParams.q = (67 : Nat) := by decide
  have hlen : sampleNames.length = 3 := rfl
  have hw : ∀ f ∈ sampleNames, emptyDisk.writable f = true := fun _ _ => rfl
  obtain ⟨shared, disk', hrun, -, hconstruct⟩ := fmtConstructMaster_split (m := 2) (t := 2)
    (r := fun _ => 1) (x := fun i => i + 1) streaming_base64 hpq (by norm_num) (by norm_num)
    (le_pow_maxShareBytes (by norm_num)) (fun i hi => ⟨by omega, by omega⟩)
    (fun i _ j _ h => by simpa using h) (by norm_num) (by decide) (by decide) hlen hw
  exact ⟨shared, disk', hrun, hconstruct _ (by decide) (by decide) rfl⟩

end Sample

end IdBasedEncryption.MasterFiles
