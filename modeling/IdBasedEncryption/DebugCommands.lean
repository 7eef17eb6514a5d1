import IdBasedEncryption.Generation
import IdBasedEncryption.KeyShareMails

namespace IdBasedEncryption.DebugCommands

open CurvePoints MordellGroup PointValues ScalarMultiples CofactorMultiples ByteStrings PointBytes IbeLib
open KeyEncapsulation FuelLoops Stdio WholeLines Format CryptFiles SavedStrings Crypto AuthenticatedStreams
open RecipientSearch HiddenKeys MailedMessages KeyShareMails CombineCommand MasterShares ThresholdKeys
open MasterFiles

variable {E D Cipher Mac : Type}

section Model

variable (mime : Mime E D) (lib : Openssl Cipher Mac) (md : ByteString → ByteString)

/-- The password that the commands for debugging use for every file. -/
def password : CString := charstarFromByteString (bytes "password")

/-- A digit of `%02X`. -/
def hexDigit (d : UInt8) : UInt8 := if d < 10 then 48 + d else 55 + d

/-- `byte_string_fprintf` with the format that `extract` has for its key. -/
def byteStringFprintf (bs : ByteString) : ByteString :=
  bs.flatMap fun b => [32, hexDigit (b / 16), hexDigit (b % 16)]

/-- What is printed for a share of the master key. Nothing looks at the result of
loading it, and without a file the stack decides. -/
def extractShare (salt : ByteString) (year : CString) (params : Params) (mshare : ByteString)
    (disk : Disk) (argv : List CString) (fuel : Nat) : Option (Int × ByteString) :=
  match argv with
  | _ :: addr :: sfile :: _ =>
      (fmtLoadByteString mime disk sfile fuel).bind fun r =>
        let mshare := if r.1.1 = 0 then mshare else r.1.2
        (ibeExtractShare md mshare (idOf year params addr) params).map fun kshare =>
          (0, fmtCryptSaveFp mime lib salt kshare password)
  | _ => some (1, [])

/-- The key for an address from as many shares of the master key as are needed, with
what is printed. -/
def extract (salt : ByteString) (year : CString) (params : Params) (privkeyfile : CString) (disk : Disk)
    (argv : List CString) (fuel : Nat) : Option (Int × ByteString × Disk) :=
  match argv with
  | _ :: addr :: sfile :: sfiles =>
      if (argv.length : Int) - 2 < params.sharet then some (1, [], disk)
      else
        (fmtConstructMaster mime ((sfile :: sfiles).take params.sharet.toNat) params disk fuel).bind fun r =>
          if r.1 = 0 then some (1, [], disk)
          else
            (ibeExtract md r.2 (idOf year params addr) params).map fun key =>
              (0, byteStringFprintf key, (fmtCryptSave mime lib salt disk privkeyfile key password).2)
  | _ => some (1, [], disk)

/-- The same as `decrypt`, but nothing looks at the result of the decryption. -/
def fixedPasswordDecrypt (year : CString) (params : Params) (privkeyfile : CString) (disk : Disk)
    (stack : Stack) (argv : List CString) (input : ByteString) (fuel : Nat) : Option (Int × ByteString) :=
  match argv with
  | _ :: addr :: _ =>
      (fmtCryptLoad mime lib disk privkeyfile password fuel).bind fun k =>
        if k.1 ≠ 1 then some (1, [])
        else
          (fmtDecryptStream mime (streamOf lib []) (ibeRevealKey lib md · · k.2 params) stack
            (idOf year params addr) ⟨input, false⟩ fuel).map fun r => (0, r.1)
  | _ => some (1, bytes "Usage: fixed_password_decrypt ID\n\nDecrypts stdin and prints on stdout\n" ++
      bytes "Reads private key from file specified in config file\n" ++
      bytes "Assumes file has been encrypted with \"password\"\n")

end Model

section Commands

variable {mime : Mime E D} {lib : Openssl Cipher Mac} {md : ByteString → ByteString} {year : CString}
  {params : Params} {privkeyfile cmd addr : CString} {disk disk' : Disk} {stack : Stack}

/-- What `decrypt` prints for the password, this command prints. -/
theorem returns_fixedPasswordDecrypt {input out : ByteString}
    (h : Returns (decrypt mime lib md year params privkeyfile (some password) disk stack [cmd, addr] input)
      (0, out)) :
    Returns (fixedPasswordDecrypt mime lib md year params privkeyfile disk stack [cmd, addr] input)
      (0, out) := by
  obtain ⟨n, hn⟩ := h
  refine ⟨n, fun m hm => ?_⟩
  have hrun := hn m hm
  simp only [decrypt, List.getElem?_cons_succ, List.getElem?_cons_zero, Option.bind_eq_some_iff] at hrun
  obtain ⟨k, hk, hrun⟩ := hrun
  simp only [fixedPasswordDecrypt, hk, Option.bind_some]
  split at hrun
  · cases hrun
  · next hone =>
      obtain ⟨r, hr, hout⟩ := Option.map_eq_some_iff.1 hrun
      rw [if_neg hone, hr, Option.map_some, (Prod.mk.inj hout).2]

theorem files_fmtCryptSave (lib : Openssl Cipher Mac) (hw : disk.writable privkeyfile = true) (salt key : ByteString) (pw : CString) :
    (fmtCryptSave mime lib salt disk privkeyfile key pw).2.files = Function.update disk.files privkeyfile
      (some (fmtCryptSaveFp mime lib salt key pw)) := by
  rw [fmtCryptSave, if_pos hw]
  rfl

theorem writable_fmtCryptSave (lib : Openssl Cipher Mac) (salt key : ByteString) (pw : CString) :
    (fmtCryptSave mime lib salt disk privkeyfile key pw).2.writable = disk.writable := by
  rw [fmtCryptSave]
  split <;> rfl

/-- Only the files that are named are read. -/
theorem fmtConstructMaster_congr {names : List CString}
    (h : ∀ f ∈ names, disk'.files f = disk.files f) :
    fmtConstructMaster mime names params disk' = fmtConstructMaster mime names params disk := by
  have hload : MasterFiles.loadShares mime disk' names = MasterFiles.loadShares mime disk names := by
    induction names with
    | nil => rfl
    | cons f fs ih =>
        funext fuel
        have hf := h f List.mem_cons_self
        have hfs := ih fun g hg => h g (List.mem_cons_of_mem _ hg)
        simp only [MasterFiles.loadShares, fmtLoadByteString, hf, hfs]
  funext fuel
  rw [fmtConstructMaster, hload, fmtConstructMaster]

theorem returns_extract (lib : Openssl Cipher Mac) (privkeyfile cmd : CString)
    {names : List CString} (more : List CString) {master key : ByteString} {t : Nat} (ht : 0 < t)
    (hsharet : params.sharet = t) (hlen : names.length = t)
    (hmaster : Returns (fmtConstructMaster mime names params disk) (1, master))
    (hkey : ibeExtract md master (idOf year params addr) params = some key) (salt : ByteString) :
    Returns (extract mime lib md salt year params privkeyfile disk (cmd :: addr :: (names ++ more)))
      (0, byteStringFprintf key, (fmtCryptSave mime lib salt disk privkeyfile key password).2) := by
  obtain ⟨f, fs, rfl⟩ := List.exists_cons_of_length_pos (hlen ▸ ht)
  have htake : (f :: (fs ++ more)).take params.sharet.toNat = f :: fs := by
    rw [hsharet, Int.toNat_natCast, ← List.cons_append, List.take_left' hlen]
  have henough : ¬((cmd :: addr :: f :: (fs ++ more)).length : Int) - 2 < params.sharet := by
    rw [hsharet, ← hlen]
    simp only [List.length_cons, List.length_append]
    omega
  unfold extract
  simp only [List.cons_append, if_neg henough, htake]
  refine hmaster.bind ?_
  simp only [one_ne_zero, if_false, hkey]
  exact returns_some _

theorem returns_extractShare {sfile : CString} {more : List CString} {mshare kshare : ByteString}
    {writes : List (Nat × Nat)}
    (hload : Returns (fmtLoadByteString mime disk sfile) ((1, mshare), writes))
    (hshare : ibeExtractShare md mshare (idOf year params addr) params = some kshare)
    (salt old : ByteString) :
    Returns (extractShare mime lib md salt year params old disk (cmd :: addr :: sfile :: more))
      (0, fmtCryptSaveFp mime lib salt kshare password) := by
  refine hload.bind ?_
  simp only [one_ne_zero, if_false, hshare]
  exact returns_some _

end Commands

section Routes

variable {mime : Mime E D} {lib : Openssl Cipher Mac} {md : ByteString → ByteString} {year : CString}
  {params : Params} {privkeyfile addr : CString} {disk : Disk} {passwords : Passwords}

/-- A file with what `extract_share` has printed for a share file. -/
structure Printed (mime : Mime E D) (lib : Openssl Cipher Mac) (md : ByteString → ByteString)
    (year : CString) (params : Params) (addr : CString) (disk : Disk) (sfile : CString)
    (contents : Option ByteString) : Prop where
  exists_text : ∃ salt old cmd more text, salt.length = lib.ivLength ∧
    Returns (extractShare mime lib md salt year params old disk (cmd :: addr :: sfile :: more)) (0, text) ∧
    contents = some text

/-- The key that `extract` saves with the share files is the one that `combine` saves
with what `extract_share` has printed for them. -/
structure RoutesAgree (mime : Mime E D) (lib : Openssl Cipher Mac) (md : ByteString → ByteString)
    (salt : ByteString) (year : CString) (params : Params) (privkeyfile addr : CString) (disk : Disk)
    (names : List CString) : Prop where
  prints : ∀ f ∈ names, ∀ salt old cmd more, salt.length = lib.ivLength → ∃ text,
    Returns (extractShare mime lib md salt year params old disk (cmd :: addr :: f :: more)) (0, text)
  agree : ∃ text disk', (∀ cmd more, Returns (extract mime lib md salt year params privkeyfile disk
      (cmd :: addr :: (names ++ more))) (0, text, disk')) ∧
    ∀ (disk₂ : Disk) (ksfiles : List CString), List.Forall₂ (fun f ksfile =>
        Printed mime lib md year params addr disk f (disk₂.files ksfile)) names ksfiles →
      disk₂.writable privkeyfile = true → ∀ old cmd id more, ∃ disk₃,
        Returns (combine mime lib salt params privkeyfile old (fun _ => some password) disk₂
          (cmd :: id :: (ksfiles ++ more))) (0, disk₃) ∧
        disk₃.files privkeyfile = disk'.files privkeyfile

theorem Printed.returns_fmtCryptLoad (hmime : Lossless mime) (hlib : Inverse lib)
    (h0 : 0 < lib.ivLength) (hlt : lib.ivLength < lib.mdLength) {disk₂ : Disk} {f ksfile : CString}
    {mshare kshare : ByteString} {writes : List (Nat × Nat)}
    (h : Printed mime lib md year params addr disk f (disk₂.files ksfile))
    (hload : Returns (fmtLoadByteString mime disk f) ((1, mshare), writes))
    (hshare : ibeExtractShare md mshare (idOf year params addr) params = some kshare) :
    Returns (fmtCryptLoad mime lib disk₂ ksfile password) (1, kshare) := by
  obtain ⟨salt, old, cmd, more, text, hsalt, hrun, hfile⟩ := h.exists_text
  obtain ⟨-, rfl⟩ := Prod.mk.inj (hrun.unique (returns_extractShare hload hshare salt old))
  refine returns_fmtCryptLoad_mail hmime hlib h0 hlt hsalt .nil (Or.inl rfl) ?_
  rw [hfile, List.nil_append, List.append_nil]

/-- The command with files that hold the shares of a key. -/
theorem returns_combine_files {ksfiles more : List CString} {kshare : List ByteString}
    {key old : ByteString} (hsharet : params.sharet = kshare.length) (hpos : 0 < kshare.length)
    (hlen : ksfiles.length = kshare.length)
    (hload : ∀ k (hk : k < ksfiles.length) (hk' : k < kshare.length),
      Returns (fmtCryptLoad mime lib disk ksfiles[k] password) (1, kshare[k]))
    (hcombine : ibeCombine old kshare params = some (1, key))
    (hw : disk.writable privkeyfile = true) (salt : ByteString) (cmd id : CString) :
    Returns (combine mime lib salt params privkeyfile old (fun _ => some password) disk
        (cmd :: id :: (ksfiles ++ more)))
      (0, (fmtCryptSave mime lib salt disk privkeyfile key password).2) := by
  have harg : (cmd :: id :: (ksfiles ++ more)).length = kshare.length + more.length + 2 := by
    simp only [List.length_cons, List.length_append, hlen]
  refine returns_combine (by omega) hsharet ⟨by omega, fun k hk => ?_, rfl, hw⟩ hcombine salt rfl
  have hk' : k < ksfiles.length := hlen ▸ hk
  refine ⟨password, ksfiles[k], rfl, ?_, hload k hk' hk⟩
  rw [List.getElem?_cons_succ, List.getElem?_cons_succ, List.getElem?_append_left hk',
    List.getElem?_eq_getElem hk']

variable {p : Nat} [hp : Fact p.Prime] {q : Nat} [hq : Fact q.Prime] [hp12 : Fact (p % 12 = 11)]

/-- With the master key or without it, the same key is saved. -/
theorem combine_extract (md : ByteString → ByteString) (year : CString) (hmime : Streaming mime)
    (hlib : Inverse lib) (h0 : 0 < lib.ivLength) (hlt : lib.ivLength < lib.mdLength) (hq64 : 64 < q) (hqp : 12 * q ∣ p + 1) (hpq : params.q = q)
    (hpp : params.curve.p = p) {m t n : Nat} (ht : 0 < t) (hn : n ≤ 256) (hm : 0 < m) (hmq : m < q)
    {r x : Nat → Int} (hx : ∀ i < n, 0 < x i ∧ x i < q) (hinj : Set.InjOn x {i | i < n})
    (hne : ∀ i < n, shareValue m t r (x i) q ≠ 0) {fname : List CString} (hnodup : fname.Nodup)
    (hlen : fname.length = n) (hw : ∀ f ∈ fname, disk.writable f = true) :
    ∃ shared disk', fmtSplitMaster mime fname (byteStringSetMpz m) t n params r x disk =
        some (1, shared, disk') ∧
      ∀ {names : List CString}, names.Nodup → names ⊆ fname → names.length = t →
        ThresholdCondition p q m t n r x (names.map (fname.idxOf ·)) → ∀ {addr : CString},
        (∃ B : MordellGroup.E p, MapsTo md params (byteStringSet (idOf year shared addr)) q B) →
        ∀ {privkeyfile : CString}, disk.writable privkeyfile = true → ∀ {salt : ByteString},
        salt.length = lib.ivLength →
          RoutesAgree mime lib md salt year shared privkeyfile addr disk' names := by
  obtain ⟨robustP, disk', -, hrun, hsaved⟩ := fmtSplitMaster_eq mime hpq ht hne hnodup hlen hw
  refine ⟨_, disk', hrun, fun {names} hnames hsub ht' hc addr ⟨B, hB⟩ privkeyfile hwk salt hsalt => ?_⟩
  have hwp : disk'.writable privkeyfile = true := by rw [hsaved.writable_eq, hwk]
  have hqle : q ≤ p := by
    have hpos := hp.out.pos
    have hle := Nat.le_of_dvd p.succ_pos hqp
    omega
  have hsize := hqle.trans hc.size
  have hBq := smul_eq_zero_of_order hB.1
  have hrel := forall₂_idxOf hsub
  obtain ⟨pos, hpos⟩ : ∃ pos, names.map (fname.idxOf ·) = pos := ⟨_, rfl⟩
  have hplen : pos.length = t := by rw [← hpos, List.length_map, ht']
  have hlt' : ∀ i ∈ pos, i < n := fun i hi => hlen ▸ lt_of_mem_idxOf hsub (hpos.symm ▸ hi)
  rw [hpos] at hrel hc
  obtain ⟨kshare, hkshare⟩ : ∃ kshare, pos.map (fun i : Nat => keyShare ((i : Int) % 256)
      (residueMultiple hBq (shareValue m t r (x i) q : ZMod q))) = kshare := ⟨_, rfl⟩
  have hklen : kshare.length = t := by rw [← hkshare, List.length_map, hplen]
  have hshares : ∀ k (hk : k < names.length) (hk' : k < kshare.length), ∃ mshare writes,
      Returns (fmtLoadByteString mime disk' names[k]) ((1, mshare), writes) ∧
      ibeExtractShare md mshare (idOf year (sharedParams params t n x robustP) addr)
        (sharedParams params t n x robustP) = some kshare[k] := by
    intro k hk hk'
    have hkp : k < pos.length := hrel.length_eq ▸ hk
    have hfile := hsaved.masterShare_eq hlen (hrel.get hk hkp)
    have hmem := List.getElem_mem hkp
    obtain ⟨writes, hload, -⟩ := returns_fmtLoadByteString hmime hfile
      (length_masterShare_le hpq ht hsize _)
    have hext := ibeExtractShare_masterShare year addr hq64 (dvd_of_mul_left_dvd hqp) hpq hpp ht hc
      robustP hB hBq hmem (hlt' _ hmem)
    refine ⟨_, writes, hload, ?_⟩
    simp only [← hkshare, List.getElem_map]
    exact hext
  have hmaster := hsaved.returns_fmtConstructMaster hmime hpq ht hn hsize
    (fun i hi => ⟨(hx i hi).1.le, (hx i hi).2⟩) hinj hmq hlen robustP hnames hsub ht'
  have hkey : ibeExtract md (byteStringSetMpz m) (idOf year (sharedParams params t n x robustP) addr)
      (sharedParams params t n x robustP) = some (byteStringSetPoint (ofPoint (m • B))) := by
    rw [ibeExtract_sharedParams]
    exact ibeExtractByteString_eq hq.out hq64 hpp hm hmq hc.master hB
  refine ⟨fun f hf salt old cmd more _ => ?_, ⟨_, _, fun cmd more =>
    returns_extract lib privkeyfile cmd more ht rfl ht' hmaster hkey salt, fun disk₂ ksfiles hprinted hw₂ old cmd id more => ?_⟩⟩
  · obtain ⟨k, hk, rfl⟩ := List.getElem_of_mem hf
    obtain ⟨mshare, writes, hload, hshare⟩ := hshares k hk (by omega)
    exact ⟨_, returns_extractShare hload hshare salt old⟩
  · have hkslen := hprinted.length_eq
    have hloads : ∀ k (hk : k < ksfiles.length) (hk' : k < kshare.length),
        Returns (fmtCryptLoad mime lib disk₂ ksfiles[k] password) (1, kshare[k]) := by
      intro k hk hk'
      obtain ⟨mshare, writes, hload, hshare⟩ := hshares k (by omega) hk'
      exact (hprinted.get (by omega) hk).returns_fmtCryptLoad hmime.toLossless hlib h0 hlt hload hshare
    have hcombine := ibeCombine_keyShares hq64 hpq hpp hx hinj hlt' ht hc robustP hB.1 hBq hm hmq hplen
      old
    rw [hkshare] at hcombine
    refine ⟨_, returns_combine_files (by rw [hklen]; rfl) (by omega) (by omega) hloads hcombine hw₂ salt
      cmd id, ?_⟩
    rw [files_fmtCryptSave lib hw₂, files_fmtCryptSave lib hwp, Function.update_self, Function.update_self]

end Routes

section Sample

open KeyEncapsulation DecryptionStreams BannedList

/-- The third of the share files and the first. -/
def twoNames : List CString := [charstarFromByteString (bytes "c"), charstarFromByteString (bytes "a")]

theorem combine_extract_gen : ∃ shared disk', fmtSplitMaster base64 sampleNames (byteStringSetMpz 2) 2 3
      genParams (fun _ => 1) (fun i => i + 1) emptyDisk = some (1, shared, disk') ∧
    RoutesAgree base64 sampleLib (fun _ => genId.val) sampleIv sampleYear shared keyFile bob disk'
      twoNames := by
  have hpq : genParams.q = (67 : Nat) := by decide
  have hpp : genParams.curve.p = (1607 : Nat) := by decide
  have hlen : sampleNames.length = 3 := rfl
  have hw : ∀ f ∈ sampleNames, emptyDisk.writable f = true := fun _ _ => rfl
  have hwk : emptyDisk.writable keyFile = true := rfl
  have hsalt : sampleIv.length = sampleLib.ivLength := rfl
  obtain ⟨shared, disk', hrun, hagree⟩ := combine_extract (m := 2) (t := 2) (r := fun _ => 1)
    (x := fun i => i + 1) (fun _ => genId.val) sampleYear streaming_base64 inverse_sampleLib (by decide)
    (by decide) (by norm_num) (by norm_num) hpq hpp (by norm_num) (by norm_num) (by norm_num)
    (by norm_num) (fun i hi => ⟨by omega, by omega⟩) (fun i _ j _ h => by simpa using h) (by decide)
    (by decide) hlen hw
  have hsub : twoNames ⊆ sampleNames := by decide
  have hpos : twoNames.map (sampleNames.idxOf ·) = [2, 0] := by decide
  have hc := thresholdCondition_gen
  rw [← hpos] at hc
  exact ⟨shared, disk', hrun, hagree (by decide) hsub rfl hc ⟨gen, mapsTo_const _⟩ hwk hsalt⟩

end Sample

end IdBasedEncryption.DebugCommands
