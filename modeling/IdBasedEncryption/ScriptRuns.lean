import IdBasedEncryption.DebugCommands

namespace IdBasedEncryption.ScriptRuns

open CurvePoints MordellGroup PointValues ScalarMultiples CofactorMultiples ByteStrings PointBytes IbeLib
open KeyEncapsulation FuelLoops Stdio WholeLines Format CryptFiles SavedStrings Crypto AuthenticatedStreams
open RecipientSearch MessageFiles HiddenKeys MailedMessages KeyShareMails ThresholdKeys MasterFiles
open SolinasSearch ParamsRoundTrip SetupOutcome Generation DebugCommands

variable {E D Cipher Mac : Type}

section Model

variable (mime : Mime E D) (lib : Openssl Cipher Mac) (md : ByteString → ByteString)

/-- The front end: `failed` without the parameters, and otherwise the command that the
arguments choose. -/
def ibe {α : Type} (failed : α) (command : Params → Nat → Option α) (params : Params) (disk : Disk)
    (paramsfile : CString) (fuel : Nat) : Option α :=
  (fmtLoadParams mime params disk paramsfile fuel).bind fun r =>
    if r.1 ≠ 1 then some failed else command r.2 fuel

/-- What does not change from one round of a script to the next. -/
structure Script where
  year : CString
  params : Params
  stack : Stack
  paramsfile : CString
  privkeyfile : CString
  cmd : CString
  addr : CString
  sfiles : List CString

/-- What one round draws and what it gets as its input. -/
structure Round where
  salt : ByteString
  draws : Draws
  input : ByteString

/-- `ibe extract`, and then `ibe encrypt` with its output as the input of
`ibe fixed_password_decrypt`. What comes out is given together with the disk. -/
def scriptRound (script : Script) (round : Round) (disk : Disk) (fuel : Nat) :
    Option (ByteString × Disk) :=
  (ibe mime (1, [], disk) (fun params => extract mime lib md round.salt script.year params
    script.privkeyfile disk (script.cmd :: script.addr :: script.sfiles)) script.params disk
      script.paramsfile fuel).bind fun extracted =>
  let disk := extracted.2.2
  (ibe mime (1, []) (fun params => encrypt mime lib md round.draws script.year params
    [script.cmd, script.addr] round.input) script.params disk script.paramsfile fuel).bind fun encrypted =>
  (ibe mime (1, []) (fun params => fixedPasswordDecrypt mime lib md script.year params script.privkeyfile
    disk script.stack [script.cmd, script.addr] encrypted.2) script.params disk script.paramsfile
      fuel).map fun decrypted => (decrypted.2, disk)

/-- What the rounds put out, one after the other. -/
def runScript (script : Script) : List Round → Disk → Nat → Option (List ByteString)
  | [], _, _ => some []
  | round :: rounds, disk, fuel =>
      (scriptRound mime lib md script round disk fuel).bind fun r =>
        (runScript script rounds r.2 fuel).map (r.1 :: ·)

end Model

section Rounds

variable {mime : Mime E D} {lib : Openssl Cipher Mac} {md : ByteString → ByteString} {script : Script}
  {disk : Disk} {shared : Params} {master : ByteString} {names : List CString} {t : Nat}

theorem returns_ibe {α : Type} {f a : α} {c : Params → Nat → Option α} {params : Params}
    {paramsfile : CString} (hload : Returns (fmtLoadParams mime params disk paramsfile) (1, shared))
    (hrun : Returns (c shared) a) : Returns (ibe mime f c params disk paramsfile) a := by
  refine hload.bind ?_
  simp only [ne_eq, not_true_eq_false, if_false]
  exact hrun

/-- A key in another file does not change the parameters. -/
theorem returns_fmtLoadParams_save (lib : Openssl Cipher Mac) {params : Params}
    {paramsfile privkeyfile : CString} (hw : disk.writable privkeyfile = true)
    (hne : paramsfile ≠ privkeyfile) (salt key : ByteString) (pw : CString) {r : Int × Params}
    (hload : Returns (fmtLoadParams mime params disk paramsfile) r) :
    Returns (fmtLoadParams mime params (fmtCryptSave mime lib salt disk privkeyfile key pw).2 paramsfile)
      r := by
  have hfile : (fmtCryptSave mime lib salt disk privkeyfile key pw).2.files paramsfile =
      disk.files paramsfile := by
    rw [files_fmtCryptSave lib hw]
    exact Function.update_of_ne hne _ _
  unfold fmtLoadParams fmtLoadByteString at hload ⊢
  rw [hfile]
  exact hload

/-- A key outside of the share files does not change the master key. -/
theorem returns_fmtConstructMaster_save (lib : Openssl Cipher Mac) {params : Params} {names : List CString}
    {privkeyfile : CString} (hw : disk.writable privkeyfile = true) (hnames : privkeyfile ∉ names)
    (salt key : ByteString) (pw : CString) {r : Int × ByteString}
    (hconstruct : Returns (fmtConstructMaster mime names params disk) r) :
    Returns (fmtConstructMaster mime names params
      (fmtCryptSave mime lib salt disk privkeyfile key pw).2) r := by
  have hfiles : ∀ f ∈ names, (fmtCryptSave mime lib salt disk privkeyfile key pw).2.files f =
      disk.files f := by
    intro f hf
    rw [files_fmtCryptSave lib hw]
    exact Function.update_of_ne (ne_of_mem_of_not_mem hf hnames) _ _
  rw [fmtConstructMaster_congr hfiles]
  exact hconstruct

/-- The arguments of the script begin with the names, and the file for the key is one of
its own. -/
structure Suits (script : Script) (id : CString) (names : List CString) : Prop where
  prefix_sfiles : names <+: script.sfiles
  ne_params : script.paramsfile ≠ script.privkeyfile
  notMem_names : script.privkeyfile ∉ names
  notMem_id : newline ∉ id.val
  fine : Fine [id] id

/-- The disk has the parameters and the shares, and room for the key. -/
structure Ready (mime : Mime E D) (script : Script) (shared : Params) (master : ByteString)
    (names : List CString) (disk : Disk) : Prop where
  params_load : Returns (fmtLoadParams mime script.params disk script.paramsfile) (1, shared)
  construct : Returns (fmtConstructMaster mime names shared disk) (1, master)
  writable : disk.writable script.privkeyfile = true

/-- A key in a file of its own leaves the rest as it is. -/
theorem Ready.save (lib : Openssl Cipher Mac) (h : Ready mime script shared master names disk)
    (hparams : script.paramsfile ≠ script.privkeyfile) (hnames : script.privkeyfile ∉ names)
    (salt key : ByteString) : Ready mime script shared master names
      (fmtCryptSave mime lib salt disk script.privkeyfile key password).2 where
  params_load := returns_fmtLoadParams_save lib h.writable hparams salt key password h.params_load
  construct := returns_fmtConstructMaster_save lib h.writable hnames salt key password h.construct
  writable := by
    rw [writable_fmtCryptSave]
    exact h.writable

variable (hmime : Streaming mime) (hlib : Inverse lib) (h0 : 0 < lib.ivLength)
  (hlt : lib.ivLength < lib.mdLength) (ht : 0 < t) (hsharet : shared.sharet = t) (hlen : names.length = t)
  (hsuits : Suits script (idOf script.year shared script.addr) names)
include hmime hlib h0 hlt ht hsharet hlen hsuits

/-- A round puts out what it has been given. -/
theorem Ready.returns_scriptRound (h : Ready mime script shared master names disk) {round : Round}
    (hsalt : round.salt.length = lib.ivLength)
    (hsalts : ∀ i, (round.draws.salts i).length = lib.ivLength)
    (hdsalt : round.draws.salt.length = lib.ivLength)
    (hkem : KemCorrect md master round.draws.r [] [idOf script.year shared script.addr] shared) :
    ∃ disk', Returns (scriptRound mime lib md script round disk) (round.input, disk') ∧
      Ready mime script shared master names disk' := by
  obtain ⟨more, hsfiles⟩ := hsuits.prefix_sfiles
  obtain ⟨key, hkey⟩ : ∃ key, ibeExtract md master (idOf script.year shared script.addr) shared =
      some key := by
    obtain ⟨secrets, U, -, hrel⟩ := hkem
    cases hrel with
    | cons hhead _ =>
        obtain ⟨key, hkey, -⟩ := hhead
        exact ⟨key, hkey⟩
  have hready := h.save lib hsuits.ne_params hsuits.notMem_names round.salt key
  have hextract := returns_extract lib script.privkeyfile script.cmd more ht hsharet hlen h.construct hkey
    round.salt
  rw [hsfiles] at hextract
  have hnl : ∀ addr ∈ [script.cmd, script.addr].drop 1, newline ∉ (idOf script.year shared addr).val :=
    fun addr haddr => List.mem_singleton.1 haddr ▸ hsuits.notMem_id
  obtain ⟨file, hencrypt, hdelivers⟩ := delivers_of_kemCorrect hmime.toLossless hlib h0 hlt hsalts hdsalt
    hkem le_rfl hnl round.input
  have hload := fmtCryptLoad_save hmime.toLossless hlib h0 hlt hsalt h.writable key password
  have hdecrypt := (hdelivers script.cmd script.addr hsuits.notMem_id hsuits.fine script.privkeyfile
    password _ key hload script.stack [] .nil).1 (List.mem_singleton_self _) hkey []
  rw [List.nil_append, List.append_nil] at hdecrypt
  refine ⟨_, (returns_ibe h.params_load hextract).bind ?_, hready⟩
  refine (returns_ibe hready.params_load hencrypt).bind ?_
  have hlast := returns_ibe hready.params_load (f := (1, [])) (c := fun params => fixedPasswordDecrypt mime
    lib md script.year params script.privkeyfile _ script.stack [script.cmd, script.addr] file)
    (returns_fixedPasswordDecrypt hdecrypt)
  exact hlast.map fun r : Int × ByteString => (r.2, _)

theorem Ready.returns_runScript {rounds : List Round} (h : Ready mime script shared master names disk)
    (hrounds : ∀ round ∈ rounds, round.salt.length = lib.ivLength ∧
      (∀ i, (round.draws.salts i).length = lib.ivLength) ∧ round.draws.salt.length = lib.ivLength ∧
      KemCorrect md master round.draws.r [] [idOf script.year shared script.addr] shared) :
    Returns (runScript mime lib md script rounds disk) (rounds.map (·.input)) := by
  induction rounds generalizing disk with
  | nil => exact returns_some _
  | cons round rounds ih =>
      obtain ⟨hsalt, hsalts, hdsalt, hkem⟩ := hrounds round List.mem_cons_self
      obtain ⟨disk', hrun, hready⟩ := h.returns_scriptRound hmime hlib h0 hlt ht hsharet hlen hsuits hsalt
        hsalts hdsalt hkem
      have hrest := ih hready fun round hround => hrounds round (List.mem_cons_of_mem _ hround)
      exact hrun.bind (hrest.map (round.input :: ·))

end Rounds

section Main

variable {mime : Mime E D} {lib : Openssl Cipher Mac} {md : ByteString → ByteString} {disk : Disk}
  {probabPrime : Int → Bool} {draws : GenDraws} {qbits t n : Nat} {systemid paramsfile : CString}
  {sharefile : List CString} {params : Params} {master : ByteString}

/-- What is drawn for a round suits the commands. -/
structure Round.Drawn (lib : Openssl Cipher Mac) (p q x : Nat) (round : Round) : Prop where
  salt : round.salt.length = lib.ivLength
  fits : round.draws.Fits lib p q x

variable {p : Nat} [hp : Fact p.Prime] [hp12 : Fact (p % 12 = 11)] {q : Nat}

/-- Behind `gen`, every run of such a script puts out its inputs. -/
theorem runScript_gen (md : ByteString → ByteString) (hmime : Streaming mime) (hlib : Inverse lib)
    (h0 : 0 < lib.ivLength) (hlt : lib.ivLength < lib.mdLength)
    (h : Deployable probabPrime draws qbits t n systemid paramsfile sharefile disk params master p q)
    (hclear : draws.StartsClear p q) :
    ∃ disk', gen mime probabPrime draws qbits t n systemid paramsfile sharefile disk =
        some (0, disk') ∧
      ∀ {names : List CString}, names.Nodup → names ⊆ sharefile.take n → names.length = t → ∀ {script : Script},
        script.paramsfile = paramsfile → disk.writable script.privkeyfile = true →
        Suits script (idOf script.year params script.addr) names →
        (∃ B : MordellGroup.E p,
          MapsTo md params (byteStringSet (idOf script.year params script.addr)) q B) →
        ∀ {rounds : List Round}, (∀ round ∈ rounds, round.Drawn lib p q draws.x) →
          Returns (runScript mime lib md script rounds disk') (rounds.map (·.input)) := by
  obtain ⟨robustP, disk', hrun, -, hgen⟩ := h.exists_generated hmime
  obtain ⟨G, hfounded⟩ := h.exists_founded hclear
  refine ⟨disk', hrun, fun {names} hnames hsub hnlen {script} hfile hwk hsuits hB {rounds} hrounds => ?_⟩
  have hready : Ready mime script (sharedParams params t n draws.places robustP)
      (byteStringSetMpz draws.x) names disk' :=
    ⟨hfile ▸ hgen.params_load _, h.returns_fmtConstructMaster hgen hmime hnames hsub hnlen,
      hgen.writable_eq ▸ hwk⟩
  refine hready.returns_runScript hmime hlib h0 hlt h.sharet_pos (show (sharedParams params t n draws.places
    robustP).sharet = t from rfl) hnlen hsuits fun round hround => ?_
  have hround := hrounds round hround
  refine ⟨hround.salt, hround.fits.salts, hround.fits.salt,
    kemCorrect_sharedParams t n draws.places robustP ?_⟩
  exact hfounded.kemCorrect hround.fits.kem hround.fits.lt (fun id hid => List.mem_singleton.1 hid ▸ hB) []

end Main

section Sample

open MordellCurve PairingValues DecryptionStreams BannedList CombineCommand

instance fact_prime_3083 : Fact (Nat.Prime 3083) := ⟨by norm_num⟩

instance fact_mod_3083 : Fact (3083 % 12 = 11) := ⟨by norm_num⟩

/-- A point of the order 3084 has multiples that are no special cases. -/
theorem clear_known : Clear ((3083 + 1) / 257) (pointOfY (2 : ZMod 3083)) := by
  have hns {x y : ZMod 3083} (h : y ^ 2 = x ^ 3 + 1) : (mordell (ZMod 3083)).Nonsingular x y :=
    (MordellCurve.nonsingular_iff six_ne_zero).2 h
  have hA : pointOfY (2 : ZMod 3083) = .some 400 2 (hns (by decide)) := (eq_pointOfY _).symm
  generalize pointOfY (2 : ZMod 3083) = A at hA ⊢
  have h2 : A + A = .some 2958 1976 (hns (by decide)) := by
    rw [hA]
    exact some_add_self (l := 2846) (by decide) (by decide) (by decide) (by decide)
  have h3 : A + A + A = .some 2245 2619 (hns (by decide)) := by
    rw [h2, hA]
    exact some_add_some (l := 2216) (by decide) (by decide) (by decide) (by decide)
  have h6 : 6 • A = .some 2351 922 (hns (by decide)) := by
    rw [show 6 • A = A + A + A + (A + A + A) by abel, h3]
    exact some_add_self (l := 2846) (by decide) (by decide) (by decide) (by decide)
  have h12 : 12 • A = .some 2348 1419 (hns (by decide)) := by
    rw [show 12 • A = 6 • A + 6 • A by abel, h6]
    exact some_add_self (l := 1808) (by decide) (by decide) (by decide) (by decide)
  have hdvd : 257 ∣ addOrderOf A := by
    by_contra hno
    have hcard : addOrderOf A ∣ 12 * 257 := addOrderOf_dvd_of_nsmul_eq_zero (smul_card A)
    have hcop : Nat.Coprime (addOrderOf A) 257 :=
      ((Nat.Prime.coprime_iff_not_dvd (by norm_num)).2 hno).symm
    have hzero := addOrderOf_dvd_iff_nsmul_eq_zero.1 (hcop.dvd_of_dvd_mul_right hcard)
    rw [h12] at hzero
    cases hzero
  have hne {n : Nat} (hn : 0 < n) (h257 : n < 257) : n • A ≠ 0 := by
    intro h
    have hle := Nat.le_of_dvd hn (hdvd.trans (addOrderOf_dvd_of_nsmul_eq_zero h))
    omega
  refine ⟨fun i hi => hne (by omega) (by omega), ?_⟩
  have hloop : keptLoop ((3083 + 1) / 257) A = Kept.double (Kept.double ((3 : Int) • A, True)) := rfl
  have hthree : (3 : Int) • A = 3 • A := by abel
  rw [hloop, hthree]
  simp only [Kept.double, ← two_nsmul, ← mul_nsmul]
  exact ⟨⟨trivial, hne (by norm_num) (by norm_num)⟩, hne (by norm_num) (by norm_num)⟩

def knownScript : Script :=
  ⟨sampleYear, knownParams, ⟨[], []⟩, savedFile, keyFile, bob, bob, twoNames⟩

/-- The digest that leads to the second coordinate 2. -/
def knownDigest : ByteString := 128 :: List.replicate 17 0 ++ [0, 2]

def knownRounds : List Round :=
  [⟨sampleIv, sampleDraws, bytes "hi"⟩, ⟨sampleIv, sampleDraws, bytes "again"⟩]

theorem startsClear_known : knownDraws.StartsClear 3083 257 :=
  ⟨2, [], rfl, clear_known⟩

/-- Every address leads to the generator. -/
theorem exists_mapsTo_known (bs : ByteString) :
    ∃ B : MordellGroup.E 3083, MapsTo (fun _ => knownDigest) knownParams bs 257 B := by
  obtain ⟨hpp, hpq⟩ := knownParams_numbers
  obtain ⟨P, -, hset⟩ := deployable_known.built.exists_point
  obtain ⟨hi, -⟩ := initialized_setupPoints (initialized_initpq _) hset
  have hhash : hashG (fun _ => knownDigest) bs knownParams = 2 := by
    rw [hashG, hpp]
    decide
  have hland := landsWhenClear_pointMakeOrderQ (p := 3083) (q := 257) (by norm_num) (by norm_num)
    (by norm_num) hi hpp hpq 2
  obtain ⟨B, hB, hmake⟩ := hland.1 clear_known
  refine ⟨B, hB, ?_⟩
  rw [mapByteStringToPoint_eq, hhash, hmake]

theorem short_knownId : (idOf sampleYear knownParams bob).val.length < 99 ∧
    newline ∉ (idOf sampleYear knownParams bob).val ∧
    ¬bytes "W:" <+: (idOf sampleYear knownParams bob).val := by
  decide +kernel

theorem fine_knownId : Fine [idOf sampleYear knownParams bob] (idOf sampleYear knownParams bob) := by
  refine fine_of_short ?_ ?_ ?_
  · intro id hmem
    obtain rfl := List.mem_singleton.1 hmem
    exact short_knownId
  · intro hnil
    have hlen : (idOf sampleYear knownParams bob).val.length = 0 := congrArg List.length hnil
    exact absurd hlen (by decide +kernel)
  · exact short_knownId.1.trans (by norm_num)

theorem fits_knownDraws : sampleDraws.Fits sampleLib 3083 257 knownDraws.x :=
  ⟨⟨by decide, by decide, by decide, le_pow_maxBytes (by norm_num)⟩, by decide, fun _ => rfl, rfl⟩

/-- Two rounds for the system with two of three shares. -/
theorem runScript_gen_known : ∃ disk', gen base64 knownPrime knownDraws 9 2 3 ibeVersion savedFile
      sampleNames emptyDisk = some (0, disk') ∧
    Returns (runScript base64 sampleLib (fun _ => knownDigest) knownScript knownRounds disk')
      [bytes "hi", bytes "again"] := by
  obtain ⟨disk', hrun, hscript⟩ := runScript_gen (fun _ => knownDigest) streaming_base64
    inverse_sampleLib (by decide) (by decide) deployable_known startsClear_known
  have hsuits : Suits knownScript (idOf knownScript.year knownParams knownScript.addr) twoNames :=
    ⟨List.prefix_rfl, by decide, by decide, short_knownId.2.1, fine_knownId⟩
  have hsub : twoNames ⊆ sampleNames.take 3 := by decide
  have hwk : emptyDisk.writable knownScript.privkeyfile = true := rfl
  refine ⟨disk', hrun, hscript (by decide) hsub rfl rfl hwk hsuits (exists_mapsTo_known _) ?_⟩
  intro round hround
  rcases List.mem_pair.1 hround with rfl | rfl
  · exact ⟨rfl, fits_knownDraws⟩
  · exact ⟨rfl, fits_knownDraws⟩

end Sample

end IdBasedEncryption.ScriptRuns
