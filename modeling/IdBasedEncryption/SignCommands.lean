import IdBasedEncryption.AggregateSignatures
import IdBasedEncryption.Deployments
import IdBasedEncryption.SignatureForgeries

namespace IdBasedEncryption.SignCommands

open Fp2Value CurvePoints MordellGroup PointValues TatePairing ScalarMultiples Multiples CofactorMultiples
open ByteStrings PointBytes IbeLib
open KeyEncapsulation AggregateSignatures SignatureForgeries PairingLaws PairingValues ModifiedPairing DecodedPoints
open FuelLoops Stdio Format CryptFiles SavedStrings Crypto ThresholdKeys MasterFiles ParamsRoundTrip
open SetupOutcome Generation KeyShareMails DebugCommands ScriptRuns Deployments

variable {E D Cipher Mac : Type}

section Model

variable (mime : Mime E D) (lib : Openssl Cipher Mac) (md : ByteString → ByteString)

def certOut : CString := charstarFromByteString (bytes "cert.out")

def sigOut : CString := charstarFromByteString (bytes "sig.out")

/-- The public key is an argument, as text. Without enough share files the program reads
behind its arguments. -/
def certify (salt : ByteString) (params : Params) (disk : Disk) (argv : List CString) (fuel : Nat) :
    Option (Int × ByteString × Disk) :=
  match argv with
  | _ :: publicArg :: sfiles =>
      if (sfiles.length : Int) < params.sharet then none
      else
        (fmtConstructMaster mime (sfiles.take params.sharet.toNat) params disk fuel).bind fun r =>
          if r.1 = 0 then some (1, [], disk)
          else
            (ibeCertify md r.2 (byteStringSet publicArg) params.id params).map fun cert =>
              (0, byteStringFprintf cert, (fmtCryptSave mime lib salt disk certOut cert password).2)
  | _ => some (1, bytes "Usage: certify ID SHAREFILES\n\n" ++
      bytes "Creates a certificate for the ID, signed by share\n", disk)

def sign (salt : ByteString) (params : Params) (disk : Disk) (argv : List CString) (fuel : Nat) :
    Option (Int × Disk) :=
  match argv with
  | _ :: privkeyfile :: argv =>
      (fmtCryptLoad mime lib disk privkeyfile password fuel).bind fun key =>
        if key.1 ≠ 1 then some (1, disk)
        else argv[0]?.bind fun certfile =>
          (fmtCryptLoad mime lib disk certfile password fuel).bind fun cert =>
            if cert.1 ≠ 1 then some (1, disk)
            else argv[1]?.bind fun msg =>
              (ibeSign md (byteStringSet msg) key.2 cert.2 params).map fun sig =>
                (0, (fmtCryptSave mime lib salt disk sigOut sig password).2)
  | _ => some (1, disk)

/-- The public key is what the memory of a variable holds that nothing sets, and so is the
signature without its file. The result says whether it is accepted. -/
def verify (params : Params) (sig pub : ByteString) (disk : Disk) (argv : List CString) (fuel : Nat) :
    Option Int :=
  match argv with
  | _ :: sigfile :: argv =>
      (fmtCryptLoad mime lib disk sigfile password fuel).bind fun r => argv[1]?.bind fun msg =>
        (ibeVerify md (if r.1 = 1 then r.2 else sig) (byteStringSet msg) pub params.id params).map
          fun accepted => if accepted then 1 else 0
  | _ => some 1

/-- What the three commands get. -/
structure Signing where
  params : Params
  paramsfile : CString
  cmd : CString
  publicArg : CString
  sfiles : List CString
  keyfile : CString
  msg : CString
  certSalt : ByteString
  sigSalt : ByteString
  sig : ByteString
  pub : ByteString

/-- `ibe certify`, `ibe sign` and `ibe verify`, one after the other. -/
def signingRun (run : Signing) (disk : Disk) (fuel : Nat) : Option Int :=
  (ibe mime (1, [], disk) (fun params => certify mime lib md run.certSalt params disk
    (run.cmd :: run.publicArg :: run.sfiles)) run.params disk run.paramsfile fuel).bind fun certified =>
  let disk := certified.2.2
  (ibe mime (1, disk) (fun params => sign mime lib md run.sigSalt params disk
    [run.cmd, run.keyfile, certOut, run.msg]) run.params disk run.paramsfile fuel).bind fun signed =>
  let disk := signed.2
  ibe mime 1 (fun params => verify mime lib md params run.sig run.pub disk
    [run.cmd, sigOut, run.publicArg, run.msg]) run.params disk run.paramsfile fuel

end Model

section Commands

variable {mime : Mime E D} {lib : Openssl Cipher Mac} {md : ByteString → ByteString} {params : Params}
  {cmd publicArg privkeyfile certfile sigfile msg arg : CString} {disk : Disk}

theorem returns_certify (lib : Openssl Cipher Mac) (cmd : CString) {names : List CString}
    (more : List CString) {master cert : ByteString} {t : Nat} (hsharet : params.sharet = t)
    (hlen : names.length = t) (hmaster : Returns (fmtConstructMaster mime names params disk) (1, master))
    (hcert : ibeCertify md master (byteStringSet publicArg) params.id params = some cert) (salt : ByteString) :
    Returns (certify mime lib md salt params disk (cmd :: publicArg :: (names ++ more)))
      (0, byteStringFprintf cert, (fmtCryptSave mime lib salt disk certOut cert password).2) := by
  have htake : (names ++ more).take params.sharet.toNat = names := by
    rw [hsharet, Int.toNat_natCast, List.take_left' hlen]
  have henough : ¬((names ++ more).length : Int) < params.sharet := by
    rw [hsharet, List.length_append]
    omega
  unfold certify
  simp only [if_neg henough, htake]
  refine hmaster.bind ?_
  simp only [one_ne_zero, if_false, hcert]
  exact returns_some _

theorem returns_sign {priv cert sig : ByteString}
    (hkey : Returns (fmtCryptLoad mime lib disk privkeyfile password) (1, priv))
    (hcert : Returns (fmtCryptLoad mime lib disk certfile password) (1, cert))
    (hsig : ibeSign md (byteStringSet msg) priv cert params = some sig) (salt : ByteString) :
    Returns (sign mime lib md salt params disk [cmd, privkeyfile, certfile, msg])
      (0, (fmtCryptSave mime lib salt disk sigOut sig password).2) := by
  refine hkey.bind ?_
  simp only [ne_eq, not_true_eq_false, if_false, List.getElem?_cons_zero, Option.bind_some]
  refine hcert.bind ?_
  simp only [not_true_eq_false, if_false, List.getElem?_cons_succ, List.getElem?_cons_zero,
    Option.bind_some, hsig]
  exact returns_some _

theorem returns_verify {sig pub : ByteString} {accepted : Bool}
    (hsig : Returns (fmtCryptLoad mime lib disk sigfile password) (1, sig))
    (haccepted : ibeVerify md sig (byteStringSet msg) pub params.id params = some accepted)
    (old : ByteString) :
    Returns (verify mime lib md params old pub disk [cmd, sigfile, arg, msg])
      (if accepted then 1 else 0) := by
  refine hsig.bind ?_
  simp only [if_true, List.getElem?_cons_succ, List.getElem?_cons_zero, Option.bind_some, haccepted]
  exact returns_some _

end Commands

section Verdict

variable {p : Nat} [hp : Fact p.Prime] [hp12 : Fact (p % 12 = 11)] {q m x : Nat} {params : Params}
  {G A B H H' M : MordellGroup.E p} {md : ByteString → ByteString} {message text priv pub : ByteString} {id : CString}

/-- What `point_add` makes of two points, which does not recognise opposite ones. -/
def addedPoint (A B : MordellGroup.E p) : MordellGroup.E p := if A + B = 0 then A + A else A + B

/-- The first bytes count the coordinates, so that there is a zero among them. -/
theorem byteStringSet_ne_setPoint (id : CString) (P : Point) :
    byteStringSet id ≠ byteStringSetPoint P := by
  intro h
  have hmem : (0 : UInt8) ∈ byteStringSetPoint P := by
    rw [byteStringSetPoint, byteStringJoin, byteStringEncodeArray]
    exact List.mem_append_left _ (by decide : (0 : UInt8) ∈ twoBytes 2)
  rw [← h] at hmem
  exact absurd hmem id.property

section Pairings

variable (hq : q.Prime) (hq3 : 3 < q)
include hq hq3

omit hp12 in
theorem addOrderOf_addedPoint (hA : addOrderOf A = q) (hB : addOrderOf B = q) :
    addOrderOf (addedPoint A B) = q := by
  have hqA := smul_eq_zero_of_order hA
  rw [addedPoint]
  split
  · exact addOrderOf_eq hq (by rw [nsmul_add, hqA, add_zero])
      (add_self_ne_zero hq hq3 hqA (ne_zero_of_order hq hA))
  · next h =>
      exact addOrderOf_eq hq (by rw [nsmul_add, hqA, smul_eq_zero_of_order hB, add_zero]) h

theorem pointAdd_addedPoint (hA : addOrderOf A = q) (hB : addOrderOf B = q) :
    pointAdd (ofPoint A) (ofPoint B) p = ofPoint (addedPoint A B) := by
  have hA0 := ne_zero_of_order hq hA
  rw [addedPoint]
  split
  · next h =>
      rw [eq_neg_of_add_eq_zero_right h]
      exact pointAdd_opposite hA0 (add_self_ne_zero hq hq3 (smul_eq_zero_of_order hA) hA0)
  · next h => exact pointAdd_ofPoint hA0 (ne_zero_of_order hq hB) h

theorem val_tatePairing_ofPoint (hqp : q ∣ p + 1) (hs : Suits params p q) (hA : addOrderOf A = q)
    (hB : addOrderOf B = q) : val p (tatePairing (ofPoint A) (pointPhi (ofPoint B) (ofPoint B) params)
      params.curve) = pairing q A B :=
  have hB0 := ne_zero_of_order hq hB
  val_tatePairing_pointPhi hq hq3 hqp hs (smul_eq_zero_of_order hA)
    (denotes_ofPoint (ne_zero_of_order hq hA)) (denotes_ofPoint hB0) (plain_ofPoint hB0).finite

end Pairings

omit hp12 in
theorem codedMultiple_eq (hx : meetsDoubling x q = false) (A : MordellGroup.E p) :
    codedMultiple x q A = ofPoint (x • A) := by
  rw [codedMultiple, if_neg (by rw [hx]; exact Bool.false_ne_true)]

variable (hq : q.Prime) (hq64 : 64 < q) (hqp : q ∣ p + 1) (hG : addOrderOf G = q) (hm : 0 < m) (hmq : m < q)
  (hx : 0 < x) (hxq : x < q) (hmd : meetsDoubling m q = false) (hsize : p ≤ 256 ^ maxBytes)
  (hk : Keyed params q m G)
include hq hq64 hqp hG hm hmq hx hxq hmd hsize hk

/-- The verdict compares two sums in the group. -/
theorem ibeVerify_eq_some_iff {S : MordellGroup.E p} (hS : addOrderOf S = q)
    (hH : MapsTo md params (cryptoVaHash md [byteStringSetPoint (ofPoint (x • G)), byteStringSet id]) q H)
    (hM : MapsTo md params message q M) :
    ∃ accepted, ibeVerify md (byteStringSetPoint (ofPoint S)) message (byteStringSetPoint (ofPoint (x • G)))
        id params = some accepted ∧ (accepted = true ↔ S = m • H + x • M ∨ q ^ 2 ∣ p + 1) := by
  have hs := hk.suits
  have hqG := smul_eq_zero_of_order hG
  have hread {A : MordellGroup.E p} (hA : addOrderOf A = q) {Q : Point} (hQ : Q.infinity = false) :
      pointSetByteString Q (byteStringSetPoint (ofPoint A)) = ofPoint A :=
    (plain_ofPoint (ne_zero_of_order hq hA)).readBack hsize hQ
  have hxG := addOrderOf_nsmul_of_lt hq hG hx hxq
  have hmG := addOrderOf_nsmul_of_lt hq hG hm hmq
  have hPinf : params.P.infinity = false := hk.P_eq ▸ (plain_ofPoint (ne_zero_of_order hq hG)).finite
  have hvalues : verifyValues md (byteStringSetPoint (ofPoint S)) message
      (byteStringSetPoint (ofPoint (x • G))) id params =
        some (tatePairing (ofPoint G) (pointPhi (ofPoint S) (ofPoint S) params) params.curve,
          tatePairing (ofPoint (x • G)) (pointPhi (ofPoint M) (ofPoint M) params) params.curve,
          tatePairing (ofPoint (m • G)) (pointPhi (ofPoint H) (ofPoint H) params) params.curve) := by
    rw [verifyValues, hread hS rfl, hread hxG hPinf, hk.Ppub_eq, codedMultiple_eq hmd, hk.P_eq]
    simp only [hM.2, hH.2, Option.bind_eq_bind, Option.bind_some, Option.pure_def]
  have hiff := ibeVerify_eq_some_true_iff hs hvalues
  rw [val_tatePairing_ofPoint hq (by omega) hqp hs hG hS, val_tatePairing_ofPoint hq (by omega) hqp hs hxG hM.1,
    val_tatePairing_ofPoint hq (by omega) hqp hs hmG hH.1, pairing_nsmul_left hq (by omega) hqp hqG,
    pairing_nsmul_left hq (by omega) hqp hqG, ← pairing_nsmul_right hq (by omega) hqp hqG,
    ← pairing_nsmul_right hq (by omega) hqp hqG, ← pairing_add_right hq (by omega) hqp hqG, add_comm,
    pairing_eq_pairing_iff_of_torsion hq (by omega) hqp hs.curve.form hG (smul_eq_zero_of_order hS)] at hiff
  · rw [ibeVerify_eq_map, hvalues, Option.map_some] at hiff ⊢
    rw [Option.some.injEq] at hiff
    exact ⟨_, rfl, hiff⟩
  · rw [nsmul_add, nsmul_left_comm, smul_eq_zero_of_order hH.1, nsmul_left_comm, smul_eq_zero_of_order hM.1]
    simp

/-- What becomes of a signature under a certificate for any text. -/
theorem exists_verdict (hxd : meetsDoubling x q = false)
    (hkey : ibeKeygen x params = some (priv, pub))
    (hH : MapsTo md params (cryptoVaHash md [text, byteStringSet id]) q H)
    (hH' : MapsTo md params (cryptoVaHash md [pub, byteStringSet id]) q H')
    (hM : MapsTo md params message q M) :
    ∃ cert sig accepted, ibeCertify md (byteStringSetMpz m) text id params = some cert ∧
      ibeSign md message priv cert params = some sig ∧
      ibeVerify md sig message pub id params = some accepted ∧
      (accepted = true ↔ addedPoint (m • H) (x • M) = m • H' + x • M ∨ q ^ 2 ∣ p + 1) := by
  have hmH := addOrderOf_nsmul_of_lt hq hH.1 hm hmq
  have hxM := addOrderOf_nsmul_of_lt hq hM.1 hx hxq
  have hmulH := pointMul_coded hq hq64 hH.1 hm hmq
  have hmulM := pointMul_coded hq hq64 hM.1 hx hxq
  rw [ibeKeygen_coded hq hq64 hG hx hxq hk, Option.some.injEq, Prod.mk.injEq] at hkey
  obtain ⟨rfl, rfl⟩ := hkey
  rw [codedMultiple_eq hxd] at hmulM hH' ⊢
  rw [codedMultiple_eq hmd] at hmulH
  obtain ⟨accepted, hverify, hiff⟩ := ibeVerify_eq_some_iff hq hq64 hqp hG hm hmq hx hxq hmd hsize hk
    (addOrderOf_addedPoint hq (by omega) hmH hxM) hH' hM
  refine ⟨byteStringSetPoint (ofPoint (m • H)), _, accepted, ?_, ?_, hverify, hiff⟩
  · simp only [ibeCertify, ibeExtractByteString, hH.2, inpRaw_setMpz, hk.suits.curve.p_eq, hmulH,
      Option.bind_eq_bind, Option.bind_some, Option.pure_def]
  · have hread : pointSetByteString pointInit (byteStringSetPoint (ofPoint (m • H))) = ofPoint (m • H) :=
      (plain_ofPoint (ne_zero_of_order hq hmH)).readBack hsize rfl
    simp only [ibeSign, hM.2, inpRaw_setMpz, hk.suits.curve.p_eq, hmulM, hread, Option.bind_eq_bind,
      Option.bind_some, Option.pure_def, pointAdd_addedPoint hq (by omega : 3 < q) hmH hxM]

end Verdict

section Run

variable {mime : Mime E D} {lib : Openssl Cipher Mac} {md : ByteString → ByteString} {run : Signing}
  {shared : Params} {master priv : ByteString} {names : List CString} {disk : Disk}

/-- The share files come first, and nothing is written over a file that is needed later. -/
structure Signing.Fits (lib : Openssl Cipher Mac) (run : Signing) (names : List CString) : Prop where
  prefix_sfiles : names <+: run.sfiles
  params_cert : run.paramsfile ≠ certOut
  params_sig : run.paramsfile ≠ sigOut
  params_keyfile : run.paramsfile ≠ run.keyfile
  keyfile_cert : run.keyfile ≠ certOut
  keyfile_notMem : run.keyfile ∉ names
  certSalt : run.certSalt.length = lib.ivLength
  sigSalt : run.sigSalt.length = lib.ivLength

/-- The disk has the parameters, the shares and the private key. -/
structure Signing.Ready (mime : Mime E D) (lib : Openssl Cipher Mac) (run : Signing) (shared : Params)
    (master priv : ByteString) (names : List CString) (disk : Disk) : Prop where
  params_load : Returns (fmtLoadParams mime run.params disk run.paramsfile) (1, shared)
  construct : Returns (fmtConstructMaster mime names shared disk) (1, master)
  key_load : Returns (fmtCryptLoad mime lib disk run.keyfile password) (1, priv)
  cert_writable : disk.writable certOut = true
  sig_writable : disk.writable sigOut = true

/-- Another file does not change what is loaded. -/
theorem returns_fmtCryptLoad_save {f g pw : CString} (lib : Openssl Cipher Mac) (hw : disk.writable g = true)
    (hne : f ≠ g) (salt bs : ByteString) (pw' : CString) {r : Int × ByteString}
    (hload : Returns (fmtCryptLoad mime lib disk f pw) r) :
    Returns (fmtCryptLoad mime lib (fmtCryptSave mime lib salt disk g bs pw').2 f pw) r := by
  have hfile : (fmtCryptSave mime lib salt disk g bs pw').2.files f = disk.files f := by
    rw [files_fmtCryptSave lib hw]
    exact Function.update_of_ne hne _ _
  unfold fmtCryptLoad at hload ⊢
  rw [hfile]
  exact hload

/-- The run ends with the verdict on the signature. -/
theorem Signing.Ready.returns_signingRun (hmime : Lossless mime) (hlib : Inverse lib) (h0 : 0 < lib.ivLength)
    (hlt : lib.ivLength < lib.mdLength) {t : Nat} (hsharet : shared.sharet = t) (hlen : names.length = t)
    (hfits : run.Fits lib names) (h : run.Ready mime lib shared master priv names disk) {cert sig : ByteString} {accepted : Bool}
    (hcert : ibeCertify md master (byteStringSet run.publicArg) shared.id shared = some cert)
    (hsign : ibeSign md (byteStringSet run.msg) priv cert shared = some sig)
    (hverify : ibeVerify md sig (byteStringSet run.msg) run.pub shared.id shared = some accepted) :
    Returns (signingRun mime lib md run disk) (if accepted then 1 else 0) := by
  obtain ⟨more, hsfiles⟩ := hfits.prefix_sfiles
  obtain ⟨disk₁, hdisk₁⟩ : ∃ disk₁, (fmtCryptSave mime lib run.certSalt disk certOut cert password).2 = disk₁ :=
    ⟨_, rfl⟩
  have hparams₁ := returns_fmtLoadParams_save lib h.cert_writable hfits.params_cert run.certSalt cert password
    h.params_load
  have hkey₁ := returns_fmtCryptLoad_save lib h.cert_writable hfits.keyfile_cert run.certSalt cert password
    h.key_load
  have hcert₁ := fmtCryptLoad_save hmime hlib h0 hlt hfits.certSalt h.cert_writable cert password
  have hw₁ : (fmtCryptSave mime lib run.certSalt disk certOut cert password).2.writable sigOut = true := by
    rw [writable_fmtCryptSave]
    exact h.sig_writable
  rw [hdisk₁] at hparams₁ hkey₁ hcert₁ hw₁
  have hparams₂ := returns_fmtLoadParams_save lib hw₁ hfits.params_sig run.sigSalt sig password hparams₁
  have hsig₂ := fmtCryptLoad_save hmime hlib h0 hlt hfits.sigSalt hw₁ sig password
  have hcertify := returns_certify lib run.cmd more hsharet hlen h.construct hcert run.certSalt
  rw [hsfiles, hdisk₁] at hcertify
  refine (returns_ibe h.params_load hcertify).bind ?_
  refine (returns_ibe hparams₁ (returns_sign hkey₁ hcert₁ hsign run.sigSalt)).bind ?_
  exact returns_ibe hparams₂ (returns_verify hsig₂ hverify run.sig)

end Run

section Main

variable {mime : Mime E D} {lib : Openssl Cipher Mac} {disk : Disk} {probabPrime : Int → Bool}
  {draws : GenDraws} {qbits t n : Nat} {systemid paramsfile : CString} {sharefile : List CString}
  {params : Params} {master : ByteString}

variable {p : Nat} [hp : Fact p.Prime] [hp12 : Fact (p % 12 = 11)] {q m : Nat} {G : MordellGroup.E p}

omit hp12 in
theorem keyed_sharedParams (places : Nat → Int) (robustP : List Point) (h : Keyed params q m G) :
    Keyed (sharedParams params t n places robustP) q m G where
  suits :=
    { p_eq := h.suits.p_eq
      q_eq := h.suits.q_eq
      p1onq_eq := h.suits.p1onq_eq
      zeta_eq := h.suits.zeta_eq
      curve := h.suits.curve }
  P_eq := h.P_eq
  Ppub_eq := h.Ppub_eq

/-- The certificate is for the text of the public key, which is never the key itself. Even with
the right key in its memory, the last command accepts only if both lead to sums that agree. -/
theorem signingRun_gen (md : ByteString → ByteString) (hmime : Streaming mime) (hlib : Inverse lib)
    (h0 : 0 < lib.ivLength) (hlt : lib.ivLength < lib.mdLength)
    (h : Deployable probabPrime draws qbits t n systemid paramsfile sharefile disk params master p q)
    (hclear : draws.StartsClear p q) (hmd : meetsDoubling draws.x q = false) :
    ∃ mshare shared disk', gen mime probabPrime draws qbits t n systemid paramsfile sharefile disk =
        some (0, disk') ∧
      ibeSplitMaster master t n params draws.r draws.places = some (mshare, shared) ∧
      ∀ {names : List CString}, names.Nodup → names ⊆ sharefile.take n → names.length = t →
        ∀ {run : Signing}, run.paramsfile = paramsfile → run.Fits lib names →
        (∀ f ∈ [run.keyfile, certOut, sigOut], disk.writable f = true) →
        ∀ {x : Nat} {priv salt : ByteString}, 0 < x → x < q → meetsDoubling x q = false →
        ibeKeygen x shared = some (priv, run.pub) → salt.length = lib.ivLength →
        ∀ {H H' M : MordellGroup.E p},
        MapsTo md shared (cryptoVaHash md [byteStringSet run.publicArg, byteStringSet shared.id]) q H →
        MapsTo md shared (cryptoVaHash md [run.pub, byteStringSet shared.id]) q H' →
        MapsTo md shared (byteStringSet run.msg) q M →
        byteStringSet run.publicArg ≠ run.pub ∧
        ∃ result, Returns (signingRun mime lib md run
            (fmtCryptSave mime lib salt disk' run.keyfile priv password).2) result ∧
          (result = 1 ↔
            addedPoint (draws.x • H) (x • M) = draws.x • H' + x • M ∨ q ^ 2 ∣ p + 1) := by
  obtain ⟨robustP, disk', hrun, hsplit, hgen⟩ := h.exists_generated hmime
  obtain ⟨G, hf⟩ := h.exists_founded hclear
  refine ⟨_, sharedParams params t n draws.places robustP, disk', hrun, hsplit, fun {names} hnames hsub
    hnlen {run} hfile hfits hwrite {x priv salt} hx hxq' hxd hkey hsalt {H H' M} hH hH' hM => ?_⟩
  have hk := keyed_sharedParams (t := t) (n := n) draws.places robustP
    (keyed hf.prime hf.lt hf.order hf.solinas hf.pos hf.x_lt hf.setup_eq)
  have hmax : p ≤ 256 ^ maxBytes := h.size_le.trans (Nat.pow_le_pow_right (by norm_num) (by decide))
  obtain ⟨cert, sig, accepted, hcert, hsign, hverify, hiff⟩ := exists_verdict hf.prime hf.lt
    (dvd_of_mul_left_dvd hf.dvd) hf.order hf.pos hf.x_lt hx hxq' hmd hmax hk hxd hkey hH hH' hM
  have hwk : disk'.writable run.keyfile = true := hgen.writable_eq ▸ hwrite _ (by simp)
  have hready : run.Ready mime lib (sharedParams params t n draws.places robustP) (byteStringSetMpz draws.x)
      priv names (fmtCryptSave mime lib salt disk' run.keyfile priv password).2 := by
    refine ⟨?_, ?_, fmtCryptLoad_save hmime.toLossless hlib h0 hlt hsalt hwk priv password, ?_, ?_⟩
    · exact returns_fmtLoadParams_save lib hwk hfits.params_keyfile salt priv password
        (hfile ▸ hgen.params_load _)
    · exact returns_fmtConstructMaster_save lib hwk hfits.keyfile_notMem salt priv password
        (h.returns_fmtConstructMaster hgen hmime hnames hsub hnlen)
    · rw [writable_fmtCryptSave, hgen.writable_eq]
      exact hwrite _ (by simp)
    · rw [writable_fmtCryptSave, hgen.writable_eq]
      exact hwrite _ (by simp)
  refine ⟨?_, _, hready.returns_signingRun hmime.toLossless hlib h0 hlt (show (sharedParams params t n
    draws.places robustP).sharet = t from rfl) hnlen hfits hcert hsign hverify, ?_⟩
  · rw [ibeKeygen_coded hf.prime hf.lt hf.order hx hxq' hk, Option.some.injEq, Prod.mk.injEq] at hkey
    rw [← hkey.2]
    exact byteStringSet_ne_setPoint _ _
  · rw [← hiff]
    cases accepted <;> simp

end Main

section Sample

open DecryptionStreams BannedList CombineCommand MailedMessages AuthenticatedStreams

/-- The address is the text of the public key and the message as well. -/
def knownSigning (pub : ByteString) : Signing where
  params := knownParams
  paramsfile := savedFile
  cmd := bob
  publicArg := bob
  sfiles := twoNames
  keyfile := keyFile
  msg := bob
  certSalt := sampleIv
  sigSalt := sampleIv
  sig := []
  pub := pub

/-- All points are the same, so that the private key 3 is accepted. -/
theorem signingRun_known : ∃ priv pub disk', gen base64 knownPrime knownDraws 9 2 3 ibeVersion savedFile
      sampleNames emptyDisk = some (0, disk') ∧
    Returns (signingRun base64 sampleLib (fun _ => knownDigest) (knownSigning pub)
      (fmtCryptSave base64 sampleLib sampleIv disk' keyFile priv password).2) 1 := by
  obtain ⟨mshare, shared, disk', hrun, hsplit, hsigning⟩ := signingRun_gen (fun _ => knownDigest)
    streaming_base64 inverse_sampleLib (by decide) (by decide) deployable_known startsClear_known (by decide)
  have hprime : Fact (Nat.Prime 257) := ⟨by norm_num⟩
  obtain ⟨robustP, hexplicit⟩ := exists_ibeSplitMaster deployable_known.q_eq (by norm_num)
    deployable_known.share_ne_zero
  obtain ⟨rfl, rfl⟩ := Prod.mk.inj (Option.some.inj (hsplit.symm.trans hexplicit))
  obtain ⟨⟨priv, pub⟩, hkey⟩ := Option.isSome_iff_exists.1
    (by decide +kernel : (ibeKeygen 3 knownParams).isSome)
  obtain ⟨B, hB⟩ := exists_mapsTo_known []
  have hmaps (bs : ByteString) : MapsTo (fun _ => knownDigest)
      (sharedParams knownParams 2 3 knownDraws.places robustP) bs 257 B := mapsTo_sharedParams.2 hB
  have hsub : twoNames ⊆ sampleNames.take 3 := by decide
  have hfits : (knownSigning pub).Fits sampleLib twoNames :=
    ⟨List.prefix_rfl, (by decide : savedFile ≠ certOut), (by decide : savedFile ≠ sigOut),
      (by decide : savedFile ≠ keyFile), (by decide : keyFile ≠ certOut), (by decide : keyFile ∉ twoNames),
      rfl, rfl⟩
  have hsalt : sampleIv.length = sampleLib.ivLength := rfl
  obtain ⟨-, result, hreturns, hone⟩ := hsigning (by decide) hsub rfl
    (show (knownSigning pub).paramsfile = savedFile from rfl) hfits
    (fun _ _ => rfl) (x := 3) (by norm_num) (by norm_num) (by decide) hkey hsalt (hmaps _) (hmaps _) (hmaps _)
  have hsum : addedPoint (knownDraws.x • B) (3 • B) = knownDraws.x • B + 3 • B := by
    rw [addedPoint, if_neg]
    rw [← add_nsmul]
    exact ne_zero_of_order (by norm_num : Nat.Prime 257) (addOrderOf_nsmul_of_lt (by norm_num) hB.1
      (by decide) (by decide))
  rw [hone.2 (Or.inl hsum)] at hreturns
  exact ⟨priv, pub, disk', hrun, hreturns⟩

end Sample

end IdBasedEncryption.SignCommands
