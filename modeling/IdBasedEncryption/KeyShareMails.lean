import IdBasedEncryption.MailedMessages
import IdBasedEncryption.RequestAgreement
import IdBasedEncryption.SavedStrings
import IdBasedEncryption.ThresholdKeys

namespace IdBasedEncryption.KeyShareMails

open ByteStrings FuelLoops Stdio WholeLines Format CryptFiles Crypto AuthenticatedStreams CurvePoints
open MordellGroup PointValues PointBytes IbeLib KeyEncapsulation PkgHtml RequestAgreement MasterShares
open CombineCommand RecipientSearch MessageFiles MailedMessages ThresholdKeys ScalarMultiples

variable {E D Cipher Mac : Type}

section Model

variable (mime : Mime E D) (lib : Openssl Cipher Mac) (md : ByteString → ByteString)

/-- What is written when the encryption succeeds, and nothing otherwise. -/
def fmtCryptSaveFp (salt bs : ByteString) (password : CString) : ByteString :=
  ((cryptoEncrypt lib salt bs (byteStringSet password)).map fun W =>
    bytes "\nW:\n" ++ mimePut mime W).getD []

/-- The lines in front of a key share. -/
def shareHead (servername : CString) : ByteString :=
  bytes "This is a key share\n" ++ (bytes "Server: " ++ (servername.val ++ bytes "\n\n"))

/-- The command that is run for the address and what is written to it. -/
def shareMail (salt : ByteString) (mailprog servername addr id passwd : CString)
    (mshare : ByteString) (params : Params) : Option (ByteString × ByteString) := do
  let kshare ← ibeExtractShare md mshare id params
  return ((mailprog.val ++ bytes " -sSHARE " ++ emailShare addr).take 1023,
    shareHead servername ++ fmtCryptSaveFp mime lib salt kshare passwd)

/-- One of the servers, with the share of the master key that it has loaded. -/
structure Server where
  pkg : Pkg
  mailprog : CString
  servername : CString
  mshare : ByteString

/-- The mail of a session, unless it ends without one. -/
def Server.mail (server : Server) (salt : ByteString) (year : CString) (params : Params)
    (session : Session) : Option (ByteString × ByteString) :=
  session.shared.bind fun r =>
    shareMail mime lib md salt server.mailprog server.servername r.1 (idOf year params r.1) r.2
      server.mshare params

/-- The server has mailed its share to `addr`, after the session with a request for
it, and the mail has been saved with `pw` as its password. -/
structure Mailed (server : Server) (year : CString) (params : Params) (addr pw : CString)
    (contents : Option ByteString) : Prop where
  exists_mail : ∃ buf rc session salt command text head tail,
    Returns (handleSession server.pkg buf ⟨Request.singleRequest addr pw, rc⟩) session ∧
    session.shared = some (addr, pw) ∧ salt.length = lib.ivLength ∧
    server.mail mime lib md salt year params session = some (command, text) ∧
    Skipped 99 (bytes "W:" <+: ·) (head ++ shareHead server.servername) ∧
    (tail = [] ∨ ∃ rest, tail = newline :: rest) ∧ contents = some (head ++ (text ++ tail))

end Model

section Loading

variable {mime : Mime E D} {lib : Openssl Cipher Mac} {md : ByteString → ByteString}

theorem shareMail_eq {salt mshare kshare : ByteString} {mailprog servername addr id passwd : CString}
    {params : Params} (h : ibeExtractShare md mshare id params = some kshare) :
    shareMail mime lib md salt mailprog servername addr id passwd mshare params =
      some ((mailprog.val ++ bytes " -sSHARE " ++ emailShare addr).take 1023,
        shareHead servername ++ fmtCryptSaveFp mime lib salt kshare passwd) := by
  rw [shareMail, h]
  rfl

variable {salt : ByteString} {disk : Disk} {fname : CString}

/-- A file with other lines in front of the encrypted byte string, and a blank line
behind it if there is more. -/
theorem returns_fmtCryptLoad_mail (hmime : Lossless mime) (hlib : Inverse lib)
    (h0 : 0 < lib.ivLength) (hlt : lib.ivLength < lib.mdLength) (hsalt : salt.length = lib.ivLength)
    {head tail bs : ByteString} (hhead : Skipped 99 (bytes "W:" <+: ·) head)
    (htail : tail = [] ∨ ∃ rest, tail = newline :: rest) {password : CString}
    (hfile : disk.files fname = some (head ++ (fmtCryptSaveFp mime lib salt bs password ++ tail))) :
    Returns (fmtCryptLoad mime lib disk fname password) (1, bs) := by
  have hopen := cryptoDecrypt_sealed hlib (byteStringSet password) h0 hlt hsalt bs
  have hsave : fmtCryptSaveFp mime lib salt bs password =
      bytes "\nW:\n" ++ text mime (sealed lib salt (byteStringSet password) bs) := by
    rw [fmtCryptSaveFp, cryptoEncrypt_eq hlib _ hsalt, Option.map_some, mimePut_eq hmime]
    rfl
  obtain ⟨W, hW⟩ : ∃ W, sealed lib salt (byteStringSet password) bs = W := ⟨_, rfl⟩
  rw [hsave, hW, List.append_assoc] at hfile
  rw [hW] at hopen
  have hadvance := returns_advanceTo_firstLine (by decide)
    (hhead.firstLine (firstLine_W (text mime W ++ tail)))
  have hget : ∃ fp, Returns (mimeGet mime ⟨text mime W ++ tail, false⟩) (W, fp) := by
    rcases htail with rfl | ⟨rest, rfl⟩
    · rw [List.append_nil]
      exact ⟨_, returns_mimeGet_end hmime W⟩
    · exact ⟨_, returns_mimeGet_text hmime W rest⟩
  obtain ⟨fp, hget⟩ := hget
  unfold fmtCryptLoad
  simp only [hfile]
  refine hadvance.bind (hget.bind ?_)
  rw [hopen]
  exact returns_some _

theorem returns_fmtCryptLoad_mailed (hmime : Lossless mime)
    (hlib : Inverse lib) (h0 : 0 < lib.ivLength) (hlt : lib.ivLength < lib.mdLength)
    {server : Server} {year : CString} {params : Params} {addr pw : CString}
    (h : Mailed mime lib md server year params addr pw (disk.files fname)) {kshare : ByteString}
    (hshare : ibeExtractShare md server.mshare (idOf year params addr) params = some kshare) :
    Returns (fmtCryptLoad mime lib disk fname pw) (1, kshare) := by
  obtain ⟨buf, rc, session, salt, command, text, head, tail, -, hshared, hsalt, hmail, hhead, htail,
    hfile⟩ := h.exists_mail
  rw [Server.mail, hshared, Option.bind_some, shareMail_eq hshare] at hmail
  obtain ⟨-, rfl⟩ := Prod.mk.inj (Option.some.inj hmail)
  rw [List.append_assoc, ← List.append_assoc head] at hfile
  exact returns_fmtCryptLoad_mail hmime hlib h0 hlt hsalt hhead htail hfile

end Loading

section Requests

/-- A name of a server that fits into its line. -/
theorem skipped_shareHead {servername : CString} (hnl : newline ∉ servername.val)
    (hlen : servername.val.length < 91) :
    Skipped 99 (bytes "W:" <+: ·) (shareHead servername) := by
  have hfirst : bytes "This is a key share\n" = bytes "This is a key share" ++ [newline] := by decide
  have hblank : bytes "\n\n" = [newline] ++ [newline] := by decide
  have hname : (bytes "Server: ").length = 8 := by decide
  have hline : IsLine 99 (bytes "Server: " ++ servername.val ++ [newline]) := by
    refine isLine_append_newline (fun h => ?_) ?_
    · exact (List.mem_append.1 h).elim (by decide) hnl
    · rw [List.length_append, hname]
      omega
  have htext : shareHead servername = (bytes "This is a key share" ++ [newline]) ++
      ((bytes "Server: " ++ servername.val ++ [newline]) ++ [newline]) := by
    simp only [shareHead, hfirst, hblank, List.append_assoc]
  rw [htext]
  refine .next (isLine_append_newline (by decide) (by decide)) (by decide)
    (.next hline ?_ (skipped_newline (by decide)))
  rw [List.append_assoc, show bytes "Server: " = 83 :: bytes "erver: " by decide]
  exact fun h => absurd (List.cons_prefix_cons.1 h).1 (by decide)

variable {mime : Mime E D} {lib : Openssl Cipher Mac} {md : ByteString → ByteString}
  {server : Server} {year addr pw : CString} {params : Params}

/-- A plain request is served, and its answer can be saved with the headers of a mail
in front of it. -/
theorem mailed_of_plain (haddr : newline ∉ addr.val) (hpw : newline ∉ pw.val)
    (hlen : 16 + addr.val.length + pw.val.length < 1024) (hplain : Plain addr) (hplain' : Plain pw)
    (hlast : pw.val.getLast? ≠ some 13) (hnl : newline ∉ server.servername.val)
    (hshort : server.servername.val.length < 91) {salt head command text : ByteString}
    (hsalt : salt.length = lib.ivLength) (hhead : Skipped 99 (bytes "W:" <+: ·) head)
    (hmail : shareMail mime lib md salt server.mailprog server.servername addr (idOf year params addr)
      pw server.mshare params = some (command, text)) :
    Mailed mime lib md server year params addr pw (some (head ++ text)) := by
  have hagrees : Agrees server.pkg [] 0 addr pw := (agrees_iff_query haddr hpw hlen).2
    (foldlM_query hplain hplain' ((trimmed_eq_self_iff pw).2 hlast))
  obtain ⟨written, hrun⟩ := hagrees
  refine ⟨[], 0, _, salt, command, text, head, [], hrun, rfl, hsalt, hmail, ?_, Or.inl rfl, ?_⟩
  · exact hhead.append (skipped_shareHead hnl hshort)
  · rw [List.append_nil]

end Requests

section Combining

variable {mime : Mime E D} {lib : Openssl Cipher Mac} {params : Params} {disk : Disk}
  {passwords : Passwords} {kshare : List ByteString}

/-- The command saves the key that the shares make up. -/
theorem returns_combine {privkeyfile : CString} {argv : List CString} (hargv : 3 ≤ argv.length)
    (hlen : params.sharet = kshare.length)
    (hsession : Session mime lib params privkeyfile passwords disk argv kshare)
    {key old : ByteString} (hcombine : ibeCombine old kshare params = some (1, key)) (salt : ByteString)
    {pw : CString} (hpw : passwords kshare.length = some pw) :
    Returns (combine mime lib salt params privkeyfile old passwords disk argv)
      (0, (fmtCryptSave mime lib salt disk privkeyfile key pw).2) := by
  have henough := hsession.enough
  have htake : ((argv.drop 2).take params.sharet.toNat).length = kshare.length := by
    rw [List.length_take, List.length_drop]
    omega
  have hload := returns_loadShares (i := 0) htake fun j hj => by
    obtain ⟨pw, ksfile, hpw, hfile, hrun⟩ := hsession.loads j hj
    have hj' : j < params.sharet.toNat := by omega
    refine ⟨pw, ksfile, by rwa [Nat.zero_add], ?_, hrun⟩
    rwa [List.getElem?_take_of_lt hj', List.getElem?_drop, Nat.add_comm]
  unfold combine
  simp only [if_neg (show ¬argv.length < 3 by omega),
    if_neg (show ¬(argv.length : Int) - 2 < params.sharet by omega)]
  refine hload.bind ?_
  have hcount : params.sharet.toNat = kshare.length := by omega
  simp only [hcombine, Option.bind_some, hcount, hpw]
  exact returns_some _

end Combining

section Protocol

variable {mime : Mime E D} {lib : Openssl Cipher Mac} {md : ByteString → ByteString} {year : CString}
  {params : Params} {disk : Disk} {passwords : Passwords} {servers : List Server}

/-- The files for the command are mails of the servers, in their order, and it can
write its result. -/
structure Collected (mime : Mime E D) (lib : Openssl Cipher Mac) (md : ByteString → ByteString)
    (year : CString) (params : Params) (servers : List Server) (addr pw privkeyfile : CString)
    (passwords : Passwords) (disk : Disk) (argv : List CString) : Prop where
  usage : 3 ≤ argv.length
  enough : servers.length + 2 ≤ argv.length
  mailed : ∀ k (hk : k < servers.length), ∃ pw ksfile, passwords k = some pw ∧
    argv[k + 2]? = some ksfile ∧ Mailed mime lib md servers[k] year params addr pw (disk.files ksfile)
  password : passwords servers.length = some pw
  writable : disk.writable privkeyfile = true

/-- Shares of the key in the mails make a session for the command. -/
theorem Collected.session {addr pw privkeyfile : CString} {argv : List CString}
    (h : Collected mime lib md year params servers addr pw privkeyfile passwords disk argv)
    (hmime : Lossless mime) (hlib : Inverse lib) (h0 : 0 < lib.ivLength)
    (hlt : lib.ivLength < lib.mdLength) (hsharet : params.sharet = servers.length)
    {kshare : List ByteString} (hlen : kshare.length = servers.length)
    (hshares : ∀ k (hk : k < servers.length) (hk' : k < kshare.length),
      ibeExtractShare md servers[k].mshare (idOf year params addr) params = some kshare[k]) :
    Session mime lib params privkeyfile passwords disk argv kshare where
  enough := by
    have henough := h.enough
    omega
  loads k hk := by
    have hks : k < servers.length := hlen ▸ hk
    obtain ⟨pw, ksfile, hpw, hfile, hmailed⟩ := h.mailed k hks
    exact ⟨pw, ksfile, hpw, hfile,
      returns_fmtCryptLoad_mailed hmime hlib h0 hlt hmailed (hshares k hks hk)⟩
  password := by
    rw [hlen, h.password]
    rfl
  writable := h.writable

section Shared

variable (t n : Nat) (x : Nat → Int) (robustP : List Point)

theorem mapByteStringToPoint_sharedParams (bs : ByteString) :
    mapByteStringToPoint md bs (sharedParams params t n x robustP) =
      mapByteStringToPoint md bs params := by
  rw [mapByteStringToPoint_eq, mapByteStringToPoint_eq]
  rfl

theorem ibeExtract_sharedParams (master : ByteString) (id : CString) :
    ibeExtract md master id (sharedParams params t n x robustP) = ibeExtract md master id params := by
  simp only [ibeExtract, ibeExtractByteString, mapByteStringToPoint_sharedParams]
  rfl

theorem kemSecret_sharedParams (r : Int) :
    kemSecret md r (sharedParams params t n x robustP) = kemSecret md r params := by
  funext id
  simp only [kemSecret, mapToPoint, mapByteStringToPoint_sharedParams]
  rfl

/-- The shared part of the parameters has nothing to do with encryption. -/
theorem kemCorrect_sharedParams {master U : ByteString} {r : Int} {ids : List CString}
    (h : KemCorrect md master r U ids params) :
    KemCorrect md master r U ids (sharedParams params t n x robustP) := by
  obtain ⟨secrets, U', henc, hsecrets⟩ := h
  refine ⟨secrets, U', ?_, hsecrets.imp fun id secret ⟨key, hkey, hdec⟩ => ⟨key, ?_, hdec⟩⟩
  · rw [← henc, ibeKemEncryptArray, ibeKemEncryptArray, kemSecret_sharedParams]
    rfl
  · rw [ibeExtract_sharedParams, hkey]

end Shared

variable {p : Nat} [hp : Fact p.Prime] {q : Nat}

theorem mapsTo_sharedParams {t n : Nat} {places : Nat → Int} {robustP : List Point} {bs : ByteString}
    {B : MordellGroup.E p} :
    MapsTo md (sharedParams params t n places robustP) bs q B ↔ MapsTo md params bs q B := by
  rw [MapsTo, mapByteStringToPoint_sharedParams, MapsTo]

variable [hq : Fact q.Prime] [hp12 : Fact (p % 12 = 11)]

omit hq in
/-- What is encrypted under the shared parameters is what their master key opens. -/
theorem delivers_shared (hmime : Lossless mime) (hlib : Inverse lib) (h0 : 0 < lib.ivLength)
    (hlt : lib.ivLength < lib.mdLength) {x t n : Nat} {name : CString} {G : MordellGroup.E p}
    (hf : Founded q x name G params) {places : Nat → Int} {robustP : List Point} {draws : Draws}
    (hdraws : draws.Fits lib p q x) {argv : List CString}
    (hto : Recipients md year (sharedParams params t n places robustP) p q argv) (input : ByteString) :
    ∃ file, Returns (encrypt mime lib md draws year (sharedParams params t n places robustP) argv input)
        (0, file) ∧
      Delivers mime lib md (byteStringSetMpz x) year (sharedParams params t n places robustP) argv input
        file := by
  have hids : ∀ id ∈ (argv.drop 1).map (idOf year (sharedParams params t n places robustP)),
      ∃ B : MordellGroup.E p, MapsTo md params (byteStringSet id) q B := by
    intro id hid
    obtain ⟨addr, haddr, rfl⟩ := List.mem_map.1 hid
    obtain ⟨B, hB⟩ := hto.mapsTo addr haddr
    exact ⟨B, mapsTo_sharedParams.1 hB⟩
  have hkem := kemCorrect_sharedParams t n places robustP (hf.kemCorrect hdraws.kem hdraws.lt hids [])
  exact delivers_of_kemCorrect hmime hlib h0 hlt hdraws.salts hdraws.salt hkem hto.two_le
    hto.newline_notMem input

/-- The share of the key that a server with the share at position `i` extracts. -/
theorem ibeExtractShare_masterShare (year addr : CString) (hq64 : 64 < q) (hqp : q ∣ p + 1)
    (hpq : params.q = q) (hpp : params.curve.p = p) {m t n : Nat} (ht : 0 < t) {r places : Nat → Int}
    {pos : List Nat} (hc : ThresholdCondition p q m t n r places pos) (robustP : List Point)
    {B : MordellGroup.E p}
    (hB : MapsTo md params (byteStringSet (idOf year (sharedParams params t n places robustP) addr)) q B)
    (hBq : q • B = 0) {i : Nat} (hi : i ∈ pos) (hin : i < n) :
    ibeExtractShare md (masterShare (byteStringSetMpz m) t params r places i)
        (idOf year (sharedParams params t n places robustP) addr)
        (sharedParams params t n places robustP) =
      some (keyShare ((i : Int) % 256)
        (residueMultiple hBq (shareValue m t r (places i) q : ZMod q))) := by
  have hmap : mapByteStringToPoint md (byteStringSet (idOf year (sharedParams params t n places
      robustP) addr)) (sharedParams params t n places robustP) = some (ofPoint B) := by
    rw [mapByteStringToPoint_sharedParams]
    exact hB.2
  exact ibeExtractShareByteString_eq hq64 hqp
    (show (sharedParams params t n places robustP).q = q from hpq) hpp ht hc hB.1 hmap hi hin hBq

variable {x t n : Nat} {name : CString} {G : MordellGroup.E p} {r places : Nat → Int} {pos : List Nat}

/-- The key that the command makes of the mails of enough servers is the one that belongs to
the address. -/
theorem Collected.returns_combine_shared (hmime : Lossless mime) (hlib : Inverse lib)
    (h0 : 0 < lib.ivLength) (hlt : lib.ivLength < lib.mdLength) (hf : Founded q x name G params)
    (hc : Enough p q x t n r places pos) (robustP : List Point) {addr pw privkeyfile : CString}
    {argv : List CString}
    (h : Collected mime lib md year (sharedParams params t n places robustP) servers addr pw privkeyfile
      passwords disk argv)
    (hservers : List.Forall₂ (fun (server : Server) i =>
      server.mshare = masterShare (byteStringSetMpz x) t params r places i) servers pos)
    {B : MordellGroup.E p}
    (hB : MapsTo md params (byteStringSet (idOf year (sharedParams params t n places robustP) addr)) q B)
    (salt old : ByteString) :
    Returns (combine mime lib salt (sharedParams params t n places robustP) privkeyfile old passwords disk
        argv)
      (0, (fmtCryptSave mime lib salt disk privkeyfile (byteStringSetPoint (ofPoint (x • B))) pw).2) ∧
    ibeExtract md (byteStringSetMpz x) (idOf year (sharedParams params t n places robustP) addr)
      (sharedParams params t n places robustP) = some (byteStringSetPoint (ofPoint (x • B))) := by
  have hsuits := (hf.established hc.master).suits
  have hpq : params.q = q := hsuits.q_eq
  have hpp : params.curve.p = p := hsuits.curve.p_eq
  have hBq := smul_eq_zero_of_order hB.1
  obtain ⟨kshare, hkshare⟩ : ∃ kshare, pos.map (fun i : Nat => keyShare ((i : Int) % 256)
      (residueMultiple hBq (shareValue x t r (places i) q : ZMod q))) = kshare := ⟨_, rfl⟩
  have hklen : kshare.length = servers.length := by
    rw [← hkshare, List.length_map, hservers.length_eq]
  have hshares : ∀ k (hk : k < servers.length) (hk' : k < kshare.length),
      ibeExtractShare md servers[k].mshare (idOf year (sharedParams params t n places robustP) addr)
        (sharedParams params t n places robustP) = some kshare[k] := by
    intro k hk hk'
    have hkp : k < pos.length := hservers.length_eq ▸ hk
    have hmshare := hservers.get hk hkp
    have hmem := List.getElem_mem hkp
    simp only [List.get_eq_getElem] at hmshare
    have hext := ibeExtractShare_masterShare year addr hf.lt (dvd_of_mul_left_dvd hf.dvd) hpq hpp
      hc.sharet_pos hc.toThresholdCondition robustP hB hBq hmem (hc.pos_lt _ hmem)
    simp only [hmshare, ← hkshare, List.getElem_map]
    exact hext
  have hcombine := ibeCombine_keyShares hf.lt hpq hpp hc.places_mem hc.injOn hc.pos_lt hc.sharet_pos
    hc.toThresholdCondition robustP hB.1 hBq hf.pos hf.x_lt hc.length_eq old
  rw [hkshare] at hcombine
  have hpwk : passwords kshare.length = some pw := hklen ▸ h.password
  have hsharet : (sharedParams params t n places robustP).sharet = servers.length := by
    rw [hservers.length_eq, hc.length_eq]
    rfl
  refine ⟨returns_combine h.usage (by rw [hsharet, hklen]) (h.session hmime hlib h0 hlt hsharet hklen
    hshares) hcombine salt hpwk, ?_⟩
  rw [ibeExtract_sharedParams]
  exact ibeExtractByteString_eq hq.out hf.lt hpp hf.pos hf.x_lt hc.master hB

/-- Any servers of a number that reaches the threshold, in any order, make up the key
that opens what has been encrypted for the address. -/
theorem decrypt_combined (md : ByteString → ByteString) (year : CString) (hmime : Lossless mime)
    (hlib : Inverse lib) (h0 : 0 < lib.ivLength) (hlt : lib.ivLength < lib.mdLength)
    (hf : Founded q x name G params) (hc : Enough p q x t n r places pos) :
    ∃ mshare shared, ibeSplitMaster (byteStringSetMpz x) t n params r places = some (mshare, shared) ∧
      ∀ {draws : Draws} {argv : List CString}, draws.Fits lib p q x →
        Recipients md year shared p q argv →
        ∀ input, ∃ file, Returns (encrypt mime lib md draws year shared argv input) (0, file) ∧
          ∀ addr ∈ argv.drop 1, Fine ((argv.drop 1).map (idOf year shared)) (idOf year shared addr) →
          ∀ {servers : List Server},
            List.Forall₂ (fun server i => mshare[i]? = some server.mshare) servers pos →
          ∀ {pw privkeyfile passwords disk files}, Collected mime lib md year shared servers addr pw
              privkeyfile passwords disk files →
          ∀ salt old, salt.length = lib.ivLength →
            ∃ disk', Returns (combine mime lib salt shared privkeyfile old passwords disk files)
                (0, disk') ∧
              ∀ cmd stack head tail, Skipped 99 (bytes "-----BEGIN IBE-----" <+: ·) head →
                Returns (decrypt mime lib md year shared privkeyfile (some pw) disk' stack [cmd, addr]
                  (head ++ (file ++ tail))) (0, input) := by
  have hsuits := (hf.established hc.master).suits
  obtain ⟨robustP, hsplit⟩ := exists_ibeSplitMaster hsuits.q_eq hc.sharet_pos hc.share_ne_zero
  refine ⟨_, _, hsplit, fun {draws argv} hdraws hto input => ?_⟩
  obtain ⟨file, hfile, hdelivers⟩ := delivers_shared hmime hlib h0 hlt hf hdraws hto input
  refine ⟨file, hfile, fun addr haddr hfine {servers} hservers {pw privkeyfile passwords disk files} hcoll
    salt old hsalt => ?_⟩
  obtain ⟨B, hB⟩ := hto.mapsTo addr haddr
  have hmshares : List.Forall₂ (fun (server : Server) i =>
      server.mshare = masterShare (byteStringSetMpz x) t params r places i) servers pos := by
    refine List.forall₂_iff_get.2 ⟨hservers.length_eq, fun k hk hkp => ?_⟩
    have hmshare := hservers.get hk hkp
    rw [getElem?_masterShares (hc.pos_lt _ (List.get_mem pos ⟨k, hkp⟩)), Option.some.injEq] at hmshare
    exact hmshare.symm
  obtain ⟨hrun, hkey⟩ := hcoll.returns_combine_shared hmime hlib h0 hlt hf hc robustP hmshares
    (mapsTo_sharedParams.1 hB) salt old
  refine ⟨_, hrun, fun cmd stack head tail hhead => ?_⟩
  have hload := fmtCryptLoad_save hmime hlib h0 hlt hsalt hcoll.writable
    (byteStringSetPoint (ofPoint (x • B))) pw
  exact (hdelivers cmd addr (hto.newline_notMem addr haddr) hfine privkeyfile pw _ _ hload stack head
    hhead).1 (List.mem_map_of_mem haddr) hkey tail

end Protocol

section Sample

open Fp2Arith DecryptionStreams BannedList SavedStrings

/-- The server with the share at a position. -/
def serverAt (i : Nat) : Server :=
  ⟨⟨[], []⟩, charstarFromByteString (bytes "/usr/bin/mail"), charstarFromByteString (bytes "server 0"),
    masterShare (byteStringSetMpz 2) 2 genParams (fun _ => 1) (fun i => i + 1) i⟩

def mailFiles : List CString := [bob, bob, shareFile, savedFile]

/-- Two servers answer, their mails are saved, and the key opens a message. -/
theorem decrypt_combined_gen : ∃ mshare shared file disk disk',
    ibeSplitMaster (byteStringSetMpz 2) 2 3 genParams (fun _ => 1) (fun i => i + 1) =
      some (mshare, shared) ∧
    Returns (encrypt base64 sampleLib (fun _ => genId.val) sampleDraws sampleYear shared [bob, bob]
      (bytes "hi")) (0, file) ∧
    Collected base64 sampleLib (fun _ => genId.val) sampleYear shared [serverAt 2, serverAt 0] bob
      samplePassword keyFile (fun _ => some samplePassword) disk mailFiles ∧
    Returns (combine base64 sampleLib sampleIv shared keyFile [] (fun _ => some samplePassword) disk
      mailFiles) (0, disk') ∧
    Returns (decrypt base64 sampleLib (fun _ => genId.val) sampleYear shared keyFile
      (some samplePassword) disk' ⟨[], []⟩ [bob, bob] file) (0, bytes "hi") := by
  obtain ⟨mshare, shared, hsplit, hprotocol⟩ := decrypt_combined (fun _ => genId.val) sampleYear
    lossless_base64 inverse_sampleLib (by decide) (by decide) founded_gen enough_gen
  have hq : genParams.q = (67 : Nat) := by decide
  obtain ⟨robustP, hexplicit⟩ := exists_ibeSplitMaster hq (by norm_num)
    thresholdCondition_gen.share_ne_zero
  obtain ⟨rfl, rfl⟩ := Prod.mk.inj (Option.some.inj (hsplit.symm.trans hexplicit))
  have hto : Recipients (fun _ => genId.val) sampleYear
      (sharedParams genParams 2 3 (fun i => (i : Int) + 1) robustP) 1607 67 [bob, bob] :=
    ⟨le_rfl, recipients_bob.newline_notMem, fun _ _ => ⟨gen, mapsTo_sharedParams.2 (mapsTo_const _)⟩⟩
  obtain ⟨file, hfile, hdecrypt⟩ := hprotocol fits_sampleDraws hto (bytes "hi")
  have hfine : Fine (([bob, bob] : List CString).drop 1 |>.map (idOf sampleYear
      (sharedParams genParams 2 3 (fun i => (i : Int) + 1) robustP)))
      (idOf sampleYear (sharedParams genParams 2 3 (fun i => (i : Int) + 1) robustP) bob) := fine_genId
  -- the mail of a server, for each of the two positions
  have hmails : ∀ i ∈ [2, 0], ∃ text, Mailed base64 sampleLib (fun _ => genId.val) (serverAt i)
      sampleYear (sharedParams genParams 2 3 (fun i => (i : Int) + 1) robustP) bob samplePassword
      (some text) := by
    intro i hi
    have hp : genParams.curve.p = (1607 : Nat) := by decide
    have hshare := ibeExtractShare_masterShare sampleYear bob (by norm_num) (by norm_num) hq hp
      (by norm_num) thresholdCondition_gen robustP (mapsTo_const _) (smul_eq_zero_of_order addOrderOf_gen)
      hi ((by decide : ∀ i ∈ [2, 0], i < 3) i hi)
    have hsalt : sampleIv.length = sampleLib.ivLength := rfl
    exact ⟨_, mailed_of_plain (by decide) (by decide) (by decide) ⟨by decide, by decide, by decide⟩
      ⟨by decide, by decide, by decide⟩ (by decide) (show newline ∉ bytes "server 0" by decide)
      (by decide : (bytes "server 0").length < 91) hsalt .nil (shareMail_eq hshare)⟩
  obtain ⟨text₂, hmail₂⟩ := hmails 2 (by decide)
  obtain ⟨text₀, hmail₀⟩ := hmails 0 (by decide)
  have hne : savedFile ≠ shareFile := by decide
  have hcoll : Collected base64 sampleLib (fun _ => genId.val) sampleYear
      (sharedParams genParams 2 3 (fun i => (i : Int) + 1) robustP) [serverAt 2, serverAt 0] bob
      samplePassword keyFile (fun _ => some samplePassword)
      ⟨fun f => if f = shareFile then some text₂ else some text₀, fun _ => true, []⟩ mailFiles := by
    refine ⟨by decide, by decide, fun k hk => ?_, rfl, rfl⟩
    have hk2 : k < 2 := hk
    interval_cases k
    · exact ⟨samplePassword, shareFile, rfl, rfl, hmail₂⟩
    · refine ⟨samplePassword, savedFile, rfl, rfl, ?_⟩
      simp only [if_neg hne]
      exact hmail₀
  obtain ⟨disk', hcombine, hread⟩ := hdecrypt bob (by simp) hfine
    (.cons rfl (.cons rfl .nil)) hcoll sampleIv [] rfl
  have hopen := hread bob ⟨[], []⟩ [] [] .nil
  rw [List.nil_append, List.append_nil] at hopen
  exact ⟨_, _, file, _, disk', hsplit, hfile, hcoll, hcombine, hopen⟩

end Sample

end IdBasedEncryption.KeyShareMails
