import IdBasedEncryption.Handshakes
import IdBasedEncryption.InfectLetters

namespace IdBasedEncryption.Deployments

open CurvePoints MordellGroup PointValues ScalarMultiples CofactorMultiples ByteStrings PointBytes IbeLib
open KeyEncapsulation FuelLoops Stdio WholeLines Format CryptFiles SavedStrings Crypto AuthenticatedStreams
open RecipientSearch MessageFiles MailedMessages KeyShareMails ThresholdKeys MasterFiles MasterShares
open CombineCommand SolinasSearch ParamsRoundTrip SetupOutcome Generation ScriptRuns InfectLetters
open PkgHtml FormFields RequestAgreement Config ShareCollection Handshakes

variable {E D Cipher Mac : Type}

section Model

variable (mime : Mime E D) (lib : Openssl Cipher Mac) (md : ByteString → ByteString)

/-- What the configuration of a server gives. -/
structure PkgConf where
  paramsfile : CString
  sharefile : CString
  htmlfile : CString
  mailprog : CString
  servername : CString

/-- A machine with a server on it, before the server has loaded anything. -/
structure Host where
  conf : PkgConf
  params : Params
  disk : Disk

/-- `main` up to the sockets: the code that it exits with, or what has been loaded. -/
def pkghtml (host : Host) (fuel : Nat) : Option (Except Int (Params × Server)) :=
  (fmtLoadParams mime host.params host.disk host.conf.paramsfile fuel).bind fun r =>
    if r.1 ≠ 1 then some (.error 1)
    else
      (fmtLoadByteString mime host.disk host.conf.sharefile fuel).bind fun s =>
        if s.1.1 ≠ 1 then some (.error 1)
        else
          (fmtLoadRawByteString [] host.disk host.conf.htmlfile fuel).map fun h =>
            if h.1 ≠ 1 then .error 1
            else .ok (r.2, ⟨⟨htmlcomment host.conf.servername, h.2⟩, host.conf.mailprog,
              host.conf.servername, s.1.2⟩)

/-- A user of the system. The passwords are those for the servers, in their order, and
behind them the one for the key. -/
structure Client where
  year : CString
  params : Params
  paramsfile : CString
  privkeyfile : CString
  cnfctx : ConfCtx
  cmd : CString
  addr : CString
  passwords : Nat → CString
  net : Network
  buffers : Nat → Buffers
  rc : Int

/-- `ibe request` with the address. -/
def Client.request (client : Client) (outcomes : Outcomes) (disk : Disk) : Nat → Option (Int × Collect) :=
  ibe mime (1, collectInit) (fun params => ShareCollection.request outcomes params client.cnfctx
    [client.cmd, client.addr]) client.params disk client.paramsfile

/-- `ibe combine` with the address and the files of the key shares. -/
def Client.combine (client : Client) (salt old : ByteString) (disk : Disk) (ksfiles : List CString) :
    Nat → Option (Int × Disk) :=
  ibe mime (1, disk) (fun params => CombineCommand.combine mime lib salt params client.privkeyfile old
    (fun i => some (client.passwords i)) disk (client.cmd :: client.addr :: ksfiles)) client.params disk
      client.paramsfile

/-- `ibe decrypt` with the address and the password for the key. -/
def Client.decrypt (client : Client) (pw : CString) (stack : Stack) (disk : Disk) (input : ByteString) :
    Nat → Option (Int × ByteString) :=
  ibe mime (1, []) (fun params => MailedMessages.decrypt mime lib md client.year params client.privkeyfile
    (some pw) disk stack [client.cmd, client.addr] input) client.params disk client.paramsfile

end Model

section Servers

theorem exists_forall₂ {α β γ : Type} {R : α → β → Prop} {S : α → γ → Prop} {T : β → γ → Prop}
    {as : List α} {bs : List β} (h : List.Forall₂ R as bs)
    (hR : ∀ a, ∀ b ∈ bs, R a b → ∃ c, S a c ∧ T b c) :
    ∃ cs, List.Forall₂ S as cs ∧ List.Forall₂ T bs cs := by
  induction h with
  | nil => exact ⟨[], .nil, .nil⟩
  | @cons a b as bs hab h ih =>
      obtain ⟨c, hc, hc'⟩ := hR a b List.mem_cons_self hab
      obtain ⟨cs, hcs, hcs'⟩ := ih fun a b hb => hR a b (List.mem_cons_of_mem _ hb)
      exact ⟨c :: cs, .cons hc hcs, .cons hc' hcs'⟩

variable {mime : Mime E D} {host : Host} {paramsfile f : CString} {disk : Disk} {shared : Params}
  {mshare : ByteString}

/-- A host has the parameters as they are on `disk` and the share from the file `f`. -/
structure Installed (paramsfile : CString) (disk : Disk) (host : Host) (f : CString) : Prop where
  params_eq : host.disk.files host.conf.paramsfile = disk.files paramsfile
  share_eq : host.disk.files host.conf.sharefile = disk.files f
  exists_html : ∃ html, host.disk.files host.conf.htmlfile = some html ∧ html.length < 2 ^ 30
  newline_notMem : newline ∉ host.conf.servername.val
  length_le : host.conf.servername.val.length ≤ 64

theorem fmtLoadByteString_congr {disk₁ disk₂ : Disk} {f₁ f₂ : CString} (h : disk₁.files f₁ = disk₂.files f₂) :
    fmtLoadByteString mime disk₁ f₁ = fmtLoadByteString mime disk₂ f₂ := by
  funext fuel
  rw [fmtLoadByteString, h, fmtLoadByteString]

theorem fmtLoadParams_congr {disk₁ disk₂ : Disk} {f₁ f₂ : CString} (params : Params)
    (h : disk₁.files f₁ = disk₂.files f₂) :
    fmtLoadParams mime params disk₁ f₁ = fmtLoadParams mime params disk₂ f₂ := by
  funext fuel
  rw [fmtLoadParams, fmtLoadByteString_congr h, fmtLoadParams]

/-- What a server is after its start. -/
structure Started (mshare : ByteString) (server : Server) : Prop where
  named : Named server.pkg server.servername
  mshare_eq : server.mshare = mshare

theorem Installed.returns_pkghtml (h : Installed paramsfile disk host f)
    (hparams : ∀ params, Returns (fmtLoadParams mime params disk paramsfile) (1, shared))
    {writes : List (Nat × Nat)}
    (hshare : Returns (fmtLoadByteString mime disk f) ((1, mshare), writes)) :
    ∃ server, Returns (pkghtml mime host) (.ok (shared, server)) ∧ Started mshare server := by
  obtain ⟨html, hhtml, hlen⟩ := h.exists_html
  have hload := hparams host.params
  rw [← fmtLoadParams_congr host.params h.params_eq] at hload
  rw [← fmtLoadByteString_congr h.share_eq] at hshare
  have hraw := returns_fmtLoadRawByteString hhtml hlen []
  refine ⟨⟨⟨htmlcomment host.conf.servername, html⟩, host.conf.mailprog, host.conf.servername, mshare⟩,
    hload.bind ?_, ⟨⟨rfl, h.newline_notMem, h.length_le⟩, rfl⟩⟩
  simp only [ne_eq, not_true_eq_false, if_false]
  refine hshare.bind ?_
  simp only [not_true_eq_false, if_false]
  exact hraw.map _

end Servers

section Clients

variable {mime : Mime E D} {lib : Openssl Cipher Mac} {md : ByteString → ByteString} {client : Client}
  {servers : List Server} {shared : Params} {disk : Disk} {ksfiles : List CString}

/-- The first servers of the list are those that are meant, and the form does not change
what is sent to them. -/
structure Client.Reaches (client : Client) (servers : List Server) : Prop where
  exists_hosts : ∃ hosts, getListParam client.cnfctx serversName 0 none = some hosts ∧
    servers.length ≤ hosts.length ∧ ∀ i (hi : i < servers.length), ∀ host ∈ hosts[i]?,
      client.net (serverName host) (serverPort (getIntParam client.cnfctx defaultPortName 0 31831) host) =
        some servers[i].pkg
  plain : ∀ i < servers.length, PlainRequest client.addr (client.passwords i)

/-- The mail of a server behind the attempt of the client at it, with the headers in front
of it that it has got on its way. -/
structure Received (mime : Mime E D) (lib : Openssl Cipher Mac) (md : ByteString → ByteString)
    (client : Client) (shared : Params) (i : Nat) (server : Server) (contents : Option ByteString) :
    Prop where
  exists_mail : ∃ a salt command text head tail,
    Returns (singleRequest server.pkg (client.buffers i) client.rc client.addr
      (some (client.passwords i))) a ∧ salt.length = lib.ivLength ∧
    server.mail mime lib md salt client.year shared ⟨[], a.shared⟩ = some (command, text) ∧
    Skipped 99 (bytes "W:" <+: ·) (head ++ shareHead server.servername) ∧
    (tail = [] ∨ ∃ rest, tail = newline :: rest) ∧ contents = some (head ++ (text ++ tail))

/-- The client has all mails in its files, and it can save a key beside the parameters. -/
structure Client.Collects (mime : Mime E D) (lib : Openssl Cipher Mac) (md : ByteString → ByteString)
    (client : Client) (servers : List Server) (shared : Params) (disk : Disk) (ksfiles : List CString) :
    Prop where
  params_load : Returns (fmtLoadParams mime client.params disk client.paramsfile) (1, shared)
  nonempty : servers ≠ []
  length_eq : ksfiles.length = servers.length
  received : ∀ i (hi : i < servers.length) (hi' : i < ksfiles.length),
    Received mime lib md client shared i servers[i] (disk.files ksfiles[i])
  writable : disk.writable client.privkeyfile = true
  ne_privkeyfile : client.paramsfile ≠ client.privkeyfile

theorem Received.mailed {i : Nat} {server : Server} {contents : Option ByteString}
    (h : Received mime lib md client shared i server contents)
    (hnamed : Named server.pkg server.servername) (hplain : PlainRequest client.addr (client.passwords i)) :
    Mailed mime lib md server client.year shared client.addr (client.passwords i) contents := by
  obtain ⟨a, salt, command, text, head, tail, ha, hsalt, hmail, hhead, htail, hcontents⟩ := h.exists_mail
  obtain rfl := ha.unique (returns_singleRequest hnamed hplain (client.buffers i) client.rc)
  have hsession := returns_handleSession_query server.pkg (client.buffers i).post client.rc
    hplain.newline_notMem_email hplain.newline_notMem_password hplain.length_lt
  rw [foldlM_query hplain.plain_email hplain.plain_password
    ((trimmed_eq_self_iff (client.passwords i)).2 hplain.getLast_ne)] at hsession
  exact ⟨_, _, _, salt, command, text, head, tail, hsession, rfl, hsalt, hmail, hhead, htail, hcontents⟩

theorem Client.Collects.collected (h : client.Collects mime lib md servers shared disk ksfiles)
    (hnamed : ∀ server ∈ servers, Named server.pkg server.servername)
    (hplain : ∀ i < servers.length, PlainRequest client.addr (client.passwords i)) :
    Collected mime lib md client.year shared servers client.addr (client.passwords servers.length)
      client.privkeyfile (fun i => some (client.passwords i)) disk (client.cmd :: client.addr :: ksfiles) where
  usage := by
    have hpos := List.length_pos_iff.2 h.nonempty
    rw [List.length_cons, List.length_cons, h.length_eq]
    omega
  enough := by rw [List.length_cons, List.length_cons, h.length_eq]
  mailed k hk := by
    have hk' : k < ksfiles.length := h.length_eq ▸ hk
    refine ⟨client.passwords k, ksfiles[k], rfl, ?_, ?_⟩
    · rw [List.getElem?_cons_succ, List.getElem?_cons_succ, List.getElem?_eq_getElem hk']
    · exact (h.received k hk hk').mailed (hnamed _ (List.getElem_mem hk)) (hplain k hk)
  password := rfl
  writable := h.writable

/-- All servers that are needed answer the request. -/
theorem Client.Reaches.returns_request (h : client.Reaches servers)
    (hload : Returns (fmtLoadParams mime client.params disk client.paramsfile) (1, shared))
    (hnamed : ∀ server ∈ servers, Named server.pkg server.servername)
    (hsharet : shared.sharet = servers.length) {outcomes : Outcomes}
    (hrun : Attempts client.net client.buffers client.rc client.addr (fun i => some (client.passwords i))
      outcomes) :
    ∃ c, Returns (client.request mime outcomes disk) (0, c) ∧ c.i = servers.length := by
  obtain ⟨hosts, hhosts, hlen, hnet⟩ := h.exists_hosts
  have hsucceeds : ∀ i < servers.length, Succeeds (getIntParam client.cnfctx defaultPortName 0 31831)
      outcomes hosts i := by
    intro i hi host hhost
    have hpkg := hnet i hi host hhost
    obtain ⟨a, ha, hstatus⟩ := hrun.up i hpkg
    have hreturns := returns_singleRequest (hnamed _ (List.getElem_mem hi)) (h.plain i hi)
      (client.buffers i) client.rc
    rw [hstatus, ha.unique hreturns]
  obtain ⟨c, hret, hc⟩ := returns_request_of_succeeds hsharet
    (le_refl [client.cmd, client.addr].length) hhosts hlen hsucceeds
  exact ⟨c, returns_ibe hload hret, hc⟩

end Clients

section Main

variable {mime : Mime E D} {lib : Openssl Cipher Mac} {md : ByteString → ByteString} {disk : Disk}
  {probabPrime : Int → Bool} {draws : GenDraws} {qbits t n : Nat} {systemid paramsfile : CString}
  {sharefile : List CString} {params shared : Params} {master : ByteString}
  {client : Client} {servers : List Server}

variable {p : Nat} [hp : Fact p.Prime] {q : Nat}

variable [hp12 : Fact (p % 12 = 11)]

/-- A message to some addresses, that of the client among them. -/
structure Client.Addressed (lib : Openssl Cipher Mac) (md : ByteString → ByteString) (p q x : Nat)
    [Fact p.Prime] [Fact (p % 12 = 11)] (client : Client) (shared : Params) (draws : Draws)
    (argv : List CString) : Prop extends draws.Fits lib p q x,
    Recipients md client.year shared p q argv where
  mem : client.addr ∈ argv.drop 1
  fine : Fine ((argv.drop 1).map (idOf client.year shared)) (idOf client.year shared client.addr)

/-- What a client gets from the system: the servers answer, each of them has a mail for it,
and the key that the mails make up opens the messages to the client. -/
structure Client.Served (mime : Mime E D) (lib : Openssl Cipher Mac) (md : ByteString → ByteString)
    (p q x : Nat) [Fact p.Prime] [Fact (p % 12 = 11)] (client : Client) (servers : List Server)
    (shared : Params) : Prop where
  answers {outcomes : Outcomes} {disk : Disk}
    (hload : Returns (fmtLoadParams mime client.params disk client.paramsfile) (1, shared))
    (hrun : Attempts client.net client.buffers client.rc client.addr (fun i => some (client.passwords i))
      outcomes) :
    ∃ c, Returns (client.request mime outcomes disk) (0, c) ∧ c.i = servers.length
  mails (i : Nat) (hi : i < servers.length) {salt : ByteString} (hsalt : salt.length = lib.ivLength) :
    ∃ text, ∀ head, Skipped 99 (bytes "W:" <+: ·) head →
      Received mime lib md client shared i servers[i] (some (head ++ text))
  opens {disk : Disk} {ksfiles : List CString} (h : client.Collects mime lib md servers shared disk ksfiles)
    {salt : ByteString} (hsalt : salt.length = lib.ivLength) (old : ByteString) :
    ∃ disk', Returns (client.combine mime lib salt old disk ksfiles) (0, disk') ∧
      ∀ {draws : Draws} {argv : List CString}, client.Addressed lib md p q x shared draws argv →
        ∀ input, ∃ file, Returns (encrypt mime lib md draws client.year shared argv input) (0, file) ∧
          ∀ stack head tail, Skipped 99 (bytes "-----BEGIN IBE-----" <+: ·) head →
            Returns (client.decrypt mime lib md (client.passwords servers.length) stack disk'
              (head ++ (file ++ tail))) (0, input)

/-- Enough servers with shares of one master key serve every client that reaches them. -/
theorem served (hmime : Lossless mime) (hlib : Inverse lib) (h0 : 0 < lib.ivLength)
    (hlt : lib.ivLength < lib.mdLength) [hq : Fact q.Prime] {x : Nat} {name : CString} {G : MordellGroup.E p}
    (hf : Founded q x name G params) {r places : Nat → Int} {pos : List Nat}
    (hc : Enough p q x t n r places pos) (robustP : List Point)
    (hservers : List.Forall₂ (fun (server : Server) i =>
      Started (masterShare (byteStringSetMpz x) t params r places i) server) servers pos)
    (hreaches : client.Reaches servers) (hB : ∃ B : MordellGroup.E p, MapsTo md params
      (byteStringSet (idOf client.year (sharedParams params t n places robustP) client.addr)) q B) :
    client.Served mime lib md p q x servers (sharedParams params t n places robustP) where
  answers := by
    intro outcomes disk hload hrun
    refine hreaches.returns_request hload ?_ ?_ hrun
    · intro server hserver
      obtain ⟨i, hi, rfl⟩ := List.getElem_of_mem hserver
      exact (hservers.get hi (hservers.length_eq ▸ hi)).named
    · rw [hservers.length_eq, hc.length_eq]
      rfl
  mails := by
    intro i hi salt hsalt
    obtain ⟨B, hB⟩ := hB
    have hsuits := (hf.established hc.master).suits
    have hip : i < pos.length := hservers.length_eq ▸ hi
    have hstarted := hservers.get hi hip
    have hmem := List.getElem_mem hip
    have hshare := ibeExtractShare_masterShare client.year client.addr hf.lt (dvd_of_mul_left_dvd hf.dvd)
      hsuits.q_eq hsuits.curve.p_eq hc.sharet_pos hc.toThresholdCondition robustP hB
      (smul_eq_zero_of_order hB.1) hmem (hc.pos_lt _ hmem)
    have hmshare : servers[i].mshare = masterShare (byteStringSetMpz x) t params r places pos[i] :=
      hstarted.mshare_eq
    rw [← hmshare] at hshare
    have hhead := skipped_shareHead hstarted.named.newline_notMem
      (hstarted.named.length_le.trans_lt (by norm_num))
    obtain ⟨mail, hmail⟩ : ∃ mail, servers[i].mail mime lib md salt client.year
        (sharedParams params t n places robustP) ⟨[], some (client.addr, client.passwords i)⟩ =
          some mail := by
      rw [Server.mail, Option.bind_some, shareMail_eq hshare]
      exact ⟨_, rfl⟩
    refine ⟨mail.2, fun head h => ⟨_, salt, mail.1, mail.2, head, [], returns_singleRequest hstarted.named
      (hreaches.plain i hi) (client.buffers i) client.rc, hsalt, hmail, h.append hhead, Or.inl rfl, ?_⟩⟩
    rw [List.append_nil]
  opens := by
    intro disk ksfiles hcoll salt hsalt old
    obtain ⟨B, hB⟩ := hB
    have hnamed : ∀ server ∈ servers, Named server.pkg server.servername := by
      intro server hserver
      obtain ⟨i, hi, rfl⟩ := List.getElem_of_mem hserver
      exact (hservers.get hi (hservers.length_eq ▸ hi)).named
    obtain ⟨hrun, hkey⟩ := (hcoll.collected hnamed hreaches.plain).returns_combine_shared hmime hlib h0
      hlt hf hc robustP (hservers.imp fun _ _ h => h.mshare_eq) hB salt old
    refine ⟨_, returns_ibe hcoll.params_load hrun, fun {draws argv} haddr input => ?_⟩
    obtain ⟨file, hfile, hdelivers⟩ := delivers_shared hmime hlib h0 hlt hf haddr.toFits
      haddr.toRecipients input
    refine ⟨file, hfile, fun stack head tail hhead => ?_⟩
    have hload := fmtCryptLoad_save hmime hlib h0 hlt hsalt hcoll.writable
      (byteStringSetPoint (ofPoint (x • B))) (client.passwords servers.length)
    have hparams := returns_fmtLoadParams_save lib hcoll.writable hcoll.ne_privkeyfile salt
      (byteStringSetPoint (ofPoint (x • B))) (client.passwords servers.length) hcoll.params_load
    have hdecrypt := (hdelivers client.cmd client.addr (haddr.newline_notMem _ haddr.mem) haddr.fine
      client.privkeyfile _ _ _ hload stack head hhead).1 (List.mem_map_of_mem haddr.mem) hkey tail
    exact returns_ibe hparams hdecrypt

/-- Hosts with enough of the share files that `gen` leaves serve every client. -/
theorem gen_serves (md : ByteString → ByteString) (hmime : Streaming mime) (hlib : Inverse lib)
    (h0 : 0 < lib.ivLength) (hlt : lib.ivLength < lib.mdLength)
    (h : Deployable probabPrime draws qbits t n systemid paramsfile sharefile disk params master p q)
    (hclear : draws.StartsClear p q) (hpos : ∀ i < n, 0 < draws.places i) [hq : Fact q.Prime] :
    ∃ mshare shared disk', gen mime probabPrime draws qbits t n systemid paramsfile sharefile disk =
        some (0, disk') ∧
      ibeSplitMaster master t n params draws.r draws.places = some (mshare, shared) ∧
      (∀ params, Returns (fmtLoadParams mime params disk' paramsfile) (1, shared)) ∧
      ∀ {names : List CString}, names ⊆ sharefile.take n → names.length = t →
        ThresholdCondition p q draws.x t n draws.r draws.places
          (names.map ((sharefile.take n).idxOf ·)) →
        ∀ {hosts : List Host}, List.Forall₂ (Installed paramsfile disk') hosts names →
        ∃ servers, List.Forall₂ (fun host server => Returns (pkghtml mime host) (.ok (shared, server)))
            hosts servers ∧
          ∀ {client : Client}, client.Reaches servers →
            (∃ B : MordellGroup.E p,
              MapsTo md shared (byteStringSet (idOf client.year shared client.addr)) q B) →
            client.Served mime lib md p q draws.x servers shared := by
  obtain ⟨robustP, disk', hrun, hsplit, hgen⟩ := h.exists_generated hmime
  obtain ⟨G, hf⟩ := h.exists_founded hclear
  refine ⟨_, sharedParams params t n draws.places robustP, disk', hrun, hsplit, hgen.params_load,
    fun {names} hsub hnlen hc {hosts} hinstalled => ?_⟩
  have hfiles := forall₂_idxOf hsub
  rw [List.forall₂_map_right_iff, List.forall₂_same] at hfiles
  obtain ⟨servers, hstart, hstarted⟩ := exists_forall₂ hinstalled fun host f hf hhost => by
    have hfile := hgen.saved.masterShare_eq h.length_take (hfiles f hf)
    obtain ⟨writes, hshare, -⟩ := returns_fmtLoadByteString hmime hfile
      (length_masterShare_le h.q_eq h.sharet_pos h.qsize_le _)
    exact hhost.returns_pkghtml hgen.params_load hshare
  refine ⟨servers, hstart, fun {client} hreaches ⟨B, hB⟩ => ?_⟩
  have hservers : List.Forall₂ (fun server i => Started (masterShare (byteStringSetMpz draws.x) t params
      draws.r draws.places i) server) servers (names.map ((sharefile.take n).idxOf ·)) := by
    rw [List.forall₂_map_right_iff]
    exact hstarted.flip
  have henough : Enough p q draws.x t n draws.r draws.places (names.map ((sharefile.take n).idxOf ·)) :=
    { toThresholdCondition := hc
      sharet_pos := h.sharet_pos
      places_mem := fun i hi => ⟨hpos i hi, (h.places_mem i).2⟩
      injOn := h.injOn
      pos_lt := fun i hi => h.length_take ▸ lt_of_mem_idxOf hsub hi
      length_eq := by rw [List.length_map, hnlen] }
  exact served hmime.toLossless hlib h0 hlt hf henough robustP hservers hreaches
    ⟨B, mapsTo_sharedParams.1 hB⟩

end Main

section Sample

open DecryptionStreams BannedList DebugCommands

instance fact_prime_257 : Fact (Nat.Prime 257) := ⟨by norm_num⟩

def sampleConf : PkgConf where
  paramsfile := savedFile
  sharefile := shareFile
  htmlfile := charstarFromByteString (bytes "pkgform.html")
  mailprog := charstarFromByteString (bytes "/usr/bin/mail")
  servername := sampleName

/-- The parameters and the file `f` have been copied to the host. -/
def hostOf (disk : Disk) (f : CString) : Host where
  conf := sampleConf
  params := knownParams
  disk :=
    { files g :=
        if g = savedFile then disk.files savedFile
        else if g = shareFile then disk.files f
        else some (bytes "Address and password")
      writable _ := true
      written := [] }

def clientOf (first second : Server) : Client where
  year := sampleYear
  params := knownParams
  paramsfile := savedFile
  privkeyfile := keyFile
  cnfctx := sampleConfig
  cmd := bob
  addr := bob
  passwords _ := samplePassword
  net name _ := if name = bytes "a.example.com" then some first.pkg else some second.pkg
  buffers _ := ⟨[], [], [], []⟩
  rc := 0

theorem installed_hostOf (disk : Disk) (f : CString) : Installed savedFile disk (hostOf disk f) f :=
  ⟨rfl, rfl, ⟨_, rfl, by decide⟩, named_samplePkg.newline_notMem, named_samplePkg.length_le⟩

theorem plainRequest_bob : PlainRequest bob samplePassword :=
  ⟨by decide, by decide, by decide, by decide, ⟨by decide, by decide, by decide⟩,
    ⟨by decide, by decide, by decide⟩, by decide⟩

theorem reaches_clientOf (first second : Server) : (clientOf first second).Reaches [first, second] where
  exists_hosts := by
    have hhosts : getListParam sampleConfig serversName 0 none = some sampleServers := by decide
    refine ⟨sampleServers, hhosts, le_rfl, ?_⟩
    intro i hi host hhost
    match i, hi with
    | 0, _ =>
        obtain rfl := Option.some.inj hhost
        rfl
    | 1, _ =>
        obtain rfl := Option.some.inj hhost
        rfl
  plain _ _ := plainRequest_bob

theorem thresholdCondition_known :
    ThresholdCondition 3083 257 knownDraws.x 2 3 knownDraws.r knownDraws.places [2, 0] := by
  refine ⟨?_, by decide, by decide, by decide, by decide, by decide, by decide +kernel, ?_⟩
  · exact le_pow_maxShareBytes (by norm_num)
  · intro k hk0 hk
    obtain rfl : k = 1 := by
      rw [List.length_cons, List.length_singleton] at hk
      omega
    decide +kernel

/-- The first mail and the second one, with the parameters. -/
def mailbox (disk : Disk) (first second : ByteString) : Disk where
  files g :=
    if g = savedFile then disk.files savedFile
    else if g = shareFile then some first
    else some second
  writable _ := true
  written := []

def mailFiles : List CString := [shareFile, charstarFromByteString (bytes "other")]

/-- From the setup to a message that is read. -/
theorem gen_serves_known : ∃ disk' shared first second disk₁ disk₂ file,
    gen base64 knownPrime knownDraws 9 2 3 ibeVersion savedFile sampleNames emptyDisk = some (0, disk') ∧
    List.Forall₂ (fun host server => Returns (pkghtml base64 host) (.ok (shared, server)))
      (twoNames.map (hostOf disk')) [first, second] ∧
    Returns ((clientOf first second).combine base64 sampleLib sampleIv [] disk₁ mailFiles) (0, disk₂) ∧
    Returns (encrypt base64 sampleLib (fun _ => knownDigest) sampleDraws sampleYear shared [bob, bob]
      (bytes "hi")) (0, file) ∧
    Returns ((clientOf first second).decrypt base64 sampleLib (fun _ => knownDigest) samplePassword
      ⟨[], []⟩ disk₂ file) (0, bytes "hi") := by
  have hc := thresholdCondition_known
  obtain ⟨mshare, shared, disk', hrun, hsplit, hparams, hserves⟩ := gen_serves (fun _ => knownDigest)
    streaming_base64 inverse_sampleLib (by decide) (by decide) deployable_known startsClear_known (by decide)
  obtain ⟨robustP, hexplicit⟩ := exists_ibeSplitMaster deployable_known.q_eq (by norm_num) hc.share_ne_zero
  obtain ⟨rfl, rfl⟩ := Prod.mk.inj (Option.some.inj (hsplit.symm.trans hexplicit))
  have hpositions : twoNames.map ((sampleNames.take 3).idxOf ·) = [2, 0] := by decide
  rw [← hpositions] at hc
  have hinstalled : List.Forall₂ (Installed savedFile disk') (twoNames.map (hostOf disk')) twoNames :=
    List.forall₂_map_left_iff.2 (List.forall₂_same.2 fun f _ => installed_hostOf disk' f)
  obtain ⟨servers, hstart, hclients⟩ := hserves (by decide) rfl hc hinstalled
  obtain ⟨first, rest, -, hrest, rfl⟩ := List.forall₂_cons_left_iff.1 hstart
  obtain ⟨second, rest, -, hnil, rfl⟩ := List.forall₂_cons_left_iff.1 hrest
  obtain rfl := List.forall₂_nil_left_iff.1 hnil
  have hB (addr : CString) : ∃ B : MordellGroup.E 3083, MapsTo (fun _ => knownDigest)
      (sharedParams knownParams 2 3 knownDraws.places robustP) (byteStringSet (idOf sampleYear
        (sharedParams knownParams 2 3 knownDraws.places robustP) addr)) 257 B := by
    obtain ⟨B, hB⟩ := exists_mapsTo_known (byteStringSet (idOf sampleYear knownParams addr))
    exact ⟨B, mapsTo_sharedParams.2 hB⟩
  have hserved := hclients (reaches_clientOf first second) (hB bob)
  have hsalt : sampleIv.length = sampleLib.ivLength := rfl
  obtain ⟨text₁, hmail₁⟩ := hserved.mails 0 Nat.two_pos hsalt
  obtain ⟨text₂, hmail₂⟩ := hserved.mails 1 Nat.one_lt_two hsalt
  have hload := hparams knownParams
  rw [fmtLoadParams_congr knownParams
    (show disk'.files savedFile = (mailbox disk' text₁ text₂).files savedFile from rfl)] at hload
  have hcollects : (clientOf first second).Collects base64 sampleLib (fun _ => knownDigest) [first, second]
      (sharedParams knownParams 2 3 knownDraws.places robustP) (mailbox disk' text₁ text₂) mailFiles := by
    refine ⟨hload, List.cons_ne_nil _ _, rfl, ?_, rfl, (by decide : savedFile ≠ keyFile)⟩
    intro i hi hi'
    match i, hi with
    | 0, _ => exact hmail₁ [] .nil
    | 1, _ => exact hmail₂ [] .nil
  obtain ⟨disk₂, hcombine, hopens⟩ := hserved.opens hcollects hsalt []
  have haddressed : (clientOf first second).Addressed sampleLib (fun _ => knownDigest) 3083 257
      knownDraws.x (sharedParams knownParams 2 3 knownDraws.places robustP) sampleDraws [bob, bob] := by
    refine ⟨fits_knownDraws, ⟨le_rfl, fun addr haddr => ?_, fun addr _ => hB addr⟩,
      List.mem_singleton_self _, fine_knownId⟩
    obtain rfl := List.mem_singleton.1 haddr
    exact short_knownId.2.1
  obtain ⟨file, hencrypt, hdecrypt⟩ := hopens haddressed (bytes "hi")
  have hread := hdecrypt ⟨[], []⟩ [] [] .nil
  rw [List.nil_append, List.append_nil] at hread
  exact ⟨disk', _, first, second, mailbox disk' text₁ text₂, disk₂, file, hrun, hstart, hcombine, hencrypt,
    hread⟩

end Sample

end IdBasedEncryption.Deployments
