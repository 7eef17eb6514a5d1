import IdBasedEncryption.BannedList
import IdBasedEncryption.CombineCommand
import IdBasedEncryption.HiddenKeys
import IdBasedEncryption.IdStrings
import IdBasedEncryption.MisreadFiles

namespace IdBasedEncryption.MailedMessages

open ByteStrings FuelLoops Stdio WholeLines Format StreamTermination CryptFiles RecipientSearch MessageFiles
open MisreadFiles CurvePoints MordellGroup PointValues IbeLib Crypto KeyEncapsulation IdStrings HiddenKeys

variable {E D C : Type} {mime : Mime E D} {stream : CryptoStream C}

section Surroundings

variable {id d : CString} {stack : Stack} {reveal : ByteString → ByteString → Int × ByteString}
  {U V K c m head x : ByteString} {rs before after : List (CString × ByteString)}

/-- Lines in front of the first marker do not matter. -/
theorem returns_decryptStream_head (hhead : Skipped 99 (bytes "-----BEGIN IBE-----" <+: ·) head)
    (hm : FirstLine 99 (bytes "-----BEGIN IBE-----" <+: ·) m x) {r : ByteString × Int} :
    Returns (fmtDecryptStream mime stream reveal stack id ⟨head ++ m, false⟩) r ↔
      Returns (fmtDecryptStream mime stream reveal stack id ⟨m, false⟩) r := by
  obtain ⟨-, -, -, -, hbegin⟩ := zero_notMem_marker
  have hwith := returns_advanceTo_firstLine hbegin (hhead.firstLine hm)
  have hwithout := returns_advanceTo_firstLine hbegin hm
  refine hwith.bind_iff.trans ?_
  symm
  exact hwithout.bind_iff

/-- A message with text behind it is decrypted by a recipient as it is. -/
theorem returns_decryptStream_tail (hmime : Lossless mime) (hd : newline ∉ d.val)
    (hlen : d.val.length < 126)
    (hbefore : ∀ r ∈ before, newline ∉ r.1.val ∧ r.1 ≠ d ∧ ¬Misled d r.1)
    (hafter : ∀ r ∈ after, ¬MarksW r.1) (hc : Opens stream K c m) (hreveal : reveal U V = (1, K))
    (tail : ByteString) :
    Returns (fmtDecryptStream mime stream reveal stack d
      ⟨messageText mime U (before ++ (d, V) :: after) c ++ tail, false⟩) (m, 1) := by
  obtain ⟨-, hU, hVm, -, hbegin⟩ := zero_notMem_marker
  obtain ⟨rest, hrest⟩ : ∃ rest, after.flatMap (recipient mime) ++ (wSection mime c ++ tail) = rest :=
    ⟨_, rfl⟩
  have htext : messageText mime U (before ++ (d, V) :: after) c ++ tail =
      bytes "\n-----BEGIN IBE-----\n" ++ (bytes "\nU:\n" ++ (text mime U ++ newline ::
        (before.flatMap (recipient mime) ++ (recipient mime (d, V) ++ rest)))) := by
    rw [messageText_eq, ← hrest]
    simp [List.flatMap_append, List.flatMap_cons, List.append_assoc]
  have h₁ := returns_advanceTo_firstLine hbegin (firstLine_BEGIN (bytes "\nU:\n" ++
    (text mime U ++ newline :: (before.flatMap (recipient mime) ++ (recipient mime (d, V) ++ rest)))))
  have h₂ := returns_advanceTo_firstLine hU (firstLine_U (text mime U ++ newline ::
    (before.flatMap (recipient mime) ++ (recipient mime (d, V) ++ rest))))
  have h₃ := returns_mimeGet_text hmime U
    (before.flatMap (recipient mime) ++ (recipient mime (d, V) ++ rest))
  have h₄ := returns_findId_finds hlen hd
    ((lacks_recipients hmime hbefore).finds (finds_recipient hmime d V rest)) stack.s
  have h₅ := returns_advanceTo_firstLine hVm
    ((skipped_newline (s := bytes "V:") (by decide)).firstLine (firstLine_vSection mime V rest))
  have h₆ := returns_mimeGet_text hmime V rest
  have hW : FirstLine 99 (bytes "W:" <+: ·) rest
      (text mime c ++ newline :: (bytes "-----END IBE-----\n" ++ tail)) := by
    rw [← hrest, wSection, List.append_assoc, List.append_assoc]
    exact (skipped_recipients hmime hafter).firstLine (firstLine_W _)
  rw [htext]
  refine h₁.bind (h₂.bind (h₃.bind (h₄.bind (h₅.bind (h₆.bind ?_)))))
  simp only [hreveal, ne_eq, not_true_eq_false, if_false]
  exact returns_decryptBody hmime hc hW stack.input

end Surroundings

section Short

variable {id d : CString} {ids : List CString}

/-- An ID that fits into one line is not taken for the structure of a file. -/
theorem not_misled_of_short (hlen : id.val.length < 99) (hid : newline ∉ id.val) (hd : d.val ≠ []) :
    ¬Misled d id := by
  rintro ⟨hlt, rest, hfinds⟩
  have hline : IsLine 99 (id.val.drop (d.val.length + 1) ++ [newline]) :=
    isLine_append_newline (fun h => hid (List.mem_of_mem_drop h)) (by rw [List.length_drop]; omega)
  have htail : Skipped 99 (bytes "ID:" <+: ·) [newline] := skipped_newline (by decide)
  have hsplit : id.val.drop (d.val.length + 1) ++ [newline, newline] =
      (id.val.drop (d.val.length + 1) ++ [newline]) ++ [newline] := by simp
  rw [hsplit] at hfinds
  by_cases hmarks : bytes "ID:" <+: id.val.drop (d.val.length + 1) ++ [newline]
  · -- only the blank line is left, and it is not `d`
    have hfirst : FirstLine 99 (bytes "ID:" <+: ·)
        ((id.val.drop (d.val.length + 1) ++ [newline]) ++ [newline]) [newline] := .here hline hmarks
    cases hfinds with
    | here h =>
        have heq : d.val ++ newline :: rest = [newline] := h.unique hfirst
        have hlength := congrArg List.length heq
        rw [List.length_append, List.length_cons, List.length_singleton] at hlength
        exact hd (List.length_eq_zero_iff.1 (by omega))
    | @next _ l bs' _ h hl hne hr =>
        have heq : l ++ bs' = [newline] := h.unique hfirst
        have hnil : bs' = [] := by
          have hpos := hl.pos
          have hlength := congrArg List.length heq
          rw [List.length_append, List.length_singleton] at hlength
          exact List.length_eq_zero_iff.1 (by omega)
        have hnone : NoLine 99 (bytes "ID:" <+: ·) bs' :=
          hnil ▸ .tail ⟨by norm_num, List.not_mem_nil⟩
        cases hr with
        | here h => exact h.not_noLine hnone
        | next h => exact h.not_noLine hnone
  · have hskip : Skipped 99 (bytes "ID:" <+: ·)
        ((id.val.drop (d.val.length + 1) ++ [newline]) ++ [newline]) := .next hline hmarks htail
    have hno := hskip.noLine_self (by norm_num)
    cases hfinds with
    | here h => exact h.not_noLine hno
    | next h hl hne hr => exact h.not_noLine hno

theorem not_marksW_of_short (hlen : id.val.length < 99) (hid : newline ∉ id.val)
    (h : ¬bytes "W:" <+: id.val) : ¬MarksW id := by
  refine not_marksW_of_skipped (.single (isLine_append_newline hid hlen) fun hp => ?_)
  rcases List.prefix_concat_iff.1 hp with heq | hp
  · exact absurd (heq ▸ List.mem_append_right id.val (List.mem_singleton_self newline)) (by decide)
  · exact h hp

/-- Every message to IDs of less than 99 bytes is read as it should be. -/
theorem fine_of_short (hids : ∀ id ∈ ids, id.val.length < 99 ∧ newline ∉ id.val ∧
    ¬bytes "W:" <+: id.val) (hd : d.val ≠ []) (hlen : d.val.length < 126) : Fine ids d where
  listed hmem := by
    refine ⟨hlen, fun before after hsplit _ => ⟨fun id hid => ?_, fun id hid => ?_⟩⟩
    · obtain ⟨hshort, hnl, -⟩ := hids id (hsplit ▸ List.mem_append_left _ hid)
      exact not_misled_of_short hshort hnl hd
    · obtain ⟨hshort, hnl, hW⟩ := hids id (hsplit ▸ by simp [hid])
      exact not_marksW_of_short hshort hnl hW
  unlisted _ := Or.inl ⟨hlen, fun id hid => not_misled_of_short (hids id hid).1 (hids id hid).2.1 hd⟩

end Short

section Commands

variable {Cipher Mac : Type} (mime : Mime E D) (lib : Openssl Cipher Mac)
  (md : ByteString → ByteString)

/-- What `FMT_make_id` makes of an address. -/
def idOf (year : CString) (params : Params) (addr : CString) : CString :=
  (fmtMakeId year (some addr) none params).get rfl

/-- The random choices for a message: the key, the number for `U`, and the
initialization vectors for the key and for the message. -/
structure Draws where
  K : ByteString
  r : Nat
  salts : Nat → ByteString
  salt : ByteString

/-- `U` and `V` as the format gets them. It does not look at the returned number. -/
def hideKeys (draws : Draws) (params : Params) (ids : List CString) (K : ByteString) :
    ByteString × List ByteString :=
  match ibeHideKeyArray lib md draws.r draws.salts [] ids K params with
  | none => ([], [])
  | some h => h.2

/-- The command with its arguments, its own name being the first of them. -/
def encrypt (draws : Draws) (year : CString) (params : Params) (argv : List CString)
    (input : ByteString) (fuel : Nat) : Option (Int × ByteString) :=
  if argv.length < 2 then
    some (1, bytes "Usage: encrypt ID [ID ...]\n\n" ++
      bytes "Encrypts stdin for given ID(s) and prints on stdout\n")
  else
    (fmtEncryptStreamArray mime (streamOf lib draws.salt) (hideKeys lib md draws params) draws.K
      ((argv.drop 1).map (idOf year params)) input fuel).map fun file => (0, file)

/-- The same for the other command, with the password that is entered. -/
def decrypt (year : CString) (params : Params) (privkeyfile : CString) (pw : Option CString)
    (disk : Disk) (stack : Stack) (argv : List CString) (input : ByteString) (fuel : Nat) :
    Option (Int × ByteString) :=
  match argv[1]? with
  | none => some (1, bytes "Usage: decrypt ID\n\nDecrypts stdin and prints on stdout\n" ++
      bytes "Reads private key from file specified in config file\n")
  | some addr =>
      match pw with
      | none => some (1, [])
      | some pw =>
          (fmtCryptLoad mime lib disk privkeyfile pw fuel).bind fun k =>
            if k.1 ≠ 1 then some (1, [])
            else
              (fmtDecryptStream mime (streamOf lib []) (ibeRevealKey lib md · · k.2 params) stack
                (idOf year params addr) ⟨input, false⟩ fuel).map fun r =>
                  (if r.2 ≠ 1 then 1 else 0, r.1)

end Commands

section Delivery

variable {Cipher Mac : Type} {lib : Openssl Cipher Mac} {md : ByteString → ByteString}
  {year : CString} {params : Params} {draws : Draws} {ids : List CString} {d : CString}

/-- Only encryption looks at the initialization vector. -/
theorem decryptStream_salt (mime : Mime E D) (salt : ByteString) :
    fmtDecryptStream mime (streamOf lib salt) = fmtDecryptStream mime (streamOf lib []) := rfl

/-- The entries of the first recipient with an ID. -/
theorem exists_first_entry {Vs : List ByteString} {p : CString → ByteString → Prop}
    (h : List.Forall₂ p ids Vs) (hd : d ∈ ids) :
    ∃ before V after, ids.zip Vs = before ++ (d, V) :: after ∧ p d V ∧ (∀ r ∈ before, r.1 ≠ d) ∧
      ids = before.map Prod.fst ++ d :: after.map Prod.fst := by
  have hfst : (ids.zip Vs).map Prod.fst = ids := List.map_fst_zip h.length_eq.le
  have hmem : ∃ r ∈ ids.zip Vs, r.1 = d := by
    rw [← hfst] at hd
    exact List.mem_map.1 hd
  obtain ⟨before, ⟨_, V⟩, after, hsplit, rfl, hbefore⟩ := exists_first hmem
  refine ⟨before, V, after, hsplit, ?_, hbefore, ?_⟩
  · exact (List.forall₂_iff_zip.1 h).2 (hsplit ▸ by simp)
  · have hmap := congrArg (List.map Prod.fst) hsplit
    rwa [hfst, List.map_append, List.map_cons] at hmap

variable {p : Nat} [hp : Fact p.Prime] [hp12 : Fact (p % 12 = 11)]

/-- What is drawn for a message has the lengths that the library asks for, and no
multiplication meets a special case. -/
structure Draws.Fits (lib : Openssl Cipher Mac) (p q x : Nat) (draws : Draws) : Prop where
  kem : KemCondition p q x draws.r
  lt : draws.r < q
  salts (i : Nat) : (draws.salts i).length = lib.ivLength
  salt : draws.salt.length = lib.ivLength

/-- Arguments with IDs that stand on a line each and lead to points of the order. -/
structure Recipients (md : ByteString → ByteString) (year : CString) (params : Params) (p q : Nat)
    [Fact p.Prime] [Fact (p % 12 = 11)] (argv : List CString) : Prop where
  two_le : 2 ≤ argv.length
  newline_notMem : ∀ addr ∈ argv.drop 1, newline ∉ (idOf year params addr).val
  mapsTo : ∀ addr ∈ argv.drop 1,
    ∃ B : MordellGroup.E p, MapsTo md params (byteStringSet (idOf year params addr)) q B

theorem kemCorrect_idOf (year : CString) {q x : Nat} {name : CString} {G : MordellGroup.E p}
    (h : Founded q x name G params) (hc : KemCondition p q x draws.r) (hrq : draws.r < q)
    {addrs : List CString} (hids : ∀ addr ∈ addrs,
      ∃ B : MordellGroup.E p, MapsTo md params (byteStringSet (idOf year params addr)) q B) :
    KemCorrect md (byteStringSetMpz x) draws.r [] (addrs.map (idOf year params)) params := by
  refine h.kemCorrect hc hrq (fun id hid => ?_) []
  obtain ⟨addr, haddr, rfl⟩ := List.mem_map.1 hid
  exact hids addr haddr

variable (hmime : Lossless mime) (hlib : Inverse lib) (h0 : 0 < lib.ivLength)
  (hlt : lib.ivLength < lib.mdLength) (hsalts : ∀ i, (draws.salts i).length = lib.ivLength)
  (hsalt : draws.salt.length = lib.ivLength)
include hmime hlib h0 hlt hsalts hsalt

/-- What reaches whom, when the secrets of the recipients are correct. -/
theorem returns_decryptStream_of_kemCorrect {master : ByteString}
    (hkem : KemCorrect md master draws.r [] ids params) (hids : ∀ id ∈ ids, newline ∉ id.val)
    (hne : ids ≠ []) (input : ByteString) :
    ∃ file, Returns (fmtEncryptStreamArray mime (streamOf lib draws.salt) (hideKeys lib md draws params)
        draws.K ids input) file ∧
      ∀ d : CString, newline ∉ d.val → Fine ids d → ∀ key stack head,
        Skipped 99 (bytes "-----BEGIN IBE-----" <+: ·) head →
        (d ∈ ids → ibeExtract md master d params = some key → ∀ tail,
          Returns (fmtDecryptStream mime (streamOf lib []) (ibeRevealKey lib md · · key params) stack d
            ⟨head ++ (file ++ tail), false⟩) (input, 1)) ∧
        (d ∉ ids → Returns (fmtDecryptStream mime (streamOf lib [])
          (ibeRevealKey lib md · · key params) stack d ⟨head ++ file, false⟩) ([], 0)) := by
  obtain ⟨U, Vs, hhide, hentries⟩ := hides_of_kemCorrect hlib h0 hlt hsalts hkem draws.K
  have hkeys : hideKeys lib md draws params ids draws.K = (U, Vs) := by rw [hideKeys, hhide]
  obtain ⟨chunks, hchunks, rfl, hfile⟩ := returns_encryptStream (streamOf lib draws.salt) hmime
    (hideKeys lib md draws params) draws.K ids input
  have hstream := recovers_streamOf hlib h0 hlt hsalt
  rw [hkeys] at hfile
  have hbegin := firstLine_BEGIN (bytes "\nU:\n" ++ (text mime U ++ newline ::
    ((ids.zip Vs).flatMap (recipient mime) ++
      wSection mime (ciphertext (streamOf lib draws.salt) draws.K chunks))))
  rw [← messageText_eq] at hbegin
  rw [← decryptStream_salt mime draws.salt]
  refine ⟨_, hfile, fun d hd hfine key stack head hhead => ⟨fun hmem hkey tail => ?_, fun hmem => ?_⟩⟩
  · obtain ⟨before, V, after, hzip, ⟨key', hkey', hhidden⟩, hbefore, hsplit⟩ :=
      exists_first_entry hentries hmem
    obtain rfl : key' = key := Option.some.inj (hkey'.symm.trans hkey)
    obtain ⟨hd126, hfirst⟩ := hfine.listed hmem
    obtain ⟨hmis, hmarks⟩ := hfirst _ _ hsplit (by
      rintro hdb
      obtain ⟨r, hr, rfl⟩ := List.mem_map.1 hdb
      exact hbefore r hr rfl)
    refine (returns_decryptStream_head hhead (firstLine_append hbegin tail)).2 ?_
    rw [hzip]
    refine returns_decryptStream_tail hmime hd hd126 (fun r hr => ⟨?_, hbefore r hr, ?_⟩)
      (fun r hr => hmarks _ (List.mem_map_of_mem hr)) (hstream draws.K chunks hchunks)
      hhidden.reveal_eq tail
    · exact hids _ (hsplit ▸ List.mem_append_left _ (List.mem_map_of_mem hr))
    · exact hmis _ (List.mem_map_of_mem hr)
  · obtain ⟨file, hfile', hround⟩ := Fine.roundTrips hne hids hd hfine E D _ mime
      (streamOf lib draws.salt) (hideKeys lib md draws params) draws.K chunks.flatten hmime hstream
      (by rw [hkeys]; exact hentries.length_eq.symm)
    obtain rfl := hfile'.unique hfile
    exact (returns_decryptStream_head hhead hbegin).2 ((hround stack _).2 hmem)

/-- What one command writes for some addresses, the other one reads with the key for
one of them out of any mail, and for no other address. -/
def Delivers (mime : Mime E D) (lib : Openssl Cipher Mac) (md : ByteString → ByteString)
    (master : ByteString) (year : CString) (params : Params) (argv : List CString)
    (input file : ByteString) : Prop :=
  ∀ cmd addr : CString, newline ∉ (idOf year params addr).val →
    Fine ((argv.drop 1).map (idOf year params)) (idOf year params addr) →
    ∀ privkeyfile pw disk key, Returns (fmtCryptLoad mime lib disk privkeyfile pw) (1, key) →
    ∀ stack head, Skipped 99 (bytes "-----BEGIN IBE-----" <+: ·) head →
    (idOf year params addr ∈ (argv.drop 1).map (idOf year params) →
      ibeExtract md master (idOf year params addr) params = some key → ∀ tail,
      Returns (decrypt mime lib md year params privkeyfile (some pw) disk stack [cmd, addr]
        (head ++ (file ++ tail))) (0, input)) ∧
    (idOf year params addr ∉ (argv.drop 1).map (idOf year params) →
      Returns (decrypt mime lib md year params privkeyfile (some pw) disk stack [cmd, addr]
        (head ++ file)) (1, []))

theorem delivers_of_kemCorrect {master : ByteString} {argv : List CString}
    (hkem : KemCorrect md master draws.r [] ((argv.drop 1).map (idOf year params)) params)
    (hargv : 2 ≤ argv.length) (hnl : ∀ addr ∈ argv.drop 1, newline ∉ (idOf year params addr).val)
    (input : ByteString) :
    ∃ file, Returns (encrypt mime lib md draws year params argv input) (0, file) ∧
      Delivers mime lib md master year params argv input file := by
  have hlines : ∀ id ∈ (argv.drop 1).map (idOf year params), newline ∉ id.val := by
    intro id hid
    obtain ⟨addr, haddr, rfl⟩ := List.mem_map.1 hid
    exact hnl addr haddr
  have hne : (argv.drop 1).map (idOf year params) ≠ [] := by
    intro hnil
    have hlength := congrArg List.length hnil
    rw [List.length_map, List.length_drop, List.length_nil] at hlength
    omega
  obtain ⟨file, hfile, hround⟩ := returns_decryptStream_of_kemCorrect hmime hlib h0 hlt hsalts hsalt
    hkem hlines hne input
  refine ⟨file, ?_, fun cmd addr haddr hfine privkeyfile pw disk key hload stack head hhead => ?_⟩
  · have hrun := hfile.map fun file => ((0 : Int), file)
    unfold encrypt
    simpa only [if_neg (Nat.not_lt.2 hargv)] using hrun
  · obtain ⟨hlisted, hunlisted⟩ := hround _ haddr hfine key stack head hhead
    constructor
    · intro hmem hkey tail
      have hrun := (hlisted hmem hkey tail).map fun r : ByteString × Int =>
        ((if r.2 ≠ 1 then 1 else 0 : Int), r.1)
      refine hload.bind ?_
      simpa using hrun
    · intro hmem
      have hrun := (hunlisted hmem).map fun r : ByteString × Int =>
        ((if r.2 ≠ 1 then 1 else 0 : Int), r.1)
      refine hload.bind ?_
      simpa using hrun

omit hsalts hsalt in
theorem delivers_encrypt {q x : Nat} {name : CString} {G : MordellGroup.E p}
    (h : Founded q x name G params) (hdraws : draws.Fits lib p q x) {argv : List CString}
    (hto : Recipients md year params p q argv) (input : ByteString) :
    ∃ file, Returns (encrypt mime lib md draws year params argv input) (0, file) ∧
      Delivers mime lib md (byteStringSetMpz x) year params argv input file :=
  delivers_of_kemCorrect hmime hlib h0 hlt hdraws.salts hdraws.salt
    (kemCorrect_idOf year h hdraws.kem hdraws.lt hto.mapsTo) hto.two_le hto.newline_notMem input

end Delivery

section Sample

open Fp2Arith DecryptionStreams AuthenticatedStreams PointBytes BannedList CombineCommand

/-- A digest that leads every ID to the same point. -/
theorem mapsTo_const (bs : ByteString) : MapsTo (fun _ => genId.val) genParams bs 67 gen :=
  ⟨addOrderOf_gen, mapsTo_genId.2⟩

def sampleDraws : Draws := ⟨bytes "key", 1, fun _ => sampleIv, sampleIv⟩

def bob : CString := charstarFromByteString (bytes "bob")

theorem fits_sampleDraws : sampleDraws.Fits sampleLib 1607 67 2 :=
  ⟨kemCondition_gen, by decide, fun _ => rfl, rfl⟩

theorem short_genId : (idOf sampleYear genParams bob).val.length < 99 ∧
    newline ∉ (idOf sampleYear genParams bob).val ∧
    ¬bytes "W:" <+: (idOf sampleYear genParams bob).val := by
  decide +kernel

theorem fine_genId : Fine [idOf sampleYear genParams bob] (idOf sampleYear genParams bob) := by
  refine fine_of_short ?_ (fun hnil => ?_) (short_genId.1.trans (by norm_num))
  · intro id hid
    obtain rfl := List.mem_singleton.1 hid
    exact short_genId
  · exact absurd (congrArg List.length hnil) (by decide +kernel)

theorem recipients_bob : Recipients (fun _ => genId.val) sampleYear genParams 1607 67 [bob, bob] where
  two_le := le_rfl
  newline_notMem _ haddr := List.mem_singleton.1 haddr ▸ short_genId.2.1
  mapsTo _ _ := ⟨gen, mapsTo_const _⟩

/-- One command after the other, with a key that is on the disk. -/
theorem delivers_encrypt_gen :
    ∃ file, Returns (encrypt base64 sampleLib (fun _ => genId.val) sampleDraws sampleYear genParams
        [bob, bob] (bytes "hi")) (0, file) ∧
      ∀ disk key, Returns (fmtCryptLoad base64 sampleLib disk keyFile samplePassword) (1, key) →
        ibeExtract (fun _ => genId.val) (byteStringSetMpz 2) (idOf sampleYear genParams bob) genParams =
          some key →
        Returns (decrypt base64 sampleLib (fun _ => genId.val) sampleYear genParams keyFile
          (some samplePassword) disk ⟨[], []⟩ [bob, bob] file) (0, bytes "hi") := by
  obtain ⟨file, hfile, hdelivers⟩ := delivers_encrypt lossless_base64 inverse_sampleLib (by decide)
    (by decide) founded_gen fits_sampleDraws recipients_bob (bytes "hi")
  refine ⟨file, hfile, fun disk key hload hkey => ?_⟩
  have hread := (hdelivers bob bob short_genId.2.1 fine_genId keyFile samplePassword disk key hload
    ⟨[], []⟩ [] .nil).1 (List.mem_map_of_mem (List.mem_singleton_self bob)) hkey []
  rwa [List.nil_append, List.append_nil] at hread

end Sample

end IdBasedEncryption.MailedMessages
