import IdBasedEncryption.FormFields
import IdBasedEncryption.ScriptRuns

namespace IdBasedEncryption.InfectLetters

open ByteStrings FuelLoops Stdio WholeLines Format StreamTermination CryptFiles RecipientSearch MessageFiles
open AuthenticatedStreams CurvePoints MordellGroup PointValues IbeLib Crypto KeyEncapsulation
open PkgHtml FormFields HiddenKeys MailedMessages Generation ParamsBytes
open IdStrings hiding bob

variable {E D C Cipher Mac : Type}

section Raw

/-- At most `n` bytes. The end is noticed by a request for more than is left. -/
def fread (n : Nat) (fp : File) : ByteString × File :=
  (fp.rest.take n, ⟨fp.rest.drop n, fp.eof || fp.rest.length < n⟩)

structure Raw where
  data : ByteString
  max : Int
  fp : File

/-- A buffer that is full is made twice as large. -/
def rawRound (c : Raw) : Option ByteString ⊕ Raw :=
  let r := fread (c.max - c.data.length).toNat c.fp
  let data := c.data ++ r.1
  if (data.length : Int) = c.max then .inr ⟨data, (c.max * 2).bmod (2 ^ 32), r.2⟩
  else if !r.2.eof then .inl none
  else .inl (some data)

/-- The result comes with the byte string, which stays as it is without a file. -/
def fmtLoadRawByteString (bs : ByteString) (disk : Disk) (file : CString) (fuel : Nat) :
    Option (Int × ByteString) :=
  match disk.files file with
  | none => some (0, bs)
  | some contents =>
      (loop rawRound ⟨[], 1024, ⟨contents, false⟩⟩ fuel).map fun loaded =>
        match loaded with
        | none => (0, bs)
        | some data => (1, data)

/-- Behind a buffer that is not full, the rest of the file is read. -/
theorem returns_rawLoop (data rest : ByteString) {max : Nat} (hlt : data.length < max)
    (hlen : data.length + rest.length < 2 ^ 30) :
    Returns (loop rawRound ⟨data, max, ⟨rest, false⟩⟩) (some (data ++ rest)) := by
  induction hk : rest.length using Nat.strong_induction_on generalizing data rest max with
  | _ k ih =>
      have hn : ((max : Int) - data.length).toNat = max - data.length := by omega
      by_cases hmore : rest.length < max - data.length
      · refine returns_loop_inl ?_
        have hlength : ¬(((data ++ rest).length : Nat) : Int) = max := by
          rw [List.length_append]
          omega
        simp only [rawRound, fread, hn, List.take_of_length_le hmore.le, if_neg hlength, hmore]
        rfl
      · have hlength : ((data ++ rest.take (max - data.length)).length : Int) = max := by
          rw [List.length_append, List.length_take]
          omega
        have hdouble : ((max : Int) * 2).bmod (2 ^ 32) = ((max * 2 : Nat) : Int) := by
          rw [Int.bmod_eq_of_le (by omega) (by omega)]
          push_cast
          ring
        have hround : rawRound ⟨data, max, ⟨rest, false⟩⟩ = .inr ⟨data ++ rest.take (max - data.length),
            ((max * 2 : Nat) : Int), ⟨rest.drop (max - data.length), false⟩⟩ := by
          simp only [rawRound, fread, hn, if_pos hlength, hdouble, hmore]
          rfl
        refine returns_loop_inr hround ?_
        have hshorter : (rest.drop (max - data.length)).length < k := by
          rw [List.length_drop]
          omega
        have hroom : (data ++ rest.take (max - data.length)).length < max * 2 := by omega
        have htotal : (data ++ rest.take (max - data.length)).length +
            (rest.drop (max - data.length)).length < 2 ^ 30 := by
          rw [List.length_append, List.length_take, List.length_drop]
          omega
        have hrest := ih _ hshorter _ _ hroom htotal rfl
        rwa [List.append_assoc, List.take_append_drop] at hrest

/-- A file of less than a gigabyte is loaded as it is. -/
theorem returns_fmtLoadRawByteString {disk : Disk} {file : CString} {contents : ByteString}
    (hfile : disk.files file = some contents) (hlen : contents.length < 2 ^ 30) (bs : ByteString) :
    Returns (fmtLoadRawByteString bs disk file) (1, contents) := by
  have hloop := returns_rawLoop [] contents (by decide : ([] : ByteString).length < 1024)
    (by rwa [List.length_nil, Nat.zero_add])
  unfold fmtLoadRawByteString
  simp only [hfile]
  exact hloop.map _

end Raw

section Model

variable (mime : Mime E D) (lib : Openssl Cipher Mac) (md : ByteString → ByteString)

structure Query where
  ampptr : ByteString
  email : Option CString
  subject : Option CString

/-- As in the other program, but with other names for the fields. -/
def queryRound (c : Query) (fuel : Nat) : Option (Option Query ⊕ Query) :=
  match getToken c.ampptr 38 with
  | none => some (.inl (some c))
  | some (token, ampptr) =>
      match index token 61 with
      | none => some (.inl none)
      | some (name, field) =>
          let c := { c with ampptr := ampptr }
          if name = bytes "id" then
            (translate (field ++ [0]) fuel).bind fun s =>
              some (.inr { c with email := some (charstarFromByteString s) })
          else if name = bytes "subject" then
            (translate (field ++ [0]) fuel).bind fun s =>
              some (.inr { c with subject := some (charstarFromByteString s) })
          else some (.inr c)

/-- What `FMT_make_id` makes of an address and a subject. -/
def mailId (year : CString) (params : Params) (email : CString) (subject : Option CString) : CString :=
  (fmtMakeId year (some email) subject params).get rfl

/-- The plain message with the encrypted one behind it. -/
def letterText (plainmessage encrypted : ByteString) : ByteString :=
  plainmessage ++ (bytes "\n\n-----BEGIN IBE-----\n" ++ (encrypted ++ bytes "-----END IBE-----\n"))

/-- The address behind the options of the mailer and its input. Without the secret
message there is no result. -/
def infect (draws : Draws) (params : Params) (plainmessage : ByteString) (disk : Disk) (encfile : CString)
    (addr id : CString) (fuel : Nat) : Option (ByteString × ByteString) :=
  match disk.files encfile with
  | none => none
  | some input =>
      (fmtEncryptStreamArray mime (streamOf lib draws.salt) (hideKeys lib md draws params) draws.K [id]
        input fuel).map fun encrypted => (emailShare addr, letterText plainmessage encrypted)

/-- The names of the files that the configuration has. -/
structure Infection where
  paramsfile : CString
  encfile : CString
  unencfile : CString

/-- The code that `main` exits with, and what is mailed. At first the variables for
the parameters and for the plain message are empty. -/
def infectMain (draws : Draws) (year : CString) (conf : Infection) (params : Params) (disk : Disk)
    (query : CString) (fuel : Nat) : Option (Int × Option (ByteString × ByteString)) :=
  (fmtLoadRawByteString [] disk conf.unencfile fuel).bind fun plain =>
  (fmtLoadParams mime params disk conf.paramsfile fuel).bind fun r =>
    if r.1 ≠ 1 then some (1, none)
    else
      (nest queryRound ⟨query.val, none, none⟩ fuel).bind fun c =>
        match c with
        | some ⟨_, some email, subject⟩ =>
            (infect mime lib md draws r.2 plain.2 disk conf.encfile email
              (mailId year r.2 email subject) fuel).map fun mail => (0, some mail)
        | _ => some (1, none)

end Model

section Queries

/-- The address and the subject behind one more token. -/
def addQueryField (f : Option CString × Option CString) (token : ByteString) :
    Option (Option CString × Option CString) :=
  (index token 61).map fun r =>
    if r.1 = bytes "id" then (some (charstarFromByteString (decoded r.2)), f.2)
    else if r.1 = bytes "subject" then (f.1, some (charstarFromByteString (decoded r.2)))
    else f

variable {q : ByteString} {f : Option CString × Option CString}

theorem returns_queryRound {t rest : ByteString} (ht : 0 ∉ t) (hget : getToken q 38 = some (t, rest)) :
    Returns (queryRound ⟨q, f.1, f.2⟩) (match addQueryField f t with
      | none => .inl none
      | some g => .inr ⟨rest, g.1, g.2⟩) := by
  rcases hindex : index t 61 with _ | ⟨name, field⟩
  · have hround : queryRound ⟨q, f.1, f.2⟩ = fun _ => some (.inl none) := by
      funext fuel
      simp only [queryRound, hget, hindex]
    rw [hround, addQueryField, hindex]
    exact returns_some _
  · obtain ⟨b, hb, hval⟩ := returns_translate (zero_notMem_index ht hindex)
    simp only [addQueryField, hindex, Option.map_some]
    split_ifs with hid hsubject
    · have hround : queryRound ⟨q, f.1, f.2⟩ = fun fuel => (translate (field ++ [0]) fuel).bind fun s =>
          some (.inr ⟨rest, some (charstarFromByteString s), f.2⟩) := by
        funext fuel
        simp only [queryRound, hget, hindex, if_pos hid]
      rw [hround, ← hval]
      exact hb.bind (returns_some _)
    · have hround : queryRound ⟨q, f.1, f.2⟩ = fun fuel => (translate (field ++ [0]) fuel).bind fun s =>
          some (.inr ⟨rest, f.1, some (charstarFromByteString s)⟩) := by
        funext fuel
        simp only [queryRound, hget, hindex, if_neg hid, if_pos hsubject]
      rw [hround, ← hval]
      exact hb.bind (returns_some _)
    · have hround : queryRound ⟨q, f.1, f.2⟩ = fun _ => some (.inr ⟨rest, f.1, f.2⟩) := by
        funext fuel
        simp only [queryRound, hget, hindex, if_neg hid, if_neg hsubject]
      rw [hround]
      exact returns_some _

/-- The fields are those of the tokens, and nothing is left of the query. -/
theorem returns_queryLoop (hq : 0 ∉ q) (f : Option CString × Option CString) :
    Returns (nest queryRound ⟨q, f.1, f.2⟩)
      (((tokens q).foldlM addQueryField f).map fun g => ⟨[], g.1, g.2⟩) := by
  induction hk : q.length using Nat.strong_induction_on generalizing q f with
  | _ k ih =>
      by_cases hnil : q = []
      · subst hnil
        exact returns_nest_inl (returns_some _)
      · obtain ⟨t, rest, hget, rfl, hsuffix, hlt, htokens⟩ := getToken_eq hnil
        have ht : 0 ∉ q.takeWhile (· ≠ 38) := fun h => hq ((List.takeWhile_prefix _).subset h)
        have hround := returns_queryRound (f := f) ht hget
        rw [htokens, List.foldlM_cons]
        cases hadd : addQueryField f (q.takeWhile (· ≠ 38)) with
        | none =>
            rw [hadd] at hround
            exact returns_nest_inl hround
        | some g =>
            rw [hadd] at hround
            exact returns_nest_inr hround
              (ih rest.length (hk ▸ hlt) (fun h => hq (hsuffix.subset h)) g rfl)

end Queries

section Letters

variable {mime : Mime E D} {stream : CryptoStream C} {d : CString} {stack : Stack}
  {reveal : ByteString → ByteString → Int × ByteString} {plainmessage U c : ByteString}
  {rs : List (CString × ByteString)}

/-- The second of the two marker lines is passed over on the way to the U section. -/
theorem returns_decryptStream_letter
    (hhead : Skipped 99 (bytes "-----BEGIN IBE-----" <+: ·) (plainmessage ++ bytes "\n\n"))
    {r : ByteString × Int} :
    Returns (fmtDecryptStream mime stream reveal stack d
        ⟨letterText plainmessage (messageText mime U rs c), false⟩) r ↔
      Returns (fmtDecryptStream mime stream reveal stack d
        ⟨messageText mime U rs c ++ bytes "-----END IBE-----\n", false⟩) r := by
  obtain ⟨-, hU, -, -, hbegin⟩ := zero_notMem_marker
  obtain ⟨x, hx⟩ : ∃ x, text mime U ++ newline :: (rs.flatMap (recipient mime) ++ wSection mime c) = x :=
    ⟨_, rfl⟩
  have htext : messageText mime U rs c = bytes "\n-----BEGIN IBE-----\n" ++ (bytes "\nU:\n" ++ x) := by
    rw [messageText_eq, hx]
  have hmarker : bytes "\n\n-----BEGIN IBE-----\n" = bytes "\n\n" ++ bytes "-----BEGIN IBE-----\n" := by
    decide
  have hline : IsLine 99 (bytes "-----BEGIN IBE-----\n") :=
    isLine_of_lt (by decide) (by decide) (by decide)
  have hfirst := hhead.firstLine (.here hline (by decide) : FirstLine 99 (bytes "-----BEGIN IBE-----" <+: ·)
    (bytes "-----BEGIN IBE-----\n" ++ (messageText mime U rs c ++ bytes "-----END IBE-----\n")) _)
  rw [List.append_assoc, ← List.append_assoc (bytes "\n\n"), ← hmarker] at hfirst
  have hskip : Skipped 99 (bytes "U:" <+: ·) (bytes "\n-----BEGIN IBE-----\n") := by
    have h := (skipped_newline (s := bytes "U:") (by decide)).append (.single hline (by decide))
    exact h
  have hsecond := hskip.firstLine (firstLine_U (x ++ bytes "-----END IBE-----\n"))
  have h₁ := returns_advanceTo_firstLine hbegin hfirst
  have h₂ := returns_advanceTo_firstLine hbegin (firstLine_BEGIN (bytes "\nU:\n" ++ (x ++
    bytes "-----END IBE-----\n")))
  have h₃ := returns_advanceTo_firstLine hU hsecond
  have h₄ := returns_advanceTo_firstLine hU (firstLine_U (x ++ bytes "-----END IBE-----\n"))
  rw [htext] at h₁
  rw [letterText, htext]
  simp only [List.append_assoc] at h₁ h₂ h₃ h₄ ⊢
  refine h₁.bind_iff.trans (h₃.bind_iff.trans ?_)
  symm
  exact h₂.bind_iff.trans h₄.bind_iff

/-- An END marker behind the message does not give a recipient. -/
theorem returns_decryptStream_unlisted (hmime : Lossless mime) (hne : rs ≠ [])
    (hids : ∀ r ∈ rs, newline ∉ r.1.val) (hd : newline ∉ d.val) (hmem : d ∉ rs.map Prod.fst)
    (hfine : Fine (rs.map Prod.fst) d) {tail : ByteString} (htail : Skipped 99 (bytes "ID:" <+: ·) tail) :
    Returns (fmtDecryptStream mime stream reveal stack d ⟨messageText mime U rs c ++ tail, false⟩)
      ([], 0) := by
  obtain ⟨-, hU, -, -, hbegin⟩ := zero_notMem_marker
  obtain ⟨r, hr, hmessage⟩ := firstLine_message hmime hne c
  obtain ⟨x, hx⟩ : ∃ x, rs.flatMap (recipient mime) ++ wSection mime c = x := ⟨_, rfl⟩
  have hfind : Returns (findId d stack.s ⟨x ++ tail, false⟩) none := by
    rw [← hx]
    rcases hfine.unlisted hmem with ⟨hlen, hmis⟩ | ⟨hlen, hpos⟩
    · have hforeign : ∀ r ∈ rs, newline ∉ r.1.val ∧ r.1 ≠ d ∧ ¬Misled d r.1 := by
        refine fun r hr => ⟨hids r hr, ?_, hmis _ (List.mem_map_of_mem hr)⟩
        rintro rfl
        exact hmem (List.mem_map_of_mem hr)
      have hlacks := lacks_message hmime hforeign c
      exact returns_findId_lacks hlen (hlacks.append (.done htail)) stack.s
    · refine returns_findId_long_pos hlen hpos (firstLine_append hmessage tail) ?_ stack.s
      exact fun hnil => hr (List.append_eq_nil_iff.1 hnil).1
  have h₁ := returns_advanceTo_firstLine hbegin (firstLine_BEGIN (bytes "\nU:\n" ++
    (text mime U ++ newline :: (x ++ tail))))
  have h₂ := returns_advanceTo_firstLine hU (firstLine_U (text mime U ++ newline :: (x ++ tail)))
  have h₃ := returns_mimeGet_text hmime U (x ++ tail)
  rw [messageText_eq, hx]
  simp only [List.append_assoc, List.cons_append]
  exact h₁.bind (h₂.bind (h₃.bind (hfind.bind (returns_some _))))

end Letters

section Main

variable {mime : Mime E D} {lib : Openssl Cipher Mac} {md : ByteString → ByteString} {draws : Draws}
  {params : Params} {disk : Disk} {plainmessage input : ByteString}

theorem skipped_END {s : ByteString} (hs : ¬s <+: bytes "-----END IBE-----\n") :
    Skipped 99 (s <+: ·) (bytes "-----END IBE-----\n") :=
  .single (isLine_of_lt (by decide) (by decide) (by decide)) hs

/-- The letter with the message in it is for the one ID only. -/
theorem returns_infect (hmime : Lossless mime) (hlib : Inverse lib) (h0 : 0 < lib.ivLength)
    (hlt : lib.ivLength < lib.mdLength) (hsalts : ∀ i, (draws.salts i).length = lib.ivLength)
    (hsalt : draws.salt.length = lib.ivLength) {master : ByteString} {id encfile : CString}
    (hkem : KemCorrect md master draws.r [] [id] params) (hid : newline ∉ id.val)
    (hsecret : disk.files encfile = some input)
    (hhead : Skipped 99 (bytes "-----BEGIN IBE-----" <+: ·) (plainmessage ++ bytes "\n\n"))
    (addr : CString) :
    ∃ letter, Returns (infect mime lib md draws params plainmessage disk encfile addr id)
        (emailShare addr, letter) ∧
      ∀ d : CString, newline ∉ d.val → Fine [id] d → ∀ key stack,
        (d = id → ibeExtract md master d params = some key →
          Returns (fmtDecryptStream mime (streamOf lib []) (ibeRevealKey lib md · · key params) stack d
            ⟨letter, false⟩) (input, 1)) ∧
        (d ≠ id → Returns (fmtDecryptStream mime (streamOf lib [])
          (ibeRevealKey lib md · · key params) stack d ⟨letter, false⟩) ([], 0)) := by
  obtain ⟨U, Vs, hhide, hentries⟩ := hides_of_kemCorrect hlib h0 hlt hsalts hkem draws.K
  have hkeys : hideKeys lib md draws params [id] draws.K = (U, Vs) := by rw [hideKeys, hhide]
  obtain ⟨chunks, hchunks, rfl, hfile⟩ := returns_encryptStream (streamOf lib draws.salt) hmime
    (hideKeys lib md draws params) draws.K [id] input
  have hstream := recovers_streamOf hlib h0 hlt hsalt
  rw [hkeys] at hfile
  obtain ⟨V, Vs, ⟨key', hkey', hhidden⟩, hnone, rfl⟩ := List.forall₂_cons_left_iff.1 hentries
  obtain rfl := List.forall₂_nil_left_iff.1 hnone
  have hmail : Returns (infect mime lib md draws params plainmessage disk encfile addr id) (emailShare addr,
      letterText plainmessage (messageText mime U [(id, V)]
        (ciphertext (streamOf lib draws.salt) draws.K chunks))) := by
    unfold infect
    simp only [hsecret]
    exact hfile.map fun encrypted => (emailShare addr, letterText plainmessage encrypted)
  refine ⟨_, hmail, fun d hd hfine key stack => ⟨?_, fun hne => ?_⟩⟩
  · rintro rfl hkey
    obtain rfl : key' = key := Option.some.inj (hkey'.symm.trans hkey)
    obtain ⟨hlen, -⟩ := hfine.listed (List.mem_singleton_self _)
    refine (returns_decryptStream_letter hhead).2 ?_
    rw [← decryptStream_salt mime draws.salt]
    have hbefore : ∀ r ∈ ([] : List (CString × ByteString)), newline ∉ r.1.val ∧ r.1 ≠ d ∧ ¬Misled d r.1 :=
      List.forall_mem_nil _
    have hafter : ∀ r ∈ ([] : List (CString × ByteString)), ¬MarksW r.1 := List.forall_mem_nil _
    exact returns_decryptStream_tail hmime hd hlen hbefore hafter (hstream draws.K chunks hchunks)
      hhidden.reveal_eq (bytes "-----END IBE-----\n")
  · refine (returns_decryptStream_letter hhead).2 ?_
    have hids : ∀ r ∈ [(id, V)], newline ∉ r.1.val := fun r hr => List.mem_singleton.1 hr ▸ hid
    have hmem : d ∉ [(id, V)].map Prod.fst := fun h => hne (List.mem_singleton.1 h)
    exact returns_decryptStream_unlisted hmime (List.cons_ne_nil _ _) hids hd hmem hfine
      (skipped_END (by decide))

/-- The one that is mailed to has the ID of the letter if the address has been left as it
is and there is no subject. -/
theorem idOf_eq_mailId_iff (year : CString) (params : Params) {email rcpt : CString} (subject : Option CString)
    (hto : rcpt.val = emailShare email) :
    idOf year params rcpt = mailId year params email subject ↔ subject = none ∧ rcpt = email := by
  have hids : idOf year params rcpt = mailId year params email subject ↔
      fmtMakeId year (some rcpt) none params = fmtMakeId year (some email) subject params := by
    exact Option.get_inj
  have hle : rcpt.val.length ≤ email.val.length := by
    rw [hto, emailShare]
    split
    · exact le_rfl
    · split_ifs
      · rw [List.length_dropLast]
        exact Nat.sub_le _ _
      · exact le_rfl
  rw [hids, fmtMakeId_eq_iff, subjectTail, List.append_nil]
  cases subject with
  | none => rw [subjectTail, List.append_nil, Subtype.val_inj, and_iff_right rfl]
  | some s =>
      have hname : (bytes "&subject=").length = 9 := by decide
      constructor
      · intro h
        have hlength := congrArg List.length h
        rw [subjectTail, List.length_append, List.length_append, hname] at hlength
        omega
      · rintro ⟨h, -⟩
        cases h

variable {p : Nat} [hp : Fact p.Prime] [hp12 : Fact (p % 12 = 11)]

/-- The one who is mailed to decrypts the secret message with a key for the address, unless
the letter is for a subject or for an address that has lost its end. -/
theorem infectMain_decrypts (hmime : Lossless mime) (hlib : Inverse lib) (h0 : 0 < lib.ivLength)
    (hlt : lib.ivLength < lib.mdLength) {q x : Nat} {name : CString} {G : MordellGroup.E p}
    (hf : Founded q x name G params) (hdraws : draws.Fits lib p q x) {conf : Infection} {start : Params}
    (hload : Returns (fmtLoadParams mime start disk conf.paramsfile) (1, params))
    (hplain : disk.files conf.unencfile = some plainmessage) (hsmall : plainmessage.length < 2 ^ 30)
    (hhead : Skipped 99 (bytes "-----BEGIN IBE-----" <+: ·) (plainmessage ++ bytes "\n\n"))
    (hsecret : disk.files conf.encfile = some input) {query email : CString} {subject : Option CString}
    (hquery : (tokens query.val).foldlM addQueryField (none, none) = some (some email, subject))
    {year : CString} (hid : newline ∉ (mailId year params email subject).val)
    (hB : ∃ B : MordellGroup.E p,
      MapsTo md params (byteStringSet (mailId year params email subject)) q B) :
    ∃ letter, Returns (infectMain mime lib md draws year conf start disk query)
        (0, some (emailShare email, letter)) ∧
      ∀ cmd rcpt : CString, rcpt.val = emailShare email → newline ∉ (idOf year params rcpt).val →
        Fine [mailId year params email subject] (idOf year params rcpt) →
        ∀ privkeyfile pw disk' key, Returns (fmtCryptLoad mime lib disk' privkeyfile pw) (1, key) →
        ibeExtract md (byteStringSetMpz x) (idOf year params rcpt) params = some key → ∀ stack,
        Returns (decrypt mime lib md year params privkeyfile (some pw) disk' stack [cmd, rcpt] letter)
          (if subject = none ∧ rcpt = email then (0, input) else (1, [])) := by
  have hkem : KemCorrect md (byteStringSetMpz x) draws.r [] [mailId year params email subject] params :=
    hf.kemCorrect hdraws.kem hdraws.lt (fun id hmem => List.mem_singleton.1 hmem ▸ hB) []
  obtain ⟨letter, hinfect, hopens⟩ := returns_infect hmime hlib h0 hlt hdraws.salts hdraws.salt hkem hid
    hsecret hhead email
  refine ⟨letter, ?_, fun cmd rcpt hto hnl hfine privkeyfile pw disk' key hcrypt hkey stack => ?_⟩
  · have hraw := returns_fmtLoadRawByteString hplain hsmall []
    have hloop := returns_queryLoop query.property (none, none)
    rw [hquery] at hloop
    refine hraw.bind (hload.bind ?_)
    simp only [ne_eq, not_true_eq_false, if_false]
    exact hloop.bind (hinfect.map fun mail => ((0 : Int), some mail))
  · obtain ⟨hlisted, hunlisted⟩ := hopens _ hnl hfine key stack
    have hiff := idOf_eq_mailId_iff year params subject hto
    refine hcrypt.bind ?_
    simp only [ne_eq, not_true_eq_false, if_false]
    by_cases heq : idOf year params rcpt = mailId year params email subject
    · rw [if_pos (hiff.1 heq)]
      exact (hlisted heq hkey).map fun r : ByteString × Int => ((if r.2 ≠ 1 then 1 else 0 : Int), r.1)
    · rw [if_neg (mt hiff.2 heq)]
      exact (hunlisted heq).map fun r : ByteString × Int => ((if r.2 ≠ 1 then 1 else 0 : Int), r.1)

end Main

section Sample

open DecryptionStreams BannedList CombineCommand SavedStrings PointBytes SetupOutcome ParamsRoundTrip ScriptRuns

def sampleConf : Infection where
  paramsfile := savedFile
  encfile := charstarFromByteString (bytes "firstmessage.txt")
  unencfile := charstarFromByteString (bytes "instructions.txt")

def sampleDisk : Disk where
  files f :=
    if f = savedFile then some (mimePut base64 (ibeSerializeParams knownParams))
    else if f = sampleConf.encfile then some (bytes "hi")
    else some (bytes "Ask for a key.\n")
  writable _ := true
  written := []

def bobQuery : CString := charstarFromByteString (bytes "id=bob")

theorem fieldsFit_knownParams : FieldsFit knownParams :=
  ⟨by decide +kernel, by decide +kernel⟩

/-- The letter to an address without a subject is opened. -/
theorem infectMain_decrypts_known :
    ∃ letter, Returns (infectMain base64 sampleLib (fun _ => knownDigest) sampleDraws sampleYear sampleConf
        knownParams sampleDisk bobQuery) (0, some (bytes "bob", letter)) ∧
      ∀ disk key, Returns (fmtCryptLoad base64 sampleLib disk keyFile samplePassword) (1, key) →
        ibeExtract (fun _ => knownDigest) (byteStringSetMpz 5) (idOf sampleYear knownParams bob) knownParams =
          some key →
        Returns (decrypt base64 sampleLib (fun _ => knownDigest) sampleYear knownParams keyFile
          (some samplePassword) disk ⟨[], []⟩ [bob, bob] letter) (0, bytes "hi") := by
  have h := deployable_known
  obtain ⟨G, hf⟩ := h.exists_founded startsClear_known
  have hload : Returns (fmtLoadParams base64 knownParams sampleDisk sampleConf.paramsfile) (1, knownParams) :=
    returns_fmtLoadParams streaming_base64 h.consistent fieldsFit_knownParams (by decide +kernel)
      (by decide +kernel) rfl knownParams
  have hplain : sampleDisk.files sampleConf.unencfile = some (bytes "Ask for a key.\n") := rfl
  have hsecret : sampleDisk.files sampleConf.encfile = some (bytes "hi") := rfl
  have hnl : newline ∉ (mailId sampleYear knownParams bob none).val := short_knownId.2.1
  have hhead : Skipped 99 (bytes "-----BEGIN IBE-----" <+: ·) (bytes "Ask for a key.\n" ++ bytes "\n\n") :=
    .next (isLine_of_lt (by decide) (by decide) (by decide)) (by decide)
      (.next isLine_newline (by decide) (.single isLine_newline (by decide)))
  have hquery : (tokens bobQuery.val).foldlM addQueryField (none, none) = some (some bob, none) := by
    decide +kernel
  have hshare : emailShare bob = bytes "bob" := by decide
  obtain ⟨letter, hrun, hopens⟩ := infectMain_decrypts lossless_base64 inverse_sampleLib (by decide)
    (by decide) hf fits_knownDraws hload hplain (by decide) hhead hsecret hquery hnl (exists_mapsTo_known _)
  rw [hshare] at hrun
  refine ⟨letter, hrun, fun disk key hcrypt hkey => ?_⟩
  exact hopens bob bob hshare.symm short_knownId.2.1 fine_knownId keyFile samplePassword disk key hcrypt hkey
    ⟨[], []⟩

end Sample

end IdBasedEncryption.InfectLetters
