import IdBasedEncryption.DecryptionStreams

namespace IdBasedEncryption.AuthenticatedStreams

open ByteStrings IncrementalStreams Crypto DecryptionStreams

variable {Cipher Mac : Type} {lib : Openssl Cipher Mac}

section Encrypt

def enciphered (lib : Openssl Cipher Mac) (salt secret r : ByteString) : Cipher × ByteString :=
  (lib.encryptUpdate (lib.encryptInit (cryptoMakeChkeys lib secret).1 salt).2 r).2

def encryption (lib : Openssl Cipher Mac) (salt secret m : ByteString) : ByteString :=
  (enciphered lib salt secret m).2 ++ (lib.encryptFinal (enciphered lib salt secret m).1).2

/-- Behind the first chunk everything that went out has been authenticated. -/
structure Encrypting (lib : Openssl Cipher Mac) (salt secret : ByteString)
    (c : CryptoCtx Cipher Mac) (r out : ByteString) : Prop where
  state_eq : c.state = 1
  ctx_eq : c.ctx = (enciphered lib salt secret r).1
  out_eq : out = salt ++ (enciphered lib salt secret r).2
  macctx_eq : c.macctx = lib.hmacUpdate (lib.hmacInit (cryptoMakeChkeys lib secret).2) out

variable (hlib : Inverse lib) {salt secret r out : ByteString} {c : CryptoCtx Cipher Mac}

include hlib

theorem cryptoEncryptInit_eq (salt secret : ByteString) :
    cryptoEncryptInit lib salt secret =
      some ⟨(lib.encryptInit (cryptoMakeChkeys lib secret).1 salt).2,
        lib.hmacInit (cryptoMakeChkeys lib secret).2, 0, [], salt, 0⟩ := by
  simp only [cryptoEncryptInit, hlib.encryptInit_eq, ne_eq, not_true_eq_false, if_false]

theorem Encrypting.step (hc : Encrypting lib salt secret c r out) (v : ByteString) :
    ∃ c' o, cryptoEncryptUpdate lib c v = some (c', o) ∧
      Encrypting lib salt secret c' (r ++ v) (out ++ o) := by
  have hstate : ¬c.state = 0 := by
    rw [hc.state_eq]
    decide
  have happ : enciphered lib salt secret (r ++ v) =
      ((lib.encryptUpdate c.ctx v).2.1, (enciphered lib salt secret r).2 ++
        (lib.encryptUpdate c.ctx v).2.2) := by
    rw [hc.ctx_eq]
    exact hlib.encryptIncremental.append ..
  have hrun : cryptoEncryptUpdate lib c v = some ({ c with
      ctx := (lib.encryptUpdate c.ctx v).2.1
      macctx := lib.hmacUpdate c.macctx (lib.encryptUpdate c.ctx v).2.2 },
      (lib.encryptUpdate c.ctx v).2.2) := by
    simp only [cryptoEncryptUpdate, if_neg hstate, hlib.encryptUpdate_eq, ne_eq, not_true_eq_false,
      if_false, List.nil_append]
    rfl
  refine ⟨_, _, hrun, hc.state_eq, ?_, ?_, ?_⟩
  · rw [happ]
  · rw [happ, hc.out_eq, List.append_assoc]
  · rw [hlib.absorbing.append, ← hc.macctx_eq]

theorem encrypting_first (secret : ByteString) (hsalt : salt.length = lib.ivLength) (v : ByteString) :
    ∃ c o, (cryptoEncryptInit lib salt secret).bind (cryptoEncryptUpdate lib · v) = some (c, o) ∧
      Encrypting lib salt secret c v o := by
  have htake : salt.take lib.ivLength = salt := by rw [← hsalt, List.take_length]
  rw [cryptoEncryptInit_eq hlib, Option.bind_some]
  simp only [cryptoEncryptUpdate, if_true, htake, hlib.encryptUpdate_eq, ne_eq, not_true_eq_false,
    if_false]
  exact ⟨_, _, rfl, rfl, rfl, rfl, rfl⟩

theorem Encrypting.final (hc : Encrypting lib salt secret c r out) :
    ∃ last, cryptoEncryptFinal lib c = some last ∧
      out ++ last = salt ++ encryption lib salt secret r ++
        hmac lib secret (salt ++ encryption lib salt secret r) := by
  have hout : out ++ (lib.encryptFinal c.ctx).2 = salt ++ encryption lib salt secret r := by
    rw [hc.out_eq, hc.ctx_eq, encryption, List.append_assoc]
  have hmac_eq : lib.hmacFinal (lib.hmacUpdate c.macctx (lib.encryptFinal c.ctx).2) =
      hmac lib secret (salt ++ encryption lib salt secret r) := by
    rw [hc.macctx_eq, ← hlib.absorbing.append, hout, hmac]
  have htake : (hmac lib secret (salt ++ encryption lib salt secret r)).take lib.mdLength =
      hmac lib secret (salt ++ encryption lib salt secret r) :=
    List.take_of_length_le (hlib.length_hmacFinal _).le
  refine ⟨(lib.encryptFinal c.ctx).2 ++ hmac lib secret (salt ++ encryption lib salt secret r), ?_, ?_⟩
  · simp only [cryptoEncryptFinal, hlib.encryptFinal_eq, ne_eq, not_true_eq_false, if_false, hmac_eq,
      htake]
  · rw [← List.append_assoc, hout]

end Encrypt

section RoundTrip

def sealed (lib : Openssl Cipher Mac) (salt secret m : ByteString) : ByteString :=
  salt ++ encryption lib salt secret m ++ hmac lib secret (salt ++ encryption lib salt secret m)

variable (hlib : Inverse lib) {salt : ByteString} (secret : ByteString)

include hlib

/-- Only the bytes of the chunks matter, once there is a chunk. -/
theorem feed_encrypt (hsalt : salt.length = lib.ivLength) {chunks : List ByteString}
    (hne : chunks ≠ []) :
    ∃ c out last, ((cryptoEncryptInit lib salt secret).bind fun c =>
        feed (cryptoEncryptUpdate lib) c chunks) = some (c, out) ∧
      cryptoEncryptFinal lib c = some last ∧
      out ++ last = sealed lib salt secret chunks.flatten := by
  obtain ⟨v, chunks, rfl⟩ := List.exists_cons_of_ne_nil hne
  obtain ⟨c, o, hfirst, hc⟩ := encrypting_first hlib secret hsalt v
  obtain ⟨c', os, hrun, hc'⟩ := feed_induction (I := Encrypting lib salt secret)
    (fun s r w v h => h.step hlib v) hc chunks
  obtain ⟨last, hfinal, heq⟩ := hc'.final hlib
  refine ⟨c', o ++ os, last, ?_, hfinal, heq⟩
  rw [cryptoEncryptInit_eq hlib, Option.bind_some] at hfirst ⊢
  simp [feed, hfirst, hrun]

theorem accepts_sealed (hsalt : salt.length = lib.ivLength) (m : ByteString) :
    Accepts lib secret (sealed lib salt secret m) ∧
      decryption lib secret (sealed lib salt secret m) = m := by
  have hlen : (hmac lib secret (salt ++ encryption lib salt secret m)).length = lib.mdLength :=
    hlib.length_hmacFinal _
  have hlong : lib.ivLength + lib.mdLength ≤ (sealed lib salt secret m).length := by
    simp only [sealed, List.length_append, hlen, hsalt]
    omega
  obtain ⟨hr, hh⟩ := released_held_of_eq (n := lib.mdLength) (l := sealed lib salt secret m) rfl (by
    rw [hlen]
    omega)
  have hmiddle : middle lib (sealed lib salt secret m) = encryption lib salt secret m := by
    rw [middle, hr, ← hsalt, List.drop_left]
  have hiv : (sealed lib salt secret m).take lib.ivLength = salt := by
    rw [sealed, List.append_assoc, ← hsalt, List.take_left]
  have hinv := hlib.decrypt_encrypt (cryptoMakeChkeys lib secret).1 salt m
  have hdec : deciphered lib secret (sealed lib salt secret m) =
      (lib.decryptUpdate (lib.decryptInit (cryptoMakeChkeys lib secret).1 salt).2
        (encryption lib salt secret m)).2 := by
    rw [deciphered, hmiddle, hiv]
  refine ⟨⟨hlong, ?_, ?_⟩, ?_⟩
  · rw [hr, hh]
  · rw [hdec]
    exact hinv.1
  · rw [decryption, hdec]
    exact hinv.2

/-- However the ciphertext is cut again, the message comes out. -/
theorem feed_sealed (h0 : 0 < lib.ivLength) (hlt : lib.ivLength < lib.mdLength)
    (hsalt : salt.length = lib.ivLength) (m : ByteString) {cuts : List ByteString}
    (hcuts : cuts.flatten = sealed lib salt secret m) :
    ∃ c out last, feed (cryptoDecryptUpdate lib) (cryptoDecryptInit lib secret) cuts = some (c, out) ∧
      cryptoDecryptFinal lib c = some last ∧ out ++ last = m := by
  obtain ⟨haccepts, hdec⟩ := accepts_sealed hlib secret hsalt m
  obtain ⟨c, out, hrun, hc⟩ := feed_received hlib.toReliable h0 secret cuts
  rw [hcuts] at hc
  obtain ⟨hiff, -, hlast⟩ := hc.final_eq hlib.toReliable hlt
  obtain ⟨last, hfinal⟩ := Option.isSome_iff_exists.1 (hiff.2 haccepts)
  exact ⟨c, out, last, hrun, hfinal, by rw [hlast last hfinal, hdec]⟩

theorem cryptoEncrypt_eq (hsalt : salt.length = lib.ivLength) (m : ByteString) :
    cryptoEncrypt lib salt m secret = some (sealed lib salt secret m) := by
  obtain ⟨c, out, last, hrun, hfinal, heq⟩ :=
    feed_encrypt hlib secret hsalt (List.cons_ne_nil m [])
  rw [cryptoEncryptInit_eq hlib, Option.bind_some, feed_singleton] at hrun
  rw [cryptoEncrypt, cryptoEncryptInit_eq hlib, List.flatten_singleton] at *
  simp [hrun, hfinal, heq]

theorem cryptoDecrypt_sealed (h0 : 0 < lib.ivLength) (hlt : lib.ivLength < lib.mdLength)
    (hsalt : salt.length = lib.ivLength) (m : ByteString) :
    cryptoDecrypt lib (sealed lib salt secret m) secret = some m := by
  have hcut : [sealed lib salt secret m].flatten = sealed lib salt secret m := List.flatten_singleton
  obtain ⟨c, out, last, hrun, hfinal, heq⟩ := feed_sealed hlib secret h0 hlt hsalt m hcut
  rw [feed_singleton] at hrun
  simp [cryptoDecrypt, hrun, hfinal, heq]

/-- However a message is cut for encryption and its ciphertext for decryption,
the message comes back. -/
theorem round_trip (h0 : 0 < lib.ivLength) (hlt : lib.ivLength < lib.mdLength)
    (hsalt : salt.length = lib.ivLength) (secret : ByteString) :
    (∀ chunks : List ByteString, chunks ≠ [] → ∃ c out last,
      ((cryptoEncryptInit lib salt secret).bind fun c =>
        feed (cryptoEncryptUpdate lib) c chunks) = some (c, out) ∧
      cryptoEncryptFinal lib c = some last ∧
      ∀ cuts : List ByteString, cuts.flatten = out ++ last → ∃ c' out' last',
        feed (cryptoDecryptUpdate lib) (cryptoDecryptInit lib secret) cuts = some (c', out') ∧
        cryptoDecryptFinal lib c' = some last' ∧ out' ++ last' = chunks.flatten) ∧
    ∀ m : ByteString, (cryptoEncrypt lib salt m secret).bind (cryptoDecrypt lib · secret) = some m := by
  constructor
  · intro chunks hne
    obtain ⟨c, out, last, hrun, hfinal, heq⟩ := feed_encrypt hlib secret hsalt hne
    refine ⟨c, out, last, hrun, hfinal, fun cuts hcuts => ?_⟩
    exact feed_sealed hlib secret h0 hlt hsalt chunks.flatten (hcuts.trans heq)
  · intro m
    rw [cryptoEncrypt_eq hlib secret hsalt, Option.bind_some,
      cryptoDecrypt_sealed hlib secret h0 hlt hsalt]

omit hlib

theorem inverse_sampleLib : Inverse sampleLib where
  toReliable := reliable_sampleLib
  encryptInit_eq key iv := rfl
  encryptUpdate_eq s input := rfl
  encryptFinal_eq s := rfl
  encryptIncremental := reliable_sampleLib.incremental
  decrypt_encrypt key iv m := by
    refine ⟨rfl, ?_⟩
    change sampleCode key iv (sampleCode key iv m) = m
    unfold sampleCode
    split_ifs <;> simp_all

theorem round_trip_sample :
    (∀ chunks : List ByteString, chunks ≠ [] → ∃ c out last,
      ((cryptoEncryptInit sampleLib sampleIv (bytes "key")).bind fun c =>
        feed (cryptoEncryptUpdate sampleLib) c chunks) = some (c, out) ∧
      cryptoEncryptFinal sampleLib c = some last ∧
      ∀ cuts : List ByteString, cuts.flatten = out ++ last → ∃ c' out' last',
        feed (cryptoDecryptUpdate sampleLib) (cryptoDecryptInit sampleLib (bytes "key")) cuts =
          some (c', out') ∧
        cryptoDecryptFinal sampleLib c' = some last' ∧ out' ++ last' = chunks.flatten) ∧
    ∀ m : ByteString, (cryptoEncrypt sampleLib sampleIv m (bytes "key")).bind
      (cryptoDecrypt sampleLib · (bytes "key")) = some m :=
  round_trip inverse_sampleLib (by decide) (by decide) rfl (bytes "key")

end RoundTrip

end IdBasedEncryption.AuthenticatedStreams
