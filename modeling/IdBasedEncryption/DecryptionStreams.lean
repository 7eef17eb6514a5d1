import IdBasedEncryption.Crypto

namespace IdBasedEncryption.DecryptionStreams

open ByteStrings IncrementalStreams Crypto

variable {Cipher Mac : Type} {lib : Openssl Cipher Mac}

section Advance

def advanced (lib : Openssl Cipher Mac) (c : CryptoCtx Cipher Mac) (input : ByteString) :
    CryptoCtx Cipher Mac :=
  { c with
    ctx := (lib.decryptUpdate c.ctx input).2.1
    macctx := lib.hmacUpdate c.macctx input }

def emitted (lib : Openssl Cipher Mac) (c : CryptoCtx Cipher Mac) (input : ByteString) :
    ByteString :=
  (lib.decryptUpdate c.ctx input).2.2

variable (hlib : Reliable lib)

include hlib

theorem advanced_nil (c : CryptoCtx Cipher Mac) : advanced lib c [] = c := by
  rw [advanced, hlib.incremental.nil, hlib.absorbing.nil]

theorem emitted_nil (c : CryptoCtx Cipher Mac) : emitted lib c [] = [] := by
  rw [emitted, hlib.incremental.nil]

theorem advanced_append (c : CryptoCtx Cipher Mac) (a b : ByteString) :
    advanced lib c (a ++ b) = advanced lib (advanced lib c a) b := by
  simp only [advanced]
  rw [hlib.incremental.append, hlib.absorbing.append]

theorem emitted_append (c : CryptoCtx Cipher Mac) (a b : ByteString) :
    emitted lib c (a ++ b) = emitted lib c a ++ emitted lib (advanced lib c a) b := by
  simp only [emitted, advanced]
  rw [hlib.incremental.append]

theorem advance_eq (c : CryptoCtx Cipher Mac) (out input : ByteString) :
    cryptoDecryptAdvance lib c out input = some (advanced lib c input, out ++ emitted lib c input) := by
  have h := hlib.decryptUpdate_eq c.ctx input
  simp only [cryptoDecryptAdvance, h, ne_eq, not_true_eq_false, if_false]
  rfl

/-- Skipping an empty advance makes no difference. -/
theorem advance_if_eq {b : Prop} [Decidable b] (c : CryptoCtx Cipher Mac) (out : ByteString)
    {input : ByteString} (hb : ¬b → input = []) :
    (if b then cryptoDecryptAdvance lib c out input else some (c, out)) =
      some (advanced lib c input, out ++ emitted lib c input) := by
  by_cases h : b
  · rw [if_pos h, advance_eq hlib]
  · rw [if_neg h, hb h, advanced_nil hlib, emitted_nil hlib, List.append_nil]

end Advance

section Buffer

/-- The auxiliary buffer `aux` holds the bytes `h`. -/
structure Holds (lib : Openssl Cipher Mac) (aux : ByteString) (count : Int) (h : ByteString) :
    Prop where
  length_eq : aux.length = lib.mdLength
  count_eq : count = h.length
  take_eq : aux.take h.length = h

theorem Holds.length_le {aux : ByteString} {count : Int} {h : ByteString}
    (ha : Holds lib aux count h) : h.length ≤ lib.mdLength := by
  have hlen := congrArg List.length ha.take_eq
  rw [List.length_take, ha.length_eq] at hlen
  omega

theorem Holds.fill {aux : ByteString} {count : Int} {h v : ByteString} (ha : Holds lib aux count h)
    (hv : h.length + v.length ≤ lib.mdLength) :
    Holds lib (memcpy aux count.toNat v) (count + v.length) (h ++ v) := by
  have hcount : count.toNat = h.length := by rw [ha.count_eq, Int.toNat_natCast]
  have hlen := ha.length_eq
  refine ⟨?_, ?_, ?_⟩
  · rw [length_memcpy (by omega), ha.length_eq]
  · rw [ha.count_eq, List.length_append, Nat.cast_add]
  · rw [List.length_append, hcount, take_memcpy v (by omega), ha.take_eq]

theorem holds_nil {aux : ByteString} (ha : aux.length = lib.mdLength) : Holds lib aux 0 [] :=
  ⟨ha, rfl, rfl⟩

theorem holds_memcpy_zero {aux v : ByteString} (ha : aux.length = lib.mdLength)
    (hv : v.length ≤ lib.mdLength) : Holds lib (memcpy aux 0 v) v.length v := by
  simpa using (holds_nil ha).fill (v := v) (by simpa using hv)

end Buffer

section Body

/-- The context behind the bytes `r`, with the rest of them in the buffer. -/
structure After (lib : Openssl Cipher Mac) (c : CryptoCtx Cipher Mac) (r : ByteString)
    (c' : CryptoCtx Cipher Mac) (h : ByteString) : Prop where
  holds : Holds lib c'.auxbuf c'.count h
  eq : { c' with auxbuf := c.auxbuf, count := c.count } = advanced lib c r

theorem Holds.take_toNat {aux : ByteString} {count : Int} {h : ByteString}
    (ha : Holds lib aux count h) : aux.take count.toNat = h := by
  rw [ha.count_eq, Int.toNat_natCast, ha.take_eq]

theorem Holds.eq_append {aux : ByteString} {count : Int} {h : ByteString}
    (ha : Holds lib aux count h) : aux = h ++ aux.drop h.length := by
  conv_lhs => rw [← List.take_append_drop h.length aux, ha.take_eq]

variable (hlib : Reliable lib) {c : CryptoCtx Cipher Mac} {h : ByteString}

theorem keepFilling_holds (hc : Holds lib c.auxbuf c.count h) {v : ByteString}
    (hv : h.length + v.length ≤ lib.mdLength) :
    Holds lib (keepFilling c v).auxbuf (keepFilling c v).count (h ++ v) :=
  hc.fill hv

include hlib

theorem fullFlush_eq (hc : Holds lib c.auxbuf c.count h) {v : ByteString}
    (hv : lib.mdLength ≤ v.length) :
    ∃ c', fullFlush lib c v (c.count + v.length - lib.mdLength) =
        some (c', emitted lib c (h ++ v.take (v.length - lib.mdLength))) ∧
      After lib c (h ++ v.take (v.length - lib.mdLength)) c' (v.drop (v.length - lib.mdLength)) := by
  have hshift : c.count + v.length - lib.mdLength - (advanced lib c h).count =
      (v.length - lib.mdLength : Nat) := by
    change c.count + v.length - lib.mdLength - c.count = _
    omega
  have hempty : ¬c.count ≠ 0 → h = [] := by
    intro h0
    rw [not_not, hc.count_eq] at h0
    exact List.eq_nil_of_length_eq_zero (by exact_mod_cast h0)
  have hnone : ¬((v.length - lib.mdLength : Nat) : Int) > 0 → v.take (v.length - lib.mdLength) = [] := by
    intro h0
    rw [show v.length - lib.mdLength = 0 by omega, List.take_zero]
  have hrefill : (v.drop (v.length - lib.mdLength)).length = lib.mdLength := by
    rw [List.length_drop]
    omega
  have hrun : fullFlush lib c v (c.count + v.length - lib.mdLength) =
      some ({ advanced lib (advanced lib c h) (v.take (v.length - lib.mdLength)) with
        auxbuf := memcpy c.auxbuf 0 (v.drop (v.length - lib.mdLength)), count := lib.mdLength },
        emitted lib c h ++
          emitted lib (advanced lib c h) (v.take (v.length - lib.mdLength))) := by
    rw [fullFlush, hc.take_toNat, advance_if_eq hlib c [] hempty]
    simp only [Option.bind_eq_bind, Option.bind_some, List.nil_append, hshift, Int.toNat_natCast]
    rw [advance_if_eq hlib _ _ hnone, List.take_of_length_le hrefill.le]
    rfl
  rw [hrun, ← advanced_append hlib, ← emitted_append hlib]
  refine ⟨_, rfl, ?_, rfl⟩
  have h0 := holds_memcpy_zero hc.length_eq hrefill.le
  rwa [hrefill] at h0

theorem partialFlush_eq (hc : Holds lib c.auxbuf c.count h) {v : ByteString}
    (hn : lib.mdLength ≤ h.length + v.length) (hv : v.length ≤ lib.mdLength) :
    ∃ c', partialFlush lib c v (c.count + v.length - lib.mdLength) =
        some (c', emitted lib c (h.take (h.length + v.length - lib.mdLength))) ∧
      After lib c (h.take (h.length + v.length - lib.mdLength)) c'
        (h.drop (h.length + v.length - lib.mdLength) ++ v) := by
  have hshift : c.count + v.length - lib.mdLength = (h.length + v.length - lib.mdLength : Nat) := by
    rw [hc.count_eq]
    omega
  have hk : h.length + v.length - lib.mdLength ≤ h.length := by omega
  have hroom : h.length - (h.length + v.length - lib.mdLength) + v.length ≤ lib.mdLength := by omega
  rw [hshift]
  generalize h.length + v.length - lib.mdLength = k at hk hroom ⊢
  have hunflushed : (c.auxbuf.drop k).take (c.count - k).toNat = h.drop k := by
    have hlen : (c.count - k).toNat = (h.drop k).length := by
      rw [hc.count_eq, List.length_drop]
      omega
    rw [hlen, hc.eq_append, List.drop_append_of_le_length hk, List.take_left]
  have hmoved : Holds lib (memcpy c.auxbuf 0 (h.drop k)) (c.count - k) (h.drop k) := by
    have h0 := holds_memcpy_zero (v := h.drop k) hc.length_eq (by
      rw [List.length_drop]
      exact (Nat.sub_le ..).trans hc.length_le)
    rwa [List.length_drop, Nat.cast_sub hk, ← hc.count_eq] at h0
  have hflushed : c.auxbuf.take k = h.take k := by
    rw [hc.eq_append, List.take_append_of_le_length hk]
  have hrun : partialFlush lib c v (k : Nat) =
      some (keepFilling { advanced lib c (h.take k) with
        auxbuf := memcpy c.auxbuf 0 (h.drop k), count := c.count - k } v, emitted lib c (h.take k)) := by
    rw [partialFlush, Int.toNat_natCast, hflushed, advance_eq hlib]
    rw [← hunflushed]
    rfl
  rw [hrun]
  exact ⟨_, rfl, hmoved.fill (by rwa [List.length_drop]), rfl⟩

/-- All but the last bytes go through the cipher and the MAC, in each of the
three cases. -/
theorem cryptoDecryptBody_eq (hc : Holds lib c.auxbuf c.count h) (v : ByteString) :
    ∃ c', cryptoDecryptBody lib c v = some (c', emitted lib c (released lib.mdLength (h ++ v))) ∧
      After lib c (released lib.mdLength (h ++ v)) c' (held lib.mdLength (h ++ v)) := by
  have hle := hc.length_le
  have hcount := hc.count_eq
  rw [cryptoDecryptBody]
  by_cases hflush : c.count + v.length - lib.mdLength > 0
  · by_cases hfull : c.count ≤ c.count + v.length - lib.mdLength
    · obtain ⟨hr, hh⟩ := full_flush (h := h) (n := lib.mdLength) (v := v) (by omega)
      rw [if_pos hflush, if_pos hfull, hr, hh]
      exact fullFlush_eq hlib hc (by omega)
    · obtain ⟨hr, hh⟩ := partial_flush (h := h) (n := lib.mdLength) (v := v) (by omega) (by omega)
      rw [if_pos hflush, if_neg hfull, hr, hh]
      exact partialFlush_eq hlib hc (by omega) (by omega)
  · have hlen : (h ++ v).length ≤ lib.mdLength := by
      rw [List.length_append]
      omega
    rw [released_eq_nil _ _ hlen, held_eq_self _ _ hlen, emitted_nil hlib, if_neg hflush]
    refine ⟨_, rfl, keepFilling_holds hc (by rwa [← List.length_append]), ?_⟩
    rw [advanced_nil hlib, keepFilling]

omit hlib in
theorem After.emitted_eq {r b : ByteString} {c' : CryptoCtx Cipher Mac} (hr : After lib c r c' h) :
    emitted lib c' b = emitted lib (advanced lib c r) b := by
  rw [← hr.eq]
  rfl

theorem After.trans {a b h' : ByteString} {c' c'' : CryptoCtx Cipher Mac} (ha : After lib c a c' h)
    (hb : After lib c' b c'' h') : After lib c (a ++ b) c'' h' := by
  refine ⟨hb.holds, ?_⟩
  rw [advanced_append hlib, ← ha.eq]
  exact congrArg (fun s : CryptoCtx Cipher Mac => { s with auxbuf := c.auxbuf, count := c.count }) hb.eq

end Body

section Update

/-- The context right behind the initialization vector. -/
def started (lib : Openssl Cipher Mac) (secret iv : ByteString) : CryptoCtx Cipher Mac :=
  let keys := cryptoMakeChkeys lib secret
  { ctx := (lib.decryptInit keys.1 iv).2
    macctx := lib.hmacUpdate (lib.hmacInit keys.2) iv
    state := 1
    auxbuf := byteStringReinit keys.1 lib.mdLength
    ivbuf := []
    count := 0 }

/-- The initialization vector is not complete; only `r` has been received. -/
structure Collecting (lib : Openssl Cipher Mac) (secret r : ByteString) (c : CryptoCtx Cipher Mac) :
    Prop where
  short : r.length < lib.ivLength
  eq : c = { cryptoDecryptInit lib secret with ivbuf := c.ivbuf, count := r.length }
  length_ivbuf : c.ivbuf.length = lib.ivLength
  ivbuf_take : c.ivbuf.take r.length = r

/-- Behind the initialization vector all of `r` but the last bytes has gone
through the cipher and the MAC, and `out` has come out. -/
structure Decrypting (lib : Openssl Cipher Mac) (secret r out : ByteString)
    (c : CryptoCtx Cipher Mac) : Prop where
  long : lib.ivLength ≤ r.length
  after : After lib (started lib secret (r.take lib.ivLength))
    (released lib.mdLength (r.drop lib.ivLength)) c (held lib.mdLength (r.drop lib.ivLength))
  out_eq : out = emitted lib (started lib secret (r.take lib.ivLength))
    (released lib.mdLength (r.drop lib.ivLength))

def Received (lib : Openssl Cipher Mac) (secret : ByteString) (c : CryptoCtx Cipher Mac)
    (r out : ByteString) : Prop :=
  Collecting lib secret r c ∧ out = [] ∨ Decrypting lib secret r out c

variable (hlib : Reliable lib) {secret r out : ByteString} {c : CryptoCtx Cipher Mac}

theorem received_init (h0 : 0 < lib.ivLength) :
    Received lib secret (cryptoDecryptInit lib secret) [] [] :=
  Or.inl ⟨⟨h0, rfl, List.length_replicate, rfl⟩, rfl⟩

theorem Decrypting.state_eq (hc : Decrypting lib secret r out c) : c.state = 1 :=
  congrArg CryptoCtx.state hc.after.eq

theorem Collecting.state_eq (hc : Collecting lib secret r c) : c.state = 0 := by
  rw [hc.eq]
  rfl

include hlib

theorem Decrypting.step (hc : Decrypting lib secret r out c) (v : ByteString) :
    ∃ c' o, cryptoDecryptUpdate lib c v = some (c', o) ∧
      Decrypting lib secret (r ++ v) (out ++ o) c' := by
  have hstate := hc.state_eq
  have hlong := hc.long
  obtain ⟨c', hrun, hafter⟩ := cryptoDecryptBody_eq hlib hc.after.holds v
  obtain ⟨hr, hh⟩ := released_held_append lib.mdLength (r.drop lib.ivLength) v
  have hupdate : cryptoDecryptUpdate lib c v = cryptoDecryptBody lib c v := by
    rw [cryptoDecryptUpdate, if_neg (by omega)]
  refine ⟨c', _, hupdate.trans hrun, ?_, ?_, ?_⟩
  · rw [List.length_append]
    omega
  · rw [List.take_append_of_le_length hlong, List.drop_append_of_le_length hlong, hr, hh]
    exact hc.after.trans hlib hafter
  · rw [List.take_append_of_le_length hlong, List.drop_append_of_le_length hlong, hr,
      emitted_append hlib, hc.out_eq, hc.after.emitted_eq]

omit hlib in
theorem Collecting.step_short (hc : Collecting lib secret r c) {v : ByteString}
    (hv : r.length + v.length < lib.ivLength) :
    ∃ c', cryptoDecryptUpdate lib c v = some (c', []) ∧ Collecting lib secret (r ++ v) c' := by
  have hlen := hc.length_ivbuf
  have hcount : c.count = r.length := congrArg CryptoCtx.count hc.eq
  have hfull : ¬c.count + v.length ≥ lib.ivLength := by omega
  refine ⟨{ c with ivbuf := memcpy c.ivbuf r.length v, count := r.length + v.length }, ?_, ?_⟩
  · simp only [cryptoDecryptUpdate, if_neg hfull, if_pos hc.state_eq, Int.toNat_natCast,
      List.take_length]
    rw [hcount, Int.toNat_natCast]
  · refine ⟨by rwa [List.length_append], ?_, ?_, ?_⟩
    · rw [List.length_append, Nat.cast_add]
      exact congrArg (fun s : CryptoCtx Cipher Mac => { s with
        ivbuf := memcpy c.ivbuf r.length v, count := r.length + v.length }) hc.eq
    · rw [length_memcpy (by omega), hlen]
    · rw [List.length_append, take_memcpy v (by omega), hc.ivbuf_take]

/-- The vector is completed, and what follows it goes on to the buffer. -/
theorem Collecting.step_full (hc : Collecting lib secret r c) {v : ByteString}
    (hv : lib.ivLength ≤ r.length + v.length) :
    ∃ c' o, cryptoDecryptUpdate lib c v = some (c', o) ∧ Decrypting lib secret (r ++ v) o c' := by
  have hshort := hc.short
  have hlen := hc.length_ivbuf
  have hcount : c.count = r.length := congrArg CryptoCtx.count hc.eq
  have hfull : c.count + v.length ≥ lib.ivLength := by omega
  have hlong : lib.ivLength ≤ (r ++ v).length := by rwa [List.length_append]
  have hl : lib.ivLength - c.count = (lib.ivLength - r.length : Nat) := by omega
  have hiv : memcpy c.ivbuf r.length (v.take (lib.ivLength - r.length)) =
      (r ++ v).take lib.ivLength := by
    have hsum : r.length + (v.take (lib.ivLength - r.length)).length = lib.ivLength := by
      rw [List.length_take]
      omega
    have hcopy := take_memcpy (d := c.ivbuf) (v.take (lib.ivLength - r.length))
      (k := r.length) (by omega)
    have hwhole := length_memcpy (d := c.ivbuf) (k := r.length)
      (s := v.take (lib.ivLength - r.length)) (by omega)
    rw [hsum, hc.ivbuf_take, List.take_of_length_le (by omega)] at hcopy
    rw [hcopy, List.take_append, List.take_of_length_le hshort.le]
  have hrest : v.drop (lib.ivLength - r.length) = (r ++ v).drop lib.ivLength := by
    rw [List.drop_append, List.drop_eq_nil_of_le hshort.le, List.nil_append]
  have hrun : cryptoDecryptUpdate lib c v =
      if (v.drop (lib.ivLength - r.length)).length = 0 then
        some (started lib secret ((r ++ v).take lib.ivLength), [])
      else cryptoDecryptBody lib (started lib secret ((r ++ v).take lib.ivLength))
        (v.drop (lib.ivLength - r.length)) := by
    have hinit := hlib.decryptInit_eq
    simp only [cryptoDecryptUpdate, if_pos hfull, if_pos hc.state_eq]
    rw [if_neg (by rw [hc.state_eq]; decide), hl, hcount, Int.toNat_natCast, Int.toNat_natCast, hiv,
      hinit, if_neg (not_not.2 rfl), hc.eq]
    rfl
  by_cases hempty : (v.drop (lib.ivLength - r.length)).length = 0
  · rw [hrun, if_pos hempty]
    have hnil : (r ++ v).drop lib.ivLength = [] := by
      rw [← hrest]
      exact List.eq_nil_of_length_eq_zero hempty
    refine ⟨_, _, rfl, hlong, ⟨?_, ?_⟩, ?_⟩
    · rw [hnil, held, List.drop_nil]
      exact holds_nil (length_byteStringReinit ..)
    · rw [hnil, released, List.take_nil]
      exact (advanced_nil hlib _).symm
    · rw [hnil, released, List.take_nil]
      exact (emitted_nil hlib _).symm
  · rw [hrun, if_neg hempty]
    obtain ⟨c', hbody, hafter⟩ := cryptoDecryptBody_eq hlib
      (c := started lib secret ((r ++ v).take lib.ivLength)) (h := [])
      (holds_nil (length_byteStringReinit ..)) (v.drop (lib.ivLength - r.length))
    rw [List.nil_append, hrest] at hafter hbody
    exact ⟨c', _, hrest ▸ hbody, hlong, hafter, rfl⟩

theorem Collecting.step (hc : Collecting lib secret r c) (v : ByteString) :
    ∃ c' o, cryptoDecryptUpdate lib c v = some (c', o) ∧ Received lib secret c' (r ++ v) o := by
  by_cases hv : r.length + v.length < lib.ivLength
  · obtain ⟨c', hrun, hc'⟩ := hc.step_short hv
    exact ⟨c', [], hrun, Or.inl ⟨hc', rfl⟩⟩
  · obtain ⟨c', o, hrun, hc'⟩ := hc.step_full hlib (v := v) (by omega)
    exact ⟨c', o, hrun, Or.inr hc'⟩

/-- The context is determined by all bytes that were received. -/
theorem Received.step (hc : Received lib secret c r out) (v : ByteString) :
    ∃ c' o, cryptoDecryptUpdate lib c v = some (c', o) ∧
      Received lib secret c' (r ++ v) (out ++ o) := by
  rcases hc with ⟨hc, rfl⟩ | hc
  · exact hc.step hlib v
  · obtain ⟨c', o, hrun, hc'⟩ := hc.step hlib v
    exact ⟨c', o, hrun, Or.inr hc'⟩

end Update

section Final

def hmac (lib : Openssl Cipher Mac) (secret data : ByteString) : ByteString :=
  lib.hmacFinal (lib.hmacUpdate (lib.hmacInit (cryptoMakeChkeys lib secret).2) data)

/-- What stands between the initialization vector and the MAC. -/
def middle (lib : Openssl Cipher Mac) (ctext : ByteString) : ByteString :=
  (released lib.mdLength ctext).drop lib.ivLength

def deciphered (lib : Openssl Cipher Mac) (secret ctext : ByteString) : Cipher × ByteString :=
  (lib.decryptUpdate (lib.decryptInit (cryptoMakeChkeys lib secret).1
    (ctext.take lib.ivLength)).2 (middle lib ctext)).2

def decryption (lib : Openssl Cipher Mac) (secret ctext : ByteString) : ByteString :=
  (deciphered lib secret ctext).2 ++ (lib.decryptFinal (deciphered lib secret ctext).1).2

/-- There is a MAC, it is right, and the cipher accepts the end of the middle
part. -/
structure Accepts (lib : Openssl Cipher Mac) (secret ctext : ByteString) : Prop where
  long : lib.ivLength + lib.mdLength ≤ ctext.length
  mac_eq : hmac lib secret (released lib.mdLength ctext) = held lib.mdLength ctext
  final_eq : (lib.decryptFinal (deciphered lib secret ctext).1).1 = 1

variable {secret r out : ByteString} {c : CryptoCtx Cipher Mac}

theorem Received.count_mem (hc : Received lib secret c r out) (hs : c.state ≠ 0) :
    0 ≤ c.count ∧ c.count ≤ lib.mdLength := by
  rcases hc with ⟨hc, -⟩ | hc
  · exact absurd hc.state_eq hs
  · rw [hc.after.holds.count_eq]
    exact ⟨Int.natCast_nonneg _, Int.ofNat_le.2 hc.after.holds.length_le⟩

theorem Received.state_ne_zero_iff (hc : Received lib secret c r out) :
    c.state ≠ 0 ↔ lib.ivLength ≤ r.length := by
  rcases hc with ⟨hc, -⟩ | hc
  · exact iff_of_false (not_not.2 hc.state_eq) hc.short.not_ge
  · rw [hc.state_eq]
    exact iff_of_true one_ne_zero hc.long

/-- The buffer is full only behind a whole MAC. -/
theorem Received.count_eq_iff (hlt : lib.ivLength < lib.mdLength) (hc : Received lib secret c r out) :
    c.count = lib.mdLength ↔ lib.ivLength + lib.mdLength ≤ r.length := by
  rcases hc with ⟨hc, -⟩ | hc
  · have hcount : c.count = r.length := congrArg CryptoCtx.count hc.eq
    have hshort := hc.short
    omega
  · have hlong := hc.long
    rw [hc.after.holds.count_eq, length_held, List.length_drop]
    omega

variable (hlib : Reliable lib)

include hlib

/-- Behind a whole MAC the context is that of the middle part. -/
theorem Decrypting.eq_deciphered (hc : Decrypting lib secret r out c)
    (hlong : lib.ivLength + lib.mdLength ≤ r.length) :
    c.ctx = (deciphered lib secret r).1 ∧ out = (deciphered lib secret r).2 ∧
      lib.hmacFinal c.macctx = hmac lib secret (released lib.mdLength r) ∧
      c.auxbuf = held lib.mdLength r := by
  obtain ⟨hr, hh⟩ := released_held_drop hlong
  have hctx := congrArg CryptoCtx.ctx hc.after.eq
  have hmac := congrArg CryptoCtx.macctx hc.after.eq
  have haux := hc.after.holds.take_eq
  have hout := hc.out_eq
  rw [hr] at hctx hmac hout
  rw [hh] at haux
  refine ⟨hctx, hout, ?_, ?_⟩
  · have hiv : r.take lib.ivLength = (released lib.mdLength r).take lib.ivLength := by
      rw [released, List.take_take, Nat.min_eq_left (by omega)]
    have hsplit : lib.hmacUpdate (lib.hmacUpdate (lib.hmacInit (cryptoMakeChkeys lib secret).2)
        (r.take lib.ivLength)) ((released lib.mdLength r).drop lib.ivLength) =
        lib.hmacUpdate (lib.hmacInit (cryptoMakeChkeys lib secret).2) (released lib.mdLength r) := by
      rw [← hlib.absorbing.append, hiv, List.take_append_drop]
    exact congrArg lib.hmacFinal (hmac.trans hsplit)
  · rwa [List.take_of_length_le] at haux
    rw [hc.after.holds.length_eq, length_held]
    omega

theorem Received.final_eq (hlt : lib.ivLength < lib.mdLength) (hc : Received lib secret c r out) :
    ((cryptoDecryptFinal lib c).isSome ↔ Accepts lib secret r) ∧
      (lib.ivLength + lib.mdLength ≤ r.length → out = (deciphered lib secret r).2) ∧
      ∀ last, cryptoDecryptFinal lib c = some last → out ++ last = decryption lib secret r := by
  have hcount := hc.count_eq_iff hlt
  by_cases hlong : lib.ivLength + lib.mdLength ≤ r.length
  · have hdec : Decrypting lib secret r out c := by
      refine hc.resolve_left fun h => ?_
      have hshort := h.1.short
      omega
    obtain ⟨hctx, hout, hmac_eq, haux⟩ := hdec.eq_deciphered hlib hlong
    have hcmp := byteStringCmp_eq_zero_iff (a := lib.hmacFinal c.macctx) (b := c.auxbuf) (by
      rw [hlib.length_hmacFinal, hdec.after.holds.length_eq])
    rw [hmac_eq, haux] at hcmp
    rw [cryptoDecryptFinal, if_neg (not_not.2 (hcount.2 hlong)), hmac_eq, haux, hctx]
    by_cases hmac : hmac lib secret (released lib.mdLength r) = held lib.mdLength r
    · rw [if_neg (not_not.2 (hcmp.2 hmac))]
      by_cases hf : (lib.decryptFinal (deciphered lib secret r).1).1 = 1
      · rw [if_neg (not_not.2 hf.symm)]
        refine ⟨iff_of_true rfl ⟨hlong, hmac, hf⟩, fun _ => hout, ?_⟩
        rintro last ⟨⟩
        rw [hout, decryption]
      · rw [if_pos (Ne.symm hf)]
        exact ⟨iff_of_false (by simp) fun h => hf h.final_eq, fun _ => hout, by simp⟩
    · rw [if_pos fun h => hmac (hcmp.1 h)]
      exact ⟨iff_of_false (by simp) fun h => hmac h.mac_eq, fun _ => hout, by simp⟩
  · have hnone : cryptoDecryptFinal lib c = none := by
      rw [cryptoDecryptFinal, if_pos fun h => hlong (hcount.1 h)]
    rw [hnone]
    refine ⟨iff_of_false (by simp) fun h => hlong h.long, fun h => absurd h hlong, fun _ h => ?_⟩
    exact absurd h (by simp)

theorem feed_received (h0 : 0 < lib.ivLength) (secret : ByteString) (chunks : List ByteString) :
    ∃ c out, feed (cryptoDecryptUpdate lib) (cryptoDecryptInit lib secret) chunks = some (c, out) ∧
      Received lib secret c chunks.flatten out := by
  obtain ⟨c, out, hrun, hc⟩ := feed_induction (I := Received lib secret)
    (fun s r w v h => Received.step hlib h v) (received_init h0) chunks
  rw [List.nil_append, List.nil_append] at hc
  exact ⟨c, out, hrun, hc⟩

/-- Only the bytes of the chunks matter. A run over them is accepted if and only
if they are authentic, and gives what the cipher makes of the middle part. -/
theorem feed_decrypt (h0 : 0 < lib.ivLength) (hlt : lib.ivLength < lib.mdLength)
    (secret : ByteString) (chunks : List ByteString) :
    ∃ c out, feed (cryptoDecryptUpdate lib) (cryptoDecryptInit lib secret) chunks = some (c, out) ∧
      ((cryptoDecryptFinal lib c).isSome ↔ Accepts lib secret chunks.flatten) ∧
      (∀ last, cryptoDecryptFinal lib c = some last →
        out ++ last = decryption lib secret chunks.flatten) ∧
      (lib.ivLength + lib.mdLength ≤ chunks.flatten.length →
        out = (deciphered lib secret chunks.flatten).2) ∧
      (c.state ≠ 0 ↔ lib.ivLength ≤ chunks.flatten.length) ∧
      (c.state ≠ 0 → 0 ≤ c.count ∧ c.count ≤ lib.mdLength) := by
  obtain ⟨c, out, hrun, hc⟩ := feed_received hlib h0 secret chunks
  obtain ⟨haccept, hout, hlast⟩ := hc.final_eq hlib hlt
  exact ⟨c, out, hrun, haccept, hlast, hout, hc.state_ne_zero_iff, hc.count_mem⟩

end Final

section Sample

def sampleIv : ByteString := [1, 2, 3, 4, 5, 6, 7, 8]

def sampleKey : ByteString :=
  [16, 115, 171, 108, 218, 75, 153, 28, 210, 159, 158, 131, 163, 7, 243, 64, 4, 174, 147, 39, 132,
    92, 31, 34]

def sampleHkey : ByteString :=
  [135, 186, 120, 224, 240, 58, 252, 239, 96, 101, 127, 52, 46, 197, 86, 115, 104, 250, 221, 140]

def sampleBlock : ByteString := [100, 39, 102, 197, 233, 101, 92, 65]

def sampleMac : ByteString :=
  [93, 102, 27, 54, 250, 85, 80, 173, 104, 112, 14, 96, 209, 101, 220, 81, 127, 35, 199, 113]

/-- Exchanges the message `hi` with its encryption. -/
def sampleCode (key iv m : ByteString) : ByteString :=
  if key = sampleKey ∧ iv = sampleIv then
    if m = bytes "hi" then sampleBlock else if m = sampleBlock then bytes "hi" else m
  else m

/-- Agrees with Triple DES and with HMAC-SHA1 on one message for the secret
`key`. A message of less than a block comes out at the very end, so the contexts
only collect their input. -/
def sampleLib : Openssl (ByteString × ByteString × ByteString) (ByteString × ByteString) where
  ivLength := 8
  mdLength := 20
  cipherCtxInit := ([], [], [])
  bytesToKey := fun secret => if secret = bytes "key1" then sampleKey else secret
  digest := fun secret => if secret = bytes "key2" then sampleHkey else secret
  encryptInit := fun key iv => (1, key, iv, [])
  encryptUpdate := fun s input => (1, (s.1, s.2.1, s.2.2 ++ input), [])
  encryptFinal := fun s => (1, sampleCode s.1 s.2.1 s.2.2)
  decryptInit := fun key iv => (1, key, iv, [])
  decryptUpdate := fun s input => (1, (s.1, s.2.1, s.2.2 ++ input), [])
  decryptFinal := fun s => (1, sampleCode s.1 s.2.1 s.2.2)
  hmacInit := fun key => (key, [])
  hmacUpdate := fun m input => (m.1, m.2 ++ input)
  hmacFinal := fun m =>
    if m.1 = sampleHkey ∧ m.2 = sampleIv ++ sampleBlock then sampleMac else List.replicate 20 0

theorem reliable_sampleLib : Reliable sampleLib where
  decryptInit_eq key iv := rfl
  decryptUpdate_eq s input := rfl
  incremental := by
    constructor
    · intro s
      simp [sampleLib]
    · intro s a b
      simp [sampleLib]
  absorbing := by
    constructor
    · intro m
      simp [sampleLib]
    · intro m a b
      simp [sampleLib]
  length_hmacFinal m := by
    simp only [sampleLib]
    split <;> rfl

/-- The message arrives in four chunks, one of them empty. -/
def sampleChunks : List ByteString :=
  [sampleIv.take 3, sampleIv.drop 3 ++ sampleBlock.take 2, [], sampleBlock.drop 2 ++ sampleMac]

theorem feed_decrypt_sample :
    ∃ c out, feed (cryptoDecryptUpdate sampleLib) (cryptoDecryptInit sampleLib (bytes "key"))
        sampleChunks = some (c, out) ∧
      ((cryptoDecryptFinal sampleLib c).isSome ↔
        Accepts sampleLib (bytes "key") sampleChunks.flatten) ∧
      (∀ last, cryptoDecryptFinal sampleLib c = some last →
        out ++ last = decryption sampleLib (bytes "key") sampleChunks.flatten) ∧
      (sampleLib.ivLength + sampleLib.mdLength ≤ sampleChunks.flatten.length →
        out = (deciphered sampleLib (bytes "key") sampleChunks.flatten).2) ∧
      (c.state ≠ 0 ↔ sampleLib.ivLength ≤ sampleChunks.flatten.length) ∧
      (c.state ≠ 0 → 0 ≤ c.count ∧ c.count ≤ sampleLib.mdLength) :=
  feed_decrypt reliable_sampleLib (by decide) (by decide) (bytes "key") sampleChunks

/-- The message is accepted and decrypted. -/
example : (do
    let (c, out) ← feed (cryptoDecryptUpdate sampleLib) (cryptoDecryptInit sampleLib (bytes "key"))
      sampleChunks
    let last ← cryptoDecryptFinal sampleLib c
    return out ++ last) = some (bytes "hi") := by
  decide

end Sample

end IdBasedEncryption.DecryptionStreams
