import IdBasedEncryption.CryptFiles

namespace IdBasedEncryption.SavedStrings

open ByteStrings IncrementalStreams Crypto DecryptionStreams AuthenticatedStreams FuelLoops Stdio WholeLines Format
open CryptFiles

variable {E D Cipher Mac : Type}

section Model

variable (mime : Mime E D) (lib : Openssl Cipher Mac)

/-- The state of `mime_get` with the length of the buffer. A write is listed with the
position behind it and the length of the buffer at the time. -/
structure Buffer (D : Type) extends MimeGet D where
  len : Nat
  writes : List (Nat × Nat)

/-- There is no result when the doubled length does not fit into an `int`. -/
def bufferRound (c : Buffer D) : Option (Buffer D) ⊕ Buffer D :=
  match mimeGetRound mime c.toMimeGet with
  | .inl r => .inl (some { c with toMimeGet := r })
  | .inr r =>
      let l := r.bs.length
      let writes := c.writes ++ [(l, c.len)]
      if c.len < l + cryptBufSize then
        if 2 * c.len < 2 ^ 31 then .inr ⟨r, 2 * c.len, writes⟩ else .inl none
      else .inr ⟨r, c.len, writes⟩

/-- What `mime_get` reads, with its writes. -/
def mimeGetBuffer (fp : File) (fuel : Nat) : Option ((ByteString × File) × List (Nat × Nat)) :=
  (loop (bufferRound mime) ⟨⟨[], fp, mime.decodeInit, []⟩, 1024, []⟩ fuel).bind fun r =>
    r.map fun c =>
      let bs := c.bs ++ mime.decodeFinal c.ctx
      ((bs, c.fp), c.writes ++ [(bs.length, c.len)])

def fmtSaveByteString (disk : Disk) (fname : CString) (bs : ByteString) : Int × Disk :=
  if disk.writable fname then
    (1, { disk with
      files := Function.update disk.files fname (some (mimePut mime bs))
      written := fname :: disk.written })
  else (0, disk)

def fmtLoadByteString (disk : Disk) (fname : CString) (fuel : Nat) :
    Option ((Int × ByteString) × List (Nat × Nat)) :=
  match disk.files fname with
  | none => some ((0, []), [])
  | some bs => (mimeGetBuffer mime ⟨bs, false⟩ fuel).map fun r => ((1, r.1.1), r.2)

/-- `FMT_crypt_load` with the writes of `mime_get`. -/
def fmtCryptLoadBuffer (disk : Disk) (fname password : CString) (fuel : Nat) :
    Option ((Int × ByteString) × List (Nat × Nat)) :=
  match disk.files fname with
  | none => some ((0, []), [])
  | some bs =>
      (advanceTo (bytes "W:") ⟨bs, false⟩ fuel).bind fun fp =>
      (mimeGetBuffer mime fp fuel).map fun W =>
        match cryptoDecrypt lib W.1.1 (byteStringSet password) with
        | none => ((0, []), W.2)
        | some bs => ((1, bs), W.2)

end Model

section Buffers

variable {len l m : Nat}

/-- The longest byte string that is read into a buffer of less than 2 ^ 31 bytes. -/
def maxLoaded : Nat := 2 ^ 30 - cryptBufSize

/-- No write goes beyond the end of the buffer. -/
def InBuffer (writes : List (Nat × Nat)) : Prop := ∀ w ∈ writes, w.1 ≤ w.2

theorem inBuffer_nil : InBuffer [] := fun _ h => absurd h List.not_mem_nil

theorem InBuffer.concat {writes : List (Nat × Nat)} (h : InBuffer writes) (hle : l ≤ len) :
    InBuffer (writes ++ [(l, len)]) := by
  intro w hw
  rcases List.mem_append.1 hw with hw | hw
  · exact h w hw
  · rw [List.mem_singleton.1 hw]
    exact hle

/-- The buffer of `mime_get` in front of a round. -/
structure Roomy (len l : Nat) : Prop where
  size : ∃ k ≤ 20, len = 1024 * 2 ^ k
  room : l + cryptBufSize ≤ len

theorem roomy_start : Roomy 1024 0 := ⟨⟨0, Nat.zero_le _, rfl⟩, by decide⟩

namespace Roomy

theorem len_le (h : Roomy len l) : len ≤ 2 ^ 30 := by
  obtain ⟨k, hk, rfl⟩ := h.size
  have hpow : 2 ^ k ≤ 2 ^ 20 := Nat.pow_le_pow_right (by norm_num) hk
  omega

theorem le_maxLoaded (h : Roomy len l) : l ≤ maxLoaded := by
  have hlen := h.len_le
  have hroom := h.room
  rw [maxLoaded]
  rw [cryptBufSize] at *
  omega

theorem le_of_room (h : Roomy len l) (hroom : m + cryptBufSize ≤ len) : Roomy len m :=
  ⟨h.size, hroom⟩

theorem double (h : Roomy len l) (hle : m ≤ len) (hlt : 2 * len < 2 ^ 31) : Roomy (2 * len) m := by
  obtain ⟨k, -, rfl⟩ := h.size
  have hpos : 0 < 2 ^ k := Nat.pow_pos (by norm_num)
  have hpow : 2 ^ k < 2 ^ 20 := by omega
  have hk : k < 20 := (Nat.pow_lt_pow_iff_right (by norm_num)).1 hpow
  refine ⟨⟨k + 1, hk, by rw [pow_succ]; ring⟩, ?_⟩
  rw [cryptBufSize]
  omega

/-- The buffer that cannot be doubled is the longest one. -/
theorem full (h : Roomy len l) (hle : ¬2 * len < 2 ^ 31) : len = 2 ^ 30 := by
  have hlen := h.len_le
  omega

end Roomy

end Buffers

section Reading

/-- What OpenSSL documents of decoding, too: at most 64 characters wait for more, and
lines that are complete leave nothing for the end. -/
structure Streaming (mime : Mime E D) : Prop extends Lossless mime where
  length_decodeUpdate_le (d : D) (l : ByteString) :
    4 * (mime.decodeUpdate d l).2.length ≤ 3 * (l.length + 64)
  decodeFinal_eq {bs : ByteString} {ls : List ByteString} (h : text mime bs = ls.flatten)
    (hls : ∀ l ∈ ls, EncodedLine l) :
    mime.decodeFinal (run mime.decodeUpdate mime.decodeInit ls).1 = []

theorem streaming_base64 : Streaming base64 where
  toLossless := lossless_base64
  length_decodeUpdate_le d l := by
    have h := Base64.four_mul_length_decodeUpdate_le l
    have heq : (base64.decodeUpdate d l).2 = Base64.decodeUpdate l := rfl
    rw [heq]
    omega
  decodeFinal_eq h hls := rfl

variable {mime : Mime E D}

/-- What is read with the buffer is read without. -/
theorem loop_mimeGetRound_of_bufferRound {s c : Buffer D} {n : Nat}
    (h : loop (bufferRound mime) s n = some (some c)) :
    loop (mimeGetRound mime) s.toMimeGet n = some c.toMimeGet := by
  induction n generalizing s with
  | zero => cases h
  | succ n ih =>
      rw [loop, bufferRound] at h
      rw [loop]
      rcases hround : mimeGetRound mime s.toMimeGet with r | r
      · simp only [hround, Option.some.injEq] at h
        rw [← h]
      · simp only [hround] at h
        split_ifs at h
        · exact ih h
        · simp at h
        · exact ih h

theorem returns_mimeGet_of_mimeGetBuffer {fp : File} {r : (ByteString × File) × List (Nat × Nat)}
    (h : Returns (mimeGetBuffer mime fp) r) : Returns (mimeGet mime fp) r.1 := by
  obtain ⟨n, hn⟩ := h
  refine ⟨n, fun m hm => ?_⟩
  obtain ⟨_ | c, hloop, hc⟩ := Option.bind_eq_some_iff.1 (hn m hm)
  · cases hc
  · rw [mimeGet, loop_mimeGetRound_of_bufferRound hloop, ← Option.some.inj hc]
    rfl

variable (hmime : Streaming mime)

include hmime

/-- The lines fit into the buffer until its length does not fit into an `int`. -/
theorem returns_bufferRound_lines {ls : List ByteString} (hls : ∀ l ∈ ls, EncodedLine l) (ctx : D)
    (line out : ByteString) {len : Nat} {writes : List (Nat × Nat)} (hroom : Roomy len out.length)
    (hwrites : InBuffer writes) :
    ∃ r, Returns (loop (bufferRound mime) ⟨⟨line, ⟨ls.flatten, false⟩, ctx, out⟩, len, writes⟩) r ∧
      (r.isSome ↔ (out ++ (run mime.decodeUpdate ctx ls).2.flatten).length ≤ maxLoaded) ∧
      ∀ c, r = some c → c.fp = atEnd ∧ c.ctx = (run mime.decodeUpdate ctx ls).1 ∧
        c.bs = out ++ (run mime.decodeUpdate ctx ls).2.flatten ∧ Roomy c.len c.bs.length ∧
        InBuffer c.writes := by
  induction ls generalizing ctx line out len writes with
  | nil =>
      have hround : bufferRound mime ⟨⟨line, ⟨[], false⟩, ctx, out⟩, len, writes⟩ =
          .inl (some ⟨⟨line, atEnd, ctx, out⟩, len, writes⟩) := rfl
      have hnil : out ++ (run mime.decodeUpdate ctx []).2.flatten = out := List.append_nil out
      refine ⟨_, returns_loop_inl hround, ?_, ?_⟩
      · rw [hnil]
        exact iff_of_true rfl hroom.le_maxLoaded
      · intro c hc
        obtain rfl := Option.some.inj hc
        exact ⟨rfl, rfl, hnil.symm, hroom, hwrites⟩
  | cons l ls ih =>
      obtain ⟨hl, hrest⟩ := List.forall_mem_cons.1 hls
      obtain ⟨d, hd⟩ : ∃ d, mime.decodeUpdate ctx l = d := ⟨_, rfl⟩
      have hget : mimeGetRound mime ⟨line, ⟨l ++ ls.flatten, false⟩, ctx, out⟩ = _ :=
        mimeGetRound_line hl line ls.flatten out ctx
      have hupdate := hmime.length_decodeUpdate_le ctx l
      have hle := hl.length_le
      rw [hd] at hget hupdate
      have hfits : (out ++ d.2).length + 4 ≤ len := by
        have hbefore := hroom.room
        rw [cryptBufSize] at hbefore
        rw [List.length_append]
        omega
      have hwrites' := hwrites.concat (Nat.le_of_add_right_le hfits)
      have hrun : out ++ (run mime.decodeUpdate ctx (l :: ls)).2.flatten =
          out ++ d.2 ++ (run mime.decodeUpdate d.1 ls).2.flatten := by
        simp only [run, hd, List.flatten_cons, List.append_assoc]
      have hstate : (run mime.decodeUpdate ctx (l :: ls)).1 = (run mime.decodeUpdate d.1 ls).1 := by
        simp only [run, hd]
      rw [List.flatten_cons, hrun, hstate]
      by_cases hshort : len < (out ++ d.2).length + cryptBufSize
      · by_cases hint : 2 * len < 2 ^ 31
        · obtain ⟨r, hr, hiff, hsome⟩ := ih hrest d.1 (stored l line) (out ++ d.2)
            (hroom.double (Nat.le_of_add_right_le hfits) hint) hwrites'
          refine ⟨r, returns_loop_inr ?_ hr, hiff, hsome⟩
          simp only [bufferRound, hget, if_pos hshort, if_pos hint]
        · refine ⟨none, returns_loop_inl ?_, ?_, fun c hc => by cases hc⟩
          · simp only [bufferRound, hget, if_pos hshort, if_neg hint]
          · have hfull := hroom.full hint
            refine iff_of_false (by simp) ?_
            rw [cryptBufSize] at hshort
            rw [List.length_append, maxLoaded, cryptBufSize]
            omega
      · obtain ⟨r, hr, hiff, hsome⟩ := ih hrest d.1 (stored l line) (out ++ d.2)
          (hroom.le_of_room (Nat.le_of_not_lt hshort)) hwrites'
        refine ⟨r, returns_loop_inr ?_ hr, hiff, hsome⟩
        simp only [bufferRound, hget, if_neg hshort]

/-- The run of `mime_get` on a text at the end of a file. -/
theorem returns_bufferRound_text (bs : ByteString) :
    ∃ r, Returns (loop (bufferRound mime)
        ⟨⟨[], ⟨text mime bs, false⟩, mime.decodeInit, []⟩, 1024, []⟩) r ∧
      (r.isSome ↔ bs.length ≤ maxLoaded) ∧
      ∀ c, r = some c → c.fp = atEnd ∧ c.bs ++ mime.decodeFinal c.ctx = bs ∧ bs.length ≤ c.len ∧
        InBuffer c.writes := by
  obtain ⟨ls, htext, hls, hbs⟩ := hmime.lines bs
  have hfinal := hmime.decodeFinal_eq htext hls
  obtain ⟨r, hr, hiff, hsome⟩ := returns_bufferRound_lines hmime hls mime.decodeInit [] []
    roomy_start inBuffer_nil
  rw [hfinal, List.append_nil] at hbs
  rw [List.nil_append, hbs] at hiff hsome
  rw [htext]
  refine ⟨r, hr, hiff, fun c hc => ?_⟩
  obtain ⟨hfp, hctx, hout, hroom, hwrites⟩ := hsome c hc
  rw [hout] at hroom
  rw [hctx, hfinal, hout, List.append_nil]
  exact ⟨hfp, rfl, Nat.le_of_add_right_le hroom.room, hwrites⟩

theorem returns_mimeGetBuffer {bs : ByteString} (hle : bs.length ≤ maxLoaded) :
    ∃ writes, Returns (mimeGetBuffer mime ⟨text mime bs, false⟩) ((bs, atEnd), writes) ∧
      InBuffer writes := by
  obtain ⟨r, hr, hiff, hsome⟩ := returns_bufferRound_text hmime bs
  obtain ⟨c, rfl⟩ := Option.isSome_iff_exists.1 (hiff.2 hle)
  obtain ⟨hfp, hbs, hlen, hwrites⟩ := hsome c rfl
  have hget : Returns (mimeGetBuffer mime ⟨text mime bs, false⟩)
      ((c.bs ++ mime.decodeFinal c.ctx, c.fp),
        c.writes ++ [((c.bs ++ mime.decodeFinal c.ctx).length, c.len)]) :=
    hr.bind (returns_some _)
  rw [hfp, hbs] at hget
  exact ⟨_, hget, hwrites.concat hlen⟩

/-- A longer text has no result. -/
theorem le_of_mimeGetBuffer_eq {bs : ByteString} {n : Nat}
    {r : (ByteString × File) × List (Nat × Nat)}
    (h : mimeGetBuffer mime ⟨text mime bs, false⟩ n = some r) : bs.length ≤ maxLoaded := by
  obtain ⟨o, ho, hiff, -⟩ := returns_bufferRound_text hmime bs
  apply hiff.1
  obtain ⟨o', hloop, hr⟩ := Option.bind_eq_some_iff.1 h
  obtain ⟨c, rfl, -⟩ := Option.map_eq_some_iff.1 hr
  rw [ho.unique (returns_loop_of_eq hloop)]
  rfl

end Reading

section Files

/-- The file of `bs` is loaded as `bs`, and no write leaves the buffer. -/
def LoadsBack (mime : Mime E D) (disk : Disk) (fname : CString) (bs : ByteString) : Prop :=
  ∃ writes, Returns (fmtLoadByteString mime (fmtSaveByteString mime disk fname bs).2 fname)
    ((1, bs), writes) ∧ InBuffer writes

/-- The same for an encrypted file and its password. -/
def CryptLoadsBack (mime : Mime E D) (lib : Openssl Cipher Mac) (salt : ByteString) (disk : Disk)
    (fname : CString) (bs : ByteString) (password : CString) : Prop :=
  ∃ writes, Returns (fmtCryptLoadBuffer mime lib
    (fmtCryptSave mime lib salt disk fname bs password).2 fname password) ((1, bs), writes) ∧
      InBuffer writes

/-- What OpenSSL documents of a cipher with padded blocks. -/
structure Padded (lib : Openssl Cipher Mac) (block : Nat) : Prop where
  length_encrypt (key iv m : ByteString) :
    let e := (lib.encryptUpdate (lib.encryptInit key iv).2 m).2
    (e.2 ++ (lib.encryptFinal e.1).2).length = (m.length / block + 1) * block

variable {mime : Mime E D} {lib : Openssl Cipher Mac} {salt : ByteString} {disk : Disk}
  {fname : CString}

theorem loadsBack_iff_le (hmime : Streaming mime) (hw : disk.writable fname = true) (bs : ByteString) :
    LoadsBack mime disk fname bs ↔ bs.length ≤ maxLoaded := by
  have hfile : (fmtSaveByteString mime disk fname bs).2.files fname = some (text mime bs) := by
    rw [fmtSaveByteString, if_pos hw, mimePut_eq hmime.toLossless]
    exact Function.update_self ..
  unfold LoadsBack fmtLoadByteString
  simp only [hfile]
  constructor
  · rintro ⟨writes, ⟨n, hn⟩, -⟩
    obtain ⟨r, hget, -⟩ := Option.map_eq_some_iff.1 (hn n le_rfl)
    exact le_of_mimeGetBuffer_eq hmime hget
  · intro hle
    obtain ⟨writes, hget, hwrites⟩ := returns_mimeGetBuffer hmime hle
    exact ⟨writes, hget.map _, hwrites⟩

theorem length_sealed (hlib : Inverse lib) {block : Nat} (hpad : Padded lib block)
    (hsalt : salt.length = lib.ivLength) (secret m : ByteString) : (sealed lib salt secret m).length =
      lib.ivLength + (m.length / block + 1) * block + lib.mdLength := by
  have hmac : (hmac lib secret (salt ++ encryption lib salt secret m)).length = lib.mdLength :=
    hlib.length_hmacFinal _
  have henc : (encryption lib salt secret m).length = (m.length / block + 1) * block :=
    hpad.length_encrypt _ salt m
  rw [sealed, List.length_append, List.length_append, hmac, henc, hsalt]

theorem cryptLoadsBack_iff_le (hmime : Streaming mime) (hlib : Inverse lib) (h0 : 0 < lib.ivLength)
    (hlt : lib.ivLength < lib.mdLength) (hsalt : salt.length = lib.ivLength)
    (hw : disk.writable fname = true) (bs : ByteString) (password : CString) :
    CryptLoadsBack mime lib salt disk fname bs password ↔
      (sealed lib salt (byteStringSet password) bs).length ≤ maxLoaded := by
  obtain ⟨W, hW⟩ : ∃ W, sealed lib salt (byteStringSet password) bs = W := ⟨_, rfl⟩
  have hfile : (fmtCryptSave mime lib salt disk fname bs password).2.files fname =
      some (bytes "\nW:\n" ++ text mime W) := by
    rw [fmtCryptSave, if_pos hw, cryptoEncrypt_eq hlib _ hsalt, Option.map_some,
      mimePut_eq hmime.toLossless, hW]
    exact Function.update_self ..
  have hopen : cryptoDecrypt lib W (byteStringSet password) = some bs := by
    rw [← hW]
    exact cryptoDecrypt_sealed hlib (byteStringSet password) h0 hlt hsalt bs
  have hadvance := returns_advanceTo_firstLine (by decide) (firstLine_W (text mime W))
  unfold CryptLoadsBack fmtCryptLoadBuffer
  simp only [hfile, hW]
  constructor
  · rintro ⟨writes, hrun, -⟩
    obtain ⟨n, hn⟩ := hadvance.bind_iff.1 hrun
    obtain ⟨r, hget, -⟩ := Option.map_eq_some_iff.1 (hn n le_rfl)
    exact le_of_mimeGetBuffer_eq hmime hget
  · intro hle
    obtain ⟨writes, hget, hwrites⟩ := returns_mimeGetBuffer hmime hle
    have hload := hget.map fun W : (ByteString × File) × List (Nat × Nat) =>
      match cryptoDecrypt lib W.1.1 (byteStringSet password) with
      | none => (((0 : Int), []), W.2)
      | some bs => ((1, bs), W.2)
    simp only [hopen] at hload
    exact ⟨writes, hadvance.bind hload, hwrites⟩

/-- Byte strings are loaded back exactly as long as the buffer can be doubled. -/
theorem loadsBack_iff (hmime : Streaming mime) (hlib : Inverse lib) {block : Nat}
    (hpad : Padded lib block) (h0 : 0 < lib.ivLength) (hlt : lib.ivLength < lib.mdLength)
    (hsalt : salt.length = lib.ivLength) (hw : disk.writable fname = true) (bs : ByteString) :
    (LoadsBack mime disk fname bs ↔ bs.length ≤ maxLoaded) ∧
      ∀ password, CryptLoadsBack mime lib salt disk fname bs password ↔
        lib.ivLength + (bs.length / block + 1) * block + lib.mdLength ≤ maxLoaded := by
  refine ⟨loadsBack_iff_le hmime hw bs, fun password => ?_⟩
  rw [cryptLoadsBack_iff_le hmime hlib h0 hlt hsalt hw, length_sealed hlib hpad hsalt]

end Files

section Sample

def padding (m : ByteString) : ByteString :=
  List.replicate (8 - m.length % 8) (UInt8.ofNat (8 - m.length % 8))

/-- `sampleLib` with the padding of blocks. -/
def paddedLib : Openssl (ByteString × ByteString × ByteString) (ByteString × ByteString) :=
  { sampleLib with
    encryptFinal := fun s =>
      (1, if s = (sampleKey, sampleIv, bytes "hi") then sampleBlock else s.2.2 ++ padding s.2.2)
    decryptFinal := fun s =>
      (1, if s = (sampleKey, sampleIv, sampleBlock) then bytes "hi"
        else s.2.2.take (s.2.2.length - (s.2.2.getLastD 0).toNat)) }

theorem append_padding (m : ByteString) :
    (m ++ padding m).length = (m.length / 8 + 1) * 8 ∧ m ++ padding m ≠ sampleBlock ∧
      (m ++ padding m).take ((m ++ padding m).length - ((m ++ padding m).getLastD 0).toNat) = m := by
  obtain ⟨k, hk, hk8⟩ : ∃ k, 8 - m.length % 8 = k + 1 ∧ k < 8 := ⟨7 - m.length % 8, by omega, by omega⟩
  have hlast : (m ++ padding m).getLastD 0 = UInt8.ofNat (k + 1) := by
    rw [padding, hk, List.replicate_succ', ← List.append_assoc, List.getLastD_concat]
  have hnat : (UInt8.ofNat (k + 1)).toNat = k + 1 := by
    rw [UInt8.toNat_ofNat']
    omega
  have hlen : (m ++ padding m).length = m.length + (k + 1) := by
    rw [List.length_append, padding, hk, List.length_replicate]
  refine ⟨by omega, fun h => ?_, ?_⟩
  · rw [h] at hlast
    have hblock : (sampleBlock.getLastD 0).toNat = 65 := rfl
    rw [hlast, hnat] at hblock
    omega
  · rw [hlast, hnat, hlen, Nat.add_sub_cancel, List.take_left]

theorem inverse_paddedLib : Inverse paddedLib where
  decryptInit_eq key iv := rfl
  decryptUpdate_eq s input := rfl
  incremental := reliable_sampleLib.incremental
  absorbing := reliable_sampleLib.absorbing
  length_hmacFinal := reliable_sampleLib.length_hmacFinal
  encryptInit_eq key iv := rfl
  encryptUpdate_eq s input := rfl
  encryptFinal_eq s := rfl
  encryptIncremental := reliable_sampleLib.incremental
  decrypt_encrypt key iv m := by
    obtain ⟨-, hne, htake⟩ := append_padding m
    refine ⟨rfl, ?_⟩
    simp only [paddedLib, sampleLib, List.nil_append, Prod.mk.injEq]
    by_cases h : key = sampleKey ∧ iv = sampleIv ∧ m = bytes "hi"
    · obtain ⟨rfl, rfl, rfl⟩ := h
      rfl
    · rw [if_neg h, if_neg fun h' => hne h'.2.2, htake]

theorem padded_paddedLib : Padded paddedLib 8 where
  length_encrypt key iv m := by
    simp only [paddedLib, sampleLib, List.nil_append]
    split_ifs with h
    · obtain ⟨-, -, rfl⟩ := Prod.mk.inj h
      rfl
    · exact (append_padding m).1

def savedFile : CString := charstarFromByteString (bytes "saved")

def emptyDisk : Disk := ⟨fun _ => none, fun _ => true, []⟩

theorem loadsBack_sample : (LoadsBack base64 emptyDisk savedFile (bytes "hi") ↔
      (bytes "hi").length ≤ maxLoaded) ∧
    ∀ password, CryptLoadsBack base64 paddedLib sampleIv emptyDisk savedFile (bytes "hi") password ↔
      8 + ((bytes "hi").length / 8 + 1) * 8 + 20 ≤ maxLoaded :=
  loadsBack_iff streaming_base64 inverse_paddedLib padded_paddedLib (by decide) (by decide) rfl rfl
    (bytes "hi")

/-- A byte string of 2 ^ 30 bytes is too long. -/
theorem not_loadsBack : ¬∀ bs : ByteString, bs.length < 2 ^ 31 →
    LoadsBack base64 emptyDisk savedFile bs ∧
      ∀ password, CryptLoadsBack base64 paddedLib sampleIv emptyDisk savedFile bs password := by
  intro h
  obtain ⟨bs, hbs⟩ : ∃ bs : ByteString, bs.length = 2 ^ 30 :=
    ⟨List.replicate (2 ^ 30) 0, List.length_replicate⟩
  have hle := (loadsBack_iff_le streaming_base64 rfl bs).1 (h bs (by omega)).1
  rw [hbs, maxLoaded, cryptBufSize] at hle
  omega

end Sample

end IdBasedEncryption.SavedStrings
