import IdBasedEncryption.AuthenticatedStreams
import IdBasedEncryption.Base64
import IdBasedEncryption.StreamTermination
import IdBasedEncryption.WholeLines

namespace IdBasedEncryption.CryptFiles

open ByteStrings IncrementalStreams Crypto AuthenticatedStreams DecryptionStreams FuelLoops Stdio
open WholeLines Format StreamTermination

variable {E D C : Type} {mime : Mime E D} {stream : CryptoStream C}

section Texts

/-- What base64 makes of a byte string as a whole. -/
def text (mime : Mime E D) (bs : ByteString) : ByteString :=
  let e := mime.encodeUpdate mime.encodeInit bs
  e.2 ++ mime.encodeFinal e.1

structure EncodedLine (l : ByteString) : Prop where
  symbols : ∃ t, l = t ++ [newline] ∧ 4 ≤ t.length ∧ t.length ≤ 64 ∧ ∀ c ∈ t, Base64.IsSymbol c

/-- What OpenSSL documents of base64: encoding does not see where its input is cut,
and the lines it writes are decoded one after the other. -/
structure Lossless (mime : Mime E D) : Prop where
  incremental : Incremental mime.encodeUpdate
  lines (bs : ByteString) : ∃ ls : List ByteString, text mime bs = ls.flatten ∧
    (∀ l ∈ ls, EncodedLine l) ∧
    (run mime.decodeUpdate mime.decodeInit ls).2.flatten ++
      mime.decodeFinal (run mime.decodeUpdate mime.decodeInit ls).1 = bs

/-- Base64 with the contexts that OpenSSL uses for whole lines. -/
def base64 : Mime Base64.Pending Unit :=
  ⟨⟨[], Base64.nil_lt⟩, Base64.encodeUpdate, Base64.encodeFinal, (),
    fun _ l => ((), Base64.decodeUpdate l), fun _ => []⟩

theorem lossless_base64 : Lossless base64 where
  incremental := Base64.incremental_encodeUpdate
  lines bs := by
    have hrun (ls : List ByteString) :
        (run base64.decodeUpdate base64.decodeInit ls).2 = ls.map Base64.decodeUpdate := by
      induction ls with
      | nil => rfl
      | cons l ls ih => exact congrArg _ ih
    refine ⟨Base64.lines bs, (Base64.flatten_lines bs).symm, fun l hl => ⟨Base64.mem_lines hl⟩, ?_⟩
    rw [hrun, Base64.decode_lines]
    exact List.append_nil bs

theorem mimePutLoop_eq (h : Lossless mime) {n : Nat} {bs : ByteString}
    (hn : bs.length ≤ n * cryptBufSize) (ctx : E) :
    mimePutLoop mime n ctx bs = mime.encodeUpdate ctx bs := by
  induction n generalizing ctx bs with
  | zero =>
      obtain rfl : bs = [] := List.length_eq_zero_iff.1 (by omega)
      exact (h.incremental.nil ctx).symm
  | succ n ih =>
      have hlen : (bs.drop cryptBufSize).length ≤ n * cryptBufSize := by
        rw [List.length_drop]
        rw [Nat.succ_mul] at hn
        omega
      have happ := h.incremental.append ctx (bs.take cryptBufSize) (bs.drop cryptBufSize)
      rw [List.take_append_drop] at happ
      rw [mimePutLoop, ih hlen, happ]

/-- The pieces in which a byte string is encoded do not matter. -/
theorem mimePut_eq (h : Lossless mime) (bs : ByteString) : mimePut mime bs = text mime bs := by
  have hlen : bs.length ≤ (bs.length + (cryptBufSize - 1)) / cryptBufSize * cryptBufSize := by
    rw [cryptBufSize]
    omega
  rw [mimePut, mimePutLoop_eq h hlen]
  rfl

end Texts

section Lines

variable {l : ByteString}

theorem take_strlen_stored (h : 0 ∉ l) (buf : ByteString) :
    (stored l buf).take (strlen (stored l buf)) = l := by
  rw [strlen_stored, strlen_of_notMem h, stored, List.take_left]

namespace EncodedLine

theorem isLine (h : EncodedLine l) : IsLine 99 l := by
  obtain ⟨t, rfl, -, h64, ht⟩ := h.symbols
  exact isLine_append_newline (fun hn => (ht _ hn).ne.1 rfl) (by omega)

theorem zero_notMem (h : EncodedLine l) : 0 ∉ l := by
  obtain ⟨t, rfl, -, -, ht⟩ := h.symbols
  intro h0
  obtain h0 | h0 := List.mem_append.1 h0
  · exact (ht _ h0).ne.2.1 rfl
  · exact absurd h0 (by decide)

theorem strlen_gt (h : EncodedLine l) : 2 < strlen l := by
  rw [strlen_of_notMem h.zero_notMem]
  obtain ⟨t, rfl, h4, -, -⟩ := h.symbols
  rw [List.length_append]
  omega

theorem length_le (h : EncodedLine l) : l.length ≤ 65 := by
  obtain ⟨t, rfl, -, h64, -⟩ := h.symbols
  rw [List.length_append]
  exact Nat.succ_le_succ h64

/-- No marker with a colon among its first characters begins such a line. -/
theorem not_marker (h : EncodedLine l) {s : ByteString} (hs : 58 ∈ s) : ¬s <+: l := by
  intro hp
  obtain ⟨t, rfl, -, -, ht⟩ := h.symbols
  obtain h58 | h58 := List.mem_append.1 (hp.subset hs)
  · exact (ht _ h58).ne.2.2.1 rfl
  · exact absurd h58 (by decide)

end EncodedLine

theorem isLine_newline : IsLine 99 [newline] :=
  isLine_append_newline (t := []) List.not_mem_nil (by norm_num)

theorem skipped_text (h : Lossless mime) {s : ByteString} (hs : 58 ∈ s) (bs : ByteString) :
    Skipped 99 (s <+: ·) (text mime bs) := by
  obtain ⟨ls, htext, hls, -⟩ := h.lines bs
  rw [htext]
  exact Skipped.flatten fun l hl => ⟨(hls l hl).isLine, (hls l hl).not_marker hs⟩

end Lines

section Get

theorem mimeGetRound_line {l : ByteString} (h : EncodedLine l) (line rest out : ByteString)
    (ctx : D) : mimeGetRound mime ⟨line, ⟨l ++ rest, false⟩, ctx, out⟩ =
      .inr ⟨stored l line, ⟨rest, false⟩, (mime.decodeUpdate ctx l).1,
        out ++ (mime.decodeUpdate ctx l).2⟩ := by
  have hread : fgets line cryptBufSize ⟨l ++ rest, false⟩ = (stored l line, ⟨rest, false⟩) :=
    fgets_line h.isLine line rest false
  have hlong : ¬strlen (stored l line) ≤ 2 := by
    rw [strlen_stored]
    exact not_le.2 h.strlen_gt
  rw [mimeGetRound, hread]
  simp only [Bool.false_eq_true, if_false, hlong, take_strlen_stored h.zero_notMem]

/-- The lines in front of `rest` are decoded. What happens then does not depend on
the buffer. -/
theorem returns_mimeGet_lines {ls : List ByteString} (hls : ∀ l ∈ ls, EncodedLine l)
    (rest : ByteString) {p : MimeGet D → Prop} (ctx : D) (out : ByteString)
    (h : ∀ line, ∃ c, Returns (loop (mimeGetRound mime) ⟨line, ⟨rest, false⟩,
      (run mime.decodeUpdate ctx ls).1, out ++ (run mime.decodeUpdate ctx ls).2.flatten⟩) c ∧ p c)
    (line : ByteString) :
    ∃ c, Returns (loop (mimeGetRound mime) ⟨line, ⟨ls.flatten ++ rest, false⟩, ctx, out⟩) c ∧ p c := by
  induction ls generalizing ctx out line with
  | nil => simpa [run] using h line
  | cons l ls ih =>
      obtain ⟨hl, hls⟩ := List.forall_mem_cons.1 hls
      obtain ⟨c, hc, hp⟩ := ih hls (mime.decodeUpdate ctx l).1 (out ++ (mime.decodeUpdate ctx l).2)
        (by simpa [run, List.append_assoc] using h) (stored l line)
      refine ⟨c, returns_loop_inr ?_ hc, hp⟩
      rw [List.flatten_cons, List.append_assoc]
      exact mimeGetRound_line hl line _ out ctx

theorem mimeGetRound_blank (line rest out : ByteString) (ctx : D) :
    mimeGetRound mime ⟨line, ⟨newline :: rest, false⟩, ctx, out⟩ =
      .inl ⟨stored [newline] line, ⟨rest, false⟩, ctx, out⟩ := by
  have hread : fgets line cryptBufSize ⟨[newline] ++ rest, false⟩ =
      (stored [newline] line, ⟨rest, false⟩) := fgets_line isLine_newline line rest false
  have hshort : strlen (stored [newline] line) ≤ 2 := by
    rw [strlen_stored]
    decide
  rw [List.singleton_append] at hread
  rw [mimeGetRound, hread]
  simp only [Bool.false_eq_true, if_false, hshort, if_true]

theorem mimeGetRound_end (line out : ByteString) (ctx : D) :
    mimeGetRound mime ⟨line, ⟨[], false⟩, ctx, out⟩ = .inl ⟨line, atEnd, ctx, out⟩ := rfl

/-- A text that is followed by a blank line is read back. -/
theorem returns_mimeGet_text (h : Lossless mime) (bs rest : ByteString) :
    Returns (mimeGet mime ⟨text mime bs ++ newline :: rest, false⟩) (bs, ⟨rest, false⟩) := by
  obtain ⟨ls, htext, hls, hbs⟩ := h.lines bs
  obtain ⟨c, hc, hfp, hout⟩ := returns_mimeGet_lines hls (newline :: rest)
    (p := fun c => c.fp = ⟨rest, false⟩ ∧ c.bs ++ mime.decodeFinal c.ctx = bs) mime.decodeInit []
    (fun line => ⟨_, returns_loop_inl (mimeGetRound_blank line rest _ _), rfl, hbs⟩) []
  have hget : Returns (mimeGet mime ⟨ls.flatten ++ newline :: rest, false⟩)
      (c.bs ++ mime.decodeFinal c.ctx, c.fp) := hc.bind (returns_some _)
  rw [hfp, hout, ← htext] at hget
  exact hget

theorem returns_mimeGet_end (h : Lossless mime) (bs : ByteString) :
    Returns (mimeGet mime ⟨text mime bs, false⟩) (bs, atEnd) := by
  obtain ⟨ls, htext, hls, hbs⟩ := h.lines bs
  obtain ⟨c, hc, hfp, hout⟩ := returns_mimeGet_lines hls []
    (p := fun c => c.fp = atEnd ∧ c.bs ++ mime.decodeFinal c.ctx = bs) mime.decodeInit []
    (fun line => ⟨_, returns_loop_inl (mimeGetRound_end line _ _), rfl, hbs⟩) []
  have hget : Returns (mimeGet mime ⟨ls.flatten ++ [], false⟩)
      (c.bs ++ mime.decodeFinal c.ctx, c.fp) := hc.bind (returns_some _)
  rw [List.append_nil, hfp, hout, ← htext] at hget
  exact hget

end Get

section Advance

variable {s bs rest : ByteString}

theorem returns_advanceTo_firstLine (hs : 0 ∉ s) (h : FirstLine 99 (s <+: ·) bs rest) :
    Returns (advanceTo s ⟨bs, false⟩) ⟨rest, false⟩ := by
  obtain ⟨g, hrun, rfl⟩ := (scans_advanceTo hs).returns_of_firstLine (s := ([], ⟨bs, false⟩)) h rfl
  exact hrun

/-- A marker on a line of its own, behind a blank line. -/
theorem firstLine_marker {m : ByteString} (hs : ¬s <+: [newline]) (hm : newline ∉ m)
    (hlen : m.length < 99) (hp : s <+: m ++ [newline]) (rest : ByteString) :
    FirstLine 99 (s <+: ·) ([newline] ++ (m ++ [newline]) ++ rest) rest := by
  rw [List.append_assoc]
  exact .next isLine_newline hs (.here (isLine_append_newline hm hlen) hp)

theorem bytes_W : bytes "\nW:\n" = [newline] ++ (bytes "W:" ++ [newline]) := by decide

theorem firstLine_W (rest : ByteString) :
    FirstLine 99 (bytes "W:" <+: ·) (bytes "\nW:\n" ++ rest) rest := by
  rw [bytes_W]
  exact firstLine_marker (by decide) (by decide) (by decide)
    (List.prefix_append ..) rest

end Advance

section Streams

/-- The ciphertext of a message that comes in chunks. -/
def ciphertext (stream : CryptoStream C) (K : ByteString) (chunks : List ByteString) : ByteString :=
  let e := run stream.encryptUpdate (stream.encryptInit K) chunks
  e.2.flatten ++ stream.encryptFinal e.1

/-- However `c` is cut, it is decrypted to `m`. -/
def Opens (stream : CryptoStream C) (K c m : ByteString) : Prop :=
  ∀ cuts : List ByteString, cuts.flatten = c → ∀ o,
    let d := run stream.decryptUpdate (stream.decryptInit K) cuts
    (stream.decryptFinal d.1 o).1 = 1 ∧ d.2.flatten ++ (stream.decryptFinal d.1 o).2 = m

/-- Decryption undoes encryption. -/
def Recovers (stream : CryptoStream C) : Prop :=
  ∀ K chunks, chunks ≠ [] → Opens stream K (ciphertext stream K chunks) chunks.flatten

variable {K : ByteString}

theorem returns_encryptLoop (stream : CryptoStream C) (hmime : Lossless mime) (input : ByteString) (m : E) (ctx : C)
    (out : ByteString) :
    ∃ chunks : List ByteString, chunks ≠ [] ∧ chunks.flatten = input ∧
      ∃ c, Returns (loop (encryptRound mime stream) ⟨input, m, ctx, out⟩) c ∧
        c.mime = (mime.encodeUpdate m (run stream.encryptUpdate ctx chunks).2.flatten).1 ∧
        c.ctx = (run stream.encryptUpdate ctx chunks).1 ∧
        c.out = out ++ (mime.encodeUpdate m (run stream.encryptUpdate ctx chunks).2.flatten).2 := by
  induction hk : input.length using Nat.strong_induction_on generalizing input m ctx out with
  | _ k ih =>
      by_cases hlt : input.length < cryptBufSize
      · have hround : encryptRound mime stream ⟨input, m, ctx, out⟩ = .inl _ := if_pos hlt
        have htake : input.take cryptBufSize = input := List.take_of_length_le (Nat.le_of_lt hlt)
        refine ⟨[input], by simp, List.flatten_singleton, _, returns_loop_inl hround, ?_⟩
        simp [run, htake]
      · have hround : encryptRound mime stream ⟨input, m, ctx, out⟩ = .inr _ := if_neg hlt
        obtain ⟨chunks, -, hchunks, c, hrun, hm, hctx, hout⟩ :=
          ih _ (by rw [← hk, List.length_drop, cryptBufSize]; rw [cryptBufSize] at hlt; omega)
            (input.drop cryptBufSize)
            (mime.encodeUpdate m (stream.encryptUpdate ctx (input.take cryptBufSize)).2).1
            (stream.encryptUpdate ctx (input.take cryptBufSize)).1
            (out ++ (mime.encodeUpdate m (stream.encryptUpdate ctx (input.take cryptBufSize)).2).2)
            rfl
        refine ⟨input.take cryptBufSize :: chunks, by simp, ?_, c, returns_loop_inr hround hrun, ?_⟩
        · rw [List.flatten_cons, hchunks, List.take_append_drop]
        · simp only [run, List.flatten_cons, hmime.incremental.append]
          exact ⟨hm, hctx, by rw [hout, List.append_assoc]⟩

theorem returns_encrypt (stream : CryptoStream C) (hmime : Lossless mime) (K input : ByteString) :
    ∃ chunks : List ByteString, chunks ≠ [] ∧ chunks.flatten = input ∧
      ∃ c, Returns (loop (encryptRound mime stream) ⟨input, mime.encodeInit, stream.encryptInit K, []⟩)
        c ∧ encryptFinish mime stream c = text mime (ciphertext stream K chunks) := by
  obtain ⟨chunks, hne, hchunks, c, hrun, hm, hctx, hout⟩ :=
    returns_encryptLoop stream hmime input mime.encodeInit (stream.encryptInit K) []
  refine ⟨chunks, hne, hchunks, c, hrun, ?_⟩
  rw [encryptFinish, hout, hm, hctx, text, ciphertext, hmime.incremental.append]
  simp only [List.nil_append, List.append_assoc]

theorem decryptRound_line {l : ByteString} (h : EncodedLine l) (input rest out : ByteString)
    (m : D) (ctx : C) : decryptRound mime stream ⟨input, ⟨l ++ rest, false⟩, m, ctx, out⟩ =
      .inr ⟨stored l input, ⟨rest, false⟩, (mime.decodeUpdate m l).1,
        (stream.decryptUpdate ctx (mime.decodeUpdate m l).2).1,
        out ++ (stream.decryptUpdate ctx (mime.decodeUpdate m l).2).2⟩ := by
  have hread := fgets_cryptBufSize_line h.isLine input rest false
  have hlong : ¬strlen (stored l input) < 2 := by
    rw [strlen_stored]
    have hgt := h.strlen_gt
    omega
  rw [decryptRound, hread]
  simp only [if_neg hlong, take_strlen_stored h.zero_notMem]

theorem decryptRound_blank (input rest out : ByteString) (m : D) (ctx : C) :
    decryptRound mime stream ⟨input, ⟨newline :: rest, false⟩, m, ctx, out⟩ =
      .inl ⟨stored [newline] input, ⟨rest, false⟩, m, ctx, out⟩ := by
  have hread := fgets_cryptBufSize_line isLine_newline input rest false
  rw [List.singleton_append] at hread
  have hshort : strlen (stored [newline] input) < 2 := by
    rw [strlen_stored]
    decide
  exact decryptRound_short (c := ⟨input, ⟨newline :: rest, false⟩, m, ctx, out⟩) hread hshort

/-- The lines are decoded, and what comes out is decrypted at once. -/
theorem returns_decryptLoop (stream : CryptoStream C) {ls : List ByteString} (hls : ∀ l ∈ ls, EncodedLine l)
    (input rest out : ByteString) (m : D) (ctx : C) :
    ∃ c, Returns (loop (decryptRound mime stream)
        ⟨input, ⟨ls.flatten ++ newline :: rest, false⟩, m, ctx, out⟩) c ∧
      c.mime = (run mime.decodeUpdate m ls).1 ∧
      c.ctx = (run stream.decryptUpdate ctx (run mime.decodeUpdate m ls).2).1 ∧
      c.out = out ++ (run stream.decryptUpdate ctx (run mime.decodeUpdate m ls).2).2.flatten := by
  induction ls generalizing input m ctx out with
  | nil => exact ⟨_, returns_loop_inl (decryptRound_blank input rest out m ctx), by simp [run]⟩
  | cons l ls ih =>
      obtain ⟨hl, hls⟩ := List.forall_mem_cons.1 hls
      obtain ⟨c, hc, hm, hctx, hout⟩ := ih hls (stored l input)
        (out ++ (stream.decryptUpdate ctx (mime.decodeUpdate m l).2).2) (mime.decodeUpdate m l).1
        (stream.decryptUpdate ctx (mime.decodeUpdate m l).2).1
      refine ⟨c, returns_loop_inr ?_ hc, hm, hctx, ?_⟩
      · rw [List.flatten_cons, List.append_assoc]
        exact decryptRound_line hl input _ out m ctx
      · rw [hout, List.append_assoc]
        rfl

/-- A text of a ciphertext behind a marker is decrypted up to the blank line. -/
theorem returns_decryptBody (hmime : Lossless mime) {c m : ByteString} (h : Opens stream K c m)
    {bs rest : ByteString}
    (hW : FirstLine 99 (bytes "W:" <+: ·) bs (text mime c ++ newline :: rest)) (input : ByteString) :
    Returns (decryptBody mime stream K input ⟨bs, false⟩) (m, 1) := by
  obtain ⟨ls, htext, hls, hbs⟩ := hmime.lines c
  obtain ⟨d, hrun, hm, hctx, hout⟩ := returns_decryptLoop stream hls input rest []
    mime.decodeInit (stream.decryptInit K)
  rw [← htext] at hrun
  have hadvance := returns_advanceTo_firstLine (by decide) hW
  refine hadvance.bind (hrun.bind ?_)
  -- the end of the text is one more chunk for the cipher
  have hopen := h ((run mime.decodeUpdate mime.decodeInit ls).2 ++ [mime.decodeFinal d.mime])
    (by rw [List.flatten_append, List.flatten_singleton, hm, hbs])
    (stream.decryptUpdate d.ctx (mime.decodeFinal d.mime)).2
  simp only [run_append, run, List.flatten_append, List.flatten_singleton, ← hctx] at hopen
  have hfinish : decryptFinish mime stream d = (m, 1) := by
    rw [decryptFinish]
    simp only [hopen.1, ne_eq, not_true_eq_false, if_false]
    rw [hout, List.nil_append, hopen.2]
  rw [hfinish]
  exact returns_some _

end Streams

section Layer

variable {Cipher Mac : Type} {lib : Openssl Cipher Mac} {salt : ByteString}

/-- A step of a machine that may fail, as the format takes it. -/
def unchecked {S : Type} (f : S → ByteString → Option (S × ByteString)) (c : Option S)
    (bs : ByteString) : Option S × ByteString :=
  match c.bind (f · bs) with
  | none => (none, [])
  | some r => (some r.1, r.2)

/-- The crypto layer with the initialization vector `salt`. -/
def streamOf (lib : Openssl Cipher Mac) (salt : ByteString) :
    CryptoStream (Option (CryptoCtx Cipher Mac)) where
  encryptInit K := cryptoEncryptInit lib salt K
  encryptUpdate := unchecked (cryptoEncryptUpdate lib)
  encryptFinal c := (c.bind (cryptoEncryptFinal lib)).getD []
  decryptInit K := some (cryptoDecryptInit lib K)
  decryptUpdate := unchecked (cryptoDecryptUpdate lib)
  decryptFinal c o :=
    match c.bind (cryptoDecryptFinal lib) with
    | none => (0, o)
    | some out => (1, out)

theorem run_unchecked {S : Type} {f : S → ByteString → Option (S × ByteString)} {s t : S}
    {cs : List ByteString} {o : ByteString} (h : feed f s cs = some (t, o)) :
    (run (unchecked f) (some s) cs).1 = some t ∧ (run (unchecked f) (some s) cs).2.flatten = o := by
  induction cs generalizing s o with
  | nil =>
      obtain ⟨rfl, rfl⟩ := Prod.mk.inj (Option.some.inj h)
      exact ⟨rfl, rfl⟩
  | cons c cs ih =>
      simp only [feed, Option.bind_eq_bind, Option.bind_eq_some_iff, Option.pure_def,
        Option.some.injEq, Prod.mk.injEq] at h
      obtain ⟨⟨u, o₁⟩, hu, ⟨u', o₂⟩, hrun, rfl, rfl⟩ := h
      obtain ⟨hstate, hout⟩ := ih hrun
      have hstep : unchecked f (some s) c = (some u, o₁) := by
        simp only [unchecked, Option.bind_some, hu]
      simp only [run, hstep, List.flatten_cons]
      exact ⟨hstate, congrArg _ hout⟩

/-- The crypto layer on top of OpenSSL is one of those that the format can rely on. -/
theorem recovers_streamOf (hlib : Inverse lib) (h0 : 0 < lib.ivLength)
    (hlt : lib.ivLength < lib.mdLength) (hsalt : salt.length = lib.ivLength) :
    Recovers (streamOf lib salt) := by
  intro K chunks hne cuts hcuts o
  obtain ⟨c, out, last, hrun, hfinal, hsealed⟩ := feed_encrypt hlib K hsalt hne
  obtain ⟨s, hs, hfeed⟩ := Option.bind_eq_some_iff.1 hrun
  obtain ⟨hstate, hout⟩ := run_unchecked hfeed
  have hcipher : ciphertext (streamOf lib salt) K chunks = sealed lib salt K chunks.flatten := by
    rw [ciphertext, show (streamOf lib salt).encryptInit K = some s from hs]
    simp only [streamOf, hstate, hout, Option.bind_some, hfinal, Option.getD_some]
    exact hsealed
  obtain ⟨d, out', last', hrun', hfinal', hm⟩ :=
    feed_sealed hlib K h0 hlt hsalt chunks.flatten (hcuts.trans hcipher)
  obtain ⟨hstate', hout'⟩ := run_unchecked hrun'
  simp only [streamOf, hstate', hout', Option.bind_some, hfinal']
  exact ⟨trivial, hm⟩

end Layer

section Files

variable {Cipher Mac : Type} {lib : Openssl Cipher Mac}

theorem fmtCryptLoad_save (hmime : Lossless mime) (hlib : Inverse lib) (h0 : 0 < lib.ivLength)
    (hlt : lib.ivLength < lib.mdLength) {salt : ByteString} (hsalt : salt.length = lib.ivLength)
    {disk : Disk} {fname : CString} (hw : disk.writable fname = true) (bs : ByteString)
    (password : CString) :
    Returns (fmtCryptLoad mime lib (fmtCryptSave mime lib salt disk fname bs password).2 fname
      password) (1, bs) := by
  have hfile : (fmtCryptSave mime lib salt disk fname bs password).2.files fname =
      some (bytes "\nW:\n" ++ text mime (sealed lib salt (byteStringSet password) bs)) := by
    rw [fmtCryptSave, if_pos hw, cryptoEncrypt_eq hlib _ hsalt, Option.map_some,
      mimePut_eq hmime]
    exact Function.update_self ..
  have hopen := cryptoDecrypt_sealed hlib (byteStringSet password) h0 hlt hsalt bs
  have hW := returns_advanceTo_firstLine (by decide)
    (firstLine_W (text mime (sealed lib salt (byteStringSet password) bs)))
  unfold fmtCryptLoad
  simp only [hfile]
  refine hW.bind ((returns_mimeGet_end hmime _).bind ?_)
  rw [hopen]
  exact returns_some _

end Files

end IdBasedEncryption.CryptFiles
