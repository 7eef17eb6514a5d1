import IdBasedEncryption.Crypto
import IdBasedEncryption.Stdio

namespace IdBasedEncryption.Format

open ByteStrings FuelLoops Stdio Crypto

def cryptBufSize : Nat := 100

/-- What the format uses of base64 in OpenSSL, with the types of the contexts for
encoding and decoding. -/
structure Mime (E D : Type) where
  encodeInit : E
  encodeUpdate : E → ByteString → E × ByteString
  encodeFinal : E → ByteString
  decodeInit : D
  decodeUpdate : D → ByteString → D × ByteString
  decodeFinal : D → ByteString

/-- The crypto layer as the format calls it. The return codes of updates are not
looked at. The end of a decryption is given what the last update has put out, as
this is written once more when the end fails. -/
structure CryptoStream (C : Type) where
  encryptInit : ByteString → C
  encryptUpdate : C → ByteString → C × ByteString
  encryptFinal : C → ByteString
  decryptInit : ByteString → C
  decryptUpdate : C → ByteString → C × ByteString
  decryptFinal : C → ByteString → Int × ByteString

/-- The buffers of `FMT_decrypt_stream` before anything is written to them. -/
structure Stack where
  s : ByteString
  input : ByteString

variable {E D C : Type} (mime : Mime E D) (stream : CryptoStream C)

section Read

def advanceToRound (s : ByteString) (c : ByteString × File) : File ⊕ (ByteString × File) :=
  let r := fgets c.1 cryptBufSize c.2
  if r.2.eof then .inl r.2
  else if strncmp s r.1 s.length then .inl r.2
  else .inr r

def advanceTo (s : ByteString) (fp : File) : Nat → Option File :=
  loop (advanceToRound s) ([], fp)

structure MimeGet (D : Type) where
  line : ByteString
  fp : File
  ctx : D
  bs : ByteString

/-- A line of at most two characters is blank. -/
def mimeGetRound (c : MimeGet D) : MimeGet D ⊕ MimeGet D :=
  let r := fgets c.line cryptBufSize c.fp
  let c := { c with line := r.1, fp := r.2 }
  if r.2.eof then .inl c
  else if strlen r.1 ≤ 2 then .inl c
  else
    let d := mime.decodeUpdate c.ctx (r.1.take (strlen r.1))
    .inr { c with ctx := d.1, bs := c.bs ++ d.2 }

def mimeGet (fp : File) (fuel : Nat) : Option (ByteString × File) :=
  (loop (mimeGetRound mime) ⟨[], fp, mime.decodeInit, []⟩ fuel).bind fun c =>
    some (c.bs ++ mime.decodeFinal c.ctx, c.fp)

/-- The length goes into a `char`. -/
def slen (id : CString) : Int := ((id.val.length : Int) + 2).bmod 256

def idMatches (id : CString) (s : ByteString) : Bool :=
  s.getD id.val.length 0 = newline && strncmp s id.val id.val.length

/-- Without a result the ID was not found. -/
def findIdRound (id : CString) (c : ByteString × File) (fuel : Nat) :
    Option (Option File ⊕ (ByteString × File)) :=
  (advanceTo (bytes "ID:") c.2 fuel).bind fun fp =>
    if fp.eof then some (.inl none)
    else
      let r := fgets c.1 (slen id) fp
      some (if idMatches id r.1 then .inl (some r.2) else .inr r)

def findId (id : CString) (s : ByteString) (fp : File) : Nat → Option (Option File) :=
  nest (findIdRound id) (s, fp)

end Read

section Decrypt

structure Decipher (D C : Type) where
  input : ByteString
  fp : File
  mime : D
  ctx : C
  out : ByteString

/-- Nothing looks for the end of the file here. -/
def decryptRound (c : Decipher D C) : Decipher D C ⊕ Decipher D C :=
  let r := fgets c.input cryptBufSize c.fp
  let c := { c with input := r.1, fp := r.2 }
  let inl := strlen r.1
  if inl < 2 then .inl c
  else
    let d := mime.decodeUpdate c.mime (r.1.take inl)
    let o := stream.decryptUpdate c.ctx d.2
    .inr { c with mime := d.1, ctx := o.1, out := c.out ++ o.2 }

def decryptFinish (c : Decipher D C) : ByteString × Int :=
  let o := stream.decryptUpdate c.ctx (mime.decodeFinal c.mime)
  let r := stream.decryptFinal o.1 o.2
  if 1 ≠ r.1 then (c.out ++ o.2 ++ bytes "crypto_decrypt_final() failed!\n" ++ r.2, 0)
  else (c.out ++ o.2 ++ r.2, 1)

/-- The part behind the V section. -/
def decryptBody (K input : ByteString) (fp : File) (fuel : Nat) : Option (ByteString × Int) :=
  (advanceTo (bytes "W:") fp fuel).bind fun fp =>
    (loop (decryptRound mime stream) ⟨input, fp, mime.decodeInit, stream.decryptInit K, []⟩
      fuel).bind fun c => some (decryptFinish mime stream c)

/-- What is written to the output and the result. `reveal` answers for
`IBE_reveal_key` on `U` and `V`. -/
def fmtDecryptStream (reveal : ByteString → ByteString → Int × ByteString) (stack : Stack)
    (id : CString) (fp : File) (fuel : Nat) : Option (ByteString × Int) :=
  (advanceTo (bytes "-----BEGIN IBE-----") fp fuel).bind fun fp =>
  (advanceTo (bytes "U:") fp fuel).bind fun fp =>
  (mimeGet mime fp fuel).bind fun U =>
  (findId id stack.s U.2 fuel).bind fun found =>
    match found with
    | none => some ([], 0)
    | some fp =>
        (advanceTo (bytes "V:") fp fuel).bind fun fp =>
        (mimeGet mime fp fuel).bind fun V =>
          let k := reveal U.1 V.1
          if k.1 ≠ 1 then some (bytes "WARNING: KMAC MISMATCH. INVALID CIPHERTEXT!\n", 0)
          else decryptBody mime stream k.2 stack.input V.2 fuel

end Decrypt

section Encrypt

/-- At most `n` pieces of a byte string, one after the other. -/
def mimePutLoop : Nat → E → ByteString → E × ByteString
  | 0, ctx, _ => (ctx, [])
  | n + 1, ctx, bs =>
      let r := mime.encodeUpdate ctx (bs.take cryptBufSize)
      let rs := mimePutLoop n r.1 (bs.drop cryptBufSize)
      (rs.1, r.2 ++ rs.2)

def mimePut (bs : ByteString) : ByteString :=
  let r := mimePutLoop mime ((bs.length + (cryptBufSize - 1)) / cryptBufSize) mime.encodeInit bs
  r.2 ++ mime.encodeFinal r.1

structure Encipher (E C : Type) where
  rest : ByteString
  mime : E
  ctx : C
  out : ByteString

/-- The end of the input shows when there is less to read than was asked for. -/
def encryptRound (c : Encipher E C) : Encipher E C ⊕ Encipher E C :=
  let o := stream.encryptUpdate c.ctx (c.rest.take cryptBufSize)
  let d := mime.encodeUpdate c.mime o.2
  let t := ⟨c.rest.drop cryptBufSize, d.1, o.1, c.out ++ d.2⟩
  if c.rest.length < cryptBufSize then .inl t else .inr t

/-- What goes behind the last round. -/
def encryptFinish (c : Encipher E C) : ByteString :=
  let d := mime.encodeUpdate c.mime (stream.encryptFinal c.ctx)
  c.out ++ d.2 ++ mime.encodeFinal d.1

/-- The ID section and the V section of a recipient. -/
def recipient (r : CString × ByteString) : ByteString :=
  bytes "\nID:\n" ++ (r.1.val ++ (bytes "\n" ++ (bytes "\nV:\n" ++ (mimePut mime r.2 ++ bytes "\n"))))

/-- The file that is written. `hide` answers for `IBE_hide_key_array` with `U`
and the array `V`, and `K` has been drawn by `crypto_generate_key`. -/
def fmtEncryptStreamArray (hide : List CString → ByteString → ByteString × List ByteString)
    (K : ByteString) (ids : List CString) (input : ByteString) (fuel : Nat) : Option ByteString :=
  let h := hide ids K
  (loop (encryptRound mime stream) ⟨input, mime.encodeInit, stream.encryptInit K, []⟩ fuel).bind
    fun c => some (bytes "\n-----BEGIN IBE-----\n" ++ (bytes "\nU:\n" ++ (mimePut mime h.1 ++
      (bytes "\n" ++ ((ids.zip h.2).flatMap (recipient mime) ++ (bytes "\nW:\n" ++
        (encryptFinish mime stream c ++ bytes "\n-----END IBE-----\n")))))))

end Encrypt

section Files

variable {Cipher Mac : Type} (lib : Openssl Cipher Mac)

/-- The files by name, the names that can be opened for writing, and those that
have been. -/
structure Disk where
  files : CString → Option ByteString
  writable : CString → Bool
  written : List CString

/-- Without an encryption the file stays as `fopen` has left it. -/
def fmtCryptSave (salt : ByteString) (disk : Disk) (fname : CString) (bs : ByteString)
    (password : CString) : Int × Disk :=
  if disk.writable fname then
    let contents := (cryptoEncrypt lib salt bs (byteStringSet password)).map fun W =>
      bytes "\nW:\n" ++ mimePut mime W
    (1, { disk with
      files := Function.update disk.files fname (some (contents.getD []))
      written := fname :: disk.written })
  else (0, disk)

/-- The result comes with the byte string that was loaded. -/
def fmtCryptLoad (disk : Disk) (fname : CString) (password : CString) (fuel : Nat) :
    Option (Int × ByteString) :=
  match disk.files fname with
  | none => some (0, [])
  | some bs =>
      (advanceTo (bytes "W:") ⟨bs, false⟩ fuel).bind fun fp =>
      (mimeGet mime fp fuel).bind fun W =>
        match cryptoDecrypt lib W.1 (byteStringSet password) with
        | none => some (0, [])
        | some bs => some (1, bs)

end Files

end IdBasedEncryption.Format
