import IdBasedEncryption.ByteStrings
import IdBasedEncryption.IncrementalStreams

namespace IdBasedEncryption.Crypto

open ByteStrings IncrementalStreams

/-- What the layer takes from OpenSSL, with the types of the contexts for a
cipher and for a MAC. A number that comes with a result is the return code. -/
structure Openssl (Cipher Mac : Type) where
  ivLength : Nat
  mdLength : Nat
  cipherCtxInit : Cipher
  bytesToKey : ByteString → ByteString
  digest : ByteString → ByteString
  encryptInit : ByteString → ByteString → Int × Cipher
  encryptUpdate : Cipher → ByteString → Int × (Cipher × ByteString)
  encryptFinal : Cipher → Int × ByteString
  decryptInit : ByteString → ByteString → Int × Cipher
  decryptUpdate : Cipher → ByteString → Int × (Cipher × ByteString)
  decryptFinal : Cipher → Int × ByteString
  hmacInit : ByteString → Mac
  hmacUpdate : Mac → ByteString → Mac
  hmacFinal : Mac → ByteString

structure CryptoCtx (Cipher Mac : Type) where
  ctx : Cipher
  macctx : Mac
  state : Int
  auxbuf : ByteString
  ivbuf : ByteString
  count : Int

variable {Cipher Mac : Type} (lib : Openssl Cipher Mac)

/-- The key of the cipher and the key of the MAC. -/
def cryptoMakeChkeys (secret : ByteString) : ByteString × ByteString :=
  (lib.bytesToKey (secret ++ bytes "1"), lib.digest (secret ++ bytes "2"))

section Encrypt

/-- The initialization vector `salt` is drawn at random. -/
def cryptoEncryptInit (salt secret : ByteString) : Option (CryptoCtx Cipher Mac) :=
  let keys := cryptoMakeChkeys lib secret
  let r := lib.encryptInit keys.1 salt
  if 1 ≠ r.1 then none else some ⟨r.2, lib.hmacInit keys.2, 0, [], salt, 0⟩

/-- The first call puts the initialization vector in front. -/
def cryptoEncryptUpdate (c : CryptoCtx Cipher Mac) (input : ByteString) :
    Option (CryptoCtx Cipher Mac × ByteString) := do
  let iv := if c.state = 0 then c.ivbuf.take lib.ivLength else []
  let ivbuf := if c.state = 0 then [] else c.ivbuf
  let state := if c.state = 0 then c.state + 1 else c.state
  let r := lib.encryptUpdate c.ctx input
  if 1 ≠ r.1 then none
  else
    let out := iv ++ r.2.2
    return ({ c with ctx := r.2.1, macctx := lib.hmacUpdate c.macctx out, state, ivbuf }, out)

def cryptoEncryptFinal (c : CryptoCtx Cipher Mac) : Option ByteString :=
  let r := lib.encryptFinal c.ctx
  if 1 ≠ r.1 then none
  else
    let mac := lib.hmacFinal (lib.hmacUpdate c.macctx r.2)
    some (r.2 ++ mac.take lib.mdLength)

/-- For messages that fit in memory. -/
def cryptoEncrypt (salt ptext secret : ByteString) : Option ByteString := do
  let c ← cryptoEncryptInit lib salt secret
  let (c, out) ← cryptoEncryptUpdate lib c ptext
  let last ← cryptoEncryptFinal lib c
  return out ++ last

end Encrypt

section Decrypt

/-- The auxiliary buffer holds the key until the initialization vector is there. -/
def cryptoDecryptInit (secret : ByteString) : CryptoCtx Cipher Mac :=
  let keys := cryptoMakeChkeys lib secret
  ⟨lib.cipherCtxInit, lib.hmacInit keys.2, 0, keys.1, List.replicate lib.ivLength 0, 0⟩

/-- Authenticates and decrypts `input`; the output goes behind `out`. -/
def cryptoDecryptAdvance (c : CryptoCtx Cipher Mac) (out input : ByteString) :
    Option (CryptoCtx Cipher Mac × ByteString) :=
  let macctx := lib.hmacUpdate c.macctx input
  let r := lib.decryptUpdate c.ctx input
  if 1 ≠ r.1 then none else some ({ c with ctx := r.2.1, macctx }, out ++ r.2.2)

/-- A full buffer flush. The rest of the input may be decrypted too, up to what
refills the buffer. -/
def fullFlush (c : CryptoCtx Cipher Mac) (vin : ByteString) (flushcount : Int) :
    Option (CryptoCtx Cipher Mac × ByteString) := do
  let (c, out) ← (if c.count ≠ 0 then
      cryptoDecryptAdvance lib c [] (c.auxbuf.take c.count.toNat) else some (c, []))
  let flushcount := flushcount - c.count
  let (c, out) ← (if flushcount > 0 then
      cryptoDecryptAdvance lib c out (vin.take flushcount.toNat) else some (c, out))
  let refill := (vin.drop flushcount.toNat).take lib.mdLength
  return ({ c with auxbuf := memcpy c.auxbuf 0 refill, count := lib.mdLength }, out)

def keepFilling (c : CryptoCtx Cipher Mac) (vin : ByteString) : CryptoCtx Cipher Mac :=
  { c with auxbuf := memcpy c.auxbuf c.count.toNat vin, count := c.count + vin.length }

/-- A partial buffer flush. The unflushed part moves to the beginning. -/
def partialFlush (c : CryptoCtx Cipher Mac) (vin : ByteString) (flushcount : Int) :
    Option (CryptoCtx Cipher Mac × ByteString) := do
  let (c, out) ← cryptoDecryptAdvance lib c [] (c.auxbuf.take flushcount.toNat)
  let unflushed := (c.auxbuf.drop flushcount.toNat).take (c.count - flushcount).toNat
  let c := { c with auxbuf := memcpy c.auxbuf 0 unflushed, count := c.count - flushcount }
  return (keepFilling c vin, out)

/-- The part of `crypto_decrypt_update` behind the initialization vector. The
auxiliary buffer holds the last bytes received so far. -/
def cryptoDecryptBody (c : CryptoCtx Cipher Mac) (vin : ByteString) :
    Option (CryptoCtx Cipher Mac × ByteString) :=
  let flushcount := c.count + vin.length - lib.mdLength
  if flushcount > 0 then
    if c.count ≤ flushcount then fullFlush lib c vin flushcount
    else partialFlush lib c vin flushcount
  else some (keepFilling c vin, [])

def cryptoDecryptUpdate (c : CryptoCtx Cipher Mac) (input : ByteString) :
    Option (CryptoCtx Cipher Mac × ByteString) :=
  if c.state = 0 then
    let full := c.count + input.length ≥ lib.ivLength
    let l := if full then lib.ivLength - c.count else input.length
    let state := if full then c.state + 1 else c.state
    let ivbuf := memcpy c.ivbuf c.count.toNat (input.take l.toNat)
    if state = 0 then some ({ c with state, ivbuf, count := c.count + l }, [])
    else
      let r := lib.decryptInit c.auxbuf ivbuf
      if 1 ≠ r.1 then none
      else
        let c := { c with
          ctx := r.2
          macctx := lib.hmacUpdate c.macctx ivbuf
          state
          auxbuf := byteStringReinit c.auxbuf lib.mdLength
          ivbuf := []
          count := 0 }
        let vin := input.drop l.toNat
        if vin.length = 0 then some (c, []) else cryptoDecryptBody lib c vin
  else cryptoDecryptBody lib c input

/-- The ciphertext is too short for a MAC unless the buffer is full. -/
def cryptoDecryptFinal (c : CryptoCtx Cipher Mac) : Option ByteString :=
  if c.count ≠ lib.mdLength then none
  else if byteStringCmp (lib.hmacFinal c.macctx) c.auxbuf ≠ 0 then none
  else
    let r := lib.decryptFinal c.ctx
    if 1 ≠ r.1 then none else some r.2

/-- For messages that fit in memory. -/
def cryptoDecrypt (ctext secret : ByteString) : Option ByteString := do
  let (c, out) ← cryptoDecryptUpdate lib (cryptoDecryptInit lib secret) ctext
  let last ← cryptoDecryptFinal lib c
  return out ++ last

end Decrypt

/-- What OpenSSL documents of decryption and authentication. -/
structure Reliable (lib : Openssl Cipher Mac) : Prop where
  decryptInit_eq (key iv : ByteString) : (lib.decryptInit key iv).1 = 1
  decryptUpdate_eq (s : Cipher) (input : ByteString) : (lib.decryptUpdate s input).1 = 1
  incremental : Incremental fun s input => (lib.decryptUpdate s input).2
  absorbing : Absorbing lib.hmacUpdate
  length_hmacFinal (m : Mac) : (lib.hmacFinal m).length = lib.mdLength

/-- What OpenSSL documents of encryption, too. -/
structure Inverse (lib : Openssl Cipher Mac) : Prop extends Reliable lib where
  encryptInit_eq (key iv : ByteString) : (lib.encryptInit key iv).1 = 1
  encryptUpdate_eq (s : Cipher) (input : ByteString) : (lib.encryptUpdate s input).1 = 1
  encryptFinal_eq (s : Cipher) : (lib.encryptFinal s).1 = 1
  encryptIncremental : Incremental fun s input => (lib.encryptUpdate s input).2
  decrypt_encrypt (key iv m : ByteString) :
    let e := (lib.encryptUpdate (lib.encryptInit key iv).2 m).2
    let d := (lib.decryptUpdate (lib.decryptInit key iv).2 (e.2 ++ (lib.encryptFinal e.1).2)).2
    (lib.decryptFinal d.1).1 = 1 ∧ d.2 ++ (lib.decryptFinal d.1).2 = m

end IdBasedEncryption.Crypto
