import IdBasedEncryption.ByteStrings
import IdBasedEncryption.Stdio

namespace IdBasedEncryption.PkgHtml

open ByteStrings FuelLoops Stdio

/-- What a client sends and what `SSL_read` returns behind it: 0 when the connection
is closed, a negative number when it fails. -/
structure Ssl where
  input : ByteString
  rc : Int

section Readline

/-- The bytes that were stored and whether a terminator was put behind them. -/
structure Readline where
  n : Int
  text : ByteString
  ended : Bool
  ssl : Ssl

/-- The rounds of `myssl_readline` from `n` on, of which `k` are left. The counter
ends at one more than the number of bytes unless there was a newline. -/
def readlineFrom : Nat → Int → Ssl → Readline
  | 0, n, ssl => ⟨n, [], true, ssl⟩
  | k + 1, n, ⟨input, rc⟩ =>
      match input with
      | [] =>
          if rc ≠ 0 then ⟨rc, [], false, ⟨[], rc⟩⟩
          else if n = 1 then ⟨0, [], false, ⟨[], rc⟩⟩
          else ⟨n, [], true, ⟨[], rc⟩⟩
      | c :: input =>
          if c = newline then ⟨n, [c], true, ⟨input, rc⟩⟩
          else
            let r := readlineFrom k (n + 1) ⟨input, rc⟩
            { r with text := c :: r.text }

/-- The length and the buffer, whose bytes behind the line stay. -/
def mysslReadline (ssl : Ssl) (buf : ByteString) (maxlen : Int) : Int × ByteString × Ssl :=
  let r := readlineFrom maxlen.toNat 1 ssl
  let buf :=
    if r.ended then r.text ++ 0 :: buf.drop (r.text.length + 1)
    else r.text ++ buf.drop r.text.length
  (r.n, buf, r.ssl)

theorem readlineFrom_line {l : ByteString} (hl : newline ∉ l) {k : Nat} (hk : l.length < k)
    (n : Int) (x : ByteString) (rc : Int) :
    readlineFrom k n ⟨l ++ newline :: x, rc⟩ = ⟨n + l.length, l ++ [newline], true, ⟨x, rc⟩⟩ := by
  induction l generalizing k n with
  | nil =>
      obtain ⟨k, rfl⟩ := Nat.exists_eq_add_of_le' hk
      simp [readlineFrom]
  | cons c l ih =>
      obtain ⟨k, rfl⟩ := Nat.exists_eq_add_of_le' (Nat.zero_lt_of_lt hk)
      obtain ⟨hc, hl⟩ := not_or.1 (List.mem_cons.not.1 hl)
      have hrest := ih hl (Nat.lt_of_succ_lt_succ hk) (n + 1)
      simp only [List.cons_append, readlineFrom, if_neg (Ne.symm hc), hrest, List.length_cons]
      congr 1
      push_cast
      ring

theorem mysslReadline_line {l : ByteString} (hl : newline ∉ l) {maxlen : Int}
    (hk : l.length < maxlen) (buf x : ByteString) (rc : Int) :
    mysslReadline ⟨l ++ newline :: x, rc⟩ buf maxlen =
      ((l.length : Int) + 1, stored (l ++ [newline]) buf, ⟨x, rc⟩) := by
  rw [mysslReadline, readlineFrom_line hl (by omega), add_comm]
  rfl

end Readline

section Query

/-- The bytes up to the separator and what is behind it. Nothing is left of an empty
string. -/
def getToken (s : ByteString) (c : UInt8) : Option (ByteString × ByteString) :=
  if s = [] then none else some (s.takeWhile (· ≠ c), (s.dropWhile (· ≠ c)).tail)

/-- The string in front of the first `c` and the one behind it. -/
def index (s : ByteString) (c : UInt8) : Option (ByteString × ByteString) :=
  if c ∈ s then some (s.takeWhile (· ≠ c), (s.dropWhile (· ≠ c)).tail) else none

/-- Zero for what is not a digit. -/
def hextod (ch : UInt8) : UInt8 :=
  if 48 ≤ ch ∧ ch ≤ 57 then ch - 48
  else if 97 ≤ ch ∧ ch ≤ 102 then ch - 97 + 10
  else if 65 ≤ ch ∧ ch ≤ 70 then ch - 65 + 10
  else 0

structure Translate where
  s : ByteString
  i : Nat
  j : Nat

/-- One byte is written at `j` for what is read at `i`. An escape that is cut off by
the end of the string leaves nothing. -/
def translateRound (n : Nat) (c : Translate) : ByteString ⊕ Translate :=
  if c.i < n then
    if c.s.getD c.i 0 = 43 then .inr ⟨c.s.set c.j 32, c.i + 1, c.j + 1⟩
    else if c.s.getD c.i 0 = 37 then
      if c.i + 1 = n then .inl (c.s.set c.j 0)
      else
        let s := c.s.set c.j (hextod (c.s.getD (c.i + 1) 0) * 16)
        if c.i + 2 = n then .inl (s.set c.j 0)
        else .inr ⟨s.set c.j (s.getD c.j 0 + hextod (s.getD (c.i + 2) 0)), c.i + 3, c.j + 1⟩
    else .inr ⟨c.s.set c.j (c.s.getD c.i 0), c.i + 1, c.j + 1⟩
  else .inl (c.s.set c.j 0)

/-- In place, on a buffer that holds a string. -/
def translate (s : ByteString) : Nat → Option ByteString :=
  loop (translateRound (strlen s)) ⟨s, 0, 0⟩

structure Process where
  ampptr : ByteString
  email : Option CString
  passwd : Option CString

/-- A later field of the same name takes the place of the earlier one. A token
without `=` ends the loop without a result. The memory for a copy has the length of
the field, so its terminator is written behind it; bounds are not part of the model. -/
def processRound (c : Process) (fuel : Nat) : Option (Option Process ⊕ Process) :=
  match getToken c.ampptr 38 with
  | none => some (.inl (some c))
  | some (token, ampptr) =>
      match index token 61 with
      | none => some (.inl none)
      | some (name, field) =>
          let c := { c with ampptr := ampptr }
          if name = bytes "mail" then
            (translate (field ++ [0]) fuel).bind fun s =>
              some (.inr { c with email := some (charstarFromByteString s) })
          else if name = bytes "password" then
            (translate (field ++ [0]) fuel).bind fun s =>
              some (.inr { c with passwd := some (charstarFromByteString s) })
          else some (.inr c)

/-- What is sent back, and the address and the password that a key share is made for. -/
structure Session where
  written : ByteString
  shared : Option (CString × CString)

/-- The address that is mailed to. A last character that is less than 32 as a
signed `char` is removed from it. -/
def emailShare (addr : CString) : ByteString :=
  match addr.val.getLast? with
  | none => addr.val
  | some c => if (c.toNat : Int).bmod 256 < 32 then addr.val.dropLast else addr.val

def process (query : ByteString) (fuel : Nat) : Option Session :=
  (nest processRound ⟨query, none, none⟩ fuel).bind fun c =>
    match c with
    | none => some ⟨[], none⟩
    | some ⟨_, some email, some passwd⟩ =>
        some ⟨bytes "Key share mailed to " ++ emailShare email ++ bytes "\n", some (email, passwd)⟩
    | some _ => some ⟨bytes "Must supply email address and password.", none⟩

end Query

section Sessions

/-- The configuration that `main` has read. -/
structure Pkg where
  htmlcomment : ByteString
  bshtml : ByteString

def tolower (c : UInt8) : UInt8 := if 65 ≤ c ∧ c ≤ 90 then c + 32 else c

def strncasecmp (s t : ByteString) (n : Nat) : Bool := strncmp (s.map tolower) (t.map tolower) n

structure Reading where
  buf : ByteString
  ssl : Ssl

/-- Lines are read until the buffer passes the test. -/
def headRound (test : ByteString → Bool) (c : Reading) : Option Reading ⊕ Reading :=
  let r := mysslReadline c.ssl c.buf 1024
  if r.1 ≤ 0 then .inl none
  else if test r.2.1 then .inl (some ⟨r.2.1, r.2.2⟩)
  else .inr ⟨r.2.1, r.2.2⟩

def isContentLength (buf : ByteString) : Bool := strncasecmp buf (bytes "Content-Length: ") 16

def isBlank (buf : ByteString) : Bool := strncmp buf (bytes "\n") 1 || strncmp buf (bytes "\r\n") 2

/-- The digits at the front, as an `int`. -/
def contentLength : ByteString → Int → Int
  | [], clength => clength
  | c :: buf, clength =>
      if c < 48 ∨ 57 < c then clength
      else contentLength buf (((clength * 10).bmod (2 ^ 32) + (c.toNat - 48)).bmod (2 ^ 32))

/-- What `index("\r\n", c)` finds: the line ends, and the terminator of the set. -/
def isLineEnd (c : UInt8) : Bool := c = 13 || c = 10 || c = 0

/-- The line ends behind the first `len` bytes become terminators. -/
def trimLine : Nat → ByteString → Option ByteString
  | 0, _ => none
  | len + 1, buf =>
      if isLineEnd (buf.getD len 0) then trimLine len (buf.set len 0) else some buf

/-- The body of a request whose headers have been read. -/
def handleBody (clength : Int) (c : Reading) (fuel : Nat) : Option Session :=
  let r := mysslReadline c.ssl c.buf clength
  if r.1 ≤ 0 then some ⟨[], none⟩
  else
    match trimLine r.1.toNat r.2.1 with
    | none => some ⟨[], none⟩
    | some buf => process (charstarFromByteString buf).val fuel

def handlePost (c : Reading) (fuel : Nat) : Option Session :=
  (loop (headRound isContentLength) c fuel).bind fun c =>
    match c with
    | none => some ⟨[], none⟩
    | some c =>
        (loop (headRound isBlank) c fuel).bind fun d =>
          match d with
          | none => some ⟨[], none⟩
          | some d => handleBody (contentLength (c.buf.drop 16) 0) d fuel

/-- The session behind the handshake. `buf` is what the stack holds. -/
def handleSession (pkg : Pkg) (buf : ByteString) (ssl : Ssl) (fuel : Nat) : Option Session :=
  let r := mysslReadline ssl buf 1024
  if r.1 < 4 then some ⟨[], none⟩
  else if strncmp r.2.1 (bytes "GET ") 4 then
    some ⟨bytes "HTTP/1.0 200 ok\r\nContent-type: text/html\r\n\r\n" ++ pkg.htmlcomment ++ pkg.bshtml,
      none⟩
  else if strncmp r.2.1 (bytes "POST") 4 then handlePost ⟨r.2.1, r.2.2⟩ fuel
  else some ⟨[], none⟩

end Sessions

end IdBasedEncryption.PkgHtml
