import IdBasedEncryption.InPlaceDecoding

namespace IdBasedEncryption.SessionWrites

open ByteStrings FuelLoops Stdio PkgHtml AccessTraces InPlaceDecoding

/-- A place in a buffer of `size` bytes. -/
structure Place where
  size : Nat
  index : Nat
  deriving DecidableEq

abbrev Log := List (Access Place)

def InBounds (log : Log) : Prop := WritesIn (fun a => a.index < a.size) log

/-- A value with the writes that led to it. -/
structure Logged (α : Type) where
  value : α
  log : Log

/-- The size of `buf` in `handle_session`. -/
def bufmax : Nat := 1024

section Lines

/-- What `myssl_readline` writes: the bytes it reads, and a terminator unless it
returns early. -/
def readlineWrites (ssl : Ssl) (maxlen : Int) : Log :=
  let r := readlineFrom maxlen.toNat 1 ssl
  fill (Place.mk bufmax) (if r.ended then r.text.length + 1 else r.text.length)

def headRoundLog (test : ByteString → Bool) (c : Logged Reading) :
    Logged (Option Reading) ⊕ Logged Reading :=
  let log := c.log ++ readlineWrites c.value.ssl 1024
  Sum.map (Logged.mk · log) (Logged.mk · log) (headRound test c.value)

def trimWrites : Nat → ByteString → Log
  | 0, _ => []
  | len + 1, buf =>
      if isLineEnd (buf.getD len 0) then .write ⟨bufmax, len⟩ :: trimWrites len (buf.set len 0)
      else []

end Lines

section Fields

/-- The copy of a field has memory for the bytes of the field alone, and is then
decoded in place. -/
def copyWrites (field : ByteString) (fuel : Nat) : Option Log :=
  (accesses (field ++ [0]) fuel).map fun b =>
    fill (Place.mk field.length) (field.length + 1) ++ b.log.map fun a =>
      match a with
      | .read i => .read ⟨field.length, i⟩
      | .write i => .write ⟨field.length, i⟩

/-- `size` is the size of `token`. -/
def fieldWrites (size : Nat) (ampptr : ByteString) (fuel : Nat) : Option Log :=
  match getToken ampptr 38 with
  | none => some []
  | some (token, _) =>
      let log := fill (Place.mk size) (token.length + 1)
      match index token 61 with
      | none => some log
      | some (name, field) =>
          let log := log ++ [.write ⟨size, name.length⟩]
          if name = bytes "mail" ∨ name = bytes "password" then
            (copyWrites field fuel).map fun l => log ++ l
          else some log

def processRoundLog (size : Nat) (c : Logged Process) (fuel : Nat) :
    Option (Logged (Option Process) ⊕ Logged Process) :=
  (fieldWrites size c.value.ampptr fuel).bind fun l =>
    (processRound c.value fuel).map (Sum.map (Logged.mk · (c.log ++ l)) (Logged.mk · (c.log ++ l)))

def processLog (query : ByteString) (log : Log) (fuel : Nat) : Option (Logged Session) :=
  (nest (processRoundLog (query.length + 1)) ⟨⟨query, none, none⟩, log⟩ fuel).bind fun c =>
    (process query fuel).map (Logged.mk · c.log)

end Fields

section Sessions

def handleBodyLog (clength : Int) (c : Logged Reading) (fuel : Nat) : Option (Logged Session) :=
  let log := c.log ++ readlineWrites c.value.ssl clength
  let r := mysslReadline c.value.ssl c.value.buf clength
  if r.1 ≤ 0 then some ⟨⟨[], none⟩, log⟩
  else
    let log := log ++ trimWrites r.1.toNat r.2.1
    match trimLine r.1.toNat r.2.1 with
    | none => some ⟨⟨[], none⟩, log⟩
    | some buf => processLog (charstarFromByteString buf).val log fuel

/-- Lines are read until one passes the test, and `next` goes on from there. -/
def readUntil (test : ByteString → Bool) (next : Logged Reading → Nat → Option (Logged Session))
    (c : Logged Reading) (fuel : Nat) : Option (Logged Session) :=
  (loop (headRoundLog test) c fuel).bind fun d =>
    match d.value with
    | none => some ⟨⟨[], none⟩, d.log⟩
    | some r => next ⟨r, d.log⟩ fuel

def handlePostLog : Logged Reading → Nat → Option (Logged Session) :=
  readUntil isContentLength fun c fuel =>
    readUntil isBlank (handleBodyLog (contentLength (c.value.buf.drop 16) 0)) c fuel

/-- `handleSession` with the writes to its buffers. -/
def handleSessionLog (pkg : Pkg) (buf : ByteString) (ssl : Ssl) (fuel : Nat) :
    Option (Logged Session) :=
  let log := readlineWrites ssl 1024
  let r := mysslReadline ssl buf 1024
  if ¬r.1 < 4 ∧ ¬strncmp r.2.1 (bytes "GET ") 4 ∧ strncmp r.2.1 (bytes "POST") 4 then
    handlePostLog ⟨⟨r.2.1, r.2.2⟩, log⟩ fuel
  else (handleSession pkg buf ssl fuel).map (Logged.mk · log)

end Sessions

section Erase

theorem map_headRoundLog (test : ByteString → Bool) (c : Logged Reading) :
    Sum.map Logged.value Logged.value (headRoundLog test c) = headRound test c.value := by
  rw [headRoundLog]
  cases headRound test c.value <;> rfl

theorem fieldWrites_isSome_iff (size : Nat) (c : Process) (fuel : Nat) :
    (fieldWrites size c.ampptr fuel).isSome ↔ (processRound c fuel).isSome := by
  have hcopy (field : ByteString) : (copyWrites field fuel).isSome ↔
      (PkgHtml.translate (field ++ [0]) fuel).isSome := by
    rw [copyWrites, Option.isSome_map, ← map_accesses, Option.isSome_map]
  rw [fieldWrites, processRound]
  rcases getToken c.ampptr 38 with _ | ⟨token, rest⟩
  · exact Iff.rfl
  · dsimp only
    rcases index token 61 with _ | ⟨name, field⟩
    · exact Iff.rfl
    · dsimp only
      by_cases hmail : name = bytes "mail"
      · rw [if_pos (.inl hmail), if_pos hmail, Option.isSome_map, hcopy, Option.isSome_bind]
        simp
      · by_cases hpassword : name = bytes "password"
        · rw [if_pos (.inr hpassword), if_neg hmail, if_pos hpassword, Option.isSome_map, hcopy,
            Option.isSome_bind]
          simp
        · rw [if_neg (not_or.2 ⟨hmail, hpassword⟩), if_neg hmail, if_neg hpassword]
          exact Iff.rfl

theorem map_processRoundLog (size : Nat) (c : Logged Process) (fuel : Nat) :
    (processRoundLog size c fuel).map (Sum.map Logged.value Logged.value) =
      processRound c.value fuel := by
  have hsome := fieldWrites_isSome_iff size c.value fuel
  rw [processRoundLog]
  cases hl : fieldWrites size c.value.ampptr fuel with
  | none =>
      rw [hl] at hsome
      exact (Option.not_isSome_iff_eq_none.1 fun h => absurd (hsome.2 h) (by simp)).symm
  | some l =>
      have hid : Sum.map Logged.value Logged.value ∘
          Sum.map (Logged.mk · (c.log ++ l)) (Logged.mk · (c.log ++ l)) =
            (id : Option Process ⊕ Process → _) := by
        funext r
        cases r <;> rfl
      rw [Option.bind_some, Option.map_map, hid, Option.map_id]
      rfl

theorem map_processLog (query : ByteString) (log : Log) (fuel : Nat) :
    (processLog query log fuel).map Logged.value = process query fuel := by
  have hnest : (nest (processRoundLog (query.length + 1)) ⟨⟨query, none, none⟩, log⟩ fuel).map
      Logged.value = nest processRound ⟨query, none, none⟩ fuel :=
    nest_map Logged.value Logged.value (map_processRoundLog (query.length + 1)) _ fuel
  rw [processLog]
  rcases hrun : nest (processRoundLog (query.length + 1)) ⟨⟨query, none, none⟩, log⟩ fuel with _ | c
  · rw [hrun, Option.map_none] at hnest
    rw [process, ← hnest]
    rfl
  · rw [Option.bind_some, Option.map_map]
    exact Option.map_id'

theorem map_handleBodyLog (clength : Int) (c : Logged Reading) (fuel : Nat) :
    (handleBodyLog clength c fuel).map Logged.value = handleBody clength c.value fuel := by
  rw [handleBodyLog, handleBody]
  dsimp only
  split
  · rfl
  · rcases trimLine (mysslReadline c.value.ssl c.value.buf clength).1.toNat
      (mysslReadline c.value.ssl c.value.buf clength).2.1 with _ | buf
    · rfl
    · exact map_processLog _ _ fuel

theorem map_readUntil (test : ByteString → Bool)
    {next : Logged Reading → Nat → Option (Logged Session)}
    (next' : Reading → Nat → Option Session)
    (h : ∀ c fuel, (next c fuel).map Logged.value = next' c.value fuel) (c : Logged Reading)
    (fuel : Nat) : (readUntil test next c fuel).map Logged.value =
      (loop (headRound test) c.value fuel).bind fun d =>
        match d with
        | none => some ⟨[], none⟩
        | some d => next' d fuel := by
  have hloop : (loop (headRoundLog test) c fuel).map Logged.value =
      loop (headRound test) c.value fuel :=
    loop_map Logged.value Logged.value (map_headRoundLog test) c fuel
  rw [readUntil, ← hloop]
  cases loop (headRoundLog test) c fuel with
  | none => rfl
  | some d =>
      obtain ⟨_ | r, log⟩ := d
      · rfl
      · exact h ⟨r, log⟩ fuel

/-- Without the writes this is `handleSession`. -/
theorem map_handleSessionLog (pkg : Pkg) (buf : ByteString) (ssl : Ssl) (fuel : Nat) :
    (handleSessionLog pkg buf ssl fuel).map Logged.value = handleSession pkg buf ssl fuel := by
  simp only [handleSessionLog]
  split
  · next h =>
      obtain ⟨h₁, h₂, h₃⟩ := h
      have hpost (c : Logged Reading) (fuel : Nat) : (handlePostLog c fuel).map Logged.value =
          handlePost c.value fuel := by
        rw [handlePostLog, handlePost]
        exact map_readUntil isContentLength (fun d fuel =>
          (loop (headRound isBlank) d fuel).bind fun e =>
            match e with
            | none => some ⟨[], none⟩
            | some e => handleBody (contentLength (d.buf.drop 16) 0) e fuel)
          (fun d fuel => map_readUntil isBlank _ (map_handleBodyLog _) d fuel) c fuel
      simp only [handleSession, if_neg h₁, if_neg h₂, if_pos h₃]
      exact hpost _ fuel
  · rw [Option.map_map]
    exact Option.map_id'

end Erase

end IdBasedEncryption.SessionWrites
