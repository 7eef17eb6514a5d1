import IdBasedEncryption.ConfigStore
import IdBasedEncryption.WholeLines

namespace IdBasedEncryption.ConfigFiles

open ByteStrings FuelLoops Stdio WholeLines Config ConfigStore AssocLists

section Strings

theorem zero_notMem_tail (s : CString) : 0 ∉ s.val.tail := fun h =>
  s.property (List.mem_of_mem_tail h)

theorem zero_notMem_dropWhile (p : UInt8 → Bool) (s : CString) : 0 ∉ s.val.dropWhile p :=
  fun h => s.property ((List.dropWhile_sublist p).subset h)

theorem zero_notMem_span (p : UInt8 → Bool) (s : CString) : 0 ∉ s.val.takeWhile p :=
  fun h => s.property ((List.takeWhile_sublist p).subset h)

def next (s : CString) : CString := ⟨_, zero_notMem_tail s⟩

def skip (p : UInt8 → Bool) (s : CString) : CString := ⟨_, zero_notMem_dropWhile p s⟩

def upTo (p : UInt8 → Bool) (s : CString) : CString := ⟨_, zero_notMem_span p s⟩

@[simp] theorem val_next (s : CString) : (next s).val = s.val.tail := rfl

@[simp] theorem val_skip (p : UInt8 → Bool) (s : CString) :
    (skip p s).val = s.val.dropWhile p := rfl

@[simp] theorem val_upTo (p : UInt8 → Bool) (s : CString) :
    (upTo p s).val = s.val.takeWhile p := rfl

end Strings

section Model

def sep : UInt8 := 61

def isNameEnd (c : UInt8) : Bool := isspace c || c = sep

/-- One line that was read. Without a context the text of the error message remains. -/
def loadLine (filename line : CString) (params : List Assoc) : Except ByteString (List Assoc) :=
  if line.val.head? = some 59 then .ok params
  else
    let c := skip isspace line
    let name := upTo (fun c => !isNameEnd c) c
    let c1 := skip (fun c => !isNameEnd c) c
    if c1.val = [] then .ok params
    else if maxParam ≤ params.length then
      .error (bytes "LoadConfig: Too many parameters in configuration file.\n")
    else if maxNamlen < name.val.length then
      .error (bytes "LoadConfig: Parameter name " ++ name.val ++ bytes " too long in file " ++
        filename.val ++ bytes "\n")
    else
      let c := skip isNameEnd (next c1)
      if newline ∉ c.val then
        .error (bytes "LoadConfig: Parameter " ++ name.val ++ bytes " too long in file " ++
          filename.val ++ bytes "\n")
      else .ok (params ++ [⟨name, upTo (· ≠ newline) c, none⟩])

/-- The buffer for a line, the file and the parameters so far. -/
structure Loading where
  line : ByteString
  fp : File
  params : List Assoc

/-- `fgets` returns `NULL` when nothing is left to be read. -/
def loadRound (filename : CString) (s : Loading) : Except ByteString ConfCtx ⊕ Loading :=
  if s.fp.rest = [] then .inl (.ok ⟨s.params⟩)
  else
    let r := fgets s.line maxline s.fp
    match loadLine filename (charstarFromByteString r.1) s.params with
    | .error e => .inl (.error e)
    | .ok params => .inr ⟨r.1, r.2, params⟩

/-- Memory is never short. -/
def loadConfig (filename : CString) (file : Option ByteString) (fuel : Nat) :
    Option (Except ByteString ConfCtx) :=
  match file with
  | none =>
      some (.error (bytes "LoadConfig: Unable to open config file " ++ filename.val ++ bytes "\n"))
  | some bs => loop (loadRound filename) ⟨[], ⟨bs, false⟩, []⟩ fuel

def writeEntry (e : Assoc) : ByteString :=
  e.type.val ++ (bytes " = " ++ (e.value.val ++ bytes "\n"))

def writeConfig (ctx : ConfCtx) : ByteString :=
  bytes "; DO NOT EDIT THIS FILE.\n" ++
    (bytes "; The file is generated automatically.\n" ++ (bytes ";\n" ++
      ctx.configParam.flatMap writeEntry))

end Model

section Rounds

variable {filename : CString} {l bs buf : ByteString} {params params' : List Assoc}

theorem loadRound_line (hl : IsLine 2047 l) (h0 : 0 ∉ l) : loadRound filename
    ⟨buf, ⟨l ++ bs, false⟩, params⟩ = match loadLine filename ⟨l, h0⟩ params with
      | .error e => .inl (.error e)
      | .ok params => .inr ⟨stored l buf, ⟨bs, false⟩, params⟩ := by
  have hne : l ++ bs ≠ [] := by simp [List.ne_nil_of_length_pos hl.pos]
  have hread : fgets buf maxline ⟨l ++ bs, false⟩ = (stored l buf, ⟨bs, false⟩) :=
    fgets_line hl buf bs false
  have hline : charstarFromByteString (stored l buf) = ⟨l, h0⟩ := by
    rw [stored, charstarFromByteString_append_zero]
    exact charstarFromByteString_set ⟨l, h0⟩
  rw [loadRound, if_neg hne]
  simp only [hread, hline]

theorem returns_of_error (hl : IsLine 2047 l) (h0 : 0 ∉ l) {e : ByteString}
    (h : loadLine filename ⟨l, h0⟩ params = .error e) :
    Returns (loop (loadRound filename) ⟨buf, ⟨l ++ bs, false⟩, params⟩) (.error e) :=
  returns_loop_inl (by rw [loadRound_line hl h0, h])

theorem returns_iff_of_ok (hl : IsLine 2047 l) (h0 : 0 ∉ l)
    (h : loadLine filename ⟨l, h0⟩ params = .ok params') (r : Except ByteString ConfCtx) :
    Returns (loop (loadRound filename) ⟨buf, ⟨l ++ bs, false⟩, params⟩) r ↔
      Returns (loop (loadRound filename) ⟨stored l buf, ⟨bs, false⟩, params'⟩) r :=
  returns_loop_inr_iff (by rw [loadRound_line hl h0, h])

theorem returns_nil : Returns (loop (loadRound filename) ⟨buf, ⟨[], false⟩, params⟩)
    (.ok ⟨params⟩) := returns_loop_inl rfl

theorem prefix_loadLine {line : CString} (h : loadLine filename line params = .ok params') :
    params <+: params' := by
  rw [loadLine] at h
  split at h
  · obtain rfl := Except.ok.inj h
    exact List.prefix_rfl
  · dsimp only at h
    split_ifs at h
    · obtain rfl := Except.ok.inj h
      exact List.prefix_rfl
    · obtain rfl := Except.ok.inj h
      exact List.prefix_append _ _

/-- What was loaded before stays in front. -/
theorem prefix_of_returns {fp : File} {ctx : ConfCtx}
    (h : Returns (loop (loadRound filename) ⟨buf, fp, params⟩) (.ok ctx)) :
    params <+: ctx.configParam := by
  let I : Loading → Prop := fun s => params <+: s.params
  let Q : Except ByteString ConfCtx → Prop := fun r => ∀ c, r = .ok c → params <+: c.configParam
  refine h.invariant (I := I) (Q := Q) List.prefix_rfl ?_ ?_ ctx rfl
  · intro s t hs ht
    rw [loadRound] at ht
    split at ht
    · cases ht
    · dsimp only at ht
      split at ht
      · cases ht
      · rename_i hload
        obtain rfl := Sum.inr.inj ht
        exact List.IsPrefix.trans hs (prefix_loadLine hload)
  · rintro s _ hs ha c rfl
    rw [loadRound] at ha
    split at ha
    · obtain rfl := Except.ok.inj (Sum.inl.inj ha)
      exact hs
    · dsimp only at ha
      split at ha
      · cases Sum.inl.inj ha
      · cases ha

end Rounds

end IdBasedEncryption.ConfigFiles
