import IdBasedEncryption.FormFields
import IdBasedEncryption.IdStrings
import IdBasedEncryption.WholeLines

namespace IdBasedEncryption.BannedList

open ByteStrings FuelLoops Stdio WholeLines FormFields IbeLib IdStrings

section Model

/-- One line of the banned file is compared, without the last byte that was read of
it. -/
def bannedRound (id : CString) (c : ByteString × File) : (Bool × File) ⊕ (ByteString × File) :=
  let r := fgets c.1 200 c.2
  if r.2.eof then .inl (false, r.2)
  else
    let buf := r.1.set (strlen r.1 - 1) 0
    if charstarFromByteString buf = id then .inl (true, r.2) else .inr (buf, r.2)

/-- The return code and the banned file behind the call, unless there is none. The
file can be written to. -/
def bannedCheck (id : CString) (bannedfile : Option ByteString) (fuel : Nat) :
    Option (Int × Option ByteString) :=
  match bannedfile with
  | none => some (2, none)
  | some bs =>
      (loop (bannedRound id) ([], ⟨bs, false⟩) fuel).map fun r =>
        if r.1 then (1, some bs) else (0, some (bs ++ (id.val ++ [newline])))

/-- The return codes of a sequence of calls. -/
def bannedChecks : List CString → Option ByteString → Nat → Option (List Int)
  | [], _, _ => some []
  | id :: ids, bannedfile, fuel =>
      (bannedCheck id bannedfile fuel).bind fun r =>
        (bannedChecks ids r.2 fuel).map fun codes => r.1 :: codes

end Model

section Lines

/-- What is compared of a line. -/
def compared (l : ByteString) : ByteString := (l.takeWhile (· ≠ 0)).dropLast

variable {id : CString}

theorem charstarFromByteString_trimmed (l buf : ByteString) :
    (charstarFromByteString ((stored l buf).set (strlen (stored l buf) - 1) 0)).val = compared l := by
  have hsplit := List.takeWhile_append_dropWhile (p := fun c => decide (c ≠ 0)) (l := l)
  obtain ⟨junk, hstored⟩ : ∃ junk, stored l buf = l.takeWhile (· ≠ 0) ++ 0 :: junk := by
    rw [stored]
    by_cases hnil : l.dropWhile (· ≠ 0) = []
    · rw [hnil, List.append_nil] at hsplit
      exact ⟨_, by rw [hsplit]⟩
    · have hhead : (l.dropWhile (· ≠ 0)).head hnil = 0 := by
        simpa using List.head_dropWhile_not (fun c => decide (c ≠ 0)) hnil
      refine ⟨(l.dropWhile (· ≠ 0)).tail ++ 0 :: buf.drop (l.length + 1), ?_⟩
      rw [← List.cons_head_tail hnil, hhead] at hsplit
      rw [← List.cons_append, ← List.append_assoc, hsplit]
  have hlen : strlen (stored l buf) = (l.takeWhile (· ≠ 0)).length := strlen_stored l buf
  have hzero := zero_notMem_takeWhile l
  rw [hlen, hstored, compared]
  rcases List.eq_nil_or_concat' (l.takeWhile (· ≠ 0)) with hnil | ⟨t, c, ht⟩
  · rw [hnil]
    rfl
  · rw [ht] at hzero ⊢
    have hset : (t ++ [c] ++ 0 :: junk).set ((t ++ [c]).length - 1) 0 = t ++ 0 :: 0 :: junk := by simp
    have ht0 : 0 ∉ t := fun h => hzero (List.mem_append_left _ h)
    rw [hset, charstarFromByteString_append_zero, List.dropLast_concat]
    exact congrArg Subtype.val (charstarFromByteString_set ⟨t, ht0⟩)

/-- One of the lines that `fgets` reads is taken for `id`. -/
theorem scans_bannedRound (id : CString) :
    Scans 199 (fun l => compared l = id.val) (bannedRound id) Prod.snd Prod.snd where
  line := by
    rintro ⟨buf, fp⟩ l bs rfl hl hp
    have hread : fgets buf 200 ⟨l ++ bs, false⟩ = (stored l buf, ⟨bs, false⟩) := fgets_line hl buf bs false
    have heq : charstarFromByteString ((stored l buf).set (strlen (stored l buf) - 1) 0) = id :=
      Subtype.ext ((charstarFromByteString_trimmed l buf).trans hp)
    refine ⟨(true, ⟨bs, false⟩), ?_, rfl⟩
    rw [bannedRound]
    simp only [hread]
    exact if_pos heq
  next := by
    rintro ⟨buf, fp⟩ l bs rfl hl hp
    have hread : fgets buf 200 ⟨l ++ bs, false⟩ = (stored l buf, ⟨bs, false⟩) := fgets_line hl buf bs false
    have hne : charstarFromByteString ((stored l buf).set (strlen (stored l buf) - 1) 0) ≠ id :=
      fun h => hp ((charstarFromByteString_trimmed l buf).symm.trans (congrArg Subtype.val h))
    refine ⟨((stored l buf).set (strlen (stored l buf) - 1) 0, ⟨bs, false⟩), ?_, rfl⟩
    rw [bannedRound]
    simp only [hread]
    exact if_neg hne
  tail := by
    rintro ⟨buf, fp⟩ bs eof rfl ht
    have hread : fgets buf 200 ⟨bs, eof⟩ = (if bs = [] then buf else stored bs buf, atEnd) :=
      fgets_tail ht buf eof
    refine ⟨(false, atEnd), ?_, rfl⟩
    rw [bannedRound]
    simp only [hread]
    rfl

/-- Among the lines that `fgets` reads of one that was written for `id'` there is
one that is taken for `id`. -/
def Hides (id' id : CString) : Prop :=
  ∃ rest, FirstLine 199 (fun l => compared l = id.val) (id'.val ++ [newline]) rest

/-- The banned file after some IDs have been written. -/
def fileOf (ids : List CString) : ByteString := (ids.map fun id => id.val ++ [newline]).flatten

theorem fileOf_concat (ids : List CString) (id : CString) :
    fileOf (ids ++ [id]) = fileOf ids ++ (id.val ++ [newline]) := by
  simp [fileOf]

theorem firstLine_fileOf {ids : List CString} {id : CString} (h : ∃ id' ∈ ids, Hides id' id) :
    ∃ rest, FirstLine 199 (fun l => compared l = id.val) (fileOf ids) rest := by
  induction ids with
  | nil =>
      obtain ⟨id', hmem, -⟩ := h
      cases hmem
  | cons id' ids ih =>
      have hcons : fileOf (id' :: ids) = (id'.val ++ [newline]) ++ fileOf ids := rfl
      rw [hcons]
      rcases firstLine_or_skipped (n := 199) (by norm_num) (fun l => compared l = id.val)
        (whole_append_newline id'.val) with ⟨rest, hfirst⟩ | hskip
      · exact ⟨_, firstLine_append hfirst _⟩
      · obtain ⟨a, ha, hides⟩ := h
        rcases List.mem_cons.1 ha with rfl | ha
        · obtain ⟨rest, hfirst⟩ := hides
          exact absurd (hskip.noLine_self (by norm_num)) hfirst.not_noLine
        · obtain ⟨rest, hrest⟩ := ih ⟨a, ha, hides⟩
          exact ⟨rest, hskip.firstLine hrest⟩

theorem noLine_fileOf {ids : List CString} {id : CString} (h : ¬∃ id' ∈ ids, Hides id' id) :
    NoLine 199 (fun l => compared l = id.val) (fileOf ids) := by
  induction ids with
  | nil => exact .tail ⟨(by norm_num : 0 < 199), List.not_mem_nil⟩
  | cons id' ids ih =>
      have hcons : fileOf (id' :: ids) = (id'.val ++ [newline]) ++ fileOf ids := rfl
      rw [hcons]
      rcases firstLine_or_skipped (n := 199) (by norm_num) (fun l => compared l = id.val)
        (whole_append_newline id'.val) with hfirst | hskip
      · exact absurd ⟨id', List.mem_cons_self, hfirst⟩ h
      · exact hskip.noLine (ih fun ⟨a, ha, hides⟩ => h ⟨a, List.mem_cons_of_mem _ ha, hides⟩)

theorem found_eq {s : ByteString × File} {r : Bool × File} (h : Returns (loop (bannedRound id) s) r) :
    r.1 = !r.2.eof := by
  refine h.invariant (I := fun _ => True) (Q := fun r => r.1 = !r.2.eof) trivial
    (fun _ _ _ _ => trivial) ?_
  rintro ⟨buf, fp⟩ a - hround
  rw [bannedRound] at hround
  dsimp only at hround
  split_ifs at hround with heof heq
  · obtain rfl := Sum.inl.inj hround
    simp [heof]
  · obtain rfl := Sum.inl.inj hround
    simpa using heof

theorem returns_bannedCheck {bs : ByteString} {r : Bool × File}
    (h : Returns (loop (bannedRound id) ([], ⟨bs, false⟩)) r) : Returns (bannedCheck id (some bs))
      (if r.2.eof then (0, some (bs ++ (id.val ++ [newline]))) else (1, some bs)) := by
  have hmap := h.map fun r : Bool × File =>
    if r.1 then ((1 : Int), some bs) else (0, some (bs ++ (id.val ++ [newline])))
  rw [found_eq h] at hmap
  cases hr : r.2.eof <;> rw [hr] at hmap <;> exact hmap

theorem returns_bannedCheck_found {ids : List CString} (h : ∃ id' ∈ ids, Hides id' id) :
    Returns (bannedCheck id (some (fileOf ids))) (1, some (fileOf ids)) := by
  obtain ⟨rest, hfirst⟩ := firstLine_fileOf h
  obtain ⟨r, hr, hfile⟩ := (scans_bannedRound id).returns_of_firstLine (s := ([], ⟨fileOf ids, false⟩))
    hfirst rfl
  have hcheck := returns_bannedCheck hr
  rwa [hfile] at hcheck

theorem returns_bannedCheck_new {ids : List CString} (h : ¬∃ id' ∈ ids, Hides id' id) :
    Returns (bannedCheck id (some (fileOf ids))) (0, some (fileOf (ids ++ [id]))) := by
  obtain ⟨r, hr, hfile⟩ := (scans_bannedRound id).returns_of_noLine (s := ([], ⟨fileOf ids, false⟩))
    (noLine_fileOf h) rfl
  have hcheck := returns_bannedCheck hr
  rwa [hfile, ← fileOf_concat] at hcheck

theorem fits_of_hides {id' id : CString} (h : Hides id' id) :
    id.val.length ≤ 198 ∧ newline ∉ id.val := by
  obtain ⟨rest, hfirst⟩ := h
  obtain ⟨a, l, -, -, hl, hcompared⟩ := WholeLines.FirstLine.exists_append hfirst
  rw [← hcompared, compared]
  obtain ⟨t, ht⟩ := List.takeWhile_prefix (l := l) fun c => decide (c ≠ 0)
  constructor
  · have hle := congrArg List.length ht
    have hlen := hl.le
    rw [List.length_append] at hle
    rw [List.length_dropLast]
    omega
  · intro hmem
    apply hl.body
    rcases List.eq_nil_or_concat' t with rfl | ⟨t', c, rfl⟩
    · rw [List.append_nil] at ht
      rwa [ht] at hmem
    · rw [← ht, ← List.append_assoc, List.dropLast_concat]
      exact List.mem_append_left _ (List.dropLast_subset _ hmem)

/-- A line is taken for its own ID when it is read in one piece. -/
theorem hides_self_iff (id : CString) : Hides id id ↔ id.val.length ≤ 198 ∧ newline ∉ id.val := by
  refine ⟨fits_of_hides, fun ⟨hlen, hnewline⟩ => ⟨[], ?_⟩⟩
  have hl : IsLine 199 (id.val ++ [newline]) := isLine_append_newline hnewline (by omega)
  have hzero : ∀ c ∈ id.val ++ [newline], decide (c ≠ 0) = true := by
    intro c hc
    rcases List.mem_append.1 hc with hc | hc
    · exact decide_eq_true (ne_of_mem_of_not_mem hc id.property)
    · rw [List.mem_singleton.1 hc]
      rfl
  have hcompared : compared (id.val ++ [newline]) = id.val := by
    rw [compared, List.takeWhile_eq_self_iff.2 hzero, List.dropLast_concat]
  have h : FirstLine 199 (fun l => compared l = id.val) (id.val ++ [newline] ++ []) [] :=
    .here hl hcompared
  rwa [List.append_nil] at h

end Lines

section Runs

/-- What the calls are to return: 1 for the IDs that were there before. -/
def expected : List CString → List CString → List Int
  | _, [] => []
  | pre, id :: ids => (if id ∈ pre then 1 else 0) :: expected (pre ++ [id]) ids

/-- No ID is lost, and none is found that was not there. -/
def Distinguished (ids : List CString) : Prop := ∀ pre id post, ids = pre ++ id :: post →
  (id ∈ pre → id.val.length ≤ 198 ∧ newline ∉ id.val) ∧ (∀ id' ∈ pre, Hides id' id → id ∈ pre)

/-- The same for the calls behind the IDs `seen`. -/
def DistinguishedFrom : List CString → List CString → Prop
  | _, [] => True
  | seen, id :: ids => (id ∈ seen → id.val.length ≤ 198 ∧ newline ∉ id.val) ∧
      (∀ id' ∈ seen, Hides id' id → id ∈ seen) ∧ DistinguishedFrom (seen ++ [id]) ids

theorem distinguishedFrom_iff (seen ids : List CString) : DistinguishedFrom seen ids ↔
    ∀ pre id post, ids = pre ++ id :: post →
      (id ∈ seen ++ pre → id.val.length ≤ 198 ∧ newline ∉ id.val) ∧
        (∀ id' ∈ seen ++ pre, Hides id' id → id ∈ seen ++ pre) := by
  induction ids generalizing seen with
  | nil => simp [DistinguishedFrom]
  | cons id ids ih =>
      rw [DistinguishedFrom, ih]
      constructor
      · rintro ⟨h₁, h₂, h⟩ pre id' post heq
        cases pre with
        | nil =>
            obtain ⟨rfl, rfl⟩ := List.cons.inj heq
            rw [List.append_nil]
            exact ⟨h₁, h₂⟩
        | cons c pre =>
            obtain ⟨rfl, rfl⟩ := List.cons.inj heq
            have hrest := h pre id' post rfl
            rwa [List.append_assoc] at hrest
      · intro h
        obtain ⟨h₁, h₂⟩ := h [] id ids rfl
        rw [List.append_nil] at h₁ h₂
        refine ⟨h₁, h₂, fun pre id' post heq => ?_⟩
        rw [List.append_assoc]
        exact h (id :: pre) id' post (by rw [heq]; rfl)

theorem returns_cons {id : CString} {ids : List CString} {code : Int} {codes : List Int}
    {bannedfile bannedfile' : Option ByteString}
    (hcheck : Returns (bannedCheck id bannedfile) (code, bannedfile'))
    (hrest : Returns (bannedChecks ids bannedfile') codes) :
    Returns (bannedChecks (id :: ids) bannedfile) (code :: codes) :=
  hcheck.bind (hrest.map _)

theorem exists_codes (written ids : List CString) :
    ∃ codes, Returns (bannedChecks ids (some (fileOf written))) codes := by
  induction ids generalizing written with
  | nil => exact ⟨[], returns_some _⟩
  | cons id ids ih =>
      by_cases hfound : ∃ id' ∈ written, Hides id' id
      · obtain ⟨codes, hcodes⟩ := ih written
        exact ⟨_, returns_cons (returns_bannedCheck_found hfound) hcodes⟩
      · obtain ⟨codes, hcodes⟩ := ih (written ++ [id])
        exact ⟨_, returns_cons (returns_bannedCheck_new hfound) hcodes⟩

/-- As long as the codes are right, the file has the IDs that were seen. -/
theorem returns_bannedChecks (seen written : List CString) (hset : ∀ id, id ∈ written ↔ id ∈ seen)
    (ids : List CString) : ∃ codes, Returns (bannedChecks ids (some (fileOf written))) codes ∧
      (codes = expected seen ids ↔ DistinguishedFrom seen ids) := by
  induction ids generalizing seen written with
  | nil => exact ⟨[], returns_some _, iff_of_true rfl trivial⟩
  | cons id ids ih =>
      rw [expected, DistinguishedFrom]
      by_cases hfound : ∃ id' ∈ written, Hides id' id
      · have hcheck := returns_bannedCheck_found hfound
        obtain ⟨id', hmem, hides⟩ := hfound
        by_cases hseen : id ∈ seen
        · have hset' (x : CString) : x ∈ written ↔ x ∈ seen ++ [id] := by
            rw [hset, List.mem_append, List.mem_singleton]
            exact (or_iff_left_of_imp fun h => h ▸ hseen).symm
          obtain ⟨codes, hcodes, hiff⟩ := ih _ _ hset'
          refine ⟨_, returns_cons hcheck hcodes, ?_⟩
          rw [if_pos hseen, List.cons_inj_right, hiff]
          exact ⟨fun h => ⟨fun _ => fits_of_hides hides, fun _ _ _ => hseen, h⟩, fun h => h.2.2⟩
        · obtain ⟨codes, hcodes⟩ := exists_codes written ids
          refine ⟨_, returns_cons hcheck hcodes, ?_⟩
          rw [if_neg hseen]
          refine iff_of_false (fun h => ?_) fun h => hseen (h.2.1 id' ((hset id').1 hmem) hides)
          exact one_ne_zero (List.cons.inj h).1
      · have hcheck := returns_bannedCheck_new hfound
        by_cases hseen : id ∈ seen
        · obtain ⟨codes, hcodes⟩ := exists_codes (written ++ [id]) ids
          refine ⟨_, returns_cons hcheck hcodes, ?_⟩
          rw [if_pos hseen]
          refine iff_of_false (fun h => zero_ne_one (List.cons.inj h).1) fun h => hfound ?_
          exact ⟨id, (hset id).2 hseen, (hides_self_iff id).2 (h.1 hseen)⟩
        · have hset' (x : CString) : x ∈ written ++ [id] ↔ x ∈ seen ++ [id] := by
            rw [List.mem_append, List.mem_append, hset]
          obtain ⟨codes, hcodes, hiff⟩ := ih _ _ hset'
          refine ⟨_, returns_cons hcheck hcodes, ?_⟩
          rw [if_neg hseen, List.cons_inj_right, hiff]
          refine ⟨fun h => ⟨fun h' => absurd h' hseen, fun id' hmem hides => ?_, h⟩, fun h => h.2.2⟩
          exact absurd ⟨id', (hset id').2 hmem, hides⟩ hfound

/-- The calls remember exactly the requested IDs when these can be told apart in the
file. -/
theorem bannedChecks_eq_expected_iff (ids : List CString) :
    ∃ codes, Returns (bannedChecks ids (some [])) codes ∧
      (codes = expected [] ids ↔ Distinguished ids) := by
  obtain ⟨codes, hcodes, hiff⟩ := returns_bannedChecks [] [] (fun _ => Iff.rfl) ids
  refine ⟨codes, hcodes, hiff.trans (distinguishedFrom_iff [] ids)⟩

end Runs

section Example

def sampleYear : CString := ⟨bytes "2002", by decide +kernel⟩

/-- The form decoder makes a newline of the escape. -/
def brokenAddress : CString := charstarFromByteString (decoded (bytes "bob@example.com%0a"))

/-- The ID that is made for a form with this address. -/
def brokenId : CString :=
  (fmtMakeId sampleYear (some brokenAddress) none (paramsInit 11 3 ibeVersion)).getD ibeVersion

/-- The second request for an ID with a newline is not recognised. -/
theorem not_expected_broken : ¬∀ (ids : List CString) (codes : List Int),
    Returns (bannedChecks ids (some [])) codes → codes = expected [] ids := by
  intro h
  obtain ⟨codes, hcodes, hiff⟩ :=
    returns_bannedChecks [] [] (fun _ => Iff.rfl) [brokenId, brokenId]
  have hfits := (hiff.1 (h _ codes hcodes)).2.2.1 (List.mem_append_right _ List.mem_cons_self)
  exact absurd hfits.2 (by decide +kernel)

end Example

end IdBasedEncryption.BannedList
