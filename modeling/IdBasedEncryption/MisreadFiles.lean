import IdBasedEncryption.MessageFiles

namespace IdBasedEncryption.MisreadFiles

open ByteStrings IncrementalStreams FuelLoops Stdio WholeLines Format StreamTermination CryptFiles
open RecipientSearch MessageFiles

section Bounds

variable {Y : ByteString}

theorem length_take_strlen_le (l buf : ByteString) :
    ((stored l buf).take (strlen (stored l buf))).length ≤ l.length := by
  rw [List.length_take, strlen_stored, strlen]
  exact (Nat.min_le_left ..).trans (List.takeWhile_prefix _).length_le

/-- A loop over lines that ends with a blank one and holds no more than it has read. -/
theorem returns_lines_le {σ α : Type*} {body : σ → α ⊕ σ} (file : σ → File) (held : σ → Nat)
    (size : α → Nat)
    (hblank : ∀ s x, file s = ⟨newline :: x, false⟩ → ∃ a, body s = .inl a ∧ size a ≤ held s)
    (hline : ∀ s l rest, file s = ⟨l ++ rest, false⟩ → IsLine 99 l →
      (∃ a, body s = .inl a ∧ size a ≤ held s) ∨
        ∃ t, body s = .inr t ∧ file t = ⟨rest, false⟩ ∧ held t ≤ held s + l.length)
    {s : σ} {x : ByteString} (hY : Whole Y) (hs : file s = ⟨Y ++ newline :: x, false⟩) :
    ∃ a, Returns (loop body s) a ∧ size a ≤ held s + Y.length := by
  induction hk : Y.length using Nat.strong_induction_on generalizing Y s with
  | _ k ih =>
      by_cases hne : Y = []
      · subst hne
        obtain ⟨a, ha, hle⟩ := hblank s x hs
        exact ⟨a, returns_loop_inl ha, hle.trans (Nat.le_add_right _ _)⟩
      · obtain ⟨l, Y', rfl, hl, hY'⟩ := hY.exists_line hne (n := 99) (by norm_num)
        have hpos := hl.pos
        rw [List.length_append] at hk
        rw [List.append_assoc] at hs
        rcases hline s l _ hs hl with ⟨a, ha, hle⟩ | ⟨t, ht, hfile, hheld⟩
        · exact ⟨a, returns_loop_inl ha, hle.trans (Nat.le_add_right _ _)⟩
        · obtain ⟨a, ha, hle⟩ := ih Y'.length (by omega) hY' hfile rfl
          exact ⟨a, returns_loop_inr ht ha, by omega⟩

theorem length_append_decodeUpdate_le (out l buf : ByteString) :
    (out ++ Base64.decodeUpdate ((stored l buf).take (strlen (stored l buf)))).length ≤
      out.length + l.length := by
  rw [List.length_append]
  exact Nat.add_le_add_left
    ((Base64.length_decodeUpdate_le _).trans (length_take_strlen_le l buf)) _

/-- Up to the next blank line, no more bytes are decoded than are read. -/
theorem returns_mimeGetLoop_le (hY : Whole Y) (x line out : ByteString) :
    ∃ c, Returns (loop (mimeGetRound base64) ⟨line, ⟨Y ++ newline :: x, false⟩, (), out⟩) c ∧
      c.bs.length ≤ out.length + Y.length := by
  let held (c : MimeGet Unit) : Nat := c.bs.length
  refine returns_lines_le MimeGet.fp held held ?_ ?_ hY rfl
  · rintro ⟨line, fp, ctx, out⟩ x rfl
    exact ⟨_, mimeGetRound_blank line x out (), le_rfl⟩
  · rintro ⟨line, fp, ctx, out⟩ l rest rfl hl
    have hread := fgets_cryptBufSize_line hl line rest false
    by_cases hshort : strlen (stored l line) ≤ 2
    · refine Or.inl ⟨⟨stored l line, ⟨rest, false⟩, ctx, out⟩, ?_, le_rfl⟩
      rw [mimeGetRound, hread]
      simp only [Bool.false_eq_true, if_false, hshort, if_true]
    · refine Or.inr ⟨⟨stored l line, ⟨rest, false⟩, (), out ++ Base64.decodeUpdate
        ((stored l line).take (strlen (stored l line)))⟩, ?_, rfl,
        length_append_decodeUpdate_le out l line⟩
      rw [mimeGetRound, hread]
      simp only [Bool.false_eq_true, if_false, hshort]
      rfl

theorem returns_mimeGet_le (hY : Whole Y) (x : ByteString) :
    ∃ V, Returns (mimeGet base64 ⟨Y ++ newline :: x, false⟩) V ∧ V.1.length ≤ Y.length := by
  obtain ⟨c, hc, hle⟩ := returns_mimeGetLoop_le hY x [] []
  refine ⟨(c.bs ++ [], c.fp), hc.bind (returns_some _), ?_⟩
  rw [List.append_nil]
  simpa using hle

/-- The same where what is decoded is not enciphered. -/
theorem returns_decryptLoop_le (hY : Whole Y) (x input out : ByteString) :
    ∃ c, Returns (loop (decryptRound base64 plainStream)
        ⟨input, ⟨Y ++ newline :: x, false⟩, (), (), out⟩) c ∧
      c.out.length ≤ out.length + Y.length := by
  let held (c : Decipher Unit Unit) : Nat := c.out.length
  refine returns_lines_le Decipher.fp held held ?_ ?_ hY rfl
  · rintro ⟨input, fp, ctx, cipher, out⟩ x rfl
    exact ⟨_, decryptRound_blank input x out () (), le_rfl⟩
  · rintro ⟨input, fp, ctx, cipher, out⟩ l rest rfl hl
    have hread := fgets_cryptBufSize_line hl input rest false
    by_cases hshort : strlen (stored l input) < 2
    · refine Or.inl ⟨⟨stored l input, ⟨rest, false⟩, (), (), out⟩, ?_, le_rfl⟩
      exact decryptRound_short (c := ⟨input, ⟨l ++ rest, false⟩, (), (), out⟩) hread hshort
    · refine Or.inr ⟨⟨stored l input, ⟨rest, false⟩, (), (), out ++ Base64.decodeUpdate
        ((stored l input).take (strlen (stored l input)))⟩, ?_, rfl,
        length_append_decodeUpdate_le out l input⟩
      rw [decryptRound, hread]
      simp only [if_neg hshort]
      rfl

theorem returns_decryptBody_le (hY : Whole Y) {bs x : ByteString}
    (hW : FirstLine 99 (bytes "W:" <+: ·) bs (Y ++ newline :: x)) (K input : ByteString) :
    ∃ r, Returns (decryptBody base64 plainStream K input ⟨bs, false⟩) r ∧ r.1.length ≤ Y.length := by
  obtain ⟨c, hc, hle⟩ := returns_decryptLoop_le hY x input []
  have hadvance := returns_advanceTo_firstLine (by decide) hW
  refine ⟨(c.out ++ [] ++ [], 1), hadvance.bind (hc.bind (returns_some _)), ?_⟩
  simpa using hle

end Bounds

section Plain

theorem run_plain (cs : List ByteString) :
    (run (fun (_ : Unit) bs => ((), bs)) () cs).2 = cs := by
  induction cs with
  | nil => rfl
  | cons c cs ih => exact congrArg (c :: ·) ih

theorem ciphertext_plainStream (K : ByteString) (chunks : List ByteString) :
    ciphertext plainStream K chunks = chunks.flatten := by
  rw [ciphertext]
  exact (List.append_nil _).trans (congrArg List.flatten (run_plain chunks))

theorem recovers_plainStream : Recovers plainStream := by
  intro K chunks _ cuts hcuts o
  rw [ciphertext_plainStream] at hcuts
  refine ⟨rfl, ?_⟩
  exact (List.append_nil _).trans ((congrArg List.flatten (run_plain cuts)).trans hcuts)

variable {ids : List CString} {d : CString}

theorem zip_map_self (f : CString → ByteString) (ids : List CString) :
    ids.zip (ids.map f) = ids.map fun id => (id, f id) := by
  induction ids with
  | nil => rfl
  | cons id ids ih => exact congrArg _ ih

theorem find?_map_self (f : CString → ByteString) (h : d ∈ ids) :
    (ids.map fun id => (id, f id)).find? (fun r => r.1 = d) = some (d, f d) := by
  obtain ⟨as, bs, rfl, hd⟩ := List.eq_append_cons_of_mem h
  rw [List.find?_eq_some_iff_append]
  refine ⟨by simp, as.map fun id => (id, f id), bs.map fun id => (id, f id), by simp, ?_⟩
  intro r hr
  obtain ⟨id, hid, rfl⟩ := List.mem_map.1 hr
  have hne : id ≠ d := fun heq => hd (heq ▸ hid)
  simp [hne]

/-- What the round trip says of messages whose W section is not enciphered and whose
V sections are given by `f`. -/
theorem plain_of_roundTrips (h : RoundTrips ids d) (f : CString → ByteString) (input : ByteString)
    (stack : Stack) (reveal : ByteString → ByteString → Int × ByteString) :
    (d ∈ ids → reveal [] (f d) = (1, []) → Returns (fmtDecryptStream base64 plainStream reveal stack
        d ⟨messageText base64 [] (ids.map fun id => (id, f id)) input, false⟩) (input, 1)) ∧
      (d ∉ ids → Returns (fmtDecryptStream base64 plainStream reveal stack d
        ⟨messageText base64 [] (ids.map fun id => (id, f id)) input, false⟩) ([], 0)) := by
  obtain ⟨file, hfile, hround⟩ := h _ _ _ base64 plainStream (fun ids _ => ([], ids.map f)) [] input
    lossless_base64 recovers_plainStream (List.length_map ..)
  obtain ⟨chunks, -, rfl, hmessage⟩ := returns_encryptStream plainStream lossless_base64
    (fun ids _ => ([], ids.map f)) [] ids input
  obtain rfl := hfile.unique hmessage
  rw [ciphertext_plainStream, zip_map_self] at hround
  obtain ⟨hmem, hnot⟩ := hround stack reveal
  exact ⟨fun hd hreveal => hmem hd _ (find?_map_self f hd) hreveal, hnot⟩

end Plain

section Misread

variable {ids : List CString} {d id : CString} {stack : Stack} {U c : ByteString}
  {rs : List (CString × ByteString)}

/-- A key that no V section reveals turns whatever is found into a warning. -/
theorem returns_warning {f : File} (hf : Sound f)
    (h : Returns (findId d stack.s ⟨rs.flatMap (recipient base64) ++ wSection base64 c, false⟩)
      (some f)) :
    Returns (fmtDecryptStream base64 plainStream (fun _ _ => (0, [])) stack d
      ⟨messageText base64 U rs c, false⟩)
      (bytes "WARNING: KMAC MISMATCH. INVALID CIPHERTEXT!\n", 0) := by
  obtain ⟨-, -, hV, -⟩ := zero_notMem_marker
  obtain ⟨g, hrun, hreached⟩ := returns_advanceTo hV hf
  obtain ⟨V, g', hget, -⟩ := returns_mimeGet base64 hreached.sound
  refine (returns_decryptStream_iff lossless_base64 h).2 (hrun.bind (hget.bind ?_))
  simp only [ne_eq, zero_ne_one, not_false_eq_true, if_true]
  exact returns_some _

theorem text_nil : text base64 [] = [] := by decide

/-- A V section that holds nothing, with the rest of an ID in front of it. -/
theorem firstLine_V_le {r : ByteString} (hr : Whole r) (x : ByteString) :
    ∃ Y, Whole Y ∧ Y.length ≤ r.length + 3 ∧ FirstLine 99 (bytes "V:" <+: ·)
      (r ++ (vSection base64 [] ++ x)) (Y ++ newline :: x) := by
  have hV := firstLine_vSection base64 [] x
  have hsection : vSection base64 [] ++ x = bytes "V:\n" ++ newline :: x := by
    rw [vSection, text_nil]
    rfl
  rcases firstLine_or_skipped (n := 99) (by norm_num) (bytes "V:" <+: ·) hr with ⟨r', hfirst⟩ | hskip
  · obtain ⟨a, ha⟩ := suffix_of_firstLine hfirst
    have hwhole : Whole r' := (ha ▸ hr : Whole (a ++ r')).of_append
    refine ⟨r' ++ bytes "V:\n", hwhole.append (Or.inr (by decide)), ?_, ?_⟩
    · have hle := (suffix_of_firstLine hfirst).length_le
      rw [List.length_append]
      exact Nat.add_le_add_right hle 3
    · have happ := firstLine_append hfirst (vSection base64 [] ++ x)
      rw [hsection] at happ ⊢
      rwa [List.append_assoc]
  · refine ⟨[], Or.inl rfl, Nat.zero_le _, ?_⟩
    rw [text_nil] at hV
    exact hskip.firstLine hV

/-- The line of a recipient in front of the right one ends the search too early. -/
theorem not_misled (h : RoundTrips ids d) (hids : ∀ id ∈ ids, newline ∉ id.val)
    (hd : newline ∉ d.val) (hlen : d.val.length < 126) {before after : List CString}
    (hsplit : ids = before ++ d :: after) (hfirst : d ∉ before) :
    ∀ id ∈ before, ¬Misled d id := by
  by_contra hno
  push Not at hno
  obtain ⟨b₁, id, b₂, rfl, hmis, hb₁⟩ := exists_first hno
  have hmem : id ∈ ids := by simp [hsplit]
  have hne : id ≠ d := fun heq => hfirst (heq ▸ by simp)
  let N := id.val.length + 10
  let f (x : CString) : ByteString := if x = d then List.replicate N 0 else []
  have hfid : f id = [] := if_neg hne
  have hfd : (f d).length = N := by simp [f]
  obtain ⟨hround, -⟩ := plain_of_roundTrips h f [] ⟨[], []⟩
    fun _ V => if V = f d then (1, []) else (0, [])
  have hgood := hround (by simp [hsplit]) (if_pos rfl)
  have hlacks : Lacks d.val ((b₁.map fun id => (id, f id)).flatMap (recipient base64)) := by
    refine lacks_recipients lossless_base64 fun r hr => ?_
    obtain ⟨y, hy, rfl⟩ := List.mem_map.1 hr
    exact ⟨hids y (by simp [hsplit, hy]), fun heq => hfirst (by simp [← heq, hy]), hb₁ y hy⟩
  have htext : (ids.map fun id => (id, f id)).flatMap (recipient base64) ++ wSection base64 [] =
      (b₁.map fun id => (id, f id)).flatMap (recipient base64) ++ (recipient base64 (id, []) ++
        (((b₂ ++ d :: after).map fun id => (id, f id)).flatMap (recipient base64) ++
          wSection base64 [])) := by
    rw [hsplit]
    simp [List.flatMap_append, hfid]
  obtain ⟨r, hr, hrlen, hfinds⟩ := finds_misled lossless_base64 (hids id hmem) hmis []
    (((b₂ ++ d :: after).map fun id => (id, f id)).flatMap (recipient base64) ++ wSection base64 [])
  have hid := returns_findId_finds hlen hd (hlacks.finds hfinds) []
  rw [← htext] at hid
  obtain ⟨Y, hY, hYlen, hV⟩ := firstLine_V_le hr
    (((b₂ ++ d :: after).map fun id => (id, f id)).flatMap (recipient base64) ++ wSection base64 [])
  obtain ⟨V, hget, hVlen⟩ := returns_mimeGet_le hY
    (((b₂ ++ d :: after).map fun id => (id, f id)).flatMap (recipient base64) ++ wSection base64 [])
  -- what is read is too short for the V section of `d`
  have hVne : V.1 ≠ f d := by
    intro heq
    rw [heq, hfd] at hVlen
    simp only [N] at hVlen
    omega
  have hbad := (returns_decryptStream_some ⟨[], []⟩ lossless_base64 hid hV hget).1 hgood
  simp only [if_neg hVne, ne_eq, zero_ne_one, not_false_eq_true, if_true] at hbad
  cases congrArg Prod.snd ((returns_some _).unique hbad)

/-- The ID of a later recipient passes for the W section. -/
theorem not_marksW (h : RoundTrips ids d) (hids : ∀ id ∈ ids, newline ∉ id.val)
    (hd : newline ∉ d.val) (hlen : d.val.length < 126) {before after : List CString}
    (hsplit : ids = before ++ d :: after) (hfirst : d ∉ before)
    (hmis : ∀ id ∈ before, ¬Misled d id) : ∀ id ∈ after, ¬MarksW id := by
  by_contra hno
  push Not at hno
  obtain ⟨a₁, id, a₂, rfl, hmarks, ha₁⟩ := exists_first hno
  let N := id.val.length + 10
  let f (_ : CString) : ByteString := []
  obtain ⟨hround, -⟩ := plain_of_roundTrips h f (List.replicate N 0) ⟨[], []⟩ fun _ _ => (1, [])
  have hgood := hround (by simp [hsplit]) rfl
  have hlacks : Lacks d.val ((before.map fun id => (id, f id)).flatMap (recipient base64)) := by
    refine lacks_recipients lossless_base64 fun r hr => ?_
    obtain ⟨y, hy, rfl⟩ := List.mem_map.1 hr
    exact ⟨hids y (by simp [hsplit, hy]), fun heq => hfirst (heq ▸ hy), hmis y hy⟩
  obtain ⟨x, hx⟩ : ∃ x, x = ((a₁ ++ id :: a₂).map fun id => (id, f id)).flatMap (recipient base64) ++
    wSection base64 (List.replicate N 0) := ⟨_, rfl⟩
  have htext : (ids.map fun id => (id, f id)).flatMap (recipient base64) ++
      wSection base64 (List.replicate N 0) =
      (before.map fun id => (id, f id)).flatMap (recipient base64) ++
        (recipient base64 (d, []) ++ x) := by
    rw [hsplit, hx]
    simp [List.flatMap_append, f]
  have hid := returns_findId_finds hlen hd
    (hlacks.finds (finds_recipient lossless_base64 d [] x)) []
  rw [← htext] at hid
  have hV := (skipped_newline (s := bytes "V:") (by decide)).firstLine
    (firstLine_vSection base64 [] x)
  have hget := returns_mimeGet_text lossless_base64 [] x
  obtain ⟨r, hr, hrlen, hfirstW⟩ := firstLine_marksW lossless_base64 hmarks []
    ((a₂.map fun id => (id, f id)).flatMap (recipient base64) ++ wSection base64 (List.replicate N 0))
  have hW : FirstLine 99 (bytes "W:" <+: ·) x (r ++ newline :: (vSection base64 [] ++
      ((a₂.map fun id => (id, f id)).flatMap (recipient base64) ++
        wSection base64 (List.replicate N 0)))) := by
    have hskip : Skipped 99 (bytes "W:" <+: ·)
        ((a₁.map fun id => (id, f id)).flatMap (recipient base64)) :=
      skipped_recipients lossless_base64 fun r hr => by
        obtain ⟨y, hy, rfl⟩ := List.mem_map.1 hr
        exact ha₁ y hy
    have hall := hskip.firstLine hfirstW
    rw [hx]
    simpa [List.flatMap_append, f] using hall
  obtain ⟨out, hrun, hout⟩ := returns_decryptBody_le hr hW [] []
  have hbad := (returns_decryptStream_some ⟨[], []⟩ lossless_base64 hid hV hget).1 hgood
  simp only [ne_eq, not_true_eq_false, if_false] at hbad
  have heq := congrArg (List.length ∘ Prod.fst) (hrun.unique hbad)
  simp only [Function.comp_apply, List.length_replicate, N] at heq
  omega

/-- Every defect shows in some message. -/
theorem fine_of_roundTrips (hne : ids ≠ []) (hids : ∀ id ∈ ids, newline ∉ id.val)
    (hd : newline ∉ d.val) (h : RoundTrips ids d) : Fine ids d where
  listed hmem := by
    have hlen : d.val.length < 126 := by
      by_contra hlong
      obtain ⟨hround, -⟩ := plain_of_roundTrips h (fun _ => []) [] ⟨[], []⟩ fun _ _ => (1, [])
      have hnone := returns_findId_long (s := []) (not_lt.1 hlong) (by simp [idMatches, newline])
        (sound_mk ((ids.map fun id => (id, [])).flatMap (recipient base64) ++ wSection base64 []))
      have hbad : Returns (fmtDecryptStream base64 plainStream (fun _ _ => (1, [])) ⟨[], []⟩ d
          ⟨messageText base64 [] (ids.map fun id => (id, [])) [], false⟩) ([], 0) :=
        returns_decryptStream_none lossless_base64 hnone
      cases congrArg Prod.snd (hbad.unique (hround hmem rfl))
    refine ⟨hlen, fun before after hsplit hfirst => ?_⟩
    have hmis := not_misled h hids hd hlen hsplit hfirst
    exact ⟨hmis, not_marksW h hids hd hlen hsplit hfirst hmis⟩
  unlisted hmem := by
    have hnone (stack : Stack) : Returns (fmtDecryptStream base64 plainStream (fun _ _ => (0, []))
        stack d ⟨messageText base64 [] (ids.map fun id => (id, [])) [], false⟩) ([], 0) :=
      (plain_of_roundTrips h (fun _ => []) [] stack fun _ _ => (0, [])).2 hmem
    have hnever (stack : Stack) {f : File} (hf : Sound f) (hfound : Returns (findId d stack.s
        ⟨(ids.map fun id => (id, [])).flatMap (recipient base64) ++ wSection base64 [], false⟩)
        (some f)) : False := by
      have hbad := (returns_warning (U := []) hf hfound).unique (hnone stack)
      exact absurd (congrArg Prod.fst hbad) (by decide)
    by_cases hlen : d.val.length < 126
    · refine Or.inl ⟨hlen, ?_⟩
      by_contra hno
      push Not at hno
      obtain ⟨a, id, b, rfl, hmis, ha⟩ := exists_first hno
      have hlacks : Lacks d.val ((a.map fun id => (id, [])).flatMap (recipient base64)) := by
        refine lacks_recipients lossless_base64 fun r hr => ?_
        obtain ⟨y, hy, rfl⟩ := List.mem_map.1 hr
        exact ⟨hids y (by simp [hy]), fun heq => hmem (by simp [← heq, hy]), ha y hy⟩
      obtain ⟨r, hr, -, hfinds⟩ := finds_misled lossless_base64 (hids id (by simp)) hmis []
        ((b.map fun id => (id, [])).flatMap (recipient base64) ++ wSection base64 [])
      have hfound := returns_findId_finds hlen hd (hlacks.finds hfinds) []
      have htext : ((a ++ id :: b).map fun id => (id, [])).flatMap (recipient base64) ++
          wSection base64 [] = (a.map fun id => (id, [])).flatMap (recipient base64) ++
            (recipient base64 (id, []) ++ ((b.map fun id => (id, [])).flatMap (recipient base64) ++
              wSection base64 [])) := by
        simp [List.flatMap_append]
      rw [← htext] at hfound
      exact hnever ⟨[], []⟩ (sound_mk _) hfound
    · refine Or.inr ⟨not_lt.1 hlen, ?_⟩
      by_contra hpos
      have hrs : (ids.map fun id => (id, ([] : ByteString))) ≠ [] := by simpa using hne
      obtain ⟨r, -, hfirst⟩ := firstLine_message lossless_base64 hrs []
      have hfound := returns_findId_nonpos hpos hfirst []
      exact hnever ⟨stored (d.val ++ [newline]) [], []⟩ (sound_mk r) hfound

/-- A file is read back as it should be exactly by the recipients that nothing
misleads. -/
theorem roundTrips_iff (hne : ids ≠ []) (hids : ∀ id ∈ ids, newline ∉ id.val)
    (hd : newline ∉ d.val) : RoundTrips ids d ↔ Fine ids d :=
  ⟨fine_of_roundTrips hne hids hd, Fine.roundTrips hne hids hd⟩

theorem not_misled_of_skipped (h : Skipped 99 (bytes "ID:" <+: ·)
    (id.val.drop (d.val.length + 1) ++ [newline, newline])) : ¬Misled d id := by
  rintro ⟨-, rest, hfinds⟩
  have hno := h.noLine_self (by norm_num)
  cases hfinds with
  | here hfirst => exact hfirst.not_noLine hno
  | next hfirst hl hne hr => exact hfirst.not_noLine hno

theorem not_marksW_of_skipped (h : Skipped 99 (bytes "W:" <+: ·) (id.val ++ [newline])) :
    ¬MarksW id := fun ⟨_, hfirst⟩ => hfirst.not_noLine (h.noLine_self (by norm_num))

def bob : CString := charstarFromByteString (bytes "bob")

def bobby : CString := charstarFromByteString (bytes "bobby")

def alice : CString := charstarFromByteString (bytes "alice")

theorem fine_bob : Fine [bobby, bob, alice] bob where
  listed _ := by
    refine ⟨by decide, fun before after hsplit hfirst => ?_⟩
    have hbobby : ¬Misled bob bobby := by
      have hy : IsLine 99 (bytes "y\n") :=
        isLine_of_lt (by decide) (by decide) (by decide)
      have htext : bobby.val.drop (bob.val.length + 1) ++ [newline, newline] =
          bytes "y\n" ++ [newline] := by
        decide
      refine not_misled_of_skipped ?_
      rw [htext]
      exact .next hy (by decide) (.single isLine_newline (by decide))
    have halice : ¬MarksW alice := by
      have hline : IsLine 99 (bytes "alice\n") :=
        isLine_of_lt (by decide) (by decide) (by decide)
      exact not_marksW_of_skipped (.single hline (by decide))
    obtain ⟨rfl, rfl⟩ : before = [bobby] ∧ after = [alice] := by
      match before, hsplit, hfirst with
      | [], hsplit, _ => exact absurd (List.cons.inj hsplit).1 (by decide)
      | [_], hsplit, _ => simpa using hsplit.symm
      | _ :: id :: _, hsplit, hfirst =>
          have hid : bob = id := (List.cons.inj (List.cons.inj hsplit).2).1
          exact absurd (by simp [hid]) hfirst
    exact ⟨by simpa using hbobby, by simpa using halice⟩
  unlisted hmem := absurd (List.mem_cons_of_mem _ List.mem_cons_self) hmem

/-- The ID that `bob` is a prefix of does not keep him from his message. -/
theorem roundTrips_bob : RoundTrips [bobby, bob, alice] bob :=
  (roundTrips_iff (List.cons_ne_nil _ _) (by decide) (by decide)).2 fine_bob

/-- The length of this ID is too large for a `char`. -/
def longId : CString := charstarFromByteString (List.replicate 126 97)

theorem not_roundTrips :
    ¬∀ (ids : List CString) (d : CString), ids ≠ [] → (∀ id ∈ ids, newline ∉ id.val) →
      newline ∉ d.val → RoundTrips ids d := by
  intro hall
  have hround := hall [longId] longId (List.cons_ne_nil _ _) (by decide) (by decide)
  have hfine := fine_of_roundTrips (List.cons_ne_nil _ _) (by decide) (by decide)
    hround
  exact absurd (hfine.listed List.mem_cons_self).1 (by decide +kernel)

end Misread

end IdBasedEncryption.MisreadFiles
