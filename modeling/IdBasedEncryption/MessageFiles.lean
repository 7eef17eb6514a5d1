import IdBasedEncryption.RecipientSearch

namespace IdBasedEncryption.MessageFiles

open ByteStrings IncrementalStreams FuelLoops Stdio WholeLines Format StreamTermination CryptFiles
open RecipientSearch

variable {E D C : Type} {mime : Mime E D} {stream : CryptoStream C}

/-- Behind the first pieces of another ID, `FMT_decrypt_stream` takes it for a
marker that is followed by `d`. -/
def Misled (d id : CString) : Prop :=
  d.val.length < id.val.length ∧
    ∃ rest, Finds d.val (id.val.drop (d.val.length + 1) ++ [newline, newline]) rest

/-- A piece of the ID passes for the marker of the W section. -/
def MarksW (id : CString) : Prop :=
  ∃ rest, FirstLine 99 (bytes "W:" <+: ·) (id.val ++ [newline]) rest

section Recipients

variable {d id : CString} {V x : ByteString}

theorem bytes_ID : bytes "\nID:\n" = [newline] ++ (bytes "ID:" ++ [newline]) := by decide

theorem bytes_V : bytes "\nV:\n" = newline :: bytes "V:\n" := by decide

theorem isLine_V : IsLine 99 (bytes "V:\n") :=
  isLine_of_lt (by decide) (by decide) (by decide)

/-- The V section behind the two blank lines. -/
def vSection (mime : Mime E D) (V : ByteString) : ByteString :=
  bytes "V:\n" ++ (text mime V ++ [newline])

theorem recipient_eq (hmime : Lossless mime) (id : CString) (V : ByteString) :
    recipient mime (id, V) =
      bytes "\nID:\n" ++ (id.val ++ ([newline, newline] ++ vSection mime V)) := by
  rw [recipient, mimePut_eq hmime, bytes_V, vSection]
  rfl

theorem skipped_vSection (hmime : Lossless mime) {s : ByteString} (hs : 58 ∈ s)
    (hV : ¬s <+: bytes "V:\n") (V : ByteString) : Skipped 99 (s <+: ·) (vSection mime V) := by
  have hnl : ¬s <+: [newline] := fun h => absurd (h.subset hs) (by decide)
  exact .next isLine_V hV ((skipped_text hmime hs V).append (.single isLine_newline hnl))

theorem skipped_newline {s : ByteString} (hs : 58 ∈ s) : Skipped 99 (s <+: ·) [newline] :=
  .single isLine_newline fun h => absurd (h.subset hs) (by decide)

theorem firstLine_ID (rest : ByteString) :
    FirstLine 99 (bytes "ID:" <+: ·) (bytes "\nID:\n" ++ rest) rest := by
  rw [bytes_ID]
  exact firstLine_marker (by decide) (by decide) (by decide)
    (List.prefix_append ..) rest

theorem lacks_vSection (hmime : Lossless mime) (d : ByteString) (V : ByteString) :
    Lacks d (vSection mime V) :=
  .done (skipped_vSection hmime (by decide) (by decide) V)

/-- The first line of a longer ID breaks off in the middle. -/
theorem isLine_take (hid : newline ∉ id.val) (hlt : d.val.length < id.val.length) :
    IsLine (d.val.length + 1) (id.val.take (d.val.length + 1)) where
  pos := by rw [List.length_take]; omega
  le := List.length_take_le ..
  body h := hid (List.mem_of_mem_take (List.mem_of_mem_dropLast h))
  last h := by rw [List.length_take] at h; omega

theorem take_ne (hid : newline ∉ id.val) :
    id.val.take (d.val.length + 1) ≠ d.val ++ [newline] := by
  intro h
  have hmem : newline ∈ d.val ++ [newline] := List.mem_append_right _ List.mem_cons_self
  exact hid (List.mem_of_mem_take (h ▸ hmem))

/-- The sections of another recipient are passed over. -/
theorem lacks_recipient (hmime : Lossless mime) (hid : newline ∉ id.val) (hne : id ≠ d)
    (h : ¬Misled d id) (V : ByteString) : Lacks d.val (recipient mime (id, V)) := by
  rw [recipient_eq hmime]
  by_cases hlt : d.val.length < id.val.length
  · -- the rest of the ID is searched like everything else
    have hclosed : Closed (id.val.drop (d.val.length + 1) ++ [newline, newline]) :=
      Or.inr (List.suffix_append ..)
    rcases hclosed.finds_or_lacks d.val with hfinds | hlacks
    · exact absurd ⟨hlt, hfinds⟩ h
    · have hfirst := firstLine_ID (id.val ++ ([newline, newline] ++ vSection mime V))
      rw [← List.take_append_drop (d.val.length + 1) id.val, List.append_assoc] at hfirst
      rw [← List.take_append_drop (d.val.length + 1) id.val, List.append_assoc]
      refine .next hfirst (isLine_take hid hlt) (take_ne hid) ?_
      rw [← List.append_assoc]
      exact hlacks.append (lacks_vSection hmime d.val V)
  · have hline : IsLine (d.val.length + 1) (id.val ++ [newline]) :=
      isLine_append_newline hid (by omega)
    have hfirst := firstLine_ID ((id.val ++ [newline]) ++ ([newline] ++ vSection mime V))
    rw [List.append_assoc] at hfirst
    refine .next ?_ hline ?_ ((lacks_vSection hmime d.val V).skip
      (skipped_newline (by decide)))
    · rw [List.append_assoc]
      exact hfirst
    · exact fun heq => hne (Subtype.ext (List.append_cancel_right heq))

theorem finds_recipient (hmime : Lossless mime) (d : CString) (V x : ByteString) :
    Finds d.val (recipient mime (d, V) ++ x) (newline :: (vSection mime V ++ x)) := by
  rw [recipient_eq hmime, List.append_assoc, List.append_assoc, List.append_assoc]
  exact .here (firstLine_ID _)

/-- A misleading ID ends the search in the middle of its line. -/
theorem finds_misled (hmime : Lossless mime) (hid : newline ∉ id.val) (h : Misled d id)
    (V x : ByteString) : ∃ r, Whole r ∧ r.length ≤ id.val.length + 2 ∧
      Finds d.val (recipient mime (id, V) ++ x) (r ++ (vSection mime V ++ x)) := by
  obtain ⟨hlt, r, hr⟩ := h
  have hclosed : Closed r := Closed.of_suffix (Or.inr (List.suffix_append ..)) hr.suffix
  refine ⟨r, hclosed.whole, ?_, ?_⟩
  · have hle := hr.suffix.length_le
    simp only [List.length_append, List.length_drop, List.length_cons, List.length_nil] at hle
    omega
  · have hfirst := firstLine_ID (id.val ++ ([newline, newline] ++ (vSection mime V ++ x)))
    rw [← List.take_append_drop (d.val.length + 1) id.val, List.append_assoc] at hfirst
    rw [recipient_eq hmime, List.append_assoc, List.append_assoc, List.append_assoc,
      ← List.take_append_drop (d.val.length + 1) id.val, List.append_assoc]
    refine .next hfirst (isLine_take hid hlt) (take_ne hid) ?_
    rw [← List.append_assoc]
    exact hr.append _

theorem lacks_recipients (hmime : Lossless mime) {rs : List (CString × ByteString)}
    (h : ∀ r ∈ rs, newline ∉ r.1.val ∧ r.1 ≠ d ∧ ¬Misled d r.1) :
    Lacks d.val (rs.flatMap (recipient mime)) := by
  induction rs with
  | nil => exact .done .nil
  | cons r rs ih =>
      obtain ⟨⟨hid, hne, hmis⟩, hrs⟩ := List.forall_mem_cons.1 h
      rw [List.flatMap_cons]
      exact (lacks_recipient hmime hid hne hmis r.2).append (ih hrs)

theorem whole_id (id : CString) : Whole (id.val ++ [newline]) := whole_append_newline id.val

theorem skipped_ID : Skipped 99 (bytes "W:" <+: ·) (bytes "\nID:\n") := by
  rw [bytes_ID]
  exact .next isLine_newline (by decide) (.single
    (isLine_of_lt (by decide) (by decide) (by decide)) (by decide))

/-- The sections of a recipient hide the W section only when a piece of the ID
does. -/
theorem skipped_recipient (hmime : Lossless mime) (h : ¬MarksW id) (V : ByteString) :
    Skipped 99 (bytes "W:" <+: ·) (recipient mime (id, V)) := by
  rcases firstLine_or_skipped (n := 99) (by norm_num) (bytes "W:" <+: ·) (whole_id id) with
    hfirst | hskip
  · exact absurd hfirst h
  · have hrest := (skipped_newline (s := bytes "W:") (by decide)).append
      (skipped_vSection hmime (by decide) (by decide) V)
    have hall := skipped_ID.append (hskip.append hrest)
    rw [recipient_eq hmime]
    rwa [List.append_assoc] at hall

theorem firstLine_marksW (hmime : Lossless mime) (h : MarksW id) (V x : ByteString) :
    ∃ r, Whole r ∧ r.length ≤ id.val.length + 1 ∧ FirstLine 99 (bytes "W:" <+: ·)
      (recipient mime (id, V) ++ x) (r ++ newline :: (vSection mime V ++ x)) := by
  obtain ⟨r, hr⟩ := h
  have hle := (suffix_of_firstLine hr).length_le
  obtain ⟨a, ha⟩ := suffix_of_firstLine hr
  refine ⟨r, (ha ▸ whole_id id : Whole (a ++ r)).of_append, ?_, ?_⟩
  · rwa [List.length_append] at hle
  · have hfirst := skipped_ID.firstLine (firstLine_append hr (newline :: (vSection mime V ++ x)))
    rw [recipient_eq hmime, List.append_assoc, List.append_assoc, List.append_assoc]
    rwa [List.append_assoc] at hfirst

end Recipients

section Messages

/-- A message with the bytes in its sections. -/
def messageText (mime : Mime E D) (U : ByteString) (rs : List (CString × ByteString))
    (c : ByteString) : ByteString :=
  bytes "\n-----BEGIN IBE-----\n" ++ (bytes "\nU:\n" ++ (text mime U ++ (bytes "\n" ++
    (rs.flatMap (recipient mime) ++ (bytes "\nW:\n" ++
      (text mime c ++ bytes "\n-----END IBE-----\n"))))))

/-- What is behind the sections of the recipients. -/
def wSection (mime : Mime E D) (c : ByteString) : ByteString :=
  bytes "\nW:\n" ++ (text mime c ++ newline :: bytes "-----END IBE-----\n")

theorem bytes_END : bytes "\n-----END IBE-----\n" = newline :: bytes "-----END IBE-----\n" := by
  decide

theorem messageText_eq (U : ByteString) (rs : List (CString × ByteString)) (c : ByteString) :
    messageText mime U rs c = bytes "\n-----BEGIN IBE-----\n" ++ (bytes "\nU:\n" ++
      (text mime U ++ newline :: (rs.flatMap (recipient mime) ++ wSection mime c))) := by
  rw [messageText, bytes_END]
  rfl

theorem returns_encryptStream (stream : CryptoStream C) (hmime : Lossless mime)
    (hide : List CString → ByteString → ByteString × List ByteString) (K : ByteString)
    (ids : List CString) (input : ByteString) :
    ∃ chunks : List ByteString, chunks ≠ [] ∧ chunks.flatten = input ∧
      Returns (fmtEncryptStreamArray mime stream hide K ids input)
        (messageText mime (hide ids K).1 (ids.zip (hide ids K).2) (ciphertext stream K chunks)) := by
  obtain ⟨chunks, hne, hchunks, c, hrun, htext⟩ := returns_encrypt stream hmime K input
  refine ⟨chunks, hne, hchunks, hrun.bind ?_⟩
  rw [htext, mimePut_eq hmime]
  exact returns_some _

variable {id : CString} {stack : Stack} {reveal : ByteString → ByteString → Int × ByteString}
  {rs : List (CString × ByteString)} {U c : ByteString} {r : ByteString × Int}

theorem firstLine_BEGIN (rest : ByteString) : FirstLine 99 (bytes "-----BEGIN IBE-----" <+: ·)
    (bytes "\n-----BEGIN IBE-----\n" ++ rest) rest := by
  have h : bytes "\n-----BEGIN IBE-----\n" =
      [newline] ++ (bytes "-----BEGIN IBE-----" ++ [newline]) := by
    decide
  rw [h]
  exact firstLine_marker (by decide) (by decide) (by decide)
    (List.prefix_append ..) rest

theorem firstLine_U (rest : ByteString) :
    FirstLine 99 (bytes "U:" <+: ·) (bytes "\nU:\n" ++ rest) rest := by
  have h : bytes "\nU:\n" = [newline] ++ (bytes "U:" ++ [newline]) := by decide
  rw [h]
  exact firstLine_marker (by decide) (by decide) (by decide)
    (List.prefix_append ..) rest

/-- The search for the ID decides what happens to a message. -/
theorem returns_decryptStream_iff (hmime : Lossless mime) {found : Option File}
    (h : Returns (findId id stack.s ⟨rs.flatMap (recipient mime) ++ wSection mime c, false⟩) found) :
    Returns (fmtDecryptStream mime stream reveal stack id ⟨messageText mime U rs c, false⟩) r ↔
      Returns (fun fuel => match found with
        | none => some ([], 0)
        | some fp => (advanceTo (bytes "V:") fp fuel).bind fun fp =>
            (mimeGet mime fp fuel).bind fun V =>
              if (reveal U V.1).1 ≠ 1 then
                some (bytes "WARNING: KMAC MISMATCH. INVALID CIPHERTEXT!\n", 0)
              else decryptBody mime stream (reveal U V.1).2 stack.input V.2 fuel) r := by
  obtain ⟨-, hU, -, -, hbegin⟩ := zero_notMem_marker
  rw [messageText_eq]
  have h₁ := returns_advanceTo_firstLine hbegin (firstLine_BEGIN (bytes "\nU:\n" ++
    (text mime U ++ newline :: (rs.flatMap (recipient mime) ++ wSection mime c))))
  have h₂ := returns_advanceTo_firstLine hU (firstLine_U
    (text mime U ++ newline :: (rs.flatMap (recipient mime) ++ wSection mime c)))
  have h₃ := returns_mimeGet_text hmime U (rs.flatMap (recipient mime) ++ wSection mime c)
  exact h₁.bind_iff.trans (h₂.bind_iff.trans (h₃.bind_iff.trans h.bind_iff))

theorem returns_decryptStream_none (hmime : Lossless mime)
    (h : Returns (findId id stack.s ⟨rs.flatMap (recipient mime) ++ wSection mime c, false⟩) none) :
    Returns (fmtDecryptStream mime stream reveal stack id ⟨messageText mime U rs c, false⟩)
      ([], 0) :=
  (returns_decryptStream_iff hmime h).2 (returns_some _)

/-- Behind the ID, the V section is read. -/
theorem returns_decryptStream_some (stack : Stack) (hmime : Lossless mime) {b v : ByteString} {V : ByteString × File}
    (h : Returns (findId id stack.s ⟨rs.flatMap (recipient mime) ++ wSection mime c, false⟩)
      (some ⟨b, false⟩))
    (hv : FirstLine 99 (bytes "V:" <+: ·) b v) (hV : Returns (mimeGet mime ⟨v, false⟩) V) :
    Returns (fmtDecryptStream mime stream reveal stack id ⟨messageText mime U rs c, false⟩) r ↔
      Returns (fun fuel => if (reveal U V.1).1 ≠ 1 then
          some (bytes "WARNING: KMAC MISMATCH. INVALID CIPHERTEXT!\n", 0)
        else decryptBody mime stream (reveal U V.1).2 stack.input V.2 fuel) r := by
  obtain ⟨-, -, hmarker, -⟩ := zero_notMem_marker
  have hadvance := returns_advanceTo_firstLine hmarker hv
  exact (returns_decryptStream_iff hmime h).trans (hadvance.bind_iff.trans hV.bind_iff)

end Messages

section Enough

/-- The file that is written for `ids` is read back by `d` as it should be. Encoding
and ciphers are assumed to be undone by what reads them. The key is revealed by the
V section of the first recipient with the ID `d`. -/
def RoundTrips (ids : List CString) (d : CString) : Prop :=
  ∀ (E D C : Type) (mime : Mime E D) (stream : CryptoStream C)
    (hide : List CString → ByteString → ByteString × List ByteString) (K input : ByteString),
    Lossless mime → Recovers stream → (hide ids K).2.length = ids.length →
    ∃ file, Returns (fmtEncryptStreamArray mime stream hide K ids input) file ∧
      ∀ (stack : Stack) (reveal : ByteString → ByteString → Int × ByteString),
        (d ∈ ids → ∀ V, (ids.zip (hide ids K).2).find? (fun r => r.1 = d) = some (d, V) →
          reveal (hide ids K).1 V = (1, K) →
          Returns (fmtDecryptStream mime stream reveal stack d ⟨file, false⟩) (input, 1)) ∧
        (d ∉ ids → Returns (fmtDecryptStream mime stream reveal stack d ⟨file, false⟩) ([], 0))

/-- The length of the ID fits into a `char`, and no other ID is taken for the
structure of the file. -/
structure Fine (ids : List CString) (d : CString) : Prop where
  listed : d ∈ ids → d.val.length < 126 ∧
    ∀ before after, ids = before ++ d :: after → d ∉ before →
      (∀ id ∈ before, ¬Misled d id) ∧ ∀ id ∈ after, ¬MarksW id
  unlisted : d ∉ ids → (d.val.length < 126 ∧ ∀ id ∈ ids, ¬Misled d id) ∨
    (126 ≤ d.val.length ∧ 0 < slen d)

variable {d : CString} {V c K m : ByteString} {rs before after : List (CString × ByteString)}
  {stack : Stack} {reveal : ByteString → ByteString → Int × ByteString} {U : ByteString}

theorem skipped_wSection (hmime : Lossless mime) (c : ByteString) :
    Skipped 99 (bytes "ID:" <+: ·) (wSection mime c) := by
  have hW : Skipped 99 (bytes "ID:" <+: ·) (bytes "\nW:\n") := by
    rw [bytes_W]
    exact .next isLine_newline (by decide) (.single
      (isLine_of_lt (by decide) (by decide) (by decide)) (by decide))
  have hend : Skipped 99 (bytes "ID:" <+: ·) (newline :: bytes "-----END IBE-----\n") :=
    (skipped_newline (s := bytes "ID:") (by decide)).append (.single
      (isLine_of_lt (by decide) (by decide) (by decide)) (by decide))
  exact hW.append ((skipped_text hmime (by decide) c).append hend)

theorem firstLine_vSection (mime : Mime E D) (V x : ByteString) :
    FirstLine 99 (bytes "V:" <+: ·) (vSection mime V ++ x) (text mime V ++ newline :: x) := by
  have h : FirstLine 99 (bytes "V:" <+: ·) (bytes "V:\n" ++ (text mime V ++ newline :: x))
      (text mime V ++ newline :: x) := .here isLine_V (by decide)
  rw [vSection, List.append_assoc, List.append_assoc]
  exact h

theorem skipped_recipients (hmime : Lossless mime) (h : ∀ r ∈ after, ¬MarksW r.1) :
    Skipped 99 (bytes "W:" <+: ·) (after.flatMap (recipient mime)) := by
  induction after with
  | nil => exact .nil
  | cons r after ih =>
      obtain ⟨hr, hafter⟩ := List.forall_mem_cons.1 h
      rw [List.flatMap_cons]
      exact (skipped_recipient hmime hr r.2).append (ih hafter)

/-- The sections in front of the right one are passed over, and so are those behind
it on the way to the W section. -/
theorem returns_decryptStream_listed (hmime : Lossless mime) (hd : newline ∉ d.val)
    (hlen : d.val.length < 126)
    (hbefore : ∀ r ∈ before, newline ∉ r.1.val ∧ r.1 ≠ d ∧ ¬Misled d r.1)
    (hafter : ∀ r ∈ after, ¬MarksW r.1) (hc : Opens stream K c m) (hreveal : reveal U V = (1, K)) :
    Returns (fmtDecryptStream mime stream reveal stack d
      ⟨messageText mime U (before ++ (d, V) :: after) c, false⟩) (m, 1) := by
  have hfinds := (lacks_recipients hmime hbefore).finds
    (finds_recipient hmime d V (after.flatMap (recipient mime) ++ wSection mime c))
  have hid := returns_findId_finds hlen hd hfinds stack.s
  have hsplit : (before ++ (d, V) :: after).flatMap (recipient mime) ++ wSection mime c =
      before.flatMap (recipient mime) ++ (recipient mime (d, V) ++
        (after.flatMap (recipient mime) ++ wSection mime c)) := by
    simp [List.flatMap_append, List.flatMap_cons, List.append_assoc]
  rw [← hsplit] at hid
  have hV := (skipped_newline (s := bytes "V:") (by decide)).firstLine
    (firstLine_vSection mime V (after.flatMap (recipient mime) ++ wSection mime c))
  have hget := returns_mimeGet_text hmime V (after.flatMap (recipient mime) ++ wSection mime c)
  have hW := (skipped_recipients hmime hafter).firstLine
    (firstLine_W (text mime c ++ newline :: bytes "-----END IBE-----\n"))
  refine (returns_decryptStream_some stack hmime hid hV hget).2 ?_
  simp only [hreveal, ne_eq, not_true_eq_false, if_false]
  exact returns_decryptBody hmime hc hW stack.input

theorem lacks_message (hmime : Lossless mime)
    (h : ∀ r ∈ rs, newline ∉ r.1.val ∧ r.1 ≠ d ∧ ¬Misled d r.1) (c : ByteString) :
    Lacks d.val (rs.flatMap (recipient mime) ++ wSection mime c) :=
  (lacks_recipients hmime h).append (.done (skipped_wSection hmime c))

theorem firstLine_message (hmime : Lossless mime) (hne : rs ≠ []) (c : ByteString) :
    ∃ r, r ≠ [] ∧
      FirstLine 99 (bytes "ID:" <+: ·) (rs.flatMap (recipient mime) ++ wSection mime c) r := by
  obtain ⟨⟨id, V⟩, rs, rfl⟩ := List.exists_cons_of_ne_nil hne
  refine ⟨id.val ++ ([newline, newline] ++ (vSection mime V ++
    (rs.flatMap (recipient mime) ++ wSection mime c))), by simp, ?_⟩
  rw [List.flatMap_cons, recipient_eq hmime]
  simpa only [List.append_assoc] using firstLine_ID (id.val ++ ([newline, newline] ++
    (vSection mime V ++ (rs.flatMap (recipient mime) ++ wSection mime c))))

theorem fst_of_mem_zip {ids : List CString} {Vs : List ByteString} {r : CString × ByteString}
    (h : r ∈ ids.zip Vs) : r.1 ∈ ids := (List.of_mem_zip (a := r.1) (b := r.2) h).1

theorem Fine.roundTrips {ids : List CString} (hne : ids ≠ []) (hids : ∀ id ∈ ids, newline ∉ id.val)
    (hd : newline ∉ d.val) (h : Fine ids d) : RoundTrips ids d := by
  intro E D C mime stream hide K input hmime hstream hlen
  obtain ⟨chunks, hchunks, rfl, hfile⟩ :=
    returns_encryptStream stream hmime hide K ids input
  refine ⟨_, hfile, fun stack reveal => ⟨fun hmem V hfind hreveal => ?_, fun hmem => ?_⟩⟩
  · obtain ⟨hd126, hsplit⟩ := h.listed hmem
    obtain ⟨-, before, after, hzip, hfirst⟩ := List.find?_eq_some_iff_append.1 hfind
    have hfst : ids = before.map Prod.fst ++ d :: after.map Prod.fst := by
      have hmap := congrArg (List.map Prod.fst) hzip
      rwa [List.map_fst_zip hlen.ge, List.map_append, List.map_cons] at hmap
    have hbefore : ∀ r ∈ before, r.1 ≠ d := by
      intro r hr
      simpa using hfirst r hr
    obtain ⟨hmis, hmarks⟩ := hsplit _ _ hfst (by
      rintro hd
      obtain ⟨r, hr, rfl⟩ := List.mem_map.1 hd
      exact hbefore r hr rfl)
    rw [hzip]
    refine returns_decryptStream_listed hmime hd hd126 (fun r hr => ⟨?_, hbefore r hr, ?_⟩)
      (fun r hr => hmarks _ (List.mem_map_of_mem hr)) (hstream K chunks hchunks) hreveal
    · exact hids _ (hfst ▸ List.mem_append_left _ (List.mem_map_of_mem hr))
    · exact hmis _ (List.mem_map_of_mem hr)
  · apply returns_decryptStream_none hmime
    rcases h.unlisted hmem with ⟨hd126, hmis⟩ | ⟨hd126, hpos⟩
    · refine returns_findId_lacks hd126 (lacks_message hmime (fun r hr => ?_) _) stack.s
      have hr := fst_of_mem_zip hr
      exact ⟨hids _ hr, fun heq => hmem (heq ▸ hr), hmis _ hr⟩
    · have hzip : ids.zip (hide ids K).2 ≠ [] := by
        intro hnil
        have hzero := congrArg List.length hnil
        rw [List.length_zip, hlen, Nat.min_self] at hzero
        exact hne (List.length_eq_zero_iff.1 hzero)
      obtain ⟨r, hr, hfirst⟩ := firstLine_message hmime hzip (ciphertext stream K chunks)
      exact returns_findId_long_pos hd126 hpos hfirst hr stack.s

end Enough

end IdBasedEncryption.MessageFiles
