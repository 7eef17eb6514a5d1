import IdBasedEncryption.Format

namespace IdBasedEncryption.StreamTermination

open ByteStrings FuelLoops Stdio Format

variable {E D C : Type} {mime : Mime E D} {stream : CryptoStream C}

section Scan

theorem scans_advanceTo {s : ByteString} (hs : 0 ∉ s) :
    Scans 99 (s <+: ·) (advanceToRound s) Prod.snd id where
  line {c l bs} hf hl hp := by
    obtain ⟨line, fp⟩ := c
    obtain rfl : fp = ⟨l ++ bs, false⟩ := hf
    have hread : fgets line cryptBufSize ⟨l ++ bs, false⟩ = _ := fgets_line hl line bs false
    have hcmp := (strncmp_stored hs l line).2 hp
    exact ⟨⟨bs, false⟩, by simp [advanceToRound, hread, hcmp], rfl⟩
  next {c l bs} hf hl hp := by
    obtain ⟨line, fp⟩ := c
    obtain rfl : fp = ⟨l ++ bs, false⟩ := hf
    have hread : fgets line cryptBufSize ⟨l ++ bs, false⟩ = _ := fgets_line hl line bs false
    have hcmp := mt (strncmp_stored hs l line).1 hp
    exact ⟨(stored l line, ⟨bs, false⟩), by simp [advanceToRound, hread, hcmp], rfl⟩
  tail {c bs eof} hf ht := by
    obtain ⟨line, fp⟩ := c
    obtain rfl : fp = ⟨bs, eof⟩ := hf
    have hread : fgets line cryptBufSize ⟨bs, eof⟩ = _ := fgets_tail ht line eof
    exact ⟨atEnd, by simp [advanceToRound, hread, atEnd], rfl⟩

theorem scans_mimeGet (mime : Mime E D) : Scans 99 (strlen · ≤ 2) (mimeGetRound mime) MimeGet.fp MimeGet.fp where
  line {c l bs} hf hl hp := by
    obtain ⟨line, fp, ctx, out⟩ := c
    obtain rfl : fp = ⟨l ++ bs, false⟩ := hf
    have hread : fgets line cryptBufSize ⟨l ++ bs, false⟩ = _ := fgets_line hl line bs false
    exact ⟨⟨stored l line, ⟨bs, false⟩, ctx, out⟩, by
      simp [mimeGetRound, hread, strlen_stored, hp], rfl⟩
  next {c l bs} hf hl hp := by
    obtain ⟨line, fp, ctx, out⟩ := c
    obtain rfl : fp = ⟨l ++ bs, false⟩ := hf
    have hread : fgets line cryptBufSize ⟨l ++ bs, false⟩ = _ := fgets_line hl line bs false
    have hround : mimeGetRound mime ⟨line, ⟨l ++ bs, false⟩, ctx, out⟩ = _ :=
      (if_neg (by rw [hread]; exact Bool.false_ne_true)).trans
        (if_neg (by rwa [hread, strlen_stored]))
    exact ⟨_, hround, by rw [hread]⟩
  tail {c bs eof} hf ht := by
    obtain ⟨line, fp, ctx, out⟩ := c
    obtain rfl : fp = ⟨bs, eof⟩ := hf
    have hread : fgets line cryptBufSize ⟨bs, eof⟩ = _ := fgets_tail ht line eof
    exact ⟨_, by simp [mimeGetRound, hread, atEnd]; rfl, rfl⟩

theorem returns_advanceTo {s : ByteString} (hs : 0 ∉ s) {f : File} (hf : Sound f) :
    ∃ g, Returns (advanceTo s f) g ∧ Reached 99 (s <+: ·) f g :=
  (scans_advanceTo hs).returns (s := ([], f)) (by norm_num) hf

theorem returns_mimeGet (mime : Mime E D) {f : File} (hf : Sound f) :
    ∃ U g, Returns (mimeGet mime f) (U, g) ∧ Reached 99 (strlen · ≤ 2) f g := by
  obtain ⟨c, hrun, hreached⟩ := (scans_mimeGet mime).returns
    (s := ⟨[], f, mime.decodeInit, []⟩) (by norm_num) hf
  exact ⟨_, c.fp, hrun.bind (returns_some _), hreached⟩

end Scan

section Id

/-- The line that `fgets` reads behind a marker, and where it leaves the file. -/
def candidate (id : CString) (s bs : ByteString) : ByteString × File := fgets s (slen id) ⟨bs, false⟩

/-- `rest` is what follows the line of the first ID that is found. -/
inductive IdSection (id : CString) : ByteString → ByteString → ByteString → Prop
  | found {s bs r : ByteString} (h : FirstLine 99 (bytes "ID:" <+: ·) bs r)
      (hm : idMatches id (candidate id s r).1 = true) : IdSection id s bs (candidate id s r).2.rest
  | next {s bs r rest : ByteString} (h : FirstLine 99 (bytes "ID:" <+: ·) bs r)
      (hm : ¬idMatches id (candidate id s r).1 = true)
      (hn : IdSection id (candidate id s r).1 (candidate id s r).2.rest rest) :
      IdSection id s bs rest

variable {id : CString} {s bs rest rest' : ByteString}

theorem IdSection.unique (h : IdSection id s bs rest) (h' : IdSection id s bs rest') :
    rest = rest' := by
  induction h with
  | found h hm =>
      cases h' with
      | found h' hm' => rw [h.unique h']
      | next h' hm' hn' => exact absurd (h.unique h' ▸ hm) hm'
  | next h hm hn ih =>
      cases h' with
      | found h' hm' => exact absurd (h.unique h' ▸ hm') hm
      | next h' hm' hn' =>
          obtain rfl := h.unique h'
          exact ih hn'

theorem bmod_of_lt {n : Nat} (h : n < 126) : ((n : Int) + 2).bmod 256 = (n + 1 : Nat) + 1 := by
  rw [Int.bmod_def]
  omega

theorem slen_of_lt (h : id.val.length < 126) : slen id = (id.val.length + 1 : Nat) + 1 :=
  bmod_of_lt h

theorem candidate_sound (h : id.val.length < 126) (s bs : ByteString) :
    Sound (candidate id s bs).2 ∧ (candidate id s bs).2.rest.length ≤ bs.length := by
  rw [candidate, slen_of_lt h]
  rcases exists_line_or_isTail (Nat.succ_pos id.val.length) bs with ⟨l, r, rfl, hl⟩ | ht
  · rw [fgets_line hl]
    exact ⟨fun heof => absurd heof Bool.false_ne_true, by simp⟩
  · rw [fgets_tail ht]
    exact ⟨fun _ => rfl, Nat.zero_le _⟩

theorem FirstLine.length_lt {n : Nat} {p : ByteString → Prop} (h : FirstLine n p bs rest) :
    rest.length < bs.length := by
  induction h with
  | here hl hp =>
      have hpos := hl.pos
      rw [List.length_append]
      omega
  | next hl hp h ih =>
      rw [List.length_append]
      omega

theorem zero_notMem_marker : 0 ∉ bytes "ID:" ∧ 0 ∉ bytes "U:" ∧ 0 ∉ bytes "V:" ∧
    0 ∉ bytes "W:" ∧ 0 ∉ bytes "-----BEGIN IBE-----" := by
  decide

theorem returns_findIdRound (id : CString) {f : File} (s : ByteString)
    (h : Returns (advanceTo (bytes "ID:") f) ⟨rest, false⟩) :
    Returns (findIdRound id (s, f))
      (if idMatches id (candidate id s rest).1 then .inl (some (candidate id s rest).2)
        else .inr (candidate id s rest)) :=
  h.bind (returns_some _)

theorem returns_findId_inr {f : File} {c : ByteString × File} {r : Option File}
    (h : Returns (findIdRound id (s, f)) (.inr c)) (ht : Returns (findId id c.1 c.2) r) :
    Returns (findId id s f) r :=
  returns_nest_inr h ht

/-- The search for the ID always ends. -/
theorem returns_findId (hid : id.val.length < 126) (s : ByteString) {f : File} (hf : Sound f) :
    (Returns (findId id s f) none ∧ ∀ rest, ¬IdSection id s f.rest rest) ∨
      ∃ g, Returns (findId id s f) (some g) ∧ Sound g ∧ IdSection id s f.rest g.rest := by
  induction hk : f.rest.length using Nat.strong_induction_on generalizing s f with
  | _ k ih =>
      obtain ⟨g, hrun, hreached⟩ := returns_advanceTo zero_notMem_marker.1 hf
      by_cases heof : g.eof = true
      · left
        have hround : Returns (findIdRound id (s, f)) (.inl none) :=
          hrun.bind (by simpa [heof] using returns_some _)
        have hno (r : ByteString) : ¬FirstLine 99 (bytes "ID:" <+: ·) f.rest r := by
          intro h
          rcases hreached.behind with hb | ⟨hb, -⟩
          · have hfalse := hreached.eof_iff.2 hb
            rw [heof] at hfalse
            cases hfalse
          · exact h.not_noLine hb
        refine ⟨returns_nest_inl hround, fun rest h => ?_⟩
        cases h with
        | found h hm => exact hno _ h
        | next h hm hn => exact hno _ h
      · rw [Bool.not_eq_true] at heof
        have hfirst := hreached.eof_iff.1 heof
        have hg : g = ⟨g.rest, false⟩ := by rw [← heof]
        obtain ⟨hsound, hlen⟩ := candidate_sound hid s g.rest
        have hround := returns_findIdRound id s (hg ▸ hrun)
        by_cases hm : idMatches id (candidate id s g.rest).1 = true
        · right
          rw [if_pos hm] at hround
          exact ⟨_, returns_nest_inl hround, hsound, .found hfirst hm⟩
        · rw [if_neg hm] at hround
          have hlt := FirstLine.length_lt hfirst
          rcases ih _ (by omega) (candidate id s g.rest).1 hsound rfl with ⟨hnone, hno⟩ |
            ⟨g', hsome, hg', hsection⟩
          · left
            refine ⟨returns_findId_inr hround hnone, fun rest h => ?_⟩
            cases h with
            | found h hm' =>
                rw [h.unique hfirst] at hm'
                exact hm hm'
            | next h hm' hn =>
                rw [h.unique hfirst] at hn
                exact hno rest hn
          · exact Or.inr ⟨g', returns_findId_inr hround hsome, hg', .next hfirst hm hsection⟩

end Id

section Body

/-- Some line, an incomplete one at the end included, has fewer than two
characters in front of a NUL. -/
inductive ShortLine : ByteString → Prop
  | line {l rest : ByteString} (hl : IsLine 99 l) (hshort : strlen l < 2) : ShortLine (l ++ rest)
  | tail {bs : ByteString} (ht : IsTail 99 bs) (hne : bs ≠ []) (hshort : strlen bs < 2) :
      ShortLine bs
  | next {l rest : ByteString} (hl : IsLine 99 l) (h : ShortLine rest) : ShortLine (l ++ rest)

theorem not_shortLine_nil : ¬ShortLine [] := by
  intro h
  generalize hb : ([] : ByteString) = b at h
  cases h with
  | line hl hshort => exact absurd hl.pos (by simp_all)
  | tail ht hne hshort => exact hne hb.symm
  | next hl h => exact absurd hl.pos (by simp_all)

theorem shortLine_append_iff {l rest : ByteString} (hl : IsLine 99 l) :
    ShortLine (l ++ rest) ↔ strlen l < 2 ∨ ShortLine rest := by
  constructor
  · intro h
    generalize hb : l ++ rest = b at h
    cases h with
    | line hl' hshort => exact Or.inl ((hl.append_inj hl' hb).1 ▸ hshort)
    | tail ht hne hshort => exact absurd (hb ▸ ht) hl.not_isTail
    | next hl' h => exact Or.inr ((hl.append_inj hl' hb).2 ▸ h)
  · rintro (h | h)
    · exact .line hl h
    · exact .next hl h

/-- An empty file leaves the buffer as it was before the loop. -/
def Stops (input bs : ByteString) : Prop := ShortLine bs ∨ (bs = [] ∧ strlen input < 2)

variable {c : Decipher D C} {r : ByteString × File}

theorem decryptRound_short (hr : fgets c.input cryptBufSize c.fp = r) (h : strlen r.1 < 2) :
    decryptRound mime stream c = .inl { c with input := r.1, fp := r.2 } := by
  subst hr
  exact if_pos h

theorem decryptRound_long (mime : Mime E D) (stream : CryptoStream C)
    (hr : fgets c.input cryptBufSize c.fp = r) (h : ¬strlen r.1 < 2) :
    ∃ t, decryptRound mime stream c = .inr t ∧ t.input = r.1 ∧ t.fp = r.2 := by
  subst hr
  exact ⟨_, if_neg h, rfl, rfl⟩

theorem terminates_of_short (hr : fgets c.input cryptBufSize c.fp = r) (h : strlen r.1 < 2) :
    Terminates (loop (decryptRound mime stream) c) :=
  ⟨_, returns_loop_inl (decryptRound_short hr h)⟩

theorem fgets_cryptBufSize_line {l : ByteString} (hl : IsLine 99 l) (buf bs : ByteString)
    (eof : Bool) : fgets buf cryptBufSize ⟨l ++ bs, eof⟩ = (stored l buf, ⟨bs, eof⟩) :=
  fgets_line hl buf bs eof

theorem fgets_cryptBufSize_tail {bs : ByteString} (ht : IsTail 99 bs) (buf : ByteString)
    (eof : Bool) :
    fgets buf cryptBufSize ⟨bs, eof⟩ = (if bs = [] then buf else stored bs buf, atEnd) :=
  fgets_tail ht buf eof

theorem terminates_of_shortLine {bs : ByteString} (h : ShortLine bs) {c : Decipher D C}
    (hc : c.fp.rest = bs) : Terminates (loop (decryptRound mime stream) c) := by
  induction h generalizing c with
  | @line l rest hl hshort =>
      have hfp : c.fp = ⟨l ++ rest, c.fp.eof⟩ := by rw [← hc]
      have hread := fgets_cryptBufSize_line hl c.input rest c.fp.eof
      rw [← hfp] at hread
      exact terminates_of_short hread (by rwa [strlen_stored])
  | @tail bs ht hne hshort =>
      have hfp : c.fp = ⟨bs, c.fp.eof⟩ := by rw [← hc]
      have hread := fgets_cryptBufSize_tail ht c.input c.fp.eof
      rw [← hfp, if_neg hne] at hread
      exact terminates_of_short hread (by rwa [strlen_stored])
  | @next l rest hl h ih =>
      have hfp : c.fp = ⟨l ++ rest, c.fp.eof⟩ := by rw [← hc]
      have hread := fgets_cryptBufSize_line hl c.input rest c.fp.eof
      rw [← hfp] at hread
      by_cases hshort : strlen (stored l c.input) < 2
      · exact terminates_of_short hread hshort
      · obtain ⟨t, hround, -, htfp⟩ := decryptRound_long mime stream hread hshort
        obtain ⟨a, ha⟩ := ih (c := t) (by rw [htfp])
        exact ⟨a, returns_loop_inr hround ha⟩

theorem not_stops_step (h : ¬Stops c.input c.fp.rest) :
    ∃ t, decryptRound mime stream c = .inr t ∧ ¬Stops t.input t.fp.rest := by
  have hstep {r : ByteString × File} (hr : fgets c.input cryptBufSize c.fp = r)
      (h : ¬strlen r.1 < 2) := decryptRound_long mime stream hr h
  obtain ⟨input, ⟨bs, eof⟩, m, ctx, out⟩ := c
  rw [Stops, not_or, not_and] at h
  obtain ⟨hshort, hempty⟩ := h
  rcases exists_line_or_isTail (n := 99) (by norm_num) bs with ⟨l, rest, rfl, hl⟩ | ht
  · have hlong : ¬strlen (stored l input) < 2 := by
      rw [strlen_stored]
      exact fun hlt => hshort (.line hl hlt)
    obtain ⟨t, hround, htin, htfp⟩ := hstep (fgets_cryptBufSize_line hl input rest eof) hlong
    refine ⟨t, hround, ?_⟩
    rw [htin, htfp]
    rintro (hs | ⟨-, hs⟩)
    · exact hshort (.next hl hs)
    · exact hlong hs
  · -- from here on the buffer keeps what the last read has put there
    have hlong : ¬strlen (if bs = [] then input else stored bs input) < 2 := by
      split
      · rename_i hbs
        exact hempty hbs
      · rename_i hbs
        rw [strlen_stored]
        exact fun hlt => hshort (.tail ht hbs hlt)
    obtain ⟨t, hround, htin, htfp⟩ := hstep (fgets_cryptBufSize_tail ht input eof) hlong
    refine ⟨t, hround, ?_⟩
    rw [htin, htfp]
    rintro (hs | ⟨-, hs⟩)
    · exact not_shortLine_nil hs
    · exact hlong hs

/-- The loop ends exactly when it meets a short line, as it does not look for the
end of the file. -/
theorem terminates_decrypt_iff (c : Decipher D C) :
    Terminates (loop (decryptRound mime stream) c) ↔ Stops c.input c.fp.rest := by
  constructor
  · intro h
    by_contra hstops
    exact not_terminates_loop (I := fun c => ¬Stops c.input c.fp.rest)
      (fun c hc => not_stops_step hc) hstops h
  · rintro (h | ⟨hbs, h⟩)
    · exact terminates_of_shortLine h rfl
    · have hfp : c.fp = ⟨[], c.fp.eof⟩ := by rw [← hbs]
      have htail : IsTail 99 [] := ⟨by norm_num, List.not_mem_nil⟩
      have hread := fgets_cryptBufSize_tail htail c.input c.fp.eof
      rw [← hfp, if_pos rfl] at hread
      exact terminates_of_short hread h

end Body

section Stream

variable {id : CString}

/-- `w` is what the loop for the W section gets to read. -/
def WSection (id : CString) (s bs w : ByteString) : Prop :=
  ∃ b₁ b₂ b₃ b₄ b₅ b₆, Behind 99 (bytes "-----BEGIN IBE-----" <+: ·) bs b₁ ∧
    Behind 99 (bytes "U:" <+: ·) b₁ b₂ ∧ Behind 99 (strlen · ≤ 2) b₂ b₃ ∧
    IdSection id s b₃ b₄ ∧ Behind 99 (bytes "V:" <+: ·) b₄ b₅ ∧
    Behind 99 (strlen · ≤ 2) b₅ b₆ ∧ Behind 99 (bytes "W:" <+: ·) b₆ w

theorem terminates_decryptBody_iff {f : File} (hf : Sound f) (K input : ByteString) :
    Terminates (decryptBody mime stream K input f) ↔
      ∃ w, Behind 99 (bytes "W:" <+: ·) f.rest w ∧ Stops input w := by
  obtain ⟨-, -, -, hW, -⟩ := zero_notMem_marker
  obtain ⟨g, hrun, hreached⟩ := returns_advanceTo hW hf
  have hloop : Terminates (decryptBody mime stream K input f) ↔ Stops input g.rest :=
    hrun.terminates_bind_iff.trans
      ((terminates_loop_map_iff _).trans (terminates_decrypt_iff _))
  rw [hloop]
  constructor
  · intro h
    exact ⟨g.rest, hreached.behind, h⟩
  · rintro ⟨w, hw, h⟩
    rwa [hreached.behind.unique hw]

theorem WSection.unique {s bs w w' : ByteString} (h : WSection id s bs w)
    (h' : WSection id s bs w') : w = w' := by
  obtain ⟨b₁, b₂, b₃, b₄, b₅, b₆, hb₁, hb₂, hb₃, hb₄, hb₅, hb₆, hb₇⟩ := h
  obtain ⟨d₁, d₂, d₃, d₄, d₅, d₆, hd₁, hd₂, hd₃, hd₄, hd₅, hd₆, hd₇⟩ := h'
  obtain rfl := hb₁.unique hd₁
  obtain rfl := hb₂.unique hd₂
  obtain rfl := hb₃.unique hd₃
  obtain rfl := hb₄.unique hd₄
  obtain rfl := hb₅.unique hd₅
  obtain rfl := hb₆.unique hd₆
  exact hb₇.unique hd₇

/-- Only the loop for the W section may run forever. -/
theorem decryptStream_cases (mime : Mime E D) (stream : CryptoStream C) (answer : Int × ByteString)
    (stack : Stack) (hid : id.val.length < 126) (bs : ByteString) :
    (Terminates (fmtDecryptStream mime stream (fun _ _ => answer) stack id ⟨bs, false⟩) ∧
        ∀ w, ¬WSection id stack.s bs w) ∨
      ∃ w, WSection id stack.s bs w ∧
        (Terminates (fmtDecryptStream mime stream (fun _ _ => answer) stack id ⟨bs, false⟩) ↔
          (answer.1 = 1 → Stops stack.input w)) := by
  obtain ⟨-, hU, hV, hW, hbegin⟩ := zero_notMem_marker
  obtain ⟨f₁, hrun₁, h₁⟩ := returns_advanceTo hbegin (f := ⟨bs, false⟩) fun h => by cases h
  obtain ⟨f₂, hrun₂, h₂⟩ := returns_advanceTo hU h₁.sound
  obtain ⟨U, f₃, hrun₃, h₃⟩ := returns_mimeGet mime h₂.sound
  rcases returns_findId hid stack.s h₃.sound with ⟨hrun₄, hno⟩ | ⟨f₄, hrun₄, hs₄, h₄⟩
  · left
    refine ⟨hrun₁.terminates_bind_iff.2 (hrun₂.terminates_bind_iff.2
      (hrun₃.terminates_bind_iff.2 ⟨_, hrun₄.bind (returns_some _)⟩)), ?_⟩
    rintro w ⟨b₁, b₂, b₃, b₄, b₅, b₆, hb₁, hb₂, hb₃, hb₄, -⟩
    obtain rfl := h₁.behind.unique hb₁
    obtain rfl := h₂.behind.unique hb₂
    obtain rfl := h₃.behind.unique hb₃
    exact hno b₄ hb₄
  · right
    obtain ⟨f₅, hrun₅, h₅⟩ := returns_advanceTo hV hs₄
    obtain ⟨V, f₆, hrun₆, h₆⟩ := returns_mimeGet mime h₅.sound
    obtain ⟨f₇, -, h₇⟩ := returns_advanceTo hW h₆.sound
    refine ⟨f₇.rest, ⟨_, _, _, _, _, _, h₁.behind, h₂.behind, h₃.behind, h₄, h₅.behind, h₆.behind,
      h₇.behind⟩, ?_⟩
    refine hrun₁.terminates_bind_iff.trans (hrun₂.terminates_bind_iff.trans
      (hrun₃.terminates_bind_iff.trans (hrun₄.terminates_bind_iff.trans
        (hrun₅.terminates_bind_iff.trans (hrun₆.terminates_bind_iff.trans ?_)))))
    by_cases hanswer : answer.1 = 1
    · simp only [hanswer, ne_eq, not_true_eq_false, if_false, forall_const]
      rw [terminates_decryptBody_iff h₆.sound]
      constructor
      · rintro ⟨w, hw, hstops⟩
        rwa [h₇.behind.unique hw]
      · intro h
        exact ⟨f₇.rest, h₇.behind, h⟩
    · refine iff_of_true ?_ fun h => absurd h hanswer
      simp only [hanswer, ne_eq, not_false_eq_true, if_true]
      exact ⟨_, returns_some _⟩

/-- `FMT_decrypt_stream` ends unless it gets to read a W section without a short
line. The key-revealing step may answer anything. -/
theorem terminates_decryptStream_iff (mime : Mime E D) (stream : CryptoStream C)
    (answer : Int × ByteString) (stack : Stack) (hid : id.val.length < 126) (bs : ByteString) :
    Terminates (fmtDecryptStream mime stream (fun _ _ => answer) stack id ⟨bs, false⟩) ↔
      ∀ w, WSection id stack.s bs w → answer.1 = 1 → Stops stack.input w := by
  rcases decryptStream_cases mime stream answer stack hid bs with ⟨hrun, hno⟩ | ⟨w, hw, hiff⟩
  · exact iff_of_true hrun fun w hw => absurd hw (hno w)
  · rw [hiff]
    constructor
    · intro h w' hw' hanswer
      rw [← hw.unique hw']
      exact h hanswer
    · intro h
      exact h w hw

/-- The beginning of a message for the ID `A`, up to the W section. -/
def messageFor (w : ByteString) : ByteString :=
  bytes "-----BEGIN IBE-----\n" ++ (bytes "U:\n" ++ (bytes "\n" ++ (bytes "ID:\n" ++
    (bytes "A\n" ++ (bytes "V:\n" ++ (bytes "\n" ++ (bytes "W:\n" ++ w)))))))

def idA : CString := charstarFromByteString (bytes "A")

theorem isLine_of_lt {n : Nat} {l : ByteString} (h : 0 < l.length ∧ l.length ≤ n)
    (hbody : newline ∉ l.dropLast) (hlast : l.getLast? = some newline) : IsLine n l :=
  ⟨h.1, h.2, hbody, fun _ => hlast⟩

theorem behind_here {p : ByteString → Prop} {l : ByteString} (rest : ByteString)
    (h : 0 < l.length ∧ l.length ≤ 99) (hbody : newline ∉ l.dropLast)
    (hlast : l.getLast? = some newline) (hp : p l) : Behind 99 p (l ++ rest) rest :=
  Or.inl (.here (isLine_of_lt h hbody hlast) hp)

theorem idSection_A (rest : ByteString) :
    IdSection idA [] (bytes "ID:\n" ++ (bytes "A\n" ++ rest)) rest := by
  have hid : IsLine 99 (bytes "ID:\n") :=
    isLine_of_lt (by decide) (by decide) (by decide)
  have hA : IsLine 2 (bytes "A\n") :=
    isLine_of_lt (by decide) (by decide) (by decide)
  have hslen : slen idA = (2 : Nat) + 1 := by decide
  have hcandidate : candidate idA [] (bytes "A\n" ++ rest) =
      (stored (bytes "A\n") [], ⟨rest, false⟩) := by
    rw [candidate, hslen]
    exact fgets_line hA [] rest false
  have hmatch : idMatches idA (stored (bytes "A\n") []) = true := by decide
  have hfirst : FirstLine 99 (bytes "ID:" <+: ·) (bytes "ID:\n" ++ (bytes "A\n" ++ rest))
      (bytes "A\n" ++ rest) := .here hid (by decide)
  have hfound := IdSection.found (s := []) hfirst (by rw [hcandidate]; exact hmatch)
  rwa [hcandidate] at hfound

theorem wSection_messageFor (w : ByteString) : WSection idA [] (messageFor w) w :=
  ⟨_, _, _, _, _, _,
    behind_here _ (by decide) (by decide) (by decide) (by decide),
    behind_here _ (by decide) (by decide) (by decide) (by decide),
    behind_here _ (by decide) (by decide) (by decide) (by decide),
    idSection_A _,
    behind_here _ (by decide) (by decide) (by decide) (by decide),
    behind_here _ (by decide) (by decide) (by decide) (by decide),
    behind_here _ (by decide) (by decide) (by decide) (by decide)⟩

def plainMime : Mime Unit Unit :=
  ⟨(), fun _ bs => ((), bs), fun _ => [], (), fun _ bs => ((), bs), fun _ => []⟩

def plainStream : CryptoStream Unit :=
  ⟨fun _ => (), fun _ bs => ((), bs), fun _ => [], fun _ => (), fun _ bs => ((), bs),
    fun _ _ => (1, [])⟩

theorem isLine_AAAA : IsLine 99 (bytes "AAAA\n") :=
  isLine_of_lt (by decide) (by decide) (by decide)

/-- A blank line behind the last one is enough. -/
theorem terminates_decryptStream_messageFor :
    Terminates (fmtDecryptStream plainMime plainStream (fun _ _ => (1, [])) ⟨[], []⟩ idA
      ⟨messageFor (bytes "AAAA\n" ++ (bytes "\n" ++ [])), false⟩) := by
  apply (terminates_decryptStream_iff plainMime plainStream (1, []) ⟨[], []⟩ (by decide) _).2
  intro w hw _
  obtain rfl := (wSection_messageFor _).unique hw
  have hblank : IsLine 99 (bytes "\n") :=
    isLine_of_lt (by decide) (by decide) (by decide)
  exact Or.inl (.next isLine_AAAA (.line hblank (by decide)))

/-- A message that is cut off within the W section is read forever. -/
theorem not_terminates_decryptStream :
    ¬∀ (answer : Int × ByteString) (stack : Stack) (id : CString) (bs : ByteString),
      id.val.length < 126 →
      Terminates (fmtDecryptStream plainMime plainStream (fun _ _ => answer) stack id
        ⟨bs, false⟩) := by
  intro h
  have hrun := h (1, []) ⟨[], []⟩ idA (messageFor (bytes "AAAA\n" ++ [])) (by decide)
  have hw := wSection_messageFor (bytes "AAAA\n" ++ [])
  have hlong : ¬strlen (bytes "AAAA\n") < 2 := by decide
  have hid : idA.val.length < 126 := by decide
  rcases decryptStream_cases plainMime plainStream (1, []) ⟨[], []⟩ hid
    (messageFor (bytes "AAAA\n" ++ [])) with ⟨-, hno⟩ | ⟨w, hw', hiff⟩
  · exact hno _ hw
  · obtain rfl := hw.unique hw'
    rcases hiff.1 hrun rfl with hshort | ⟨hempty, -⟩
    · rcases (shortLine_append_iff isLine_AAAA).1 hshort with hs | hs
      · exact hlong hs
      · exact not_shortLine_nil hs
    · exact absurd hempty (by decide)

end Stream

end IdBasedEncryption.StreamTermination
