import IdBasedEncryption.CryptFiles

namespace IdBasedEncryption.RecipientSearch

open ByteStrings FuelLoops Stdio WholeLines Format StreamTermination CryptFiles

/-- The search for the line `d` behind a marker ends in front of `rest`. Whatever
is read behind another marker is skipped. -/
inductive Finds (d : ByteString) : ByteString → ByteString → Prop
  | here {bs rest : ByteString} (h : FirstLine 99 (bytes "ID:" <+: ·) bs (d ++ newline :: rest)) :
      Finds d bs rest
  | next {bs l bs' rest : ByteString} (h : FirstLine 99 (bytes "ID:" <+: ·) bs (l ++ bs'))
      (hl : IsLine (d.length + 1) l) (hne : l ≠ d ++ [newline]) (hr : Finds d bs' rest) :
      Finds d bs rest

/-- The search ends at the end of the text. -/
inductive Lacks (d : ByteString) : ByteString → Prop
  | done {bs : ByteString} (h : Skipped 99 (bytes "ID:" <+: ·) bs) : Lacks d bs
  | next {bs l bs' : ByteString} (h : FirstLine 99 (bytes "ID:" <+: ·) bs (l ++ bs'))
      (hl : IsLine (d.length + 1) l) (hne : l ≠ d ++ [newline]) (hr : Lacks d bs') : Lacks d bs

section Texts

variable {d a bs rest x : ByteString}

theorem Finds.skip (h : Finds d bs rest) (ha : Skipped 99 (bytes "ID:" <+: ·) a) :
    Finds d (a ++ bs) rest := by
  cases h with
  | here h => exact .here (ha.firstLine h)
  | next h hl hne hr => exact .next (ha.firstLine h) hl hne hr

theorem Lacks.skip (h : Lacks d bs) (ha : Skipped 99 (bytes "ID:" <+: ·) a) :
    Lacks d (a ++ bs) := by
  cases h with
  | done h => exact .done (ha.append h)
  | next h hl hne hr => exact .next (ha.firstLine h) hl hne hr

/-- What lies behind does not matter once the line is found. -/
theorem Finds.append (h : Finds d bs rest) (x : ByteString) : Finds d (bs ++ x) (rest ++ x) := by
  induction h with
  | here h =>
      apply Finds.here
      simpa using firstLine_append h x
  | next h hl hne hr ih =>
      refine .next ?_ hl hne ih
      simpa using firstLine_append h x

theorem Lacks.finds (h : Lacks d bs) (hx : Finds d x rest) : Finds d (bs ++ x) rest := by
  induction h with
  | done h => exact hx.skip h
  | next h hl hne hr ih =>
      refine .next ?_ hl hne ih
      simpa using firstLine_append h x

theorem Lacks.append (h : Lacks d bs) (hx : Lacks d x) : Lacks d (bs ++ x) := by
  induction h with
  | done h => exact hx.skip h
  | next h hl hne hr ih =>
      refine .next ?_ hl hne ih
      simpa using firstLine_append h x

theorem suffix_of_firstLine {n : Nat} {p : ByteString → Prop} (h : FirstLine n p bs rest) :
    rest <:+ bs := by
  obtain ⟨a, l, rfl, -⟩ := FirstLine.exists_append h
  exact ⟨a ++ l, List.append_assoc ..⟩

theorem Finds.suffix (h : Finds d bs rest) : rest <:+ bs := by
  induction h with
  | @here bs rest h =>
      have hsuffix : rest <:+ d ++ newline :: rest := ⟨d ++ [newline], by simp⟩
      exact hsuffix.trans (suffix_of_firstLine h)
  | next h hl hne hr ih => exact (ih.trans (List.suffix_append ..)).trans (suffix_of_firstLine h)

end Texts

section Closed

variable {bs r : ByteString}

/-- A text that ends with a blank line, as far as it is long enough. -/
def Closed (bs : ByteString) : Prop := bs <:+ [newline, newline] ∨ [newline, newline] <:+ bs

theorem Closed.of_suffix (h : Closed bs) (hr : r <:+ bs) : Closed r := by
  rcases h with h | h
  · exact Or.inl (hr.trans h)
  · exact List.suffix_or_suffix_of_suffix hr h

theorem Closed.whole (h : Closed bs) : Whole bs := by
  rcases h with ⟨a, ha⟩ | ⟨a, rfl⟩
  · have hwhole : Whole (a ++ bs) := by
      rw [ha]
      exact Or.inr rfl
    exact hwhole.of_append
  · exact Or.inr (by simp)

/-- There is always a line behind a marker. -/
theorem Closed.exists_line (h : Closed bs) {n : Nat} (hn : 0 < n)
    (hfirst : FirstLine 99 (bytes "ID:" <+: ·) bs r) :
    ∃ l r', r = l ++ r' ∧ IsLine n l ∧ Closed r' := by
  have hr := h.of_suffix (suffix_of_firstLine hfirst)
  have hne : r ≠ [] := by
    rintro rfl
    obtain ⟨a, l, rfl, -, hl, hp⟩ := FirstLine.exists_append hfirst
    rw [List.append_nil] at h
    have hlen : 3 ≤ l.length := hp.length_le
    -- the marker is not the blank line, which has no room for it
    have hblank : [newline, newline] <:+ l := by
      rcases h.of_suffix (List.suffix_append a l) with hs | hs
      · have hle : l.length ≤ 2 := hs.length_le
        omega
      · exact hs
    obtain ⟨c, rfl⟩ := hblank
    exact hl.body (by simp)
  obtain ⟨l, r', rfl, hl, -⟩ := hr.whole.exists_line hne hn
  exact ⟨l, r', rfl, hl, hr.of_suffix (List.suffix_append ..)⟩

/-- In such a text the search either succeeds or reaches the end. -/
theorem Closed.finds_or_lacks (h : Closed bs) (d : ByteString) :
    (∃ rest, Finds d bs rest) ∨ Lacks d bs := by
  induction hk : bs.length using Nat.strong_induction_on generalizing bs with
  | _ k ih =>
      rcases firstLine_or_skipped (n := 99) (by norm_num) (bytes "ID:" <+: ·) h.whole with ⟨r, hfirst⟩ | hskip
      · obtain ⟨l, r', rfl, hl, hr'⟩ := h.exists_line (Nat.succ_pos d.length) hfirst
        by_cases heq : l = d ++ [newline]
        · subst heq
          rw [List.append_assoc] at hfirst
          exact Or.inl ⟨r', .here hfirst⟩
        · have hlt : r'.length < k := by
            have hshort := FirstLine.length_lt hfirst
            rw [List.length_append] at hshort
            omega
          rcases ih r'.length hlt hr' rfl with ⟨rest, hfinds⟩ | hlacks
          · exact Or.inl ⟨rest, .next hfirst hl heq hfinds⟩
          · exact Or.inr (.next hfirst hl heq hlacks)
      · exact Or.inr (.done hskip)

end Closed

section Run

variable {id : CString} {bs l rest : ByteString}

/-- A line is the right one when it is the ID and nothing else. -/
theorem idMatches_stored (hl : IsLine (id.val.length + 1) l) (s : ByteString) :
    idMatches id (stored l s) = true ↔ l = id.val ++ [newline] := by
  rw [idMatches, strncmp_comm, Bool.and_eq_true, strncmp_stored id.property, decide_eq_true_eq]
  constructor
  · rintro ⟨hend, r, rfl⟩
    have hlen : r.length ≤ 1 := by
      have hle := hl.le
      rw [List.length_append] at hle
      omega
    match r, hlen with
    | [], _ =>
        have h0 : (stored (id.val ++ []) s).getD id.val.length 0 = 0 := by simp [stored]
        rw [h0] at hend
        exact absurd hend (by decide)
    | [c], _ =>
        have hc : (stored (id.val ++ [c]) s).getD id.val.length 0 = c := by simp [stored]
        rw [← hend, hc]
  · rintro rfl
    exact ⟨by simp [stored], List.prefix_append ..⟩

theorem candidate_line (hid : id.val.length < 126) (hl : IsLine (id.val.length + 1) l)
    (s bs : ByteString) : candidate id s (l ++ bs) = (stored l s, ⟨bs, false⟩) := by
  rw [candidate, slen_of_lt hid]
  exact fgets_line hl s bs false

theorem returns_findId_finds (hid : id.val.length < 126) (hnl : newline ∉ id.val)
    (h : Finds id.val bs rest) (s : ByteString) :
    Returns (findId id s ⟨bs, false⟩) (some ⟨rest, false⟩) := by
  induction h generalizing s with
  | @here bs rest h =>
      have hl : IsLine (id.val.length + 1) (id.val ++ [newline]) :=
        isLine_append_newline hnl (Nat.lt_succ_self _)
      have hrun := returns_findIdRound id s
        (returns_advanceTo_firstLine zero_notMem_marker.1 h)
      have hcandidate := candidate_line hid hl s rest
      rw [List.append_assoc, List.singleton_append] at hcandidate
      rw [hcandidate, if_pos ((idMatches_stored hl s).2 rfl)] at hrun
      exact returns_nest_inl hrun
  | @next bs l bs' rest h hl hne hr ih =>
      have hrun := returns_findIdRound id s
        (returns_advanceTo_firstLine zero_notMem_marker.1 h)
      rw [candidate_line hid hl, if_neg (mt (idMatches_stored hl s).1 hne)] at hrun
      exact returns_findId_inr hrun (ih (stored l s))

theorem returns_findId_none {s : ByteString}
    (h : Skipped 99 (bytes "ID:" <+: ·) bs) : Returns (findId id s ⟨bs, false⟩) none := by
  have hno : NoLine 99 (bytes "ID:" <+: ·) bs := h.noLine_self (by norm_num)
  obtain ⟨g, hrun, rfl⟩ := (scans_advanceTo zero_notMem_marker.1).returns_of_noLine
    (s := ([], ⟨bs, false⟩)) hno rfl
  have hround : Returns (findIdRound id (s, ⟨bs, false⟩)) (.inl none) := hrun.bind (returns_some _)
  exact returns_nest_inl hround

theorem returns_findId_lacks (hid : id.val.length < 126) (h : Lacks id.val bs) (s : ByteString) :
    Returns (findId id s ⟨bs, false⟩) none := by
  induction h generalizing s with
  | done h => exact returns_findId_none h
  | @next bs l bs' h hl hne hr ih =>
      have hrun := returns_findIdRound id s
        (returns_advanceTo_firstLine zero_notMem_marker.1 h)
      rw [candidate_line hid hl, if_neg (mt (idMatches_stored hl s).1 hne)] at hrun
      exact returns_findId_inr hrun (ih (stored l s))

end Run

section Long

variable {id : CString} {bs r s l : ByteString}

theorem sound_mk (bs : ByteString) : Sound ⟨bs, false⟩ := fun h => absurd h Bool.false_ne_true

theorem bmod_lt {n : Nat} (h : 126 ≤ n) : (((n : Int) + 2).bmod 256 - 1).toNat < n := by
  rw [Int.bmod_def]
  omega

theorem slen_lt (hid : 126 ≤ id.val.length) : (slen id - 1).toNat < id.val.length := bmod_lt hid

/-- A piece that is shorter than the ID is never taken for it. -/
theorem not_idMatches_short (hl : l.length < id.val.length) (s : ByteString) :
    ¬idMatches id (stored l s) = true := by
  rw [idMatches, strncmp_comm, Bool.and_eq_true, strncmp_stored id.property]
  rintro ⟨-, hp⟩
  exact absurd hp.length_le (not_le.2 hl)

/-- What `fgets` reads when the length is positive as a `char`. -/
theorem candidate_pos (hpos : 0 < slen id) (s bs : ByteString) :
    ∃ l, l.length ≤ (slen id - 1).toNat ∧ Sound (candidate id s bs).2 ∧
      (candidate id s bs).2.rest.length ≤ bs.length ∧
      ((candidate id s bs).1 = stored l s ∨ (bs = [] ∧ (candidate id s bs).1 = s)) := by
  rw [candidate, fgets, if_neg (not_le.2 hpos)]
  generalize (slen id - 1).toNat = n
  rcases n.eq_zero_or_pos with rfl | hn
  · exact ⟨[], Nat.le_refl 0, sound_mk bs, Nat.le_refl _, Or.inl rfl⟩
  · rcases exists_line_or_isTail hn bs with ⟨l, rest, rfl, hl⟩ | ht
    · have hne : l ≠ [] := List.ne_nil_of_length_pos hl.pos
      rw [readLine_append hl]
      exact ⟨l, hl.le, sound_mk rest, by simp, Or.inl (by simp [hne, stored])⟩
    · rw [readLine_tail ht]
      refine ⟨bs, ht.lt.le, fun _ => rfl, Nat.zero_le _, ?_⟩
      by_cases hbs : bs = []
      · exact Or.inr ⟨hbs, by simp [hbs]⟩
      · exact Or.inl (by simp [hbs, stored])

theorem candidate_nonpos (hpos : ¬0 < slen id) (s bs : ByteString) :
    candidate id s bs = (s, ⟨bs, false⟩) := by
  rw [candidate, fgets, if_pos (not_lt.1 hpos)]

/-- An ID for which the length does not fit into a `char` is never found, unless the
buffer already holds it. -/
theorem returns_findId_long (hid : 126 ≤ id.val.length) (hs : ¬idMatches id s = true) {f : File}
    (hf : Sound f) : Returns (findId id s f) none := by
  induction hk : f.rest.length using Nat.strong_induction_on generalizing s f with
  | _ k ih =>
      obtain ⟨g, hrun, hreached⟩ := returns_advanceTo zero_notMem_marker.1 hf
      by_cases heof : g.eof = true
      · have hround : Returns (findIdRound id (s, f)) (.inl none) :=
          hrun.bind (by simpa [heof] using returns_some _)
        exact returns_nest_inl hround
      · rw [Bool.not_eq_true] at heof
        have hg : g = ⟨g.rest, false⟩ := by rw [← heof]
        have hlt := FirstLine.length_lt (hreached.eof_iff.1 heof)
        have hround := returns_findIdRound id s (hg ▸ hrun)
        have hnext : ¬idMatches id (candidate id s g.rest).1 = true ∧
            Sound (candidate id s g.rest).2 ∧
            (candidate id s g.rest).2.rest.length ≤ g.rest.length := by
          by_cases hpos : 0 < slen id
          · obtain ⟨l, hl, hsound, hle, hbuf⟩ := candidate_pos hpos s g.rest
            refine ⟨?_, hsound, hle⟩
            rcases hbuf with hbuf | ⟨-, hbuf⟩
            · rw [hbuf]
              exact not_idMatches_short (hl.trans_lt (slen_lt hid)) s
            · rw [hbuf]
              exact hs
          · rw [candidate_nonpos hpos]
            exact ⟨hs, sound_mk g.rest, Nat.le_refl _⟩
        rw [if_neg hnext.1] at hround
        exact returns_findId_inr hround (ih _ (by omega) hnext.1 hnext.2.1 rfl)

/-- The same for any buffer, when `fgets` reads something behind the first marker. -/
theorem returns_findId_long_pos (hid : 126 ≤ id.val.length) (hpos : 0 < slen id)
    (h : FirstLine 99 (bytes "ID:" <+: ·) bs r) (hr : r ≠ []) (s : ByteString) :
    Returns (findId id s ⟨bs, false⟩) none := by
  have hround := returns_findIdRound id s
    (returns_advanceTo_firstLine zero_notMem_marker.1 h)
  obtain ⟨l, hl, hsound, -, hbuf⟩ := candidate_pos hpos s r
  obtain hbuf | ⟨hnil, -⟩ := hbuf
  · have hno : ¬idMatches id (candidate id s r).1 = true := by
      rw [hbuf]
      exact not_idMatches_short (hl.trans_lt (slen_lt hid)) s
    rw [if_neg hno] at hround
    exact returns_findId_inr hround (returns_findId_long hid hno hsound)
  · exact absurd hnil hr

/-- Without a positive length the buffer decides. -/
theorem returns_findId_nonpos (hpos : ¬0 < slen id)
    (h : FirstLine 99 (bytes "ID:" <+: ·) bs r) (s : ByteString) :
    Returns (findId id (stored (id.val ++ [newline]) s) ⟨bs, false⟩) (some ⟨r, false⟩) := by
  have hround := returns_findIdRound id (stored (id.val ++ [newline]) s)
    (returns_advanceTo_firstLine zero_notMem_marker.1 h)
  have hmatch : idMatches id (stored (id.val ++ [newline]) s) = true := by
    rw [idMatches, strncmp_comm, Bool.and_eq_true, strncmp_stored id.property, decide_eq_true_eq]
    exact ⟨by simp [stored], List.prefix_append ..⟩
  rw [candidate_nonpos hpos, if_pos hmatch] at hround
  exact returns_nest_inl hround

end Long

end IdBasedEncryption.RecipientSearch
