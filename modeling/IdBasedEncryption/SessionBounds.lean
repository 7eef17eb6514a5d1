import IdBasedEncryption.RequestAgreement
import IdBasedEncryption.SessionWrites

namespace IdBasedEncryption.SessionBounds

open ByteStrings FuelLoops Stdio PkgHtml FormFields RequestAgreement AccessTraces InPlaceDecoding
open SessionWrites

section Lines

def frontLine : ByteString → ByteString
  | [] => []
  | c :: s => if c = newline then [newline] else c :: frontLine s

/-- A line is terminated when it is full, when it ends with a newline and when the
client has closed the connection behind it. -/
def Ended (rc : Int) (k : Nat) (text : ByteString) : Prop :=
  text.length = k ∨ newline ∈ text ∨ rc = 0 ∧ text ≠ []

/-- The return value for a line that is terminated. -/
def returned (text : ByteString) : Nat :=
  if newline ∈ text then text.length else text.length + 1

variable {rc : Int} {s l buf : ByteString}

theorem frontLine_length_le (s : ByteString) : (frontLine s).length ≤ s.length := by
  induction s with
  | nil => exact le_rfl
  | cons c s ih =>
      rw [frontLine]
      split
      · exact Nat.succ_le_succ (Nat.zero_le _)
      · exact Nat.succ_le_succ ih

theorem frontLine_ne_nil (hs : s ≠ []) : frontLine s ≠ [] := by
  cases s with
  | nil => exact absurd rfl hs
  | cons c s =>
      rw [frontLine]
      split <;> exact List.cons_ne_nil _ _

/-- What `myssl_readline` leaves: the text, the return value and the rest of the
stream. -/
structure ReadsLine (rc : Int) (k : Nat) (n : Int) (s : ByteString) (r : Readline) : Prop where
  text : r.text = (frontLine s).take k
  ended : r.ended = true ↔ Ended rc k r.text ∨ rc = 0 ∧ n ≠ 1
  count : r.ended = true → r.n = n - 1 + returned r.text
  rest : r.ended = true → r.ssl = ⟨s.drop r.text.length, rc⟩
  failed : r.ended = false → r.n ≤ 0

theorem readsLine (hrc : rc ≤ 0) (k : Nat) {n : Int} (hn : 1 ≤ n) (s : ByteString) :
    ReadsLine rc k n s (readlineFrom k n ⟨s, rc⟩) := by
  induction k generalizing n s with
  | zero => exact ⟨rfl, by simp [readlineFrom, Ended], by simp [readlineFrom, returned], by simp [readlineFrom], by simp [readlineFrom]⟩
  | succ k ih =>
      cases s with
      | nil =>
          simp only [readlineFrom]
          split_ifs with h₁ h₂
          · exact ⟨rfl, by simp [Ended, h₁], by simp, by simp, fun _ => hrc⟩
          · exact ⟨rfl, by simp [Ended, h₂], by simp, by simp, fun _ => le_rfl⟩
          · exact ⟨rfl, by simp [Ended]; omega, by simp [returned], by simp, by simp⟩
      | cons c s =>
          simp only [readlineFrom]
          split_ifs with hc
          · subst hc
            exact ⟨by simp [frontLine], by simp [Ended], by simp [returned], by simp, by simp⟩
          · obtain ⟨htext, hended, hcount, hrest, hfailed⟩ := ih (n := n + 1) (by omega) s
            refine ⟨?_, ?_, ?_, ?_, hfailed⟩
            · simp only [frontLine, if_neg hc, List.take_succ_cons, htext]
            · rw [hended]
              have hne : n + 1 ≠ 1 := by omega
              by_cases hzero : rc = 0
              · simp [Ended, hzero, hne]
              · simp [Ended, hzero, Ne.symm hc]
            · intro h
              simp only [returned, List.mem_cons, Ne.symm hc, false_or, hcount h, List.length_cons]
              split <;> push_cast <;> ring
            · intro h
              simp only [hrest h, List.length_cons, List.drop_succ_cons]

theorem inBounds_readlineWrites (hrc : rc ≤ 0) (maxlen : Int) (s : ByteString) :
    InBounds (readlineWrites ⟨s, rc⟩ maxlen) ↔ ((frontLine s).take maxlen.toNat).length < bufmax ∨
      ((frontLine s).take maxlen.toNat).length = bufmax ∧
        ¬Ended rc maxlen.toNat ((frontLine s).take maxlen.toNat) := by
  have hr := readsLine hrc maxlen.toNat le_rfl s
  have hended := hr.ended
  rw [hr.text] at hended
  simp only [InBounds, readlineWrites]
  rw [writesIn_fill, hr.text]
  simp only [ne_eq, not_true_eq_false, and_false, or_false] at hended
  rw [← hended, Bool.not_eq_true]
  have hall (n : Nat) : (∀ i < n, i < bufmax) ↔ n ≤ bufmax := by
    refine ⟨fun h => ?_, fun h i hi => lt_of_lt_of_le hi h⟩
    by_contra hlt
    exact lt_irrefl _ (h bufmax (by omega))
  rw [hall]
  split
  · next h => simp only [h, reduceCtorEq, and_false, or_false]; omega
  · next h => simp only [Bool.not_eq_true] at h; simp only [h, and_true]; omega

theorem mysslReadline_ended (hrc : rc ≤ 0) (maxlen : Int) {text : ByteString}
    (htext : text = (frontLine s).take maxlen.toNat) (h : Ended rc maxlen.toNat text)
    (buf : ByteString) : mysslReadline ⟨s, rc⟩ buf maxlen =
      ((returned text : Int), stored text buf, ⟨s.drop text.length, rc⟩) := by
  have hr := readsLine hrc maxlen.toNat le_rfl s
  have hended := hr.ended.2 (.inl (by rw [hr.text, ← htext]; exact h))
  have hcount := hr.count hended
  rw [hr.text, ← htext] at hcount
  simp only [mysslReadline, if_pos hended, hr.rest hended, hr.text, ← htext, hcount]
  rw [sub_self, zero_add]
  rfl

theorem mysslReadline_failed (hrc : rc ≤ 0) (maxlen : Int)
    (h : ¬Ended rc maxlen.toNat ((frontLine s).take maxlen.toNat)) (buf : ByteString) :
    (mysslReadline ⟨s, rc⟩ buf maxlen).1 ≤ 0 := by
  have hr := readsLine hrc maxlen.toNat le_rfl s
  refine hr.failed ?_
  rw [← Bool.not_eq_true, hr.ended, hr.text]
  simpa using h

end Lines

section Fields

/-- No field is copied: before the end of the query or a token without `=` there is
no field named mail or password. -/
def NoCopies : List ByteString → Prop
  | [] => True
  | t :: ts => ∀ name field, index t 61 = some (name, field) →
      name ≠ bytes "mail" ∧ name ≠ bytes "password" ∧ NoCopies ts

variable {log : Log}

/-- The copy of a field lacks the place for the terminator. -/
theorem returns_copyWrites {field : ByteString} (hzero : 0 ∉ field) :
    ∃ l, Returns (copyWrites field) l ∧ ¬InBounds l := by
  obtain ⟨b, -, hb, -⟩ := returns_accesses hzero []
  refine ⟨_, hb.map _, fun h => ?_⟩
  have hfill := writesIn_fill.1 (writesIn_append.1 h).1 field.length (Nat.lt_succ_self _)
  exact lt_irrefl _ hfill

theorem returns_fieldWrites {size : Nat} {q t rest : ByteString}
    (hget : getToken q 38 = some (t, rest)) (hzero : 0 ∉ t) (hsize : t.length < size) :
    ∃ l, Returns (fieldWrites size q) l ∧ (InBounds l ↔ ∀ name field,
      index t 61 = some (name, field) → name ≠ bytes "mail" ∧ name ≠ bytes "password") := by
  have htoken : InBounds (fill (Place.mk size) (t.length + 1)) :=
    writesIn_fill.2 fun i hi => lt_of_lt_of_le hi hsize
  rcases hindex : index t 61 with _ | ⟨name, field⟩
  · have hwrites : fieldWrites size q = fun _ => some (fill (Place.mk size) (t.length + 1)) := by
      funext fuel
      simp only [fieldWrites, hget, hindex]
    refine ⟨_, hwrites ▸ returns_some _, iff_of_true htoken ?_⟩
    intro name field h
    cases h
  · have hname : name.length < size := by
      have hlen := congrArg List.length (eq_of_index hindex)
      simp only [List.length_append, List.length_cons] at hlen
      omega
    have hcut : InBounds (fill (Place.mk size) (t.length + 1) ++ [.write ⟨size, name.length⟩]) :=
      writesIn_append.2 ⟨htoken, writesIn_singleton.2 hname⟩
    by_cases hcopy : name = bytes "mail" ∨ name = bytes "password"
    · have hwrites : fieldWrites size q = fun fuel => (copyWrites field fuel).map fun l =>
          fill (Place.mk size) (t.length + 1) ++ [.write ⟨size, name.length⟩] ++ l := by
        funext fuel
        simp only [fieldWrites, hget, hindex, if_pos hcopy]
      obtain ⟨l, hl, hbad⟩ := returns_copyWrites (zero_notMem_index hzero hindex)
      refine ⟨_, hwrites ▸ hl.map _, iff_of_false ?_ ?_⟩
      · exact fun h => hbad (writesIn_append.1 h).2
      · intro h
        obtain ⟨h₁, h₂⟩ := h name field rfl
        exact hcopy.elim h₁ h₂
    · have hwrites : fieldWrites size q = fun _ =>
          some (fill (Place.mk size) (t.length + 1) ++ [.write ⟨size, name.length⟩]) := by
        funext fuel
        simp only [fieldWrites, hget, hindex, if_neg hcopy]
      refine ⟨_, hwrites ▸ returns_some _, iff_of_true hcut ?_⟩
      rintro name' field' h
      obtain ⟨rfl, rfl⟩ := Prod.mk.inj (Option.some.inj h)
      exact not_or.1 hcopy

theorem returns_processNest {size : Nat} {q : ByteString} (hzero : 0 ∉ q) (hsize : q.length < size)
    (f : Option CString × Option CString) (log : Log) :
    ∃ c, Returns (nest (processRoundLog size) ⟨⟨q, f.1, f.2⟩, log⟩) c ∧
      (InBounds c.log ↔ InBounds log ∧ NoCopies (tokens q)) := by
  induction hk : q.length using Nat.strong_induction_on generalizing q f log with
  | _ k ih =>
      by_cases hnil : q = []
      · subst hnil
        refine ⟨⟨some ⟨[], f.1, f.2⟩, log ++ []⟩, returns_nest_inl (returns_some _), ?_⟩
        rw [List.append_nil]
        exact (and_iff_left trivial).symm
      · obtain ⟨t, rest, hget, rfl, hsuffix, hlt, htokens⟩ := getToken_eq hnil
        have ht : 0 ∉ q.takeWhile (· ≠ 38) := fun h => hzero ((List.takeWhile_prefix _).subset h)
        have hlen : (q.takeWhile (· ≠ 38)).length < size :=
          lt_of_le_of_lt (List.takeWhile_prefix _).length_le hsize
        obtain ⟨l, hl, hbounds⟩ := returns_fieldWrites hget ht hlen
        have hround := returns_processRound (f := f) ht hget
        have hlog {r : Option Process ⊕ Process} (hr : Returns (processRound ⟨q, f.1, f.2⟩) r) :
            Returns (processRoundLog size ⟨⟨q, f.1, f.2⟩, log⟩)
              (Sum.map (Logged.mk · (log ++ l)) (Logged.mk · (log ++ l)) r) :=
          hl.bind (hr.map _)
        rw [htokens, NoCopies]
        rcases hindex : index (q.takeWhile (· ≠ 38)) 61 with _ | ⟨name, field⟩
        · have hadd : addField f (q.takeWhile (· ≠ 38)) = none := by rw [addField, hindex]
          rw [hadd] at hround
          refine ⟨⟨none, log ++ l⟩, returns_nest_inl (hlog hround), ?_⟩
          rw [hindex] at hbounds
          rw [InBounds, writesIn_append]
          exact and_congr Iff.rfl (hbounds.trans (by simp))
        · obtain ⟨g, hg⟩ : ∃ g, addField f (q.takeWhile (· ≠ 38)) = some g := by
            rw [addField, hindex]
            dsimp only
            split_ifs <;> exact ⟨_, rfl⟩
          rw [hg] at hround
          obtain ⟨c, hc, hbad⟩ := ih rest.length (hk ▸ hlt) (fun h => hzero (hsuffix.subset h))
            (hlt.trans hsize) g (log ++ l) rfl
          refine ⟨c, returns_nest_inr (hlog hround) hc, ?_⟩
          rw [hindex] at hbounds
          rw [hbad, InBounds, writesIn_append, and_assoc]
          apply and_congr Iff.rfl
          rw [← InBounds, hbounds]
          constructor
          · rintro ⟨h, hrest⟩ name' field' heq
            obtain ⟨h₁, h₂⟩ := h name' field' heq
            exact ⟨h₁, h₂, hrest⟩
          · intro h
            refine ⟨fun name' field' heq => ?_, (h name field rfl).2.2⟩
            obtain ⟨h₁, h₂, -⟩ := h name' field' heq
            exact ⟨h₁, h₂⟩

theorem returns_processLog {q : ByteString} (hzero : 0 ∉ q) (log : Log) :
    ∃ t, Returns (processLog q log) t ∧ (InBounds t.log ↔ InBounds log ∧ NoCopies (tokens q)) := by
  obtain ⟨c, hc, hbounds⟩ :=
    returns_processNest hzero (Nat.lt_succ_self q.length) (none, none) log
  exact ⟨_, hc.bind ((returns_process hzero).map _), hbounds⟩

end Fields

section Body

/-- The query in a body: line ends behind it are cut off. -/
def queryOf (text : ByteString) : ByteString :=
  (charstarFromByteString (text.rdropWhile isLineEnd)).val

/-- What is taken of the body fits, and nothing of its query is copied. -/
def BodyFits (clength rc : Int) (s : ByteString) : Prop :=
  (((frontLine s).take clength.toNat).length < bufmax ∨
    ((frontLine s).take clength.toNat).length = bufmax ∧
      ¬Ended rc clength.toNat ((frontLine s).take clength.toNat)) ∧
  (Ended rc clength.toNat ((frontLine s).take clength.toNat) →
    NoCopies (tokens (queryOf ((frontLine s).take clength.toNat))))

theorem inBounds_trimWrites {len : Nat} (hlen : len ≤ bufmax) (buf : ByteString) :
    InBounds (trimWrites len buf) := by
  induction len generalizing buf with
  | zero => exact writesIn_nil
  | succ len ih =>
      rw [trimWrites]
      split
      · have hwrite : InBounds [.write ⟨bufmax, len⟩] := writesIn_singleton.2 hlen
        exact writesIn_append.2 ⟨hwrite, ih (Nat.le_of_succ_le hlen) _⟩
      · exact writesIn_nil

theorem trimLine_none {m : ByteString} (hm : ∀ c ∈ m, isLineEnd c = true) (x : ByteString) :
    trimLine m.length (m ++ x) = none := by
  induction m using List.reverseRecOn generalizing x with
  | nil => rfl
  | append_singleton m c ih =>
      have hget : (m ++ [c] ++ x).getD m.length 0 = c := by simp
      have hset : (m ++ [c] ++ x).set m.length 0 = m ++ 0 :: x := by simp
      rw [List.length_append, List.length_singleton, trimLine, hget, if_pos (hm c (by simp)), hset]
      exact ih (fun d hd => hm d (List.mem_append_left _ hd)) (0 :: x)

/-- The terminator counts as a line end. -/
theorem trimLine_returned (text x : ByteString) :
    trimLine (returned text) (text ++ 0 :: x) = trimLine text.length (text ++ 0 :: x) := by
  rw [returned]
  split
  · rfl
  · have hget : (text ++ 0 :: x).getD text.length 0 = 0 := by simp
    have hset : (text ++ 0 :: x).set text.length 0 = text ++ 0 :: x := by simp
    rw [trimLine, hget, if_pos (by decide), hset]

theorem trimLine_stored (text buf : ByteString) :
    (text.rdropWhile isLineEnd = [] ∧ trimLine (returned text) (stored text buf) = none) ∨
      ∃ y, trimLine (returned text) (stored text buf) = some (text.rdropWhile isLineEnd ++ 0 :: y) := by
  obtain ⟨x, hx⟩ : ∃ x, x = buf.drop (text.length + 1) := ⟨_, rfl⟩
  rw [stored, ← hx, trimLine_returned]
  have hsplit := List.rdropWhile_append_rtakeWhile (p := isLineEnd) (l := text)
  have hends : ∀ c ∈ text.rtakeWhile isLineEnd, isLineEnd c = true := fun c hc =>
    List.mem_rtakeWhile_imp hc
  by_cases hnil : text.rdropWhile isLineEnd = []
  · rw [hnil, List.nil_append] at hsplit
    rw [hsplit] at hends
    exact .inl ⟨hnil, trimLine_none hends _⟩
  · have hlast : ∃ c ∈ (text.rdropWhile isLineEnd).getLast?, isLineEnd c = false := by
      refine ⟨_, List.getLast?_eq_some_getLast hnil, ?_⟩
      simpa using List.rdropWhile_last_not isLineEnd text hnil
    obtain ⟨y, hy⟩ := trimLine_append hlast hends x
    rw [← List.length_append, ← List.append_assoc, hsplit] at hy
    exact .inr ⟨y, hy⟩

theorem returned_pos (text : ByteString) : 0 < returned text := by
  rw [returned]
  split
  · next h => exact List.length_pos_of_mem h
  · exact Nat.succ_pos _

variable {rc : Int}

theorem returns_handleBodyLog (hrc : rc ≤ 0) (clength : Int) (buf s : ByteString) (log : Log) :
    ∃ t, Returns (handleBodyLog clength ⟨⟨buf, ⟨s, rc⟩⟩, log⟩) t ∧
      (InBounds t.log ↔ InBounds log ∧ BodyFits clength rc s) := by
  obtain ⟨text, htext⟩ : ∃ text, text = (frontLine s).take clength.toNat := ⟨_, rfl⟩
  have hline := inBounds_readlineWrites hrc clength s
  rw [BodyFits]
  rw [← htext] at hline ⊢
  rw [← hline]
  by_cases hended : Ended rc clength.toNat text
  · have hread := mysslReadline_ended hrc clength htext hended buf
    have hpos : ¬((returned text : Int) ≤ 0) := by
      have h := returned_pos text
      omega
    have htrim : InBounds (readlineWrites ⟨s, rc⟩ clength) →
        InBounds (trimWrites (returned text) (stored text buf)) := by
      intro h
      apply inBounds_trimWrites
      have hlen : text.length < bufmax := by simpa [hended] using hline.1 h
      rw [returned]
      split <;> omega
    have hlog : InBounds (log ++ readlineWrites ⟨s, rc⟩ clength ++
        trimWrites (returned text) (stored text buf)) ↔
          InBounds log ∧ InBounds (readlineWrites ⟨s, rc⟩ clength) := by
      simp only [InBounds] at htrim ⊢
      rw [writesIn_append, writesIn_append]
      tauto
    rcases trimLine_stored text buf with ⟨hnil, hnone⟩ | ⟨y, hsome⟩
    · have hbody : handleBodyLog clength ⟨⟨buf, ⟨s, rc⟩⟩, log⟩ = fun _ =>
          some ⟨⟨[], none⟩, log ++ readlineWrites ⟨s, rc⟩ clength ++
            trimWrites (returned text) (stored text buf)⟩ := by
        funext fuel
        simp only [handleBodyLog, hread, if_neg hpos, Int.toNat_natCast, hnone]
      rw [hbody]
      refine ⟨_, returns_some _, ?_⟩
      have hquery : NoCopies (tokens (queryOf text)) := by
        rw [queryOf, hnil]
        trivial
      rw [hlog]
      tauto
    · have hbody : handleBodyLog clength ⟨⟨buf, ⟨s, rc⟩⟩, log⟩ = fun fuel =>
          processLog (charstarFromByteString (text.rdropWhile isLineEnd)).val
            (log ++ readlineWrites ⟨s, rc⟩ clength ++
              trimWrites (returned text) (stored text buf)) fuel := by
        funext fuel
        simp only [handleBodyLog, hread, if_neg hpos, Int.toNat_natCast, hsome,
          charstarFromByteString_append_zero]
      rw [hbody]
      obtain ⟨t, ht, hbounds⟩ := returns_processLog
        (charstarFromByteString (text.rdropWhile isLineEnd)).property
        (log ++ readlineWrites ⟨s, rc⟩ clength ++ trimWrites (returned text) (stored text buf))
      refine ⟨t, ht, ?_⟩
      rw [hbounds, hlog, queryOf]
      tauto
  · have hread := mysslReadline_failed hrc clength (htext ▸ hended) buf
    refine ⟨⟨⟨[], none⟩, log ++ readlineWrites ⟨s, rc⟩ clength⟩, ?_, ?_⟩
    · have hbody : handleBodyLog clength ⟨⟨buf, ⟨s, rc⟩⟩, log⟩ = fun _ =>
          some ⟨⟨[], none⟩, log ++ readlineWrites ⟨s, rc⟩ clength⟩ := by
        funext fuel
        simp only [handleBodyLog, if_pos hread]
      rw [hbody]
      exact returns_some _
    · simp only [InBounds]
      rw [writesIn_append]
      tauto

end Body

section Head

/-- The reading of a line goes on behind it. -/
def Arrives (rc : Int) (line : ByteString) : Prop := newline ∈ line ∨ rc = 0 ∧ line ≠ []

variable {rc : Int} {s : ByteString}

theorem drop_frontLine_lt (h : Arrives rc (frontLine s)) :
    (s.drop (frontLine s).length).length < s.length := by
  have hne : s ≠ [] := by
    rintro rfl
    rcases h with h | ⟨-, h⟩
    · cases h
    · exact h rfl
  have hpos := List.length_pos_of_ne_nil hne
  have hline := List.length_pos_of_ne_nil (frontLine_ne_nil hne)
  rw [List.length_drop]
  omega

/-- The lines of the head fit up to the first one with the property `P`, and `next`
holds of it and of what is behind it. -/
def LinesFit (P : ByteString → Prop) (next : ByteString → ByteString → Prop) (rc : Int)
    (s : ByteString) : Prop :=
  (frontLine s).length < bufmax ∧ ∀ _ : Arrives rc (frontLine s),
    (P (frontLine s) → next (frontLine s) (s.drop (frontLine s).length)) ∧
      (¬P (frontLine s) → LinesFit P next rc (s.drop (frontLine s).length))
termination_by s.length
decreasing_by exact drop_frontLine_lt ‹_›

theorem ended_bufmax_iff {text : ByteString} (hlt : text.length < bufmax) :
    Ended rc bufmax text ↔ Arrives rc text := by
  rw [Ended, Arrives, or_iff_right hlt.ne]

/-- The limit for lines of the head leaves no place for the terminator. -/
theorem inBounds_headWrites (hrc : rc ≤ 0) (s : ByteString) :
    InBounds (readlineWrites ⟨s, rc⟩ 1024) ↔ (frontLine s).length < bufmax := by
  have hline := inBounds_readlineWrites hrc 1024 s
  have h1024 : (1024 : Int).toNat = bufmax := rfl
  have hfull : ((frontLine s).take bufmax).length = bufmax →
      Ended rc bufmax ((frontLine s).take bufmax) := Or.inl
  rw [h1024, List.length_take] at hline
  rw [List.length_take] at hfull
  rw [hline]
  constructor
  · rintro (h | ⟨h, hend⟩)
    · omega
    · exact absurd (hfull h) hend
  · intro h
    exact .inl (by omega)

variable {test : ByteString → Bool} {P : ByteString → Prop}
  {next : ByteString → ByteString → Prop} {next' : Logged Reading → Nat → Option (Logged Session)}

theorem returns_readUntil (hrc : rc ≤ 0) (htest : ∀ l buf, test (stored l buf) = true ↔ P l)
    (hnext : ∀ l buf s log, P l → ∃ t, Returns (next' ⟨⟨stored l buf, ⟨s, rc⟩⟩, log⟩) t ∧
      (InBounds t.log ↔ InBounds log ∧ next l s)) (buf s : ByteString) (log : Log) :
    ∃ t, Returns (readUntil test next' ⟨⟨buf, ⟨s, rc⟩⟩, log⟩) t ∧
      (InBounds t.log ↔ InBounds log ∧ LinesFit P next rc s) := by
  induction hk : s.length using Nat.strong_induction_on generalizing s buf log with
  | _ k ih =>
      obtain ⟨text, htext⟩ : ∃ text, text = (frontLine s).take bufmax := ⟨_, rfl⟩
      obtain ⟨log', hlog'⟩ : ∃ log', log' = log ++ readlineWrites ⟨s, rc⟩ 1024 := ⟨_, rfl⟩
      have hbounds : InBounds log' ↔ InBounds log ∧ (frontLine s).length < bufmax := by
        rw [hlog', ← inBounds_headWrites hrc s]
        exact writesIn_append
      have hfits (hlt : (frontLine s).length < bufmax) : text = frontLine s := by
        rw [htext, List.take_of_length_le hlt.le]
      have hiff {X : Prop} (hX : (frontLine s).length < bufmax → (X ↔ ∀ _ : Arrives rc (frontLine s),
          (P (frontLine s) → next (frontLine s) (s.drop (frontLine s).length)) ∧
            (¬P (frontLine s) → LinesFit P next rc (s.drop (frontLine s).length)))) :
          InBounds log' ∧ X ↔ InBounds log ∧ LinesFit P next rc s := by
        rw [LinesFit, hbounds, and_assoc]
        exact and_congr_right fun _ => and_congr_right hX
      by_cases hended : Ended rc bufmax text
      · have hread := mysslReadline_ended hrc 1024 htext hended buf
        have hpos : ¬((returned text : Int) ≤ 0) := by
          have h := returned_pos text
          omega
        have harrives (hlt : (frontLine s).length < bufmax) : Arrives rc (frontLine s) := by
          rwa [← ended_bufmax_iff hlt, ← hfits hlt]
        by_cases hP : P text
        · have hround : headRoundLog test ⟨⟨buf, ⟨s, rc⟩⟩, log⟩ =
              .inl ⟨some ⟨stored text buf, ⟨s.drop text.length, rc⟩⟩, log'⟩ := by
            simp only [headRoundLog, headRound, hread, if_neg hpos, if_pos ((htest text buf).2 hP), hlog']
            rfl
          obtain ⟨t, ht, hbound⟩ := hnext text buf (s.drop text.length) log' hP
          refine ⟨t, (returns_loop_inl hround).bind ht, hbound.trans (hiff fun hlt => ?_)⟩
          have hline := hfits hlt
          rw [hline] at hP ⊢
          exact ⟨fun h _ => ⟨fun _ => h, fun hn => absurd hP hn⟩, fun h => (h (harrives hlt)).1 hP⟩
        · have hround : headRoundLog test ⟨⟨buf, ⟨s, rc⟩⟩, log⟩ =
              .inr ⟨⟨stored text buf, ⟨s.drop text.length, rc⟩⟩, log'⟩ := by
            simp only [headRoundLog, headRound, hread, if_neg hpos, if_neg (mt (htest text buf).1 hP), hlog']
            rfl
          have hlen : (s.drop text.length).length < s.length := by
            have htextpos : 0 < text.length := by
              rcases hended with h | h | ⟨-, h⟩
              · rw [h]
                decide
              · exact List.length_pos_of_mem h
              · exact List.length_pos_of_ne_nil h
            have hle : text.length ≤ s.length := by
              rw [htext]
              exact (List.length_take_le' _ _).trans (frontLine_length_le s)
            rw [List.length_drop]
            omega
          obtain ⟨t, ht, hbound⟩ :=
            ih _ (hk ▸ hlen) (stored text buf) (s.drop text.length) log' rfl
          refine ⟨t, ?_, hbound.trans (hiff fun hlt => ?_)⟩
          · exact Returns.loop_bind hround ht
          · have hline := hfits hlt
            rw [hline] at hP ⊢
            exact ⟨fun h _ => ⟨fun hn => absurd hn hP, fun _ => h⟩, fun h => (h (harrives hlt)).2 hP⟩
      · have hread : (mysslReadline ⟨s, rc⟩ buf 1024).1 ≤ 0 :=
          mysslReadline_failed hrc 1024 (htext ▸ hended) buf
        have hround : headRoundLog test ⟨⟨buf, ⟨s, rc⟩⟩, log⟩ = .inl ⟨none, log'⟩ := by
          simp only [headRoundLog, headRound, if_pos hread, hlog']
          rfl
        refine ⟨⟨⟨[], none⟩, log'⟩, (returns_loop_inl hround).bind (returns_some _), ?_⟩
        have h := hiff (X := True) fun hlt => ?_
        · rwa [and_true] at h
        · refine iff_of_true trivial fun harr => ?_
          rw [← ended_bufmax_iff hlt, ← hfits hlt] at harr
          exact absurd harr hended

end Head

section Sessions

def IsLength (l : ByteString) : Prop := bytes "content-length: " <+: l.map tolower

def IsBlank (l : ByteString) : Prop := bytes "\n" <+: l ∨ bytes "\r\n" <+: l

/-- The lines of the head fit, what is taken of the body fits and nothing of its
query is copied. Behind the first line only a POST request is read. -/
def RequestFits (rc : Int) (s : ByteString) : Prop :=
  (frontLine s).length < bufmax ∧ (Arrives rc (frontLine s) → bytes "POST" <+: frontLine s →
    LinesFit IsLength (fun line => LinesFit IsBlank
      (fun _ => BodyFits (contentLength (line.drop 16) 0) rc) rc) rc (s.drop (frontLine s).length))

theorem isBlank_stored (l buf : ByteString) : isBlank (stored l buf) = true ↔ IsBlank l := by
  rw [isBlank, Bool.or_eq_true, IsBlank]
  exact or_congr (strncmp_buf (s := bytes "\n") (by decide) l buf)
    (strncmp_buf (s := bytes "\r\n") (by decide) l buf)

theorem contentLength_append_zero (l x : ByteString) (n : Int) :
    contentLength (l ++ 0 :: x) n = contentLength l n := by
  induction l generalizing n with
  | nil => rfl
  | cons c l ih =>
      rw [List.cons_append, contentLength, contentLength, ih]

theorem contentLength_stored {l : ByteString} (hl : IsLength l) (buf : ByteString) :
    contentLength ((stored l buf).drop 16) 0 = contentLength (l.drop 16) 0 := by
  have hlen : 16 ≤ l.length := by
    have h := hl.length_le
    have hname : (bytes "content-length: ").length = 16 := by decide
    rwa [hname, List.length_map] at h
  rw [stored, List.drop_append_of_le_length hlen, contentLength_append_zero]

variable {rc : Int}

theorem returns_handlePostLog (hrc : rc ≤ 0) (buf s : ByteString) (log : Log) :
    ∃ t, Returns (handlePostLog ⟨⟨buf, ⟨s, rc⟩⟩, log⟩) t ∧ (InBounds t.log ↔ InBounds log ∧
      LinesFit IsLength (fun line => LinesFit IsBlank
        (fun _ => BodyFits (contentLength (line.drop 16) 0) rc) rc) rc s) := by
  refine returns_readUntil hrc (fun l buf => isContentLength_stored l buf) ?_ buf s log
  intro l buf s log hl
  refine returns_readUntil hrc isBlank_stored ?_ (stored l buf) s log
  intro l' buf' s log _
  dsimp only
  rw [contentLength_stored hl]
  exact returns_handleBodyLog hrc _ _ s log

theorem handleSession_of_not_post (pkg : Pkg) {buf : ByteString} {ssl : Ssl}
    (h : ¬(¬(mysslReadline ssl buf 1024).1 < 4 ∧
      ¬strncmp (mysslReadline ssl buf 1024).2.1 (bytes "GET ") 4 ∧
      strncmp (mysslReadline ssl buf 1024).2.1 (bytes "POST") 4)) :
    ∃ v, handleSessionLog pkg buf ssl = fun _ => some ⟨v, readlineWrites ssl 1024⟩ := by
  obtain ⟨v, hv⟩ : ∃ v, handleSession pkg buf ssl = fun _ => some v := by
    by_cases hshort : (mysslReadline ssl buf 1024).1 < 4
    · exact ⟨_, funext fun fuel => by simp only [handleSession, if_pos hshort]; rfl⟩
    · by_cases hget : strncmp (mysslReadline ssl buf 1024).2.1 (bytes "GET ") 4
      · exact ⟨_, funext fun fuel => by
          simp only [handleSession, if_neg hshort, if_pos hget]; rfl⟩
      · have hpost : ¬strncmp (mysslReadline ssl buf 1024).2.1 (bytes "POST") 4 := fun hpost =>
          h ⟨hshort, hget, hpost⟩
        exact ⟨_, funext fun fuel => by
          simp only [handleSession, if_neg hshort, if_neg hget, if_neg hpost]; rfl⟩
  refine ⟨v, funext fun fuel => ?_⟩
  simp only [handleSessionLog, if_neg h, hv, Option.map_some]

/-- The writes of a session are within its buffers exactly when the request fits. -/
theorem handleSession_inBounds_iff (pkg : Pkg) (buf : ByteString) (ssl : Ssl) (hrc : ssl.rc ≤ 0) :
    ∃ t, Returns (handleSessionLog pkg buf ssl) t ∧ Returns (handleSession pkg buf ssl) t.value ∧
      (InBounds t.log ↔ RequestFits ssl.rc ssl.input) := by
  obtain ⟨s, rc⟩ := ssl
  have herase {t : Logged Session} (ht : Returns (handleSessionLog pkg buf ⟨s, rc⟩) t) :
      Returns (handleSession pkg buf ⟨s, rc⟩) t.value := by
    have h := ht.map Logged.value
    rwa [funext (map_handleSessionLog pkg buf ⟨s, rc⟩)] at h
  obtain ⟨text, htext⟩ : ∃ text, text = (frontLine s).take bufmax := ⟨_, rfl⟩
  have hfits (hlt : (frontLine s).length < bufmax) : text = frontLine s := by
    rw [htext, List.take_of_length_le hlt.le]
  have hbounds := inBounds_headWrites hrc s
  by_cases hpost : Ended rc bufmax text ∧ bytes "POST" <+: text
  · obtain ⟨hended, hpost⟩ := hpost
    have hread := mysslReadline_ended hrc 1024 htext hended buf
    have hshort : ¬((returned text : Int) < 4) := by
      have hlen : 4 ≤ text.length := hpost.length_le
      rw [returned]
      split <;> omega
    have hget : ¬strncmp (stored text buf) (bytes "GET ") 4 := by
      intro h
      have hpre := (strncmp_buf (s := bytes "GET ") (by decide) text buf).1 h
      exact absurd (List.prefix_of_prefix_length_le hpre hpost le_rfl) (by decide)
    have hpost' := (strncmp_buf (s := bytes "POST") (by decide) text buf).2 hpost
    have hlog : handleSessionLog pkg buf ⟨s, rc⟩ = handlePostLog
        ⟨⟨stored text buf, ⟨s.drop text.length, rc⟩⟩, readlineWrites ⟨s, rc⟩ 1024⟩ := by
      funext fuel
      simp only [handleSessionLog, hread]
      exact if_pos ⟨hshort, hget, hpost'⟩
    obtain ⟨t, ht, hiff⟩ := returns_handlePostLog hrc (stored text buf) (s.drop text.length)
      (readlineWrites ⟨s, rc⟩ 1024)
    rw [← hlog] at ht
    refine ⟨t, ht, herase ht, ?_⟩
    rw [hiff, RequestFits, hbounds]
    refine and_congr_right fun hlt => ?_
    have hline := hfits hlt
    rw [hline] at hended hpost ⊢
    exact ⟨fun h _ _ => h, fun h => h ((ended_bufmax_iff hlt).1 hended) hpost⟩
  · have hnot : ¬(¬(mysslReadline ⟨s, rc⟩ buf 1024).1 < 4 ∧
        ¬strncmp (mysslReadline ⟨s, rc⟩ buf 1024).2.1 (bytes "GET ") 4 ∧
        strncmp (mysslReadline ⟨s, rc⟩ buf 1024).2.1 (bytes "POST") 4) := by
      rintro ⟨hshort, -, hname⟩
      by_cases hended : Ended rc bufmax text
      · rw [mysslReadline_ended hrc 1024 htext hended buf] at hname
        exact hpost ⟨hended, (strncmp_buf (s := bytes "POST") (by decide) text buf).1 hname⟩
      · have hfailed : (mysslReadline ⟨s, rc⟩ buf 1024).1 ≤ 0 :=
          mysslReadline_failed hrc 1024 (htext ▸ hended) buf
        omega
    obtain ⟨v, hv⟩ := handleSession_of_not_post pkg hnot
    have ht : Returns (handleSessionLog pkg buf ⟨s, rc⟩) ⟨v, readlineWrites ⟨s, rc⟩ 1024⟩ := by
      rw [hv]
      exact returns_some _
    refine ⟨_, ht, herase ht, ?_⟩
    rw [hbounds, RequestFits, iff_self_and]
    intro hlt harr hname
    rw [← ended_bufmax_iff hlt, ← hfits hlt] at harr
    rw [← hfits hlt] at hname
    exact absurd ⟨harr, hname⟩ hpost

/-- A request with one more line in the head, and with a body. -/
def hostRequest : ByteString := bytes "POST /\nHost: a\nContent-Length: 5\n\nx=abc"

theorem noCopies_hostRequest {ts : List ByteString} (h : ts = [bytes "x=abc"]) : NoCopies ts := by
  rw [h]
  intro name field hfield
  have hindex : index (bytes "x=abc") 61 = some (bytes "x", bytes "abc") := by decide
  obtain ⟨rfl, rfl⟩ := Prod.mk.inj (Option.some.inj (hindex.symm.trans hfield))
  exact ⟨by decide, by decide, trivial⟩

theorem requestFits_hostRequest : RequestFits 0 hostRequest := by
  refine ⟨by decide, fun _ _ => ?_⟩
  rw [LinesFit]
  refine ⟨by decide, fun _ => ⟨fun h => ?_, fun _ => ?_⟩⟩
  · unfold IsLength at h
    exact absurd h (by decide)
  rw [LinesFit]
  refine ⟨by decide, fun _ => ⟨fun _ => ?_, fun h => absurd ?_ h⟩⟩
  · rw [LinesFit]
    refine ⟨by decide, fun _ => ⟨fun _ => ⟨Or.inl (by decide), fun _ => ?_⟩, fun h => absurd ?_ h⟩⟩
    · exact noCopies_hostRequest (by decide)
    · unfold IsBlank
      decide
  · unfold IsLength
    decide

theorem handleSession_inBounds_post : ∃ t,
    Returns (handleSessionLog ⟨[], []⟩ [] ⟨hostRequest, 0⟩) t ∧ InBounds t.log := by
  obtain ⟨t, ht, -, hiff⟩ := handleSession_inBounds_iff ⟨[], []⟩ [] ⟨hostRequest, 0⟩ le_rfl
  exact ⟨t, ht, hiff.2 requestFits_hostRequest⟩

/-- A request with an address of one character. -/
def mailRequest : ByteString := bytes "POST /\nContent-Length: 6\n\nmail=a"

/-- The copy of the address has a terminator behind its memory. -/
theorem not_inBounds_mail : ¬∀ (s : ByteString) (fuel : Nat) (t : Logged Session),
    handleSessionLog ⟨[], []⟩ (List.replicate bufmax 0) ⟨s, 0⟩ fuel = some t → InBounds t.log := by
  intro h
  have hrun : (handleSessionLog ⟨[], []⟩ (List.replicate bufmax 0) ⟨mailRequest, 0⟩ 20).map
      (fun t => decide (.write ⟨1, 1⟩ ∈ t.log)) = some true := by decide
  obtain ⟨t, ht, hwrite⟩ := Option.map_eq_some_iff.1 hrun
  exact lt_irrefl _ (h mailRequest 20 t ht ⟨1, 1⟩ (of_decide_eq_true hwrite))

end Sessions

end IdBasedEncryption.SessionBounds
