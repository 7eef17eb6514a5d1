import IdBasedEncryption.BannedList

namespace IdBasedEncryption.ConcurrentChecks

open ByteStrings FuelLoops Stdio WholeLines BannedList

section Model

/-- How far a process has come with its `banned_check`. -/
inductive Check
  | opening
  | scanning (buf : ByteString) (pos : Nat)
  | appending
  | done (code : Int)

/-- The banned file and the processes that share it, one for each connection. There is
no mutex. -/
structure System where
  bannedfile : ByteString
  check : Nat → Check

def System.set (s : System) (i : Nat) (check : Check) : System :=
  { s with check := Function.update s.check i check }

@[simp] theorem System.bannedfile_set (s : System) (i : Nat) (check : Check) :
    (s.set i check).bannedfile = s.bannedfile := rfl

@[simp] theorem System.check_set_self (s : System) (i : Nat) (check : Check) :
    (s.set i check).check i = check := Function.update_self ..

theorem System.check_set_of_ne (s : System) {i j : Nat} (check : Check) (h : j ≠ i) :
    (s.set i check).check j = s.check j := Function.update_of_ne h ..

variable (ids : Nat → CString)

/-- The next call of the process `i` on the file: it is opened, a line is read and
compared, or the ID is put behind everything that is there by then. -/
def System.step (s : System) (i : Nat) : System :=
  match s.check i with
  | .opening => s.set i (.scanning [] 0)
  | .scanning buf pos =>
      match bannedRound (ids i) (buf, ⟨s.bannedfile.drop pos, false⟩) with
      | .inl (true, _) => s.set i (.done 1)
      | .inl (false, _) => s.set i .appending
      | .inr (buf, fp) => s.set i (.scanning buf (s.bannedfile.length - fp.rest.length))
  | .appending =>
      { s with bannedfile := s.bannedfile ++ ((ids i).val ++ [newline]) }.set i (.done 0)
  | .done _ => s

/-- The calls of the processes in the order of the schedule. -/
def System.run (s : System) (schedule : List Nat) : System := schedule.foldl (System.step ids) s

def System.start (bannedfile : ByteString) : System := ⟨bannedfile, fun _ => .opening⟩

theorem System.run_concat (s : System) (schedule : List Nat) (i : Nat) :
    s.run ids (schedule ++ [i]) = (s.run ids schedule).step ids i := by
  rw [System.run, List.foldl_append]
  rfl

theorem System.run_append (s : System) (schedule schedule' : List Nat) :
    s.run ids (schedule ++ schedule') = (s.run ids schedule).run ids schedule' :=
  List.foldl_append

end Model

section Reading

variable {id : CString} {buf l bs : ByteString}

theorem bannedRound_nil (id : CString) (buf : ByteString) :
    ∃ fp, bannedRound id (buf, ⟨[], false⟩) = .inl (false, fp) := by
  obtain ⟨r, hr, hfile⟩ := (scans_bannedRound id).tail (s := (buf, ⟨[], false⟩)) rfl
    ⟨by norm_num, List.not_mem_nil⟩
  have hfound := found_eq (returns_loop_inl hr)
  rw [hfile] at hfound
  exact ⟨r.2, hr.trans (congrArg Sum.inl (Prod.ext hfound rfl))⟩

theorem bannedRound_found (hl : IsLine 199 l) (hp : compared l = id.val) (buf bs : ByteString) :
    ∃ fp, bannedRound id (buf, ⟨l ++ bs, false⟩) = .inl (true, fp) := by
  obtain ⟨r, hr, hfile⟩ := (scans_bannedRound id).line (s := (buf, ⟨l ++ bs, false⟩)) rfl hl hp
  have hfound := found_eq (returns_loop_inl hr)
  rw [hfile] at hfound
  exact ⟨r.2, hr.trans (congrArg Sum.inl (Prod.ext hfound rfl))⟩

theorem bannedRound_next (hl : IsLine 199 l) (hp : compared l ≠ id.val) (buf bs : ByteString) :
    ∃ buf', bannedRound id (buf, ⟨l ++ bs, false⟩) = .inr (buf', ⟨bs, false⟩) := by
  obtain ⟨t, ht, hfile⟩ := (scans_bannedRound id).next (s := (buf, ⟨l ++ bs, false⟩)) rfl hl hp
  exact ⟨t.1, ht.trans (congrArg Sum.inr (Prod.ext rfl hfile))⟩

theorem whole_fileOf (ids : List CString) : Whole (fileOf ids) := by
  induction ids with
  | nil => exact .inl rfl
  | cons id ids ih => exact (whole_append_newline id.val).append ih

/-- The lines in front of `pos` have been compared. -/
structure Scanned (id : CString) (bannedfile : ByteString) (pos : Nat) : Prop where
  exists_split : ∃ head rest, bannedfile = head ++ rest ∧ head.length = pos ∧
    Skipped 199 (fun l => compared l = id.val) head ∧ Whole rest

theorem Scanned.pos_le {bannedfile : ByteString} {pos : Nat} (h : Scanned id bannedfile pos) :
    pos ≤ bannedfile.length := by
  obtain ⟨head, rest, rfl, rfl, -, -⟩ := h.exists_split
  rw [List.length_append]
  omega

theorem Scanned.append {bannedfile : ByteString} {pos : Nat} (h : Scanned id bannedfile pos)
    (hbs : Whole bs) : Scanned id (bannedfile ++ bs) pos := by
  obtain ⟨head, rest, rfl, hpos, hskip, hrest⟩ := h.exists_split
  exact ⟨head, rest ++ bs, List.append_assoc .., hpos, hskip, hrest.append hbs⟩

end Reading

section Steps

variable {ids : Nat → CString} {s : System} {i : Nat} {buf : ByteString} {pos : Nat}

/-- What becomes of a process that has opened the file: it finds the end, or its own ID
in the next line, or another one there. -/
theorem step_scanning (hcheck : s.check i = .scanning buf pos)
    (h : Scanned (ids i) s.bannedfile pos) :
    (Skipped 199 (fun l => compared l = (ids i).val) s.bannedfile ∧ pos = s.bannedfile.length ∧
      s.step ids i = s.set i .appending) ∨
    ((∃ rest, FirstLine 199 (fun l => compared l = (ids i).val) s.bannedfile rest) ∧
      s.step ids i = s.set i (.done 1)) ∨
    (∃ buf' pos', pos < pos' ∧ Scanned (ids i) s.bannedfile pos' ∧
      s.step ids i = s.set i (.scanning buf' pos')) := by
  obtain ⟨head, rest, hfile, rfl, hskip, hwhole⟩ := h.exists_split
  have hdrop : s.bannedfile.drop head.length = rest := by rw [hfile, List.drop_left]
  by_cases hnil : rest = []
  · subst hnil
    rw [List.append_nil] at hfile
    obtain ⟨fp, hround⟩ := bannedRound_nil (ids i) buf
    refine .inl ⟨hfile ▸ hskip, by rw [hfile], ?_⟩
    simp only [System.step, hcheck, hdrop, hround]
  · obtain ⟨l, rest', rfl, hl, hwhole'⟩ := hwhole.exists_line hnil (n := 199) (by norm_num)
    by_cases hp : compared l = (ids i).val
    · obtain ⟨fp, hround⟩ := bannedRound_found hl hp buf rest'
      refine .inr (.inl ⟨⟨rest', hfile ▸ hskip.firstLine (.here hl hp)⟩, ?_⟩)
      simp only [System.step, hcheck, hdrop, hround]
    · obtain ⟨buf', hround⟩ := bannedRound_next hl hp buf rest'
      have hpos : s.bannedfile.length - rest'.length = (head ++ l).length := by
        rw [hfile, ← List.append_assoc, List.length_append, Nat.add_sub_cancel]
      refine .inr (.inr ⟨buf', (head ++ l).length, ?_, ⟨head ++ l, rest', ?_, rfl, ?_, hwhole'⟩, ?_⟩)
      · have hlpos := hl.pos
        rw [List.length_append]
        omega
      · rw [hfile, List.append_assoc]
      · exact hskip.append (.single hl hp)
      · simp only [System.step, hcheck, hdrop, hround, hpos]

/-- The processes in `log` have put their IDs behind those that were written before, in
this order, and nothing else has been written. -/
structure Invariant (ids : Nat → CString) (written : List CString) (log : List Nat) (s : System) :
    Prop where
  nodup : log.Nodup
  mem_iff (i : Nat) : i ∈ log ↔ s.check i = .done 0
  file_eq : s.bannedfile = fileOf (written ++ log.map ids)
  scanned {i : Nat} {buf : ByteString} {pos : Nat} : s.check i = .scanning buf pos →
    Scanned (ids i) s.bannedfile pos
  found {i : Nat} : s.check i = .done 1 → ∃ id' ∈ written ++ log.map ids, Hides id' (ids i)
  code {i : Nat} {c : Int} : s.check i = .done c → c = 0 ∨ c = 1

variable {written : List CString} {log : List Nat}

theorem invariant_start (ids : Nat → CString) (written : List CString) :
    Invariant ids written [] (.start (fileOf written)) where
  nodup := List.nodup_nil
  mem_iff i := by simp [System.start]
  file_eq := by rw [List.map_nil, List.append_nil]; rfl
  scanned h := by cases h
  found h := by cases h
  code h := by cases h

/-- A step that does not write. -/
theorem Invariant.update {check : Check} (h : Invariant ids written log s) (i : Nat)
    (hold : s.check i ≠ .done 0) (hnew : check ≠ .done 0)
    (hscanned : ∀ buf pos, check = .scanning buf pos → Scanned (ids i) s.bannedfile pos)
    (hfound : check = .done 1 → ∃ id' ∈ written ++ log.map ids, Hides id' (ids i))
    (hcode : ∀ c, check = .done c → c = 0 ∨ c = 1) :
    Invariant ids written log (s.set i check) where
  nodup := h.nodup
  mem_iff j := by
    by_cases hj : j = i
    · subst hj
      rw [System.check_set_self]
      exact iff_of_false (fun hmem => hold ((h.mem_iff j).1 hmem)) hnew
    · rw [System.check_set_of_ne _ _ hj]
      exact h.mem_iff j
  file_eq := h.file_eq
  scanned {j buf pos} hj := by
    by_cases hji : j = i
    · subst hji
      rw [System.check_set_self] at hj
      exact hscanned buf pos hj
    · rw [System.check_set_of_ne _ _ hji] at hj
      exact h.scanned hj
  found {j} hj := by
    by_cases hji : j = i
    · subst hji
      rw [System.check_set_self] at hj
      exact hfound hj
    · rw [System.check_set_of_ne _ _ hji] at hj
      exact h.found hj
  code {j c} hj := by
    by_cases hji : j = i
    · subst hji
      rw [System.check_set_self] at hj
      exact hcode c hj
    · rw [System.check_set_of_ne _ _ hji] at hj
      exact h.code hj

/-- The step that writes. -/
theorem Invariant.append (h : Invariant ids written log s) (hcheck : s.check i = .appending) :
    Invariant ids written (log ++ [i])
      ({ s with bannedfile := s.bannedfile ++ ((ids i).val ++ [newline]) }.set i (.done 0)) where
  nodup := by
    have hnot : i ∉ log := fun hmem => by
      have hdone := (h.mem_iff i).1 hmem
      rw [hcheck] at hdone
      cases hdone
    rw [List.nodup_append]
    refine ⟨h.nodup, List.nodup_singleton i, fun x hx y hy => ?_⟩
    obtain rfl := List.mem_singleton.1 hy
    exact ne_of_mem_of_not_mem hx hnot
  mem_iff j := by
    rw [List.mem_append, List.mem_singleton]
    by_cases hj : j = i
    · subst hj
      rw [System.check_set_self]
      exact iff_of_true (.inr rfl) rfl
    · rw [System.check_set_of_ne _ _ hj, or_iff_left hj]
      exact h.mem_iff j
  file_eq := by
    rw [System.bannedfile_set, h.file_eq, List.map_append, List.map_singleton, ← List.append_assoc written,
      fileOf_concat]
  scanned {j buf pos} hj := by
    by_cases hji : j = i
    · subst hji
      rw [System.check_set_self] at hj
      cases hj
    · rw [System.check_set_of_ne _ _ hji] at hj
      exact (h.scanned hj).append (whole_append_newline _)
  found {j} hj := by
    by_cases hji : j = i
    · subst hji
      rw [System.check_set_self] at hj
      cases hj
    · rw [System.check_set_of_ne _ _ hji] at hj
      obtain ⟨id', hmem, hides⟩ := h.found hj
      refine ⟨id', ?_, hides⟩
      rw [List.map_append, ← List.append_assoc]
      exact List.mem_append_left _ hmem
  code {j c} hj := by
    by_cases hji : j = i
    · subst hji
      rw [System.check_set_self] at hj
      exact .inl (Check.done.inj hj).symm
    · rw [System.check_set_of_ne _ _ hji] at hj
      exact h.code hj

/-- Nothing that is in the file is taken for an ID unless a line of it is. -/
theorem exists_hides {ids : List CString} {id : CString}
    (h : ∃ rest, FirstLine 199 (fun l => compared l = id.val) (fileOf ids) rest) :
    ∃ id' ∈ ids, Hides id' id := by
  by_contra hno
  obtain ⟨rest, hfirst⟩ := h
  exact hfirst.not_noLine (noLine_fileOf hno)

theorem Invariant.step (h : Invariant ids written log s) (i : Nat) :
    ∃ log', log <+: log' ∧ Invariant ids written log' (s.step ids i) := by
  cases hcheck : s.check i with
  | opening =>
      have hstep : s.step ids i = s.set i (.scanning [] 0) := by simp only [System.step, hcheck]
      rw [hstep]
      refine ⟨log, List.prefix_rfl, h.update i (by simp [hcheck]) (by simp) ?_ (by simp) (by simp)⟩
      rintro buf pos heq
      obtain ⟨-, rfl⟩ := Check.scanning.inj heq
      refine ⟨[], s.bannedfile, rfl, rfl, .nil, ?_⟩
      rw [h.file_eq]
      exact whole_fileOf _
  | scanning buf pos =>
      rcases step_scanning hcheck (h.scanned hcheck) with
        ⟨-, -, hstep⟩ | ⟨hfirst, hstep⟩ | ⟨buf', pos', -, hscanned, hstep⟩
      · rw [hstep]
        exact ⟨log, List.prefix_rfl, h.update i (by simp [hcheck]) (by simp) (by simp) (by simp) (by simp)⟩
      · rw [hstep]
        rw [h.file_eq] at hfirst
        exact ⟨log, List.prefix_rfl, h.update i (by simp [hcheck]) (by simp) (by simp)
          (fun _ => exists_hides hfirst) (by simp)⟩
      · rw [hstep]
        refine ⟨log, List.prefix_rfl, h.update i (by simp [hcheck]) (by simp) ?_ (by simp) (by simp)⟩
        rintro buf pos heq
        obtain ⟨-, rfl⟩ := Check.scanning.inj heq
        exact hscanned
  | appending =>
      refine ⟨log ++ [i], List.prefix_append _ _, ?_⟩
      simp only [System.step, hcheck]
      exact h.append hcheck
  | done c =>
      have hstep : s.step ids i = s := by simp only [System.step, hcheck]
      rw [hstep]
      exact ⟨log, List.prefix_rfl, h⟩

/-- A step of one process does not concern the others. -/
theorem check_step_of_ne (ids : Nat → CString) (s : System) {i j : Nat} (h : j ≠ i) :
    (s.step ids i).check j = s.check j := by
  rw [System.step]
  cases s.check i with
  | opening => exact s.check_set_of_ne _ h
  | scanning buf pos =>
      dsimp only
      split
      · exact s.check_set_of_ne _ h
      · exact s.check_set_of_ne _ h
      · exact s.check_set_of_ne _ h
  | appending => exact System.check_set_of_ne _ _ h
  | done c => rfl

theorem prefix_step (ids : Nat → CString) (s : System) (i : Nat) :
    s.bannedfile <+: (s.step ids i).bannedfile := by
  rw [System.step]
  cases s.check i with
  | opening => exact List.prefix_rfl
  | scanning buf pos =>
      dsimp only
      split <;> exact List.prefix_rfl
  | appending => exact List.prefix_append _ _
  | done c => exact List.prefix_rfl

end Steps

section Runs

variable {ids : Nat → CString} {s : System} {i j : Nat} {written : List CString} {log : List Nat}

theorem exists_invariant (ids : Nat → CString) (written : List CString) (schedule : List Nat) :
    ∃ log, Invariant ids written log ((System.start (fileOf written)).run ids schedule) := by
  induction schedule using List.reverseRecOn with
  | nil => exact ⟨[], invariant_start ids written⟩
  | append_singleton schedule i ih =>
      obtain ⟨log, h⟩ := ih
      obtain ⟨log', -, h'⟩ := h.step i
      rw [System.run_concat]
      exact ⟨log', h'⟩

/-- The ID of the process `j` is in the file, and it has not missed it. -/
structure Barred (ids : Nat → CString) (written : List CString) (j : Nat) (s : System) : Prop where
  exists_log : ∃ log, Invariant ids written log s ∧
    ∃ id' ∈ written ++ log.map ids, Hides id' (ids j)
  ne_appending : s.check j ≠ .appending
  ne_done : s.check j ≠ .done 0

theorem Barred.step (h : Barred ids written j s) (i : Nat) : Barred ids written j (s.step ids i) := by
  obtain ⟨log, hinv, id', hmem, hides⟩ := h.exists_log
  obtain ⟨log', hlog, hinv'⟩ := hinv.step i
  have hmem' : id' ∈ written ++ log'.map ids :=
    (List.prefix_append_right_inj written).2 (hlog.map ids) |>.subset hmem
  have hne : (s.step ids i).check j ≠ .appending ∧ (s.step ids i).check j ≠ .done 0 := by
    by_cases hji : j = i
    · subst hji
      cases hcheck : s.check j with
      | opening => simp [System.step, hcheck]
      | scanning buf pos =>
          rcases step_scanning hcheck (hinv.scanned hcheck) with
            ⟨hskip, -, -⟩ | ⟨-, hstep⟩ | ⟨buf', pos', -, -, hstep⟩
          · -- the line with the ID cannot have been skipped
            rw [hinv.file_eq] at hskip
            obtain ⟨rest, hfirst⟩ := firstLine_fileOf ⟨id', hmem, hides⟩
            exact absurd (hskip.noLine_self (by norm_num)) hfirst.not_noLine
          · simp [hstep]
          · simp [hstep]
      | appending => exact absurd hcheck h.ne_appending
      | done c =>
          have hc := h.ne_done
          simp only [System.step, hcheck] at hc ⊢
          exact ⟨by simp, hc⟩
    · rw [check_step_of_ne ids s hji]
      exact ⟨h.ne_appending, h.ne_done⟩
  exact ⟨⟨log', hinv', id', hmem', hides⟩, hne.1, hne.2⟩

theorem Barred.run (h : Barred ids written j s) (schedule : List Nat) :
    Barred ids written j (s.run ids schedule) := by
  induction schedule using List.reverseRecOn with
  | nil => exact h
  | append_singleton schedule i ih =>
      rw [System.run_concat]
      exact ih.step i

/-- A process makes one step after the other through the file. -/
def Progress (count length : Nat) : Check → Prop
  | .opening => count = 0
  | .scanning _ pos => count ≤ pos + 1
  | .appending => count ≤ length + 2
  | .done _ => True

theorem progress_run (ids : Nat → CString) (written : List CString) (schedule : List Nat) (j : Nat) :
    Progress (schedule.count j) ((System.start (fileOf written)).run ids schedule).bannedfile.length
      (((System.start (fileOf written)).run ids schedule).check j) := by
  induction schedule using List.reverseRecOn with
  | nil => rfl
  | append_singleton schedule i ih =>
      obtain ⟨log, hinv⟩ := exists_invariant ids written schedule
      have hlen := (prefix_step ids ((System.start (fileOf written)).run ids schedule) i).length_le
      rw [System.run_concat, List.count_append]
      generalize (System.start (fileOf written)).run ids schedule = s at *
      by_cases hji : j = i
      · subst hji
        rw [List.count_singleton_self]
        cases hcheck : s.check j with
        | opening =>
            rw [hcheck] at ih
            simp only [System.step, hcheck, System.check_set_self]
            exact Nat.add_le_add_right (le_of_eq ih) 1
        | scanning buf pos =>
            rw [hcheck] at ih
            have hcount : schedule.count j ≤ pos + 1 := ih
            have hpos := (hinv.scanned hcheck).pos_le
            rcases step_scanning hcheck (hinv.scanned hcheck) with
              ⟨-, -, hstep⟩ | ⟨-, hstep⟩ | ⟨buf', pos', hlt, -, hstep⟩
            · rw [hstep, System.check_set_self, System.bannedfile_set]
              show schedule.count j + 1 ≤ s.bannedfile.length + 2
              omega
            · rw [hstep, System.check_set_self]
              trivial
            · rw [hstep, System.check_set_self]
              show schedule.count j + 1 ≤ pos' + 1
              omega
        | appending =>
            simp only [System.step, hcheck, System.check_set_self]
            trivial
        | done c =>
            simp only [System.step, hcheck]
            trivial
      · rw [List.count_singleton, if_neg (by simpa using Ne.symm hji), check_step_of_ne ids s hji]
        cases hcheck : s.check j with
        | opening =>
            rw [hcheck] at ih
            exact ih
        | scanning buf pos =>
            rw [hcheck] at ih
            exact ih
        | appending =>
            rw [hcheck] at ih
            exact le_trans ih (Nat.add_le_add_right hlen 2)
        | done c => trivial

/-- What holds however the processes take turns. -/
structure Interleaved (ids : Nat → CString) (written : List CString) (schedule : List Nat) : Prop where
  /-- Every ID whose check returns 0 is written exactly once, and no other one. -/
  exists_log : ∃ log : List Nat, log.Nodup ∧
    (∀ i, i ∈ log ↔ ((System.start (fileOf written)).run ids schedule).check i = .done 0) ∧
    ((System.start (fileOf written)).run ids schedule).bannedfile = fileOf (written ++ log.map ids) ∧
    ∀ i, ((System.start (fileOf written)).run ids schedule).check i = .done 1 →
      ∃ id' ∈ written ++ log.map ids, Hides id' (ids i)
  /-- A check that begins when its ID is in the file does not return 0. -/
  barred (schedule₁ schedule₂ : List Nat) (j : Nat) : schedule = schedule₁ ++ schedule₂ →
    ((System.start (fileOf written)).run ids schedule₁).check j = .opening →
    (∃ id', (id' ∈ written ∨ ∃ i, ((System.start (fileOf written)).run ids schedule₁).check i = .done 0 ∧
      ids i = id') ∧ Hides id' (ids j)) →
    ((System.start (fileOf written)).run ids schedule).check j ≠ .done 0
  /-- A check returns when it is given turns for all that it has to read. -/
  returns (j : Nat) :
    ((System.start (fileOf written)).run ids schedule).bannedfile.length + 2 < schedule.count j →
    ((System.start (fileOf written)).run ids schedule).check j = .done 0 ∨
      ((System.start (fileOf written)).run ids schedule).check j = .done 1

/-- Without a mutex no ID is lost or written twice by one process, and only checks that
overlap can miss each other. -/
theorem interleaved (ids : Nat → CString) (written : List CString) (schedule : List Nat) :
    Interleaved ids written schedule where
  exists_log := by
    obtain ⟨log, h⟩ := exists_invariant ids written schedule
    exact ⟨log, h.nodup, h.mem_iff, h.file_eq, fun i hi => h.found hi⟩
  barred := by
    rintro schedule₁ schedule₂ j rfl hopening ⟨id', hid, hides⟩
    obtain ⟨log, h⟩ := exists_invariant ids written schedule₁
    have hmem : id' ∈ written ++ log.map ids := by
      rcases hid with hmem | ⟨i, hi, rfl⟩
      · exact List.mem_append_left _ hmem
      · exact List.mem_append_right _ (List.mem_map_of_mem ((h.mem_iff i).2 hi))
    have hbarred : Barred ids written j ((System.start (fileOf written)).run ids schedule₁) :=
      ⟨⟨log, h, id', hmem, hides⟩, by simp [hopening], by simp [hopening]⟩
    rw [System.run_append]
    exact (hbarred.run schedule₂).ne_done
  returns j hcount := by
    obtain ⟨log, h⟩ := exists_invariant ids written schedule
    have hprogress := progress_run ids written schedule j
    generalize hcheck : ((System.start (fileOf written)).run ids schedule).check j = check at *
    cases check with
    | opening =>
        have hzero : schedule.count j = 0 := hprogress
        omega
    | scanning buf pos =>
        have hle : schedule.count j ≤ pos + 1 := hprogress
        have hpos := (h.scanned hcheck).pos_le
        omega
    | appending =>
        have hle : schedule.count j ≤
          ((System.start (fileOf written)).run ids schedule).bannedfile.length + 2 := hprogress
        omega
    | done c =>
        rcases h.code hcheck with rfl | rfl
        · exact .inl rfl
        · exact .inr rfl

end Runs

end IdBasedEncryption.ConcurrentChecks
