import IdBasedEncryption.ConfigFiles

namespace IdBasedEncryption.ConfigRoundTrip

open ByteStrings FuelLoops Stdio WholeLines Config ConfigStore AssocLists ConfigFiles

section Names

/-- A documented name, perhaps with an index behind it. -/
def LegalName (type : CString) : Prop :=
  ∃ name index, name.val ≠ [] ∧ LegalKey name index ∧ getFullName name index = type

/-- The reader takes such a name for what it is. -/
structure Plain (s : ByteString) : Prop where
  ne_nil : s ≠ []
  chars : ∀ c ∈ s, isNameEnd c = false
  head : s.head? ≠ some 59

theorem isNameEnd_of_isNameChar {c : UInt8} (h : isNameChar c = true) :
    isNameEnd c = false ∧ c ≠ 59 := by
  revert h
  simp only [isNameChar, isNameEnd, isspace, sep, Bool.or_eq_true, Bool.and_eq_true,
    decide_eq_true_eq, Bool.or_eq_false_iff, Bool.and_eq_false_iff, decide_eq_false_iff_not,
    UInt8.le_iff_toNat_le, ← UInt8.toNat_inj, ne_eq, UInt8.reduceToNat]
  omega

theorem isNameEnd_hexDigit (d : Nat) : isNameEnd (hexDigit d) = false := by
  by_cases hd : d < 16
  · exact (by decide : ∀ d < 16, isNameEnd (hexDigit d) = false) d hd
  · have hlen : (bytes "0123456789ABCDEF").length = 16 := by decide
    rw [hexDigit, List.getD_eq_default _ _ (by omega)]
    decide

theorem LegalName.plain {type : CString} (h : LegalName type) : Plain type.val := by
  obtain ⟨name, index, hne, hkey, rfl⟩ := h
  have hchars : ∀ c ∈ name.val, isNameEnd c = false ∧ c ≠ 59 := fun c hc =>
    isNameEnd_of_isNameChar (hkey.chars c hc)
  have hplain : Plain name.val := by
    refine ⟨hne, fun c hc => (hchars c hc).1, fun hhead => ?_⟩
    exact (hchars 59 (List.mem_of_mem_head? hhead)).2 rfl
  rw [getFullName]
  split
  · refine ⟨List.append_ne_nil_of_left_ne_nil hne _, ?_, ?_⟩
    · intro c hc
      rcases List.mem_append.1 hc with hc | hc
      · exact hplain.chars c hc
      · rcases List.mem_append.1 hc with hc | hc
        · obtain rfl := List.mem_singleton.1 hc
          decide
        · obtain ⟨d, -, rfl⟩ := List.mem_map.1 hc
          exact isNameEnd_hexDigit d
    · rw [List.head?_append_of_ne_nil _ hne]
      exact hplain.head
  · exact hplain

theorem length_hexadecimal_le {n : Nat} (h : n < 0xFFFF) : (hexadecimal n).length ≤ 4 := by
  rw [hexadecimal, List.length_map, List.length_reverse]
  exact (Nat.digits_length_le_iff (by norm_num) n).2 (by omega)

theorem LegalName.length_le {type : CString} (h : LegalName type) :
    type.val.length ≤ maxNamlen + 5 := by
  obtain ⟨name, index, -, hkey, rfl⟩ := h
  have hname := hkey.length
  rw [getFullName]
  split
  · next hindex =>
      have hhash : (bytes "#").length = 1 := by decide
      have hhex := length_hexadecimal_le (n := index.toNat) (by omega)
      rw [List.length_append, List.length_append, hhash]
      omega
  · exact hname.trans (Nat.le_add_right _ _)

end Names

section Lines

variable {type line : CString} {params : List Assoc}

theorem bytes_newline : bytes "\n" = [newline] := by decide

theorem bytes_separator : bytes " = " = [32, sep, 32] := by decide

theorem notMem_assignment {c : UInt8} {s t : ByteString} (hc : c ∉ bytes " = ") (hs : c ∉ s)
    (ht : c ∉ t) : c ∉ s ++ (bytes " = " ++ t) := by
  rw [List.mem_append, List.mem_append, not_or, not_or]
  exact ⟨hs, hc, ht⟩

theorem length_assignment (s t : ByteString) :
    (s ++ (bytes " = " ++ t)).length = s.length + (t.length + 3) := by
  rw [bytes_separator, List.length_append]
  rfl

theorem isspace_of_isNameEnd {c : UInt8} (h : isNameEnd c = false) : isspace c = false :=
  (Bool.or_eq_false_iff.1 h).1

/-- What becomes of a line with a name and something behind it. -/
theorem loadLine_assignment (filename v : CString) (ht : Plain type.val)
    (hroom : params.length < maxParam) (h : line.val = type.val ++ (bytes " = " ++ v.val)) :
    loadLine filename line params =
      if maxNamlen < type.val.length then
        .error (bytes "LoadConfig: Parameter name " ++ type.val ++ bytes " too long in file " ++
          filename.val ++ bytes "\n")
      else if newline ∉ (skip isNameEnd v).val then
        .error (bytes "LoadConfig: Parameter " ++ type.val ++ bytes " too long in file " ++
          filename.val ++ bytes "\n")
      else .ok (params ++ [⟨type, upTo (· ≠ newline) (skip isNameEnd v), none⟩]) := by
  obtain ⟨c, s, hs⟩ := List.exists_cons_of_ne_nil ht.ne_nil
  have hc : isNameEnd c = false := ht.chars c (hs ▸ List.mem_cons_self)
  have hstart : skip isspace line = line := by
    apply Subtype.ext
    rw [val_skip, h, hs, List.cons_append, List.dropWhile_cons_of_neg]
    rw [isspace_of_isNameEnd hc]
    exact Bool.false_ne_true
  have hword : ∀ c ∈ type.val, (!isNameEnd c) = true := fun c hc => by rw [ht.chars c hc]; rfl
  have hname : upTo (fun c => !isNameEnd c) line = type := by
    apply Subtype.ext
    rw [val_upTo, h, List.takeWhile_append_of_pos hword, bytes_separator]
    exact List.append_nil _
  have hrest : (skip (fun c => !isNameEnd c) line).val = bytes " = " ++ v.val := by
    rw [val_skip, h, List.dropWhile_append_of_pos hword, bytes_separator]
    rfl
  have hvalue : skip isNameEnd (next (skip (fun c => !isNameEnd c) line)) = skip isNameEnd v := by
    apply Subtype.ext
    rw [val_skip, val_next, hrest, bytes_separator]
    rfl
  have hhead : line.val.head? ≠ some 59 := by
    rw [h, List.head?_append_of_ne_nil _ ht.ne_nil]
    exact ht.head
  have hne : (skip (fun c => !isNameEnd c) line).val ≠ [] := by
    rw [hrest, bytes_separator]
    exact List.cons_ne_nil _ _
  rw [loadLine, if_neg hhead]
  simp only [hstart, hname, hvalue, if_neg hne, if_neg hroom.not_ge]

end Lines

section Entries

/-- What `SetStringParam` accepts, without a newline. -/
structure LegalEntry (e : Assoc) : Prop where
  type : LegalName e.type
  value : newline ∉ e.value.val
  length : e.value.val.length ≤ maxline

/-- The name is short, the value starts with a character that is not skipped, and
the line fits into the buffer. -/
structure Readable (e : Assoc) : Prop where
  type : e.type.val.length ≤ maxNamlen
  value : ∃ c, e.value.val.head? = some c ∧ isNameEnd c = false
  line : e.type.val.length + e.value.val.length ≤ 2043

/-- The path of an entry is not in the file. -/
def copy (e : Assoc) : Assoc := ⟨e.type, e.value, none⟩

variable {filename : CString} {e : Assoc} {params : List Assoc} {buf rest : ByteString}

theorem zero_notMem_valueLine (v : CString) : 0 ∉ v.val ++ bytes "\n" := by
  rw [List.mem_append, not_or]
  exact ⟨v.property, by decide⟩

theorem zero_notMem_writeEntry (e : Assoc) : 0 ∉ writeEntry e :=
  notMem_assignment (by decide) e.type.property (zero_notMem_valueLine e.value)

theorem isNameEnd_newline : isNameEnd newline = true := by decide

theorem dropWhile_valueLine (v : CString) : (v.val ++ bytes "\n").dropWhile isNameEnd =
    if (skip isNameEnd v).val = [] then [] else (skip isNameEnd v).val ++ [newline] := by
  rw [bytes_newline, List.dropWhile_append, val_skip]
  simp only [List.isEmpty_iff, List.dropWhile_cons_of_pos isNameEnd_newline, List.dropWhile_nil]

/-- A line with an entry that fits into the buffer. -/
theorem loadLine_writeEntry (filename : CString) (he : LegalEntry e)
    (hroom : params.length < maxParam) :
    loadLine filename ⟨_, zero_notMem_writeEntry e⟩ params =
      if maxNamlen < e.type.val.length then
        .error (bytes "LoadConfig: Parameter name " ++ e.type.val ++ bytes " too long in file " ++
          filename.val ++ bytes "\n")
      else if (skip isNameEnd e.value).val = [] then
        .error (bytes "LoadConfig: Parameter " ++ e.type.val ++ bytes " too long in file " ++
          filename.val ++ bytes "\n")
      else .ok (params ++ [⟨e.type, skip isNameEnd e.value, none⟩]) := by
  rw [loadLine_assignment filename ⟨_, zero_notMem_valueLine e.value⟩ he.type.plain hroom rfl]
  apply if_congr Iff.rfl rfl
  have hskip : (skip isNameEnd ⟨_, zero_notMem_valueLine e.value⟩).val = _ :=
    dropWhile_valueLine e.value
  split_ifs at hskip with hv
  · rw [if_pos hv, if_pos]
    rw [hskip]
    exact List.not_mem_nil
  · have hmem : newline ∈ (skip isNameEnd ⟨_, zero_notMem_valueLine e.value⟩).val := by
      rw [hskip]
      exact List.mem_append_right _ List.mem_cons_self
    have hvalue : upTo (· ≠ newline) (skip isNameEnd ⟨_, zero_notMem_valueLine e.value⟩) =
        skip isNameEnd e.value := by
      apply Subtype.ext
      rw [val_upTo, hskip, List.takeWhile_append_of_pos, List.takeWhile_cons_of_neg (by simp),
        List.append_nil]
      intro c hc
      rw [decide_eq_true_eq]
      rintro rfl
      exact he.value ((List.dropWhile_sublist _).subset hc)
    rw [if_neg hv, if_neg (not_not_intro hmem), hvalue]

theorem LegalEntry.newline_notMem_type (he : LegalEntry e) : newline ∉ e.type.val := fun h =>
  Bool.false_ne_true ((he.type.plain.chars _ h).symm.trans isNameEnd_newline)

theorem LegalEntry.isLine (he : LegalEntry e)
    (hlen : e.type.val.length + e.value.val.length ≤ 2043) : IsLine 2047 (writeEntry e) := by
  have hwrite : writeEntry e = (e.type.val ++ (bytes " = " ++ e.value.val)) ++ [newline] := by
    rw [writeEntry, bytes_newline, List.append_assoc, List.append_assoc]
  rw [hwrite]
  apply isLine_append_newline
  · exact notMem_assignment (by decide) he.newline_notMem_type he.value
  · rw [length_assignment]
    omega

theorem skip_eq_self_iff (v : CString) : ((skip isNameEnd v).val ≠ [] ∧ skip isNameEnd v = v) ↔
    ∃ c, v.val.head? = some c ∧ isNameEnd c = false := by
  rw [Subtype.ext_iff, val_skip]
  cases v.val with
  | nil => simp
  | cons c s =>
      cases hc : isNameEnd c with
      | false => simp [hc]
      | true =>
          have hlen : (s.dropWhile isNameEnd).length < (c :: s).length :=
            Nat.lt_succ_of_le (List.dropWhile_sublist _).length_le
          have hne : s.dropWhile isNameEnd ≠ c :: s := fun h => hlen.ne (congrArg List.length h)
          simp [hc, hne]

theorem returns_readable (he : LegalEntry e) (hr : Readable e) (hroom : params.length < maxParam)
    (r : Except ByteString ConfCtx) :
    Returns (loop (loadRound filename) ⟨buf, ⟨writeEntry e ++ rest, false⟩, params⟩) r ↔
      Returns (loop (loadRound filename)
        ⟨stored (writeEntry e) buf, ⟨rest, false⟩, params ++ [copy e]⟩) r := by
  obtain ⟨hne, hskip⟩ := (skip_eq_self_iff e.value).2 hr.value
  refine returns_iff_of_ok (he.isLine hr.line) (zero_notMem_writeEntry e) ?_ r
  rw [loadLine_writeEntry filename he hroom, if_neg hr.type.not_gt, if_neg hne, hskip]
  rfl

/-- Readable entries are loaded one behind the other. -/
theorem returns_entries (filename : CString) (buf rest : ByteString) {es : List Assoc}
    (hes : ∀ e ∈ es, LegalEntry e ∧ Readable e) (hroom : params.length + es.length ≤ maxParam) :
    ∃ buf', ∀ r,
    Returns (loop (loadRound filename) ⟨buf, ⟨es.flatMap writeEntry ++ rest, false⟩, params⟩) r ↔
      Returns (loop (loadRound filename) ⟨buf', ⟨rest, false⟩, params ++ es.map copy⟩) r := by
  induction es generalizing buf params with
  | nil => exact ⟨buf, fun r => by rw [List.map_nil, List.append_nil]; rfl⟩
  | cons e es ih =>
      obtain ⟨⟨he, hr⟩, hes⟩ := List.forall_mem_cons.1 hes
      rw [List.length_cons] at hroom
      have hroom' : (params ++ [copy e]).length + es.length ≤ maxParam := by
        rw [List.length_append, List.length_singleton]
        omega
      obtain ⟨buf', h⟩ := ih (stored (writeEntry e) buf) hes hroom'
      refine ⟨buf', fun r => ?_⟩
      rw [List.flatMap_cons, List.append_assoc, returns_readable he hr (by omega), h,
        List.append_assoc, List.map_cons, List.singleton_append]

/-- The reader finds no newline in the buffer when the entry does not fit. -/
theorem returns_long (he : LegalEntry e) (hroom : params.length < maxParam)
    (hlen : 2043 < e.type.val.length + e.value.val.length) : ∃ err,
    Returns (loop (loadRound filename) ⟨buf, ⟨writeEntry e ++ rest, false⟩, params⟩)
      (.error err) := by
  have htype : e.type.val.length ≤ 25 := he.type.length_le
  let k := 2044 - e.type.val.length
  have hk : k ≤ e.value.val.length := by omega
  have h0 : 0 ∉ e.value.val.take k := fun h => e.value.property (List.mem_of_mem_take h)
  have hnl : newline ∉ e.value.val.take k := fun h => he.value (List.mem_of_mem_take h)
  have hfile : writeEntry e ++ rest = (e.type.val ++ (bytes " = " ++ e.value.val.take k)) ++
      (e.value.val.drop k ++ (bytes "\n" ++ rest)) := by
    simp only [writeEntry, List.append_assoc]
    rw [← List.append_assoc (e.value.val.take k), List.take_append_drop]
  have hlength : (e.type.val ++ (bytes " = " ++ e.value.val.take k)).length = 2047 := by
    rw [length_assignment, List.length_take, Nat.min_eq_left hk]
    omega
  have hmem := notMem_assignment (by decide) he.newline_notMem_type hnl
  have hline : IsLine 2047 (e.type.val ++ (bytes " = " ++ e.value.val.take k)) :=
    ⟨by omega, hlength.le, fun h => hmem (List.dropLast_subset _ h), fun h => absurd hlength h.ne⟩
  have hzero := notMem_assignment (by decide) e.type.property h0
  have hload : loadLine filename ⟨_, hzero⟩ params = _ :=
    loadLine_assignment filename ⟨_, h0⟩ he.type.plain hroom rfl
  have hskip : newline ∉ (skip isNameEnd ⟨_, h0⟩).val := fun h =>
    hnl ((List.dropWhile_sublist _).subset h)
  rw [if_pos hskip] at hload
  rw [hfile]
  split_ifs at hload with h
  · exact ⟨_, returns_of_error hline hzero hload⟩
  · exact ⟨_, returns_of_error hline hzero hload⟩

/-- An entry that is not readable ends the search, or loses the start of its value. -/
theorem returns_unreadable (he : LegalEntry e) (hr : ¬Readable e)
    (hroom : params.length < maxParam) :
    (∃ err, Returns (loop (loadRound filename) ⟨buf, ⟨writeEntry e ++ rest, false⟩, params⟩)
      (.error err)) ∨
    (e.type.val.length ≤ maxNamlen ∧ skip isNameEnd e.value ≠ e.value ∧ ∀ r,
      Returns (loop (loadRound filename) ⟨buf, ⟨writeEntry e ++ rest, false⟩, params⟩) r ↔
        Returns (loop (loadRound filename) ⟨stored (writeEntry e) buf, ⟨rest, false⟩,
          params ++ [⟨e.type, skip isNameEnd e.value, none⟩]⟩) r) := by
  by_cases hlen : e.type.val.length + e.value.val.length ≤ 2043
  · have hload := loadLine_writeEntry filename he hroom
    have hline := he.isLine hlen
    split_ifs at hload with htype hvalue
    · exact Or.inl ⟨_, returns_of_error hline _ hload⟩
    · exact Or.inl ⟨_, returns_of_error hline _ hload⟩
    · refine Or.inr ⟨not_lt.1 htype, fun hskip => hr ?_, returns_iff_of_ok hline _ hload⟩
      exact ⟨not_lt.1 htype, (skip_eq_self_iff e.value).1 ⟨hvalue, hskip⟩, hlen⟩
  · exact Or.inl (returns_long he hroom (not_le.1 hlen))

end Entries

section Contexts

/-- The entries are not too many, and no two of them have one name. -/
structure LegalCtx (ctx : ConfCtx) : Prop where
  capacity : ctx.numParam ≤ maxParam
  names : (ctx.configParam.map Assoc.type).Nodup
  entries : ∀ e ∈ ctx.configParam, LegalEntry e

/-- The file that is written can be loaded, and then every name has its value again. -/
def Reloads (filename : CString) (ctx : ConfCtx) : Prop :=
  ∃ ctx', Returns (loadConfig filename (some (writeConfig ctx))) (.ok ctx') ∧
    ∀ e ∈ ctx.configParam, ∀ name index, getFullName name index = e.type → ∀ deflt,
      getStringParam ctx' name index deflt = some e.value

variable {ctx : ConfCtx} {t : ByteString}

theorem returns_comment (filename : CString) (buf rest : ByteString) (params : List Assoc)
    (ht : newline ∉ t) (h0 : 0 ∉ t) (hlen : t.length < 2047) (hhead : t.head? = some 59)
    (r : Except ByteString ConfCtx) :
    Returns (loop (loadRound filename) ⟨buf, ⟨t ++ [newline] ++ rest, false⟩, params⟩) r ↔
      Returns (loop (loadRound filename)
        ⟨stored (t ++ [newline]) buf, ⟨rest, false⟩, params⟩) r := by
  have hzero : 0 ∉ t ++ [newline] := by
    rw [List.mem_append, not_or]
    exact ⟨h0, by decide⟩
  refine returns_iff_of_ok (isLine_append_newline ht hlen) hzero ?_ r
  rw [loadLine, if_pos]
  rw [List.head?_append, hhead]
  rfl

/-- The comments at the start of the file are skipped. -/
theorem returns_writeConfig (filename : CString) (ctx : ConfCtx) : ∃ buf, ∀ r,
    Returns (loadConfig filename (some (writeConfig ctx))) r ↔ Returns (loop (loadRound filename)
      ⟨buf, ⟨ctx.configParam.flatMap writeEntry ++ [], false⟩, []⟩) r := by
  have h₁ : bytes "; DO NOT EDIT THIS FILE.\n" =
    bytes "; DO NOT EDIT THIS FILE." ++ [newline] := by decide
  have h₂ : bytes "; The file is generated automatically.\n" =
    bytes "; The file is generated automatically." ++ [newline] := by decide
  have h₃ : bytes ";\n" = bytes ";" ++ [newline] := by decide
  have first (buf rest : ByteString) := returns_comment filename buf rest []
    (t := bytes "; DO NOT EDIT THIS FILE.") (by decide) (by decide) (by decide) (by decide)
  have second (buf rest : ByteString) := returns_comment filename buf rest []
    (t := bytes "; The file is generated automatically.")
    (by decide) (by decide) (by decide) (by decide)
  have third (buf rest : ByteString) := returns_comment filename buf rest []
    (t := bytes ";") (by decide) (by decide) (by decide) (by decide)
  rw [List.append_nil, writeConfig, h₁, h₂, h₃]
  exact ⟨_, fun r => (first [] _ r).trans ((second _ _ r).trans (third _ _ r))⟩

/-- A short name is compared as a whole. -/
theorem nameKey_inj {s t : CString} (hs : s.val.length ≤ maxNamlen) (ht : t.val.length ≤ maxNamlen)
    (h : nameKey s = nameKey t) : s = t := by
  rw [nameKey, nameKey, List.take_of_length_le hs, List.take_of_length_le ht] at h
  exact Subtype.ext h

theorem valueFor_append {l₁ l₂ : List Assoc} {x : Assoc}
    (h : ∀ e ∈ l₁, entryKey e ≠ entryKey x) :
    valueFor (entryKey x) ⟨l₁ ++ x :: l₂⟩ = some x.value := by
  have hnone : l₁.find? (fun e => decide (entryKey e = entryKey x)) = none := by
    rw [List.find?_eq_none]
    exact fun e he => by simpa using h e he
  rw [valueFor, lookup, List.find?_append, hnone, Option.none_or, List.find?_cons_of_pos (by simp)]
  rfl

/-- What is loaded for an entry behind entries that are readable. -/
theorem getStringParam_loaded {l₁ : List Assoc} {e : Assoc} {name : CString} {index : Int}
    (v : CString) (l : List Assoc) (hl : ∀ a ∈ l₁, Readable a)
    (he : e.type.val.length ≤ maxNamlen) (hne : e.type ∉ l₁.map Assoc.type)
    (hname : getFullName name index = e.type) (deflt : Option CString) :
    getStringParam ⟨l₁.map copy ++ ⟨e.type, v, none⟩ :: l⟩ name index deflt = some v := by
  have hkey : paramKey name index = entryKey ⟨e.type, v, none⟩ := by
    rw [paramKey, hname]
    rfl
  have hapart : ∀ a ∈ l₁.map copy, entryKey a ≠ entryKey ⟨e.type, v, none⟩ := by
    intro a ha heq
    obtain ⟨b, hb, rfl⟩ := List.mem_map.1 ha
    have htype : b.type = e.type := nameKey_inj (hl b hb).type he heq
    exact hne (htype ▸ List.mem_map_of_mem hb)
  rw [getStringParam_eq, hkey, valueFor_append hapart]
  rfl

theorem LegalCtx.type_notMem {l₁ l₂ : List Assoc} {e : Assoc} (h : LegalCtx ctx)
    (hsplit : ctx.configParam = l₁ ++ e :: l₂) : e.type ∉ l₁.map Assoc.type := by
  have hnodup := h.names
  rw [hsplit, List.map_append, List.map_cons, List.nodup_append] at hnodup
  exact fun hmem => hnodup.2.2 _ hmem _ List.mem_cons_self rfl

/-- The first entry that is not readable has lost its value if there is a context at all. -/
theorem getStringParam_unreadable {filename : CString} {ctx' : ConfCtx} {l₁ l₂ : List Assoc}
    {e : Assoc} (h : LegalCtx ctx) (hsplit : ctx.configParam = l₁ ++ e :: l₂)
    (hl : ∀ a ∈ l₁, Readable a) (he : ¬Readable e)
    (hrun : Returns (loadConfig filename (some (writeConfig ctx))) (.ok ctx')) :
    getStringParam ctx' e.type 0 none ≠ some e.value := by
  have hentries := h.entries
  have hcapacity : ctx.configParam.length ≤ maxParam := h.capacity
  rw [hsplit, List.forall_mem_append, List.forall_mem_cons] at hentries
  rw [hsplit, List.length_append, List.length_cons] at hcapacity
  have hfront : ([] : List Assoc).length + l₁.length ≤ maxParam := by
    rw [List.length_nil]
    omega
  have hroom : (l₁.map copy).length < maxParam := by
    rw [List.length_map]
    omega
  obtain ⟨buf, hstart⟩ := returns_writeConfig filename ctx
  obtain ⟨buf', hread⟩ := returns_entries filename buf
    (writeEntry e ++ (l₂.flatMap writeEntry ++ []))
    (fun a ha => ⟨hentries.1 a ha, hl a ha⟩) hfront
  rw [hstart, hsplit, List.flatMap_append, List.flatMap_cons, List.append_assoc,
    List.append_assoc, hread, List.nil_append] at hrun
  rcases returns_unreadable hentries.2.1 he hroom with ⟨err, herr⟩ | ⟨htype, hskip, hload⟩
  · cases herr.unique hrun
  · rw [hload] at hrun
    obtain ⟨l, hctx⟩ := prefix_of_returns hrun
    rw [List.append_assoc, List.singleton_append] at hctx
    have hvalue := getStringParam_loaded (skip isNameEnd e.value) l hl htype
      (h.type_notMem hsplit) (rfl : getFullName e.type 0 = e.type) none
    rw [hctx] at hvalue
    rw [hvalue]
    exact fun heq => hskip (Option.some.inj heq)

theorem returns_copy (filename : CString) (h : LegalCtx ctx)
    (hread : ∀ e ∈ ctx.configParam, Readable e) :
    Returns (loadConfig filename (some (writeConfig ctx))) (.ok ⟨ctx.configParam.map copy⟩) := by
  have hroom : ([] : List Assoc).length + ctx.configParam.length ≤ maxParam := by
    rw [List.length_nil, Nat.zero_add]
    exact h.capacity
  obtain ⟨buf, hstart⟩ := returns_writeConfig filename ctx
  obtain ⟨buf', hall⟩ := returns_entries filename buf []
    (fun a ha => ⟨h.entries a ha, hread a ha⟩) hroom
  rw [hstart, hall, List.nil_append]
  exact returns_nil

/-- A context comes back from its file exactly when all its entries are readable. -/
theorem reloads_iff (filename : CString) (h : LegalCtx ctx) :
    Reloads filename ctx ↔ ∀ e ∈ ctx.configParam, Readable e := by
  constructor
  · rintro ⟨ctx', hrun, hget⟩
    by_contra hcon
    push Not at hcon
    obtain ⟨l₁, e, l₂, hsplit, he, hl⟩ := exists_first hcon
    have hmem : e ∈ ctx.configParam := by
      rw [hsplit]
      exact List.mem_append_right _ List.mem_cons_self
    have hne := getStringParam_unreadable h hsplit (fun a ha => not_not.1 (hl a ha)) he hrun
    exact hne (hget e hmem e.type 0 rfl none)
  · intro hread
    refine ⟨_, returns_copy filename h hread, ?_⟩
    intro e he name index hname deflt
    obtain ⟨l₁, l₂, hsplit⟩ := List.append_of_mem he
    rw [hsplit, List.map_append, List.map_cons]
    refine getStringParam_loaded _ _ (fun a ha => hread a ?_) (hread e he).type
      (h.type_notMem hsplit) hname deflt
    rw [hsplit]
    exact List.mem_append_left _ ha

def configFile : CString := ⟨bytes "ibe.cnf", by decide⟩

def emptyValue : CString := ⟨[], List.not_mem_nil⟩

theorem legalName_servers : LegalName servers :=
  ⟨servers, 0, by decide, legalKey_servers 0 le_rfl (by norm_num), rfl⟩

theorem legalCtx_servers {v : CString} (hv : newline ∉ v.val) (hlen : v.val.length ≤ maxline) :
    LegalCtx ⟨[⟨servers, v, none⟩]⟩ where
  capacity := Nat.le_of_ble_eq_true rfl
  names := List.nodup_singleton _
  entries := by
    intro e he
    obtain rfl := List.mem_singleton.1 he
    exact ⟨legalName_servers, hv, hlen⟩

/-- Three entries, one of them with an index. -/
def hostCtx : ConfCtx :=
  ⟨[⟨servers, hostA, none⟩, ⟨getFullName servers 2, hostB, none⟩, ⟨port, hostA, none⟩]⟩

theorem legalCtx_hostCtx : LegalCtx hostCtx where
  capacity := Nat.le_of_ble_eq_true rfl
  names := by decide
  entries := by
    have hsecond : LegalName (getFullName servers 2) :=
      ⟨servers, 2, by decide, legalKey_servers 2 (by norm_num) (by norm_num), rfl⟩
    have hport : LegalName port :=
      ⟨port, 0, by decide, ⟨by decide +kernel, by decide +kernel, le_rfl, by norm_num⟩, rfl⟩
    simp only [hostCtx, List.forall_mem_cons]
    exact ⟨⟨legalName_servers, by decide, by decide⟩, ⟨hsecond, by decide, by decide⟩,
      ⟨hport, by decide, by decide⟩, fun e he => absurd he List.not_mem_nil⟩

theorem reloads_hosts : Reloads configFile hostCtx := by
  refine (reloads_iff configFile legalCtx_hostCtx).2 ?_
  simp only [hostCtx, List.forall_mem_cons]
  exact ⟨⟨by decide, ⟨97, by decide, by decide⟩, by decide⟩,
    ⟨by decide, ⟨98, by decide, by decide⟩, by decide⟩,
    ⟨by decide, ⟨97, by decide, by decide⟩, by decide⟩, fun e he => absurd he List.not_mem_nil⟩

/-- Without a value the reader runs over the end of the line. -/
theorem not_reloads : ¬∀ filename ctx, LegalCtx ctx → Reloads filename ctx := by
  intro h
  have hlegal : LegalCtx ⟨[⟨servers, emptyValue, none⟩]⟩ :=
    legalCtx_servers List.not_mem_nil (Nat.zero_le _)
  obtain ⟨ctx', hrun, hget⟩ := h configFile _ hlegal
  have hunreadable : ¬Readable ⟨servers, emptyValue, none⟩ := by
    rintro ⟨-, ⟨c, hc, -⟩, -⟩
    cases hc
  have hsplit : ConfCtx.configParam ⟨[⟨servers, emptyValue, none⟩]⟩ =
    [] ++ ⟨servers, emptyValue, none⟩ :: [] := rfl
  have hfront : ∀ a ∈ ([] : List Assoc), Readable a := fun a ha => absurd ha List.not_mem_nil
  have hne := getStringParam_unreadable hlegal hsplit hfront hunreadable hrun
  exact hne (hget _ List.mem_cons_self servers 0 rfl none)

end Contexts

end IdBasedEncryption.ConfigRoundTrip
