import Mathlib.Data.List.DropRight
import IdBasedEncryption.FormFields
import IdBasedEncryption.Request

namespace IdBasedEncryption.RequestAgreement

open ByteStrings FuelLoops Stdio PkgHtml FormFields Request

section Headers

variable {l x buf : ByteString} {rc : Int}

theorem strncmp_buf {s : ByteString} (hs : 0 ∉ s) (l buf : ByteString) :
    strncmp (stored l buf) s s.length = true ↔ s <+: l := by
  rw [strncmp_comm, strncmp_stored hs]

theorem isContentLength_stored (l buf : ByteString) :
    isContentLength (stored l buf) = true ↔ bytes "content-length: " <+: l.map tolower := by
  have hname : (bytes "Content-Length: ").map tolower = bytes "content-length: " := by
    decide
  have hmap : (stored l buf).map tolower = stored (l.map tolower) (buf.map tolower) := by
    rw [stored, stored, List.map_append, List.map_cons, List.map_drop, List.length_map]
    rfl
  rw [isContentLength, strncasecmp, hname, hmap]
  exact strncmp_buf (by decide) (l.map tolower) (buf.map tolower)

theorem isBlank_newline (buf : ByteString) : isBlank (stored [newline] buf) = true := by
  rw [isBlank, Bool.or_eq_true]
  exact Or.inl ((strncmp_buf (s := bytes "\n") (by decide) [newline] buf).2
    (by decide))

theorem returns_headRound {test : ByteString → Bool} (hl : newline ∉ l) (hlen : l.length < 1024)
    (htest : test (stored (l ++ [newline]) buf) = true) (x : ByteString) (rc : Int) :
    Returns (loop (headRound test) ⟨buf, ⟨l ++ newline :: x, rc⟩⟩)
      (some ⟨stored (l ++ [newline]) buf, ⟨x, rc⟩⟩) := by
  apply returns_loop_inl
  rw [headRound, mysslReadline_line hl (by omega)]
  simp only [htest, if_true]
  rw [if_neg (by omega)]

theorem newline_notMem_decimal (n : Nat) : newline ∉ decimal n := by
  rw [decimal_eq]
  intro h
  obtain ⟨c, hc, hbyte⟩ := List.mem_map.1 h
  obtain ⟨hlow, -, hval⟩ :=
    digitByte_bounds (Nat.isDigit_of_mem_toDigits (b := 10) (n := n) (by norm_num) le_rfl hc)
  rw [hbyte] at hval
  have h10 : newline.toNat = 10 := rfl
  omega

theorem length_decimal_le {n : Nat} (h : n < 10 ^ 4) : (decimal n).length ≤ 4 := by
  rw [decimal_eq, List.length_map]
  exact (Nat.length_toDigits_le_iff (by norm_num) (by norm_num)).2 h

/-- Up to the body, the headers are understood. -/
theorem returns_handleSession_iff (pkg : Pkg) (buf : ByteString) {n : Nat} (hn : n < 10 ^ 4)
    (x : ByteString) (rc : Int) : ∃ buf', ∀ r,
    Returns (handleSession pkg buf ⟨bytes "POST /\n" ++ (bytes "Content-Length: " ++
      (decimal n ++ (bytes "\n\n" ++ x))), rc⟩) r ↔
    Returns (handleBody n ⟨buf', ⟨x, rc⟩⟩) r := by
  have hpost : bytes "POST /\n" = bytes "POST /" ++ [newline] := by decide
  have hblank : bytes "\n\n" = [newline, newline] := by decide
  obtain ⟨buf₁, hbuf₁⟩ : ∃ buf₁, buf₁ = stored (bytes "POST /" ++ [newline]) buf := ⟨_, rfl⟩
  obtain ⟨l, hl⟩ : ∃ l, l = bytes "Content-Length: " ++ decimal n := ⟨_, rfl⟩
  obtain ⟨buf₂, hbuf₂⟩ : ∃ buf₂, buf₂ = stored (l ++ [newline]) buf₁ := ⟨_, rfl⟩
  have hnewline : newline ∉ l := by
    rw [hl, List.mem_append, not_or]
    exact ⟨by decide, newline_notMem_decimal n⟩
  have hlen : l.length < 1024 := by
    have hdigits := length_decimal_le hn
    have hname : (bytes "Content-Length: ").length = 16 := by decide
    rw [hl, List.length_append, hname]
    omega
  have hfirst : handleSession pkg buf ⟨bytes "POST /" ++ newline :: (l ++ newline :: newline :: x), rc⟩ =
      handlePost ⟨buf₁, ⟨l ++ newline :: newline :: x, rc⟩⟩ := by
    have hread := mysslReadline_line (l := bytes "POST /") (by decide)
      (show ((bytes "POST /").length : Int) < 1024 by decide) buf (l ++ newline :: newline :: x) rc
    have hget : strncmp buf₁ (bytes "GET ") 4 = false := by
      rw [← Bool.not_eq_true, hbuf₁]
      exact fun h => absurd ((strncmp_buf (s := bytes "GET ") (by decide) _ _).1 h)
        (by decide)
    have hpost : strncmp buf₁ (bytes "POST") 4 = true := by
      rw [hbuf₁]
      exact (strncmp_buf (s := bytes "POST") (by decide) _ _).2 (by decide)
    have hseven : ¬((bytes "POST /").length : Int) + 1 < 4 := by decide
    funext fuel
    rw [handleSession, hread, ← hbuf₁]
    simp only [if_neg hseven, hget, hpost, Bool.false_eq_true, if_false, if_true]
  have hlength : Returns (loop (headRound isContentLength) ⟨buf₁, ⟨l ++ newline :: newline :: x, rc⟩⟩)
      (some ⟨buf₂, ⟨newline :: x, rc⟩⟩) := by
    have htest : isContentLength (stored (l ++ [newline]) buf₁) = true := by
      rw [isContentLength_stored, hl, List.append_assoc, List.map_append]
      exact (by decide : bytes "content-length: " <+: (bytes "Content-Length: ").map tolower).trans
        (List.prefix_append ..)
    rw [hbuf₂]
    exact returns_headRound hnewline hlen htest (newline :: x) rc
  have hend : Returns (loop (headRound isBlank) ⟨buf₂, ⟨newline :: x, rc⟩⟩)
      (some ⟨stored [newline] buf₂, ⟨x, rc⟩⟩) :=
    returns_headRound (l := []) List.not_mem_nil (by norm_num) (isBlank_newline buf₂) x rc
  have hvalue : contentLength (buf₂.drop 16) 0 = n := by
    have hdrop : buf₂.drop 16 = decimal n ++ newline :: 0 :: buf₁.drop ((l ++ [newline]).length + 1) := by
      have hname : (bytes "Content-Length: ").length = 16 := by decide
      rw [hbuf₂, stored, hl, List.append_assoc, List.append_assoc, List.append_assoc, ← hname,
        List.drop_left]
      rfl
    rw [hdrop]
    exact contentLength_decimal (by omega) _
  refine ⟨stored [newline] buf₂, fun r => ?_⟩
  have htext : bytes "POST /\n" ++ (bytes "Content-Length: " ++ (decimal n ++ (bytes "\n\n" ++ x))) =
      bytes "POST /" ++ newline :: (l ++ newline :: newline :: x) := by
    rw [hpost, hblank, hl, List.append_assoc, List.append_assoc]
    rfl
  rw [htext, hfirst, ← hvalue]
  exact hlength.bind_iff.trans hend.bind_iff

end Headers

section Body

variable {l m x : ByteString}

/-- The line ends behind the text become terminators. -/
theorem trimLine_append (hl : ∃ c ∈ l.getLast?, isLineEnd c = false)
    (hm : ∀ c ∈ m, isLineEnd c = true) (x : ByteString) :
    ∃ y, trimLine (l.length + m.length) (l ++ (m ++ 0 :: x)) = some (l ++ 0 :: y) := by
  induction m using List.reverseRecOn generalizing x with
  | nil =>
      obtain ⟨c, hc, hend⟩ := hl
      obtain ⟨l', rfl⟩ := List.getLast?_eq_some_iff.1 hc
      refine ⟨x, ?_⟩
      have hget : (l' ++ [c] ++ 0 :: x).getD l'.length 0 = c := by simp
      rw [List.length_append, List.length_singleton, List.length_nil, Nat.add_zero, trimLine,
        List.nil_append, hget, if_neg (by simp [hend])]
  | append_singleton m c ih =>
      obtain ⟨y, hy⟩ := ih (fun d hd => hm d (List.mem_append_left _ hd)) (0 :: x)
      refine ⟨y, ?_⟩
      have hget : (l ++ (m ++ [c] ++ 0 :: x)).getD (l.length + m.length) 0 = c := by
        simp
      have hset : (l ++ (m ++ [c] ++ 0 :: x)).set (l.length + m.length) 0 =
          l ++ (m ++ 0 :: 0 :: x) := by
        simp
      rw [List.length_append, List.length_singleton, ← Nat.add_assoc, trimLine, hget,
        if_pos (hm c (by simp)), hset]
      exact hy

theorem handleBody_eq (hl : ∃ c ∈ l.getLast?, isLineEnd c = false) (hzero : 0 ∉ l)
    (hm : ∀ c ∈ m, isLineEnd c = true) (hnewline : newline ∉ l ++ m) (buf x : ByteString) (rc : Int)
    {n : Nat} (hn : n = l.length + m.length + 1) :
    handleBody n ⟨buf, ⟨l ++ m ++ newline :: x, rc⟩⟩ = process l := by
  have hread := mysslReadline_line hnewline
    (show ((l ++ m).length : Int) < (n : Int) by rw [List.length_append]; omega) buf x rc
  have hstored : stored (l ++ m ++ [newline]) buf = l ++ ((m ++ [newline]) ++
      0 :: buf.drop ((l ++ m ++ [newline]).length + 1)) := by
    rw [stored, List.append_assoc l, List.append_assoc l]
  have hends : ∀ c ∈ m ++ [newline], isLineEnd c = true := by
    intro c hc
    rcases List.mem_append.1 hc with hc | hc
    · exact hm c hc
    · rw [List.mem_singleton.1 hc]
      rfl
  obtain ⟨y, hy⟩ := trimLine_append hl hends (buf.drop ((l ++ m ++ [newline]).length + 1))
  have hlen : (((l ++ m).length : Int) + 1).toNat = l.length + (m ++ [newline]).length := by
    simp only [List.length_append, List.length_singleton]
    omega
  have hstring : (charstarFromByteString (l ++ 0 :: y)).val = l := by
    rw [charstarFromByteString_append_zero]
    exact congrArg Subtype.val (charstarFromByteString_set ⟨l, hzero⟩)
  funext fuel
  rw [handleBody, hread]
  dsimp only
  rw [if_neg (by omega), hlen, hstored, hy]
  dsimp only
  rw [hstring]

end Body

section Agreement

/-- The session makes a key share for the address and the password of the client. -/
def Agrees (pkg : Pkg) (buf : ByteString) (rc : Int) (emailaddr password : CString) : Prop :=
  ∃ written, Returns (handleSession pkg buf ⟨singleRequest emailaddr password, rc⟩)
    ⟨written, some (emailaddr, password)⟩

/-- Neither the separator of the fields nor an escape. -/
structure Plain (s : CString) : Prop where
  ampersand : 38 ∉ s.val
  plus : 43 ∉ s.val
  percent : 37 ∉ s.val

theorem Plain.notMem_append {v : CString} (h : Plain v) {s : ByteString} (hs : 38 ∉ s) :
    38 ∉ s ++ v.val := by
  rw [List.mem_append, not_or]
  exact ⟨hs, h.ampersand⟩

variable {emailaddr password : CString} {pkg : Pkg} {buf : ByteString} {rc : Int}

/-- The password without the carriage returns behind it. -/
def trimmed (password : CString) : ByteString := password.val.rdropWhile (· = 13)

/-- The query that `process` is given. -/
def query (emailaddr password : CString) : ByteString :=
  bytes "mail=" ++ (emailaddr.val ++ (bytes "&password=" ++ trimmed password))

theorem trimmed_append (password : CString) :
    trimmed password ++ password.val.rtakeWhile (· = 13) = password.val :=
  List.rdropWhile_append_rtakeWhile (p := fun c => decide (c = 13)) (l := password.val)

theorem trimmed_subset (password : CString) : trimmed password ⊆ password.val :=
  (List.rdropWhile_prefix (fun c => decide (c = 13)) password.val).subset

theorem query_append (emailaddr password : CString) :
    query emailaddr password ++ password.val.rtakeWhile (· = 13) =
      bytes "mail=" ++ (emailaddr.val ++ (bytes "&password=" ++ password.val)) := by
  rw [query, List.append_assoc, List.append_assoc, List.append_assoc, trimmed_append]

theorem notMem_query {c : UInt8} (hmail : c ∉ bytes "mail=") (hname : c ∉ bytes "&password=")
    (hemail : c ∉ emailaddr.val) (hpassword : c ∉ password.val) :
    c ∉ query emailaddr password := by
  simp only [query, List.mem_append, not_or]
  exact ⟨hmail, hemail, hname, fun h => hpassword (trimmed_subset password h)⟩

/-- The query does not end with a line end. -/
theorem exists_getLast_query (hpassword : newline ∉ password.val) :
    ∃ c ∈ (query emailaddr password).getLast?, isLineEnd c = false := by
  by_cases hnil : trimmed password = []
  · refine ⟨61, ?_, by decide⟩
    have hname : bytes "&password=" = bytes "&password" ++ [61] := by decide
    rw [query, hnil, List.append_nil, hname, ← List.append_assoc, ← List.append_assoc]
    exact List.getLast?_concat
  · have hlast := List.getLast_mem hnil
    refine ⟨(trimmed password).getLast hnil, ?_, ?_⟩
    · rw [query, List.getLast?_append_of_ne_nil _ (by simp [hnil]),
        List.getLast?_append_of_ne_nil _ (by simp [hnil]),
        List.getLast?_append_of_ne_nil _ hnil]
      exact List.getLast?_eq_some_getLast hnil
    · have hmem := trimmed_subset password hlast
      have hzero : (trimmed password).getLast hnil ≠ 0 := ne_of_mem_of_not_mem hmem password.property
      have hnewline : (trimmed password).getLast hnil ≠ 10 := ne_of_mem_of_not_mem hmem hpassword
      have hreturn : (trimmed password).getLast hnil ≠ 13 := by
        have h := List.rdropWhile_last_not (fun c => decide (c = 13)) password.val hnil
        rwa [decide_eq_true_eq] at h
      simp only [isLineEnd, Bool.or_eq_false_iff, decide_eq_false_iff_not]
      exact ⟨⟨hreturn, hnewline⟩, hzero⟩

/-- The session answers the query as a whole. -/
theorem returns_handleSession_query (pkg : Pkg) (buf : ByteString) (rc : Int)
    (hemail : newline ∉ emailaddr.val) (hpassword : newline ∉ password.val)
    (hlen : 16 + emailaddr.val.length + password.val.length < 1024) :
    Returns (handleSession pkg buf ⟨singleRequest emailaddr password, rc⟩)
      (shareFor ((tokens (query emailaddr password)).foldlM addField (none, none))) := by
  obtain ⟨m, hm⟩ : ∃ m, m = password.val.rtakeWhile (· = 13) := ⟨_, rfl⟩
  have hbody := query_append emailaddr password
  rw [← hm] at hbody
  have hn : 16 + strlen emailaddr.val + strlen password.val =
      (query emailaddr password).length + m.length + 1 := by
    have hlen' := congrArg List.length hbody
    have hmail : (bytes "mail=").length = 5 := by decide
    have hname : (bytes "&password=").length = 10 := by decide
    simp only [List.length_append, hmail, hname] at hlen'
    rw [strlen_of_notMem emailaddr.property, strlen_of_notMem password.property]
    omega
  have hends : ∀ c ∈ m, isLineEnd c = true := by
    intro c hc
    rw [hm] at hc
    have h13 := List.mem_rtakeWhile_imp hc
    rw [decide_eq_true_eq] at h13
    rw [h13]
    rfl
  have hnewline : newline ∉ query emailaddr password ++ m := by
    rw [hbody]
    simp only [List.mem_append, not_or]
    exact ⟨by decide, hemail, by decide, hpassword⟩
  have hzero : 0 ∉ query emailaddr password :=
    notMem_query (by decide) (by decide) emailaddr.property password.property
  have htext : singleRequest emailaddr password = bytes "POST /\n" ++ (bytes "Content-Length: " ++
      (decimal (16 + strlen emailaddr.val + strlen password.val) ++ (bytes "\n\n" ++
        (query emailaddr password ++ m ++ newline :: [])))) := by
    rw [hbody, singleRequest, List.append_assoc, List.append_assoc, List.append_assoc]
    rfl
  have hsmall : 16 + strlen emailaddr.val + strlen password.val < 10 ^ 4 := by
    rw [strlen_of_notMem emailaddr.property, strlen_of_notMem password.property]
    omega
  obtain ⟨buf', hsession⟩ := returns_handleSession_iff pkg buf hsmall
    (query emailaddr password ++ m ++ newline :: []) rc
  rw [htext, hsession, handleBody_eq (exists_getLast_query hpassword) hzero hends hnewline buf' [] rc hn]
  exact returns_process hzero

theorem agrees_iff_query (hemail : newline ∉ emailaddr.val) (hpassword : newline ∉ password.val)
    (hlen : 16 + emailaddr.val.length + password.val.length < 1024) :
    Agrees pkg buf rc emailaddr password ↔ (tokens (query emailaddr password)).foldlM addField
      (none, none) = some (some emailaddr, some password) := by
  have hrun := returns_handleSession_query pkg buf rc hemail hpassword hlen
  rw [Agrees, ← shareFor_shared_iff (r := (emailaddr, password))]
  constructor
  · rintro ⟨written, h⟩
    rw [hrun.unique h]
  · intro h
    refine ⟨(shareFor ((tokens (query emailaddr password)).foldlM addField (none, none))).written, ?_⟩
    rw [← h]
    exact hrun

theorem tokens_query (emailaddr password : CString) : tokens (query emailaddr password) =
    tokens (bytes "mail=" ++ emailaddr.val ++ [38]) ++
      tokens (bytes "password=" ++ trimmed password) := by
  have hname : bytes "&password=" = 38 :: bytes "password=" := by decide
  rw [← tokens_append, query, hname, ← List.append_assoc]
  rfl

theorem plain_of_decoded {s : CString} (h : charstarFromByteString (decoded s.val) = s) :
    43 ∉ s.val ∧ 37 ∉ s.val := notMem_of_decoded (congrArg Subtype.val h)

theorem length_le_of_decoded {s : CString} {v : ByteString}
    (h : s = charstarFromByteString (decoded v)) : s.val.length ≤ v.length := by
  have hle : (charstarFromByteString (decoded v)).val.length ≤ (decoded v).length :=
    (List.takeWhile_prefix _).length_le
  rw [← h] at hle
  exact hle.trans (length_decoded_le v)

theorem decoded_plain {s : CString} (h : Plain s) : charstarFromByteString (decoded s.val) = s := by
  rw [decoded_eq_self h.plus h.percent]
  exact charstarFromByteString_set s

/-- The password that is found is the one of the client only when nothing is left of
the query behind it. -/
theorem plain_password (h : (tokens (query emailaddr password)).foldlM addField (none, none) =
    some (some emailaddr, some password)) : trimmed password = password.val ∧ Plain password := by
  rw [tokens_query, List.foldlM_append] at h
  obtain ⟨f, -, hus⟩ := Option.bind_eq_some_iff.1 h
  -- the token behind the name has the password, unless a later one has it
  obtain ⟨v, hv, heq⟩ : ∃ v, bytes "password=" ++ v ∈ tokens (bytes "password=" ++ trimmed password) ∧
      password = charstarFromByteString (decoded v) := by
    have hne : bytes "password=" ++ trimmed password ≠ [] :=
      List.append_ne_nil_of_left_ne_nil (by decide) _
    obtain ⟨t, rest, -, ht, -, -, htokens⟩ := getToken_eq hne
    rw [List.takeWhile_append_of_pos (by decide +kernel)] at ht
    rw [htokens, ht, List.foldlM_cons, addField_password] at hus
    rw [htokens, ht]
    rcases password_of_foldlM hus with heq | ⟨v, hv, heq⟩
    · exact ⟨_, List.mem_cons_self, Option.some.inj heq⟩
    · exact ⟨v, List.mem_cons_of_mem _ hv, Option.some.inj heq⟩
  obtain ⟨hsub, hampersand⟩ := mem_tokens hv
  have hpre : trimmed password <+: password.val := List.rdropWhile_prefix _ _
  have hlen : v.length = (trimmed password).length ∧
      (trimmed password).length = password.val.length := by
    have hle := hsub.length_le
    have hle' := length_le_of_decoded heq
    have htrim := hpre.length_le
    simp only [List.length_append] at hle
    omega
  have htrimmed := hpre.eq_of_length hlen.2
  obtain rfl : v = password.val := by
    have h := hsub.eq_of_length (by rw [List.length_append, List.length_append, hlen.1])
    rw [← htrimmed]
    exact List.append_cancel_left h
  obtain ⟨hplus, hpercent⟩ := plain_of_decoded heq.symm
  exact ⟨htrimmed, fun hmem => hampersand (List.mem_append_right _ hmem), hplus, hpercent⟩

theorem plain_email (h : (tokens (query emailaddr password)).foldlM addField (none, none) =
    some (some emailaddr, some password)) (hpassword : Plain password)
    (htrimmed : trimmed password = password.val) : Plain emailaddr := by
  have hpass := hpassword.notMem_append (s := bytes "password=") (by decide)
  have hne : bytes "password=" ++ password.val ≠ [] :=
    List.append_ne_nil_of_left_ne_nil (by decide) _
  rw [tokens_query, htrimmed, tokens_of_notMem hne hpass, List.foldlM_append] at h
  obtain ⟨f, hts, hus⟩ := Option.bind_eq_some_iff.1 h
  rw [List.foldlM_cons, addField_password] at hus
  have hf : f.1 = some emailaddr := congrArg Prod.fst (Option.some.inj hus)
  obtain ⟨v, hv, heq⟩ := (mail_of_foldlM hts).resolve_left (by simp [hf])
  rw [hf] at heq
  have heq := Option.some.inj heq
  have hsub := mem_tokens_append hv
  obtain rfl : v = emailaddr.val := by
    have hle := hsub.length_le
    have hle' := length_le_of_decoded heq
    simp only [List.length_append] at hle
    exact List.append_cancel_left (hsub.eq_of_length (by simp only [List.length_append]; omega))
  obtain ⟨hplus, hpercent⟩ := plain_of_decoded heq.symm
  exact ⟨fun hmem => (mem_tokens hv).2 (List.mem_append_right _ hmem), hplus, hpercent⟩

theorem foldlM_query (hemail : Plain emailaddr) (hpassword : Plain password)
    (htrimmed : trimmed password = password.val) :
    (tokens (query emailaddr password)).foldlM addField (none, none) =
      some (some emailaddr, some password) := by
  have hmail := hemail.notMem_append (s := bytes "mail=") (by decide)
  have hpass := hpassword.notMem_append (s := bytes "password=") (by decide)
  have hne : bytes "password=" ++ password.val ≠ [] :=
    List.append_ne_nil_of_left_ne_nil (by decide) _
  rw [tokens_query, htrimmed, tokens_append_separator hmail, tokens_of_notMem hne hpass,
    List.singleton_append, List.foldlM_cons, addField_mail, Option.bind_eq_bind, Option.bind_some,
    List.foldlM_cons, addField_password, Option.bind_eq_bind, Option.bind_some, List.foldlM_nil,
    decoded_plain hemail, decoded_plain hpassword]
  rfl

theorem trimmed_eq_self_iff (password : CString) :
    trimmed password = password.val ↔ password.val.getLast? ≠ some 13 := by
  rw [trimmed, List.rdropWhile_eq_self_iff]
  by_cases hnil : password.val = []
  · simp [hnil]
  · simp [List.getLast?_eq_some_getLast hnil, hnil]

/-- Client and server agree exactly when nothing in the two strings is taken for a
part of the form. -/
theorem agrees_iff (pkg : Pkg) (buf : ByteString) (rc : Int) (hemail : newline ∉ emailaddr.val)
    (hpassword : newline ∉ password.val)
    (hlen : 16 + emailaddr.val.length + password.val.length < 1024) :
    Agrees pkg buf rc emailaddr password ↔
      Plain emailaddr ∧ Plain password ∧ password.val.getLast? ≠ some 13 := by
  rw [agrees_iff_query hemail hpassword hlen, ← trimmed_eq_self_iff]
  constructor
  · intro h
    obtain ⟨htrimmed, hplain⟩ := plain_password h
    exact ⟨plain_email h hplain htrimmed, hplain, htrimmed⟩
  · rintro ⟨hplain, hplain', htrimmed⟩
    exact foldlM_query hplain hplain' htrimmed

def alice : CString := charstarFromByteString (bytes "alice@example.com")

def secret : CString := charstarFromByteString (bytes "a=b c")

theorem agrees_alice : Agrees ⟨[], []⟩ [] 0 alice secret :=
  (agrees_iff ⟨[], []⟩ [] 0 (by decide) (by decide) (by decide)).2
    ⟨⟨by decide, by decide, by decide⟩,
      ⟨by decide, by decide, by decide⟩, by decide⟩

/-- A plus sign in the address comes out as a space. -/
def tagged : CString := charstarFromByteString (bytes "alice+ibe@example.com")

theorem not_agrees : ¬∀ (pkg : Pkg) (buf : ByteString) (rc : Int) (emailaddr password : CString),
    emailaddr.val ≠ [] → password.val ≠ [] → newline ∉ emailaddr.val → newline ∉ password.val →
      16 + emailaddr.val.length + password.val.length < 1024 →
        Agrees pkg buf rc emailaddr password := by
  intro hall
  have hagrees := hall ⟨[], []⟩ [] 0 tagged secret (by decide) (by decide)
    (by decide) (by decide) (by decide)
  rw [agrees_iff_query (by decide) (by decide) (by decide)] at hagrees
  obtain ⟨htrimmed, hplain⟩ := plain_password hagrees
  exact absurd (plain_email hagrees hplain htrimmed).plus (by decide)

end Agreement

end IdBasedEncryption.RequestAgreement
