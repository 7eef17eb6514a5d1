import IdBasedEncryption.RequestAgreement
import IdBasedEncryption.ShareCollection

namespace IdBasedEncryption.Handshakes

open ByteStrings FuelLoops Stdio PkgHtml FormFields Request RequestAgreement

section Model

/-- The client makes one round less than the server does. -/
def mysslReadline (ssl : Ssl) (buf : ByteString) (maxlen : Int) : Int × ByteString × Ssl :=
  PkgHtml.mysslReadline ssl buf (maxlen - 1)

def marker : ByteString := bytes "<!-- PKG: "

/-- Lines are read until one starts with the marker. -/
def searchRound (c : Reading) : Option Reading ⊕ Reading :=
  let r := mysslReadline c.ssl c.buf 1024
  if r.1 ≤ 0 then .inl none
  else if strncmp r.2.1 marker (strlen marker) then .inl (some ⟨r.2.1, r.2.2⟩)
  else .inr ⟨r.2.1, r.2.2⟩

/-- What is left in front of the first `t` that `strstr` finds. -/
def cut (t : ByteString) : ByteString → ByteString
  | [] => []
  | c :: s => if t <+: c :: s then [] else c :: cut t s

def servername (buf : ByteString) : ByteString :=
  cut (bytes " -->") (charstarFromByteString (buf.drop (strlen marker))).val

structure Printing where
  reading : Reading
  printed : List ByteString

def printRound (c : Printing) : List ByteString ⊕ Printing :=
  let r := mysslReadline c.reading.ssl c.reading.buf 1024
  if r.1 ≤ 0 then .inl c.printed
  else .inr ⟨⟨r.2.1, r.2.2⟩,
    c.printed ++ [bytes "server: " ++ (charstarFromByteString r.2.1).val]⟩

/-- What the buffers hold: that of the server in both sessions, and that of the client
behind each of them. -/
structure Buffers where
  get : ByteString
  post : ByteString
  search : ByteString
  print : ByteString

/-- What a request returns and prints, and what the server makes a key share for. -/
structure Attempt where
  status : Int
  printed : List ByteString
  shared : Option (CString × CString)

/-- The two connections to a server that answers, with a password unless the entry
fails. It closes them behind its answers. -/
def singleRequest (pkg : Pkg) (buffers : Buffers) (rc : Int) (emailaddr : CString)
    (password : Option CString) (fuel : Nat) : Option Attempt :=
  (handleSession pkg buffers.get ⟨bytes "GET /\n", rc⟩ fuel).bind fun first =>
    (loop searchRound ⟨buffers.search, ⟨first.written, 0⟩⟩ fuel).bind fun found =>
      match found with
      | none => some ⟨-1, [], none⟩
      | some c =>
          let line := bytes "server name: " ++ (servername c.buf ++ bytes "\n")
          match password with
          | none => some ⟨1, [line], none⟩
          | some password =>
              (handleSession pkg buffers.post ⟨Request.singleRequest emailaddr password, rc⟩
                fuel).bind fun second =>
                (loop printRound ⟨⟨buffers.print, ⟨second.written, 0⟩⟩, []⟩ fuel).map fun lines =>
                  ⟨1, line :: lines, second.shared⟩

/-- The comment in front of the page, as `main` prints it into its buffer. -/
def htmlcomment (servername : CString) : ByteString :=
  bytes "<!-- PKG: " ++ (servername.val ++ bytes " -->\n")

end Model

section Cut

variable {t s x : ByteString}

/-- Everything in front of `t` is found unless `t` starts earlier. -/
theorem cut_append_iff (ht : t ≠ []) (s x : ByteString) :
    cut t (s ++ (t ++ x)) = s ↔ ¬t <:+: s ++ t.dropLast := by
  induction s with
  | nil =>
      obtain ⟨c, t', rfl⟩ := List.exists_cons_of_ne_nil ht
      have hshort : ¬c :: t' <:+: (c :: t').dropLast := by
        intro h
        have hlen := h.length_le
        rw [List.length_dropLast, List.length_cons] at hlen
        omega
      have hfound : c :: t' <+: c :: (t' ++ x) := List.prefix_append (c :: t') x
      rw [List.nil_append, List.nil_append, List.cons_append, cut, if_pos hfound]
      exact iff_of_true rfl hshort
  | cons c s ih =>
      have hprefix : t <+: c :: (s ++ (t ++ x)) ↔ t <+: c :: (s ++ t.dropLast) := by
        have hsplit : c :: (s ++ (t ++ x)) = (c :: (s ++ t.dropLast)) ++ (t.getLast ht :: x) := by
          rw [List.cons_append, List.append_assoc]
          conv_lhs => rw [← List.dropLast_append_getLast ht]
          rw [List.append_assoc, List.singleton_append]
        have hlen : t.length ≤ (c :: (s ++ t.dropLast)).length := by
          rw [List.length_cons, List.length_append, List.length_dropLast]
          omega
        rw [hsplit]
        exact ⟨fun h => List.prefix_of_prefix_length_le h (List.prefix_append _ _) hlen,
          fun h => h.trans (List.prefix_append _ _)⟩
      rw [List.cons_append, List.cons_append, List.infix_cons_iff, not_or, ← ih, ← hprefix, cut]
      split
      · next h => exact iff_of_false (by simp) fun hn => hn.1 h
      · next h => simp [h]

end Cut

section Lines

variable {l x buf : ByteString} {rc : Int}

theorem mysslReadline_line (hl : newline ∉ l) (hlen : l.length < 1023) (buf x : ByteString) (rc : Int) :
    mysslReadline ⟨l ++ newline :: x, rc⟩ buf 1024 =
      ((l.length : Int) + 1, stored (l ++ [newline]) buf, ⟨x, rc⟩) :=
  PkgHtml.mysslReadline_line hl (by omega) buf x rc

theorem strncmp_marker (l buf : ByteString) :
    strncmp (stored l buf) marker (strlen marker) = true ↔ marker <+: l := by
  have hlen : strlen marker = marker.length := by decide
  rw [hlen]
  exact strncmp_buf (by decide) l buf

/-- A line without the marker is passed over. -/
theorem returns_search_skip_iff (hl : newline ∉ l) (hlen : l.length < 1023)
    (hmarker : ¬marker <+: l ++ [newline]) (r : Option Reading) :
    Returns (loop searchRound ⟨buf, ⟨l ++ newline :: x, rc⟩⟩) r ↔
      Returns (loop searchRound ⟨stored (l ++ [newline]) buf, ⟨x, rc⟩⟩) r := by
  refine returns_loop_inr_iff ?_
  rw [searchRound, mysslReadline_line hl hlen]
  dsimp only
  rw [if_neg (by omega), if_neg]
  rwa [strncmp_marker]

theorem returns_search_found (hl : newline ∉ l) (hlen : l.length < 1023) (hmarker : marker <+: l) :
    Returns (loop searchRound ⟨buf, ⟨l ++ newline :: x, rc⟩⟩)
      (some ⟨stored (l ++ [newline]) buf, ⟨x, rc⟩⟩) := by
  apply returns_loop_inl
  rw [searchRound, mysslReadline_line hl hlen]
  dsimp only
  rw [if_neg (by omega), if_pos ((strncmp_marker _ _).2 (hmarker.trans (List.prefix_append _ _)))]

/-- A connection that is closed behind one line. -/
theorem returns_print (hl : newline ∉ l) (hlen : l.length < 1023) (h0 : 0 ∉ l) (buf : ByteString) :
    Returns (loop printRound ⟨⟨buf, ⟨l ++ [newline], 0⟩⟩, []⟩)
      [bytes "server: " ++ (l ++ [newline])] := by
  have hstring : (charstarFromByteString (stored (l ++ [newline]) buf)).val = l ++ [newline] := by
    have hzero : 0 ∉ l ++ [newline] := by
      rw [List.mem_append, not_or]
      exact ⟨h0, by decide⟩
    rw [stored, charstarFromByteString_append_zero]
    exact congrArg Subtype.val (charstarFromByteString_set ⟨_, hzero⟩)
  have hfirst : printRound ⟨⟨buf, ⟨l ++ [newline], 0⟩⟩, []⟩ =
      .inr ⟨⟨stored (l ++ [newline]) buf, ⟨[], 0⟩⟩, [bytes "server: " ++ (l ++ [newline])]⟩ := by
    rw [printRound, mysslReadline_line hl hlen]
    dsimp only
    rw [if_neg (by omega), hstring]
    rfl
  exact returns_loop_inr hfirst (returns_loop_inl rfl)

end Lines

section Exchange

variable {pkg : Pkg} {buffers : Buffers} {rc : Int} {name emailaddr password : CString}
  {html buf : ByteString}

theorem returns_handleSession_get (pkg : Pkg) (buf : ByteString) (rc : Int) :
    Returns (handleSession pkg buf ⟨bytes "GET /\n", rc⟩)
      ⟨bytes "HTTP/1.0 200 ok\r\nContent-type: text/html\r\n\r\n" ++ pkg.htmlcomment ++ pkg.bshtml,
        none⟩ := by
  have hread := PkgHtml.mysslReadline_line (l := bytes "GET /") (by decide)
    (show ((bytes "GET /").length : Int) < 1024 by decide) buf [] rc
  have hget : strncmp (stored (bytes "GET /" ++ [newline]) buf) (bytes "GET ") 4 = true :=
    (strncmp_buf (s := bytes "GET ") (by decide) _ _).2 (by decide)
  have htext : bytes "GET /\n" = bytes "GET /" ++ newline :: [] := by decide
  have hlen : ¬((bytes "GET /").length : Int) + 1 < 4 := by decide
  have hrun : handleSession pkg buf ⟨bytes "GET /\n", rc⟩ = fun _ =>
      some ⟨bytes "HTTP/1.0 200 ok\r\nContent-type: text/html\r\n\r\n" ++ pkg.htmlcomment ++ pkg.bshtml,
        none⟩ := by
    funext fuel
    rw [htext, handleSession, hread]
    dsimp only
    rw [if_neg hlen, if_pos hget]
  rw [hrun]
  exact returns_some _

/-- The client finds the comment behind the headers of the answer. -/
theorem returns_search (hnl : newline ∉ name.val) (hlen : name.val.length ≤ 64) (html buf : ByteString) :
    ∃ c, Returns (loop searchRound ⟨buf, ⟨bytes "HTTP/1.0 200 ok\r\nContent-type: text/html\r\n\r\n" ++
        htmlcomment name ++ html, 0⟩⟩) (some c) ∧
      servername c.buf = cut (bytes " -->") (name.val ++ (bytes " -->" ++ [newline])) := by
  obtain ⟨l, hl⟩ : ∃ l, marker ++ (name.val ++ bytes " -->") = l := ⟨_, rfl⟩
  have hhead : bytes "HTTP/1.0 200 ok\r\nContent-type: text/html\r\n\r\n" =
      bytes "HTTP/1.0 200 ok\r" ++ newline :: (bytes "Content-type: text/html\r" ++
        newline :: (bytes "\r" ++ newline :: [])) := by decide
  have hcomment : htmlcomment name = l ++ [newline] := by
    have hend : bytes " -->\n" = bytes " -->" ++ [newline] := by decide
    rw [htmlcomment, hend, ← hl, marker]
    simp only [List.append_assoc]
  have htext : bytes "HTTP/1.0 200 ok\r\nContent-type: text/html\r\n\r\n" ++ htmlcomment name ++ html =
      bytes "HTTP/1.0 200 ok\r" ++ newline :: (bytes "Content-type: text/html\r" ++
        newline :: (bytes "\r" ++ newline :: (l ++ newline :: html))) := by
    rw [hhead, hcomment]
    simp only [List.append_assoc, List.cons_append, List.nil_append]
  have hlnl : newline ∉ l := by
    rw [← hl]
    simp only [List.mem_append, not_or]
    exact ⟨by decide, hnl, by decide⟩
  have hllen : l.length < 1023 := by
    have hm : marker.length = 10 := by decide
    have he : (bytes " -->").length = 4 := by decide
    rw [← hl, List.length_append, List.length_append, hm, he]
    omega
  obtain ⟨buf', hbuf'⟩ : ∃ buf', stored (bytes "\r" ++ [newline])
      (stored (bytes "Content-type: text/html\r" ++ [newline])
        (stored (bytes "HTTP/1.0 200 ok\r" ++ [newline]) buf)) = buf' := ⟨_, rfl⟩
  refine ⟨⟨stored (l ++ [newline]) buf', ⟨html, 0⟩⟩, ?_, ?_⟩
  · rw [htext, returns_search_skip_iff (by decide) (by decide) (by decide),
      returns_search_skip_iff (by decide) (by decide) (by decide),
      returns_search_skip_iff (by decide) (by decide) (by decide), hbuf']
    exact returns_search_found hlnl hllen (hl ▸ List.prefix_append _ _)
  · have hzero : 0 ∉ name.val ++ (bytes " -->" ++ [newline]) := by
      simp only [List.mem_append, not_or]
      exact ⟨name.property, by decide, by decide⟩
    have hdrop (y : ByteString) : (stored (l ++ [newline]) y).drop (strlen marker) =
        (name.val ++ (bytes " -->" ++ [newline])) ++ 0 :: y.drop ((l ++ [newline]).length + 1) := by
      have hm : strlen marker = marker.length := by decide
      rw [stored, hm, ← hl]
      simp only [List.append_assoc, List.drop_left]
    rw [servername, hdrop, charstarFromByteString_append_zero]
    exact congrArg (cut (bytes " -->")) (congrArg Subtype.val (charstarFromByteString_set ⟨_, hzero⟩))

theorem notMem_emailShare {c : UInt8} (h : c ∉ emailaddr.val) : c ∉ emailShare emailaddr := by
  rw [emailShare]
  split
  · exact h
  · split
    · exact fun hmem => h (List.dropLast_subset _ hmem)
    · exact h

theorem length_emailShare_le (emailaddr : CString) :
    (emailShare emailaddr).length ≤ emailaddr.val.length := by
  rw [emailShare]
  split
  · exact le_rfl
  · split
    · rw [List.length_dropLast]
      omega
    · exact le_rfl

/-- What the client prints of the name is in front of the first end of a comment. -/
def nameLine (name : CString) : ByteString :=
  bytes "server name: " ++ (cut (bytes " -->") (name.val ++ (bytes " -->" ++ [newline])) ++ bytes "\n")

def answerLine (emailaddr : CString) : ByteString :=
  bytes "server: Key share mailed to " ++ (emailShare emailaddr ++ bytes "\n")

/-- A server with a short name, as it is after the start. -/
structure Named (pkg : Pkg) (name : CString) : Prop where
  htmlcomment_eq : pkg.htmlcomment = htmlcomment name
  newline_notMem : newline ∉ name.val
  length_le : name.val.length ≤ 64

/-- An address and a password that the form does not change. -/
structure PlainRequest (emailaddr password : CString) : Prop where
  newline_notMem_email : newline ∉ emailaddr.val
  newline_notMem_password : newline ∉ password.val
  length_lt : 16 + emailaddr.val.length + password.val.length < 1024
  length_email_lt : emailaddr.val.length < 1003
  plain_email : Plain emailaddr
  plain_password : Plain password
  getLast_ne : password.val.getLast? ≠ some 13

theorem returns_singleRequest (hpkg : Named pkg name) (h : PlainRequest emailaddr password)
    (buffers : Buffers) (rc : Int) :
    Returns (singleRequest pkg buffers rc emailaddr (some password))
      ⟨1, [nameLine name, answerLine emailaddr], some (emailaddr, password)⟩ := by
  have hfirst := returns_handleSession_get pkg buffers.get rc
  obtain ⟨c, hsearch, hservername⟩ := returns_search hpkg.newline_notMem hpkg.length_le pkg.bshtml
    buffers.search
  rw [← hpkg.htmlcomment_eq] at hsearch
  have hsecond := returns_handleSession_query pkg buffers.post rc
    h.newline_notMem_email h.newline_notMem_password h.length_lt
  rw [foldlM_query h.plain_email h.plain_password ((trimmed_eq_self_iff password).2 h.getLast_ne)]
    at hsecond
  obtain ⟨l, hl⟩ : ∃ l, bytes "Key share mailed to " ++ emailShare emailaddr = l := ⟨_, rfl⟩
  have hnewline : bytes "\n" = [newline] := by decide
  have hwritten : (shareFor (some (some emailaddr, some password))).written = l ++ [newline] := by
    rw [← hl, ← hnewline]
    rfl
  have hnl : newline ∉ l := by
    rw [← hl, List.mem_append, not_or]
    exact ⟨by decide, notMem_emailShare h.newline_notMem_email⟩
  have hzero : 0 ∉ l := by
    rw [← hl, List.mem_append, not_or]
    exact ⟨by decide, notMem_emailShare emailaddr.property⟩
  have hlen : l.length < 1023 := by
    have h20 : (bytes "Key share mailed to ").length = 20 := by decide
    have hle := length_emailShare_le emailaddr
    have hlt := h.length_email_lt
    rw [← hl, List.length_append, h20]
    omega
  have hprint := returns_print hnl hlen hzero buffers.print
  have hline : bytes "server: " ++ (l ++ [newline]) = answerLine emailaddr := by
    have hsplit : bytes "server: Key share mailed to " =
        bytes "server: " ++ bytes "Key share mailed to " := by decide
    rw [answerLine, hsplit, ← hl, hnewline]
    simp only [List.append_assoc]
  rw [hline] at hprint
  refine hfirst.bind (hsearch.bind ?_)
  dsimp only
  rw [hservername]
  refine hsecond.bind ?_
  rw [hwritten]
  exact hprint.map _

/-- Without a password nothing is sent, but the client takes this for a success. -/
theorem returns_singleRequest_none (hpkg : Named pkg name) (emailaddr : CString) (buffers : Buffers)
    (rc : Int) :
    Returns (singleRequest pkg buffers rc emailaddr none) ⟨1, [nameLine name], none⟩ := by
  have hfirst := returns_handleSession_get pkg buffers.get rc
  obtain ⟨c, hsearch, hservername⟩ := returns_search hpkg.newline_notMem hpkg.length_le pkg.bshtml
    buffers.search
  rw [← hpkg.htmlcomment_eq] at hsearch
  refine hfirst.bind (hsearch.bind ?_)
  dsimp only
  rw [hservername]
  exact returns_some _

theorem nameLine_eq_iff (name : CString) :
    nameLine name = bytes "server name: " ++ (name.val ++ bytes "\n") ↔
      ¬bytes " -->" <:+: name.val ++ bytes " --" := by
  have hdropLast : bytes " --" = (bytes " -->").dropLast := by decide
  rw [hdropLast, ← cut_append_iff (by decide) name.val [newline], nameLine]
  exact (List.append_right_inj _).trans (List.append_left_inj _)

end Exchange

section Requests

open Config ShareCollection IbeLib

/-- The servers that answer, by name and port. -/
abbrev Network := ByteString → Int → Option Pkg

/-- The outcomes of the attempts in a network: no connection is an error. -/
structure Attempts (net : Network) (buffers : Nat → Buffers) (rc : Int) (emailaddr : CString)
    (passwords : Nat → Option CString) (outcomes : Outcomes) : Prop where
  down (i : Nat) {host : ByteString} {port : Int} : net host port = none → outcomes i host port = -1
  up (i : Nat) {host : ByteString} {port : Int} {pkg : Pkg} : net host port = some pkg →
    ∃ a, Returns (singleRequest pkg (buffers i) rc emailaddr (passwords i)) a ∧
      outcomes i host port = a.status

variable {net : Network} {buffers : Nat → Buffers} {rc : Int} {emailaddr : CString}
  {passwords : Nat → Option CString} {outcomes : Outcomes} {params : Params} {t : Nat}
  {cnfctx : ConfCtx} {argv : List CString} {hosts : List ByteString}

/-- What becomes of the attempt at one of the servers. The client sees the name as far
as a comment goes. -/
structure Answered (net : Network) (buffers : Nat → Buffers) (rc : Int) (emailaddr : CString)
    (passwords : Nat → Option CString) (host : ByteString) (port : Int) (i : Nat) : Prop where
  exists_server : ∃ pkg name printed, net host port = some pkg ∧ Named pkg name ∧
    Returns (singleRequest pkg (buffers i) rc emailaddr (passwords i))
      ⟨1, printed, (passwords i).map (emailaddr, ·)⟩ ∧
    (printed.head? = some (bytes "server name: " ++ (name.val ++ bytes "\n")) ↔
      ¬bytes " -->" <:+: name.val ++ bytes " --")

theorem answered {host : ByteString} {port : Int} {pkg : Pkg} {name : CString} {i : Nat}
    (hnet : net host port = some pkg) (hnamed : Named pkg name)
    (hplain : ∀ pw ∈ passwords i, PlainRequest emailaddr pw) :
    Answered net buffers rc emailaddr passwords host port i where
  exists_server := by
    have hhead {lines : List ByteString} : (nameLine name :: lines).head? =
        some (bytes "server name: " ++ (name.val ++ bytes "\n")) ↔
          ¬bytes " -->" <:+: name.val ++ bytes " --" := by
      rw [List.head?_cons, Option.some_inj]
      exact nameLine_eq_iff name
    cases hpw : passwords i with
    | none => exact ⟨pkg, name, _, hnet, hnamed, returns_singleRequest_none hnamed emailaddr (buffers i) rc,
        hhead⟩
    | some pw => exact ⟨pkg, name, _, hnet, hnamed, returns_singleRequest hnamed (hplain pw hpw)
        (buffers i) rc, hhead⟩

/-- When the first servers of the list all succeed, no other one is asked. -/
theorem returns_request_of_succeeds (ht : params.sharet = t) (hargv : 2 ≤ argv.length)
    (hhosts : getListParam cnfctx serversName 0 none = some hosts) (hlen : t ≤ hosts.length)
    (hsucceeds : ∀ i < t, Succeeds (getIntParam cnfctx defaultPortName 0 31831) outcomes hosts i) :
    ∃ c, Returns (request outcomes params cnfctx argv) (0, c) ∧ c.i = t := by
  obtain ⟨port, hport⟩ : ∃ port, getIntParam cnfctx defaultPortName 0 31831 = port := ⟨_, rfl⟩
  rw [hport] at hsucceeds
  have hall := (successes_eq_iff t).2 hsucceeds
  have hrequest : request outcomes params cnfctx argv =
      loop (collectRound port outcomes t hosts) (after port outcomes hosts 0) := by
    have hinit : collectInit = after port outcomes hosts 0 := by
      simp [collectInit, after, successes]
    funext fuel
    simp only [request, if_neg (show ¬argv.length < 2 by omega), hhosts, ht, hport, collect, hinit]
  rw [hrequest]
  rcases returns_collectLoop (t := t) (Nat.zero_le hosts.length) with
    ⟨m, -, -, hsuccess, hbefore, hret⟩ | ⟨hend, -⟩
  · refine ⟨_, hret, ?_⟩
    have htm : t ≤ m := hsuccess.trans (successes_le m)
    rcases htm.eq_or_lt with rfl | hlt
    · rfl
    · exact absurd (hbefore t (Nat.zero_le t) hlt) (by rw [hall]; exact lt_irrefl t)
  · have hmono : successes port outcomes hosts t ≤ successes port outcomes hosts hosts.length :=
      successes_mono hlen
    rw [hall] at hmono
    omega

/-- With as many servers in front of the list as are needed, each of them is asked once,
and it makes a key share for the address and the password of this attempt, if there is
one. -/
theorem request_answered (hrun : Attempts net buffers rc emailaddr passwords outcomes)
    (ht : params.sharet = t) (hargv : argv[1]? = some emailaddr)
    (hhosts : getListParam cnfctx serversName 0 none = some hosts) (hlen : t ≤ hosts.length)
    (hnet : ∀ i < t, ∀ host ∈ hosts[i]?, ∃ pkg name, Named pkg name ∧
      net (serverName host) (serverPort (getIntParam cnfctx defaultPortName 0 31831) host) = some pkg)
    (hplain : ∀ i < t, ∀ pw ∈ passwords i, PlainRequest emailaddr pw) :
    ∃ c, Returns (request outcomes params cnfctx argv) (0, c) ∧ c.i = t ∧
      ∀ i < t, ∀ host ∈ hosts[i]?, Answered net buffers rc emailaddr passwords (serverName host)
        (serverPort (getIntParam cnfctx defaultPortName 0 31831) host) i := by
  obtain ⟨harg, -⟩ := List.getElem?_eq_some_iff.1 hargv
  have hanswered : ∀ i < t, ∀ host ∈ hosts[i]?, Answered net buffers rc emailaddr passwords
      (serverName host) (serverPort (getIntParam cnfctx defaultPortName 0 31831) host) i := by
    intro i hi host hhost
    obtain ⟨pkg, name, hnamed, hpkg⟩ := hnet i hi host hhost
    exact answered hpkg hnamed (hplain i hi)
  have hsucceeds : ∀ i < t, Succeeds (getIntParam cnfctx defaultPortName 0 31831) outcomes hosts i := by
    intro i hi host hhost
    obtain ⟨pkg, name, printed, hpkg, -, hreturns, -⟩ := (hanswered i hi host hhost).exists_server
    obtain ⟨a, ha, hstatus⟩ := hrun.up i hpkg
    rw [hstatus, ha.unique hreturns]
  obtain ⟨c, hret, hc⟩ := returns_request_of_succeeds ht harg hhosts hlen hsucceeds
  exact ⟨c, hret, hc, hanswered⟩

def sampleName : CString := charstarFromByteString (bytes "server 0")

def samplePkg : Pkg := ⟨htmlcomment sampleName, []⟩

theorem named_samplePkg : Named samplePkg sampleName := ⟨rfl, by decide, by decide⟩

/-- A password is entered for the first server only. -/
def samplePasswords (i : Nat) : Option CString := if i = 0 then some secret else none

theorem plainRequest_sample : ∀ i, ∀ pw ∈ samplePasswords i,
    PlainRequest (charstarFromByteString (bytes "bob")) pw := by
  intro i pw hpw
  rw [samplePasswords] at hpw
  split at hpw
  · obtain rfl := Option.some.inj hpw
    exact ⟨by decide, by decide, by decide, by decide, ⟨by decide, by decide, by decide⟩,
      ⟨by decide, by decide, by decide⟩, by decide⟩
  · cases hpw

theorem request_answered_sample :
    ∃ c, Returns (request (fun _ _ _ => 1) (sampleParams 2) sampleConfig sampleArgv) (0, c) ∧ c.i = 2 ∧
      ∀ i < 2, ∀ host ∈ sampleServers[i]?, Answered (fun _ _ => some samplePkg)
        (fun _ => ⟨[], [], [], []⟩) 0 (charstarFromByteString (bytes "bob")) samplePasswords
        (serverName host) (serverPort (getIntParam sampleConfig defaultPortName 0 31831) host) i := by
  refine request_answered ⟨fun _ _ _ h => (nomatch h), fun i _ _ pkg h => ?_⟩ rfl (by decide)
    (by decide) (by decide) (fun _ _ _ _ => ⟨samplePkg, sampleName, named_samplePkg, rfl⟩)
    (fun i _ => plainRequest_sample i)
  obtain rfl := Option.some.inj h
  cases hpw : samplePasswords i with
  | none => exact ⟨_, returns_singleRequest_none named_samplePkg _ _ 0, rfl⟩
  | some pw =>
      exact ⟨_, returns_singleRequest named_samplePkg (plainRequest_sample i pw hpw) _ 0, rfl⟩

end Requests

end IdBasedEncryption.Handshakes
