import Mathlib.Data.List.Infix
import IdBasedEncryption.PkgHtml

namespace IdBasedEncryption.FormFields

open ByteStrings FuelLoops Stdio PkgHtml

section Translate

/-- What `translate` makes of a string. -/
def decoded : ByteString → ByteString
  | [] => []
  | c :: s =>
      if c = 43 then 32 :: decoded s
      else if c = 37 then
        match s with
        | a :: b :: s => (hextod a * 16 + hextod b) :: decoded s
        | _ => []
      else c :: decoded s

theorem decoded_plus (s : ByteString) : decoded (43 :: s) = 32 :: decoded s := by
  conv_lhs => unfold decoded
  rw [if_pos rfl]

theorem decoded_escape (a b : UInt8) (s : ByteString) :
    decoded (37 :: a :: b :: s) = (hextod a * 16 + hextod b) :: decoded s := by
  conv_lhs => unfold decoded
  rw [if_neg (by decide), if_pos rfl]

theorem decoded_plain {c : UInt8} (hplus : c ≠ 43) (hpercent : c ≠ 37) (s : ByteString) :
    decoded (c :: s) = c :: decoded s := by
  conv_lhs => unfold decoded
  rw [if_neg hplus, if_neg hpercent]

theorem length_decoded_le (s : ByteString) : (decoded s).length ≤ s.length := by
  fun_induction decoded s with
  | case1 => exact le_rfl
  | case2 s ih => exact Nat.succ_le_succ ih
  | case3 a b s hplus ih =>
      simp only [List.length_cons]
      omega
  | case4 => exact Nat.zero_le _
  | case5 c s hplus hpercent ih => exact Nat.succ_le_succ ih

theorem length_decoded_lt {s : ByteString} (h : 37 ∈ s) : (decoded s).length < s.length := by
  fun_induction decoded s with
  | case1 => cases h
  | case2 s ih => exact Nat.succ_lt_succ (ih (by simpa using h))
  | case3 a b s hplus ih =>
      have hle := length_decoded_le s
      simp only [List.length_cons]
      omega
  | case4 => exact Nat.succ_pos _
  | case5 c s hplus hpercent ih =>
      exact Nat.succ_lt_succ (ih (by simpa [Ne.symm hpercent] using h))

theorem decoded_eq_map {s : ByteString} (h : 37 ∉ s) :
    decoded s = s.map fun c => if c = 43 then 32 else c := by
  fun_induction decoded s with
  | case1 => rfl
  | case2 s ih => rw [List.map_cons, if_pos rfl, ih (by simpa using h)]
  | case3 => exact absurd List.mem_cons_self h
  | case4 => exact absurd List.mem_cons_self h
  | case5 c s hplus hpercent ih =>
      rw [List.map_cons, if_neg hplus, ih (fun hs => h (List.mem_cons_of_mem _ hs))]

theorem decoded_eq_self {s : ByteString} (hplus : 43 ∉ s) (hpercent : 37 ∉ s) :
    decoded s = s := by
  rw [decoded_eq_map hpercent]
  conv_rhs => rw [← List.map_id s]
  refine List.map_congr_left fun c hc => ?_
  have hne : c ≠ 43 := fun h => hplus (h ▸ hc)
  rw [if_neg hne, id]

/-- A string that comes out no shorter and unchanged has nothing to decode. -/
theorem notMem_of_decoded {v : ByteString} (h : (charstarFromByteString (decoded v)).val = v) :
    43 ∉ v ∧ 37 ∉ v := by
  have hpre : v <+: decoded v := by
    conv_lhs => rw [← h]
    exact List.takeWhile_prefix _
  have hpercent : 37 ∉ v := by
    intro hmem
    have hlt := length_decoded_lt hmem
    exact absurd hpre.length_le (by omega)
  have heq : decoded v = v :=
    (hpre.eq_of_length (le_antisymm hpre.length_le (length_decoded_le v))).symm
  refine ⟨fun hmem => ?_, hpercent⟩
  rw [decoded_eq_map hpercent] at heq
  have h43 : (43 : UInt8) ∈ v.map fun c => if c = 43 then 32 else c := heq.symm ▸ hmem
  obtain ⟨c, -, hc⟩ := List.mem_map.1 h43
  split at hc
  · cases hc
  · contradiction

variable {n : Nat} {out mid s x : ByteString}

theorem getD_read (out mid : ByteString) {i : Nat} (hi : i = out.length + mid.length) (c : UInt8)
    (r : ByteString) :
    (out ++ (mid ++ c :: r)).getD i 0 = c := by
  rw [← List.append_assoc, hi, ← List.length_append]
  simp

/-- The byte is written in front of what is still to be read. -/
theorem set_append (out mid : ByteString) (c d : UInt8) (r : ByteString) : ∃ mid',
    mid'.length = mid.length ∧
      (out ++ (mid ++ c :: r)).set out.length d = (out ++ [d]) ++ (mid' ++ r) := by
  cases mid with
  | nil => exact ⟨[], rfl, by simp⟩
  | cons m mid => exact ⟨mid ++ [c], by simp, by simp⟩

theorem set_terminator (out mid x : ByteString) :
    ∃ y, (out ++ (mid ++ 0 :: x)).set out.length 0 = out ++ 0 :: y := by
  obtain ⟨mid', -, h⟩ := set_append out mid 0 0 x
  exact ⟨mid' ++ x, by rw [h, List.append_assoc]; rfl⟩

theorem translateRound_byte {i j : Nat} (hj : j = out.length) (hi : i = out.length + mid.length)
    (hlt : i < n) {c d : UInt8} (h : c = 43 ∧ d = 32 ∨ c ≠ 43 ∧ c ≠ 37 ∧ d = c) (r : ByteString) :
    ∃ mid', mid'.length = mid.length ∧ translateRound n ⟨out ++ (mid ++ c :: r), i, j⟩ =
      .inr ⟨(out ++ [d]) ++ (mid' ++ r), i + 1, j + 1⟩ := by
  obtain ⟨mid', hlen, hset⟩ := set_append out mid c d r
  refine ⟨mid', hlen, ?_⟩
  have hget := getD_read out mid hi c r
  rw [← hset, hj]
  rcases h with ⟨rfl, rfl⟩ | ⟨hplus, hpercent, rfl⟩
  · simp only [translateRound, if_pos hlt, hget, if_true]
  · simp only [translateRound, if_pos hlt, hget, if_neg hplus, if_neg hpercent]

theorem translateRound_escape {i j : Nat} (hj : j = out.length)
    (hi : i = out.length + mid.length) (hlt : i + 2 < n) (a b : UInt8) (r : ByteString) :
    ∃ mid', mid'.length = mid.length + 2 ∧
      translateRound n ⟨out ++ (mid ++ 37 :: a :: b :: r), i, j⟩ =
        .inr ⟨(out ++ [hextod a * 16 + hextod b]) ++ (mid' ++ r), i + 3, j + 1⟩ := by
  obtain ⟨mid', hlen, hset⟩ := set_append out mid 37 (hextod a * 16 + hextod b) (a :: b :: r)
  obtain ⟨mid₁, hlen₁, hset₁⟩ := set_append out mid 37 (hextod a * 16) (a :: b :: r)
  refine ⟨mid' ++ [a, b], by simp [hlen], ?_⟩
  have ha : (out ++ (mid ++ 37 :: a :: b :: r)).getD (i + 1) 0 = a := by
    have h := getD_read out (mid ++ [37]) (i := i + 1) (by simp; omega) a (b :: r)
    simpa using h
  have hb : ((out ++ [hextod a * 16]) ++ (mid₁ ++ a :: b :: r)).getD (i + 2) 0 = b := by
    have h := getD_read (out ++ [hextod a * 16]) (mid₁ ++ [a]) (i := i + 2) (by simp; omega) b r
    simpa using h
  have hd : ((out ++ [hextod a * 16]) ++ (mid₁ ++ a :: b :: r)).getD out.length 0 =
      hextod a * 16 := by
    simp
  have hwrite : (out ++ (mid ++ 37 :: a :: b :: r)).set out.length (hextod a * 16 + hextod b) =
      (out ++ [hextod a * 16 + hextod b]) ++ ((mid' ++ [a, b]) ++ r) := by
    rw [hset, List.append_assoc mid']
    rfl
  simp only [translateRound, if_pos (show i < n by omega), getD_read out mid hi, if_neg (show ¬(37 : UInt8) = 43 by decide), if_true,
    if_neg (show i + 1 ≠ n by omega), if_neg (show i + 2 ≠ n by omega), ha, hj, hset₁, hb, hd]
  rw [← hset₁, List.set_set, hwrite]

/-- An escape that the end of the string cuts off. -/
theorem translateRound_cut {i j : Nat} (hj : j = out.length) (hi : i = out.length + mid.length)
    (hn : n = i + (s.length + 1)) (hs : s.length ≤ 1) (x : ByteString) :
    ∃ y, translateRound n ⟨out ++ (mid ++ 37 :: (s ++ 0 :: x)), i, j⟩ = .inl (out ++ 0 :: y) := by
  obtain ⟨mid', -, hset⟩ := set_append out mid 37 0 (s ++ 0 :: x)
  refine ⟨mid' ++ (s ++ 0 :: x), ?_⟩
  simp only [translateRound, if_pos (show i < n by omega), getD_read out mid hi,
    if_neg (show ¬(37 : UInt8) = 43 by decide), if_true, hj, List.set_set, hset, List.append_assoc,
    List.singleton_append]
  by_cases hnil : s.length = 0
  · rw [if_pos (by omega)]
  · rw [if_neg (by omega), if_pos (by omega)]

/-- Behind what has been written, `mid` has been read and `s` has not. -/
theorem returns_translateLoop (out mid s x : ByteString) {i j n : Nat} (hj : j = out.length)
    (hi : i = out.length + mid.length) (hn : n = i + s.length) :
    ∃ y, Returns (loop (translateRound n) ⟨out ++ (mid ++ (s ++ 0 :: x)), i, j⟩)
      (out ++ (decoded s ++ 0 :: y)) := by
  fun_induction decoded s generalizing out mid x i j with
  | case1 =>
      obtain ⟨y, hy⟩ := set_terminator out mid x
      refine ⟨y, returns_loop_inl ?_⟩
      rw [translateRound, if_neg (by simp [hn]), hj]
      exact congrArg Sum.inl hy
  | case2 s ih =>
      rw [List.length_cons] at hn
      obtain ⟨mid', hlen, hround⟩ :=
        translateRound_byte hj hi (show i < n by omega) (.inl ⟨rfl, rfl⟩) (s ++ 0 :: x)
      obtain ⟨y, hy⟩ := ih (out ++ [32]) mid' x (j := j + 1) (by simp [hj]) (by simp; omega)
        (show n = i + 1 + s.length by omega)
      refine ⟨y, returns_loop_inr hround ?_⟩
      rwa [List.cons_append, List.append_cons out _ (decoded s ++ 0 :: y)]
  | case3 a b s hplus ih =>
      simp only [List.length_cons] at hn
      obtain ⟨mid', hlen, hround⟩ := translateRound_escape hj hi (show i + 2 < n by omega) a b (s ++ 0 :: x)
      obtain ⟨y, hy⟩ := ih (out ++ [hextod a * 16 + hextod b]) mid' x (j := j + 1) (by simp [hj])
        (by simp; omega) (show n = i + 3 + s.length by omega)
      refine ⟨y, returns_loop_inr hround ?_⟩
      rwa [List.cons_append, List.append_cons out _ (decoded s ++ 0 :: y)]
  | case4 s hshort hplus =>
      rw [List.length_cons] at hn
      have hs : s.length ≤ 1 := by
        match s, hshort with
        | [], _ => exact Nat.zero_le _
        | [_], _ => exact le_rfl
        | a :: b :: s, hshort => exact (hshort a b s rfl).elim
      obtain ⟨y, hy⟩ := translateRound_cut hj hi hn hs x
      exact ⟨y, returns_loop_inl hy⟩
  | case5 c s hplus hpercent ih =>
      rw [List.length_cons] at hn
      obtain ⟨mid', hlen, hround⟩ :=
        translateRound_byte hj hi (show i < n by omega) (.inr ⟨hplus, hpercent, rfl⟩) (s ++ 0 :: x)
      obtain ⟨y, hy⟩ := ih (out ++ [c]) mid' x (j := j + 1) (by simp [hj]) (by simp; omega)
        (show n = i + 1 + s.length by omega)
      refine ⟨y, returns_loop_inr hround ?_⟩
      rwa [List.cons_append, List.append_cons out _ (decoded s ++ 0 :: y)]

theorem returns_translate (h : 0 ∉ s) : ∃ b, Returns (PkgHtml.translate (s ++ [0])) b ∧
    charstarFromByteString b = charstarFromByteString (decoded s) := by
  have hn : strlen (s ++ [0]) = s.length := by
    have hlen := strlen_stored s []
    rwa [stored, List.drop_nil, strlen_of_notMem h] at hlen
  obtain ⟨y, hy⟩ := returns_translateLoop [] [] s [] (i := 0) (j := 0) rfl rfl
    (Nat.zero_add _).symm
  refine ⟨_, ?_, charstarFromByteString_append_zero (decoded s) y⟩
  unfold PkgHtml.translate
  rwa [hn]

end Translate

section Tokens

def consHead (c : UInt8) : List ByteString → List ByteString
  | [] => [[c]]
  | t :: ts => (c :: t) :: ts

/-- What `get_token` takes from a query, one call after the other. -/
def tokens : ByteString → List ByteString
  | [] => []
  | c :: s => if c = 38 then [] :: tokens s else consHead c (tokens s)

variable {s t u : ByteString}

theorem tokens_ne_nil (hs : s ≠ []) : tokens s ≠ [] := by
  cases s with
  | nil => exact absurd rfl hs
  | cons c s =>
      rw [tokens]
      split
      · exact List.cons_ne_nil _ _
      · cases tokens s with
        | nil => exact List.cons_ne_nil _ _
        | cons t ts => exact List.cons_ne_nil _ _

theorem getToken_eq (hs : s ≠ []) : ∃ t rest, getToken s 38 = some (t, rest) ∧
    t = s.takeWhile (· ≠ 38) ∧ rest <:+ s ∧ rest.length < s.length ∧ tokens s = t :: tokens rest := by
  refine ⟨_, _, if_neg hs, rfl, ?_, ?_, ?_⟩
  · exact (List.tail_suffix _).trans (List.dropWhile_suffix _)
  · have hle := (List.dropWhile_suffix (l := s) fun c => decide (c ≠ 38)).length_le
    have hpos := List.length_pos_of_ne_nil hs
    rw [List.length_tail]
    omega
  · induction s with
    | nil => exact absurd rfl hs
    | cons c s ih =>
        by_cases hc : c = 38
        · subst hc
          rw [tokens, if_pos rfl]
          simp
        · have hne : decide (c ≠ 38) = true := decide_eq_true hc
          rw [tokens, if_neg hc, List.takeWhile_cons_of_pos (p := fun c => decide (c ≠ 38)) hne,
            List.dropWhile_cons_of_pos (p := fun c => decide (c ≠ 38)) hne]
          by_cases hnil : s = []
          · subst hnil
            rfl
          · rw [ih hnil]
            rfl

theorem tokens_append (a b : ByteString) : tokens (a ++ 38 :: b) = tokens (a ++ [38]) ++ tokens b := by
  induction a with
  | nil => rfl
  | cons c a ih =>
      rw [List.cons_append, List.cons_append, tokens, tokens, ih]
      split
      · rfl
      · cases h : tokens (a ++ [38]) with
        | nil => exact absurd h (tokens_ne_nil (by simp))
        | cons t ts => rfl

theorem tokens_of_notMem (hs : s ≠ []) (h : 38 ∉ s) : tokens s = [s] := by
  have hall : ∀ c ∈ s, decide (c ≠ 38) = true := fun c hc => decide_eq_true fun heq => h (heq ▸ hc)
  obtain ⟨t, rest, hget, rfl, -, -, htokens⟩ := getToken_eq hs
  rw [getToken, if_neg hs, List.dropWhile_eq_nil_iff.2 hall] at hget
  obtain rfl : [] = rest := congrArg Prod.snd (Option.some.inj hget)
  rw [htokens, List.takeWhile_eq_self_iff.2 hall]
  rfl

theorem tokens_append_separator (h : 38 ∉ s) : tokens (s ++ [38]) = [s] := by
  induction s with
  | nil => rfl
  | cons c s ih =>
      obtain ⟨hc, hs⟩ := not_or.1 (List.mem_cons.not.1 h)
      rw [List.cons_append, tokens, if_neg (Ne.symm hc), ih hs]
      rfl

theorem mem_tokens (h : u ∈ tokens s) : u <:+: s ∧ 38 ∉ u := by
  induction hk : s.length using Nat.strong_induction_on generalizing s with
  | _ k ih =>
      have hs : s ≠ [] := by
        rintro rfl
        cases h
      obtain ⟨t, rest, -, rfl, hsuffix, hlt, htokens⟩ := getToken_eq hs
      rw [htokens, List.mem_cons] at h
      rcases h with rfl | h
      · refine ⟨(List.takeWhile_prefix _).isInfix, fun hmem => ?_⟩
        simpa using List.mem_takeWhile_imp hmem
      · obtain ⟨hsub, hnot⟩ := ih rest.length (hk ▸ hlt) h rfl
        exact ⟨hsub.trans hsuffix.isInfix, hnot⟩

/-- The separator behind a text is in none of its tokens. -/
theorem mem_tokens_append (h : u ∈ tokens (s ++ [38])) : u <:+: s := by
  obtain ⟨hsub, hnot⟩ := mem_tokens h
  rcases List.infix_concat_iff.1 hsub with hsuffix | hsub
  · rcases List.suffix_concat_iff.1 hsuffix with rfl | ⟨r, rfl, -⟩
    · exact List.nil_infix
    · exact absurd (List.mem_append_right _ List.mem_cons_self) hnot
  · exact hsub

end Tokens

section Fields

/-- The address and the password behind one more token. -/
def addField (f : Option CString × Option CString) (token : ByteString) :
    Option (Option CString × Option CString) :=
  match index token 61 with
  | none => none
  | some (name, field) =>
      if name = bytes "mail" then some (some (charstarFromByteString (decoded field)), f.2)
      else if name = bytes "password" then some (f.1, some (charstarFromByteString (decoded field)))
      else some f

variable {q : ByteString} {f g : Option CString × Option CString} {ts : List ByteString}

theorem zero_notMem_index {t : ByteString} {c : UInt8} {name field : ByteString} (h : 0 ∉ t)
    (hindex : index t c = some (name, field)) : 0 ∉ field := by
  rw [index] at hindex
  split at hindex
  · obtain rfl : _ = field := congrArg Prod.snd (Option.some.inj hindex)
    exact fun hmem => h ((List.dropWhile_suffix _).subset (List.mem_of_mem_tail hmem))
  · cases hindex

theorem returns_processRound {t rest : ByteString} (ht : 0 ∉ t)
    (hget : getToken q 38 = some (t, rest)) :
    Returns (processRound ⟨q, f.1, f.2⟩) (match addField f t with
      | none => .inl none
      | some g => .inr ⟨rest, g.1, g.2⟩) := by
  rcases hindex : index t 61 with _ | ⟨name, field⟩
  · have hround : processRound ⟨q, f.1, f.2⟩ = fun _ => some (.inl none) := by
      funext fuel
      simp only [processRound, hget, hindex]
    rw [hround, addField, hindex]
    exact returns_some _
  · obtain ⟨b, hb, hval⟩ := returns_translate (zero_notMem_index ht hindex)
    simp only [addField, hindex]
    split_ifs with hmail hpassword
    · have hround : processRound ⟨q, f.1, f.2⟩ = fun fuel =>
          (PkgHtml.translate (field ++ [0]) fuel).bind fun s =>
            some (.inr ⟨rest, some (charstarFromByteString s), f.2⟩) := by
        funext fuel
        simp only [processRound, hget, hindex, if_pos hmail]
      rw [hround, ← hval]
      exact hb.bind (returns_some _)
    · have hround : processRound ⟨q, f.1, f.2⟩ = fun fuel =>
          (PkgHtml.translate (field ++ [0]) fuel).bind fun s =>
            some (.inr ⟨rest, f.1, some (charstarFromByteString s)⟩) := by
        funext fuel
        simp only [processRound, hget, hindex, if_neg hmail, if_pos hpassword]
      rw [hround, ← hval]
      exact hb.bind (returns_some _)
    · have hround : processRound ⟨q, f.1, f.2⟩ = fun _ => some (.inr ⟨rest, f.1, f.2⟩) := by
        funext fuel
        simp only [processRound, hget, hindex, if_neg hmail, if_neg hpassword]
      rw [hround]
      exact returns_some _

theorem returns_processLoop (hq : 0 ∉ q) (f : Option CString × Option CString) :
    Returns (nest processRound ⟨q, f.1, f.2⟩)
      (((tokens q).foldlM addField f).map fun g => ⟨[], g.1, g.2⟩) := by
  induction hk : q.length using Nat.strong_induction_on generalizing q f with
  | _ k ih =>
      by_cases hnil : q = []
      · subst hnil
        exact returns_nest_inl (returns_some _)
      · obtain ⟨t, rest, hget, rfl, hsuffix, hlt, htokens⟩ := getToken_eq hnil
        have ht : 0 ∉ q.takeWhile (· ≠ 38) := fun h => hq ((List.takeWhile_prefix _).subset h)
        have hround := returns_processRound (f := f) ht hget
        rw [htokens, List.foldlM_cons]
        cases hadd : addField f (q.takeWhile (· ≠ 38)) with
        | none =>
            rw [hadd] at hround
            exact returns_nest_inl hround
        | some g =>
            rw [hadd] at hround
            exact returns_nest_inr hround
              (ih rest.length (hk ▸ hlt) (fun h => hq (hsuffix.subset h)) g rfl)

/-- What the session is left with when the fields have been read. -/
def shareFor (f : Option (Option CString × Option CString)) : Session :=
  match f with
  | none => ⟨[], none⟩
  | some (some email, some passwd) =>
      ⟨bytes "Key share mailed to " ++ emailShare email ++ bytes "\n", some (email, passwd)⟩
  | some _ => ⟨bytes "Must supply email address and password.", none⟩

theorem returns_process (hq : 0 ∉ q) :
    Returns (process q) (shareFor ((tokens q).foldlM addField (none, none))) := by
  refine (returns_processLoop hq (none, none)).bind ?_
  rcases (tokens q).foldlM addField (none, none) with _ | ⟨_ | email, _ | passwd⟩ <;>
    exact returns_some _

theorem shareFor_shared_iff {f : Option (Option CString × Option CString)} {r : CString × CString} :
    (shareFor f).shared = some r ↔ f = some (some r.1, some r.2) := by
  rcases f with _ | ⟨_ | email, _ | passwd⟩ <;> simp [shareFor, Prod.ext_iff]

theorem index_append {name v : ByteString} {c : UInt8} (h : c ∉ name) :
    index (name ++ c :: v) c = some (name, v) := by
  have hall : ∀ d ∈ name, decide (d ≠ c) = true := fun d hd =>
    decide_eq_true (ne_of_mem_of_not_mem hd h)
  rw [index, if_pos (List.mem_append_right _ List.mem_cons_self)]
  rw [List.takeWhile_append_of_pos hall, List.dropWhile_append_of_pos hall]
  simp

theorem eq_of_index {t name v : ByteString} {c : UInt8} (h : index t c = some (name, v)) :
    t = name ++ c :: v := by
  rw [index] at h
  split at h
  · next hmem =>
      obtain ⟨rfl, rfl⟩ := Prod.mk.inj (Option.some.inj h)
      have hne : t.dropWhile (· ≠ c) ≠ [] := by
        rw [ne_eq, List.dropWhile_eq_nil_iff]
        exact fun hall => absurd (hall c hmem) (by simp)
      have hhead : (t.dropWhile (· ≠ c)).head hne = c := by
        simpa using List.head_dropWhile_not (fun d => decide (d ≠ c)) hne
      conv_lhs => rw [← List.takeWhile_append_dropWhile (p := fun d => decide (d ≠ c)) (l := t)]
      rw [← List.cons_head_tail hne, hhead]
      simp
  · cases h

theorem addField_mail (f : Option CString × Option CString) (v : ByteString) :
    addField f (bytes "mail=" ++ v) = some (some (charstarFromByteString (decoded v)), f.2) := by
  have hname : bytes "mail=" ++ v = bytes "mail" ++ 61 :: v := rfl
  rw [hname, addField, index_append (by decide)]
  exact if_pos rfl

theorem addField_password (f : Option CString × Option CString) (v : ByteString) :
    addField f (bytes "password=" ++ v) = some (f.1, some (charstarFromByteString (decoded v))) := by
  have hname : bytes "password=" ++ v = bytes "password" ++ 61 :: v := rfl
  rw [hname, addField, index_append (by decide)]
  dsimp only
  rw [if_neg (by decide), if_pos rfl]

/-- A token sets one of the two, or nothing. -/
theorem addField_eq_some {t : ByteString} (h : addField f t = some g) :
    (∃ v, t = bytes "mail=" ++ v ∧ g = (some (charstarFromByteString (decoded v)), f.2)) ∨
      (∃ v, t = bytes "password=" ++ v ∧ g = (f.1, some (charstarFromByteString (decoded v)))) ∨
      g = f := by
  rw [addField] at h
  rcases hindex : index t 61 with _ | ⟨name, v⟩
  · rw [hindex] at h
    cases h
  · obtain rfl := eq_of_index hindex
    simp only [hindex] at h
    split_ifs at h with hmail hpassword
    · subst hmail
      exact Or.inl ⟨v, rfl, (Option.some.inj h).symm⟩
    · subst hpassword
      exact Or.inr (Or.inl ⟨v, rfl, (Option.some.inj h).symm⟩)
    · exact Or.inr (Or.inr (Option.some.inj h).symm)

/-- What the fields hold was there before or comes from a token with the name. -/
theorem field_of_foldlM {pick : Option CString × Option CString → Option CString}
    {name : ByteString} (hpick : ∀ {f g t}, addField f t = some g → pick g = pick f ∨
      ∃ v, t = name ++ v ∧ pick g = some (charstarFromByteString (decoded v)))
    (h : ts.foldlM addField f = some g) : pick g = pick f ∨
      ∃ v, name ++ v ∈ ts ∧ pick g = some (charstarFromByteString (decoded v)) := by
  induction ts generalizing f with
  | nil =>
      obtain rfl := Option.some.inj h
      exact Or.inl rfl
  | cons t ts ih =>
      rw [List.foldlM_cons] at h
      obtain ⟨f', hf', hts⟩ := Option.bind_eq_some_iff.1 h
      rcases ih hts with heq | ⟨v, hv, heq⟩
      · rcases hpick hf' with hsame | ⟨v, rfl, hnew⟩
        · exact Or.inl (heq.trans hsame)
        · exact Or.inr ⟨v, List.mem_cons_self, heq.trans hnew⟩
      · exact Or.inr ⟨v, List.mem_cons_of_mem _ hv, heq⟩

theorem mail_of_foldlM (h : ts.foldlM addField f = some g) :
    g.1 = f.1 ∨ ∃ v, bytes "mail=" ++ v ∈ ts ∧ g.1 = some (charstarFromByteString (decoded v)) := by
  refine field_of_foldlM (fun {f g t} ht => ?_) h
  rcases addField_eq_some ht with ⟨v, rfl, rfl⟩ | ⟨v, rfl, rfl⟩ | rfl
  · exact Or.inr ⟨v, rfl, rfl⟩
  · exact Or.inl rfl
  · exact Or.inl rfl

theorem password_of_foldlM (h : ts.foldlM addField f = some g) : g.2 = f.2 ∨
    ∃ v, bytes "password=" ++ v ∈ ts ∧ g.2 = some (charstarFromByteString (decoded v)) := by
  refine field_of_foldlM (fun {f g t} ht => ?_) h
  rcases addField_eq_some ht with ⟨v, rfl, rfl⟩ | ⟨v, rfl, rfl⟩ | rfl
  · exact Or.inl rfl
  · exact Or.inr ⟨v, rfl, rfl⟩
  · exact Or.inl rfl

end Fields

end IdBasedEncryption.FormFields
