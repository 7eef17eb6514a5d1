import Mathlib.Data.List.Basic
import Mathlib.Data.List.TakeDrop
import Mathlib.Data.List.TakeWhile
import IdBasedEncryption.FuelLoops

namespace IdBasedEncryption.Stdio

open FuelLoops

/-- A file that is read, with its indicator for the end. -/
structure File where
  rest : List UInt8
  eof : Bool
  deriving DecidableEq

/-- The file at its end. -/
def atEnd : File := ⟨[], true⟩

def newline : UInt8 := 10

structure Read where
  text : List UInt8
  rest : List UInt8
  eof : Bool

/-- At most `n` bytes, none of them behind a newline. -/
def readLine : Nat → List UInt8 → Read
  | 0, bs => ⟨[], bs, false⟩
  | _ + 1, [] => ⟨[], [], true⟩
  | n + 1, c :: bs =>
      if c = newline then ⟨[c], bs, false⟩
      else
        let r := readLine n bs
        { r with text := c :: r.text }

/-- The buffer is not touched when there is nothing left to read. -/
def fgets (buf : List UInt8) (size : Int) (fp : File) : List UInt8 × File :=
  if size ≤ 0 then (buf, fp)
  else
    let r := readLine (size - 1).toNat fp.rest
    let buf := if r.text = [] ∧ r.eof then buf else r.text ++ 0 :: buf.drop (r.text.length + 1)
    (buf, ⟨r.rest, fp.eof || r.eof⟩)

def strlen (s : List UInt8) : Nat := (s.takeWhile (· ≠ 0)).length

/-- Whether `strncmp` finds no difference. -/
def strncmp : List UInt8 → List UInt8 → Nat → Bool
  | _, _, 0 => true
  | s, t, n + 1 => s.headD 0 = t.headD 0 && (s.headD 0 = 0 || strncmp s.tail t.tail n)

/-- What one call of `fgets` takes from a file that goes on behind it: `n` bytes or
everything up to a newline. -/
structure IsLine (n : Nat) (l : List UInt8) : Prop where
  pos : 0 < l.length
  le : l.length ≤ n
  body : newline ∉ l.dropLast
  last : l.length < n → l.getLast? = some newline

section ReadLine

variable {n : Nat} {l bs : List UInt8}

/-- Either a line was read, or the file ended. -/
theorem readLine_spec (hn : 0 < n) (bs : List UInt8) :
    (readLine n bs).text ++ (readLine n bs).rest = bs ∧
      (((readLine n bs).eof = false ∧ IsLine n (readLine n bs).text) ∨
        ((readLine n bs).eof = true ∧ (readLine n bs).rest = [] ∧
          (readLine n bs).text.length < n ∧ newline ∉ (readLine n bs).text)) := by
  induction n generalizing bs with
  | zero => exact absurd hn (lt_irrefl 0)
  | succ n ih =>
      cases bs with
      | nil => exact ⟨rfl, Or.inr ⟨rfl, rfl, hn, List.not_mem_nil⟩⟩
      | cons c bs =>
          by_cases hc : c = newline
          · subst hc
            rw [readLine, if_pos rfl]
            exact ⟨rfl, Or.inl ⟨rfl, Nat.one_pos, hn, by simp, fun _ => rfl⟩⟩
          · rw [readLine, if_neg hc]
            cases n with
            | zero => exact ⟨rfl, Or.inl ⟨rfl, hn, le_rfl, List.not_mem_nil, fun h => by simp [readLine] at h⟩⟩
            | succ n =>
                obtain ⟨happ, h⟩ := ih (Nat.succ_pos n) bs
                refine ⟨by rw [List.cons_append, happ], ?_⟩
                rcases h with ⟨he, hl⟩ | ⟨he, hr, hlt, hb⟩
                · refine Or.inl ⟨he, Nat.succ_pos _, Nat.succ_le_succ hl.le, ?_, ?_⟩
                  · rw [List.dropLast_cons_of_ne_nil (List.ne_nil_of_length_pos hl.pos)]
                    simpa [Ne.symm hc] using hl.body
                  · intro h
                    rw [List.getLast?_cons_of_ne_nil (List.ne_nil_of_length_pos hl.pos)]
                    exact hl.last (Nat.lt_of_succ_lt_succ h)
                · refine Or.inr ⟨he, hr, Nat.succ_lt_succ hlt, ?_⟩
                  simpa [Ne.symm hc] using hb

theorem readLine_append (h : IsLine n l) (bs : List UInt8) : readLine n (l ++ bs) = ⟨l, bs, false⟩ := by
  induction l generalizing n with
  | nil => exact absurd h.pos (lt_irrefl 0)
  | cons c l ih =>
      obtain ⟨m, rfl⟩ := Nat.exists_eq_add_of_le' (h.pos.trans_le h.le)
      by_cases hl : l = []
      · subst hl
        by_cases hc : c = newline
        · rw [List.singleton_append, readLine, if_pos hc]
        · have hm : m = 0 := by
            by_contra hm
            have hlast := h.last (by simp; omega)
            exact hc (Option.some.inj hlast)
          subst hm
          rw [List.singleton_append, readLine, if_neg hc]
          rfl
      · have hbody := h.body
        rw [List.dropLast_cons_of_ne_nil hl, List.mem_cons, not_or] at hbody
        have hline : IsLine m l := by
          refine ⟨List.length_pos_of_ne_nil hl, Nat.le_of_succ_le_succ h.le, hbody.2, fun hlt => ?_⟩
          rw [← List.getLast?_cons_of_ne_nil (x := c) hl]
          exact h.last (Nat.succ_lt_succ hlt)
        rw [List.cons_append, readLine, if_neg (Ne.symm hbody.1), ih hline]

/-- What is left of a file when no line can be read from it. -/
structure IsTail (n : Nat) (bs : List UInt8) : Prop where
  lt : bs.length < n
  body : newline ∉ bs

theorem readLine_tail (h : IsTail n bs) : readLine n bs = ⟨bs, [], true⟩ := by
  induction bs generalizing n with
  | nil =>
      obtain ⟨m, rfl⟩ := Nat.exists_eq_add_of_le' h.lt
      rfl
  | cons c bs ih =>
      obtain ⟨m, rfl⟩ := Nat.exists_eq_add_of_le' (Nat.zero_lt_of_lt h.lt)
      obtain ⟨hc, hbs⟩ := not_or.1 (List.mem_cons.not.1 h.body)
      rw [readLine, if_neg (Ne.symm hc), ih ⟨Nat.lt_of_succ_lt_succ h.lt, hbs⟩]

theorem exists_line_or_isTail (hn : 0 < n) (bs : List UInt8) :
    (∃ l rest, bs = l ++ rest ∧ IsLine n l) ∨ IsTail n bs := by
  obtain ⟨happ, ⟨-, hl⟩ | ⟨-, hr, hlt, hbody⟩⟩ := readLine_spec hn bs
  · exact Or.inl ⟨_, _, happ.symm, hl⟩
  · rw [hr, List.append_nil] at happ
    rw [happ] at hlt hbody
    exact Or.inr ⟨hlt, hbody⟩

end ReadLine

section Fgets

variable {n : Nat} {l : List UInt8}

/-- What `fgets` makes of a buffer. -/
def stored (l buf : List UInt8) : List UInt8 := l ++ 0 :: buf.drop (l.length + 1)

theorem fgets_line (h : IsLine n l) (buf bs : List UInt8) (eof : Bool) :
    fgets buf (n + 1) ⟨l ++ bs, eof⟩ = (stored l buf, ⟨bs, eof⟩) := by
  have hl : l ≠ [] := List.ne_nil_of_length_pos h.pos
  rw [fgets, if_neg (by omega)]
  simp [readLine_append h, hl, stored]

theorem fgets_tail {bs : List UInt8} (h : IsTail n bs) (buf : List UInt8) (eof : Bool) :
    fgets buf (n + 1) ⟨bs, eof⟩ = (if bs = [] then buf else stored bs buf, atEnd) := by
  rw [fgets, if_neg (by omega)]
  simp [readLine_tail h, stored, atEnd]

theorem strlen_of_notMem (h : 0 ∉ l) : strlen l = l.length := by
  rw [strlen, List.takeWhile_eq_self_iff.2]
  intro c hc
  refine decide_eq_true fun h0 => ?_
  subst h0
  exact h hc

theorem strlen_stored (l buf : List UInt8) : strlen (stored l buf) = strlen l := by
  rw [strlen, strlen, stored]
  generalize buf.drop (l.length + 1) = junk
  congr 1
  induction l with
  | nil => rfl
  | cons c l ih =>
      rw [List.cons_append, List.takeWhile_cons, List.takeWhile_cons, ih]

theorem strncmp_comm (s t : List UInt8) (n : Nat) : strncmp s t n = strncmp t s n := by
  induction n generalizing s t with
  | zero => rfl
  | succ n ih =>
      simp only [strncmp]
      by_cases h : s.headD 0 = t.headD 0
      · simp only [h, ih s.tail t.tail]
      · simp only [h, Ne.symm h, decide_false, Bool.false_and]

theorem strncmp_stored {s : List UInt8} (hs : 0 ∉ s) (l buf : List UInt8) :
    strncmp s (stored l buf) s.length = true ↔ s <+: l := by
  rw [stored]
  generalize buf.drop (l.length + 1) = junk
  induction s generalizing l with
  | nil => simp [strncmp]
  | cons c s ih =>
      obtain ⟨hc, hs⟩ := not_or.1 (List.mem_cons.not.1 hs)
      cases l with
      | nil => simp [strncmp, Ne.symm hc]
      | cons d l =>
          have htail := ih hs l
          simp [strncmp, Ne.symm hc, htail, List.cons_prefix_cons]

end Fgets

section FirstLine

/-- `rest` is what follows the first line with the property `p`. -/
inductive FirstLine (n : Nat) (p : List UInt8 → Prop) : List UInt8 → List UInt8 → Prop
  | here {l rest : List UInt8} (hl : IsLine n l) (hp : p l) : FirstLine n p (l ++ rest) rest
  | next {l bs rest : List UInt8} (hl : IsLine n l) (hp : ¬p l) (h : FirstLine n p bs rest) :
      FirstLine n p (l ++ bs) rest

/-- No line has the property `p`. -/
inductive NoLine (n : Nat) (p : List UInt8 → Prop) : List UInt8 → Prop
  | tail {bs : List UInt8} (h : IsTail n bs) : NoLine n p bs
  | next {l bs : List UInt8} (hl : IsLine n l) (hp : ¬p l) (h : NoLine n p bs) :
      NoLine n p (l ++ bs)

variable {n : Nat} {p : List UInt8 → Prop} {bs rest rest' : List UInt8}

theorem firstLine_or_noLine (hn : 0 < n) (p : List UInt8 → Prop) (bs : List UInt8) :
    (∃ rest, FirstLine n p bs rest) ∨ NoLine n p bs := by
  induction hk : bs.length using Nat.strong_induction_on generalizing bs with
  | _ k ih =>
      rcases exists_line_or_isTail hn bs with ⟨l, r, rfl, hl⟩ | h
      · have hlt : r.length < k := by
          have hpos := hl.pos
          rw [List.length_append] at hk
          omega
        by_cases hp : p l
        · exact Or.inl ⟨r, .here hl hp⟩
        · rcases ih r.length hlt r rfl with ⟨rest, h⟩ | h
          · exact Or.inl ⟨rest, .next hl hp h⟩
          · exact Or.inr (.next hl hp h)
      · exact Or.inr (.tail h)

theorem IsLine.append_inj {l l' : List UInt8} (hl : IsLine n l) (hl' : IsLine n l')
    (h : l ++ bs = l' ++ rest) : l = l' ∧ bs = rest := by
  have hread := readLine_append hl bs
  rw [h, readLine_append hl' rest] at hread
  exact ⟨(congrArg Read.text hread).symm, (congrArg Read.rest hread).symm⟩

theorem IsLine.not_isTail {l : List UInt8} (hl : IsLine n l) : ¬IsTail n (l ++ bs) := by
  intro h
  have hread := readLine_append hl bs
  rw [readLine_tail h] at hread
  cases congrArg Read.eof hread

theorem FirstLine.unique (h : FirstLine n p bs rest) (h' : FirstLine n p bs rest') :
    rest = rest' := by
  induction h with
  | @here l rest hl hp =>
      generalize hb : l ++ rest = b at h'
      cases h' with
      | here hl' hp' => exact (hl.append_inj hl' hb).2
      | next hl' hp' h' => exact absurd ((hl.append_inj hl' hb).1 ▸ hp) hp'
  | @next l bs rest hl hp h ih =>
      generalize hb : l ++ bs = b at h'
      cases h' with
      | here hl' hp' => exact absurd ((hl.append_inj hl' hb).1 ▸ hp') hp
      | next hl' hp' h' =>
          obtain ⟨rfl, rfl⟩ := hl.append_inj hl' hb
          exact ih h'

theorem FirstLine.not_noLine (h : FirstLine n p bs rest) : ¬NoLine n p bs := by
  induction h with
  | @here l rest hl hp =>
      intro h'
      generalize hb : l ++ rest = b at h'
      cases h' with
      | tail ht => exact hl.not_isTail (hb ▸ ht)
      | next hl' hp' h' => exact hp' ((hl.append_inj hl' hb).1 ▸ hp)
  | @next l bs rest hl hp h ih =>
      intro h'
      generalize hb : l ++ bs = b at h'
      cases h' with
      | tail ht => exact hl.not_isTail (hb ▸ ht)
      | next hl' hp' h' =>
          obtain ⟨rfl, rfl⟩ := hl.append_inj hl' hb
          exact ih h'

end FirstLine

section Scan

variable {σ α : Type*} {n : Nat} {p : List UInt8 → Prop} {bs rest rest' : List UInt8}

/-- Where a search for a line with the property `p` ends: behind that line, or at
the end of the file. -/
def Behind (n : Nat) (p : List UInt8 → Prop) (bs rest : List UInt8) : Prop :=
  FirstLine n p bs rest ∨ (NoLine n p bs ∧ rest = [])

theorem Behind.unique (h : Behind n p bs rest) (h' : Behind n p bs rest') : rest = rest' := by
  rcases h with h | ⟨h, rfl⟩ <;> rcases h' with h' | ⟨h', rfl⟩
  · exact h.unique h'
  · exact absurd h' h.not_noLine
  · exact absurd h h'.not_noLine
  · rfl

/-- The indicator for the end is set at the end only. -/
def Sound (f : File) : Prop := f.eof = true → f.rest = []

/-- The file `g` after the search in the file `f`. -/
structure Reached (n : Nat) (p : List UInt8 → Prop) (f g : File) : Prop where
  behind : Behind n p f.rest g.rest
  sound : Sound g
  eof_iff : g.eof = false ↔ FirstLine n p f.rest g.rest

/-- A loop that reads a line in every round until there is none or one has the
property `p`. -/
structure Scans (n : Nat) (p : List UInt8 → Prop) (body : σ → α ⊕ σ) (file : σ → File)
    (result : α → File) : Prop where
  line {s : σ} {l bs : List UInt8} (hf : file s = ⟨l ++ bs, false⟩) (hl : IsLine n l) (hp : p l) :
    ∃ a, body s = .inl a ∧ result a = ⟨bs, false⟩
  next {s : σ} {l bs : List UInt8} (hf : file s = ⟨l ++ bs, false⟩) (hl : IsLine n l)
    (hp : ¬p l) : ∃ t, body s = .inr t ∧ file t = ⟨bs, false⟩
  tail {s : σ} {bs : List UInt8} {eof : Bool} (hf : file s = ⟨bs, eof⟩) (ht : IsTail n bs) :
    ∃ a, body s = .inl a ∧ result a = atEnd

variable {body : σ → α ⊕ σ} {file : σ → File} {result : α → File}

theorem Scans.returns_of_firstLine (hscan : Scans n p body file result) {s : σ}
    (h : FirstLine n p bs rest) (hf : file s = ⟨bs, false⟩) :
    ∃ a, Returns (loop body s) a ∧ result a = ⟨rest, false⟩ := by
  induction h generalizing s with
  | here hl hp =>
      obtain ⟨a, hs, ha⟩ := hscan.line hf hl hp
      exact ⟨a, returns_loop_inl hs, ha⟩
  | next hl hp h ih =>
      obtain ⟨t, hs, ht⟩ := hscan.next hf hl hp
      obtain ⟨a, hrun, ha⟩ := ih ht
      exact ⟨a, returns_loop_inr hs hrun, ha⟩

theorem Scans.returns_of_noLine (hscan : Scans n p body file result) {s : σ}
    (h : NoLine n p bs) (hf : file s = ⟨bs, false⟩) :
    ∃ a, Returns (loop body s) a ∧ result a = atEnd := by
  induction h generalizing s with
  | tail ht =>
      obtain ⟨a, hs, ha⟩ := hscan.tail hf ht
      exact ⟨a, returns_loop_inl hs, ha⟩
  | next hl hp h ih =>
      obtain ⟨t, hs, ht⟩ := hscan.next hf hl hp
      obtain ⟨a, hrun, ha⟩ := ih ht
      exact ⟨a, returns_loop_inr hs hrun, ha⟩

/-- Such a loop always ends. -/
theorem Scans.returns (hscan : Scans n p body file result) (hn : 0 < n) {s : σ}
    (hs : Sound (file s)) : ∃ a, Returns (loop body s) a ∧ Reached n p (file s) (result a) := by
  have hend {bs : List UInt8} (h : NoLine n p bs) {a : α} (ha : result a = atEnd) :
      Behind n p bs (result a).rest ∧ Sound (result a) ∧
        ((result a).eof = false ↔ FirstLine n p bs (result a).rest) := by
    rw [ha]
    exact ⟨Or.inr ⟨h, rfl⟩, fun _ => rfl, by simp [atEnd], fun hfirst => absurd h hfirst.not_noLine⟩
  cases hf : file s with
  | mk bs eof =>
      cases eof with
      | true =>
          have hbs : bs = [] := by simpa [Sound, hf] using hs
          subst hbs
          have ht : IsTail n [] := ⟨hn, List.not_mem_nil⟩
          obtain ⟨a, hrun, ha⟩ := hscan.tail hf ht
          obtain ⟨hb, hsound, heof⟩ := hend (.tail ht) ha
          exact ⟨a, returns_loop_inl hrun, hb, hsound, heof⟩
      | false =>
          rcases firstLine_or_noLine hn p bs with ⟨rest, h⟩ | h
          · obtain ⟨a, hrun, ha⟩ := hscan.returns_of_firstLine h hf
            refine ⟨a, hrun, ?_, ?_, ?_⟩ <;> rw [ha]
            · exact Or.inl h
            · exact fun heof => by cases heof
            · exact iff_of_true rfl h
          · obtain ⟨a, hrun, ha⟩ := hscan.returns_of_noLine h hf
            obtain ⟨hb, hsound, heof⟩ := hend h ha
            exact ⟨a, hrun, hb, hsound, heof⟩

end Scan

end IdBasedEncryption.Stdio
