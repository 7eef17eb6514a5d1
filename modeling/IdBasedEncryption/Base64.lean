import Mathlib.Data.List.TakeDrop
import IdBasedEncryption.IncrementalStreams

namespace IdBasedEncryption.Base64

open IncrementalStreams

def lineFeed : UInt8 := 10

def padding : UInt8 := 61

/-- The character for a group of six bits. -/
def encodeChar (n : Nat) : UInt8 :=
  if n < 26 then UInt8.ofNat (65 + n)
  else if n < 52 then UInt8.ofNat (71 + n)
  else if n < 62 then UInt8.ofNat (n - 4)
  else if n = 62 then 43
  else 47

def decodeChar (c : UInt8) : Nat :=
  if 65 ≤ c ∧ c ≤ 90 then c.toNat - 65
  else if 97 ≤ c ∧ c ≤ 122 then c.toNat - 71
  else if 48 ≤ c ∧ c ≤ 57 then c.toNat + 4
  else if c = 43 then 62
  else 63

def IsSymbol (c : UInt8) : Prop := c = padding ∨ ∃ n < 64, c = encodeChar n

/-- Three bytes in four characters. -/
def encodeGroup (a b c : UInt8) : List UInt8 :=
  let n := (a.toNat * 256 + b.toNat) * 256 + c.toNat
  [encodeChar (n / 64 / 64 / 64), encodeChar (n / 64 / 64 % 64), encodeChar (n / 64 % 64),
    encodeChar (n % 64)]

def encodeBlock : List UInt8 → List UInt8
  | [] => []
  | [a] => (encodeGroup a 0 0).take 2 ++ [padding, padding]
  | [a, b] => (encodeGroup a b 0).take 3 ++ [padding]
  | a :: b :: c :: bs => encodeGroup a b c ++ encodeBlock bs

/-- The bytes in four characters. Padding takes the place of bytes that were not
there. -/
def decodeGroup (w x y z : UInt8) : List UInt8 :=
  let n := decodeChar w * 64 + decodeChar x
  if z ≠ padding then
    let n := (n * 64 + decodeChar y) * 64 + decodeChar z
    [UInt8.ofNat (n / 256 / 256), UInt8.ofNat (n / 256), UInt8.ofNat n]
  else if y ≠ padding then
    let n := n * 64 + decodeChar y
    [UInt8.ofNat (n / 4 / 256), UInt8.ofNat (n / 4)]
  else [UInt8.ofNat (n / 16)]

def decodeBlock : List UInt8 → List UInt8
  | w :: x :: y :: z :: cs => decodeGroup w x y z ++ decodeBlock cs
  | _ => []

section Characters

theorem decodeChar_encodeChar : ∀ n < 64, decodeChar (encodeChar n) = n := by decide

theorem encodeChar_ne_padding : ∀ n < 64, encodeChar n ≠ padding := by decide

theorem isSymbol_encodeChar {n : Nat} (h : n < 64) : IsSymbol (encodeChar n) := Or.inr ⟨n, h, rfl⟩

theorem IsSymbol.ne {c : UInt8} (h : IsSymbol c) : c ≠ lineFeed ∧ c ≠ 0 ∧ c ≠ 58 ∧ c ≠ 45 := by
  obtain rfl | ⟨n, hn, rfl⟩ := h
  · decide
  · revert n
    decide

end Characters

section Groups

variable (a b c : UInt8)

theorem decodeGroup_encodeGroup {w x y z : UInt8} (h : encodeGroup a b c = [w, x, y, z]) :
    z ≠ padding ∧ decodeGroup w x y z = [a, b, c] := by
  have ha := a.toNat_lt
  have hb := b.toNat_lt
  have hc := c.toNat_lt
  generalize hn : (a.toNat * 256 + b.toNat) * 256 + c.toNat = n at *
  simp only [encodeGroup, hn, List.cons.injEq, and_true] at h
  obtain ⟨rfl, rfl, rfl, rfl⟩ := h
  have hz := encodeChar_ne_padding (n % 64) (by omega)
  refine ⟨hz, ?_⟩
  simp only [decodeGroup, if_pos hz]
  rw [decodeChar_encodeChar _ (by omega), decodeChar_encodeChar _ (by omega),
    decodeChar_encodeChar _ (by omega), decodeChar_encodeChar _ (by omega)]
  have hsum : ((n / 64 / 64 / 64 * 64 + n / 64 / 64 % 64) * 64 + n / 64 % 64) * 64 + n % 64 = n := by
    omega
  rw [hsum]
  simp only [List.cons.injEq, and_true]
  refine ⟨?_, ?_, ?_⟩ <;> apply UInt8.toNat_inj.1 <;> rw [UInt8.toNat_ofNat'] <;> omega

theorem decodeGroup_two {w x y z : UInt8} (h : encodeGroup a b 0 = [w, x, y, z]) :
    decodeGroup w x y padding = [a, b] := by
  have ha := a.toNat_lt
  have hb := b.toNat_lt
  generalize hn : (a.toNat * 256 + b.toNat) * 256 + (0 : UInt8).toNat = n at *
  simp only [encodeGroup, hn, List.cons.injEq, and_true] at h
  rw [UInt8.toNat_zero] at hn
  obtain ⟨rfl, rfl, rfl, -⟩ := h
  have hy := encodeChar_ne_padding (n / 64 % 64) (by omega)
  simp only [decodeGroup, ne_eq, not_true_eq_false, if_false, if_pos hy]
  rw [decodeChar_encodeChar _ (by omega), decodeChar_encodeChar _ (by omega),
    decodeChar_encodeChar _ (by omega)]
  simp only [List.cons.injEq, and_true]
  refine ⟨?_, ?_⟩ <;> apply UInt8.toNat_inj.1 <;> rw [UInt8.toNat_ofNat'] <;> omega

theorem decodeGroup_one {w x y z : UInt8} (h : encodeGroup a 0 0 = [w, x, y, z]) :
    decodeGroup w x padding padding = [a] := by
  have ha := a.toNat_lt
  generalize hn : (a.toNat * 256 + (0 : UInt8).toNat) * 256 + (0 : UInt8).toNat = n at *
  simp only [encodeGroup, hn, List.cons.injEq, and_true] at h
  rw [UInt8.toNat_zero] at hn
  obtain ⟨rfl, rfl, -, -⟩ := h
  simp only [decodeGroup, ne_eq, not_true_eq_false, if_false]
  rw [decodeChar_encodeChar _ (by omega), decodeChar_encodeChar _ (by omega)]
  simp only [List.cons.injEq, and_true]
  apply UInt8.toNat_inj.1
  rw [UInt8.toNat_ofNat']
  omega

theorem isSymbol_encodeGroup : ∀ s ∈ encodeGroup a b c, IsSymbol s := by
  have ha := a.toNat_lt
  have hb := b.toNat_lt
  have hc := c.toNat_lt
  intro s hs
  simp only [encodeGroup, List.mem_cons, List.not_mem_nil, or_false] at hs
  obtain rfl | rfl | rfl | rfl := hs <;> apply isSymbol_encodeChar <;> omega

end Groups

section Blocks

theorem decodeBlock_encodeBlock (bs : List UInt8) : decodeBlock (encodeBlock bs) = bs := by
  fun_induction encodeBlock bs with
  | case1 => rfl
  | case2 a => exact congrArg (· ++ []) (decodeGroup_one a rfl)
  | case3 a b => exact congrArg (· ++ []) (decodeGroup_two a b rfl)
  | case4 a b c bs ih =>
      have h := (decodeGroup_encodeGroup a b c rfl).2
      exact (congrArg (_ ++ ·) ih).trans (congrArg (· ++ bs) h)

theorem isSymbol_encodeBlock (bs : List UInt8) : ∀ s ∈ encodeBlock bs, IsSymbol s := by
  fun_induction encodeBlock bs with
  | case1 => exact fun s hs => absurd hs List.not_mem_nil
  | case2 a | case3 a b =>
      intro s hs
      obtain hs | hs := List.mem_append.1 hs
      · exact isSymbol_encodeGroup _ _ _ s (List.mem_of_mem_take hs)
      · exact Or.inl (by simpa using hs)
  | case4 a b c bs ih =>
      intro s hs
      obtain hs | hs := List.mem_append.1 hs
      · exact isSymbol_encodeGroup a b c s hs
      · exact ih s hs

theorem length_encodeBlock (bs : List UInt8) : (encodeBlock bs).length = (bs.length + 2) / 3 * 4 := by
  fun_induction encodeBlock bs with
  | case1 => rfl
  | case2 a => simp [encodeGroup]
  | case3 a b => simp [encodeGroup]
  | case4 a b c bs ih =>
      rw [List.length_append, ih]
      simp only [encodeGroup, List.length_cons, List.length_nil]
      omega

theorem length_decodeGroup_le (w x y z : UInt8) : (decodeGroup w x y z).length ≤ 3 := by
  simp only [decodeGroup]
  split
  · exact Nat.le_refl _
  · split <;> simp

/-- Four characters make at most three bytes. -/
theorem four_mul_length_decodeBlock_le (cs : List UInt8) :
    4 * (decodeBlock cs).length ≤ 3 * cs.length := by
  fun_induction decodeBlock cs with
  | case1 w x y z cs ih =>
      have hgroup := length_decodeGroup_le w x y z
      rw [List.length_append]
      simp only [List.length_cons]
      omega
  | case2 => exact Nat.zero_le _

end Blocks

section Lines

/-- Lines of 48 bytes. -/
def encodeLines : Nat → List UInt8 → List (List UInt8)
  | 0, _ => []
  | k + 1, bs => (encodeBlock (bs.take 48) ++ [lineFeed]) :: encodeLines k (bs.drop 48)

/-- The bytes that do not yet fill a line. -/
abbrev Pending := { bs : List UInt8 // bs.length < 48 }

theorem nil_lt : ([] : List UInt8).length < 48 := by decide

def encodeUpdate (c : Pending) (bs : List UInt8) : Pending × List UInt8 :=
  let all := c.val ++ bs
  (⟨all.drop (48 * (all.length / 48)), by rw [List.length_drop]; omega⟩,
    (encodeLines (all.length / 48) all).flatten)

def lastLine (c : Pending) : List (List UInt8) :=
  if c.val = [] then [] else [encodeBlock c.val ++ [lineFeed]]

def encodeFinal (c : Pending) : List UInt8 := (lastLine c).flatten

/-- Whole lines are decoded on the spot. -/
def decodeUpdate (line : List UInt8) : List UInt8 := decodeBlock (line.filter (· ≠ lineFeed))

theorem four_mul_length_decodeUpdate_le (line : List UInt8) :
    4 * (decodeUpdate line).length ≤ 3 * line.length :=
  Nat.le_trans (four_mul_length_decodeBlock_le _)
    (Nat.mul_le_mul_left 3 (List.length_filter_le _ line))

theorem length_decodeUpdate_le (line : List UInt8) : (decodeUpdate line).length ≤ line.length := by
  have h := four_mul_length_decodeUpdate_le line
  omega

/-- The lines of a text in base64. -/
def lines (bs : List UInt8) : List (List UInt8) :=
  encodeLines (bs.length / 48) bs ++ lastLine (encodeUpdate ⟨[], nil_lt⟩ bs).1

theorem flatten_lines (bs : List UInt8) :
    (lines bs).flatten = (encodeUpdate ⟨[], nil_lt⟩ bs).2 ++
      encodeFinal (encodeUpdate ⟨[], nil_lt⟩ bs).1 := by
  rw [lines, List.flatten_append]
  rfl

theorem encodeLines_add (k j : Nat) (bs : List UInt8) :
    encodeLines (k + j) bs = encodeLines k bs ++ encodeLines j (bs.drop (48 * k)) := by
  induction k generalizing bs with
  | zero => rw [Nat.zero_add, Nat.mul_zero, List.drop_zero, encodeLines, List.nil_append]
  | succ k ih =>
      rw [Nat.succ_add, encodeLines, encodeLines, ih, List.drop_drop, List.cons_append,
        Nat.mul_succ, Nat.add_comm 48]

theorem encodeLines_append {k : Nat} {bs : List UInt8} (h : 48 * k ≤ bs.length)
    (cs : List UInt8) : encodeLines k (bs ++ cs) = encodeLines k bs := by
  induction k generalizing bs with
  | zero => rfl
  | succ k ih =>
      have hle : 48 ≤ bs.length := by omega
      rw [encodeLines, encodeLines, List.take_append_of_le_length hle,
        List.drop_append_of_le_length hle, ih (by rw [List.length_drop]; omega)]

theorem incremental_encodeUpdate : Incremental encodeUpdate where
  nil c := by
    have hc : (c.val ++ []).length / 48 = 0 := by
      rw [List.append_nil]
      exact Nat.div_eq_of_lt c.property
    simp only [encodeUpdate, hc]
    simp [encodeLines]
  append c a b := by
    obtain ⟨k, hk⟩ : ∃ k, (c.val ++ a).length / 48 = k := ⟨_, rfl⟩
    obtain ⟨d, hd⟩ : ∃ d, (c.val ++ a).drop (48 * k) = d := ⟨_, rfl⟩
    have hle : 48 * k ≤ (c.val ++ a).length := by omega
    have hlen : d.length = (c.val ++ a).length - 48 * k := by rw [← hd, List.length_drop]
    have hsplit : (c.val ++ (a ++ b)).length / 48 = k + (d ++ b).length / 48 := by
      simp only [List.length_append] at *
      omega
    have hdrop : (c.val ++ (a ++ b)).drop (48 * k) = d ++ b := by
      rw [← List.append_assoc, List.drop_append_of_le_length hle, hd]
    have hlines : encodeLines k (c.val ++ (a ++ b)) = encodeLines k (c.val ++ a) := by
      rw [← List.append_assoc, encodeLines_append hle]
    simp only [encodeUpdate, hk, hd, hsplit, encodeLines_add, hlines, hdrop, List.flatten_append,
      Nat.mul_add, ← List.drop_drop]

theorem mem_lines {bs l : List UInt8} (h : l ∈ lines bs) :
    ∃ t, l = t ++ [lineFeed] ∧ 4 ≤ t.length ∧ t.length ≤ 64 ∧ ∀ s ∈ t, IsSymbol s := by
  have hblock {c : List UInt8} (h0 : 0 < c.length) (hc : c.length ≤ 48) :
      ∃ t, encodeBlock c ++ [lineFeed] = t ++ [lineFeed] ∧ 4 ≤ t.length ∧ t.length ≤ 64 ∧
        ∀ s ∈ t, IsSymbol s := by
    refine ⟨encodeBlock c, rfl, ?_, ?_, isSymbol_encodeBlock c⟩ <;> rw [length_encodeBlock] <;> omega
  have hlines : ∀ k (bs : List UInt8), 48 * k ≤ bs.length → l ∈ encodeLines k bs →
      ∃ t, l = t ++ [lineFeed] ∧ 4 ≤ t.length ∧ t.length ≤ 64 ∧ ∀ s ∈ t, IsSymbol s := by
    intro k
    induction k with
    | zero => exact fun bs _ hl => absurd hl List.not_mem_nil
    | succ k ih =>
        intro bs hk hl
        obtain rfl | hl := List.mem_cons.1 hl
        · exact hblock (by rw [List.length_take]; omega) (by rw [List.length_take]; omega)
        · exact ih (bs.drop 48) (by rw [List.length_drop]; omega) hl
  obtain hl | hl := List.mem_append.1 h
  · exact hlines _ bs (by omega) hl
  · rw [lastLine] at hl
    split at hl
    · exact absurd hl List.not_mem_nil
    · rename_i hne
      obtain rfl := List.mem_singleton.1 hl
      exact hblock (List.length_pos_of_ne_nil hne) (Nat.le_of_lt (encodeUpdate _ bs).1.property)

theorem decodeUpdate_line (c : List UInt8) : decodeUpdate (encodeBlock c ++ [lineFeed]) = c := by
  have hfilter : (encodeBlock c ++ [lineFeed]).filter (· ≠ lineFeed) = encodeBlock c := by
    rw [List.filter_append, List.filter_eq_self.2 fun s hs => by
      simpa using (isSymbol_encodeBlock c s hs).ne.1]
    simp
  rw [decodeUpdate, hfilter, decodeBlock_encodeBlock]

theorem decode_lines (bs : List UInt8) : ((lines bs).map decodeUpdate).flatten = bs := by
  have hlines (k : Nat) (bs : List UInt8) :
      ((encodeLines k bs).map decodeUpdate).flatten = bs.take (48 * k) := by
    induction k generalizing bs with
    | zero => rw [Nat.mul_zero, List.take_zero]; rfl
    | succ k ih =>
        rw [encodeLines, List.map_cons, List.flatten_cons, ih, decodeUpdate_line, Nat.mul_succ,
          Nat.add_comm, List.take_add]
  have hlast (c : Pending) : ((lastLine c).map decodeUpdate).flatten = c.val := by
    rw [lastLine]
    split
    · rename_i hc
      exact hc.symm
    · rw [List.map_singleton, List.flatten_singleton, decodeUpdate_line]
  rw [lines, List.map_append, List.flatten_append, hlines, hlast]
  exact List.take_append_drop _ bs

end Lines

end IdBasedEncryption.Base64
