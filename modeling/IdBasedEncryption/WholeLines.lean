import IdBasedEncryption.Stdio

namespace IdBasedEncryption.WholeLines

open Stdio

/-- A text that ends with its last line. -/
def Whole (bs : List UInt8) : Prop := bs = [] ∨ bs.getLast? = some newline

/-- A text made of lines without the property `p`. -/
inductive Skipped (n : Nat) (p : List UInt8 → Prop) : List UInt8 → Prop
  | nil : Skipped n p []
  | next {l bs : List UInt8} (hl : IsLine n l) (hp : ¬p l) (h : Skipped n p bs) :
      Skipped n p (l ++ bs)

theorem exists_first {α : Type*} {p : α → Prop} {l : List α} (h : ∃ x ∈ l, p x) :
    ∃ a x b, l = a ++ x :: b ∧ p x ∧ ∀ y ∈ a, ¬p y := by
  induction l with
  | nil => simp at h
  | cons y l ih =>
      by_cases hy : p y
      · exact ⟨[], y, l, rfl, hy, by simp⟩
      · obtain ⟨x, hx, hpx⟩ := h
        have hxl : x ∈ l := by
          rcases List.mem_cons.1 hx with rfl | hxl
          · exact absurd hpx hy
          · exact hxl
        obtain ⟨a, x, b, rfl, hpx, ha⟩ := ih ⟨x, hxl, hpx⟩
        exact ⟨y :: a, x, b, rfl, hpx, List.forall_mem_cons.2 ⟨hy, ha⟩⟩

section Whole

variable {n : Nat} {l bs : List UInt8}

theorem isLine_append_newline {t : List UInt8} (ht : newline ∉ t) (hn : t.length < n) :
    IsLine n (t ++ [newline]) where
  pos := by rw [List.length_append]; exact Nat.succ_pos _
  le := by rw [List.length_append]; exact hn
  body := by rwa [List.dropLast_concat]
  last _ := List.getLast?_concat

theorem whole_append_newline (t : List UInt8) : Whole (t ++ [newline]) := Or.inr List.getLast?_concat

theorem Whole.append {a b : List UInt8} (ha : Whole a) (hb : Whole b) : Whole (a ++ b) := by
  rcases hb with rfl | hb
  · rwa [List.append_nil]
  · right
    rw [List.getLast?_append, hb]
    rfl

theorem Whole.of_append {a b : List UInt8} (h : Whole (a ++ b)) : Whole b := by
  rcases h with h | h
  · exact Or.inl (List.append_eq_nil_iff.1 h).2
  · by_cases hb : b = []
    · exact Or.inl hb
    · right
      rwa [List.getLast?_append_of_ne_nil _ hb] at h

theorem Whole.not_isTail (h : Whole bs) (hne : bs ≠ []) : ¬IsTail n bs := by
  intro ht
  obtain h | h := h
  · exact hne h
  · exact ht.body (List.mem_of_getLast? h)

theorem Whole.exists_line (h : Whole bs) (hne : bs ≠ []) (hn : 0 < n) :
    ∃ l rest, bs = l ++ rest ∧ IsLine n l ∧ Whole rest := by
  rcases exists_line_or_isTail hn bs with ⟨l, rest, rfl, hl⟩ | ht
  · exact ⟨l, rest, rfl, hl, h.of_append⟩
  · exact absurd ht (h.not_isTail hne)

end Whole

section Search

variable {n : Nat} {p : List UInt8 → Prop} {bs rest a : List UInt8}

theorem Skipped.single {l : List UInt8} (hl : IsLine n l) (hp : ¬p l) : Skipped n p l := by
  have h := Skipped.next hl hp .nil
  rwa [List.append_nil] at h

theorem Skipped.append {b : List UInt8} (ha : Skipped n p a) (hb : Skipped n p b) :
    Skipped n p (a ++ b) := by
  induction ha with
  | nil => exact hb
  | next hl hp h ih =>
      rw [List.append_assoc]
      exact .next hl hp ih

theorem Skipped.flatten {ls : List (List UInt8)} (h : ∀ l ∈ ls, IsLine n l ∧ ¬p l) :
    Skipped n p ls.flatten := by
  induction ls with
  | nil => exact .nil
  | cons l ls ih =>
      obtain ⟨⟨hl, hp⟩, hls⟩ := List.forall_mem_cons.1 h
      exact .next hl hp (ih hls)

theorem Skipped.firstLine (ha : Skipped n p a) (h : FirstLine n p bs rest) :
    FirstLine n p (a ++ bs) rest := by
  induction ha with
  | nil => exact h
  | next hl hp ha ih =>
      rw [List.append_assoc]
      exact .next hl hp ih

theorem Skipped.noLine (ha : Skipped n p a) (h : NoLine n p bs) : NoLine n p (a ++ bs) := by
  induction ha with
  | nil => exact h
  | next hl hp ha ih =>
      rw [List.append_assoc]
      exact .next hl hp ih

theorem Skipped.noLine_self (hn : 0 < n) (h : Skipped n p bs) : NoLine n p bs := by
  have hnil : NoLine n p [] := .tail ⟨hn, List.not_mem_nil⟩
  have hno := h.noLine hnil
  rwa [List.append_nil] at hno

/-- The search does not see what lies behind the line it finds. -/
theorem firstLine_append (h : FirstLine n p bs rest) (x : List UInt8) :
    FirstLine n p (bs ++ x) (rest ++ x) := by
  induction h with
  | here hl hp =>
      rw [List.append_assoc]
      exact .here hl hp
  | next hl hp h ih =>
      rw [List.append_assoc]
      exact .next hl hp ih

theorem firstLine_or_skipped (hn : 0 < n) (p : List UInt8 → Prop) (h : Whole bs) :
    (∃ rest, FirstLine n p bs rest) ∨ Skipped n p bs := by
  induction hk : bs.length using Nat.strong_induction_on generalizing bs with
  | _ k ih =>
      by_cases hne : bs = []
      · subst hne
        exact Or.inr .nil
      · obtain ⟨l, r, rfl, hl, hr⟩ := h.exists_line hne hn
        have hlt : r.length < k := by
          have hpos := hl.pos
          rw [List.length_append] at hk
          omega
        by_cases hp : p l
        · exact Or.inl ⟨r, .here hl hp⟩
        · rcases ih r.length hlt hr rfl with ⟨rest, h⟩ | h
          · exact Or.inl ⟨rest, .next hl hp h⟩
          · exact Or.inr (.next hl hp h)

/-- The line that is found, and the text in front of it. -/
theorem FirstLine.exists_append (h : FirstLine n p bs rest) :
    ∃ a l, bs = a ++ (l ++ rest) ∧ Skipped n p a ∧ IsLine n l ∧ p l := by
  induction h with
  | @here l rest hl hp => exact ⟨[], l, rfl, .nil, hl, hp⟩
  | @next l bs rest hl hp h ih =>
      obtain ⟨a, m, rfl, ha, hm, hpm⟩ := ih
      exact ⟨l ++ a, m, (List.append_assoc ..).symm, .next hl hp ha, hm, hpm⟩

end Search

end IdBasedEncryption.WholeLines
