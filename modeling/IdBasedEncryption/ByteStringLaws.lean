import IdBasedEncryption.ByteStrings

namespace IdBasedEncryption.ByteStringLaws

open ByteStrings

section Comparison

variable (a b c : ByteString)

theorem byteStringCmp_nil : byteStringCmp [] b = 0 := by
  rw [byteStringCmp, List.length_nil, Nat.zero_min, List.take_zero, List.take_zero]
  simp [memcmp]

theorem byteStringCmp_cons_nil (x : UInt8) (xs : ByteString) : byteStringCmp (x :: xs) [] = 1 := by
  simp [byteStringCmp, memcmp]

theorem byteStringCmp_cons_cons (x y : UInt8) (xs ys : ByteString) :
    byteStringCmp (x :: xs) (y :: ys) =
      if x = y then byteStringCmp xs ys else if x < y then -1 else 1 := by
  simp only [byteStringCmp, List.length_cons, Nat.succ_min_succ, List.take_succ_cons, memcmp,
    Nat.add_right_cancel_iff, gt_iff_lt, Nat.add_lt_add_iff_right]
  by_cases hxy : x = y
  · simp only [if_pos hxy]
  · simp only [if_neg hxy]
    split <;> rfl

/-- The lexicographic order, with a string that the other one continues as its equal. -/
theorem byteStringCmp_eq : byteStringCmp a b = if a <+: b then 0 else if a < b then -1 else 1 := by
  induction a generalizing b with
  | nil => rw [byteStringCmp_nil, if_pos List.nil_prefix]
  | cons x xs ih =>
      cases b with
      | nil =>
          have hlt : ¬x :: xs < [] := List.not_lt_nil _
          rw [byteStringCmp_cons_nil, if_neg (by simp), if_neg hlt]
      | cons y ys =>
          rw [byteStringCmp_cons_cons, ih]
          simp only [List.cons_prefix_cons, List.cons_lt_cons_iff]
          by_cases hxy : x = y
          · subst hxy
            simp
          · simp [hxy]

theorem byteStringCmp_zero_iff_starts : byteStringCmp a b = 0 ↔ a <+: b := by
  rw [byteStringCmp_eq]
  split_ifs with hpre hlt
  · exact iff_of_true rfl hpre
  · exact iff_of_false (by decide) hpre
  · exact iff_of_false (by decide) hpre

theorem le_of_isPrefix (h : a <+: b) : a ≤ b := by
  obtain ⟨t, rfl⟩ := h
  induction a with
  | nil => exact List.nil_le t
  | cons x xs ih => exact List.cons_le_cons_iff.2 (Or.inr ⟨rfl, ih⟩)

/-- What is not above zero is the order itself. -/
theorem byteStringCmp_nonpos_iff : byteStringCmp a b ≤ 0 ↔ a ≤ b := by
  rw [byteStringCmp_eq]
  split_ifs with hpre hlt
  · exact iff_of_true le_rfl (le_of_isPrefix a b hpre)
  · exact iff_of_true (by decide) (List.le_of_lt hlt)
  · refine iff_of_false (by decide) fun hle => hpre ?_
    rw [List.le_antisymm hle (List.not_lt.1 hlt)]

theorem byteStringCmp_trans (hab : byteStringCmp a b ≤ 0) (hbc : byteStringCmp b c ≤ 0) :
    byteStringCmp a c ≤ 0 := by
  rw [byteStringCmp_nonpos_iff] at hab hbc ⊢
  exact List.le_trans hab hbc

/-- The laws of a comparison that is consistent with equality. -/
structure ComparesLawfully (a b c : ByteString) : Prop where
  eq_zero : byteStringCmp a b = 0 ↔ a.length = b.length ∧ a = b
  sign : (byteStringCmp a b).sign = -(byteStringCmp b a).sign
  trans : byteStringCmp a b ≤ 0 → byteStringCmp b c ≤ 0 → byteStringCmp a c ≤ 0

/-- They hold unless one of the strings continues the other. -/
theorem comparesLawfully_iff : ComparesLawfully a b c ↔ (a <+: b ∨ b <+: a → a = b) := by
  constructor
  · rintro ⟨hzero, hsign, -⟩ (hpre | hpre)
    · exact (hzero.1 ((byteStringCmp_zero_iff_starts a b).2 hpre)).2
    · rw [(byteStringCmp_zero_iff_starts b a).2 hpre, Int.sign_zero, neg_zero,
        Int.sign_eq_zero_iff_zero] at hsign
      exact (hzero.1 hsign).2
  · intro h
    refine ⟨?_, ?_, byteStringCmp_trans a b c⟩
    · rw [byteStringCmp_zero_iff_starts]
      constructor
      · intro hpre
        have heq := h (Or.inl hpre)
        exact ⟨congrArg List.length heq, heq⟩
      · rintro ⟨-, rfl⟩
        exact List.prefix_rfl
    · by_cases heq : a = b
      · subst heq
        rw [(byteStringCmp_zero_iff_starts a a).2 List.prefix_rfl]
        rfl
      · have hab : ¬a <+: b := fun hpre => heq (h (Or.inl hpre))
        have hba : ¬b <+: a := fun hpre => heq (h (Or.inr hpre))
        rw [byteStringCmp_eq, byteStringCmp_eq, if_neg hab, if_neg hba]
        by_cases hlt : a < b
        · rw [if_pos hlt, if_neg (List.not_lt.2 (List.le_of_lt hlt))]
          rfl
        · have hgt : b < a := by
            rw [← List.not_le]
            exact fun hle => heq (List.le_antisymm hle (List.not_lt.1 hlt))
          rw [if_neg hlt, if_pos hgt]
          rfl

/-- The empty string counts as equal to every other one, but not the other way round. -/
theorem not_comparesLawfully : ¬∀ a b c : ByteString, ComparesLawfully a b c := by
  intro h
  have hzero := (h [] [0] []).eq_zero
  exact absurd (hzero.1 rfl).1 (by decide)

end Comparison

section Integers

theorem byteStringSetInt_inj (m n : Int) :
    byteStringSetInt m = byteStringSetInt n ↔ m % 256 = n % 256 := by
  constructor
  · intro h
    rw [← intFromByteString_setInt, h, intFromByteString_setInt]
  · intro h
    rw [byteStringSetInt, h]
    rfl

/-- Numbers of one byte come back, and the encoding depends on the lowest byte only. -/
theorem intFromByteString_eq_iff (n : Int) :
    (intFromByteString (byteStringSetInt n) = n ↔ 0 ≤ n ∧ n < 256) ∧
      ∀ m, byteStringSetInt m = byteStringSetInt n ↔ m % 256 = n % 256 := by
  refine ⟨?_, fun m => byteStringSetInt_inj m n⟩
  rw [intFromByteString_setInt]
  omega

/-- The share with index 256 has the encoding of the share with index 0. -/
theorem not_roundTrip : ¬∀ n : Int, 0 ≤ n → n < 2 ^ 31 →
    intFromByteString (byteStringSetInt n) = n ∧
      ∀ m, 0 ≤ m → m < 2 ^ 31 → m ≠ n → byteStringSetInt m ≠ byteStringSetInt n := by
  intro h
  have hback := (h 256 (by norm_num) (by norm_num)).1
  rw [intFromByteString_setInt] at hback
  exact absurd hback (by decide)

end Integers

end IdBasedEncryption.ByteStringLaws
