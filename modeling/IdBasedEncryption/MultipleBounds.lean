import IdBasedEncryption.CurvePoints

namespace IdBasedEncryption.MultipleBounds

open Gmp SlidingWindow NonAdjacentForm Fp2Arith CurvePoints

variable {n : Nat}

/-- The digits from position `l` upwards, up to the highest one in use. -/
def highDigits (n l : Nat) : Int := digitsValue (digit n) l (topDigit n + 1 - l)

theorem topDigit_natCast (n : Nat) : topDigit n =
    if digit n (mpzSizeinbase2 n) = 0 then mpzSizeinbase2 n - 1 else mpzSizeinbase2 n := by
  simp [topDigit]

theorem topDigit_le (n : Nat) : topDigit n ≤ mpzSizeinbase2 n := by
  rw [topDigit_natCast]
  split <;> omega

/-- The digits in use are worth the number shifted, and the carry that enters. -/
theorem highDigits_eq {l : Nat} (hl : l ≤ topDigit n + 1) :
    highDigits n l = (n >>> l : Nat) + carry n l := by
  have hm := lt_two_pow_mpzSizeinbase2 n
  have htop := topDigit_natCast n
  have hpos : 0 < mpzSizeinbase2 n := Nat.succ_pos _
  rw [highDigits]
  by_cases h0 : digit n (mpzSizeinbase2 n) = 0
  · rw [if_pos h0] at htop
    have h := digitsValue_top hm (show l ≤ mpzSizeinbase2 n + 1 by omega)
    rw [show mpzSizeinbase2 n + 1 - l = topDigit n + 1 - l + 1 by omega, digitsValue_append,
      digitsValue_one, show l + (topDigit n + 1 - l) = mpzSizeinbase2 n by omega, h0, mul_zero,
      add_zero] at h
    exact h
  · rw [if_neg h0] at htop
    rw [htop] at hl ⊢
    exact digitsValue_top hm hl

theorem highDigits_zero (n : Nat) : highDigits n 0 = n := by
  simp [highDigits_eq, carry]

theorem highDigits_succ {l : Nat} (hl : l ≤ topDigit n) :
    highDigits n l = digit n l + 2 * highDigits n (l + 1) := by
  rw [highDigits, show topDigit n + 1 - l = (topDigit n + 1 - (l + 1)) + 1 by omega, digitsValue]
  rfl

theorem highDigits_add (n l k : Nat) (h : l + k ≤ topDigit n + 1) :
    highDigits n l = digitsValue (digit n) l k + 2 ^ k * highDigits n (l + k) := by
  rw [highDigits, show topDigit n + 1 - l = k + (topDigit n + 1 - (l + k)) by omega,
    digitsValue_append]
  rfl

/-- The highest digit in use is one. -/
theorem digit_topDigit (hn : 0 < n) : digit n (topDigit n) = 1 := by
  have hm := lt_two_pow_mpzSizeinbase2 n
  have htop := topDigit_natCast n
  have hne : digit n (topDigit n) ≠ 0 := by
    by_cases h0 : digit n (mpzSizeinbase2 n) = 0
    · rw [if_pos h0] at htop
      intro h
      have hval := highDigits_eq (n := n) (l := topDigit n) (by omega)
      rw [highDigits, show topDigit n + 1 - topDigit n = 1 by omega, digitsValue_one, h] at hval
      have hlog : 2 ^ (mpzSizeinbase2 n - 1) ≤ n := by
        rw [mpzSizeinbase2, Int.natAbs_natCast, Nat.add_sub_cancel]
        exact Nat.log2_self_le hn.ne'
      have hpos : 0 < n >>> topDigit n := by
        rw [Nat.shiftRight_eq_div_pow, htop]
        exact Nat.div_pos hlog (Nat.two_pow_pos _)
      omega
    · rwa [htop, if_neg h0]
  have hval := highDigits_eq (n := n) (l := topDigit n) (by omega)
  rw [highDigits, show topDigit n + 1 - topDigit n = 1 by omega, digitsValue_one] at hval
  have hnonneg := Int.natCast_nonneg (n >>> topDigit n + carry n (topDigit n))
  rw [Int.natCast_add, ← hval] at hnonneg
  rcases digit_cases (n := n) (topDigit n) with h | h | h <;> omega

theorem highDigits_pos (hn : 0 < n) {l : Nat} (hl : l ≤ topDigit n) : 0 < highDigits n l := by
  induction h : topDigit n - l generalizing l with
  | zero =>
      obtain rfl : l = topDigit n := by omega
      rw [highDigits, show topDigit n + 1 - topDigit n = 1 by omega, digitsValue_one,
        digit_topDigit hn]
      exact one_pos
  | succ k ih =>
      have hsucc := ih (l := l + 1) (by omega) (by omega)
      rw [highDigits_succ hl]
      rcases digit_cases (n := n) l with h | h | h <;> omega

section Bounds

variable (hn : 0 < n)
include hn

/-- Below a nonzero digit the remaining digits are worth less than a third of
the part above it. -/
theorem part_le {l : Nat} (hl : l < topDigit n) (hd : digit n l ≠ 0) :
    2 * (2 ^ (l + 1) * highDigits n (l + 1)) ≤ 3 * n ∧
      4 * 2 ^ l ≤ 2 ^ (l + 1) * highDigits n (l + 1) := by
  have hz := digit_succ_eq_zero hd
  have hl1 : l + 1 < topDigit n := by
    by_contra h
    have ht : topDigit n = l + 1 := by omega
    rw [← ht, digit_topDigit hn] at hz
    exact one_ne_zero hz
  have hsucc := highDigits_succ (n := n) (l := l + 1) (by omega)
  have hpos := highDigits_pos hn (l := l + 1 + 1) (by omega)
  have hsplit := highDigits_add n 0 (l + 1) (by omega)
  have habs := (abs_digitsValue_le (n := n) 0 (l + 1)).1
  have hlow := neg_abs_le (digitsValue (digit n) 0 (l + 1))
  rw [highDigits_zero, zero_add] at hsplit
  rw [hsucc, hz, zero_add] at hsplit ⊢
  have hmul : (2 : Int) ^ l ≤ 2 ^ l * highDigits n (l + 1 + 1) :=
    le_mul_of_one_le_right (by positivity) hpos
  have hpow : (2 : Int) ^ (l + 1) * (2 * highDigits n (l + 1 + 1)) =
      4 * (2 ^ l * highDigits n (l + 1 + 1)) := by ring
  rw [hpow] at hsplit ⊢
  rw [show (2 : Int) ^ (l + 1 + 1) = 4 * 2 ^ l by ring] at habs
  constructor <;> linarith

/-- The scalars of an addition of a single digit, and of the difference of the
two points added, that are not multiples of `q`. -/
structure Separated (q : Nat) (k : Int) : Prop where
  pos : 0 < k
  lt : k < 2 * q
  ne : k ≠ q

omit hn in
theorem digit_zero_eq_neg_one_iff : digit n 0 = -1 ↔ n % 4 = 3 := by
  have h₁ := Nat.toNat_testBit n 0
  have h₂ := Nat.toNat_testBit n 1
  simp only [digit, carry, zero_add]
  omega

variable {q : Nat} (hodd : q % 2 = 1) (hnq : n < q) {l : Nat} (hl : l < topDigit n)
  (hd : digit n l ≠ 0)
include hodd hnq hl hd

/-- For the sum and the difference of the two points alike. -/
theorem separated_part {e : Int} (he : e = 1 ∨ e = -1)
    (h0 : l = 0 → 2 * highDigits n 1 + e * digit n 0 ≠ q) :
    Separated q (2 ^ (l + 1) * highDigits n (l + 1) + e * (2 ^ l * digit n l)) := by
  obtain ⟨hle, hge⟩ := part_le hn hl hd
  have hpow : (0 : Int) < 2 ^ l := by positivity
  have hde : e * (2 ^ l * digit n l) = 2 ^ l ∨ e * (2 ^ l * digit n l) = -2 ^ l := by
    have hcases := digit_cases (n := n) l
    rcases he with rfl | rfl <;> rcases hcases with h | h | h <;> simp [h] at hd ⊢
  refine ⟨?_, ?_, fun heq => ?_⟩
  · rcases hde with h | h <;> rw [h] <;> omega
  · rcases hde with h | h <;> rw [h] <;> omega
  · cases l with
    | zero =>
        rw [zero_add, pow_one, pow_zero, one_mul] at heq
        exact h0 rfl heq
    | succ l =>
        rw [show (2 : Int) ^ (l + 1 + 1) * highDigits n (l + 1 + 1) +
          e * (2 ^ (l + 1) * digit n (l + 1)) =
          2 * (2 ^ (l + 1) * highDigits n (l + 1 + 1) + e * (2 ^ l * digit n (l + 1))) by ring] at heq
        omega

theorem separated_sum :
    Separated q (2 ^ (l + 1) * highDigits n (l + 1) + 2 ^ l * digit n l) := by
  have h := separated_part hn hodd hnq hl hd (Or.inl rfl) fun h0 => by
    have hsucc := highDigits_succ (n := n) (l := 0) (by omega)
    rw [highDigits_zero, zero_add] at hsucc
    omega
  rwa [one_mul] at h

theorem separated_sub (hne : l = 0 → ¬(q % 4 = 1 ∧ n + 2 = q)) :
    Separated q (2 ^ (l + 1) * highDigits n (l + 1) - 2 ^ l * digit n l) := by
  have h := separated_part hn hodd hnq hl hd (Or.inr rfl) fun h0 => by
    have h4 := digit_zero_eq_neg_one_iff (n := n)
    have hcases := digit_cases (n := n) 0
    have hsucc := highDigits_succ (n := n) (l := 0) (by omega)
    rw [highDigits_zero, zero_add] at hsucc
    subst h0
    omega
  rwa [neg_one_mul, ← sub_eq_add_neg] at h

end Bounds

section Windows

theorem abs_window_le {l m : Nat} (hml : m < l + 5) : |digitsValue (digit n) l (m + 1 - l)| ≤ 21 := by
  have habs := (abs_digitsValue_le (n := n) l (m + 1 - l)).1
  have hpow : (2 : Int) ^ (m + 1 - l + 1) ≤ 2 ^ 6 := pow_le_pow_right₀ (by norm_num) (by omega)
  omega

/-- The window that sets up the accumulator. -/
theorem first_window (hn : 0 < n) {l : Nat} (hl : windowStart (digit n) windowsize (topDigit n) = l) :
    l ≤ topDigit n ∧ topDigit n < l + 5 ∧ digit n l ≠ 0 := by
  subst hl
  have hd : digit n (topDigit n) ≠ 0 := by
    rw [digit_topDigit hn]
    exact one_ne_zero
  exact ⟨windowStart_le (by decide) _, lt_windowStart_add _, windowStart_ne_zero (by decide) hd⟩

theorem window_odd {l m : Nat} (hlm : l ≤ m) (hd : digit n l ≠ 0) :
    digitsValue (digit n) l (m + 1 - l) % 2 = 1 := by
  rw [show m + 1 - l = m - l + 1 by omega, digitsValue_emod_two]
  rcases digit_cases (n := n) l with h | h | h
  · rw [h]
    rfl
  · exact absurd h hd
  · rw [h]
    rfl

variable (hn : 0 < n) {q : Nat} (hnq : n < q) {l : Nat}
include hn hnq

omit hn in
theorem highDigits_le (hl : l ≠ 0) (hlt : l ≤ topDigit n) : 2 * highDigits n l ≤ q + 1 := by
  obtain ⟨l, rfl⟩ : ∃ k, l = k + 1 := ⟨l - 1, by omega⟩
  have hc := carry_le_one (n := n) (l + 1)
  have hshift : n >>> (l + 1) ≤ n / 2 := by
    rw [Nat.shiftRight_eq_div_pow, pow_succ']
    exact Nat.div_le_div_left (Nat.le_mul_of_pos_right 2 (Nat.two_pow_pos l)) (by omega)
  rw [highDigits_eq (by omega)]
  generalize n >>> (l + 1) = k at hshift ⊢
  omega

theorem separated_highDigits (hl : l ≤ topDigit n) : Separated q (highDigits n l) := by
  have hpos := highDigits_pos hn hl
  by_cases h0 : l = 0
  · subst h0
    rw [highDigits_zero] at hpos ⊢
    exact ⟨hpos, by omega, by omega⟩
  · have hle := highDigits_le hnq h0 hl
    exact ⟨hpos, by omega, by omega⟩

/-- The point before a window is mixed in and the window itself, whose value is
at most 21. Only the last window can meet a doubling. -/
theorem separated_window (hq : q.Prime) (hq64 : 64 < q) {m : Nat} (hlm : l ≤ m) (hml : m < l + 5)
    (hm : m < topDigit n)
    (hlast : l = 0 → (n : Int) - 2 * digitsValue (digit n) 0 (m + 1) ≠ q) :
    Separated q (2 ^ (m + 1 - l) * highDigits n (m + 1) - digitsValue (digit n) l (m + 1 - l)) := by
  have hsplit := highDigits_add n l (m + 1 - l) (by omega)
  rw [show l + (m + 1 - l) = m + 1 by omega] at hsplit
  have hpos := highDigits_pos hn (l := m + 1) (by omega)
  have hsep := separated_highDigits hn hnq (l := l) (by omega)
  have habs := (abs_digitsValue_le (n := n) l (m + 1 - l)).1
  have hodd := hq.odd_of_ne_two (by omega)
  obtain ⟨k, hk⟩ := hodd
  have hq85 : q ≠ 85 := by
    rintro rfl
    exact absurd hq (by decide)
  have hhalf : l ≠ 0 → 2 * highDigits n l ≤ q + 1 := fun h0 => highDigits_le hnq h0 (by omega)
  have hn0 : l = 0 → highDigits n l = n := by
    rintro rfl
    exact highDigits_zero n
  have hzero : l = 0 → (n : Int) - 2 * digitsValue (digit n) l (m + 1 - l) ≠ q := by
    rintro rfl
    exact hlast rfl
  have hw : m + 1 - l = 1 ∨ m + 1 - l = 2 ∨ m + 1 - l = 3 ∨ m + 1 - l = 4 ∨ m + 1 - l = 5 := by omega
  obtain ⟨hle, hge⟩ := abs_le.1 (le_refl |digitsValue (digit n) l (m + 1 - l)|)
  generalize digitsValue (digit n) l (m + 1 - l) = v at *
  generalize highDigits n (m + 1) = D at *
  generalize highDigits n l = H at *
  have hlt := hsep.lt
  by_cases h0 : l = 0
  · have hH := hn0 h0
    have hneq := hzero h0
    rcases hw with hw | hw | hw | hw | hw <;> rw [hw] at hsplit habs ⊢ <;>
      exact ⟨by omega, by omega, by omega⟩
  · have hH := hhalf h0
    rcases hw with hw | hw | hw | hw | hw <;> rw [hw] at hsplit habs ⊢ <;>
      exact ⟨by omega, by omega, by omega⟩

end Windows

end IdBasedEncryption.MultipleBounds
