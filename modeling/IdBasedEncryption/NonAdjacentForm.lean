import IdBasedEncryption.SlidingWindow

namespace IdBasedEncryption.NonAdjacentForm

open SlidingWindow

variable (n : Nat)

/-- The carry into position `i` of the conversion to non-adjacent form. -/
def carry : Nat → Nat
  | 0 => 0
  | i + 1 => ((n.testBit i).toNat + (n.testBit (i + 1)).toNat + carry i) / 2

def digit (i : Nat) : Int :=
  (n.testBit i).toNat + carry n i - 2 * carry n (i + 1)

variable {n}

theorem carry_le_one (i : Nat) : carry n i ≤ 1 := by
  cases i with
  | zero => simp [carry]
  | succ i =>
      have h := carry_le_one i
      have h₁ := Bool.toNat_le (n.testBit i)
      have h₂ := Bool.toNat_le (n.testBit (i + 1))
      rw [carry]
      omega

theorem shiftRight_eq (i : Nat) : n >>> i = (n.testBit i).toNat + 2 * (n >>> (i + 1)) := by
  have h := Nat.div_add_mod (n >>> i) 2
  rw [Nat.shiftRight_succ, Nat.toNat_testBit, ← Nat.shiftRight_eq_div_pow]
  omega

theorem digit_cases (i : Nat) : digit n i = -1 ∨ digit n i = 0 ∨ digit n i = 1 := by
  have h := carry_le_one (n := n) i
  have h₁ := Bool.toNat_le (n.testBit i)
  have h₂ := Bool.toNat_le (n.testBit (i + 1))
  rw [digit, carry]
  omega

theorem digit_succ_eq_zero {i : Nat} (h : digit n i ≠ 0) : digit n (i + 1) = 0 := by
  have hc := carry_le_one (n := n) i
  have h₁ := Bool.toNat_le (n.testBit i)
  have h₂ := Bool.toNat_le (n.testBit (i + 1))
  have h₃ := Bool.toNat_le (n.testBit (i + 1 + 1))
  simp only [digit, carry] at h ⊢
  omega

/-- The digits from position `l` upwards are worth the shifted number and the
carry that enters there, as long as they reach past its highest bit. -/
theorem digitsValue_digit (l k : Nat) :
    digitsValue (digit n) l k + 2 ^ k * ((n >>> (l + k) : Nat) + carry n (l + k)) =
      (n >>> l : Nat) + carry n l := by
  induction k generalizing l with
  | zero => simp
  | succ k ih =>
      have h := ih (l + 1)
      have hs : ((n >>> l : Nat) : Int) = (n.testBit l).toNat + 2 * (n >>> (l + 1) : Nat) := by
        exact_mod_cast shiftRight_eq l
      rw [digitsValue, digit, show l + (k + 1) = l + 1 + k by omega, pow_succ, hs]
      linarith

theorem carry_eq_zero {m i : Nat} (hn : n < 2 ^ m) (hi : m < i) : carry n i = 0 := by
  obtain ⟨k, rfl⟩ : ∃ k, i = k + 1 := ⟨i - 1, by omega⟩
  have hc := carry_le_one (n := n) k
  have h₁ : n.testBit k = false := Nat.testBit_lt_two_pow (hn.trans_le (Nat.pow_le_pow_right (by omega) (by omega)))
  have h₂ : n.testBit (k + 1) = false := Nat.testBit_lt_two_pow (hn.trans_le (Nat.pow_le_pow_right (by omega) (by omega)))
  rw [carry, h₁, h₂]
  simp only [Bool.toNat_false]
  omega

/-- The digits of positions `l` to `m` are worth `n` shifted by `l`, plus the
carry into position `l`. -/
theorem digitsValue_top {m l : Nat} (hn : n < 2 ^ m) (hl : l ≤ m + 1) :
    digitsValue (digit n) l (m + 1 - l) = (n >>> l : Nat) + carry n l := by
  have h := digitsValue_digit (n := n) l (m + 1 - l)
  have hz : n >>> (m + 1) = 0 := by
    rw [Nat.shiftRight_eq_div_pow]
    exact Nat.div_eq_of_lt (hn.trans (Nat.pow_lt_pow_right (by omega) (by omega)))
  rw [show l + (m + 1 - l) = m + 1 by omega, hz, carry_eq_zero hn (Nat.lt_succ_self m)] at h
  simpa using h

theorem digitsValue_zero_top {m : Nat} (hn : n < 2 ^ m) :
    digitsValue (digit n) 0 (m + 1) = n := by
  simpa [carry] using digitsValue_top hn (Nat.zero_le (m + 1))

/-- Alternating nonzero digits bound a value of `k` digits by two thirds of
`2 ^ k`. -/
theorem abs_digitsValue_le (l k : Nat) :
    3 * |digitsValue (digit n) l k| ≤ 2 ^ (k + 1) - 1 ∧
      (digit n l = 0 → 3 * |digitsValue (digit n) l k| ≤ 2 ^ (k + 1) - 2) := by
  induction k generalizing l with
  | zero => simp
  | succ k ih =>
      obtain ⟨h, hz⟩ := ih (l + 1)
      have hsucc := digit_succ_eq_zero (n := n) (i := l)
      have habs : |digitsValue (digit n) l (k + 1)| ≤
          |digit n l| + 2 * |digitsValue (digit n) (l + 1) k| := by
        simpa [digitsValue, abs_mul] using
          abs_add_le (digit n l) (2 * digitsValue (digit n) (l + 1) k)
      have hone : digit n l ≠ 0 → |digit n l| = 1 := by
        rcases digit_cases (n := n) l with hd | hd | hd <;> simp [hd]
      rw [pow_succ]
      by_cases hd : digit n l = 0
      · rw [hd, abs_zero] at habs
        omega
      · have h' := hz (hsucc hd)
        have h₁ := hone hd
        omega

theorem digitsValue_emod_two (l k : Nat) : digitsValue (digit n) l (k + 1) % 2 = digit n l % 2 := by
  rw [digitsValue]
  omega

end IdBasedEncryption.NonAdjacentForm
