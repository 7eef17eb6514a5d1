import IdBasedEncryption.CurvePoints

namespace IdBasedEncryption.SolinasForm

open Gmp SlidingWindow NonAdjacentForm CurvePoints

/-- `q = 2 ^ a + s 2 ^ b + t` with signs `s` and `t`, the middle term being
absent for `b = 0`. -/
structure IsSolinas (q a b : Nat) (s t : Int) : Prop where
  eq : (q : Int) = 2 ^ a + s * 2 ^ b + t
  last : t = 1 ∨ t = -1
  middle : (b = 0 ∧ s = 0) ∨ (2 ≤ b ∧ b + 2 ≤ a ∧ (s = 1 ∨ s = -1))

section Bounds

variable {q a b : Nat} {s t : Int} (h : IsSolinas q a b s t)
include h

theorem IsSolinas.pow_le (hb : b ≠ 0) : 4 * 2 ^ b ≤ 2 ^ a ∧ 3 * 2 ^ a ≤ 4 * q + 4 := by
  obtain ⟨-, hba, hs⟩ := h.middle.resolve_left fun h => hb h.1
  have hle : 2 ^ (b + 2) ≤ 2 ^ a := Nat.pow_le_pow_right (by omega) hba
  have heq := h.eq
  have hlast := h.last
  rw [pow_add] at hle
  have hpos := Nat.two_pow_pos b
  refine ⟨by omega, ?_⟩
  zify at hle hpos ⊢
  rcases hs with rfl | rfl <;> rcases hlast with rfl | rfl <;> omega

theorem IsSolinas.le : b ≤ a := by
  rcases h.middle with h | h <;> omega

theorem IsSolinas.pow_le_of_zero (hb : b = 0) : 2 ^ a ≤ q + 1 ∧ q ≤ 2 ^ a + 1 := by
  obtain ⟨-, hs⟩ := h.middle.resolve_right fun h => by omega
  have heq := h.eq
  have hlast := h.last
  subst hs
  constructor <;> zify <;> rcases hlast with rfl | rfl <;> omega

theorem IsSolinas.degree_lt_of_zero (hb : b = 0) (hq : 5 ≤ q) : 2 * 4 ^ a + 1 < q ^ 4 := by
  have hu := (h.pow_le_of_zero hb).1
  have h4 : 4 ^ a = (2 ^ a) ^ 2 := by rw [show 4 = 2 ^ 2 by rfl, pow_right_comm]
  have hu2 : (2 ^ a) ^ 2 ≤ (q + 1) ^ 2 := Nat.pow_le_pow_left hu 2
  rw [h4]
  nlinarith [mul_le_mul hq hq (by omega) (by omega), sq_nonneg (q ^ 2 : Int)]

theorem IsSolinas.degree_lt (hb : b ≠ 0) (hq : 5 ≤ q) :
    2 * (2 * 4 ^ a + 4 * 4 ^ b) + 1 < q ^ 4 := by
  obtain ⟨hv, hu⟩ := h.pow_le hb
  have h4 (k : Nat) : 4 ^ k = (2 ^ k) ^ 2 := by rw [show 4 = 2 ^ 2 by rfl, pow_right_comm]
  have hv2 : (4 * 2 ^ b) ^ 2 ≤ (2 ^ a) ^ 2 := Nat.pow_le_pow_left hv 2
  have hu2 : (3 * 2 ^ a) ^ 2 ≤ (4 * q + 4) ^ 2 := Nat.pow_le_pow_left hu 2
  have hq2 : 25 * q ^ 2 ≤ q ^ 4 := by
    rw [show q ^ 4 = q ^ 2 * q ^ 2 by ring]
    exact Nat.mul_le_mul_right _ (by nlinarith)
  rw [h4, h4]
  nlinarith

end Bounds

/-- What the search of `curve_init` knows after `k` digits of an odd number: up
to three of them are not zero, or it has given up. -/
inductive Found (n k : Nat) : Solinas → Prop
  | stopped : Found n k ⟨0, 0, 3, true⟩
  | one (h : digitsValue (digit n) 0 k = digit n 0) : Found n k ⟨digit n 0, 0, 1, false⟩
  | two (i : Nat) (hi : 0 < i) (hik : i < k) (hd : digit n i ≠ 0)
      (h : digitsValue (digit n) 0 k = digit n 0 + 2 ^ i * digit n i) :
      Found n k ⟨digit n 0, i * digit n i, 2, false⟩
  | three (i j : Nat) (hi : 0 < i) (hij : i < j) (hdi : digit n i ≠ 0) (hdj : digit n j ≠ 0)
      (h : digitsValue (digit n) 0 k = digit n 0 + 2 ^ i * digit n i + 2 ^ j * digit n j) :
      Found n k ⟨digit n 0 * j, i * digit n i, 3, false⟩

theorem Found.round {n k : Nat} {s : Solinas} (hk : 0 < k) (h : Found n k s) :
    Found n (k + 1) (solinasRound n s k) := by
  have hsucc : digitsValue (digit n) 0 (k + 1) = digitsValue (digit n) 0 k + 2 ^ k * digit n k := by
    rw [digitsValue_append, zero_add, digitsValue_one]
  have hk0 : k ≠ 0 := hk.ne'
  by_cases hd : digit n k = 0
  · have hround : solinasRound n s k = s := if_pos (.inr hd)
    rw [hd, mul_zero, add_zero] at hsucc
    rw [hround]
    cases h with
    | stopped => exact .stopped
    | one h => exact .one (hsucc.trans h)
    | two i hi hik hdi h => exact .two i hi (by omega) hdi (hsucc.trans h)
    | three i j hi hij hdi hdj h => exact .three i j hi hij hdi hdj (hsucc.trans h)
  · cases h with
    | stopped => exact .stopped
    | one h => simpa [solinasRound, hd, hk0] using Found.two k hk (Nat.lt_succ_self k) hd (by rw [hsucc, h])
    | two i hi hik hdi h =>
        simpa [solinasRound, hd, hk0] using Found.three i k hi hik hdi hd (by rw [hsucc, h])
    | three i j hi hij hdi hdj h => simpa [solinasRound, hd] using Found.stopped

theorem found_foldl {n : Nat} (h0 : digit n 0 ≠ 0) (k : Nat) :
    Found n (k + 1) ((List.range (k + 1)).foldl (solinasRound n) ⟨0, 0, 0, false⟩) := by
  induction k with
  | zero => simpa [solinasRound, h0] using Found.one (n := n) (k := 1) (digitsValue_one 0)
  | succ k ih =>
      rw [List.range_succ, List.foldl_append]
      exact ih.round (Nat.succ_pos k)

theorem digit_zero_ne_zero {n : Nat} (h : n % 2 = 1) : digit n 0 ≠ 0 := by
  have hbit : n.testBit 0 = true := by simpa using h
  rw [digit, hbit]
  simp only [carry, Bool.toNat_true]
  omega

/-- The signs of the fields are the signs of the decomposition, as the highest
digit is always positive. -/
theorem isSolinas_solinas {q : Nat} (hq : 1 < q) (hodd : q % 2 = 1) (h : (solinas q).1 ≠ 0) :
    IsSolinas q (solinas q).1.natAbs (solinas q).2.natAbs (solinas q).2.sign
      (solinas q).1.sign := by
  have h0 := digit_zero_ne_zero hodd
  have hfound := found_foldl h0 (mpzSizeinbase2 q)
  have hvalue := digitsValue_zero_top (lt_two_pow_mpzSizeinbase2 q)
  have hsign (i : Nat) (hi : digit q i ≠ 0) : digit q i = 1 ∨ digit q i = -1 := by
    have := digit_cases (n := q) i
    omega
  rw [solinas] at h ⊢
  generalize (List.range (mpzSizeinbase2 q + 1)).foldl (solinasRound q) ⟨0, 0, 0, false⟩ = r
    at hfound h ⊢
  cases hfound with
  | stopped => simp at h
  | one hd =>
      rcases hsign 0 h0 with h1 | h1 <;> omega
  | two i hi hik hdi hd =>
      have hpos := Nat.two_pow_pos i
      have hi1 : digit q i = 1 := by
        rcases hsign i hdi with h1 | h1
        · exact h1
        · rw [h1] at hd
          rcases hsign 0 h0 with h2 | h2 <;> zify at hpos <;> omega
      rw [hi1] at hd ⊢
      rcases hsign 0 h0 with h1 | h1 <;> rw [h1] at hd ⊢ <;> constructor <;>
        simp [Int.sign_eq_one_of_pos, hi] <;> omega
  | three i j hi hij hdi hdj hd =>
      have hi2 : i ≠ 1 := by
        rintro rfl
        exact hdi (digit_succ_eq_zero h0)
      have hj2 : j ≠ i + 1 := by
        rintro rfl
        exact hdj (digit_succ_eq_zero hdi)
      have hpow : 2 * 2 ^ i ≤ 2 ^ j := by
        rw [← pow_succ']
        exact Nat.pow_le_pow_right (by omega) (by omega)
      have hpos := Nat.two_pow_pos i
      have hj1 : digit q j = 1 := by
        rcases hsign j hdj with h1 | h1
        · exact h1
        · rw [h1] at hd
          zify at hpow hpos
          rcases hsign 0 h0 with h2 | h2 <;> rcases hsign i hdi with h3 | h3 <;>
            rw [h2, h3] at hd <;> omega
      rw [hj1] at hd
      rcases hsign 0 h0 with h1 | h1 <;> rcases hsign i hdi with h2 | h2 <;> rw [h1, h2] at hd ⊢ <;>
        constructor <;> simp [Int.sign_eq_one_of_pos, hi, hi.trans hij] <;> omega

theorem twelve_mul_le {p q : Nat} (hp12 : p % 12 = 11) (hq : q.Prime) (hq3 : 3 < q)
    (hqp : q ∣ p + 1) : 12 * q ≤ p + 1 := by
  have hcop : Nat.Coprime 12 q := by
    rw [show 12 = 2 ^ 2 * 3 by rfl]
    exact Nat.Coprime.mul_left (Nat.Coprime.pow_left 2
      ((Nat.coprime_primes Nat.prime_two hq).2 (by omega)))
      ((Nat.coprime_primes Nat.prime_three hq).2 (by omega))
  exact Nat.le_of_dvd (by omega) (hcop.mul_dvd_of_dvd_of_dvd (by omega) hqp)

end IdBasedEncryption.SolinasForm
