import IdBasedEncryption.IbeLib

namespace IdBasedEncryption.HashNumbers

open Gmp ByteStrings IbeLib

section Fuel

/-- `fromHashLoop` without an answer when the fuel is used up. -/
def fromHashRuns (z : Nat) : Nat → Nat → Nat → Nat → Int → Option Nat
  | 0, _, _, _, _ => none
  | fuel + 1, x, i, count, bits =>
      let zbits := mpzSizeinbase2 z
      let x := x ||| z <<< i
      let i := i + zbits
      let bits := bits - zbits
      if bits ≤ 0 then some x
      else
        let countlen := mpzSizeinbase2 count
        let x := x ||| count <<< i
        let bits := bits - countlen
        if bits > 0 then fromHashRuns z fuel x (i + countlen) (count + 1) bits else some x

/-- `clearTopBits` without an answer when the fuel is used up. -/
def clearRuns (limit : Int) : Nat → Nat → Option Nat
  | 0, _ => none
  | fuel + 1, x => if x > limit then clearRuns limit fuel (x ^^^ 2 ^ (mpzSizeinbase2 x - 1)) else some x

def mympzFromHashRuns (fuel : Nat) (limit : Int) (hash : ByteString) : Option Nat := do
  let x ← fromHashRuns (inpRaw hash) fuel 0 0 1 (mpzSizeinbase2 limit)
  clearRuns limit fuel x

end Fuel

section Pattern

/-- The number and the length of `z || 1 || z || 2 || ... || z || n`, lowest bits
first. -/
def pattern (z : Nat) : Nat → Nat × Nat
  | 0 => (0, 0)
  | n + 1 =>
      let x := (pattern z n).1 ||| z <<< (pattern z n).2
      let i := (pattern z n).2 + mpzSizeinbase2 z
      (x ||| (n + 1) <<< i, i + mpzSizeinbase2 (n + 1 : Nat))

theorem or_shiftLeft_mod {x y i j : Nat} (h : j ≤ i) : (x ||| y <<< i) % 2 ^ j = x % 2 ^ j := by
  have hshift : y <<< i % 2 ^ j = 0 := by
    rw [Nat.shiftLeft_eq]
    exact Nat.mod_eq_zero_of_dvd ((Nat.pow_dvd_pow 2 h).mul_left y)
  rw [Nat.or_mod_two_pow, hshift, Nat.or_zero]

variable (z : Nat)

theorem pattern_succ_length (n : Nat) : (pattern z n).2 + 2 ≤ (pattern z (n + 1)).2 := by
  simp only [pattern, mpzSizeinbase2]
  omega

theorem two_mul_le_pattern (n : Nat) : 2 * n ≤ (pattern z n).2 := by
  induction n with
  | zero => exact Nat.zero_le _
  | succ n ih =>
      have h := pattern_succ_length z n
      omega

theorem pattern_length_mono {n k : Nat} (hnk : n ≤ k) : (pattern z n).2 ≤ (pattern z k).2 := by
  induction k, hnk using Nat.le_induction with
  | base => exact le_rfl
  | succ k hnk ih =>
      have h := pattern_succ_length z k
      omega

/-- Further rounds leave the lower bits alone. -/
theorem pattern_mod {n k j : Nat} (hnk : n ≤ k) (hj : j ≤ (pattern z n).2) :
    (pattern z k).1 % 2 ^ j = (pattern z n).1 % 2 ^ j := by
  induction k, hnk using Nat.le_induction with
  | base => rfl
  | succ k hnk ih =>
      have hmono := pattern_length_mono z hnk
      rw [pattern, or_shiftLeft_mod (by omega), or_shiftLeft_mod (hj.trans hmono), ih]

/-- The first loop ends with a number that starts like the pattern. -/
theorem fromHashRuns_pattern {l : Nat} (fuel n : Nat) (bits : Int)
    (hbits : bits = l - (pattern z n).2) (hpos : 0 < bits) (hfuel : bits ≤ fuel) :
    ∃ x, fromHashRuns z fuel (pattern z n).1 (pattern z n).2 (n + 1) bits = some x ∧
      fromHashLoop z fuel (pattern z n).1 (pattern z n).2 (n + 1) bits = x ∧
      ∀ k, l ≤ (pattern z k).2 → x % 2 ^ l = (pattern z k).1 % 2 ^ l := by
  induction fuel generalizing n bits with
  | zero => omega
  | succ fuel ih =>
      have hlater {k : Nat} (hk : l ≤ (pattern z k).2) : n + 1 ≤ k := by
        by_contra hlt
        have hmono := pattern_length_mono z (show k ≤ n by omega)
        omega
      have hlen : (pattern z (n + 1)).2 = (pattern z n).2 + mpzSizeinbase2 z +
        mpzSizeinbase2 (n + 1 : Nat) := rfl
      simp only [fromHashRuns, fromHashLoop]
      by_cases hstop : bits - mpzSizeinbase2 z ≤ 0
      · refine ⟨(pattern z n).1 ||| z <<< (pattern z n).2, by rw [if_pos hstop], by rw [if_pos hstop],
          fun k hk => ?_⟩
        have hlow : (pattern z (n + 1)).1 % 2 ^ l =
            ((pattern z n).1 ||| z <<< (pattern z n).2) % 2 ^ l := or_shiftLeft_mod (by omega)
        rw [pattern_mod z (hlater hk) (by omega), hlow]
      · rw [if_neg hstop, if_neg hstop]
        by_cases hmore : bits - mpzSizeinbase2 z - mpzSizeinbase2 (n + 1 : Nat) > 0
        · rw [if_pos hmore, if_pos hmore]
          have hstep := pattern_succ_length z n
          exact ih (n + 1) _ (by omega) hmore (by omega)
        · rw [if_neg hmore, if_neg hmore]
          exact ⟨(pattern z (n + 1)).1, rfl, rfl, fun k hk => (pattern_mod z (hlater hk) (by omega)).symm⟩

end Pattern

section Clear

theorem xor_top {x : Nat} (h : x ≠ 0) : x ^^^ 2 ^ (mpzSizeinbase2 x - 1) = x % 2 ^ x.log2 := by
  have hsize : mpzSizeinbase2 x - 1 = x.log2 := by simp [mpzSizeinbase2]
  rw [hsize]
  apply Nat.eq_of_testBit_eq
  intro j
  rw [Nat.testBit_xor, Nat.testBit_two_pow, Nat.testBit_mod_two_pow]
  rcases lt_trichotomy j x.log2 with hj | hj | hj
  · simp [hj, hj.ne']
  · subst hj
    simp [Nat.testBit_log2 h]
  · have hlow : x.testBit j = false :=
      Nat.testBit_lt_two_pow (Nat.lt_log2_self.trans_le (Nat.pow_le_pow_right (by norm_num) hj))
    simp [hj.not_gt, hj.ne, hlow]

variable {limit : Nat} (hlimit : 0 < limit)

include hlimit

/-- The second loop ends below the limit, or at it when the low bits of its
input are the limit. -/
theorem clearRuns_spec (fuel x : Nat) (hfuel : x < 2 ^ fuel) :
    ∃ r, clearRuns limit (fuel + 1) x = some r ∧ r ≤ limit ∧
      (r = limit ↔ x % 2 ^ mpzSizeinbase2 limit = limit) := by
  have hlt := lt_two_pow_mpzSizeinbase2 limit
  induction fuel generalizing x with
  | zero =>
      obtain rfl : x = 0 := by simpa using hfuel
      refine ⟨0, by simp [clearRuns], Nat.zero_le _, ?_⟩
      rw [Nat.zero_mod]
  | succ fuel ih =>
      rw [clearRuns]
      by_cases hx : (x : Int) > limit
      · have hx' : limit < x := by exact_mod_cast hx
        have hlog : x.log2 ≤ fuel := Nat.lt_succ_iff.1 ((Nat.log2_lt (by omega)).2 hfuel)
        have hcleared : x % 2 ^ x.log2 < 2 ^ x.log2 := Nat.mod_lt _ (by positivity)
        rw [if_pos hx, xor_top (by omega)]
        obtain ⟨r, hr, hle, hiff⟩ := ih (x % 2 ^ x.log2)
          (hcleared.trans_le (Nat.pow_le_pow_right (by norm_num) hlog))
        refine ⟨r, hr, hle, hiff.trans ?_⟩
        by_cases hlong : mpzSizeinbase2 limit ≤ x.log2
        · rw [Nat.mod_mod_of_dvd _ (Nat.pow_dvd_pow 2 hlong)]
        · -- the cleared bit was the highest one of the limit, too
          have hsize : x.log2 ≤ limit.log2 := by
            simp only [mpzSizeinbase2, Int.natAbs_natCast] at hlong
            omega
          have hlimit2 : 2 ^ x.log2 ≤ limit :=
            (Nat.pow_le_pow_right (by norm_num) hsize).trans (Nat.log2_self_le (by omega))
          have hxlt : x < 2 ^ mpzSizeinbase2 limit :=
            Nat.lt_log2_self.trans_le (Nat.pow_le_pow_right (by norm_num) (by omega))
          rw [Nat.mod_eq_of_lt (b := 2 ^ mpzSizeinbase2 limit) (by omega), Nat.mod_eq_of_lt hxlt]
          omega
      · have hx' : x ≤ limit := by omega
        rw [if_neg hx]
        exact ⟨x, rfl, hx', by rw [Nat.mod_eq_of_lt (by omega)]⟩

end Clear

section Main

theorem fromHashRuns_mono {z fuel x i count : Nat} {bits : Int} {r : Nat}
    (h : fromHashRuns z fuel x i count bits = some r) {n : Nat} (hle : fuel ≤ n) :
    fromHashRuns z n x i count bits = some r := by
  induction fuel generalizing x i count bits n with
  | zero => cases h
  | succ fuel ih =>
      obtain ⟨n, rfl⟩ := Nat.exists_eq_add_of_le' (show 1 ≤ n by omega)
      simp only [fromHashRuns] at h ⊢
      split
      · rename_i hstop
        rwa [if_pos hstop] at h
      · rename_i hstop
        rw [if_neg hstop] at h
        split
        · rename_i hmore
          rw [if_pos hmore] at h
          exact ih h (by omega)
        · rename_i hmore
          rwa [if_neg hmore] at h

theorem clearRuns_mono {limit : Int} {fuel x r : Nat} (h : clearRuns limit fuel x = some r)
    {n : Nat} (hle : fuel ≤ n) : clearRuns limit n x = some r := by
  induction fuel generalizing x n with
  | zero => cases h
  | succ fuel ih =>
      obtain ⟨n, rfl⟩ := Nat.exists_eq_add_of_le' (show 1 ≤ n by omega)
      rw [clearRuns] at h ⊢
      split
      · rename_i hx
        rw [if_pos hx] at h
        exact ih h (by omega)
      · rename_i hx
        rwa [if_neg hx] at h

/-- The last test of the loop needs no fuel. -/
theorem clearTopBits_eq {limit : Int} {fuel x r : Nat} (h : clearRuns limit (fuel + 1) x = some r) :
    clearTopBits limit fuel x = r := by
  induction fuel generalizing x with
  | zero =>
      rw [clearRuns] at h
      split at h
      · cases h
      · exact Option.some.inj h
  | succ fuel ih =>
      rw [clearRuns] at h
      rw [clearTopBits]
      split
      · rename_i hx
        rw [if_pos hx] at h
        exact ih h
      · rename_i hx
        rw [if_neg hx] at h
        exact Option.some.inj h

/-- Both loops end, and the result is below the prime exactly when the pattern
does not start with the bits of the prime. -/
theorem mympzFromHash_lt_iff {p : Nat} (hp : p.Prime) (hash : ByteString) :
    (∃ fuel, ∀ n, fuel ≤ n → mympzFromHashRuns n p hash = some (mympzFromHash p hash)) ∧
      ((0 ≤ mympzFromHash p hash ∧ mympzFromHash p hash < p) ↔
        (pattern (inpRaw hash) (mpzSizeinbase2 p)).1 % 2 ^ mpzSizeinbase2 p ≠ p) := by
  obtain ⟨x, hruns, hloop, hpattern⟩ := fromHashRuns_pattern (inpRaw hash) (l := mpzSizeinbase2 p)
    (mpzSizeinbase2 p) 0 (mpzSizeinbase2 p) (by simp [pattern]) (by simp [mpzSizeinbase2]) le_rfl
  have hx : x < 2 ^ mpzSizeinbase2 x := lt_two_pow_mpzSizeinbase2 x
  obtain ⟨r, hclear, hle, hiff⟩ := clearRuns_spec hp.pos (mpzSizeinbase2 x) x hx
  have hresult : mympzFromHash p hash = r := by
    have htop := clearTopBits_eq hclear
    rw [← hloop] at htop
    exact htop
  have hlen := two_mul_le_pattern (inpRaw hash) (mpzSizeinbase2 p)
  constructor
  · refine ⟨max (mpzSizeinbase2 p) (mpzSizeinbase2 x + 1), fun n hn => ?_⟩
    have hfirst := fromHashRuns_mono hruns ((le_max_left ..).trans hn)
    have hsecond := clearRuns_mono hclear ((le_max_right ..).trans hn)
    have hstart : fromHashRuns (inpRaw hash) n 0 0 1 (mpzSizeinbase2 p) = some x := hfirst
    rw [mympzFromHashRuns, hstart, hresult]
    exact hsecond
  · rw [← hpattern _ (by omega), hresult, Ne, ← hiff]
    constructor
    · rintro ⟨-, hlt⟩ rfl
      exact lt_irrefl _ hlt
    · exact fun hne => ⟨Nat.zero_le r, lt_of_le_of_ne hle hne⟩

theorem mympzFromHash_lt_of_seven :
    (∃ fuel, ∀ n, fuel ≤ n → mympzFromHashRuns n 7 [3] = some (mympzFromHash 7 [3])) ∧
      ((0 ≤ mympzFromHash 7 [3] ∧ mympzFromHash 7 [3] < 7) ↔
        (pattern (inpRaw [3]) (mpzSizeinbase2 7)).1 % 2 ^ mpzSizeinbase2 7 ≠ 7) :=
  mympzFromHash_lt_iff (p := 7) (by norm_num) [3]

/-- The prime itself comes out. -/
theorem not_mympzFromHash_lt : ¬mympzFromHash 7 [7] < 7 := by
  decide

end Main

end IdBasedEncryption.HashNumbers
