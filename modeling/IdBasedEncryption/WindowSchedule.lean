import IdBasedEncryption.MultipleBounds

namespace IdBasedEncryption.WindowSchedule

open Gmp SlidingWindow NonAdjacentForm Fp2Arith CurvePoints MultipleBounds

section Schedule

variable {σ : Type*}

/-- The windows of `point_mul`, whatever an accumulator is: the highest one sets
it up, the others are mixed in. -/
def mulSchedule (n : Int) (start : Int → σ) (double : σ → σ) (mix : Int → σ → σ) : σ :=
  let d := digit n.toNat
  let m := topDigit n
  let l := windowStart d windowsize m
  windowLoop d windowsize double mix l l (start (digitsValue d l (m + 1 - l)))

/-- The accumulator that the window `j` sets up. -/
def mulStart (P : Int × Int) (p j : Int) : Option Proj :=
  (signedMultiple P p j).map fun M => ⟨M.1, M.2, 1⟩

theorem mulMixIn_none (P : Int × Int) (p j : Int) : mulMixIn P p j none = none := by
  rw [mulMixIn]
  cases signedMultiple P p j <;> rfl

/-- An entry that the table does not have ends in no result. -/
theorem windowLoop_none (d : Nat → Int) (P : Int × Int) (p : Int) (l : Nat) :
    windowLoop d windowsize (Option.map (projDouble · p)) (mulMixIn P p) l l none = none := by
  refine windowLoop_preserves (P := fun R => R = none) ?_ ?_ rfl
  · rintro _ rfl
    rfl
  · rintro j _ rfl
    exact mulMixIn_none P p j

theorem pointMul_eq_mulSchedule (n : Int) (P : Point) (p : Int) :
    pointMul n P p = (mulSchedule n (mulStart (P.x.a, P.y.a) p) (Option.map (projDouble · p))
      (mulMixIn (P.x.a, P.y.a) p)).map (projAffine · p) := by
  simp only [pointMul, mulSchedule, mulStart]
  cases signedMultiple (P.x.a, P.y.a) p _ with
  | none => rw [Option.map_none, windowLoop_none]; rfl
  | some M =>
      rw [Option.map_some, Option.bind_eq_bind, Option.bind_some]
      cases windowLoop _ _ _ _ _ _ _ <;> rfl

end Schedule

/-- A run over the integers, with the entries of the table that it asks for. -/
structure Replay where
  value : Int
  entries : List Int
  deriving DecidableEq

def Replay.double (s : Replay) : Replay := { s with value := 2 * s.value }

def Replay.mixIn (j : Int) (s : Replay) : Replay := ⟨s.value + j, s.entries ++ [j]⟩

/-- The loop of `point_mul` over the integers. -/
def replay (n : Int) : Replay := mulSchedule n (fun j => ⟨j, [j]⟩) Replay.double Replay.mixIn

/-- Entries that the table of odd multiples has. -/
def InTable (j : Int) : Prop := j.natAbs % 2 = 1 ∧ j.natAbs ≤ 31

section Recoding

variable (n : Nat)

/-- What the digits `s[0]` to `s[m]` satisfy. -/
structure NonAdjacent (n m : Nat) : Prop where
  digits : ∀ j ≤ m, digit n j = -1 ∨ digit n j = 0 ∨ digit n j = 1
  apart : ∀ j < m, digit n j = 0 ∨ digit n (j + 1) = 0
  value : ∑ j ∈ Finset.range (m + 1), digit n j * 2 ^ j = n
  top : topDigit n = m ∨ topDigit n = m - 1
  one : digit n (topDigit n) = 1
  above : ∀ j ≤ m, topDigit n < j → digit n j = 0

theorem digitsValue_eq_sum (d : Nat → Int) (k : Nat) :
    digitsValue d 0 k = ∑ j ∈ Finset.range k, d j * 2 ^ j := by
  induction k with
  | zero => rfl
  | succ k ih =>
      rw [digitsValue_append, ih, Finset.sum_range_succ, digitsValue_one, Nat.zero_add, mul_comm (2 ^ k)]

variable {n}

theorem nonAdjacent (hn : 0 < n) : NonAdjacent n (mpzSizeinbase2 n) where
  digits j _ := digit_cases j
  apart j _ := by
    by_cases h : digit n j = 0
    · exact Or.inl h
    · exact Or.inr (digit_succ_eq_zero h)
  value := by
    rw [← digitsValue_eq_sum]
    exact digitsValue_zero_top (lt_two_pow_mpzSizeinbase2 n)
  top := by
    rw [topDigit_natCast]
    split
    · exact Or.inr rfl
    · exact Or.inl rfl
  one := digit_topDigit hn
  above j hj htop := by
    rw [topDigit_natCast] at htop
    split at htop
    · obtain rfl : j = mpzSizeinbase2 n := by omega
      assumption
    · omega

theorem inTable_window {l m : Nat} (hlm : l ≤ m) (hm : m < l + 5) (hd : digit n l ≠ 0) :
    InTable (digitsValue (digit n) l (m + 1 - l)) := by
  have hodd := window_odd hlm hd
  obtain ⟨hlo, hhi⟩ := abs_le.1 (abs_window_le (n := n) hm)
  rw [InTable]
  omega

/-- The run has come to the value `k` with entries of the table. -/
structure Reaches (k : Int) (s : Replay) : Prop where
  value : s.value = k
  entries : ∀ j ∈ s.entries, InTable j

theorem Reaches.double {k : Int} {s : Replay} (h : Reaches k s) : Reaches (2 * k) s.double :=
  ⟨congrArg (2 * ·) h.value, h.entries⟩

theorem Reaches.mixIn {k j : Int} {s : Replay} (h : Reaches k s) (hj : InTable j) :
    Reaches (k + j) (s.mixIn j) := by
  refine ⟨congrArg (· + j) h.value, fun i hi => ?_⟩
  rcases List.mem_append.1 hi with hi | hi
  · exact h.entries i hi
  · rwa [List.mem_singleton.1 hi]

theorem reaches_replay (hn : 0 < n) : Reaches n (replay n) := by
  obtain ⟨hle, hlt, hl0⟩ := first_window hn rfl
  have hrun : Reaches (digitsValue (digit n) 0 (topDigit n + 1)) (replay n) := by
    rw [replay, mulSchedule, Int.toNat_natCast]
    refine windowLoop_rep (by decide) _ _ Reaches (topDigit n + 1) ?_ le_rfl (by omega) ?_ ?_
    · intro r i s _ _ hs
      rw [pow_succ', mul_assoc]
      exact hs.double
    · intro l m s hl hs
      obtain ⟨hlm, hm, hspan, hdl, -⟩ := mem_windows (by decide) hl
      have hspan : m < l + 5 := hspan
      rw [digitsValue_split hlm (show m < topDigit n + 1 by omega), add_comm]
      exact hs.mixIn (inTable_window hlm hspan hdl)
    · refine ⟨rfl, fun j hj => ?_⟩
      rw [List.mem_singleton.1 hj]
      exact inTable_window hle hlt hl0
  have hvalue : digitsValue (digit n) 0 (topDigit n + 1) = n := highDigits_zero n
  rwa [hvalue] at hrun

/-- The recoding and the windows give the scalar back, from entries that exist. -/
theorem nonAdjacent_and_replay (hn : 0 < n) : NonAdjacent n (mpzSizeinbase2 n) ∧ (replay n).value = n ∧
    ∀ j ∈ (replay n).entries, InTable j :=
  ⟨nonAdjacent hn, (reaches_replay hn).value, (reaches_replay hn).entries⟩

theorem replay_hundred : (replay (100 : Nat)).value = 100 ∧ ∀ j ∈ (replay (100 : Nat)).entries, InTable j :=
  (nonAdjacent_and_replay (n := 100) (by norm_num)).2

end Recoding

end IdBasedEncryption.WindowSchedule
