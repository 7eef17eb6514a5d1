import IdBasedEncryption.CofactorMultiples
import IdBasedEncryption.ParamsRoundTrip
import IdBasedEncryption.SolinasSearch

namespace IdBasedEncryption.SetupOutcome

open CurvePoints MordellGroup PointValues Multiples ScalarMultiples ByteStrings PointBytes IbeLib KeyEncapsulation SolinasForm
open SolinasSearch CofactorMultiples ParamsRoundTrip

section Primes

variable {qk : Nat} {t : Trial}

/-- The numbers that are tried for `q` have the form that `curve_init` looks for,
as soon as they are odd. -/
theorem hasSolinasForm_trial (ht : Trial.Drawn qk t) {q : Nat} (hq : t.q qk = q) (h3 : 3 ≤ q)
    (hodd : q % 2 = 1) : HasSolinasForm q := by
  obtain ⟨k, rfl⟩ := Nat.exists_eq_add_of_lt (Nat.zero_lt_of_lt ht.solinasb_lt)
  have hb : t.solinasb ≤ k := by
    have hlt := ht.solinasb_lt
    omega
  have he : ∀ m : Int, (if t.adda then m + 1 else m - 1) = m + if t.adda then 1 else -1 := by
    intro m
    split <;> ring
  have hs : (if t.addb then (2 : Int) ^ k + 2 ^ t.solinasb else 2 ^ k - 2 ^ t.solinasb) =
      2 ^ k + (if t.addb then 1 else -1) * 2 ^ t.solinasb := by
    split <;> ring
  have he1 : (if t.adda then (1 : Int) else -1) = 1 ∨ (if t.adda then (1 : Int) else -1) = -1 := by
    split <;> simp
  have hs1 : (if t.addb then (1 : Int) else -1) = 1 ∨ (if t.addb then (1 : Int) else -1) = -1 := by
    split <;> simp
  simp only [Trial.q, Nat.zero_add, Nat.add_sub_cancel, he, hs] at hq
  generalize (if t.adda then (1 : Int) else -1) = e at hq he1
  generalize (if t.addb then (1 : Int) else -1) = s at hq hs1
  rcases hb.eq_or_lt with hbk | hbk
  · -- both powers are the same, so they add up to the next one or cancel
    rw [hbk] at hq
    rcases hs1 with rfl | rfl
    · refine Or.inr ⟨k + 1, e, he1, ?_⟩
      rw [← hq, pow_succ]
      ring
    · omega
  · rcases Nat.eq_zero_or_pos t.solinasb with h0 | h0
    · -- a second odd power makes the number even
      exfalso
      obtain ⟨j, rfl⟩ := Nat.exists_eq_add_of_lt hbk
      rw [h0, pow_zero, Nat.zero_add, pow_succ] at hq
      omega
    · exact Or.inl ⟨k, t.solinasb, s, e, h0, hbk, hs1, he1, hq.symm⟩

theorem lt_trial (ht : Trial.Drawn qk t) (hqk : 9 ≤ qk) {q : Nat} (hq : t.q qk = q) (h2 : 2 ≤ q) :
    64 < q := by
  obtain ⟨k, rfl⟩ := Nat.exists_eq_add_of_le' hqk
  have hpow : (2 : Int) ^ (k + 8) = 256 * 2 ^ k := by ring
  have hk : (1 : Int) ≤ 2 ^ k := one_le_pow₀ (by norm_num)
  have hb := ht.solinasb_lt
  rcases (Nat.le_sub_one_of_lt hb).eq_or_lt with hbk | hbk
  · have hbpow : (2 : Int) ^ t.solinasb = 2 ^ (k + 8) := by rw [hbk]; rfl
    simp only [Trial.q, show k + 9 - 1 = k + 8 by omega, hbpow, hpow] at hq
    split_ifs at hq <;> omega
  · have hle : (2 : Int) ^ t.solinasb ≤ 2 ^ (k + 7) := pow_le_pow_right₀ (by norm_num) (by omega)
    have hpow7 : (2 : Int) ^ (k + 7) = 128 * 2 ^ k := by ring
    have hpos : (0 : Int) < 2 ^ t.solinasb := by positivity
    simp only [Trial.q, show k + 9 - 1 = k + 8 by omega, hpow] at hq
    split_ifs at hq <;> omega

/-- What the search for primes ends with. -/
structure Primes (p q : Nat) : Prop where
  prime_p : p.Prime
  prime_q : q.Prime
  mod_eq : p % 12 = 11
  dvd : 12 * q ∣ p + 1
  lt : 64 < q
  solinas : (curveInit p q).solinasa ≠ 0

variable {probabPrime : Int → Bool} {trials : List Trial} {p q : Int}

theorem primes_of_findPrimes (hsound : ∀ n, probabPrime n = true → n.natAbs.Prime)
    (hdrawn : ∀ t ∈ trials, Trial.Drawn qk t) (hqk : 9 ≤ qk)
    (h : findPrimes probabPrime qk trials = some (p, q)) :
    ∃ p' q' : Nat, p = p' ∧ q = q' ∧ Primes p' q' := by
  obtain ⟨t, ht, heq⟩ := Option.map_eq_some_iff.1 h
  obtain ⟨rfl, rfl⟩ := Prod.mk.inj heq
  have htest := List.find?_some ht
  rw [Bool.and_eq_true] at htest
  have hdraw := hdrawn t (List.mem_of_find?_eq_some ht)
  have hqprime := hsound _ htest.1
  have hpprime := hsound _ htest.2
  obtain ⟨hq0, hp0⟩ := hdraw.pos hqprime.two_le hpprime.two_le
  obtain ⟨q, hq⟩ := Int.eq_ofNat_of_zero_le hq0.le
  obtain ⟨p, hp⟩ := Int.eq_ofNat_of_zero_le hp0.le
  obtain ⟨r, hr⟩ := Int.eq_ofNat_of_zero_le hdraw.r_nonneg
  have hpr : p + 1 = 12 * q * r := by
    have hdef : t.p qk = t.q qk * t.r * 12 - 1 := by
      rw [Trial.p]
      ring
    rw [hp, hq, hr] at hdef
    have hcast : ((p + 1 : Nat) : Int) = (12 * q * r : Nat) := by
      push_cast
      linarith
    exact_mod_cast hcast
  rw [hq, Int.natAbs_natCast] at hqprime
  rw [hp, Int.natAbs_natCast] at hpprime
  have hdvd : 12 * q ∣ p + 1 := ⟨r, hpr⟩
  have h12 : p % 12 = 11 := by
    have h12 := dvd_of_mul_right_dvd hdvd
    omega
  have hlt := lt_trial hdraw hqk hq hqprime.two_le
  have hodd : q % 2 = 1 := hqprime.eq_two_or_odd.resolve_left (by omega)
  refine ⟨p, q, hp, hq, hpprime, hqprime, h12, hdvd, hlt, ?_⟩
  exact (solinas_ne_zero_iff (by omega) hodd).2 (hasSolinasForm_trial hdraw hq (by omega) hodd)

end Primes

section Outcome

variable {probabPrime : Int → Bool} {qk : Nat} {trials : List Trial} {y : Int} {ys : List Int}
  {id : CString} {params : Params} {master : ByteString}

/-- What the setup leaves when the generator is drawn with the second coordinate
`y`. Only a multiplication that meets a special case loses it. -/
structure Outcome (p q x : Nat) (y : Int) (id : CString) (params : Params) (master : ByteString) :
    Prop where
  primes : Primes p q
  p_eq : params.p = p
  q_eq : params.q = q
  master_eq : master = byteStringSetMpz x
  pos : 0 < x
  lt : x < q
  generator [Fact p.Prime] [Fact (p % 12 = 11)] (hclear : Clear ((p + 1) / q) (pointOfY (y : ZMod p))) :
    ∃ G : E p, addOrderOf G = q ∧ setupPoints x (ofPoint G) (paramsInit p q id) = some params ∧
      (meetsDoubling x q = false → Established params q x G)
  lost [Fact p.Prime] [Fact (p % 12 = 11)]
    (htable : TableHolds (pointOfY (y : ZMod p)) ∨ 3 • pointOfY (y : ZMod p) = 0)
    (hclear : ¬Clear ((p + 1) / q) (pointOfY (y : ZMod p))) (G : E p) (hG : addOrderOf G = q) :
    params.P ≠ ofPoint G

/-- The steps of a setup that gives something. -/
structure Built (p q x : Nat) (ys : List Int) (id : CString) (params : Params) (master : ByteString) :
    Prop where
  primes : Primes p q
  exists_point : ∃ P, randomOrderQ (paramsInit p q id) ys = some P ∧
    setupPoints x P (paramsInit p q id) = some params
  master_eq : master = byteStringSetMpz x

theorem exists_built (hsound : ∀ n, probabPrime n = true → n.natAbs.Prime)
    (hdrawn : ∀ t ∈ trials, Trial.Drawn qk t) (hqk : 9 ≤ qk) {x : Nat}
    (h : ibeSetup probabPrime qk trials x ys id = some (params, master)) :
    ∃ p q : Nat, Built p q x ys id params master := by
  simp only [ibeSetup, Option.bind_eq_bind, Option.bind_eq_some_iff, Option.pure_def,
    Option.some.injEq, Prod.mk.injEq] at h
  obtain ⟨⟨p, q⟩, hfind, P, hP, params', hset, rfl, rfl⟩ := h
  obtain ⟨p, q, rfl, rfl, hprimes⟩ := primes_of_findPrimes hsound hdrawn hqk hfind
  exact ⟨p, q, hprimes, ⟨P, hP, hset⟩, rfl⟩

namespace Built

variable {p q x : Nat}

theorem numbers_eq (h : Built p q x ys id params master) : params.p = p ∧ params.q = q := by
  obtain ⟨P, -, hset⟩ := h.exists_point
  obtain ⟨-, hpp, hpq⟩ := initialized_setupPoints (initialized_initpq _) hset
  exact ⟨hpp, hpq⟩

theorem pos (h : Built p q x ys id params master) : 0 < x := by
  obtain ⟨P, -, hset⟩ := h.exists_point
  rcases Nat.eq_zero_or_pos x with rfl | hx
  · simp only [setupPoints, Nat.cast_zero, pointMul_zero, Option.bind_eq_bind, Option.bind_none] at hset
    cases hset
  · exact hx

theorem le (h : Built p q x ys id params master) : q ≤ p := by
  have hpos := h.primes.prime_p.pos
  have hle := Nat.le_of_dvd p.succ_pos h.primes.dvd
  omega

theorem exists_landing (h : Built p q x (y :: ys) id params master) [Fact p.Prime]
    [Fact (p % 12 = 11)] : ∃ P, setupPoints x P (paramsInit p q id) = some params ∧
      LandsWhenClear p q y (some P) := by
  obtain ⟨P, hP, hset⟩ := h.exists_point
  have hinit : Initialized (paramsInit p q id) := initialized_initpq _
  have hland := landsWhenClear_pointMakeOrderQ h.primes.prime_q h.primes.lt
    (dvd_of_mul_left_dvd h.primes.dvd) hinit rfl rfl y
  rw [randomOrderQ_cons] at hP
  rw [hP] at hland
  exact ⟨P, hset, hland⟩

/-- The generator, unless a multiplication meets a special case. -/
theorem exists_generator (h : Built p q x (y :: ys) id params master) [Fact p.Prime]
    [Fact (p % 12 = 11)] (hclear : Clear ((p + 1) / q) (pointOfY (y : ZMod p))) :
    ∃ G : E p, addOrderOf G = q ∧ setupPoints x (ofPoint G) (paramsInit p q id) = some params := by
  obtain ⟨P, hset, hland⟩ := h.exists_landing
  obtain ⟨G, hG, hPG⟩ := hland.1 hclear
  rw [Option.some.inj hPG] at hset
  exact ⟨G, hG, hset⟩

end Built

/-- However long the search for primes takes, the setup ends with numbers that suit
each other, and with a generator as long as nothing is lost. -/
theorem ibeSetup_outcome (hsound : ∀ n, probabPrime n = true → n.natAbs.Prime)
    (hdrawn : ∀ t ∈ trials, Trial.Drawn qk t) (hqk : 9 ≤ qk) {x : Nat}
    (h : ibeSetup probabPrime qk trials x (y :: ys) id = some (params, master))
    (hxq : (x : Int) < params.q) : ∃ p q : Nat, Outcome p q x y id params master := by
  obtain ⟨p, q, hbuilt⟩ := exists_built hsound hdrawn hqk h
  obtain ⟨hpp, hpq⟩ := hbuilt.numbers_eq
  have hprimes := hbuilt.primes
  have hx := hbuilt.pos
  have hxq : x < q := by
    rw [hpq] at hxq
    exact Int.ofNat_lt.1 hxq
  refine ⟨p, q, hprimes, hpp, hpq, hbuilt.master_eq, hx, hxq, ?_, ?_⟩
  · intro hp hp12 hclear
    obtain ⟨G, hG, hset⟩ := hbuilt.exists_generator hclear
    refine ⟨G, hG, hset, fun hd => ?_⟩
    exact established hprimes.prime_q hprimes.lt hprimes.solinas hG hx hxq hd hset
  · intro hp hp12 htable hclear G hG hPG
    obtain ⟨P, hset, hland⟩ := hbuilt.exists_landing
    refine hclear (hland.2 htable ⟨G, hG, congrArg some ?_⟩)
    have hPeq : params.P = P := by
      simp only [setupPoints, Option.bind_eq_bind, Option.bind_eq_some_iff, Option.pure_def,
        Option.some.injEq] at hset
      obtain ⟨Ppub, -, rfl⟩ := hset
      rfl
    rw [← hPeq, hPG]

end Outcome

section Sample

/-- A sound test that knows two primes. -/
def knownPrime (n : Int) : Bool := n = 257 || n = 3083

/-- `257 = 2 ^ 8 + 2 - 1` and `3083 = 12 * 257 - 1`, at the second attempt. -/
def knownTrials : List Trial := [⟨3, true, true, 5⟩, ⟨1, true, false, 1⟩]

def knownSetup : Option (Params × ByteString) := ibeSetup knownPrime 9 knownTrials 5 [2] ibeVersion

theorem prime_of_knownPrime (n : Int) (hn : knownPrime n = true) : n.natAbs.Prime := by
  simp only [knownPrime, Bool.or_eq_true, decide_eq_true_eq] at hn
  rcases hn with rfl | rfl
  · norm_num
  · norm_num

theorem drawn_knownTrials : ∀ t ∈ knownTrials, Trial.Drawn 9 t := by
  intro t ht
  rcases List.mem_pair.1 ht with rfl | rfl
  · exact ⟨by decide, by decide⟩
  · exact ⟨by decide, by decide⟩

theorem isSome_knownSetup : knownSetup.isSome := by decide +kernel

theorem ibeSetup_outcome_known : ∃ p q : Nat, Outcome p q 5 2 ibeVersion
    (knownSetup.get isSome_knownSetup).1 (knownSetup.get isSome_knownSetup).2 :=
  ibeSetup_outcome prime_of_knownPrime drawn_knownTrials le_rfl
    (Option.some_get isSome_knownSetup).symm (by decide +kernel)

end Sample

end IdBasedEncryption.SetupOutcome
