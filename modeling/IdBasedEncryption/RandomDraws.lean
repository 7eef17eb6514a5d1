import IdBasedEncryption.Generation

namespace IdBasedEncryption.RandomDraws

open Gmp ByteStrings Format SavedStrings CryptFiles IbeLib ParamsRoundTrip SolinasSearch ThresholdKeys MasterShares
open MasterFiles SetupOutcome Generation

variable {E D : Type}

section Model

/-- Numbers of the other library, which has no signs here. -/
def bnSetBit (bn i : Nat) : Nat := if bn.testBit i then bn else bn + 2 ^ i

def bnNumBits (bn : Nat) : Nat := bn.size

def mpzSetbit (z : Int) (i : Nat) : Int := if mpzTstbit z i then z else z + 2 ^ i

/-- The highest bit comes first. -/
def mympzGetBn (z : Int) : Nat :=
  (List.range (mpzSizeinbase2 z)).reverse.foldl (fun bn i => if mpzTstbit z i then bnSetBit bn i else bn) 0

def mympzSetBn (bn : Nat) : Int :=
  (List.range (bnNumBits bn)).reverse.foldl (fun z i => if bn.testBit i then mpzSetbit z i else z) 0

/-- What the generators of random numbers give, call by call. `BN_rand` is asked for
numbers with a highest bit that is set. -/
structure Entropy where
  rand : Nat → Nat
  bnRand : Nat → Nat → Nat
  bnRandRange : Nat → Nat → Nat
  bnRand_mem (i : Nat) {bits : Nat} (h : 0 < bits) :
    2 ^ (bits - 1) ≤ bnRand i bits ∧ bnRand i bits < 2 ^ bits
  bnRandRange_lt (i : Nat) {range : Nat} (h : 0 < range) : bnRandRange i range < range

variable (e : Entropy)

def mympzRandomm (i : Nat) (limit : Int) : Int := mympzSetBn (e.bnRandRange i (mympzGetBn limit))

def mympzRandomb (i bits : Nat) : Int := mympzSetBn (e.bnRand i bits)

/-- The numbers of the `i`-th round of the search. The last one is only drawn when it is
looked at. -/
def setupTrial (k qk i : Nat) : Trial where
  solinasb := e.rand (3 * i) % qk
  addb := e.rand (3 * i + 1) % 2 ≠ 0
  adda := e.rand (3 * i + 2) % 2 ≠ 0
  r := mympzRandomb e i (k - qk - 4)

/-- A run with at most `N` rounds in the search for the primes, and with `J` points. The
calls of `mympz_randomm` are counted through the whole program. -/
def genDraws (probabPrime : Int → Bool) (k qk t N J : Nat) : GenDraws :=
  let trials := (List.range N).map (setupTrial e k qk)
  let numbers := (findPrimes probabPrime qk trials).getD (0, 0)
  { trials
    x := (mympzRandomm e 0 numbers.2).toNat
    ys := (List.range J).map fun j => mympzRandomm e (j + 1) numbers.1
    r := fun i => mympzRandomm e (J + i) numbers.2
    places := fun i => mympzRandomm e (J + t + i) numbers.2 }

end Model

section Conversions

theorem bnSetBit_of_dvd {a k : Nat} (h : 2 ^ (k + 1) ∣ a) : bnSetBit a k = a + 2 ^ k := by
  obtain ⟨b, rfl⟩ := h
  have hbit : (2 ^ (k + 1) * b).testBit k = false := by
    rw [Nat.testBit_two_pow_mul]
    simp
  rw [bnSetBit, hbit]
  rfl

/-- Bits that are copied below those that are there. -/
theorem foldl_bnSetBit (n : Nat) {a k : Nat} (h : 2 ^ k ∣ a) :
    (List.range k).reverse.foldl (fun bn i => if n.testBit i then bnSetBit bn i else bn) a =
      a + n % 2 ^ k := by
  induction k generalizing a with
  | zero => simp [Nat.mod_one]
  | succ k ih =>
      have hdvd : 2 ^ k ∣ 2 ^ (k + 1) := pow_dvd_pow 2 k.le_succ
      rw [List.range_succ, List.reverse_append, List.reverse_singleton, List.singleton_append,
        List.foldl_cons, Nat.mod_pow_succ, ← Nat.toNat_testBit]
      cases hbit : n.testBit k with
      | false =>
          rw [if_neg Bool.false_ne_true, ih (hdvd.trans h)]
          simp
      | true =>
          rw [if_pos rfl, bnSetBit_of_dvd h, ih ((hdvd.trans h).add dvd_rfl)]
          simp only [Bool.toNat_true, mul_one]
          ring

theorem mympzGetBn_natCast (n : Nat) : mympzGetBn n = n := by
  have hfold := foldl_bnSetBit n (dvd_zero (2 ^ mpzSizeinbase2 n))
  rw [Nat.mod_eq_of_lt (lt_two_pow_mpzSizeinbase2 n), Nat.zero_add] at hfold
  exact hfold

theorem mpzSetbit_natCast (n i : Nat) : mpzSetbit n i = bnSetBit n i := by
  rw [mpzSetbit, bnSetBit, mpzTstbit_natCast]
  split
  · rfl
  · push_cast
    rfl

theorem mympzSetBn_eq (bn : Nat) : mympzSetBn bn = bn := by
  have hlt : bn < 2 ^ bnNumBits bn := bn.lt_size_self
  have hfold := foldl_bnSetBit bn (dvd_zero (2 ^ bnNumBits bn))
  rw [Nat.mod_eq_of_lt hlt, Nat.zero_add] at hfold
  have hcast : ∀ (l : List Nat) (a : Nat),
      l.foldl (fun z i => if bn.testBit i then mpzSetbit z i else z) (a : Int) =
        (l.foldl (fun bn' i => if bn.testBit i then bnSetBit bn' i else bn') a : Nat) := by
    intro l
    induction l with
    | nil => intro a; rfl
    | cons i l ih =>
        intro a
        rw [List.foldl_cons, List.foldl_cons, mpzSetbit_natCast, ← ih]
        split <;> rfl
  rw [mympzSetBn]
  exact (hcast _ 0).trans (congrArg Nat.cast hfold)

end Conversions

section Draws

variable {e : Entropy} {k qk : Nat}

theorem mympzRandomm_natCast (i l : Nat) : mympzRandomm e i l = e.bnRandRange i l := by
  rw [mympzRandomm, mympzGetBn_natCast, mympzSetBn_eq]

theorem mympzRandomm_mem (i : Nat) {limit : Int} (h : 0 < limit) :
    0 ≤ mympzRandomm e i limit ∧ mympzRandomm e i limit < limit := by
  obtain ⟨l, rfl⟩ := Int.eq_ofNat_of_zero_le h.le
  have hlt := e.bnRandRange_lt i (Int.natCast_pos.1 h)
  have hval := mympzRandomm_natCast (e := e) i l
  rw [hval]
  exact ⟨Int.natCast_nonneg _, Int.ofNat_lt.2 hlt⟩

theorem mympzRandomb_eq (i bits : Nat) : mympzRandomb e i bits = e.bnRand i bits := mympzSetBn_eq _

theorem drawn_setupTrial (h : 0 < qk) (i : Nat) : Trial.Drawn qk (setupTrial e k qk i) where
  solinasb_lt := Nat.mod_lt _ h
  r_nonneg := by
    show 0 ≤ mympzRandomb e i (k - qk - 4)
    rw [mympzRandomb_eq]
    exact Int.natCast_nonneg _

/-- How large the numbers of the setup are. The four bits that are set aside for the
factor 12 are not all used. -/
structure Sized (k qk p q : Nat) : Prop where
  le_q : 2 ^ (qk - 2) ≤ q + 1
  q_le : q ≤ 2 ^ qk + 1
  le_p : 2 ^ (k - 4) ≤ p
  p_lt : p < 2 ^ k

/-- The first power is at least twice the second, or both are the same. -/
theorem q_mem {t : Trial} (ht : Trial.Drawn (qk + 2) t) {q : Nat} (hq : t.q (qk + 2) = q) (h : 2 ≤ q) :
    2 ^ qk ≤ q + 1 ∧ q ≤ 2 ^ (qk + 2) + 1 := by
  have hpow : (2 : Int) ^ (qk + 1) = 2 * 2 ^ qk := by ring
  have hpow' : (2 : Int) ^ (qk + 2) = 4 * 2 ^ qk := by ring
  have hpos : (0 : Int) < 2 ^ t.solinasb := by positivity
  have hq' : 2 ^ qk ≤ (q : Int) + 1 ∧ (q : Int) ≤ 2 ^ (qk + 2) + 1 := by
    rcases (Nat.le_sub_one_of_lt ht.solinasb_lt).eq_or_lt with hb | hb
    · have hbpow : (2 : Int) ^ t.solinasb = 2 ^ (qk + 1) := by rw [hb]; rfl
      simp only [Trial.q, show qk + 2 - 1 = qk + 1 by omega, hbpow, hpow] at hq
      split_ifs at hq <;> omega
    · have hle : (2 : Int) ^ t.solinasb ≤ 2 ^ qk := pow_le_pow_right₀ (by norm_num) (by omega)
      simp only [Trial.q, show qk + 2 - 1 = qk + 1 by omega, hpow] at hq
      split_ifs at hq <;> omega
  exact_mod_cast hq'

/-- `p` has `k` bits, or up to three less. -/
theorem sized_setupTrial (hqk : 9 ≤ qk) (hk : qk + 5 ≤ k) {i p q : Nat}
    (hq : (setupTrial e k qk i).q qk = q) (hp : (setupTrial e k qk i).p qk = p) (h : 2 ≤ q) :
    Sized k qk p q := by
  obtain ⟨m, rfl⟩ := Nat.exists_eq_add_of_le' (show 2 ≤ qk by omega)
  obtain ⟨j, rfl⟩ := Nat.exists_eq_add_of_le hk
  obtain ⟨hlow, hhigh⟩ := q_mem (drawn_setupTrial (Nat.succ_pos _) i) hq h
  have hbits : m + 2 + 5 + j - (m + 2) - 4 = j + 1 := by omega
  obtain ⟨hr, hr'⟩ := e.bnRand_mem i j.succ_pos
  obtain ⟨r, hdraw⟩ : ∃ r, e.bnRand i (j + 1) = r := ⟨_, rfl⟩
  rw [hdraw] at hr hr'
  have hpr : p + 1 = 12 * (q * r) := by
    have hdef : (p : Int) = (12 * (q * r) : Nat) - 1 := by
      rw [← hp, Trial.p, hq]
      simp only [setupTrial, hbits, mympzRandomb_eq, hdraw]
      push_cast
      ring
    omega
  have hm : 2 ^ 7 ≤ 2 ^ m := Nat.pow_le_pow_right Nat.two_pos (by omega)
  have hj : 2 ^ (j + 1) = 2 * 2 ^ j := by ring
  have hm' : 2 ^ (m + 2) = 4 * 2 ^ m := by ring
  have hbound : 2 ^ (m + 2 + 5 + j) = 128 * (2 ^ m * 2 ^ j) := by ring
  have hbound' : 2 ^ (m + 2 + 5 + j - 4) = 8 * (2 ^ m * 2 ^ j) := by
    rw [show m + 2 + 5 + j - 4 = m + j + 3 by omega]
    ring
  refine ⟨hlow, hhigh, ?_, ?_⟩
  · have hle : (2 ^ m - 1) * 2 ^ j ≤ q * r := Nat.mul_le_mul (by omega) hr
    have hone : 2 ^ 7 * 2 ^ j ≤ 2 ^ m * 2 ^ j := Nat.mul_le_mul_right _ hm
    have hpos : 0 < 2 ^ j := Nat.two_pow_pos j
    rw [Nat.sub_mul] at hle
    rw [hbound']
    omega
  · have hle : q * r ≤ (4 * 2 ^ m + 1) * (2 * 2 ^ j) := Nat.mul_le_mul (by omega) (by omega)
    have hone : 2 ^ 7 * 2 ^ j ≤ 2 ^ m * 2 ^ j := Nat.mul_le_mul_right _ hm
    have hsum : (4 * 2 ^ m + 1) * (2 * 2 ^ j) = 8 * (2 ^ m * 2 ^ j) + 2 * 2 ^ j := by ring
    rw [hbound]
    omega

end Draws

section Main

variable {mime : Mime E D} {e : Entropy} {probabPrime : Int → Bool} {k qk t n N J : Nat} {draws : GenDraws}
  {systemid paramsfile : CString} {sharefile : List CString} {disk : Disk} {params : Params}
  {master : ByteString}

theorem findPrimes_of_ibeSetup {trials : List Trial} {x : Int} {ys : List Int}
    (h : ibeSetup probabPrime qk trials x ys systemid = some (params, master)) :
    findPrimes probabPrime qk trials = some (params.p, params.q) := by
  simp only [ibeSetup, Option.bind_eq_bind, Option.bind_eq_some_iff, Option.pure_def, Option.some.injEq,
    Prod.mk.injEq] at h
  obtain ⟨⟨p, q⟩, hfind, P, -, params', hset, rfl, -⟩ := h
  obtain ⟨-, hp, hq⟩ := initialized_setupPoints (initialized_initpq _) hset
  have hp : params'.p = p := hp
  have hq : params'.q = q := hq
  rw [hfind, hp, hq]

theorem drawn_genDraws (hdraws : genDraws e probabPrime k qk t N J = draws) (h : 0 < qk) :
    ∀ t ∈ draws.trials, Trial.Drawn qk t := by
  subst hdraws
  intro t ht
  obtain ⟨i, -, rfl⟩ := List.mem_map.1 ht
  exact drawn_setupTrial h i

/-- What the search ends with has the sizes that it is for. -/
theorem sized_genDraws (hsound : ∀ n, probabPrime n = true → n.natAbs.Prime)
    (hdraws : genDraws e probabPrime k qk t N J = draws) (hqk : 9 ≤ qk) (hk : qk + 5 ≤ k) {p q : Nat}
    (hfind : findPrimes probabPrime qk draws.trials = some ((p : Int), (q : Int))) : Sized k qk p q := by
  subst hdraws
  obtain ⟨t, ht, heq⟩ := Option.map_eq_some_iff.1 hfind
  obtain ⟨hp, hq⟩ := Prod.mk.inj heq
  have htest := List.find?_some ht
  rw [Bool.and_eq_true] at htest
  obtain ⟨i, -, rfl⟩ := List.mem_map.1 (List.mem_of_find?_eq_some ht)
  refine sized_setupTrial hqk hk hq hp ?_
  have hprime := hsound _ htest.1
  rw [hq, Int.natAbs_natCast] at hprime
  exact hprime.two_le

/-- The master key and the places are drawn from the field. -/
theorem mem_genDraws (hdraws : genDraws e probabPrime k qk t N J = draws) {p : Int} {q : Nat}
    (hfind : findPrimes probabPrime qk draws.trials = some (p, (q : Int))) (hq : 0 < q) :
    draws.x < q ∧ ∀ i, 0 ≤ draws.places i ∧ draws.places i < q := by
  have hnumbers : (findPrimes probabPrime qk ((List.range N).map (setupTrial e k qk))).getD (0, 0) =
      (p, (q : Int)) := by
    have htrials : draws.trials = (List.range N).map (setupTrial e k qk) := by rw [← hdraws]; rfl
    rw [← htrials, hfind, Option.getD_some]
  have hq0 : (0 : Int) < q := Int.natCast_pos.2 hq
  subst hdraws
  simp only [genDraws, hnumbers]
  refine ⟨?_, fun i => mympzRandomm_mem _ hq0⟩
  obtain ⟨h0, hlt⟩ := mympzRandomm_mem (e := e) 0 hq0
  omega

/-- Whatever the generators of random numbers give, a search that ends leaves a system
of the size that was asked for. -/
theorem gen_random (hmime : Streaming mime) (hsound : ∀ m, probabPrime m = true → m.natAbs.Prime)
    (hdraws : genDraws e probabPrime k qk t N J = draws) (hk : qk + 5 ≤ k) (hsize : k ≤ 8 * maxShareBytes)
    (hconf : Configured qk t n systemid paramsfile sharefile disk)
    (hsetup : ibeSetup probabPrime qk draws.trials draws.x draws.ys systemid = some (params, master))
    (hspread : draws.Spread t n params.q) :
    ∃ p q : Nat, params.p = p ∧ params.q = q ∧ Primes p q ∧ Sized k qk p q ∧
      ∃ mshare shared disk', gen mime probabPrime draws qk t n systemid paramsfile sharefile disk =
          some (0, disk') ∧
        Deployed mime t n shared master mshare paramsfile sharefile disk' := by
  have hqk := hconf.le_qbits
  have hdrawn := drawn_genDraws hdraws (by omega : 0 < qk)
  obtain ⟨p, q, hbuilt⟩ := exists_built hsound hdrawn hqk hsetup
  obtain ⟨hpp, hpq⟩ := hbuilt.numbers_eq
  have hfind := findPrimes_of_ibeSetup hsetup
  rw [hpp, hpq] at hfind
  have hsized := sized_genDraws hsound hdraws hqk hk hfind
  obtain ⟨hx, hplaces⟩ := mem_genDraws hdraws hfind hbuilt.primes.prime_q.pos
  have hfits : p ≤ 256 ^ maxShareBytes := by
    have hpow (a : Nat) : 2 ^ (8 * a) = 256 ^ a := pow_mul 2 8 a
    rw [← hpow]
    exact hsized.p_lt.le.trans (Nat.pow_le_pow_right Nat.two_pos hsize)
  rw [hpq] at hspread
  have h : Deployable probabPrime draws qk t n systemid paramsfile sharefile disk params master p q :=
    { toConfigured := hconf, toSpread := hspread, sound := hsound, drawn := hdrawn, setup_eq := hsetup
      p_eq := hpp, q_eq := hpq, size_le := hfits, x_lt := hx, places_mem := hplaces }
  obtain ⟨robustP, disk', hrun, -, hgen⟩ := h.exists_generated hmime
  exact ⟨p, q, hpp, hpq, hbuilt.primes, hsized, _, _, disk', hrun, h.deployed hgen hmime⟩

end Main

section Sample

/-- Smallest numbers of their sizes, and places one behind the other. -/
def sampleEntropy : Entropy where
  rand j := if j = 0 then 3 else if j = 5 then 0 else 1
  bnRand _ bits := 2 ^ (bits - 1)
  bnRandRange i range := (if i = 0 then 5 else if i = 1 then 2 else if i = 2 then 1 else i - 2) % range
  bnRand_mem _ _ h := ⟨le_rfl, Nat.pow_lt_pow_right Nat.one_lt_two (Nat.sub_lt h Nat.one_pos)⟩
  bnRandRange_lt _ _ h := Nat.mod_lt _ h

def sampleDrawn : GenDraws := genDraws sampleEntropy knownPrime 14 9 2 2 1

theorem findPrimes_sampleEntropy : (findPrimes knownPrime 9 ((List.range 2).map
    (setupTrial sampleEntropy 14 9))).getD (0, 0) = ((3083 : Int), ((257 : Nat) : Int)) := by
  decide +kernel

theorem places_sampleDrawn (i : Nat) : sampleDrawn.places i = ((i + 1) % 257 : Nat) := by
  have hplace : sampleDrawn.places i = mympzRandomm sampleEntropy (1 + 2 + i) (257 : Nat) := by
    rw [sampleDrawn, genDraws, findPrimes_sampleEntropy]
  have hne : 1 + 2 + i ≠ 0 ∧ 1 + 2 + i ≠ 1 ∧ 1 + 2 + i ≠ 2 := by omega
  rw [hplace, mympzRandomm_natCast]
  simp only [sampleEntropy, if_neg hne.1, if_neg hne.2.1, if_neg hne.2.2]
  congr 2
  omega

def sampleSetup : Option (Params × ByteString) :=
  ibeSetup knownPrime 9 sampleDrawn.trials sampleDrawn.x sampleDrawn.ys ibeVersion

theorem isSome_sampleSetup : sampleSetup.isSome := by decide +kernel

theorem gen_random_known : ∃ p q : Nat, Sized 14 9 p q ∧ ∃ master mshare shared disk',
    gen base64 knownPrime sampleDrawn 9 2 3 ibeVersion savedFile sampleNames emptyDisk = some (0, disk') ∧
      Deployed base64 2 3 shared master mshare savedFile sampleNames disk' := by
  have hnumber : sampleSetup.map (fun r => r.1.q) = some 257 := by decide +kernel
  obtain ⟨⟨params, master⟩, hsetup⟩ := Option.isSome_iff_exists.1 isSome_sampleSetup
  rw [hsetup, Option.map_some, Option.some.injEq] at hnumber
  have hspread : sampleDrawn.Spread 2 3 params.q := by
    refine ⟨?_, ?_⟩
    · intro i (hi : i < 3) j (hj : j < 3) h
      rw [places_sampleDrawn, places_sampleDrawn] at h
      omega
    · rw [hnumber]
      decide +kernel
  obtain ⟨p, q, -, -, -, hsized, mshare, shared, disk', hrun, hdeployed⟩ := gen_random streaming_base64
    prime_of_knownPrime (k := 14) (N := 2) (J := 1) (e := sampleEntropy) rfl le_rfl (by decide)
    configured_known hsetup hspread
  exact ⟨p, q, hsized, master, mshare, shared, disk', hrun, hdeployed⟩

end Sample

end IdBasedEncryption.RandomDraws
