import IdBasedEncryption.MasterFiles
import IdBasedEncryption.SetupOutcome

namespace IdBasedEncryption.Generation

open Gmp Fp2Arith CurvePoints MordellGroup PointValues ScalarMultiples ByteStrings PointBytes IbeLib ReadTraces ParamsBytes
open KeyEncapsulation FuelLoops Stdio Format CryptFiles SavedStrings MasterShares ThresholdKeys MasterFiles ParamsRoundTrip
open CofactorMultiples SetupOutcome

variable {E D : Type} (mime : Mime E D)

section Model

def fmtSaveParams (disk : Disk) (filename : CString) (params : Params) : Int × Disk :=
  fmtSaveByteString mime disk filename (ibeSerializeParams params)

/-- The result comes with the parameters, which stay as they are without a file. -/
def fmtLoadParams (params : Params) (disk : Disk) (filename : CString) (fuel : Nat) :
    Option (Int × Params) :=
  (fmtLoadByteString mime disk filename fuel).bind fun r =>
    if r.1.1 = 0 then some (0, params) else (ibeDeserializeParams r.1.2).value

/-- The random choices of the program, for the setup and for the shares. -/
structure GenDraws where
  trials : List Trial
  x : Nat
  ys : List Int
  r : Nat → Int
  places : Nat → Int

/-- The program with its configuration, and the code that it exits with. Nothing looks
at the results of saving. -/
def gen (probabPrime : Int → Bool) (draws : GenDraws) (qbits t n : Nat)
    (systemid paramsfile : CString) (sharefile : List CString) (disk : Disk) : Option (Int × Disk) :=
  if sharefile.length < n then some (1, disk)
  else do
    let (params, master) ← ibeSetup probabPrime qbits draws.trials draws.x draws.ys systemid
    let (_, params, disk) ← fmtSplitMaster mime sharefile master t n params draws.r draws.places disk
    return (0, (fmtSaveParams mime disk paramsfile params).2)

end Model

section Sizes

variable {p : Nat} {P : Point}

/-- The point of a multiplication fits into one field. -/
theorem length_setPoint_pointMul (hp : 0 < p) (hsize : p ≤ 256 ^ maxShareBytes) {k : Int} {Q : Point}
    (h : pointMul k Q p = some P) : (byteStringSetPoint P).length < 2 ^ 16 := by
  simp only [pointMul, Option.bind_eq_bind, Option.bind_eq_some_iff, Option.pure_def,
    Option.some.injEq] at h
  obtain ⟨M, -, R, -, rfl⟩ := h
  have hlen (z : Int) : (byteStringSetMpz (z % p)).length ≤ maxShareBytes := by
    have hp0 : (0 : Int) < p := Int.natCast_pos.2 hp
    obtain ⟨y, hy⟩ := Int.eq_ofNat_of_zero_le (Int.emod_nonneg z hp0.ne')
    have hlt := Int.emod_lt_of_pos z hp0
    rw [hy] at hlt ⊢
    rw [length_setMpz]
    exact mympzSizeinbytes_le (by decide) ((Int.ofNat_lt.1 hlt).trans_le hsize)
  have h0 : (byteStringSetMpz 0).length = 1 := rfl
  simp only [projAffine, byteStringSetPoint, byteStringSetFp2, length_join, h0]
  generalize mpzInvert R.z R.z p = z
  have hx := hlen (R.x * (z * z % p))
  have hy := hlen (R.y * (z * z % p * z % p))
  rw [maxShareBytes] at hx hy
  omega

/-- An array of fields, the number and the lengths of which are bounded. -/
theorem length_encodeArray_le {bsa : List ByteString} {c k : Nat} (hc : bsa.length ≤ c)
    (hk : ∀ bs ∈ bsa, bs.length ≤ k) :
    (byteStringEncodeArray bsa).length ≤ 2 + c * (2 + k) := by
  have hflat : bsa.flatten.length ≤ bsa.length * k := by
    rw [List.length_flatten]
    have hsum := List.sum_le_card_nsmul (bsa.map List.length) k (by simpa using hk)
    simpa using hsum
  have hlengths : (bsa.flatMap fun bs => twoBytes bs.length).length = bsa.length * 2 := by
    rw [List.length_flatMap]
    simp [twoBytes]
  have hle := Nat.mul_le_mul_right (2 + k) hc
  rw [byteStringEncodeArray, List.length_append, List.length_append, hlengths]
  have h2 : (twoBytes bsa.length).length = 2 := rfl
  rw [Nat.mul_add, Nat.mul_add] at hle
  rw [h2, Nat.mul_add]
  omega

variable {params shared : Params} {t n : Nat} {r x : Nat → Int} {master : ByteString}
  {mshare : List ByteString}

theorem exists_pointMul_of_mem {k : Nat → Int} {Q : Point} {m : Int} {l : List Nat} {Ps : List Point}
    (h : l.mapM (fun i => pointMul (k i) Q m) = some Ps) (hP : P ∈ Ps) :
    ∃ k, pointMul k Q m = some P := by
  obtain ⟨j, hj, rfl⟩ := List.getElem_of_mem hP
  have hrel := forall₂_of_mapM h
  exact ⟨_, hrel.get (hrel.length_eq ▸ hj) hj⟩

/-- Parameters of a setup, once the master key has been split, fit into their file. -/
theorem fieldsFit_shared (hparams : Consistent params) (hpp : params.p = p)
    (hp : 0 < p) (hsize : p ≤ 256 ^ maxShareBytes) (hqp : params.q ≤ p)
    (hversion : params.version = ibeVersion) (hid : params.id.val.length < 2 ^ 16)
    (hP : (byteStringSetPoint params.P).length < 2 ^ 16)
    (hPpub : (byteStringSetPoint params.Ppub).length < 2 ^ 16) (hn : n < 256)
    (hx : ∀ i, 0 ≤ x i ∧ x i < params.q)
    (h : ibeSplitMaster master t n params r x = some (mshare, shared)) : FieldsFit shared := by
  have hshared := hparams.split (fun i => (hx i).1) h
  simp only [ibeSplitMaster, Option.bind_eq_bind, Option.bind_eq_some_iff, Option.pure_def,
    Option.some.injEq, Prod.mk.injEq] at h
  obtain ⟨robustP, hmap, -, rfl⟩ := h
  have hcp : params.curve.p = p := by
    rw [hparams.curve_eq, ← hpp]
    rfl
  have hnumber {z : Int} (h0 : 0 ≤ z) (hz : z ≤ p) : (byteStringSetMpz z).length < 2 ^ 16 := by
    obtain ⟨y, rfl⟩ := Int.eq_ofNat_of_zero_le h0
    rw [length_setMpz]
    refine (mympzSizeinbytes_le (k := maxShareBytes + 1) (by omega) ?_).trans_lt (by decide)
    exact ((Int.ofNat_le.1 hz).trans hsize).trans_lt
      (Nat.pow_lt_pow_right (by norm_num) maxShareBytes.lt_succ_self)
  have hint (k : Int) : (byteStringSetInt k).length < 2 ^ 16 := (by decide : 4 < 2 ^ 16)
  refine ⟨by simp only; omega, fun bs hbs => ?_⟩
  rw [serializedFields_eq hshared] at hbs
  rcases List.mem_append.1 hbs with hbs | hbs
  · simp only [List.mem_cons, List.not_mem_nil, or_false] at hbs
    rcases hbs with rfl | rfl | rfl | rfl | rfl | rfl | rfl | rfl
    · rw [hversion]
      decide
    · exact hid
    · exact hnumber hparams.p_pos.le hpp.le
    · exact hnumber hparams.q_pos.le hqp
    · exact hP
    · exact hPpub
    · exact hint _
    · exact hint _
  · obtain ⟨⟨y, R⟩, hs, hbs⟩ := List.mem_flatMap.1 hbs
    obtain ⟨hy, hR⟩ := List.of_mem_zip hs
    obtain ⟨i, -, rfl⟩ := List.mem_map.1 hy
    obtain ⟨k, hmul⟩ := exists_pointMul_of_mem hmap hR
    rw [hcp] at hmul
    rcases List.mem_pair.1 hbs with rfl | rfl
    · exact hnumber (hx i).1 ((hx i).2.le.trans hqp)
    · exact length_setPoint_pointMul hp hsize hmul

end Sizes

section Deployment

variable {mime} {disk disk' : Disk} {probabPrime : Int → Bool} {draws : GenDraws}
  {qbits t n : Nat} {systemid paramsfile : CString} {sharefile : List CString}
  {params shared : Params} {master : ByteString} {mshare : List ByteString}

/-- Names behind the first `n` are not used. -/
theorem fmtSplitMaster_take (fname : List CString) (r x : Nat → Int) :
    fmtSplitMaster mime (fname.take n) master t n params r x disk =
      fmtSplitMaster mime fname master t n params r x disk := by
  have htake : ∀ (shares : List ByteString) (fname : List CString) (disk : Disk),
      saveShares mime (fname.take shares.length) shares disk = saveShares mime fname shares disk := by
    intro shares
    induction shares with
    | nil => intro fname disk; rw [saveShares, saveShares]
    | cons share shares ih =>
        intro fname disk
        cases fname with
        | nil => rfl
        | cons f fs => simp only [List.length_cons, List.take_succ_cons, saveShares, ih]
  have hlen : (masterShares master t n params r x).length = n := by
    rw [masterShares, List.length_map, List.length_range]
  have hshares := htake (masterShares master t n params r x) fname disk
  rw [hlen] at hshares
  simp only [fmtSplitMaster, ibeSplitMaster, Option.bind_eq_bind, Option.bind_assoc, Option.pure_def,
    Option.bind_some, hshares]

theorem exists_pointMul_of_randomOrderQ {params : Params} {ys : List Int} {P : Point}
    (h : randomOrderQ params ys = some P) : ∃ k Q, pointMul k Q params.curve.p = some P := by
  induction ys with
  | nil => cases h
  | cons y ys ih =>
      simp only [randomOrderQ, Option.bind_eq_bind, Option.bind_eq_some_iff, Option.pure_def] at h
      obtain ⟨R, hR, h⟩ := h
      split at h
      · exact ih h
      · obtain rfl := Option.some.inj h
        exact ⟨_, _, hR⟩

/-- The files that the program leaves are what the others need: the clients load the
parameters, every server its share, and enough shares are the master key. -/
structure Deployed (mime : Mime E D) (t n : Nat) (shared : Params) (master : ByteString)
    (mshare : List ByteString) (paramsfile : CString) (sharefile : List CString) (disk : Disk) : Prop where
  params_load (params : Params) : Returns (fmtLoadParams mime params disk paramsfile) (1, shared)
  shares_load (i : Nat) (hi : i < n) : ∃ f share writes, sharefile[i]? = some f ∧
    mshare[i]? = some share ∧ Returns (fmtLoadByteString mime disk f) ((1, share), writes)
  construct {names : List CString} (hnames : names.Nodup) (hsub : names ⊆ sharefile.take n)
    (ht : names.length = t) : Returns (fmtConstructMaster mime names shared disk) (1, master)

theorem returns_fmtLoadParams (hmime : Streaming mime) (hconsistent : Consistent shared)
    (hfit : FieldsFit shared) (hsharet : shared.sharet < 256) (hsharen : shared.sharen < 256)
    (hfile : disk.files paramsfile = some (mimePut mime (ibeSerializeParams shared)))
    (params : Params) : Returns (fmtLoadParams mime params disk paramsfile) (1, shared) := by
  have ht := hconsistent.sharet_nonneg
  have hn := hconsistent.sharen_nonneg
  have hcount : (serializedFields shared).length ≤ 520 := by
    rw [serializedFields_eq hconsistent, List.length_append, List.length_flatMap]
    simp [sharePair, length_shareTable hconsistent]
    omega
  have hle : (ibeSerializeParams shared).length ≤ maxLoaded := by
    refine (length_encodeArray_le hcount fun bs hbs => (hfit.length_lt bs hbs).le).trans ?_
    decide
  have htruncated : truncated shared = shared := by
    have htable : shared.robustx.take shared.sharen.toNat = shared.robustx ∧
        shared.robustP.take shared.sharen.toNat = shared.robustP := by
      rw [← hconsistent.robustx_length, List.take_length, hconsistent.robustx_length,
        ← hconsistent.robustP_length, List.take_length]
      exact ⟨rfl, rfl⟩
    rw [truncated, Int.emod_eq_of_lt ht hsharet, Int.emod_eq_of_lt hn hsharen, htable.1, htable.2]
  have hvalue := value_deserializeParams hconsistent hfit
  rw [htruncated] at hvalue
  obtain ⟨writes, hload, -⟩ := returns_fmtLoadByteString hmime hfile hle
  refine hload.bind ?_
  simp only [one_ne_zero, if_false, hvalue]
  exact returns_some _

variable {p q : Nat}

/-- The parameters of a setup fit into a file, as large as `p` may be. -/
theorem fieldsFit_setup (hconsistent : Consistent params)
    (hbuilt : Built p q draws.x draws.ys systemid params master) (hsize : p ≤ 256 ^ maxShareBytes)
    (hid : systemid.val.length < 2 ^ 16) (hn : n < 256)
    (hplaces : ∀ i, 0 ≤ draws.places i ∧ draws.places i < params.q)
    (h : ibeSplitMaster master t n params draws.r draws.places = some (mshare, shared)) :
    FieldsFit shared := by
  have hp := hbuilt.primes.prime_p.pos
  obtain ⟨hpp, hpq⟩ := hbuilt.numbers_eq
  have hqp : params.q ≤ p := by
    have hle := hbuilt.le
    omega
  obtain ⟨P, hP, hset⟩ := hbuilt.exists_point
  simp only [setupPoints, Option.bind_eq_bind, Option.bind_eq_some_iff, Option.pure_def,
    Option.some.injEq] at hset
  obtain ⟨Ppub, hPpub, rfl⟩ := hset
  obtain ⟨k, Q, hPmul⟩ := exists_pointMul_of_randomOrderQ hP
  exact fieldsFit_shared hconsistent hpp hp hsize hqp rfl hid
    (length_setPoint_pointMul hp hsize hPmul) (length_setPoint_pointMul hp hsize hPpub) hn hplaces h

/-- Numbers of shares that fit into a byte, an identity that fits into a field, and files
of their own that can be written. -/
structure Configured (qbits t n : Nat) (systemid paramsfile : CString) (sharefile : List CString)
    (disk : Disk) : Prop where
  le_qbits : 9 ≤ qbits
  length_id : systemid.val.length < 2 ^ 16
  sharet_pos : 0 < t
  sharet_le : t ≤ n
  sharen_lt : n < 256
  le_length : n ≤ sharefile.length
  nodup : (sharefile.take n).Nodup
  paramsfile_notMem : paramsfile ∉ sharefile.take n
  writable_shares : ∀ f ∈ sharefile.take n, disk.writable f = true
  writable_params : disk.writable paramsfile = true

/-- The shares are at different places, and none of them is zero. -/
structure GenDraws.Spread (draws : GenDraws) (t n : Nat) (q : Int) : Prop where
  injOn : Set.InjOn draws.places {i | i < n}
  share_ne_zero : ∀ i < n, shareValue draws.x t draws.r (draws.places i) q ≠ 0

/-- With such a configuration and such random choices, a setup that ends leaves a system
that works. -/
structure Deployable (probabPrime : Int → Bool) (draws : GenDraws) (qbits t n : Nat)
    (systemid paramsfile : CString) (sharefile : List CString) (disk : Disk) (params : Params)
    (master : ByteString) (p q : Nat) : Prop
    extends Configured qbits t n systemid paramsfile sharefile disk, draws.Spread t n q where
  sound (m : Int) : probabPrime m = true → m.natAbs.Prime
  drawn : ∀ trial ∈ draws.trials, Trial.Drawn qbits trial
  setup_eq : ibeSetup probabPrime qbits draws.trials draws.x draws.ys systemid = some (params, master)
  p_eq : params.p = p
  q_eq : params.q = q
  size_le : p ≤ 256 ^ maxShareBytes
  x_lt : draws.x < q
  places_mem (i : Nat) : 0 ≤ draws.places i ∧ draws.places i < q

/-- The first point that is drawn for the generator meets no special case. -/
def GenDraws.StartsClear (draws : GenDraws) (p q : Nat) [Fact p.Prime] [Fact (p % 12 = 11)] : Prop :=
  ∃ y ys, draws.ys = y :: ys ∧ Clear ((p + 1) / q) (pointOfY (y : ZMod p))

/-- What a run leaves on the disk: the shares in their files, and what the clients
load as their parameters. -/
structure Generated (mime : Mime E D) (draws : GenDraws) (t n : Nat) (params shared : Params)
    (paramsfile : CString) (sharefile : List CString) (disk disk' : Disk) : Prop where
  params_load (old : Params) : Returns (fmtLoadParams mime old disk' paramsfile) (1, shared)
  saved : Saved mime (sharefile.take n)
    (masterShares (byteStringSetMpz draws.x) t n params draws.r draws.places) disk' disk'
  writable_eq : disk'.writable = disk.writable

theorem Configured.length_take (h : Configured qbits t n systemid paramsfile sharefile disk) :
    (sharefile.take n).length = n := by
  rw [List.length_take, Nat.min_eq_left h.le_length]

namespace Deployable

variable (h : Deployable probabPrime draws qbits t n systemid paramsfile sharefile disk params master p q)
include h

theorem consistent : Consistent params :=
  consistent_setup (fun m hm => (h.sound m hm).two_le) h.drawn h.setup_eq

theorem built : Built p q draws.x draws.ys systemid params master := by
  obtain ⟨p', q', hbuilt⟩ := exists_built h.sound h.drawn h.le_qbits h.setup_eq
  obtain ⟨hp, hq⟩ := hbuilt.numbers_eq
  obtain rfl : p' = p := Int.ofNat.inj (hp.symm.trans h.p_eq)
  obtain rfl : q' = q := Int.ofNat.inj (hq.symm.trans h.q_eq)
  exact hbuilt

theorem qsize_le : q ≤ 256 ^ maxShareBytes :=
  h.built.le.trans h.size_le

theorem exists_generated (hmime : Streaming mime) : ∃ robustP disk',
    gen mime probabPrime draws qbits t n systemid paramsfile sharefile disk = some (0, disk') ∧
      ibeSplitMaster master t n params draws.r draws.places =
        some (masterShares master t n params draws.r draws.places,
          sharedParams params t n draws.places robustP) ∧
      Generated mime draws t n params (sharedParams params t n draws.places robustP) paramsfile sharefile
        disk disk' := by
  have hbuilt := h.built
  obtain rfl := hbuilt.master_eq
  have hqfact : Fact q.Prime := ⟨hbuilt.primes.prime_q⟩
  have hplaces : ∀ i, 0 ≤ draws.places i ∧ draws.places i < params.q := fun i => h.q_eq.symm ▸ h.places_mem i
  obtain ⟨robustP, disk₁, hsplit, hrun, hsaved⟩ := fmtSplitMaster_eq mime h.q_eq h.sharet_pos
    h.share_ne_zero h.nodup h.length_take h.writable_shares
  rw [fmtSplitMaster_take] at hrun
  have hfit := fieldsFit_setup h.consistent hbuilt h.size_le h.length_id h.sharen_lt hplaces hsplit
  have hconsistent := h.consistent.split (fun i => (hplaces i).1) hsplit
  obtain ⟨shared, hshared⟩ : ∃ shared, sharedParams params t n draws.places robustP = shared := ⟨_, rfl⟩
  have hsharet : shared.sharet < 256 := by
    rw [← hshared]
    exact Int.ofNat_lt.2 (h.sharet_le.trans_lt h.sharen_lt)
  have hsharen : shared.sharen < 256 := by
    rw [← hshared]
    exact Int.ofNat_lt.2 h.sharen_lt
  rw [hshared] at hfit hconsistent hrun
  have hwp : disk₁.writable paramsfile = true := by rw [hsaved.writable_eq, h.writable_params]
  have hsaveparams := fmtSaveByteString_of_writable mime hwp (ibeSerializeParams shared)
  refine ⟨robustP, (fmtSaveParams mime disk₁ paramsfile shared).2, ?_, hsplit, ?_⟩
  · rw [gen, if_neg h.le_length.not_gt, h.setup_eq]
    simp only [Option.bind_eq_bind, Option.bind_some, hrun]
    rfl
  · rw [hshared, fmtSaveParams, hsaveparams]
    refine ⟨?_, ⟨fun i hi hi' => ?_, fun _ _ => rfl, rfl⟩, hsaved.writable_eq⟩
    · exact returns_fmtLoadParams hmime hconsistent hfit hsharet hsharen (Function.update_self ..)
    · -- the parameters are in another file
      have hfp : (sharefile.take n)[i] ≠ paramsfile :=
        fun heq => h.paramsfile_notMem (heq ▸ List.getElem_mem hi)
      exact (Function.update_of_ne hfp _ _).trans (hsaved.files_eq i hi hi')

theorem exists_founded [Fact p.Prime] [Fact (p % 12 = 11)] (hclear : draws.StartsClear p q) :
    ∃ G : MordellGroup.E p, Founded q draws.x systemid G params := by
  obtain ⟨y, ys, hys, hclear⟩ := hclear
  have hbuilt := h.built
  have hprimes := hbuilt.primes
  have hpos := hbuilt.pos
  rw [hys] at hbuilt
  obtain ⟨G, hG, hset⟩ := hbuilt.exists_generator hclear
  exact ⟨G, hprimes.prime_q, hprimes.lt, hprimes.dvd, hprimes.solinas, hpos, h.x_lt, hG, hset⟩

variable {robustP : List Point}
  (hgen : Generated mime draws t n params (sharedParams params t n draws.places robustP) paramsfile sharefile
    disk disk')
include hgen

theorem returns_fmtConstructMaster (hmime : Streaming mime) {names : List CString} (hnames : names.Nodup)
    (hsub : names ⊆ sharefile.take n) (ht : names.length = t) :
    Returns (fmtConstructMaster mime names (sharedParams params t n draws.places robustP) disk')
      (1, byteStringSetMpz draws.x) := by
  have hqfact : Fact q.Prime := ⟨h.built.primes.prime_q⟩
  exact hgen.saved.returns_fmtConstructMaster hmime h.q_eq h.sharet_pos h.sharen_lt.le h.qsize_le
    (fun i _ => h.places_mem i) h.injOn h.x_lt h.length_take robustP hnames hsub ht

theorem deployed (hmime : Streaming mime) :
    Deployed mime t n (sharedParams params t n draws.places robustP) master
      (masterShares master t n params draws.r draws.places) paramsfile sharefile disk' := by
  have hbuilt := h.built
  obtain rfl := hbuilt.master_eq
  have hqfact : Fact q.Prime := ⟨hbuilt.primes.prime_q⟩
  refine ⟨hgen.params_load, fun i hi => ?_, h.returns_fmtConstructMaster hgen hmime⟩
  have hlt : i < sharefile.length := hi.trans_le h.le_length
  have hget : (sharefile.take n)[i]? = some sharefile[i] := by
    rw [List.getElem?_take_of_lt hi, List.getElem?_eq_getElem]
  obtain ⟨writes, hload, -⟩ := returns_fmtLoadByteString hmime
    (hgen.saved.masterShare_eq h.length_take hget) (length_masterShare_le h.q_eq h.sharet_pos h.qsize_le i)
  exact ⟨_, _, writes, List.getElem?_eq_getElem _, getElem?_masterShares hi, hload⟩

end Deployable

/-- The program that generates a system leaves the files that its parts need. -/
theorem gen_deploys (hmime : Streaming mime)
    (h : Deployable probabPrime draws qbits t n systemid paramsfile sharefile disk params master p q) :
    ∃ mshare shared disk', gen mime probabPrime draws qbits t n systemid paramsfile sharefile disk =
        some (0, disk') ∧
      ibeSplitMaster master t n params draws.r draws.places = some (mshare, shared) ∧
      Deployed mime t n shared master mshare paramsfile sharefile disk' := by
  obtain ⟨robustP, disk', hrun, hsplit, hgen⟩ := h.exists_generated hmime
  exact ⟨_, _, disk', hrun, hsplit, h.deployed hgen hmime⟩

end Deployment

section Sample

def knownDraws : GenDraws := ⟨knownTrials, 5, [2], fun _ => 1, fun i => (i + 1) % 257⟩

def knownParams : Params := (knownSetup.get isSome_knownSetup).1

theorem knownParams_numbers : knownParams.p = (3083 : Nat) ∧ knownParams.q = (257 : Nat) := by
  decide +kernel

theorem ibeSetup_knownDraws : ibeSetup knownPrime 9 knownDraws.trials knownDraws.x knownDraws.ys ibeVersion =
    some (knownParams, byteStringSetMpz 5) := by
  have hmaster : (knownSetup.get isSome_knownSetup).2 = byteStringSetMpz 5 := by decide +kernel
  rw [← hmaster]
  exact (Option.some_get isSome_knownSetup).symm

theorem configured_known : Configured 9 2 3 ibeVersion savedFile sampleNames emptyDisk where
  le_qbits := le_rfl
  length_id := by decide
  sharet_pos := Nat.two_pos
  sharet_le := by norm_num
  sharen_lt := by norm_num
  le_length := by decide
  nodup := by decide
  paramsfile_notMem := (by decide : savedFile ∉ sampleNames.take 3)
  writable_shares _ _ := rfl
  writable_params := rfl

/-- Two of three shares for the setup with `p = 3083`. -/
theorem deployable_known : Deployable knownPrime knownDraws 9 2 3 ibeVersion savedFile sampleNames emptyDisk
    knownParams (byteStringSetMpz 5) 3083 257 where
  toConfigured := configured_known
  injOn := by
    intro i (hi : i < 3) j (hj : j < 3) (h : ((i : Int) + 1) % 257 = (j + 1) % 257)
    omega
  share_ne_zero := by decide
  sound := prime_of_knownPrime
  drawn := drawn_knownTrials
  setup_eq := ibeSetup_knownDraws
  p_eq := knownParams_numbers.1
  q_eq := knownParams_numbers.2
  size_le := le_pow_maxShareBytes (by norm_num)
  x_lt := by decide
  places_mem i := by
    have hplace : knownDraws.places i = (i + 1) % 257 := rfl
    rw [hplace]
    omega

theorem gen_deploys_known : ∃ mshare shared disk', gen base64 knownPrime knownDraws 9 2 3 ibeVersion
      savedFile sampleNames emptyDisk = some (0, disk') ∧
    Deployed base64 2 3 shared (byteStringSetMpz 5) mshare savedFile sampleNames disk' := by
  obtain ⟨mshare, shared, disk', hrun, -, hdeployed⟩ := gen_deploys streaming_base64 deployable_known
  exact ⟨mshare, shared, disk', hrun, hdeployed⟩

end Sample

end IdBasedEncryption.Generation
