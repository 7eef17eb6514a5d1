import IdBasedEncryption.ParamsBytes

namespace IdBasedEncryption.ParamsRoundTrip

open Gmp Fp2Arith CurvePoints TatePairing ByteStrings PointBytes IbeLib ReadTraces ParamsBytes

/-- A finite point with coordinates that are not negative. -/
structure Finite (P : Point) : Prop where
  infinity : P.infinity = false
  xa : 0 ≤ P.x.a
  xb : 0 ≤ P.x.b
  ya : 0 ≤ P.y.a
  yb : 0 ≤ P.y.b

section Points

variable {P R : Point} {n p : Int}

theorem finite_pointMul (hp : p ≠ 0) (h : pointMul n P p = some R) : Finite R := by
  simp only [pointMul, Option.bind_eq_bind, Option.bind_eq_some_iff, Option.pure_def,
    Option.some.injEq] at h
  obtain ⟨M, -, R', -, rfl⟩ := h
  exact ⟨rfl, Int.emod_nonneg _ hp, le_rfl, Int.emod_nonneg _ hp, le_rfl⟩

theorem finite_randomOrderQ {params : Params} (hp : params.curve.p ≠ 0) {ys : List Int}
    (h : randomOrderQ params ys = some P) : Finite P := by
  induction ys with
  | nil => cases h
  | cons y ys ih =>
      simp only [randomOrderQ, Option.bind_eq_bind, Option.bind_eq_some_iff, Option.pure_def] at h
      obtain ⟨R, hR, h⟩ := h
      split at h
      · exact ih h
      · obtain rfl := Option.some.inj h
        exact finite_pointMul hp hR

theorem Finite.decode (h : Finite P) (hlen : (byteStringSetPoint P).length < 2 ^ 16) :
    pointSetByteString pointInit (byteStringSetPoint P) = P := by
  rw [byteStringSetPoint, length_join] at hlen
  have hx : Encodable P.x := ⟨h.xa, h.xb, by rw [← length_setFp2]; omega⟩
  have hy : Encodable P.y := ⟨h.ya, h.yb, by rw [← length_setFp2]; omega⟩
  rw [pointSetByteString_set hx hy]
  exact Point.ext rfl rfl h.infinity.symm

end Points

section Setup

/-- What holds of the random choices of a round. -/
structure Trial.Drawn (qk : Nat) (t : Trial) : Prop where
  solinasb_lt : t.solinasb < qk
  r_nonneg : 0 ≤ t.r

/-- Parameters that `IBE_setup` leaves, or `IBE_split_master` behind it with
places from the field. Only numbers beyond one pass for primes. -/
inductive Produced (probabPrime : Int → Bool) : Params → Prop
  | setup {qk : Nat} {trials : List Trial} {x : Int} {ys : List Int} {id : CString}
      {params : Params} {master : ByteString} (hdrawn : ∀ t ∈ trials, Trial.Drawn qk t)
      (h : ibeSetup probabPrime qk trials x ys id = some (params, master)) :
      Produced probabPrime params
  | split {params params' : Params} (hparams : Produced probabPrime params) {master : ByteString}
      {t n : Nat} {r x : Nat → Int} (ht : 1 ≤ t) (htn : t ≤ n)
      (hx : ∀ i, 0 ≤ x i ∧ x i < params.q) {shares : List ByteString}
      (h : ibeSplitMaster master t n params r x = some (shares, params')) :
      Produced probabPrime params'

/-- What the file format needs of parameters: everything that is derived is
derived as in the decoder, and everything else can be encoded. -/
structure Consistent (params : Params) : Prop where
  p_pos : 0 < params.p
  q_pos : 0 < params.q
  P : Finite params.P
  Ppub : Finite params.Ppub
  sharet_nonneg : 0 ≤ params.sharet
  sharen_nonneg : 0 ≤ params.sharen
  robustx : ∀ x ∈ params.robustx, 0 ≤ x
  robustP : ∀ P ∈ params.robustP, Finite P
  robustx_length : params.robustx.length = params.sharen.toNat
  robustP_length : params.robustP.length = params.sharen.toNat
  p1onq_eq : params.p1onq = (params.p + 1) / params.q
  zeta_eq : params.zeta = fp2SetCbrtUnity params.p
  curve_eq : params.curve = pointMulPreprocess params.P (curveInit params.p params.q)
  phiPpub_eq : params.phiPpub = pointPhi pointInit params.Ppub params
  ppubMc_eq : params.ppubMc = tatePreprocess millerCacheInit params.Ppub params.curve

variable {probabPrime : Int → Bool} {params : Params}

theorem Trial.Drawn.pos {qk : Nat} {t : Trial} (h : Trial.Drawn qk t)
    (hq : 2 ≤ (t.q qk).natAbs) (hp : 2 ≤ (t.p qk).natAbs) : 0 < t.q qk ∧ 0 < t.p qk := by
  have hle : (2 : Int) ^ t.solinasb ≤ 2 ^ (qk - 1) :=
    pow_le_pow_right₀ (by norm_num) (Nat.le_sub_one_of_lt h.solinasb_lt)
  have hpos : (0 : Int) < 2 ^ t.solinasb := by positivity
  have hq0 : 0 < t.q qk := by
    have hlow : -1 ≤ t.q qk := by
      simp only [Trial.q]
      split <;> split <;> omega
    omega
  refine ⟨hq0, ?_⟩
  have hr := h.r_nonneg
  have hqr : 0 ≤ t.q qk * t.r := mul_nonneg hq0.le hr
  have heq : t.p qk = t.q qk * t.r * 12 - 1 := by
    rw [Trial.p]
    ring
  omega

theorem consistent_setup (hprime : ∀ n, probabPrime n = true → 2 ≤ n.natAbs) {qk : Nat}
    {trials : List Trial} {x : Int} {ys : List Int} {id : CString} {master : ByteString}
    (hdrawn : ∀ t ∈ trials, Trial.Drawn qk t)
    (h : ibeSetup probabPrime qk trials x ys id = some (params, master)) : Consistent params := by
  simp only [ibeSetup, findPrimes, setupPoints, Option.bind_eq_bind, Option.bind_eq_some_iff,
    Option.map_eq_some_iff, Option.pure_def, Option.some.injEq] at h
  obtain ⟨_, ⟨t, ht, rfl⟩, P, hP, _, ⟨Ppub, hPpub, rfl⟩, h⟩ := h
  obtain rfl := (Prod.mk.inj h).1
  have htest := List.find?_some ht
  rw [Bool.and_eq_true] at htest
  obtain ⟨hq, hp⟩ := (hdrawn t (List.mem_of_find?_eq_some ht)).pos (hprime _ htest.1)
    (hprime _ htest.2)
  constructor
  · exact hp
  · exact hq
  · have hcurve : (paramsInit (t.p qk) (t.q qk) id).curve.p ≠ 0 := hp.ne'
    exact finite_randomOrderQ hcurve hP
  · exact finite_pointMul hp.ne' hPpub
  · exact le_rfl
  · exact le_rfl
  · exact fun _ hx => absurd hx List.not_mem_nil
  · exact fun _ hx => absurd hx List.not_mem_nil
  all_goals rfl

theorem Consistent.split (hparams : Consistent params) {params' : Params} {master : ByteString}
    {t n : Nat} {r x : Nat → Int} (hx : ∀ i, 0 ≤ x i) {shares : List ByteString}
    (h : ibeSplitMaster master t n params r x = some (shares, params')) : Consistent params' := by
  simp only [ibeSplitMaster, Option.bind_eq_bind, Option.bind_eq_some_iff, Option.pure_def,
    Option.some.injEq, Prod.mk.injEq] at h
  obtain ⟨robustP, hmap, -, rfl⟩ := h
  have hrel := forall₂_of_mapM hmap
  have hcurve : params.curve.p ≠ 0 := by
    rw [hparams.curve_eq]
    exact hparams.p_pos.ne'
  constructor
  · exact hparams.p_pos
  · exact hparams.q_pos
  · exact hparams.P
  · exact hparams.Ppub
  · exact Int.natCast_nonneg t
  · exact Int.natCast_nonneg n
  · intro y hy
    obtain ⟨i, -, rfl⟩ := List.mem_map.1 hy
    exact hx i
  · intro P hP
    obtain ⟨i, hi, hget⟩ := List.getElem_of_mem hP
    have hmul := hrel.get (hrel.length_eq ▸ hi) hi
    exact finite_pointMul hcurve (hmul.trans (congrArg some hget))
  · simp
  · rw [← hrel.length_eq]
    simp
  · exact hparams.p1onq_eq
  · exact hparams.zeta_eq
  · exact hparams.curve_eq
  · exact hparams.phiPpub_eq
  · exact hparams.ppubMc_eq

theorem Produced.consistent (hprime : ∀ n, probabPrime n = true → 2 ≤ n.natAbs)
    (h : Produced probabPrime params) : Consistent params := by
  induction h with
  | setup hdrawn h => exact consistent_setup hprime hdrawn h
  | split hparams ht htn hx h ih => exact ih.split (fun i => (hx i).1) h

end Setup

section Fields

def sharePair (s : Int × Point) : List ByteString := [byteStringSetMpz s.1, byteStringSetPoint s.2]

structure Encodes (s : Int × Point) : Prop where
  x_nonneg : 0 ≤ s.1
  finite : Finite s.2
  length_lt : (byteStringSetPoint s.2).length < 2 ^ 16

variable {bsa rest : List ByteString} {i : Nat}

theorem value_field_of_drop {bs : ByteString} (h : bsa.drop i = bs :: rest) :
    (field bsa i).value = some bs ∧ bsa.drop (i + 1) = rest := by
  constructor
  · have hget := congrArg List.head? h
    rwa [List.head?_drop] at hget
  · rw [← List.drop_drop, h]
    rfl

theorem value_deserializeShares {l : List (Int × Point)} (hl : ∀ s ∈ l, Encodes s)
    (h : bsa.drop i = l.flatMap sharePair ++ rest) :
    (deserializeShares bsa l.length i).value = some (l.map Prod.fst, l.map Prod.snd) := by
  induction l generalizing i with
  | nil => rfl
  | cons s l ih =>
      obtain ⟨hs, hl⟩ := List.forall_mem_cons.1 hl
      obtain ⟨hx, hdrop⟩ := value_field_of_drop (i := i) h
      obtain ⟨hP, hdrop⟩ := value_field_of_drop (i := i + 1) hdrop
      rw [List.length_cons, deserializeShares, value_bind, hx, Option.bind_some, value_bind, hP,
        Option.bind_some, value_bind, ih hl hdrop]
      have hcodeP := hs.finite.decode hs.length_lt
      have hcodex := inpRaw_setMpz_of_nonneg hs.x_nonneg
      simp only [Option.bind_some, hcodeP, hcodex]
      rfl

variable {params : Params}

/-- The tables as a list of entries. -/
def shareTable (params : Params) : List (Int × Point) := params.robustx.zip params.robustP

theorem serializedFields_eq (h : Consistent params) :
    serializedFields params = [byteStringSet params.version, byteStringSet params.id,
      byteStringSetMpz params.p, byteStringSetMpz params.q, byteStringSetPoint params.P,
      byteStringSetPoint params.Ppub, byteStringSetInt params.sharet,
      byteStringSetInt params.sharen] ++ (shareTable params).flatMap sharePair := by
  have hx := h.robustx_length
  have hP := h.robustP_length
  have htable : shareTable params = (List.range params.sharen.toNat).map fun j =>
      (params.robustx.getD j 0, params.robustP.getD j pointInit) := by
    apply List.ext_getElem
    · simp [shareTable, hx, hP]
    · intro j h₁ h₂
      simp only [List.length_map, List.length_range] at h₂
      simp [shareTable, hx, hP, h₂]
  rw [serializedFields, htable, List.flatMap_map]
  rfl

theorem length_shareTable (h : Consistent params) :
    (shareTable params).length = params.sharen.toNat := by
  rw [shareTable, List.length_zip, h.robustx_length, h.robustP_length, Nat.min_self]

end Fields

section RoundTrip

variable {params : Params}

/-- Every field fits into the array, and so do all of them together. -/
structure FieldsFit (params : Params) : Prop where
  count_lt : 8 + 2 * params.sharen < 2 ^ 16
  length_lt : ∀ bs ∈ serializedFields params, bs.length < 2 ^ 16

/-- What the low bytes of the two counts leave of the parameters. -/
def truncated (params : Params) : Params :=
  { params with
    sharet := params.sharet % 256
    sharen := params.sharen % 256
    robustx := params.robustx.take (params.sharen % 256).toNat
    robustP := params.robustP.take (params.sharen % 256).toNat }

theorem encodes_shareTable (h : Consistent params) (hfit : FieldsFit params) :
    ∀ s ∈ shareTable params, Encodes s := by
  rintro ⟨x, P⟩ hs
  obtain ⟨hx, hP⟩ := List.of_mem_zip hs
  refine ⟨h.robustx x hx, h.robustP P hP, hfit.length_lt _ ?_⟩
  rw [serializedFields_eq h]
  exact List.mem_append_right _ (List.mem_flatMap.2 ⟨_, hs, by simp [sharePair]⟩)

theorem decodeArray_serializeParams (h : Consistent params) (hfit : FieldsFit params) :
    byteStringDecodeArray (ibeSerializeParams params) = serializedFields params := by
  refine decodeArray_encodeArray ?_ hfit.length_lt
  have hlen : (serializedFields params).length = 8 + 2 * params.sharen.toNat := by
    rw [serializedFields_eq h, List.length_append, List.length_flatMap]
    simp [sharePair, length_shareTable h]
    omega
  have hcount := hfit.count_lt
  have hnonneg := h.sharen_nonneg
  rw [hlen]
  omega

theorem value_divideBy {d : Int} (hd : 0 < d) : (divideBy d).value = some () := if_neg hd.ne'

/-- The parameters that the primes and the strings determine. -/
def withoutPoints (params : Params) : Params :=
  initpq ⟨params.version, params.id, params.p, params.q, 0, fp2Set0, curveInit params.p params.q,
    pointInit, pointInit, pointInit, millerCacheInit, 0, 0, [], []⟩

theorem value_deserializePrimes (h : Consistent params) (rest : List ByteString) :
    (deserializePrimes (byteStringSet params.version :: byteStringSet params.id ::
        byteStringSetMpz params.p :: byteStringSetMpz params.q :: rest)).value =
      some (withoutPoints params) := by
  have hp := inpRaw_setMpz_of_nonneg h.p_pos.le
  have hq := inpRaw_setMpz_of_nonneg h.q_pos.le
  simp only [deserializePrimes, value_bind, field, value_read, List.getElem?_cons_zero,
    List.getElem?_cons_succ, Option.bind_some, hp, hq, charstarFromByteString_set, initpq,
    value_divideBy h.p_pos, value_divideBy h.q_pos]
  rfl

/-- Everything else follows from the points. -/
theorem Consistent.withPoints_eq (h : Consistent params) (sharet sharen : Int)
    (robustx : List Int) (robustP : List Point) :
    withPoints (withoutPoints params) params.P params.Ppub sharet sharen robustx robustP =
      { params with sharet, sharen, robustx, robustP } := by
  obtain ⟨version, id, p, q, p1onq, zeta, curve, P, Ppub, phiPpub, ppubMc, t, n, xs, Ps⟩ := params
  have h₁ : p1onq = (p + 1) / q := h.p1onq_eq
  have h₂ : zeta = fp2SetCbrtUnity p := h.zeta_eq
  have h₃ : curve = pointMulPreprocess P (curveInit p q) := h.curve_eq
  have h₄ : phiPpub = ⟨fp2Mul Ppub.x zeta p, Ppub.y, false⟩ := h.phiPpub_eq
  have h₅ : ppubMc = tatePreprocess millerCacheInit Ppub curve := h.ppubMc_eq
  subst h₅ h₄ h₃ h₂ h₁
  rfl

theorem value_of_fields {bs : ByteString} {bsa : List ByteString}
    (hbsa : byteStringDecodeArray bs = bsa) {params₀ : Params} {b₄ b₅ b₆ b₇ : ByteString}
    {shares : List Int × List Point} (hprimes : (deserializePrimes bsa).value = some params₀)
    (h₄ : bsa[4]? = some b₄) (h₅ : bsa[5]? = some b₅) (h₆ : bsa[6]? = some b₆)
    (h₇ : bsa[7]? = some b₇)
    (hshares : (deserializeShares bsa (intFromByteString b₇).toNat 8).value = some shares) :
    (ibeDeserializeParams bs).value = some (1, withPoints params₀
      (pointSetByteString pointInit b₄) (pointSetByteString pointInit b₅) (intFromByteString b₆)
      (intFromByteString b₇) shares.1 shares.2) := by
  subst hbsa
  simp only [ibeDeserializeParams, value_bind, hprimes, field, value_read, h₄, h₅, h₆, h₇, hshares,
    Option.bind_some]
  rfl

/-- All that is lost is what the low bytes of the counts do not cover. -/
theorem value_deserializeParams (h : Consistent params) (hfit : FieldsFit params) :
    (ibeDeserializeParams (ibeSerializeParams params)).value = some (1, truncated params) := by
  have hlen := length_shareTable h
  have hmod : params.sharen % 256 ≤ params.sharen := by
    have hnonneg := h.sharen_nonneg
    omega
  have hP := h.P.decode (hfit.length_lt _ (by simp [serializedFields]))
  have hPpub := h.Ppub.decode (hfit.length_lt _ (by simp [serializedFields]))
  have hsharet := intFromByteString_setInt params.sharet
  have hsharen := intFromByteString_setInt params.sharen
  have hk : ((shareTable params).take (params.sharen % 256).toNat).length =
      (params.sharen % 256).toNat := by
    rw [List.length_take, hlen]
    omega
  have hencodes (s : Int × Point) (hs : s ∈ (shareTable params).take (params.sharen % 256).toNat) :
      Encodes s := encodes_shareTable h hfit s (List.mem_of_mem_take hs)
  have hdrop : (serializedFields params).drop 8 =
      ((shareTable params).take (params.sharen % 256).toNat).flatMap sharePair ++
        ((shareTable params).drop (params.sharen % 256).toNat).flatMap sharePair := by
    rw [serializedFields_eq h, ← List.flatMap_append, List.take_append_drop]
    rfl
  have hshares := value_deserializeShares hencodes hdrop
  rw [hk] at hshares
  have htable : ((shareTable params).take (params.sharen % 256).toNat).map Prod.fst =
        params.robustx.take (params.sharen % 256).toNat ∧
      ((shareTable params).take (params.sharen % 256).toNat).map Prod.snd =
        params.robustP.take (params.sharen % 256).toNat := by
    have heq := h.robustx_length.trans h.robustP_length.symm
    rw [shareTable, List.map_take, List.map_take, List.map_fst_zip heq.le, List.map_snd_zip heq.ge]
    exact ⟨rfl, rfl⟩
  have hprimes : (deserializePrimes (serializedFields params)).value =
      some (withoutPoints params) :=
    value_deserializePrimes h ((serializedFields params).drop 4)
  rw [← hsharen] at hshares
  rw [value_of_fields (decodeArray_serializeParams h hfit) hprimes rfl rfl rfl rfl hshares, hP,
    hPpub, hsharet, hsharen, htable.1, htable.2, h.withPoints_eq]
  rfl

variable {probabPrime : Int → Bool}

/-- Parameters come back from their file exactly when the two counts fit into one
byte each. -/
theorem deserialize_serialize_iff (hprime : ∀ n, probabPrime n = true → 2 ≤ n.natAbs)
    (hparams : Produced probabPrime params) (hfit : FieldsFit params) :
    (ibeDeserializeParams (ibeSerializeParams params)).value = some (1, params) ↔
      params.sharet < 256 ∧ params.sharen < 256 := by
  have h := hparams.consistent hprime
  have ht := h.sharet_nonneg
  have hn := h.sharen_nonneg
  rw [value_deserializeParams h hfit]
  constructor
  · intro heq
    have hparams := (Prod.mk.inj (Option.some.inj heq)).2
    have hsharet : params.sharet % 256 = params.sharet := congrArg Params.sharet hparams
    have hsharen : params.sharen % 256 = params.sharen := congrArg Params.sharen hparams
    omega
  · rintro ⟨hsharet, hsharen⟩
    have htable : params.robustx.take params.sharen.toNat = params.robustx ∧
        params.robustP.take params.sharen.toNat = params.robustP := by
      rw [← h.robustx_length, List.take_length, h.robustx_length, ← h.robustP_length,
        List.take_length]
      exact ⟨rfl, rfl⟩
    rw [truncated, Int.emod_eq_of_lt ht hsharet, Int.emod_eq_of_lt hn hsharen, htable.1, htable.2]

end RoundTrip

section Sample

/-- A test for primes that knows the two that matter below. -/
def samplePrime (n : Int) : Bool := n = 11 || n = 131

def sampleTrial : Trial := ⟨1, true, true, 1⟩

/-- A setup with `q = 11` and `p = 131`. -/
def sampleSetup : Option (Params × ByteString) :=
  ibeSetup samplePrime 4 [sampleTrial] 3 [4] (charstarFromByteString (bytes "example.com"))

theorem isSome_sampleSetup : sampleSetup.isSome := by decide

def sampleParams : Params := (sampleSetup.get isSome_sampleSetup).1

theorem produced_sampleParams : Produced samplePrime sampleParams := by
  have hdrawn : ∀ t ∈ [sampleTrial], Trial.Drawn 4 t := by
    intro t ht
    obtain rfl := List.mem_singleton.1 ht
    exact ⟨by decide, by decide⟩
  have hsetup : sampleSetup = some (sampleParams, (sampleSetup.get isSome_sampleSetup).2) :=
    (Option.some_get isSome_sampleSetup).symm
  exact .setup hdrawn hsetup

theorem two_le_of_samplePrime (n : Int) (h : samplePrime n = true) : 2 ≤ n.natAbs := by
  simp only [samplePrime, Bool.or_eq_true, decide_eq_true_eq] at h
  omega

/-- The parameters after the master key has been split for `n` equal places. -/
def sampleShared (t n : Nat) (P : Point) : Params :=
  { sampleParams with
    sharet := t, sharen := n, robustx := (List.range n).map fun _ => 2
    robustP := (List.range n).map fun _ => P }

variable {t n : Nat} {P : Point}

theorem produced_sampleShared (ht : 1 ≤ t) (htn : t ≤ n)
    (hP : pointMul (shareValue 3 t (fun _ => 1) 2 11) sampleParams.Ppub 131 = some P) :
    Produced samplePrime (sampleShared t n P) := by
  have hq : sampleParams.q = 11 := by decide
  have hp : sampleParams.curve.p = 131 := by decide
  have hm : mympzInpRaw [3] = 3 := by decide
  have hmap : (List.range n).mapM (fun _ => pointMul (shareValue (mympzInpRaw [3]) t (fun _ => 1) 2
      sampleParams.q) sampleParams.Ppub sampleParams.curve.p) =
      some ((List.range n).map fun _ => P) := by
    apply mapM_eq_some_map
    intro i _
    rw [hq, hp, hm, hP]
  have hsplit : ibeSplitMaster [3] t n sampleParams (fun _ => 1) (fun _ => 2) =
      some (masterShares [3] t n sampleParams (fun _ => 1) fun _ => 2, sampleShared t n P) := by
    simp only [ibeSplitMaster, hmap, Option.bind_eq_bind, Option.bind_some]
    rfl
  exact .split produced_sampleParams ht htn (fun i => by rw [hq]; decide) hsplit

/-- The file of the parameters is well formed as long as the count of its fields is. -/
theorem fieldsFit_sampleShared (h : Produced samplePrime (sampleShared t n P))
    (hn : 8 + 2 * n < 2 ^ 16) (hP : (byteStringSetPoint P).length < 2 ^ 16) :
    FieldsFit (sampleShared t n P) := by
  have hfixed : ∀ bs ∈ [byteStringSet sampleParams.version, byteStringSet sampleParams.id,
      byteStringSetMpz sampleParams.p, byteStringSetMpz sampleParams.q,
      byteStringSetPoint sampleParams.P, byteStringSetPoint sampleParams.Ppub, byteStringSetMpz 2],
      bs.length < 2 ^ 16 := by
    decide +kernel
  have hshare : ∀ s ∈ (shareTable (sampleShared t n P)).flatMap sharePair, s.length < 2 ^ 16 := by
    intro bs hbs
    obtain ⟨⟨x, R⟩, hs, hbs⟩ := List.mem_flatMap.1 hbs
    obtain ⟨hx, hR⟩ := List.of_mem_zip hs
    obtain ⟨i, -, rfl⟩ := List.mem_map.1 hx
    obtain ⟨j, -, rfl⟩ := List.mem_map.1 hR
    obtain rfl | rfl := List.mem_pair.1 hbs
    · exact hfixed _ (by simp)
    · exact hP
  have hint (k : Int) : (byteStringSetInt k).length < 2 ^ 16 :=
    (by decide : 4 < 2 ^ 16)
  refine ⟨by simp only [sampleShared]; omega, fun bs hbs => ?_⟩
  rw [serializedFields_eq (h.consistent two_le_of_samplePrime)] at hbs
  obtain hbs | hbs := List.mem_append.1 hbs
  · simp only [List.mem_cons, List.not_mem_nil, or_false] at hbs
    obtain rfl | rfl | rfl | rfl | rfl | rfl | rfl | rfl := hbs
    · exact hfixed _ (.head _)
    · exact hfixed _ (.tail _ (.head _))
    · exact hfixed _ (.tail _ (.tail _ (.head _)))
    · exact hfixed _ (.tail _ (.tail _ (.tail _ (.head _))))
    · exact hfixed _ (.tail _ (.tail _ (.tail _ (.tail _ (.head _)))))
    · exact hfixed _ (.tail _ (.tail _ (.tail _ (.tail _ (.tail _ (.head _))))))
    · exact hint _
    · exact hint _
  · exact hshare bs hbs

theorem pointMul_sampleShared :
    pointMul (shareValue 3 2 (fun _ => 1) 2 11) sampleParams.Ppub 131 =
      some ⟨⟨113, 0⟩, ⟨123, 0⟩, false⟩ := by
  decide +kernel

theorem deserialize_serialize_sampleShared :
    (ibeDeserializeParams (ibeSerializeParams
        (sampleShared 2 3 ⟨⟨113, 0⟩, ⟨123, 0⟩, false⟩))).value =
      some (1, sampleShared 2 3 ⟨⟨113, 0⟩, ⟨123, 0⟩, false⟩) := by
  have hparams := produced_sampleShared (t := 2) (n := 3) (by decide) (by decide)
    pointMul_sampleShared
  have hfit := fieldsFit_sampleShared hparams (by decide) (by decide)
  exact (deserialize_serialize_iff two_le_of_samplePrime hparams hfit).2 ⟨by decide, by decide⟩

/-- 256 shares are read back as none. -/
theorem not_deserialize_serialize :
    ¬∀ params, Produced samplePrime params → FieldsFit params →
      (ibeDeserializeParams (ibeSerializeParams params)).value = some (1, params) := by
  intro h
  have hP : pointMul (shareValue 3 1 (fun _ => 1) 2 11) sampleParams.Ppub 131 =
      some ⟨⟨33, 0⟩, ⟨100, 0⟩, false⟩ := by
    decide +kernel
  have hparams := produced_sampleShared (t := 1) (n := 256) (by decide) (by decide) hP
  have hfit := fieldsFit_sampleShared hparams (by decide) (by decide)
  have heq := h _ hparams hfit
  rw [value_deserializeParams (hparams.consistent two_le_of_samplePrime) hfit] at heq
  have hsharen := congrArg Params.sharen (Prod.mk.inj (Option.some.inj heq)).2
  exact absurd hsharen (by decide)

end Sample

end IdBasedEncryption.ParamsRoundTrip
