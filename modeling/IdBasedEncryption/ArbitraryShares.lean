import IdBasedEncryption.ParamsRoundTrip

namespace IdBasedEncryption.ArbitraryShares

open Gmp CurvePoints ByteStrings PointBytes IbeLib ReadTraces ParamsRoundTrip

section Traces

def readRobustx (params : Params) (i : Int) : Run Int Int := read i (robustxAt params i)

def coefficientRoundRun (params : Params) (indexi : Int) (s : Int × Int) (indexj : Int) :
    Run Int (Int × Int) := do
  let xj ← readRobustx params indexj
  let xi ← readRobustx params indexi
  return (s.1 * xj % params.q, s.2 * (xj - xi) % params.q)

def shareCoefficientRun (params : Params) (index : List Int) (i : Nat) : Run Int Int := do
  let indexi ← lift index[i]?
  let s ← (index.eraseIdx i).foldlM (coefficientRoundRun params indexi) (1, 1)
  return s.1 * mpzInvert s.2 s.2 params.q % params.q

def combineRoundRun (params : Params) (kshare : List ByteString) (d : Point) (i : Nat) :
    Run Int Point := do
  let share ← lift kshare[i]?
  let z ← shareCoefficientRun params (kshare.map shareIndex) i
  let yP ← lift (pointMul z (pointSetByteString pointInit (byteStringSplit share).2) params.curve.p)
  return pointAdd d yP params.curve.p

/-- `IBE_combine` with the indices at which it reads the table. -/
def ibeCombineRun (key : ByteString) (kshare : List ByteString) (params : Params) :
    Run Int (Int × ByteString) :=
  let t := params.sharet.toNat
  let kshare := kshare.take t
  if kshare.length < t then lift none
  else if ¬(kshare.map shareIndex).Nodup then pure (0, key)
  else do
    let d ← (List.range t).foldlM (combineRoundRun params kshare) pointSetO
    return (1, byteStringSetPoint d)

variable {params : Params} {key : ByteString} {kshare : List ByteString}

theorem value_coefficientRoundRun (indexi : Int) (s : Int × Int) (indexj : Int) :
    (coefficientRoundRun params indexi s indexj).value =
      coefficientRound params indexi s indexj := by
  simp only [coefficientRoundRun, coefficientRound, readRobustx, value_bind, value_read]
  rfl

theorem value_shareCoefficientRun (index : List Int) (i : Nat) :
    (shareCoefficientRun params index i).value = shareCoefficient params index i := by
  simp only [shareCoefficientRun, shareCoefficient, value_bind, value_lift, value_foldlM,
    value_coefficientRoundRun]
  rfl

theorem value_combineRoundRun (d : Point) (i : Nat) :
    (combineRoundRun params kshare d i).value = combineRound params kshare d i := by
  simp only [combineRoundRun, combineRound, value_bind, value_lift, value_shareCoefficientRun]
  rfl

/-- The table lookups that are kept track of are those of `IBE_combine`. -/
theorem value_ibeCombineRun (key : ByteString) (kshare : List ByteString) (params : Params) :
    (ibeCombineRun key kshare params).value = ibeCombine key kshare params := by
  simp only [ibeCombineRun, ibeCombine]
  split
  · rfl
  · split
    · rfl
    · simp only [value_bind, value_foldlM, value_combineRoundRun]
      rfl

section Reads

variable {p : Int → Prop}

theorem readsIn_shareCoefficientRun {index : List Int} (hp : ∀ i ∈ index, p i) (i : Nat) :
    ReadsIn p (shareCoefficientRun params index i) := by
  refine readsIn_bind (readsIn_lift _) fun indexi hi => readsIn_bind ?_ fun s _ => readsIn_pure _
  have hpi : p indexi := hp indexi (List.mem_of_getElem? hi)
  refine readsIn_foldlM (fun j hj s => ?_) _
  have hpj : p j := hp j (List.mem_of_mem_eraseIdx hj)
  exact readsIn_bind (readsIn_read hpj) fun _ _ =>
    readsIn_bind (readsIn_read hpi) fun _ _ => readsIn_pure _

theorem readsIn_ibeCombineRun (hp : ∀ s ∈ kshare, p (shareIndex s)) :
    ReadsIn p (ibeCombineRun key kshare params) := by
  simp only [ibeCombineRun]
  split
  · exact readsIn_lift _
  · split
    · exact readsIn_pure _
    · refine readsIn_bind (readsIn_foldlM (fun i _ d => ?_) _) fun d _ => readsIn_pure _
      refine readsIn_bind (readsIn_lift _) fun share _ => readsIn_bind ?_ fun z _ => ?_
      · apply readsIn_shareCoefficientRun
        intro j hj
        obtain ⟨s, hs, rfl⟩ := List.mem_map.1 hj
        exact hp s (List.mem_of_mem_take hs)
      · exact readsIn_bind (readsIn_lift _) fun _ _ => readsIn_pure _

end Reads

end Traces

section Malformed

/-- A finite point of the curve over `F_p` in least residues. -/
structure OnCurve (p : Int) (P : Point) : Prop where
  infinity : P.infinity = false
  x : 0 ≤ P.x.a ∧ P.x.a < p ∧ P.x.b = 0
  y : 0 ≤ P.y.a ∧ P.y.a < p ∧ P.y.b = 0
  equation : P.y.a ^ 2 % p = (P.x.a ^ 3 + 1) % p

/-- A share of a key: a four-byte index into the table and an encoded point. -/
structure WellFormed (params : Params) (share : ByteString) : Prop where
  length : (byteStringSplit share).1.length = 4
  index : 0 ≤ shareIndex share ∧ shareIndex share < params.sharen
  point : ∃ P, OnCurve params.p P ∧ (byteStringSplit share).2 = byteStringSetPoint P

/-- What a reconstruction that checks its shares would do. -/
def SafeOn (key : ByteString) (kshare : List ByteString) (params : Params) : Prop :=
  ReadsIn (fun i => 0 ≤ i ∧ i < params.sharen) (ibeCombineRun key kshare params) ∧
    (∀ r, ibeCombine key kshare params = some r → r.1 = 1 →
      ∀ share ∈ kshare, WellFormed params share) ∧
    (¬(∀ share ∈ kshare, WellFormed params share) →
      ∃ r, ibeCombine key kshare params = some r ∧ r.1 = 0)

variable {params : Params} {key : ByteString} {kshare : List ByteString}

theorem ibeCombineRun_duplicates (hlen : params.sharet = kshare.length)
    (hdup : ¬(kshare.map shareIndex).Nodup) (key : ByteString) :
    ibeCombineRun key kshare params = pure (0, key) := by
  simp only [ibeCombineRun, hlen, Int.toNat_natCast, List.take_length]
  rw [if_neg (lt_irrefl _), if_pos hdup]

theorem ibeCombine_duplicates (hlen : params.sharet = kshare.length)
    (hdup : ¬(kshare.map shareIndex).Nodup) (key : ByteString) :
    ibeCombine key kshare params = some (0, key) := by
  rw [← value_ibeCombineRun, ibeCombineRun_duplicates hlen hdup, value_pure]

/-- Zero is returned for two shares with one index and for nothing else. -/
theorem ibeCombine_zero_iff (hlen : params.sharet = kshare.length) (key : ByteString) :
    (∃ r, ibeCombine key kshare params = some r ∧ r.1 = 0) ↔
      ¬(kshare.map shareIndex).Nodup := by
  by_cases h : (kshare.map shareIndex).Nodup
  · rw [ibeCombine, hlen, Int.toNat_natCast, List.take_length, if_neg (lt_irrefl _),
      if_neg (not_not_intro h)]
    refine iff_of_false ?_ (not_not_intro h)
    rintro ⟨r, hr, h0⟩
    obtain ⟨d, -, hd⟩ := Option.bind_eq_some_iff.1 hr
    obtain rfl := Option.some.inj hd
    cases h0
  · exact iff_of_true ⟨(0, key), ibeCombine_duplicates hlen h key, rfl⟩ h

/-- Shares are looked at for equal indices only. -/
theorem safeOn_iff (hlen : params.sharet = kshare.length) :
    SafeOn key kshare params ↔
      ¬(kshare.map shareIndex).Nodup ∨ ∀ share ∈ kshare, WellFormed params share := by
  have hzero := ibeCombine_zero_iff hlen key
  constructor
  · rintro ⟨-, -, h⟩
    by_cases hwell : ∀ share ∈ kshare, WellFormed params share
    · exact Or.inr hwell
    · exact Or.inl (hzero.1 (h hwell))
  · rintro (hdup | hwell)
    · refine ⟨?_, fun r hr h1 => ?_, fun _ => hzero.2 hdup⟩
      · rw [ibeCombineRun_duplicates hlen hdup]
        exact readsIn_pure _
      · obtain rfl := Option.some.inj ((ibeCombine_duplicates hlen hdup key).symm.trans hr)
        cases h1
    · exact ⟨readsIn_ibeCombineRun fun s hs => (hwell s hs).index, fun _ _ _ => hwell,
        fun h => absurd hwell h⟩

/-- Two shares with the index zero are refused. -/
theorem safeOn_sampleShared :
    SafeOn [] [[], []] (sampleShared 2 3 ⟨⟨113, 0⟩, ⟨123, 0⟩, false⟩) :=
  (safeOn_iff rfl).2 (Or.inl (by decide))

theorem sampleShared_empty :
    (ibeCombine [] [[]] (sampleShared 1 1 ⟨⟨33, 0⟩, ⟨100, 0⟩, false⟩)).map Prod.fst = some 1 := by
  decide +kernel

/-- An empty file passes for a share. -/
theorem not_safeOn :
    ¬∀ params kshare key, Produced samplePrime params → 1 ≤ params.sharet →
      params.sharet ≤ params.sharen → params.sharet = (kshare.length : Int) →
        SafeOn key kshare params := by
  intro h
  have hP : pointMul (shareValue 3 1 (fun _ => 1) 2 11) sampleParams.Ppub 131 =
      some ⟨⟨33, 0⟩, ⟨100, 0⟩, false⟩ := by
    decide +kernel
  have hparams := produced_sampleShared (t := 1) (n := 1) (by decide) (by decide) hP
  obtain ⟨-, hone, -⟩ := h _ [[]] [] hparams (by decide) (by decide) rfl
  obtain ⟨r, hr, h1⟩ := Option.map_eq_some_iff.1 sampleShared_empty
  have hshare := hone r hr h1 [] (List.mem_singleton_self _)
  exact absurd hshare.length (by decide)

end Malformed

end IdBasedEncryption.ArbitraryShares
