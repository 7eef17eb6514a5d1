import IdBasedEncryption.IbeLib
import IdBasedEncryption.ReadTraces

namespace IdBasedEncryption.ParamsBytes

open Gmp Fp2Arith CurvePoints TatePairing ByteStrings PointBytes IbeLib ReadTraces

/-- The field `bsa[k]`. -/
def field (bsa : List ByteString) (k : Nat) : Run Nat ByteString := read k bsa[k]?

/-- GMP does not go on behind a division by zero. -/
def divideBy (n : Int) : Run Nat Unit := lift (if n = 0 then none else some ())

def serializedFields (params : Params) : List ByteString :=
  [byteStringSet params.version, byteStringSet params.id, byteStringSetMpz params.p,
    byteStringSetMpz params.q, byteStringSetPoint params.P, byteStringSetPoint params.Ppub,
    byteStringSetInt params.sharet, byteStringSetInt params.sharen] ++
  (List.range params.sharen.toNat).flatMap fun j =>
    [byteStringSetMpz (params.robustx.getD j 0),
      byteStringSetPoint (params.robustP.getD j pointInit)]

def ibeSerializeParams (params : Params) : ByteString :=
  byteStringEncodeArray (serializedFields params)

/-- `k` further pairs of fields, from the field `i` on. -/
def deserializeShares (bsa : List ByteString) : Nat → Nat → Run Nat (List Int × List Point)
  | 0, _ => pure ([], [])
  | k + 1, i => do
      let x ← field bsa i
      let P ← field bsa (i + 1)
      let r ← deserializeShares bsa k (i + 2)
      return (mympzInpRaw x :: r.1, pointSetByteString pointInit P :: r.2)

/-- The parameters that the first four fields give, without points. -/
def deserializePrimes (bsa : List ByteString) : Run Nat Params := do
  let version ← field bsa 0
  let id ← field bsa 1
  let p ← field bsa 2
  let q ← field bsa 3
  let params := initpq ⟨charstarFromByteString version, charstarFromByteString id, mympzInpRaw p,
    mympzInpRaw q, 0, fp2Set0, curveInit (mympzInpRaw p) (mympzInpRaw q), pointInit, pointInit,
    pointInit, millerCacheInit, 0, 0, [], []⟩
  divideBy params.q
  divideBy params.p
  return params

/-- The parameters with their points and tables, and what is derived from these. -/
def withPoints (params : Params) (P Ppub : Point) (sharet sharen : Int) (robustx : List Int)
    (robustP : List Point) : Params :=
  let curve := pointMulPreprocess P params.curve
  { params with
    P, Ppub, curve, sharet, sharen, robustx, robustP
    phiPpub := pointPhi pointInit Ppub params
    ppubMc := tatePreprocess millerCacheInit Ppub curve }

/-- The returned number comes with the parameters. A share count that is not
positive leaves the tables empty. -/
def ibeDeserializeParams (bs : ByteString) : Run Nat (Int × Params) := do
  let bsa := byteStringDecodeArray bs
  let params ← deserializePrimes bsa
  let P ← field bsa 4
  let Ppub ← field bsa 5
  let sharet ← field bsa 6
  let sharen ← field bsa 7
  let shares ← deserializeShares bsa (intFromByteString sharen).toNat 8
  return (1, withPoints params (pointSetByteString pointInit P) (pointSetByteString pointInit Ppub)
    (intFromByteString sharet) (intFromByteString sharen) shares.1 shares.2)

section Malformed

variable {bsa : List ByteString}

/-- All indices that are read are below `n`. -/
def ReadsBelow {α : Type} (n : Nat) (m : Run Nat α) : Prop := ReadsIn (· < n) m

theorem readsBelow_field {n k : Nat} (h : k < n) : ReadsBelow n (field bsa k) := readsIn_read h

theorem readsBelow_divideBy {n : Nat} (d : Int) : ReadsBelow n (divideBy d) :=
  readsIn_lift _

theorem readsBelow_deserializeShares {n k i : Nat} (h : i + 2 * k ≤ n) :
    ReadsBelow n (deserializeShares bsa k i) := by
  induction k generalizing i with
  | zero => exact readsIn_pure _
  | succ k ih =>
      refine readsIn_bind (readsBelow_field (by omega)) fun x _ => ?_
      refine readsIn_bind (readsBelow_field (by omega)) fun P _ => ?_
      exact readsIn_bind (ih (by omega)) fun r _ => readsIn_pure _

theorem readsBelow_deserializePrimes {n : Nat} (h : 4 ≤ n) : ReadsBelow n (deserializePrimes bsa) := by
  refine readsIn_bind (readsBelow_field (by omega)) fun _ _ => ?_
  refine readsIn_bind (readsBelow_field (by omega)) fun _ _ => ?_
  refine readsIn_bind (readsBelow_field (by omega)) fun _ _ => ?_
  refine readsIn_bind (readsBelow_field (by omega)) fun _ _ => ?_
  refine readsIn_bind (readsBelow_divideBy _) fun _ _ => ?_
  exact readsIn_bind (readsBelow_divideBy _) fun _ _ => readsIn_pure _

/-- The number of fields is the one that the eighth field calls for. -/
def Fits (bsa : List ByteString) : Prop :=
  ∃ sharen : Nat, intFromByteString (bsa.getD 7 []) = sharen ∧ bsa.length = 8 + 2 * sharen

theorem readsBelow_deserializeParams {bs : ByteString} (h : Fits (byteStringDecodeArray bs)) :
    ReadsBelow (byteStringDecodeArray bs).length (ibeDeserializeParams bs) := by
  obtain ⟨sharen, hsharen, hn⟩ := h
  have hlen : 8 ≤ (byteStringDecodeArray bs).length := by omega
  refine readsIn_bind (readsBelow_deserializePrimes (by omega)) fun _ _ => ?_
  refine readsIn_bind (readsBelow_field (by omega)) fun _ _ => ?_
  refine readsIn_bind (readsBelow_field (by omega)) fun _ _ => ?_
  refine readsIn_bind (readsBelow_field (by omega)) fun _ _ => ?_
  refine readsIn_bind (readsBelow_field (by omega)) fun bs₇ hbs₇ => ?_
  have hcount : (intFromByteString bs₇).toNat = sharen := by
    have hget : (byteStringDecodeArray bs).getD 7 [] = bs₇ := by
      rw [List.getD_eq_getElem?_getD, show (byteStringDecodeArray bs)[7]? = some bs₇ from hbs₇]
      rfl
    rw [← hget, hsharen, Int.toNat_natCast]
  refine readsIn_bind (readsBelow_deserializeShares ?_) fun _ _ => readsIn_pure _
  rw [hcount, hn]

/-- Whenever parameters come out, one is returned. -/
theorem deserializeParams_fst {bs : ByteString} {r : Int × Params}
    (h : (ibeDeserializeParams bs).value = some r) : r.1 = 1 := by
  simp only [ibeDeserializeParams, value_bind, Option.bind_eq_some_iff] at h
  obtain ⟨_, _, _, _, _, _, _, _, _, _, _, _, h⟩ := h
  exact (Prod.mk.inj (Option.some.inj h)).1.symm

/-- What a decoder that checks the number of fields would do. -/
def RejectsMalformed (bs : ByteString) : Prop :=
  ReadsBelow (byteStringDecodeArray bs).length (ibeDeserializeParams bs) ∧
    (∀ r, (ibeDeserializeParams bs).value = some r → r.1 = 1 → Fits (byteStringDecodeArray bs)) ∧
    (¬Fits (byteStringDecodeArray bs) →
      ∃ r, (ibeDeserializeParams bs).value = some r ∧ r.1 ≠ 1)

/-- The number of fields is never checked. -/
theorem rejectsMalformed_iff (bs : ByteString) :
    RejectsMalformed bs ↔ Fits (byteStringDecodeArray bs) := by
  constructor
  · rintro ⟨-, -, h⟩
    by_contra hfits
    obtain ⟨r, hr, hne⟩ := h hfits
    exact hne (deserializeParams_fst hr)
  · intro h
    exact ⟨readsBelow_deserializeParams h, fun _ _ _ => h, fun hfits => absurd h hfits⟩

/-- The empty file is read out of bounds at once. -/
theorem not_rejectsMalformed : ¬∀ bs, RejectsMalformed bs := by
  intro h
  have hread := (h []).1 0
  exact absurd (hread (by decide)) (by decide)

end Malformed

end IdBasedEncryption.ParamsBytes
