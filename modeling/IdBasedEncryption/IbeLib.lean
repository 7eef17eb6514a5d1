import IdBasedEncryption.PointBytes
import IdBasedEncryption.TatePairing

namespace IdBasedEncryption.IbeLib

open Gmp Fp2Arith CurvePoints TatePairing ByteStrings PointBytes

/-- System parameters. The last two lists are the public part of a shared
master key. -/
structure Params where
  version : CString
  id : CString
  p : Int
  q : Int
  p1onq : Int
  zeta : Fp2
  curve : Curve
  P : Point
  Ppub : Point
  phiPpub : Point
  ppubMc : MillerCache
  sharet : Int
  sharen : Int
  robustx : List Int
  robustP : List Point

section Points

-- `md` is the digest behind `crypto_hash`.
variable (md : ByteString → ByteString)

/-- The digest is fed with one string after the other. -/
def cryptoVaHash (bsa : List ByteString) : ByteString := md bsa.flatten

/-- The loop that strings together `z || 1 || z || 2 || ...`, which has written
`i` bits of `x` and lacks `bits` more. -/
def fromHashLoop (z : Nat) : Nat → Nat → Nat → Nat → Int → Nat
  | 0, x, _, _, _ => x
  | fuel + 1, x, i, count, bits =>
      let zbits := mpzSizeinbase2 z
      let x := x ||| z <<< i
      let i := i + zbits
      let bits := bits - zbits
      if bits ≤ 0 then x
      else
        let countlen := mpzSizeinbase2 count
        let x := x ||| count <<< i
        let bits := bits - countlen
        if bits > 0 then fromHashLoop z fuel x (i + countlen) (count + 1) bits else x

/-- Clears the highest bits until the limit holds. -/
def clearTopBits (limit : Int) : Nat → Nat → Nat
  | 0, x => x
  | fuel + 1, x =>
      if x > limit then clearTopBits limit fuel (x ^^^ 2 ^ (mpzSizeinbase2 x - 1)) else x

def mympzFromHash (limit : Int) (hash : ByteString) : Nat :=
  let bits := mpzSizeinbase2 limit
  let x := fromHashLoop (inpRaw hash) bits 0 0 1 bits
  clearTopBits limit (mpzSizeinbase2 x) x

def hashG (bs : ByteString) (params : Params) : Int := mympzFromHash params.p (md bs)

def hashH (x : Fp2) : ByteString := md (byteStringSetFp2 x)

/-- The destination keeps its flag for infinity. -/
def pointPhi (PhiP P : Point) (params : Params) : Point :=
  ⟨fp2Mul P.x params.zeta params.p, P.y, PhiP.infinity⟩

def pointMakeOrderQ (P : Point) (params : Params) : Option Point :=
  pointMul params.p1onq P params.curve.p

def initpq (params : Params) : Params :=
  { params with
    p1onq := (params.p + 1) / params.q
    curve := curveInit params.p params.q
    zeta := fp2SetCbrtUnity params.p }

/-- Takes the first available point from the one with second coordinate `y`. -/
def mapRounds (params : Params) : Nat → Nat → Int → Option Point
  | 0, _, _ => none
  | fuel + 1, i, y => do
      let d ← pointMakeOrderQ ⟨⟨xFromY y params.curve, 0⟩, ⟨y, 0⟩, false⟩ params
      if d.infinity then mapRounds params fuel (i + 1) i else return d

def mapByteStringToPoint (bs : ByteString) (params : Params) : Option Point :=
  mapRounds params (params.p.toNat + 1) 1 (hashG md bs params)

def mapToPoint (id : CString) (params : Params) : Option Point :=
  mapByteStringToPoint md (byteStringSet id) params

end Points

section Setup

/-- What one round of the search for `p` and `q` draws. -/
structure Trial where
  solinasb : Nat
  addb : Bool
  adda : Bool
  r : Int
  deriving DecidableEq, Repr

def Trial.q (qk : Nat) (t : Trial) : Int :=
  let q := 2 ^ (qk - 1)
  let q := if t.addb then q + 2 ^ t.solinasb else q - 2 ^ t.solinasb
  if t.adda then q + 1 else q - 1

def Trial.p (qk : Nat) (t : Trial) : Int :=
  let p := t.q qk * t.r
  (p * 2 + p) * 4 - 1

/-- The first trial whose two numbers pass the test of `mpz_probab_prime_p`. -/
def findPrimes (probabPrime : Int → Bool) (qk : Nat) (trials : List Trial) : Option (Int × Int) :=
  (trials.find? fun t => probabPrime (t.q qk) && probabPrime (t.p qk)).map fun t =>
    (t.p qk, t.q qk)

def ibeVersion : CString := ⟨bytes "ibe-0.7.2", by decide⟩

def pointRandom (y : Int) (curve : Curve) : Point := ⟨⟨xFromY y curve, 0⟩, ⟨y, 0⟩, false⟩

/-- Takes the first of the random points whose multiple is finite. -/
def randomOrderQ (params : Params) : List Int → Option Point
  | [] => none
  | y :: ys => do
      let P ← pointMakeOrderQ (pointRandom y params.curve) params
      if P.infinity then randomOrderQ params ys else return P

/-- The parameters before the points are chosen. -/
def paramsInit (p q : Int) (id : CString) : Params :=
  initpq ⟨ibeVersion, id, p, q, 0, fp2Set0, curveInit p q, pointInit, pointInit, pointInit,
    millerCacheInit, 0, 0, [], []⟩

/-- The rest of the setup, once the master key `x` and the generator `P` are
there. -/
def setupPoints (x : Int) (P : Point) (params : Params) : Option Params := do
  let Ppub ← pointMul x P params.curve.p
  let curve := pointMulPreprocess P params.curve
  return { params with
    P, Ppub, curve
    ppubMc := tatePreprocess millerCacheInit Ppub curve
    phiPpub := pointPhi pointInit Ppub params }

/-- The parameters and the master key that the random choices lead to. -/
def ibeSetup (probabPrime : Int → Bool) (qk : Nat) (trials : List Trial) (x : Int) (ys : List Int)
    (id : CString) : Option (Params × ByteString) := do
  let (p, q) ← findPrimes probabPrime qk trials
  let params := paramsInit p q id
  let P ← randomOrderQ params ys
  let params ← setupPoints x P params
  return (params, byteStringSetMpz x)

end Setup

section Keys

variable (md : ByteString → ByteString)

def ibeExtractByteString (master id : ByteString) (params : Params) : Option ByteString := do
  let key ← mapByteStringToPoint md id params
  let key ← pointMul (mympzInpRaw master) key params.curve.p
  return byteStringSetPoint key

def ibeExtract (master : ByteString) (id : CString) (params : Params) : Option ByteString :=
  ibeExtractByteString md master (byteStringSet id) params

def ibeExtractShareByteString (mshare id : ByteString) (params : Params) : Option ByteString := do
  let (bs1, bs2) := byteStringSplit mshare
  let i := intFromByteString bs1
  let d ← mapByteStringToPoint md id params
  let yd ← pointMul (mympzInpRaw bs2) d params.curve.p
  return byteStringJoin (byteStringSetInt i) (byteStringSetPoint yd)

def ibeExtractShare (mshare : ByteString) (id : CString) (params : Params) : Option ByteString :=
  ibeExtractShareByteString md mshare (byteStringSet id) params

def ibeCertifyShare (mshare pub : ByteString) (id : CString) (params : Params) :
    Option ByteString :=
  ibeExtractShareByteString md mshare (cryptoVaHash md [pub, byteStringSet id]) params

def ibeCertify (master pub : ByteString) (id : CString) (params : Params) : Option ByteString :=
  ibeExtractByteString md master (cryptoVaHash md [pub, byteStringSet id]) params

end Keys

section Pairings

variable (md : ByteString → ByteString)

/-- The secret for one identity, `r` being the random number of the sender. -/
def kemSecret (r : Int) (params : Params) (id : CString) : Option ByteString := do
  let Qid ← mapToPoint md id params
  let Qid := pointPhi Qid Qid params
  let gidr := tatePostprocess params.ppubMc Qid params.curve
  return hashH md (fp2Pow gidr r params.p)

/-- Nothing is written for an empty array of identities, and `U` keeps its old
value. -/
def ibeKemEncryptArray (r : Int) (U : ByteString) (idarray : List CString) (params : Params) :
    Option (List ByteString × ByteString) :=
  if idarray.length ≤ 0 then some ([], U)
  else do
    let rP ← pointMulPostprocess r params.curve
    let s ← idarray.mapM (kemSecret md r params)
    return (s, byteStringSetPoint rP)

def ibeKemDecrypt (U key : ByteString) (params : Params) : ByteString :=
  let xQ := pointSetByteString pointInit key
  let rP := pointSetByteString pointInit U
  let rP := pointPhi rP rP params
  hashH md (tatePairing xQ rP params.curve)

def ibeGetSharedSecretPreprocess (mc : MillerCache) (key : ByteString) (params : Params) :
    MillerCache :=
  tatePreprocess mc (pointSetByteString pointInit key) params.curve

def ibeGetSharedSecretPostprocess (id : CString) (pk : MillerCache) (params : Params) :
    Option ByteString := do
  let Qid ← mapToPoint md id params
  let Qid := pointPhi Qid Qid params
  return hashH md (tatePostprocess pk Qid params.curve)

def ibeGetSharedSecret (id : CString) (key : ByteString) (params : Params) : Option ByteString := do
  let Qid ← mapToPoint md id params
  let Q := pointSetByteString pointInit key
  let Qid := pointPhi Qid Qid params
  return hashH md (tatePairing Q Qid params.curve)

def ibeVerify (sig message pub : ByteString) (id : CString) (params : Params) : Option Bool := do
  let Q := pointSetByteString pointInit sig
  let f1 := tatePairing params.P (pointPhi Q Q params) params.curve
  let P := pointSetByteString params.P pub
  let Q ← mapByteStringToPoint md message params
  let f2 := tatePairing P (pointPhi Q Q params) params.curve
  let H := cryptoVaHash md [pub, byteStringSet id]
  let Q ← mapByteStringToPoint md H params
  let f3 := tatePairing params.Ppub (pointPhi Q Q params) params.curve
  return fp2Equal f1 (fp2Mul f2 f3 params.p)

end Pairings

section Signatures

variable (md : ByteString → ByteString)

/-- The private and the public key for the random number `x`. -/
def blsKeygen (x : Int) (params : Params) : Option (ByteString × ByteString) := do
  let xP ← pointMul x params.P params.curve.p
  return (byteStringSetMpz x, byteStringSetPoint xP)

def blsSign (message key : ByteString) (params : Params) : Option ByteString := do
  let P ← mapByteStringToPoint md message params
  let xP ← pointMul (mympzInpRaw key) P params.curve.p
  return byteStringSetPoint xP

def isDdhTuple (P aP bP cP : Point) (params : Params) : Bool :=
  let PhicP := pointPhi pointInit cP params
  let PhibP := pointPhi pointInit bP params
  fp2Equal (tatePairing P PhicP params.curve) (tatePairing aP PhibP params.curve)

def blsVerify (sig message pubkey : ByteString) (params : Params) : Option Bool := do
  let Q ← mapByteStringToPoint md message params
  let xQ := pointSetByteString pointInit sig
  let xP := pointSetByteString pointInit pubkey
  return isDdhTuple params.P xP Q xQ params

def ibeKeygen (x : Int) (params : Params) : Option (ByteString × ByteString) := blsKeygen x params

/-- The signature for `message` is added to the certificate. -/
def ibeSign (message priv cert : ByteString) (params : Params) : Option ByteString := do
  let P ← mapByteStringToPoint md message params
  let xP ← pointMul (mympzInpRaw priv) P params.curve.p
  let C := pointAdd (pointSetByteString pointInit cert) xP params.curve.p
  return byteStringSetPoint C

end Signatures

section Shares

/-- Horner's rule for the polynomial with the constant term `m` and the further
coefficients `r`. -/
def shareValue (m : Int) (t : Nat) (r : Nat → Int) (x q : Int) : Int :=
  (List.range t).reverse.foldl (fun z j => (z * x + if j = 0 then m else r j) % q) 0

def masterShare (master : ByteString) (t : Nat) (params : Params) (r x : Nat → Int) (i : Nat) :
    ByteString :=
  byteStringJoin (byteStringSetInt i)
    (byteStringSetMpz (shareValue (mympzInpRaw master) t r (x i) params.q))

def masterShares (master : ByteString) (t n : Nat) (params : Params) (r x : Nat → Int) :
    List ByteString :=
  (List.range n).map (masterShare master t params r x)

/-- The numbers drawn are the coefficients `r 1`, ..., `r (t - 1)` and the
places `x 0`, ..., `x (n - 1)`. -/
def ibeSplitMaster (master : ByteString) (t n : Nat) (params : Params) (r x : Nat → Int) :
    Option (List ByteString × Params) := do
  let y := fun i => shareValue (mympzInpRaw master) t r (x i) params.q
  let robustP ← (List.range n).mapM fun i => pointMul (y i) params.Ppub params.curve.p
  return (masterShares master t n params r x,
    { params with sharet := t, sharen := n, robustx := (List.range n).map x, robustP })

def shareIndex (share : ByteString) : Int := intFromByteString (byteStringSplit share).1

/-- An index outside the table gives `none`. -/
def robustxAt (params : Params) (i : Int) : Option Int :=
  if i < 0 then none else params.robustx[i.toNat]?

/-- The share with index `indexj` enters the coefficient of the one with index
`indexi`. -/
def coefficientRound (params : Params) (indexi : Int) (s : Int × Int) (indexj : Int) :
    Option (Int × Int) := do
  let xj ← robustxAt params indexj
  let xi ← robustxAt params indexi
  return (s.1 * xj % params.q, s.2 * (xj - xi) % params.q)

/-- The coefficient of share `i` in the interpolation at zero. -/
def shareCoefficient (params : Params) (index : List Int) (i : Nat) : Option Int := do
  let indexi ← index[i]?
  let s ← (index.eraseIdx i).foldlM (coefficientRound params indexi) (1, 1)
  return s.1 * mpzInvert s.2 s.2 params.q % params.q

def constructRound (params : Params) (mshare : List ByteString) (x : Int) (i : Nat) :
    Option Int := do
  let share ← mshare[i]?
  let y := mympzInpRaw (byteStringSplit share).2
  let z ← shareCoefficient params (mshare.map shareIndex) i
  let x := x + z * y % params.q
  return if x ≥ params.q then x - params.q else x

/-- The returned number comes with the bytes of the master key. Only the first
`sharet` shares are read. -/
def ibeConstructMaster (mshare : List ByteString) (params : Params) :
    Option (Int × ByteString) := do
  let t := params.sharet.toNat
  let x ← (List.range t).foldlM (constructRound params (mshare.take t)) 0
  return (1, byteStringSetMpz x)

def combineRound (params : Params) (kshare : List ByteString) (d : Point) (i : Nat) :
    Option Point := do
  let share ← kshare[i]?
  let z ← shareCoefficient params (kshare.map shareIndex) i
  let yP ← pointMul z (pointSetByteString pointInit (byteStringSplit share).2) params.curve.p
  return pointAdd d yP params.curve.p

/-- The key keeps its old value when two shares have one index. -/
def ibeCombine (key : ByteString) (kshare : List ByteString) (params : Params) :
    Option (Int × ByteString) := do
  let t := params.sharet.toNat
  let kshare := kshare.take t
  if kshare.length < t then none
  else if ¬(kshare.map shareIndex).Nodup then return (0, key)
  else
    let d ← (List.range t).foldlM (combineRound params kshare) pointSetO
    return (1, byteStringSetPoint d)

end Shares

/-- The fields that `initpq` sets up hold what it computes, apart from the
tables of multiples of the curve. -/
structure Initialized (params : Params) : Prop where
  p1onq_eq : params.p1onq = (params.p + 1) / params.q
  zeta_eq : params.zeta = fp2SetCbrtUnity params.p
  curve_eq : params.curve = { curveInit params.p params.q with
    preX := params.curve.preX, preY := params.curve.preY }

section Setup

theorem initialized_initpq (params : Params) : Initialized (initpq params) := ⟨rfl, rfl, rfl⟩

theorem initialized_setupPoints {x : Int} {P : Point} {params params' : Params}
    (h : Initialized params) (hs : setupPoints x P params = some params') :
    Initialized params' ∧ params'.p = params.p ∧ params'.q = params.q := by
  simp only [setupPoints, Option.bind_eq_bind, Option.bind_eq_some_iff, Option.pure_def,
    Option.some.injEq] at hs
  obtain ⟨Ppub, -, rfl⟩ := hs
  refine ⟨⟨h.p1onq_eq, h.zeta_eq, ?_⟩, rfl, rfl⟩
  simp only [pointMulPreprocess]
  rw [h.curve_eq]

end Setup

section Points

variable {params : Params}

/-- `point_mul` always leaves a finite point. -/
theorem infinity_pointMul {n p : Int} {P R : Point} (h : pointMul n P p = some R) :
    R.infinity = false := by
  simp only [pointMul, Option.bind_eq_bind, Option.bind_eq_some_iff, Option.pure_def,
    Option.some.injEq] at h
  obtain ⟨M, -, R', -, rfl⟩ := h
  rfl

theorem mapRounds_succ (fuel i : Nat) (y : Int) :
    mapRounds params (fuel + 1) i y = pointMakeOrderQ (pointRandom y params.curve) params := by
  rw [mapRounds, pointRandom]
  cases h : pointMakeOrderQ _ params with
  | none => rfl
  | some d => simp [infinity_pointMul h]

/-- The first point is always taken. -/
theorem mapByteStringToPoint_eq (md : ByteString → ByteString) (bs : ByteString) :
    mapByteStringToPoint md bs params =
      pointMakeOrderQ (pointRandom (hashG md bs params) params.curve) params :=
  mapRounds_succ ..

end Points

section Lists

variable {α β : Type*} {f : α → Option β} {l : List α}

/-- A traversal succeeds with results that are related to the entries one by
one. -/
theorem exists_mapM_eq_some {R : α → β → Prop}
    (h : ∀ a ∈ l, ∃ b, f a = some b ∧ R a b) : ∃ bs, l.mapM f = some bs ∧ List.Forall₂ R l bs := by
  induction l with
  | nil => exact ⟨[], rfl, .nil⟩
  | cons a l ih =>
      obtain ⟨b, hb, hab⟩ := h a List.mem_cons_self
      obtain ⟨bs, hbs, hl⟩ := ih fun c hc => h c (List.mem_cons_of_mem a hc)
      exact ⟨b :: bs, by simp [hb, hbs], .cons hab hl⟩

theorem mapM_eq_some_map {g : α → β} (h : ∀ a ∈ l, f a = some (g a)) :
    l.mapM f = some (l.map g) := by
  induction l with
  | nil => rfl
  | cons a l ih =>
      have ha := h a List.mem_cons_self
      have hl := ih fun c hc => h c (List.mem_cons_of_mem a hc)
      simp [ha, hl]

theorem forall₂_of_mapM {bs : List β} (h : l.mapM f = some bs) :
    List.Forall₂ (fun a b => f a = some b) l bs := by
  induction l generalizing bs with
  | nil =>
      obtain rfl : [] = bs := by simpa using h
      exact .nil
  | cons a l ih =>
      simp only [List.mapM_cons, Option.bind_eq_bind, Option.bind_eq_some_iff, Option.pure_def,
        Option.some.injEq] at h
      obtain ⟨b, hb, bs, hbs, rfl⟩ := h
      exact .cons hb (ih hbs)

theorem exists_foldlM_eq_some {g : β → α → Option β} (h : ∀ a ∈ l, ∀ b, ∃ c, g b a = some c) (b : β) :
    ∃ c, l.foldlM g b = some c := by
  induction l generalizing b with
  | nil => exact ⟨b, rfl⟩
  | cons a l ih =>
      obtain ⟨ha, hl⟩ := List.forall_mem_cons.1 h
      obtain ⟨c, hc⟩ := ha b
      obtain ⟨d, hd⟩ := ih hl c
      exact ⟨d, by rw [List.foldlM_cons, hc, Option.bind_eq_bind, Option.bind_some, hd]⟩

end Lists

end IdBasedEncryption.IbeLib
