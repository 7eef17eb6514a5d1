import IdBasedEncryption.CurvePoints

namespace IdBasedEncryption.TatePairing

open Gmp Fp2Arith CurvePoints

def tatePower (res : Fp2) (curve : Curve) : Fp2 :=
  let t0 := fp2Pow res curve.p1onq curve.p
  fp2Div ⟨t0.a, curve.p - t0.b⟩ t0 curve.p

def ptsGetVertical (v : Fp2) (A P : Point) (z p : Int) : Fp2 :=
  let temp := fp2MulMpz A.x (zpMul z z p) p
  fp2Mul v ⟨zpSub temp.a P.x.a p, temp.b⟩ p

def ptsGetTangent (v : Fp2) (A P : Point) (z p : Int) : Fp2 :=
  let temp2 := zpMul P.x.a P.x.a p
  let temp := zpAdd (zpAdd temp2 temp2 p) temp2 p
  let z2 := zpMul z z p
  let a := zpMul (zpNeg 0 temp p) z2 p
  let b := zpMul (zpAdd P.y.a P.y.a p) (zpMul z2 z p) p
  let temp2 := zpMul P.y.a P.y.a p
  let c := zpSub (zpMul temp P.x.a p) (zpAdd temp2 temp2 p) p
  let f1 := fp2Add (fp2MulMpz A.x a p) (fp2MulMpz A.y b p) p
  fp2Mul v ⟨zpAdd f1.a c p, f1.b⟩ p

def tateGetVertical (v : Fp2) (A P : Point) (p : Int) : Fp2 :=
  if A.infinity || P.infinity then v
  else fp2Mul v (fp2Sub A.x P.x p) p

/-- `v` times the value at `A` of `a x + b y + c`. -/
def tateMulLine (v : Fp2) (A : Point) (a b c : Fp2) (p : Int) : Fp2 :=
  if A.infinity then v
  else fp2Mul v (fp2Add (fp2Add (fp2Mul a A.x p) (fp2Mul b A.y p) p) c p) p

def tateGetTangent (v : Fp2) (A P : Point) (p : Int) : Fp2 :=
  if P.infinity then v
  else if fp2Is0 P.y then fp2Mul v (fp2Sub A.x P.x p) p
  else
    let a := fp2Neg (fp2Mul (fp2Add (fp2Add P.x P.x p) P.x p) P.x p) p
    let b := fp2Add P.y P.y p
    let c := fp2Neg (fp2Add (fp2Mul a P.x p) (fp2Mul b P.y p) p) p
    tateMulLine v A a b c p

def tateGetLine (v : Fp2) (A P Q : Point) (p : Int) : Fp2 :=
  if P.infinity then tateGetVertical v A Q p
  else if Q.infinity then tateGetVertical v A P p
  else if fp2Equal P.x Q.x then
    if fp2Equal P.y (fp2Neg Q.y p) then fp2Mul v (fp2Sub A.x P.x p) p
    else tateGetTangent v A P p
  else
    let a := fp2Sub P.y Q.y p
    let b := fp2Sub Q.x P.x p
    let c := fp2Neg (fp2Add (fp2Mul a P.x p) (fp2Mul b P.y p) p) p
    tateMulLine v A a b c p

/-- `proj_double` on the first components of a point and its `z` coordinate. -/
def doublePoint (Z : Point) (z p : Int) : Point × Int :=
  let R := projDouble ⟨Z.x.a, Z.y.a, z⟩ p
  (⟨⟨R.x, Z.x.b⟩, ⟨R.y, Z.y.b⟩, Z.infinity⟩, R.z)

/-- Scales a point with coordinate `z` back to `z = 1`. -/
def normalize (Z : Point) (z p : Int) : Point :=
  let z := mpzInvert z z p
  let temp := zpMul z z p
  ⟨fp2MulMpz Z.x temp p, fp2MulMpz Z.y (zpMul temp z p) p, Z.infinity⟩

structure Miller where
  v : Fp2
  vdenom : Fp2
  Z : Point
  z : Int
  deriving DecidableEq, Repr

def millerRound (Qhat : Point) (p : Int) (s : Miller) : Miller :=
  let v := ptsGetTangent (fp2Sqr s.v p) Qhat s.Z s.z p
  let Zz := doublePoint s.Z s.z p
  ⟨v, ptsGetVertical (fp2Sqr s.vdenom p) Qhat Zz.1 Zz.2 p, Zz.1, Zz.2⟩

/-- The loop for `2 ^ b`. Without a middle term nothing is normalised, as `P` is
still in place. -/
def millerStart (P Qhat : Point) (b : Nat) (p : Int) : Miller :=
  let s := (millerRound Qhat p)^[b] ⟨fp2Set1, fp2Set1, P, 1⟩
  if b = 0 then s else { s with Z := normalize s.Z s.z p, z := 1 }

/-- Adds the point `bP`, whose own value is `fb`. -/
def millerAdd (Qhat bP : Point) (fb : Fp2 × Fp2) (p : Int) (s : Miller) : Miller :=
  let R := pointAdd s.Z bP p
  ⟨tateGetLine (fp2Mul s.v fb.1 p) Qhat s.Z bP p,
    tateGetVertical (fp2Mul s.vdenom fb.2 p) Qhat R p, R, 1⟩

/-- Adds `P` or its negative, the sign being that of `solinasa`. As this reaches
infinity, the line is vertical. -/
def millerFinish (P Qhat : Point) (curve : Curve) (s : Miller) : Fp2 :=
  let p := curve.p
  let vdenom := if curve.solinasa < 0 then tateGetVertical s.vdenom Qhat P p else s.vdenom
  fp2Div (tateGetVertical s.v Qhat s.Z p) vdenom p

/-- The Miller loop for `2 ^ a ± 2 ^ b ± 1`, over the point `P` of `E/F_p`. -/
def tateSolinasMiller (P Qhat : Point) (curve : Curve) : Fp2 :=
  let p := curve.p
  let a := curve.solinasa.natAbs
  let b := curve.solinasb.natAbs
  let s := millerStart P Qhat b p
  let fb := if curve.solinasb < 0 then (s.vdenom, tateGetVertical s.v Qhat s.Z p)
    else (s.v, s.vdenom)
  let bP := if curve.solinasb < 0 then { s.Z with y := fp2Neg s.Z.y p } else s.Z
  let s := (millerRound Qhat p)^[a - b] s
  let s := { s with Z := normalize s.Z s.z p, z := 1 }
  millerFinish P Qhat curve (if b = 0 then s else millerAdd Qhat bP fb p s)

def tatePairing (P Q : Point) (curve : Curve) : Fp2 :=
  tatePower (tateSolinasMiller P Q curve) curve

/-- The coefficients that `tate_preprocess` stores for one point. -/
structure MillerCache where
  numa : Nat → Int
  numc : Nat → Int
  denomc : Nat → Int
  denomsb : Int
  denoms1 : Int
  numl1a : Int
  numl1c : Int
  denoml1c : Int
  numl2c : Int

def millerCacheInit : MillerCache :=
  ⟨fun _ => 0, fun _ => 0, fun _ => 0, 0, 0, 0, 0, 0, 0⟩

def ptsPreprocessVertical (mc : MillerCache) (i : Nat) (P : Point) (z p : Int) : MillerCache :=
  let t0 := mpzInvert (z * z) (z * z) p
  { mc with denomc := Function.update mc.denomc i (-(t0 * P.x.a) % p) }

def ptsPreprocessTangent (mc : MillerCache) (i : Nat) (P : Point) (z p : Int) : MillerCache :=
  let t0 := P.y.a * 2 * z
  let numa := mpzInvert t0 t0 p * P.x.a * P.x.a * -3 % p
  let t0 := z * z * z
  let numc := -(numa * P.x.a * z + P.y.a) * mpzInvert t0 t0 p % p
  { mc with
    numa := Function.update mc.numa i numa
    numc := Function.update mc.numc i numc }

def ptsPreprocessLine (P Q : Point) (p : Int) : Int × Int :=
  let c := Q.x.a - P.x.a
  let a := (P.y.a - Q.y.a) * mpzInvert c c p % p
  (a, -(a * P.x.a + P.y.a) % p)

structure Preprocess where
  mc : MillerCache
  Z : Point
  z : Int

def preprocessRound (p : Int) (s : Preprocess) (i : Nat) : Preprocess :=
  let mc := ptsPreprocessTangent s.mc i s.Z s.z p
  let Zz := doublePoint s.Z s.z p
  ⟨ptsPreprocessVertical mc i Zz.1 Zz.2 p, Zz.1, Zz.2⟩

def preprocessStart (mc : MillerCache) (P : Point) (b : Nat) (p : Int) : Preprocess :=
  let s := (List.range b).foldl (preprocessRound p) ⟨mc, P, 1⟩
  if b = 0 then s else { s with Z := normalize s.Z s.z p, z := 1 }

def preprocessAdd (bP : Point) (p : Int) (s : Preprocess) : Preprocess :=
  let l := ptsPreprocessLine s.Z bP p
  let R := pointAdd s.Z bP p
  ⟨{ s.mc with numl1a := l.1, numl1c := l.2, denoml1c := p - R.x.a }, R, 1⟩

def preprocessFinish (curve : Curve) (s : Preprocess) : MillerCache :=
  let p := curve.p
  let mc := if curve.solinasa < 0 then { s.mc with denoms1 := p - s.Z.x.a } else s.mc
  { mc with numl2c := p - s.Z.x.a }

def tatePreprocess (mc : MillerCache) (P : Point) (curve : Curve) : MillerCache :=
  let p := curve.p
  let a := curve.solinasa.natAbs
  let b := curve.solinasb.natAbs
  let s := preprocessStart mc P b p
  let bP := if curve.solinasb < 0 then { s.Z with y := fp2Neg s.Z.y p } else s.Z
  let s := if curve.solinasb < 0 then { s with mc := { s.mc with denomsb := -s.Z.x.a } } else s
  let s := (List.range' b (a - b)).foldl (preprocessRound p) s
  let s := { s with Z := normalize s.Z s.z p, z := 1 }
  preprocessFinish curve (if b = 0 then s else preprocessAdd bP p s)

/-- The value at `Q` of the line `y + a x + c`. -/
def cachedLine (Q : Point) (a c p : Int) : Fp2 :=
  let t0 := fp2Add (fp2MulMpz Q.x a p) Q.y p
  ⟨t0.a + c, t0.b⟩

/-- The value at `Q` of the vertical `x + c`. -/
def cachedVertical (Q : Point) (c : Int) : Fp2 := ⟨Q.x.a + c, Q.x.b⟩

/-- One doubling of the Miller loop on a pair of numerator and denominator. -/
def postprocessRound (mc : MillerCache) (Q : Point) (p : Int) (f : Fp2 × Fp2) (i : Nat) :
    Fp2 × Fp2 :=
  (fp2Mul (fp2Sqr f.1 p) (cachedLine Q (mc.numa i) (mc.numc i) p) p,
    fp2Mul (fp2Sqr f.2 p) (cachedVertical Q (mc.denomc i)) p)

/-- Adds the point of the middle term, whose own value is `fb`. -/
def postprocessAdd (mc : MillerCache) (Q : Point) (fb : Fp2 × Fp2) (p : Int) (f : Fp2 × Fp2) :
    Fp2 × Fp2 :=
  (fp2Mul (fp2Mul f.1 fb.1 p) (cachedLine Q mc.numl1a mc.numl1c p) p,
    fp2Mul (fp2Mul f.2 fb.2 p) (cachedVertical Q mc.denoml1c) p)

def postprocessFinish (mc : MillerCache) (Q : Point) (curve : Curve) (f : Fp2 × Fp2) : Fp2 :=
  let p := curve.p
  let vdenom := if curve.solinasa < 0 then fp2Mul f.2 (cachedVertical Q mc.denoms1) p else f.2
  fp2Div (fp2Mul f.1 (cachedVertical Q mc.numl2c) p) vdenom p

def millerPostprocess (mc : MillerCache) (Q : Point) (curve : Curve) : Fp2 :=
  let p := curve.p
  let a := curve.solinasa.natAbs
  let b := curve.solinasb.natAbs
  let f := (List.range b).foldl (postprocessRound mc Q p) (fp2Set1, fp2Set1)
  let fb := if curve.solinasb < 0 then (f.2, fp2Mul f.1 (cachedVertical Q mc.denomsb) p) else f
  let f := (List.range' b (a - b)).foldl (postprocessRound mc Q p) f
  postprocessFinish mc Q curve (if b = 0 then f else postprocessAdd mc Q fb p f)

def tatePostprocess (mc : MillerCache) (Q : Point) (curve : Curve) : Fp2 :=
  tatePower (millerPostprocess mc Q curve) curve

end IdBasedEncryption.TatePairing
