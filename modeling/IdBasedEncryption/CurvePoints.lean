import IdBasedEncryption.Fp2Arith
import IdBasedEncryption.NonAdjacentForm

namespace IdBasedEncryption.CurvePoints

open Gmp SlidingWindow NonAdjacentForm Fp2Arith

@[ext]
structure Point where
  x : Fp2
  y : Fp2
  infinity : Bool
  deriving DecidableEq, Repr

def pointInit : Point := ⟨fp2Set0, fp2Set0, false⟩

def pointSetO : Point := ⟨fp2Set0, fp2Set1, true⟩

/-- `y ^ 2 = x ^ 3 + 1` over `F_p`, with a subgroup of order `q`. The signs of
`solinasa` and `solinasb` are those of the decomposition
`2 ^ |solinasa| ± 2 ^ |solinasb| ± 1` of `q`. -/
structure Curve where
  p : Int
  q : Int
  p1onq : Int
  cbrtpwr : Int
  tatepwr : Int
  solinasa : Int
  solinasb : Int
  preX : List Int
  preY : List Int
  deriving DecidableEq, Repr

structure Solinas where
  a : Int
  b : Int
  count : Nat
  stopped : Bool
  deriving DecidableEq, Repr

/-- One round of the search for a decomposition. A fourth nonzero digit ends it
with both fields zero. -/
def solinasRound (q : Int) (s : Solinas) (i : Nat) : Solinas :=
  let j := digit q.toNat i
  if s.stopped ∨ j = 0 then s
  else if s.count ≥ 3 then ⟨0, 0, s.count, true⟩
  else if i = 0 then { s with a := j, count := s.count + 1 }
  else if s.count = 1 then { s with b := i * j, count := s.count + 1 }
  else { s with a := s.a * i, count := s.count + 1 }

def solinas (q : Int) : Int × Int :=
  let s := (List.range (mpzSizeinbase2 q + 1)).foldl (solinasRound q) ⟨0, 0, 0, false⟩
  if s.count = 2 then (s.a * s.b, 0) else (s.a, s.b)

def curveInit (prime qprime : Int) : Curve where
  p := prime
  q := qprime
  p1onq := (prime + 1) / qprime
  cbrtpwr := (prime * 2 - 1) / 3
  tatepwr := (prime - 1) * ((prime + 1) / qprime)
  solinasa := (solinas qprime).1
  solinasb := (solinas qprime).2
  preX := List.replicate (mpzSizeinbase2 qprime + 1) 0
  preY := List.replicate (mpzSizeinbase2 qprime + 1) 0

def xFromY (y : Int) (curve : Curve) : Int :=
  mpzPowm ((y * y - 1) % curve.p) curve.cbrtpwr curve.p

def pointAdd (P Q : Point) (p : Int) : Point :=
  if P.infinity then Q
  else if Q.infinity then P
  else if fp2Equal P.x Q.x then
    if fp2Equal P.y (fp2Neg Q.y p) then pointSetO
    else
      let lambda := fp2Mul (fp2Add (fp2Add P.x P.x p) P.x p) P.x p
      let lambda := fp2Div lambda (fp2Add P.y P.y p) p
      let x := fp2Sub (fp2Sqr lambda p) (fp2Add P.x P.x p) p
      ⟨x, fp2Sub (fp2Mul (fp2Sub P.x x p) lambda p) P.y p, false⟩
  else
    let lambda := fp2Div (fp2Sub Q.y P.y p) (fp2Sub Q.x P.x p) p
    let x := fp2Sub (fp2Sub (fp2Sqr lambda p) P.x p) Q.x p
    ⟨x, fp2Sub (fp2Mul (fp2Sub P.x x p) lambda p) P.y p, false⟩

/-- Projective coordinates over `F_p`, standing for `(x / z ^ 2, y / z ^ 3)`. -/
structure Proj where
  x : Int
  y : Int
  z : Int
  deriving DecidableEq, Repr

def projDouble (R : Proj) (p : Int) : Proj :=
  let t1 := (R.x * R.x + (R.x * R.x + R.x * R.x)) % p
  let z := (R.z * R.y + R.z * R.y) % p
  let t5 := R.y * R.y % p
  let t2 := t5 * R.x * 4 % p
  let x := (t1 * t1 - (t2 + t2)) % p
  let t3 := t5 * t5 * 8 % p
  ⟨x, ((t2 - x) * t1 - t3) % p, z⟩

/-- Adds the affine point `(a, b)`. -/
def projMixIn (R : Proj) (a b p : Int) : Proj :=
  let t8 := R.z * R.z % p
  let t2 := t8 * a % p
  let t3 := R.x - t2
  let t5 := t8 * R.z % p * b % p
  let t6 := R.y - t5
  let t7 := R.x + t2
  let t8 := R.y + t5
  let z := R.z * t3 % p
  let t2 := t3 * t3 % p
  let x := (t6 * t6 - t2 * t7) % p
  let t5 := (t7 * t2 - (x + x)) % p
  let y := (t5 * t6 - t8 * t2 % p * t3) % p
  let y := if y % 2 = 1 then y + p else y
  ⟨x, y / 2, z⟩

/-- Back to affine coordinates. -/
def projAffine (R : Proj) (p : Int) : Point :=
  let z := mpzInvert R.z R.z p
  let z2 := z * z % p
  ⟨⟨R.x * z2 % p, 0⟩, ⟨R.y * (z2 * z % p) % p, 0⟩, false⟩

def zzpPointDouble (P : Int × Int) (p : Int) : Int × Int :=
  let lambda := (P.1 + P.1 + P.1) * P.1 % p
  let t := P.2 + P.2
  let lambda := lambda * mpzInvert t t p % p
  let x := (lambda * lambda - P.1 - P.1) % p
  (x, ((P.1 - x) * lambda - P.2) % p)

def zzpPointAdd (P Q : Int × Int) (p : Int) : Int × Int :=
  let t := Q.1 - P.1
  let lambda := (Q.2 - P.2) * mpzInvert t t p % p
  let x := (lambda * lambda - P.1 - Q.1) % p
  (x, ((P.1 - x) * lambda - P.2) % p)

/-- The first `k + 1` entries of the table of the points `2 ^ i P`. -/
def doublings (P : Int × Int) (p : Int) (k : Nat) : List (Int × Int) :=
  (List.range (k + 1)).map fun i => (zzpPointDouble · p)^[i] P

def pointMulPreprocess (P : Point) (curve : Curve) : Curve :=
  let pre := doublings (P.x.a, P.y.a) curve.p (mpzSizeinbase2 curve.q)
  { curve with preX := pre.map Prod.fst, preY := pre.map Prod.snd }

/-- The highest position that conversion to non-adjacent form uses. -/
def topDigit (n : Int) : Nat :=
  let m := mpzSizeinbase2 n
  if digit n.toNat m = 0 then m - 1 else m

/-- One round of the loop over the digits below the highest one. Reading past
the end of a table gives `none`. -/
def mulPostprocessRound (n : Int) (curve : Curve) (R : Proj) (m : Nat) : Option Proj :=
  if digit n.toNat m = 0 then some R
  else do
    let x ← curve.preX[m]?
    let y ← curve.preY[m]?
    return projMixIn R x (if digit n.toNat m < 0 then curve.p - y else y) curve.p

def pointMulPostprocess (n : Int) (curve : Curve) : Option Point := do
  let m := topDigit n
  let x ← curve.preX[m]?
  let y ← curve.preY[m]?
  let R ← (List.range m).reverse.foldlM (mulPostprocessRound n curve) ⟨x, y, 1⟩
  return projAffine R curve.p

/-- Entry `2 i + 1` of the table of odd multiples. -/
def oddMultiple (P : Int × Int) (p : Int) : Nat → Int × Int
  | 0 => P
  | i + 1 => zzpPointAdd (oddMultiple P p i) (zzpPointDouble P p) p

/-- The table of multiples that `point_mul` sets up. The entries it leaves
uninitialised are `none`. -/
def multiple (P : Int × Int) (p : Int) (j : Nat) : Option (Int × Int) :=
  if j = 2 then some (zzpPointDouble P p)
  else if j % 2 = 1 ∧ j ≤ 31 then some (oddMultiple P p (j / 2))
  else none

/-- Entry `|j|` of the table, negated for a negative `j`. -/
def signedMultiple (P : Int × Int) (p : Int) (j : Int) : Option (Int × Int) :=
  (multiple P p j.natAbs).map fun M => if j < 0 then (M.1, p - M.2) else M

def mulMixIn (P : Int × Int) (p : Int) (j : Int) (R : Option Proj) : Option Proj := do
  let M ← signedMultiple P p j
  return projMixIn (← R) M.1 M.2 p

/-- The value `n P` for a point over `F_p`. The highest window sets up the
accumulator and the loop runs over the digits below it. -/
def pointMul (n : Int) (P : Point) (p : Int) : Option Point := do
  let P := (P.x.a, P.y.a)
  let d := digit n.toNat
  let m := topDigit n
  let l := windowStart d windowsize m
  let M ← signedMultiple P p (digitsValue d l (m + 1 - l))
  let R ← windowLoop d windowsize (Option.map (projDouble · p)) (mulMixIn P p) l l
    (some ⟨M.1, M.2, 1⟩)
  return projAffine R p

/-- Entry `2 i + 1` of the table of odd multiples that `general_point_mul` sets up. -/
def generalMultiple (P : Point) (p : Int) : Nat → Point
  | 0 => P
  | i + 1 => pointAdd (generalMultiple P p i) (pointAdd P P p) p

/-- The scalar is reduced modulo `q` before the multiplication. -/
def generalPointMul (a : Int) (P : Point) (curve : Curve) : Point :=
  let p := curve.p
  let n := a % curve.q
  if P.infinity then pointSetO
  else if a = 0 then pointSetO
  else
    let m := mpzSizeinbase2 n
    windowLoop (bit n) windowsize (fun R => pointAdd R R p)
      (fun j R => pointAdd R (generalMultiple P p ((j.toNat - 1) / 2)) p) m m pointSetO

/-- Whether the point is in `E/F_p` and finite. -/
def pointSpecialP (P : Point) (curve : Curve) : Bool :=
  !P.infinity && P.x.b = 0 && P.y.b = 0 &&
    (P.y.a * P.y.a - P.x.a * P.x.a % curve.p * P.x.a % curve.p - 1) % curve.p = 0

def pointValidP (P : Point) (curve : Curve) : Bool :=
  let p := curve.p
  let temp := fp2Mul P.y P.y p
  let error := fp2Sub temp (fp2Mul (fp2Mul P.x P.x p) P.x p) p
  let error := fp2SubUi error error 1 p
  P.infinity || error.a = 0 && error.b = 0

end IdBasedEncryption.CurvePoints
