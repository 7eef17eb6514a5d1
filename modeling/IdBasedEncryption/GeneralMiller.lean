import IdBasedEncryption.CurvePoints

namespace IdBasedEncryption.GeneralMiller

open Gmp SlidingWindow Fp2Arith CurvePoints

section Lines

/-- The values of a line at two points, as far as it is evaluated. -/
abbrev Lines := Option Fp2 × Option Fp2

def getVertical (A B P : Point) (p : Int) : Lines :=
  if A.infinity || B.infinity then (none, none)
  else if P.infinity then (none, none)
  else (some (fp2Sub A.x P.x p), some (fp2Sub B.x P.x p))

/-- The value at `A` of `a x + b y + c`. -/
def evalLine (A : Point) (a b c : Fp2) (p : Int) : Option Fp2 :=
  if A.infinity then none
  else some (fp2Add (fp2Add (fp2Mul a A.x p) (fp2Mul b A.y p) p) c p)

def getTangent (A B P : Point) (p : Int) : Lines :=
  if P.infinity then (none, none)
  else if fp2Is0 P.y then (some (fp2Sub A.x P.x p), some (fp2Sub B.x P.x p))
  else
    let a := fp2Neg (fp2Mul (fp2Add (fp2Add P.x P.x p) P.x p) P.x p) p
    let b := fp2Add P.y P.y p
    let c := fp2Neg (fp2Add (fp2Mul a P.x p) (fp2Mul b P.y p) p) p
    (evalLine A a b c p, evalLine B a b c p)

def getLine (A B P Q : Point) (p : Int) : Lines :=
  if P.infinity then getVertical A B Q p
  else if Q.infinity then getVertical A B P p
  else if fp2Equal P.x Q.x then
    if fp2Equal P.y (fp2Neg Q.y p) then (some (fp2Sub A.x P.x p), some (fp2Sub B.x P.x p))
    else getTangent A B P p
  else
    let b := fp2Sub Q.x P.x p
    let a := fp2Sub P.y Q.y p
    let c := fp2Neg (fp2Add (fp2Mul a P.x p) (fp2Mul b P.y p) p) p
    (evalLine A a b c p, evalLine B a b c p)

end Lines

/-- The state of both loops with all the values of lines so far. -/
structure Accumulator where
  v : Fp2
  vdenom : Fp2
  Z : Point
  lines : List Fp2

def accumulatorInit : Accumulator := ⟨fp2Set1, fp2Set1, pointSetO, []⟩

def mulLine (v : Fp2) (l : Option Fp2) (p : Int) : Fp2 := (l.map (fp2Mul v · p)).getD v

def Accumulator.mul (s : Accumulator) (l : Lines) (p : Int) : Accumulator :=
  { s with
    v := mulLine s.v l.1 p
    vdenom := mulLine s.vdenom l.2 p
    lines := s.lines ++ (l.1.toList ++ l.2.toList) }

variable (P Phat Qhat R1 R2 : Point)

/-- Numerator and denominator of `f_1`. -/
def firstLines (p : Int) : Accumulator :=
  (accumulatorInit.mul (getVertical Qhat R2 Phat p) p).mul (getLine R2 Qhat P R1 p) p

/-- Adds the point `B`, whose own value is `f`. -/
def addStep (f : Fp2) (B : Point) (p : Int) (s : Accumulator) : Accumulator :=
  let t := ({ s with v := fp2Mul s.v f p }).mul (getLine Qhat R2 s.Z B p) p
  let Z := pointAdd s.Z B p
  ({ t with Z }).mul (getVertical R2 Qhat Z p) p

/-- Doubles the point, with the line that is given. -/
def doubleStep (l : Lines) (p : Int) (s : Accumulator) : Accumulator :=
  let t := ({ s with v := fp2Sqr s.v p, vdenom := fp2Sqr s.vdenom p }).mul l p
  let Z := pointAdd s.Z s.Z p
  ({ t with Z }).mul (getVertical R2 Qhat Z p) p

section Simple

/-- The loop of `simple_miller` from bit `m` on. -/
def simpleLoop (f : Fp2) (q p : Int) : Nat → Accumulator → Accumulator
  | 0, s => if mpzTstbit q 0 then addStep Qhat R2 f P p s else s
  | m + 1, s =>
      let s := if mpzTstbit q (m + 1) then addStep Qhat R2 f P p s else s
      simpleLoop f q p m (doubleStep Qhat R2 (getLine Qhat R2 s.Z s.Z p) p s)

/-- The result with the values of all lines. -/
def simpleMiller (curve : Curve) : Fp2 × List Fp2 :=
  let p := curve.p
  let s := firstLines P Phat Qhat R1 R2 p
  let t := simpleLoop P Qhat R2 (fp2Div s.v s.vdenom p) curve.q p (mpzSizeinbase2 curve.q - 1)
    accumulatorInit
  (fp2Div t.v t.vdenom p, s.lines ++ t.lines)

end Simple

section General

def windowsizepower : Nat := 15

/-- The jump to `bad_R`. -/
def Accumulator.unlessBad {α : Type} (s : Accumulator) (a : α) : Option α :=
  if fp2Is0 s.v || fp2Is0 s.vdenom then none else some a

/-- The entries `g[1]` and `bP[1]`. -/
def firstEntry (p : Int) : Option (Fp2 × Point) :=
  let s := firstLines P Phat Qhat R1 R2 p
  s.unlessBad (fp2Div s.v s.vdenom p, P)

/-- The entries `g[2]` and `bP[2]`. -/
def secondEntry (e : Fp2 × Point) (p : Int) : Option (Fp2 × Point) :=
  let bP := pointAdd e.2 e.2 p
  let s := (accumulatorInit.mul (getTangent Qhat R2 e.2 p) p).mul (getVertical R2 Qhat bP p) p
  s.unlessBad (fp2Div (fp2Mul (fp2Sqr e.1 p) s.v p) s.vdenom p, bP)

/-- The entries `g[k + 2]` and `bP[k + 2]`, from those for `k` and for 2. -/
def nextEntry (e e2 : Fp2 × Point) (p : Int) : Option (Fp2 × Point) :=
  let bP := pointAdd e.2 e2.2 p
  let s := (accumulatorInit.mul (getLine Qhat R2 e.2 e2.2 p) p).mul (getVertical R2 Qhat bP p) p
  s.unlessBad (fp2Div (fp2Mul (fp2Mul e.1 e2.1 p) s.v p) s.vdenom p, bP)

/-- The entries `g[2 i + 1]` and `bP[2 i + 1]`. -/
def oddEntry (e e2 : Fp2 × Point) (p : Int) : Nat → Option (Fp2 × Point)
  | 0 => some e
  | i + 1 => (oddEntry e e2 p i).bind fun e' => nextEntry Qhat R2 e' e2 p

/-- The entries with odd indices. All of them are set up in front of the loop. -/
def millerTable (p : Int) : Option (Nat → Option (Fp2 × Point)) := do
  let e ← firstEntry P Phat Qhat R1 R2 p
  let e2 ← secondEntry Qhat R2 e p
  let table := oddEntry Qhat R2 e e2 p
  if (List.range (windowsizepower + 1)).all fun i => (table i).isSome then some table else none

/-- The loop over the windows. -/
def generalLoop (table : Nat → Option (Fp2 × Point)) (q p : Int) : Accumulator :=
  windowLoop (bit q) windowsize (fun s => doubleStep Qhat R2 (getTangent Qhat R2 s.Z p) p s)
    (fun j s => ((table ((j.toNat - 1) / 2)).map fun e => addStep Qhat R2 e.1 e.2 p s).getD s)
    (mpzSizeinbase2 q) (mpzSizeinbase2 q) accumulatorInit

/-- Without a result the return code is 0. -/
def generalMiller (curve : Curve) : Option Fp2 := do
  let p := curve.p
  let table ← millerTable P Phat Qhat R1 R2 p
  let s := generalLoop Qhat R2 table curve.q p
  s.unlessBad (fp2Div s.v s.vdenom p)

end General

end IdBasedEncryption.GeneralMiller
