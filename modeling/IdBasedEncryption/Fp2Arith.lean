import IdBasedEncryption.Gmp
import IdBasedEncryption.SlidingWindow

namespace IdBasedEncryption.Fp2Arith

open Gmp SlidingWindow

def zpMul (a b p : Int) : Int := a * b % p

def zpAdd (a b p : Int) : Int := if a + b ≥ p then a + b - p else a + b

/-- The destination keeps its `old` value when `b` is zero. -/
def zpNeg (old b p : Int) : Int := if b = 0 then old else p - b

def zpSub (a b p : Int) : Int := if a ≥ b then a - b else a - b + p

/-- `a + sqrt (-1) b`, the integers being residues modulo the prime that every
operation takes. -/
@[ext]
structure Fp2 where
  a : Int
  b : Int
  deriving DecidableEq, Repr

def fp2Set0 : Fp2 := ⟨0, 0⟩

def fp2Set1 : Fp2 := ⟨1, 0⟩

def fp2SetCbrtUnity (p : Int) : Fp2 :=
  let a := (p - 1) / 2
  ⟨a, mpzPowm 3 ((p + 1) / 4) p * a % p⟩

def fp2Neg (x : Fp2) (p : Int) : Fp2 := ⟨p - x.a, p - x.b⟩

def fp2Add (x y : Fp2) (p : Int) : Fp2 := ⟨zpAdd x.a y.a p, zpAdd x.b y.b p⟩

def fp2Sub (x y : Fp2) (p : Int) : Fp2 := ⟨zpSub x.a y.a p, zpSub x.b y.b p⟩

/-- Only the first component is written, the second keeps its `old` value. -/
def fp2SubUi (old : Fp2) (x : Fp2) (n : Nat) (p : Int) : Fp2 := ⟨(x.a - n) % p, old.b⟩

def fp2Sqr (x : Fp2) (p : Int) : Fp2 :=
  ⟨(x.a - x.b) * (x.a + x.b) % p, x.a * x.b * 2 % p⟩

def fp2MulMpz (x : Fp2) (n p : Int) : Fp2 := ⟨zpMul x.a n p, zpMul x.b n p⟩

def fp2Mul (x y : Fp2) (p : Int) : Fp2 :=
  ⟨(x.a * y.a - x.b * y.b) % p, (x.a * y.b + x.b * y.a) % p⟩

def fp2Inv (x : Fp2) (p : Int) : Fp2 :=
  let t := mpzInvert 0 (x.a * x.a + x.b * x.b) p
  ⟨t * x.a % p, -(t * x.b) % p⟩

def fp2Div (x y : Fp2) (p : Int) : Fp2 :=
  let t := mpzInvert 0 (y.a * y.a + y.b * y.b) p
  ⟨t * (x.a * y.a + x.b * y.b) % p, t * (x.b * y.a - x.a * y.b) % p⟩

def windowsize : Nat := 5

/-- Entry `2 i + 1` of the table of odd powers. -/
def oddPower (x : Fp2) (p : Int) : Nat → Fp2
  | 0 => x
  | i + 1 => fp2Mul (oddPower x p i) (fp2Mul x x p) p

def bit (n : Int) (i : Nat) : Int := (mpzTstbit n i).toNat

def fp2Pow (x : Fp2) (n p : Int) : Fp2 :=
  let m := mpzSizeinbase2 n
  windowLoop (bit n) windowsize (fp2Sqr · p)
    (fun j res => fp2Mul res (oddPower x p ((j.toNat - 1) / 2)) p) m m fp2Set1

def fp2Is0 (x : Fp2) : Bool := x.a = 0 && x.b = 0

def fp2Equal (x y : Fp2) : Bool := x.a = y.a && x.b = y.b

@[simp] theorem fp2Equal_iff (x y : Fp2) : fp2Equal x y = true ↔ x = y := by
  simp [fp2Equal, Fp2.ext_iff]

structure Reduced (p : Int) (x : Fp2) : Prop where
  a_nonneg : 0 ≤ x.a
  a_lt : x.a < p
  b_nonneg : 0 ≤ x.b
  b_lt : x.b < p

section Reduced

variable {p : Int} (hp : 0 < p)
include hp

theorem reduced_emod (a b : Int) : Reduced p ⟨a % p, b % p⟩ :=
  ⟨Int.emod_nonneg _ hp.ne', Int.emod_lt_of_pos _ hp, Int.emod_nonneg _ hp.ne',
    Int.emod_lt_of_pos _ hp⟩

theorem reduced_fp2Mul (x y : Fp2) : Reduced p (fp2Mul x y p) := reduced_emod hp _ _

theorem reduced_fp2Sqr (x : Fp2) : Reduced p (fp2Sqr x p) := reduced_emod hp _ _

theorem reduced_fp2MulMpz (x : Fp2) (n : Int) : Reduced p (fp2MulMpz x n p) := reduced_emod hp _ _

theorem reduced_fp2Div (x y : Fp2) : Reduced p (fp2Div x y p) := reduced_emod hp _ _

theorem reduced_fp2Pow (hp1 : 1 < p) (x : Fp2) (n : Int) : Reduced p (fp2Pow x n p) :=
  windowLoop_preserves (fun s _ => reduced_fp2Sqr hp s) (fun _ s _ => reduced_fp2Mul hp s _)
    ⟨zero_le_one, hp1, le_rfl, hp⟩

end Reduced

end IdBasedEncryption.Fp2Arith
