import IdBasedEncryption.Fp2Arith

namespace IdBasedEncryption.Fp2Value

open Gmp SlidingWindow Fp2Arith

/-- The quadratic extension `F_p [sqrt (-1)]`. -/
abbrev K (p : Nat) := QuadraticAlgebra (ZMod p) (-1) 0

def val (p : Nat) (x : Fp2) : K p := ⟨x.a, x.b⟩

section Ring

variable {p : Nat}

@[simp] theorem val_re (x : Fp2) : (val p x).re = x.a := rfl

@[simp] theorem val_im (x : Fp2) : (val p x).im = x.b := rfl

@[simp] theorem cast_zpMul (a b : Int) : (zpMul a b p : ZMod p) = a * b := by
  simp [zpMul]

@[simp] theorem cast_zpAdd (a b : Int) : (zpAdd a b p : ZMod p) = a + b := by
  rw [zpAdd]
  split <;> simp

@[simp] theorem cast_zpSub (a b : Int) : (zpSub a b p : ZMod p) = a - b := by
  rw [zpSub]
  split <;> simp

@[simp] theorem cast_zpNeg_zero (b : Int) : (zpNeg 0 b p : ZMod p) = -b := by
  rw [zpNeg]
  split <;> simp_all

@[simp] theorem val_fp2Set0 : val p fp2Set0 = 0 := by
  ext <;> simp [fp2Set0]

@[simp] theorem val_fp2Set1 : val p fp2Set1 = 1 := by
  ext <;> simp [fp2Set1, QuadraticAlgebra.re_one, QuadraticAlgebra.im_one]

@[simp] theorem val_fp2Neg (x : Fp2) : val p (fp2Neg x p) = -val p x := by
  ext <;> simp [fp2Neg]

@[simp] theorem val_fp2Add (x y : Fp2) : val p (fp2Add x y p) = val p x + val p y := by
  ext <;> simp [fp2Add]

@[simp] theorem val_fp2Sub (x y : Fp2) : val p (fp2Sub x y p) = val p x - val p y := by
  ext <;> simp [fp2Sub]

@[simp] theorem val_fp2Sqr (x : Fp2) : val p (fp2Sqr x p) = val p x ^ 2 := by
  ext
  · simp [fp2Sqr, sq]
    ring
  · simp [fp2Sqr, sq]
    ring

@[simp] theorem val_fp2MulMpz (x : Fp2) (n : Int) :
    val p (fp2MulMpz x n p) = val p x * QuadraticAlgebra.C (n : ZMod p) := by
  ext <;> simp [fp2MulMpz]

@[simp] theorem val_fp2Mul (x y : Fp2) : val p (fp2Mul x y p) = val p x * val p y := by
  ext <;> simp [fp2Mul, sub_eq_add_neg]

theorem eq_of_val_eq {x y : Fp2} (hx : Reduced p x) (hy : Reduced p y) (h : val p x = val p y) :
    x = y := by
  have ha := congrArg QuadraticAlgebra.re h
  have hb := congrArg QuadraticAlgebra.im h
  rw [val_re, val_re, ZMod.intCast_eq_intCast_iff] at ha
  rw [val_im, val_im, ZMod.intCast_eq_intCast_iff] at hb
  rw [Int.ModEq, Int.emod_eq_of_lt hx.a_nonneg hx.a_lt, Int.emod_eq_of_lt hy.a_nonneg hy.a_lt] at ha
  rw [Int.ModEq, Int.emod_eq_of_lt hx.b_nonneg hx.b_lt, Int.emod_eq_of_lt hy.b_nonneg hy.b_lt] at hb
  exact Fp2.ext ha hb

theorem val_oddPower (x : Fp2) (i : Nat) : val p (oddPower x p i) = val p x ^ (2 * i + 1) := by
  induction i with
  | zero => simp [oddPower]
  | succ i ih =>
      rw [oddPower, val_fp2Mul, val_fp2Mul, ih]
      ring

end Ring

theorem bit_natCast (n i : Nat) : bit n i = (n.testBit i).toNat := rfl

theorem digitsValue_bit (n l k : Nat) :
    digitsValue (bit n) l k = ((n >>> l % 2 ^ k : Nat) : Int) := by
  induction k generalizing l with
  | zero => simp [Nat.mod_one]
  | succ k ih =>
      rw [digitsValue, ih, bit_natCast, Nat.toNat_testBit, Nat.shiftRight_succ,
        ← Nat.shiftRight_eq_div_pow, pow_succ', Nat.mod_mul]
      push_cast
      ring

/-- The value of a window of bits is odd, so it has an entry in the table of odd
powers. -/
theorem exists_window_bit {n l m : Nat} (hlm : l ≤ m) (hd : bit n l ≠ 0) :
    ∃ j : Nat, digitsValue (bit n) l (m + 1 - l) = j ∧ 2 * ((j - 1) / 2) + 1 = j := by
  have hodd : digitsValue (bit n) l (m + 1 - l) % 2 = 1 := by
    rw [show m + 1 - l = (m - l) + 1 by omega, digitsValue]
    have h₁ : bit n l = 1 := by
      rw [bit_natCast] at hd ⊢
      have := Bool.toNat_le (n.testBit l)
      omega
    omega
  rw [digitsValue_bit] at hodd ⊢
  exact ⟨_, rfl, by omega⟩

/-- The sliding window raises to the power. -/
theorem val_fp2Pow {p : Nat} (x : Fp2) (n : Nat) : val p (fp2Pow x n p) = val p x ^ n := by
  let Rep : Int → Fp2 → Prop := fun k s => ∃ e : Nat, k = e ∧ val p s = val p x ^ e
  have hn := lt_two_pow_mpzSizeinbase2 n
  have hrep : Rep (digitsValue (bit n) 0 (mpzSizeinbase2 n)) (fp2Pow x n p) := by
    apply windowLoop_rep (by decide) _ _ Rep (mpzSizeinbase2 n) _ le_rfl le_rfl
    · rintro l m s hl ⟨e, he, hs⟩
      obtain ⟨hlm, hm, -, hd, -⟩ := mem_windows (by decide) hl
      obtain ⟨j, hj, hodd⟩ := exists_window_bit hlm hd
      rw [digitsValue_split hlm hm, he, hj]
      refine ⟨j + e, by push_cast; ring, ?_⟩
      rw [val_fp2Mul, val_oddPower, hs, Int.toNat_natCast, hodd, pow_add, mul_comm]
    · exact ⟨0, by simp, by simp⟩
    · rintro r i s - - ⟨e, he, hs⟩
      refine ⟨2 * e, ?_, ?_⟩
      · push_cast
        rw [← he]
        ring
      · rw [val_fp2Sqr, hs, ← pow_mul, mul_comm]
  obtain ⟨e, he, hv⟩ := hrep
  rw [digitsValue_bit, Nat.shiftRight_zero, Nat.mod_eq_of_lt hn] at he
  rw [hv, Int.natCast_inj.1 he]

theorem cast_norm_val {p : Nat} (y : Fp2) :
    ((y.a * y.a + y.b * y.b : Int) : ZMod p) = QuadraticAlgebra.norm (val p y) := by
  rw [QuadraticAlgebra.norm_def]
  push_cast
  simp

section Field

variable {p : Nat} [Fact p.Prime] [hp4 : Fact (p % 4 = 3)]

instance fact_irreducible : Fact (∀ r : ZMod p, r ^ 2 ≠ -1 + 0 * r) := ⟨fun r h => by
  have hs : IsSquare (-1 : ZMod p) := ⟨r, by rw [← sq, h]; ring⟩
  exact ZMod.exists_sq_eq_neg_one_iff.1 hs hp4.out⟩

/-- Division by zero leaves the temporary of `fp2_div` at zero, so the rule
holds without exception. -/
@[simp] theorem val_fp2Div (x y : Fp2) : val p (fp2Div x y p) = val p x / val p y := by
  have ht : ((mpzInvert 0 (y.a * y.a + y.b * y.b) p : Int) : ZMod p) =
      (QuadraticAlgebra.norm (val p y))⁻¹ := by
    rw [cast_mpzInvert_zero, cast_norm_val]
  rw [div_eq_mul_inv]
  ext
  · simp only [fp2Div, val_re, QuadraticAlgebra.re_mul, QuadraticAlgebra.re_inv,
      QuadraticAlgebra.im_inv, val_im, ZMod.intCast_mod, Int.cast_mul, ht]
    simp
    ring
  · simp only [fp2Div, val_im, QuadraticAlgebra.im_mul, QuadraticAlgebra.re_inv,
      QuadraticAlgebra.im_inv, val_re, ZMod.intCast_mod, Int.cast_mul, ht]
    simp
    ring

end Field

end IdBasedEncryption.Fp2Value
