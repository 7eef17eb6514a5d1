import IdBasedEncryption.Fp2Value

namespace IdBasedEncryption.Fp2Cells

open Gmp Fp2Arith Fp2Value

/-- Where a number is stored: in a component of an element, or on its own. -/
inductive Cell (ν μ : Type) where
  | a (x : ν)
  | b (x : ν)
  | z (i : μ)
  deriving DecidableEq

variable {ν μ : Type} [DecidableEq ν] [DecidableEq μ]

abbrev Memory (ν μ : Type) := Cell ν μ → Int

def element (m : Memory ν μ) (x : ν) : Fp2 := ⟨m (.a x), m (.b x)⟩

def setElement (m : Memory ν μ) (x : ν) (v : Fp2) : Memory ν μ :=
  Function.update (Function.update m (.a x) v.a) (.b x) v.b

section Steps

open Function

-- Each step reads the cells as the steps before it left them.

def zpMulAt (x a b : Cell ν μ) (p : Int) (m : Memory ν μ) : Memory ν μ :=
  let m := update m x (m a * m b)
  update m x (m x % p)

def zpAddAt (x a b : Cell ν μ) (p : Int) (m : Memory ν μ) : Memory ν μ :=
  let m := update m x (m a + m b)
  if m x ≥ p then update m x (m x - p) else m

def zpNegAt (x b : Cell ν μ) (p : Int) (m : Memory ν μ) : Memory ν μ :=
  if m b ≠ 0 then update m x (p - m b) else m

def zpSubAt (x a b : Cell ν μ) (p : Int) (m : Memory ν μ) : Memory ν μ :=
  if m a ≥ m b then update m x (m a - m b)
  else
    let m := update m x (m a - m b)
    update m x (m x + p)

def fp2NegAt (x y : ν) (p : Int) (m : Memory ν μ) : Memory ν μ :=
  let m := update m (.a x) (p - m (.a y))
  update m (.b x) (p - m (.b y))

def fp2AddAt (x y z : ν) (p : Int) (m : Memory ν μ) : Memory ν μ :=
  let m := zpAddAt (.a x) (.a y) (.a z) p m
  zpAddAt (.b x) (.b y) (.b z) p m

def fp2SubAt (x y z : ν) (p : Int) (m : Memory ν μ) : Memory ν μ :=
  let m := zpSubAt (.a x) (.a y) (.a z) p m
  zpSubAt (.b x) (.b y) (.b z) p m

def fp2SubUiAt (x y : ν) (n : Nat) (p : Int) (m : Memory ν μ) : Memory ν μ :=
  let m := update m (.a x) (m (.a y) - n)
  update m (.a x) (m (.a x) % p)

def fp2SqrAt (x y : ν) (p : Int) (m : Memory ν μ) : Memory ν μ :=
  let t0 := m (.a y) - m (.b y)
  let t1 := m (.a y) + m (.b y)
  let t0 := t0 * t1
  let t1 := m (.a y) * m (.b y)
  let m := update m (.b x) (t1 * 2)
  let m := update m (.b x) (m (.b x) % p)
  update m (.a x) (t0 % p)

def fp2MulMpzAt (x y : ν) (c : Cell ν μ) (p : Int) (m : Memory ν μ) : Memory ν μ :=
  let m := zpMulAt (.a x) (.a y) c p m
  zpMulAt (.b x) (.b y) c p m

def fp2MulAt (x y z : ν) (p : Int) (m : Memory ν μ) : Memory ν μ :=
  let t0 := m (.a y) * m (.a z)
  let t1 := m (.b y) * m (.b z)
  let t0 := t0 - t1
  let t1 := m (.a y) * m (.b z)
  let t2 := m (.b y) * m (.a z)
  let m := update m (.b x) (t1 + t2)
  let m := update m (.b x) (m (.b x) % p)
  update m (.a x) (t0 % p)

def fp2InvAt (x y : ν) (p : Int) (m : Memory ν μ) : Memory ν μ :=
  let t0 := m (.a y) * m (.a y)
  let t1 := m (.b y) * m (.b y)
  let t0 := t0 + t1
  let t1 := mpzInvert 0 t0 p
  let t0 := t1 * m (.b y)
  let m := update m (.b x) (-t0)
  let m := update m (.b x) (m (.b x) % p)
  let m := update m (.a x) (t1 * m (.a y))
  update m (.a x) (m (.a x) % p)

def fp2DivAt (x y z : ν) (p : Int) (m : Memory ν μ) : Memory ν μ :=
  let t0 := m (.a z) * m (.a z)
  let t1 := m (.b z) * m (.b z)
  let t0 := t0 + t1
  let t1 := mpzInvert 0 t0 p
  let t0 := m (.a y) * m (.a z)
  let t2 := m (.b y) * m (.b z)
  let t0 := t0 + t2
  let t2 := m (.b y) * m (.a z)
  let t3 := m (.a y) * m (.b z)
  let t2 := t2 - t3
  let m := update m (.b x) (t1 * t2)
  let m := update m (.b x) (m (.b x) % p)
  let m := update m (.a x) (t1 * t0)
  update m (.a x) (m (.a x) % p)

end Steps

section Values

-- Whatever the pointers are, the destination receives what distinct cells lead to.

variable (m : Memory ν μ) (p : Int)

theorem zpMulAt_eq (x a b : Cell ν μ) :
    zpMulAt x a b p m = Function.update m x (zpMul (m a) (m b) p) := by
  simp [zpMulAt, zpMul]

theorem zpAddAt_eq (x a b : Cell ν μ) :
    zpAddAt x a b p m = Function.update m x (zpAdd (m a) (m b) p) := by
  simp only [zpAddAt, zpAdd, Function.update_self, Function.update_idem]
  split <;> rfl

theorem zpNegAt_eq (x b : Cell ν μ) :
    zpNegAt x b p m = Function.update m x (zpNeg (m x) (m b) p) := by
  rw [zpNegAt, zpNeg]
  by_cases h : m b = 0
  · rw [if_neg (not_not.2 h), if_pos h, Function.update_eq_self]
  · rw [if_pos h, if_neg h]

theorem zpSubAt_eq (x a b : Cell ν μ) :
    zpSubAt x a b p m = Function.update m x (zpSub (m a) (m b) p) := by
  rw [zpSubAt, zpSub]
  split
  · rfl
  · simp

variable (x y z : ν)

theorem fp2NegAt_eq : fp2NegAt x y p m = setElement m x (fp2Neg (element m y) p) := by
  simp [fp2NegAt, setElement, fp2Neg, element]

theorem fp2AddAt_eq :
    fp2AddAt x y z p m = setElement m x (fp2Add (element m y) (element m z) p) := by
  simp [fp2AddAt, zpAddAt_eq, setElement, fp2Add, element]

theorem fp2SubAt_eq :
    fp2SubAt x y z p m = setElement m x (fp2Sub (element m y) (element m z) p) := by
  simp [fp2SubAt, zpSubAt_eq, setElement, fp2Sub, element]

theorem fp2SubUiAt_eq (n : Nat) :
    fp2SubUiAt x y n p m = setElement m x (fp2SubUi (element m x) (element m y) n p) := by
  simp [fp2SubUiAt, setElement, fp2SubUi, element]

theorem fp2SqrAt_eq : fp2SqrAt x y p m = setElement m x (fp2Sqr (element m y) p) := by
  simp [fp2SqrAt, setElement, fp2Sqr, element, Function.update_comm]

/-- The factor is read again after the first component has been written. -/
theorem fp2MulMpzAt_eq (c : Cell ν μ) :
    fp2MulMpzAt x y c p m = setElement m x ⟨zpMul (m (.a y)) (m c) p,
      zpMul (m (.b y)) (if c = .a x then zpMul (m (.a y)) (m c) p else m c) p⟩ := by
  simp [fp2MulMpzAt, zpMulAt_eq, setElement, Function.update_apply]

theorem fp2MulAt_eq :
    fp2MulAt x y z p m = setElement m x (fp2Mul (element m y) (element m z) p) := by
  simp [fp2MulAt, setElement, fp2Mul, element, Function.update_comm]

theorem fp2InvAt_eq : fp2InvAt x y p m = setElement m x (fp2Inv (element m y) p) := by
  simp [fp2InvAt, setElement, fp2Inv, element, Function.update_comm]

theorem fp2DivAt_eq :
    fp2DivAt x y z p m = setElement m x (fp2Div (element m y) (element m z) p) := by
  simp [fp2DivAt, setElement, fp2Div, element, Function.update_comm]

end Values

section Operations

/-- The operations with their pointers, the destination first. -/
inductive Op (ν μ : Type) where
  | zpAdd (x a b : Cell ν μ)
  | zpSub (x a b : Cell ν μ)
  | zpNeg (x b : Cell ν μ)
  | zpMul (x a b : Cell ν μ)
  | fp2Add (x y z : ν)
  | fp2Sub (x y z : ν)
  | fp2Neg (x y : ν)
  | fp2SubUi (x y : ν) (n : Nat)
  | fp2Mul (x y z : ν)
  | fp2MulMpz (x y : ν) (c : Cell ν μ)
  | fp2Sqr (x y : ν)
  | fp2Inv (x y : ν)
  | fp2Div (x y z : ν)

def Op.run (p : Int) (m : Memory ν μ) : Op ν μ → Memory ν μ
  | zpAdd x a b => zpAddAt x a b p m
  | zpSub x a b => zpSubAt x a b p m
  | zpNeg x b => zpNegAt x b p m
  | zpMul x a b => zpMulAt x a b p m
  | fp2Add x y z => fp2AddAt x y z p m
  | fp2Sub x y z => fp2SubAt x y z p m
  | fp2Neg x y => fp2NegAt x y p m
  | fp2SubUi x y n => fp2SubUiAt x y n p m
  | fp2Mul x y z => fp2MulAt x y z p m
  | fp2MulMpz x y c => fp2MulMpzAt x y c p m
  | fp2Sqr x y => fp2SqrAt x y p m
  | fp2Inv x y => fp2InvAt x y p m
  | fp2Div x y z => fp2DivAt x y z p m

/-- `n` is the representative of `w`. -/
structure IsResidue (p : Nat) (n : Int) (w : ZMod p) : Prop where
  nonneg : 0 ≤ n
  lt : n < p
  cast_eq : n = w

/-- `x` is the representative of `w`. -/
structure IsElement (p : Nat) (x : Fp2) (w : K p) : Prop where
  reduced : Reduced p x
  val_eq : val p x = w

/-- The operands are representatives, and a divisor is not zero. -/
def Op.Operands (p : Nat) (m : Memory ν μ) : Op ν μ → Prop
  | zpAdd _ a b | zpSub _ a b | zpMul _ a b => (0 ≤ m a ∧ m a < p) ∧ 0 ≤ m b ∧ m b < p
  | zpNeg _ b => 0 ≤ m b ∧ m b < p
  | fp2Add _ y z | fp2Sub _ y z | fp2Mul _ y z => Reduced p (element m y) ∧ Reduced p (element m z)
  | fp2Neg _ y | fp2SubUi _ y _ | fp2Sqr _ y => Reduced p (element m y)
  | fp2MulMpz _ y c => Reduced p (element m y) ∧ 0 ≤ m c ∧ m c < p
  | fp2Inv _ y => Reduced p (element m y) ∧ element m y ≠ fp2Set0
  | fp2Div _ y z => Reduced p (element m y) ∧ Reduced p (element m z) ∧ element m z ≠ fp2Set0

/-- What an operation is to leave in its destination, given the memory `m'`
after it. -/
def Op.Delivers (p : Nat) [Fact p.Prime] [Fact (p % 4 = 3)] (m m' : Memory ν μ) : Op ν μ → Prop
  | zpAdd x a b => IsResidue p (m' x) (m a + m b)
  | zpSub x a b => IsResidue p (m' x) (m a - m b)
  | zpNeg x b => IsResidue p (m' x) (-m b)
  | zpMul x a b => IsResidue p (m' x) (m a * m b)
  | fp2Add x y z => IsElement p (element m' x) (val p (element m y) + val p (element m z))
  | fp2Sub x y z => IsElement p (element m' x) (val p (element m y) - val p (element m z))
  | fp2Neg x y => IsElement p (element m' x) (-val p (element m y))
  | fp2SubUi x y n => IsElement p (element m' x) (val p (element m y) - n)
  | fp2Mul x y z => IsElement p (element m' x) (val p (element m y) * val p (element m z))
  | fp2MulMpz x y c => IsElement p (element m' x) (val p (element m y) * (m c : K p))
  | fp2Sqr x y => IsElement p (element m' x) (val p (element m y) ^ 2)
  | fp2Inv x y => IsElement p (element m' x) (val p (element m y))⁻¹
  | fp2Div x y z => IsElement p (element m' x) (val p (element m y) / val p (element m z))

/-- What an operation needs of its operands and of the old destination. -/
def Op.Fits (m : Memory ν μ) : Op ν μ → Prop
  | zpNeg x b => m b = 0 → m x = 0
  | fp2Neg _ y => m (.a y) ≠ 0 ∧ m (.b y) ≠ 0
  | fp2SubUi x y _ => m (.b x) = m (.b y)
  | fp2MulMpz x y c => c = .a x → m (.a y) = 1 ∨ m (.b y) = 0 ∨ m c = 0
  | _ => True

@[simp] theorem element_setElement (m : Memory ν μ) (x : ν) (v : Fp2) :
    element (setElement m x v) x = v := by
  simp [element, setElement]

end Operations

section Residues

variable {p : Nat} [hp : Fact p.Prime] {a b : Int}

theorem cast_pos : (0 : Int) < p := by exact_mod_cast hp.out.pos

theorem isResidue_emod {n : Int} {w : ZMod p} (h : (n : ZMod p) = w) : IsResidue p (n % p) w :=
  ⟨Int.emod_nonneg _ cast_pos.ne', Int.emod_lt_of_pos _ cast_pos, by rw [ZMod.intCast_mod, h]⟩

theorem isResidue_zpAdd (ha : 0 ≤ a ∧ a < p) (hb : 0 ≤ b ∧ b < p) :
    IsResidue p (zpAdd a b p) (a + b) := by
  refine ⟨?_, ?_, cast_zpAdd a b⟩
  · rw [zpAdd]
    split <;> omega
  · rw [zpAdd]
    split <;> omega

theorem isResidue_zpSub (ha : 0 ≤ a ∧ a < p) (hb : 0 ≤ b ∧ b < p) :
    IsResidue p (zpSub a b p) (a - b) := by
  refine ⟨?_, ?_, cast_zpSub a b⟩
  · rw [zpSub]
    split <;> omega
  · rw [zpSub]
    split <;> omega

theorem IsResidue.eq {n : Int} {w : ZMod p} (hn : IsResidue p n w) (ha : 0 ≤ a ∧ a < p)
    (haw : (a : ZMod p) = w) : n = a := by
  have h : (n : ZMod p) = a := hn.cast_eq.trans haw.symm
  rw [ZMod.intCast_eq_intCast_iff, Int.ModEq, Int.emod_eq_of_lt hn.nonneg hn.lt,
    Int.emod_eq_of_lt ha.1 ha.2] at h
  exact h

omit hp in
theorem isElement_iff {x : Fp2} {w : K p} :
    IsElement p x w ↔ IsResidue p x.a w.re ∧ IsResidue p x.b w.im := by
  constructor
  · rintro ⟨h, rfl⟩
    exact ⟨⟨h.a_nonneg, h.a_lt, rfl⟩, ⟨h.b_nonneg, h.b_lt, rfl⟩⟩
  · rintro ⟨ha, hb⟩
    exact ⟨⟨ha.nonneg, ha.lt, hb.nonneg, hb.lt⟩, QuadraticAlgebra.ext ha.cast_eq hb.cast_eq⟩

/-- Zero is left as it is, so the destination has to hold it already. -/
theorem isResidue_zpNeg_iff {old : Int} (hb : 0 ≤ b ∧ b < p) :
    IsResidue p (zpNeg old b p) (-b) ↔ (b = 0 → old = 0) := by
  rw [zpNeg]
  by_cases h : b = 0
  · rw [if_pos h]
    subst h
    constructor
    · intro hn _
      exact hn.eq ⟨le_rfl, cast_pos⟩ (by simp)
    · intro hold
      rw [hold rfl]
      exact ⟨le_rfl, cast_pos, by simp⟩
  · rw [if_neg h]
    refine iff_of_true ⟨by omega, by omega, by simp⟩ fun h0 => absurd h0 h

/-- The modulus itself comes out for a component that is zero. -/
theorem isElement_fp2Neg_iff {x : Fp2} (hx : Reduced p x) :
    IsElement p (fp2Neg x p) (-val p x) ↔ x.a ≠ 0 ∧ x.b ≠ 0 := by
  constructor
  · intro h
    have ha := h.reduced.a_lt
    have hb := h.reduced.b_lt
    simp only [fp2Neg] at ha hb
    omega
  · rintro ⟨ha, hb⟩
    refine ⟨?_, val_fp2Neg x⟩
    obtain ⟨h1, h2, h3, h4⟩ := hx
    constructor <;> simp only [fp2Neg] <;> omega

theorem isElement_fp2SubUi_iff {old x : Fp2} (hx : Reduced p x) (n : Nat) :
    IsElement p (fp2SubUi old x n p) (val p x - n) ↔ old.b = x.b := by
  have hre : (val p x - n : K p).re = ((x.a - n : Int) : ZMod p) := by simp
  have him : (val p x - n : K p).im = x.b := by simp
  have ha : IsResidue p (fp2SubUi old x n p).a ((x.a - n : Int) : ZMod p) := isResidue_emod rfl
  rw [isElement_iff, hre, him, and_iff_right ha]
  constructor
  · exact fun h => h.eq ⟨hx.b_nonneg, hx.b_lt⟩ rfl
  · intro h
    rw [fp2SubUi, h]
    exact ⟨hx.b_nonneg, hx.b_lt, rfl⟩

/-- A factor that is the destination's first component has been overwritten by
the time it is read again. -/
theorem isElement_mulMpz_iff {x : Fp2} (hx : Reduced p x) {c : Int} (hc : 0 ≤ c ∧ c < p)
    (overwritten : Prop) [Decidable overwritten] :
    IsElement p ⟨zpMul x.a c p, zpMul x.b (if overwritten then zpMul x.a c p else c) p⟩
        (val p x * (c : K p)) ↔ (overwritten → x.a = 1 ∨ x.b = 0 ∨ c = 0) := by
  have hre : (val p x * (c : K p)).re = (x.a * c : Int) := by simp
  have him : (val p x * (c : K p)).im = (x.b * c : Int) := by simp
  have ha : IsResidue p (zpMul x.a c p) ((x.a * c : Int) : ZMod p) := isResidue_emod rfl
  have hb (n : Int) : IsResidue p (zpMul x.b n p) ((x.b * c : Int) : ZMod p) ↔
      (x.b * n : ZMod p) = x.b * c := by
    constructor
    · intro h
      simpa using h.cast_eq
    · intro h
      exact isResidue_emod (by simpa using h)
  rw [isElement_iff, hre, him, and_iff_right ha, hb]
  by_cases ho : overwritten
  · rw [if_pos ho, cast_zpMul]
    have hzero {n : Int} (hn : 0 ≤ n ∧ n < p) : (n : ZMod p) = 0 ↔ n = 0 := by
      constructor
      · intro h
        exact IsResidue.eq ⟨hn.1, hn.2, h⟩ ⟨le_rfl, cast_pos⟩ (by simp)
      · rintro rfl
        simp
    have hone : (x.a : ZMod p) = 1 ↔ x.a = 1 := by
      constructor
      · intro h
        have hp1 := hp.out.one_lt
        exact IsResidue.eq ⟨hx.a_nonneg, hx.a_lt, h⟩ ⟨zero_le_one, by omega⟩ (by simp)
      · intro h
        rw [h, Int.cast_one]
    have hfactor : (x.b * (x.a * c) : ZMod p) = x.b * c ↔ (x.a - 1 : ZMod p) * (x.b * c) = 0 := by
      rw [← sub_eq_zero]
      ring_nf
    rw [hfactor, mul_eq_zero, mul_eq_zero, sub_eq_zero, hone, hzero ⟨hx.b_nonneg, hx.b_lt⟩, hzero hc]
    exact ⟨fun h _ => h, fun h => h ho⟩
  · rw [if_neg ho]
    exact iff_of_true rfl fun h => absurd h ho

theorem fp2Inv_eq (x : Fp2) (p : Int) : fp2Inv x p = fp2Div fp2Set1 x p := by
  simp [fp2Inv, fp2Div, fp2Set1]

end Residues

section Main

variable {p : Nat} [hp : Fact p.Prime] [hp4 : Fact (p % 4 = 3)]

/-- Every operation leaves the representative of its result, whatever the
pointers are, exactly when operands and old destination fit. -/
theorem delivers_iff (op : Op ν μ) (m : Memory ν μ) (h : op.Operands p m) :
    op.Delivers p m (op.run p m) ↔ op.Fits m := by
  cases op with
  | zpAdd x a b =>
      simp only [Op.Delivers, Op.run, Op.Fits, zpAddAt_eq, Function.update_self, iff_true]
      exact isResidue_zpAdd h.1 h.2
  | zpSub x a b =>
      simp only [Op.Delivers, Op.run, Op.Fits, zpSubAt_eq, Function.update_self, iff_true]
      exact isResidue_zpSub h.1 h.2
  | zpNeg x b =>
      simp only [Op.Delivers, Op.run, Op.Fits, zpNegAt_eq, Function.update_self]
      exact isResidue_zpNeg_iff h
  | zpMul x a b =>
      simp only [Op.Delivers, Op.run, Op.Fits, zpMulAt_eq, Function.update_self, iff_true]
      exact isResidue_emod (Int.cast_mul ..)
  | fp2Add x y z =>
      simp only [Op.Delivers, Op.run, Op.Fits, fp2AddAt_eq, element_setElement, iff_true]
      obtain ⟨⟨h1, h2, h3, h4⟩, h5, h6, h7, h8⟩ := h
      exact isElement_iff.2 ⟨isResidue_zpAdd ⟨h1, h2⟩ ⟨h5, h6⟩, isResidue_zpAdd ⟨h3, h4⟩ ⟨h7, h8⟩⟩
  | fp2Sub x y z =>
      simp only [Op.Delivers, Op.run, Op.Fits, fp2SubAt_eq, element_setElement, iff_true]
      obtain ⟨⟨h1, h2, h3, h4⟩, h5, h6, h7, h8⟩ := h
      exact isElement_iff.2 ⟨isResidue_zpSub ⟨h1, h2⟩ ⟨h5, h6⟩, isResidue_zpSub ⟨h3, h4⟩ ⟨h7, h8⟩⟩
  | fp2Neg x y =>
      simp only [Op.Delivers, Op.run, Op.Fits, fp2NegAt_eq, element_setElement]
      exact isElement_fp2Neg_iff h
  | fp2SubUi x y n =>
      simp only [Op.Delivers, Op.run, Op.Fits, fp2SubUiAt_eq, element_setElement]
      exact isElement_fp2SubUi_iff h n
  | fp2Mul x y z =>
      simp only [Op.Delivers, Op.run, Op.Fits, fp2MulAt_eq, element_setElement, iff_true]
      exact ⟨reduced_fp2Mul cast_pos _ _, val_fp2Mul ..⟩
  | fp2MulMpz x y c =>
      simp only [Op.Delivers, Op.run, Op.Fits, fp2MulMpzAt_eq, element_setElement]
      exact isElement_mulMpz_iff h.1 h.2 (c = .a x)
  | fp2Sqr x y =>
      simp only [Op.Delivers, Op.run, Op.Fits, fp2SqrAt_eq, element_setElement, iff_true]
      exact ⟨reduced_fp2Sqr cast_pos _, val_fp2Sqr ..⟩
  | fp2Inv x y =>
      simp only [Op.Delivers, Op.run, Op.Fits, fp2InvAt_eq, element_setElement, iff_true]
      refine ⟨reduced_emod cast_pos _ _, ?_⟩
      rw [fp2Inv_eq, val_fp2Div, val_fp2Set1, one_div]
  | fp2Div x y z =>
      simp only [Op.Delivers, Op.run, Op.Fits, fp2DivAt_eq, element_setElement, iff_true]
      exact ⟨reduced_fp2Div cast_pos _ _, val_fp2Div ..⟩

end Main

section Example

instance fact_prime_7 : Fact (Nat.Prime 7) := ⟨by norm_num⟩

instance fact_mod_7 : Fact (7 % 4 = 3) := ⟨rfl⟩

/-- An element is squared in place through `fp2_mul`. -/
theorem delivers_mul_in_place :
    (Op.fp2Mul () () () : Op Unit Unit).Delivers 7 (fun _ => 3)
      ((Op.fp2Mul () () () : Op Unit Unit).run 7 fun _ => 3) :=
  (delivers_iff (p := 7) (Op.fp2Mul () () () : Op Unit Unit) (fun _ => 3)
    ⟨by constructor <;> decide, by constructor <;> decide⟩).2 trivial

/-- The negative of zero is not represented by zero. -/
theorem not_delivers_neg_zero :
    (Op.fp2Neg false true : Op Bool Unit).Operands 7 (fun _ => 0) ∧
      ¬(Op.fp2Neg false true : Op Bool Unit).Delivers 7 (fun _ => 0)
        ((Op.fp2Neg false true : Op Bool Unit).run 7 fun _ => 0) := by
  have h0 : Reduced 7 (element (fun _ => 0 : Memory Bool Unit) true) := by constructor <;> decide
  refine ⟨h0, ?_⟩
  simp only [Op.Delivers, Op.run, fp2NegAt_eq, element_setElement]
  intro h
  exact ((isElement_fp2Neg_iff (p := 7) h0).1 h).1 rfl

end Example

end IdBasedEncryption.Fp2Cells
