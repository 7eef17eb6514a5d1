import IdBasedEncryption.Fp2Cells

namespace IdBasedEncryption.PowerCells

open Gmp Fp2Arith Fp2Value Fp2Cells SlidingWindow

variable {ν μ : Type} [DecidableEq ν] [DecidableEq μ]

/-- Which entry of the table was read, and whether it had been written before. -/
structure TableRead where
  entry : Nat
  initialised : Bool
  deriving DecidableEq

/-- The memory of the caller next to the table `g` of `fp2_pow`. -/
structure Frame (ν μ : Type) where
  m : Memory (ν ⊕ Nat) μ
  inits : List Nat
  tableReads : List TableRead
  reads : List TableRead

/-- The table behind the memory of the caller, before anything is written to it. -/
def extend (m : Memory ν μ) : Memory (ν ⊕ Nat) μ
  | .a (.inl x) => m (.a x)
  | .b (.inl x) => m (.b x)
  | .z i => m (.z i)
  | .a (.inr _) => 0
  | .b (.inr _) => 0

def outer (m : Memory (ν ⊕ Nat) μ) : Memory ν μ
  | .a x => m (.a (.inl x))
  | .b x => m (.b (.inl x))
  | .z i => m (.z i)

section Steps

def windowsizepower : Nat := 15

def Frame.read (f : Frame ν μ) (j : Nat) : TableRead := ⟨j, j ∈ f.inits⟩

/-- `fp2_mul (g[j], g[j - 2], g[2])` on a new entry. -/
def tableEntry (p : Int) (f : Frame ν μ) (i : Nat) : Frame ν μ :=
  let j := 2 * i + 1
  let f := { f with inits := j :: f.inits }
  { f with
    m := fp2MulAt (.inr j) (.inr (j - 2)) (.inr 2) p f.m
    tableReads := f.read (j - 2) :: f.read 2 :: f.tableReads }

def fp2PowTable (x : ν) (p : Int) (m : Memory ν μ) : Frame ν μ :=
  let m := extend m
  let m := setElement m (.inr 1) (element m (.inl x))
  let m := fp2MulAt (.inr 2) (.inl x) (.inl x) p m
  (List.range' 1 windowsizepower).foldl (tableEntry p) ⟨m, [2, 1], [], []⟩

/-- The squaring that is written out in the loop. -/
def square (res : ν) (p : Int) (f : Frame ν μ) : Frame ν μ :=
  { f with m := fp2SqrAt (.inl res) (.inl res) p f.m }

def mulEntry (res : ν) (p : Int) (j : Nat) (f : Frame ν μ) : Frame ν μ :=
  { f with
    m := fp2MulAt (.inl res) (.inl res) (.inr j) p f.m
    reads := f.read j :: f.reads }

/-- The first set bit from `l` upwards. -/
def mpzScan1 (n : Int) (l : Nat) : Nat := scanNonzero (bit n) l (mpzSizeinbase2 n - l)

/-- One round of the loop inside a window. -/
def windowRound (res : ν) (n p : Int) (s : Nat × Frame ν μ) (k : Nat) : Nat × Frame ν μ :=
  (if mpzTstbit n k then 2 * s.1 + 1 else 2 * s.1, square res p s.2)

/-- The window from position `m` down to `l`. -/
def window (res : ν) (n p : Int) (m l : Nat) (f : Frame ν μ) : Nat × Frame ν μ :=
  (List.range' l (m - l)).reverse.foldl (windowRound res n p) (1, square res p f)

/-- The loop from position `m - 1` down. -/
def powLoop (res : ν) (n p : Int) : Nat → Nat → Frame ν μ → Frame ν μ
  | 0, _, f => f
  | _ + 1, 0, f => f
  | fuel + 1, m + 1, f =>
      if mpzTstbit n m = false then powLoop res n p fuel m (square res p f)
      else
        let l := mpzScan1 n (m + 1 - windowsize)
        let w := window res n p m l f
        powLoop res n p fuel l (mulEntry res p w.1 w.2)

/-- `fp2_pow` on the memory of the caller, where `res` and `x` may be the same. -/
def fp2PowAt (res x : ν) (n p : Int) (m : Memory ν μ) : Frame ν μ :=
  let f := fp2PowTable x p m
  let f := { f with m := setElement f.m (.inl res) fp2Set1 }
  powLoop res n p (mpzSizeinbase2 n) (mpzSizeinbase2 n) f

end Steps

section Windows

variable (res : ν) (n : Nat) (p : Int)

theorem windowRound_natCast (s : Nat × Frame ν μ) (k : Nat) :
    windowRound res n p s k = (2 * s.1 + (n.testBit k).toNat, square res p s.2) := by
  rw [windowRound, mpzTstbit_natCast]
  cases n.testBit k <;> rfl

theorem foldl_windowRound (l k : Nat) (j : Nat) (f : Frame ν μ) :
    ((((List.range' l k).reverse.foldl (windowRound res n p) (j, f)).1 : Nat) : Int) =
        2 ^ k * j + digitsValue (bit n) l k ∧
      ((List.range' l k).reverse.foldl (windowRound res n p) (j, f)).2 = (square res p)^[k] f := by
  induction k generalizing l with
  | zero => simp
  | succ k ih =>
      obtain ⟨hj, hf⟩ := ih (l + 1)
      rw [List.range'_succ, List.reverse_cons, List.foldl_append, List.foldl_cons, List.foldl_nil,
        windowRound_natCast]
      refine ⟨?_, ?_⟩
      · push_cast
        rw [hj, digitsValue, bit_natCast]
        ring
      · rw [hf, Function.iterate_succ_apply']

theorem window_spec {m l : Nat} (hl : l ≤ m) (hm : bit n m = 1) (f : Frame ν μ) :
    (((window res n p m l f).1 : Nat) : Int) = digitsValue (bit n) l (m + 1 - l) ∧
      (window res n p m l f).2 = (square res p)^[m + 1 - l] f := by
  obtain ⟨hj, hf⟩ := foldl_windowRound res n p l (m - l) 1 (square res p f)
  refine ⟨?_, ?_⟩
  · rw [window, hj, show m + 1 - l = (m - l) + 1 by omega, digitsValue_append, digitsValue_one,
      show l + (m - l) = m by omega, hm]
    push_cast
    ring
  · rw [window, hf, show m + 1 - l = (m - l) + 1 by omega, Function.iterate_succ_apply]

theorem bit_eq_one {n m : Nat} (h : mpzTstbit n m ≠ false) : bit n m = 1 := by
  rw [bit, Bool.eq_true_of_not_eq_false h]
  rfl

theorem mpzScan1_eq {m : Nat} (hm : m < mpzSizeinbase2 n) (h : bit n m ≠ 0) :
    mpzScan1 n (m + 1 - windowsize) = windowStart (bit n) windowsize m := by
  apply scanNonzero_eq
  · omega
  · rwa [show m + 1 - windowsize + (m - (m + 1 - windowsize)) = m by
      simp only [windowsize]; omega]

/-- The loop goes through the windows of the bits. -/
theorem powLoop_eq {fuel r : Nat} (hr : r ≤ mpzSizeinbase2 n) (f : Frame ν μ) :
    powLoop res n p fuel r f = windowLoop (bit n) windowsize (square res p)
      (fun j => mulEntry res p j.toNat) fuel r f := by
  induction fuel generalizing r f with
  | zero => rfl
  | succ fuel ih =>
      cases r with
      | zero => rfl
      | succ m =>
          by_cases hbit : mpzTstbit n m = false
          · have hzero : bit n m = 0 := by rw [bit, hbit]; rfl
            rw [powLoop, if_pos hbit, windowLoop, if_pos hzero, ih (by omega)]
          · have hone := bit_eq_one hbit
            have hne : bit n m ≠ 0 := by rw [hone]; exact one_ne_zero
            have hle : windowStart (bit n) windowsize m ≤ m := windowStart_le (by decide) m
            obtain ⟨hj, hf⟩ := window_spec res n p hle hone f
            rw [powLoop, if_neg hbit, windowLoop, if_neg hne]
            simp only [mpzScan1_eq n hr hne]
            rw [ih (by omega), hf, ← hj, Int.toNat_natCast]

end Windows

section Table

variable (x : ν) (p : Int) (m : Memory ν μ)

omit [DecidableEq ν] [DecidableEq μ] in
@[simp] theorem element_extend (x : ν) : element (extend m) (.inl x) = element m x := rfl

omit [DecidableEq ν] [DecidableEq μ] in
@[simp] theorem outer_extend : outer (extend m) = m := by
  funext c
  cases c <;> rfl

@[simp] theorem outer_setElement_inr (m : Memory (ν ⊕ Nat) μ) (j : Nat) (v : Fp2) :
    outer (setElement m (.inr j) v) = outer m := by
  funext c
  cases c <;> simp [outer, setElement]

@[simp] theorem outer_setElement_inl (m : Memory (ν ⊕ Nat) μ) (x : ν) (v : Fp2) :
    outer (setElement m (.inl x) v) = setElement (outer m) x v := by
  funext c
  cases c <;> simp [outer, setElement, Function.update_apply]

theorem element_setElement_of_ne {m : Memory (ν ⊕ Nat) μ} {x y : ν ⊕ Nat} (h : x ≠ y) (v : Fp2) :
    element (setElement m y v) x = element m x := by
  simp [element, setElement, h]

/-- The first `k` entries behind `g[1]` are there. -/
structure Filled (x : Fp2) (p : Int) (k : Nat) (f : Frame ν μ) : Prop where
  entry : ∀ i ≤ k, element f.m (.inr (2 * i + 1)) = oddPower x p i
  square : element f.m (.inr 2) = fp2Mul x x p
  inits : 2 ∈ f.inits ∧ ∀ i ≤ k, 2 * i + 1 ∈ f.inits
  tableReads : ∀ r ∈ f.tableReads, r.initialised = true

theorem Filled.tableEntry {x : Fp2} {p : Int} {k : Nat} {f : Frame ν μ} (h : Filled x p k f) :
    Filled x p (k + 1) (tableEntry p f (k + 1)) := by
  have hindex : 2 * (k + 1) + 1 - 2 = 2 * k + 1 := by omega
  have hprev := h.entry k le_rfl
  refine ⟨fun i hi => ?_, ?_, ⟨?_, fun i hi => ?_⟩, fun r hr => ?_⟩
  · simp only [PowerCells.tableEntry, fp2MulAt_eq, hindex, hprev, h.square]
    rcases Nat.of_le_succ hi with hi | rfl
    · rw [element_setElement_of_ne (by simp; omega), h.entry i hi]
    · rw [element_setElement]
      rfl
  · simp only [PowerCells.tableEntry, fp2MulAt_eq]
    rw [element_setElement_of_ne (by simp), h.square]
  · exact List.mem_cons_of_mem _ h.inits.1
  · rcases Nat.of_le_succ hi with hi | rfl
    · exact List.mem_cons_of_mem _ (h.inits.2 i hi)
    · exact List.mem_cons_self
  · simp only [PowerCells.tableEntry, hindex, List.mem_cons] at hr
    rcases hr with rfl | rfl | hr
    · simp [Frame.read, h.inits.2 k le_rfl]
    · simp [Frame.read, h.inits.1]
    · exact h.tableReads r hr

theorem filled_foldl (f : Frame ν μ) {x : Fp2} {p : Int} (h : Filled x p 0 f) (k : Nat) :
    Filled x p k ((List.range' 1 k).foldl (tableEntry p) f) := by
  induction k with
  | zero => exact h
  | succ k ih =>
      have hlast : List.range' 1 (k + 1) = List.range' 1 k ++ [k + 1] := by
        rw [List.range'_concat, Nat.one_mul, Nat.add_comm 1 k]
      rw [hlast, List.foldl_append]
      exact ih.tableEntry

/-- Building the table writes nothing to the memory of the caller. -/
theorem outer_foldl (f : Frame ν μ) (is : List Nat) :
    outer (is.foldl (tableEntry p) f).m = outer f.m ∧
      (is.foldl (tableEntry p) f).reads = f.reads := by
  induction is generalizing f with
  | nil => exact ⟨rfl, rfl⟩
  | cons i is ih =>
      obtain ⟨houter, hreads⟩ := ih (tableEntry p f i)
      refine ⟨houter.trans ?_, hreads⟩
      simp only [tableEntry, fp2MulAt_eq, outer_setElement_inr]

theorem filled_fp2PowTable : Filled (element m x) p windowsizepower (fp2PowTable x p m) := by
  rw [fp2PowTable]
  refine filled_foldl _ ?_ windowsizepower
  refine ⟨fun i hi => ?_, ?_, ⟨List.mem_cons_self, fun i hi => ?_⟩, fun r hr => by cases hr⟩
  · obtain rfl := Nat.le_zero.1 hi
    simp only [fp2MulAt_eq]
    rw [element_setElement_of_ne (by simp), element_setElement]
    rfl
  · simp only [fp2MulAt_eq]
    rw [element_setElement, element_setElement_of_ne (by simp), element_extend]
  · obtain rfl := Nat.le_zero.1 hi
    simp

theorem outer_fp2PowTable :
    outer (fp2PowTable x p m).m = m ∧ (fp2PowTable x p m).reads = [] := by
  obtain ⟨houter, hreads⟩ := outer_foldl p ⟨fp2MulAt (.inr 2) (.inl x) (.inl x) p
    (setElement (extend m) (.inr 1) (element (extend m) (.inl x))), [2, 1], [], []⟩
    (List.range' 1 windowsizepower)
  refine ⟨houter.trans ?_, hreads⟩
  simp only [fp2MulAt_eq, outer_setElement_inr, outer_extend]

end Table

section Loop

/-- An entry that has been written, with an odd index in the table. -/
def Proper (r : TableRead) : Prop :=
  r.initialised = true ∧ Odd r.entry ∧ 1 ≤ r.entry ∧ r.entry ≤ 31

/-- The loop has the value `s` in `res` and nothing else of the caller's changed. -/
structure Running (m : Memory ν μ) (res : ν) (x : Fp2) (p : Int) (f : Frame ν μ) (s : Fp2) :
    Prop where
  filled : Filled x p windowsizepower f
  outer_eq : outer f.m = setElement m res s
  reads : ∀ r ∈ f.reads, Proper r

variable {m : Memory ν μ} {res : ν} {x : Fp2} {p : Int} {f : Frame ν μ} {s : Fp2}

@[simp] theorem setElement_setElement (m : Memory ν μ) (x : ν) (v w : Fp2) :
    setElement (setElement m x v) x w = setElement m x w := by
  funext c
  simp only [setElement, Function.update_apply]
  split_ifs <;> rfl

theorem Running.element_eq (h : Running m res x p f s) : element f.m (.inl res) = s := by
  have hres : element (outer f.m) res = element f.m (.inl res) := rfl
  rw [← hres, h.outer_eq, element_setElement]

theorem Filled.setElement {k : Nat} (h : Filled x p k f) (v : Fp2) :
    Filled x p k { f with m := Fp2Cells.setElement f.m (.inl res) v } where
  entry i hi := by rw [element_setElement_of_ne (by simp), h.entry i hi]
  square := by rw [element_setElement_of_ne (by simp), h.square]
  inits := h.inits
  tableReads := h.tableReads

theorem Running.square (h : Running m res x p f s) :
    Running m res x p (square res p f) (fp2Sqr s p) := by
  rw [PowerCells.square, fp2SqrAt_eq, h.element_eq]
  refine ⟨h.filled.setElement _, ?_, h.reads⟩
  rw [outer_setElement_inl, h.outer_eq, setElement_setElement]

theorem Running.mulEntry (h : Running m res x p f s) {i : Nat} (hi : i ≤ windowsizepower) :
    Running m res x p (mulEntry res p (2 * i + 1) f) (fp2Mul s (oddPower x p i) p) := by
  rw [PowerCells.mulEntry, fp2MulAt_eq, h.element_eq, h.filled.entry i hi]
  refine ⟨?_, ?_, ?_⟩
  · exact ⟨(h.filled.setElement _).entry, (h.filled.setElement _).square, h.filled.inits,
      h.filled.tableReads⟩
  · rw [outer_setElement_inl, h.outer_eq, setElement_setElement]
  · intro r hr
    rcases List.mem_cons.1 hr with rfl | hr
    · have hle : 2 * i + 1 ≤ 31 := by
        rw [windowsizepower] at hi
        omega
      exact ⟨decide_eq_true (h.filled.inits.2 i hi), odd_two_mul_add_one i, by
        show 1 ≤ 2 * i + 1
        omega, hle⟩
    · exact h.reads r hr

theorem running_fp2PowAt (res x : ν) (n : Nat) (p : Int) (m : Memory ν μ) :
    Running m res (element m x) p (fp2PowAt res x n p m) (fp2Pow (element m x) n p) := by
  have hstart : Running m res (element m x) p { fp2PowTable x p m with
      m := setElement (fp2PowTable x p m).m (.inl res) fp2Set1 } fp2Set1 := by
    obtain ⟨houter, hreads⟩ := outer_fp2PowTable x p m
    refine ⟨(filled_fp2PowTable x p m).setElement _, ?_, ?_⟩
    · rw [outer_setElement_inl, houter]
    · intro r hr
      rw [hreads] at hr
      cases hr
  rw [fp2PowAt, powLoop_eq res n p le_rfl, fp2Pow]
  refine windowLoop_related (fun f s h => h.square) (fun l k f s hl h => ?_) hstart
  obtain ⟨hlk, hk, hwidth, hd, -⟩ := mem_windows (by decide) hl
  obtain ⟨j, hj, hodd⟩ := exists_window_bit hlk hd
  have hlt : j < 2 ^ 5 := by
    have hmod : n >>> l % 2 ^ (k + 1 - l) < 2 ^ (k + 1 - l) := Nat.mod_lt _ (by positivity)
    have hpow : 2 ^ (k + 1 - l) ≤ 2 ^ 5 := Nat.pow_le_pow_right (by norm_num) (by
      simp only [windowsize] at hwidth
      omega)
    rw [digitsValue_bit] at hj
    omega
  have hmul := h.mulEntry (i := (j - 1) / 2) (by rw [windowsizepower]; omega)
  rw [hodd] at hmul
  rw [hj, Int.toNat_natCast]
  exact hmul

end Loop

section Power

variable {p : Nat}

/-- Aliased or not, the destination receives the power in canonical form, nothing
else is written, and no entry of the table is read before it has been written. -/
theorem fp2PowAt_spec (hp : 2 ≤ p) (res x : ν) (n : Nat) (m : Memory ν μ) :
    let f := fp2PowAt res x n p m
    (Reduced p (element (outer f.m) res) ∧
      val p (element (outer f.m) res) = val p (element m x) ^ n) ∧
    outer f.m = setElement m res (element (outer f.m) res) ∧
    (∀ r ∈ f.reads, r.initialised = true ∧ Odd r.entry ∧ 1 ≤ r.entry ∧ r.entry ≤ 31) ∧
    ∀ r ∈ f.tableReads, r.initialised = true := by
  have hp1 : (1 : Int) < p := by exact_mod_cast hp
  have hrun := running_fp2PowAt res x n p m
  have hres : element (outer (fp2PowAt res x n p m).m) res = fp2Pow (element m x) n p :=
    hrun.element_eq
  refine ⟨⟨?_, ?_⟩, ?_, hrun.reads, hrun.filled.tableReads⟩
  · rw [hres]
    exact reduced_fp2Pow (zero_lt_one.trans hp1) hp1 _ _
  · rw [hres, val_fp2Pow]
  · rw [hres]
    exact hrun.outer_eq

/-- The element 3 + 5 i, in the only variable there is. -/
def sampleMemory : Memory Unit Unit
  | .a _ => 3
  | .b _ => 5
  | .z _ => 0

theorem fp2PowAt_sample :
    let f := fp2PowAt () () (41 : Nat) (7 : Nat) sampleMemory
    Reduced (7 : Nat) (element (outer f.m) ()) ∧
      val 7 (element (outer f.m) ()) = val 7 (element sampleMemory ()) ^ 41 :=
  (fp2PowAt_spec (p := 7) (by decide) () () 41 sampleMemory).1

end Power

end IdBasedEncryption.PowerCells
