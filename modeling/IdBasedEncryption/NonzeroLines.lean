import IdBasedEncryption.EvaluatedLines

namespace IdBasedEncryption.NonzeroLines

open Gmp SlidingWindow Fp2Arith Fp2Value FieldExtension CurvePoints PointValues GeneralMiller
open EvaluatedLines

variable {p : Nat} [hp : Fact p.Prime]

section Values

def ReducedLines (p : Int) (l : Lines) : Prop := ∀ t ∈ l.1.toList ++ l.2.toList, Reduced p t

theorem val_ne_zero {x : Fp2} (hx : Reduced p x) (h : fp2Is0 x = false) : val p x ≠ 0 := by
  intro h0
  have h2 : x = fp2Set0 :=
    eq_of_val_eq hx ⟨le_rfl, pos, le_rfl, pos⟩ (by rw [h0, val_fp2Set0])
  rw [h2] at h
  exact absurd h (by decide)

theorem lineValue_ne_zero {l : Option Fp2} (hl : ∀ t ∈ l.toList, Reduced p t)
    (h : ∀ t ∈ l.toList, fp2Is0 t = false) : lineValue p l ≠ 0 := by
  cases l with
  | none => exact one_ne_zero
  | some t => exact val_ne_zero (hl t (by simp)) (h t (by simp))

variable {A B P Q : Point}

theorem reduced_fp2Add_fp2Neg {p : Int} {x y : Fp2} (hx : Reduced p x) (hy : Reduced p y) :
    Reduced p (fp2Add x (fp2Neg y p) p) := by
  obtain ⟨h₁, h₂⟩ := zpAdd_reduced hx.a_nonneg hx.a_lt (sub_nonneg.2 hy.a_lt.le)
    (sub_le_self p hy.a_nonneg)
  obtain ⟨h₃, h₄⟩ := zpAdd_reduced hx.b_nonneg hx.b_lt (sub_nonneg.2 hy.b_lt.le)
    (sub_le_self p hy.b_nonneg)
  exact ⟨h₁, h₂, h₃, h₄⟩

theorem reducedLines_none {p : Int} : ReducedLines p (none, none) := by simp [ReducedLines]

theorem reducedLines_sub {p : Int} (hA : ReducedPoint p A) (hB : ReducedPoint p B)
    (hP : ReducedPoint p P) :
    ReducedLines p (some (fp2Sub A.x P.x p), some (fp2Sub B.x P.x p)) := by
  intro t ht
  simp only [Option.toList_some, List.mem_append, List.mem_singleton] at ht
  rcases ht with rfl | rfl
  · exact reduced_fp2Sub hA.x hP.x
  · exact reduced_fp2Sub hB.x hP.x

theorem reducedLines_getVertical {p : Int} (hA : ReducedPoint p A) (hB : ReducedPoint p B)
    (hP : ReducedPoint p P) : ReducedLines p (getVertical A B P p) := by
  rw [getVertical]
  split
  · exact reducedLines_none
  · split
    · exact reducedLines_none
    · exact reducedLines_sub hA hB hP

theorem reducedLines_evalLine (a b : Fp2) {c : Fp2} (hc : Reduced p c) :
    ReducedLines p (evalLine A a b (fp2Neg c p) p, evalLine B a b (fp2Neg c p) p) := by
  have h (A : Point) : ∀ t ∈ (evalLine A a b (fp2Neg c p) p).toList, Reduced p t := by
    rw [evalLine]
    split
    · simp
    · intro t ht
      rw [Option.toList_some, List.mem_singleton] at ht
      subst ht
      have hmul (x y : Fp2) : Reduced p (fp2Mul x y p) := reduced_fp2Mul pos x y
      exact reduced_fp2Add_fp2Neg (reduced_fp2Add (hmul ..) (hmul ..)) hc
  intro t ht
  exact (List.mem_append.1 ht).elim (h A t) (h B t)

theorem reducedLines_getTangent (hA : ReducedPoint p A) (hB : ReducedPoint p B)
    (hP : ReducedPoint p P) : ReducedLines p (getTangent A B P p) := by
  rw [getTangent]
  split
  · exact reducedLines_none
  · split
    · exact reducedLines_sub hA hB hP
    · exact reducedLines_evalLine _ _ (reduced_fp2Add (reduced_fp2Mul pos _ _)
        (reduced_fp2Mul pos _ _))

theorem reducedLines_getLine (hA : ReducedPoint p A) (hB : ReducedPoint p B)
    (hP : ReducedPoint p P) (hQ : ReducedPoint p Q) : ReducedLines p (getLine A B P Q p) := by
  rw [getLine]
  split
  · exact reducedLines_getVertical hA hB hQ
  split
  · exact reducedLines_getVertical hA hB hP
  split
  · split
    · exact reducedLines_sub hA hB hP
    · exact reducedLines_getTangent hA hB hP
  · exact reducedLines_evalLine _ _ (reduced_fp2Add (reduced_fp2Mul pos _ _)
      (reduced_fp2Mul pos _ _))

end Values

section Accumulators

variable {s : Accumulator} {l : Lines} {f : Fp2} {B P Qhat R2 : Point}

structure ReducedValues (p : Int) (s : Accumulator) : Prop where
  v : Reduced p s.v
  vdenom : Reduced p s.vdenom

theorem reduced_mulLine {v : Fp2} (hv : Reduced p v) (l : Option Fp2) :
    Reduced p (mulLine v l p) := by
  cases l with
  | none => exact hv
  | some t => exact reduced_fp2Mul pos _ _

theorem ReducedValues.mul (hs : ReducedValues p s) (l : Lines) : ReducedValues p (s.mul l p) :=
  ⟨reduced_mulLine hs.v _, reduced_mulLine hs.vdenom _⟩

theorem reducedValues_accumulatorInit : ReducedValues p accumulatorInit := by
  have h1 : (1 : Int) < p := by exact_mod_cast hp.out.one_lt
  exact ⟨⟨zero_le_one, h1, le_rfl, pos⟩, ⟨zero_le_one, h1, le_rfl, pos⟩⟩

theorem ReducedValues.addStep (hs : ReducedValues p s) (f : Fp2) (B : Point) :
    ReducedValues p (addStep Qhat R2 f B p s) := by
  have h : ReducedValues p { s with v := fp2Mul s.v f p } := ⟨reduced_fp2Mul pos _ _, hs.vdenom⟩
  exact ⟨reduced_mulLine (h.mul _).v _, reduced_mulLine (h.mul _).vdenom _⟩

theorem reducedValues_doubleStep (l : Lines) (s : Accumulator) :
    ReducedValues p (doubleStep Qhat R2 l p s) := by
  have h : ReducedValues p { s with v := fp2Sqr s.v p, vdenom := fp2Sqr s.vdenom p } :=
    ⟨reduced_fp2Sqr pos _, reduced_fp2Sqr pos _⟩
  exact ⟨reduced_mulLine (h.mul _).v _, reduced_mulLine (h.mul _).vdenom _⟩

/-- The checks in `general_miller` are exact. -/
theorem of_unlessBad {α : Type} {a b : α} (hs : ReducedValues p s) (h : s.unlessBad a = some b) :
    val p s.v ≠ 0 ∧ val p s.vdenom ≠ 0 ∧ a = b := by
  rw [Accumulator.unlessBad] at h
  split at h
  · cases h
  · rename_i hne
    rw [Bool.or_eq_true, not_or] at hne
    simp only [Bool.not_eq_true] at hne
    exact ⟨val_ne_zero hs.v hne.1, val_ne_zero hs.vdenom hne.2, Option.some.inj h⟩

theorem reducedValues_generalLoop (table : Nat → Option (Fp2 × Point)) (q : Int) :
    ReducedValues p (generalLoop Qhat R2 table q p) := by
  apply windowLoop_preserves
  · exact fun s _ => reducedValues_doubleStep _ s
  · intro j s hs
    cases table ((j.toNat - 1) / 2) with
    | none => exact hs
    | some e => exact hs.addStep e.1 e.2
  · exact reducedValues_accumulatorInit

/-- The running point is in range, and without a line that vanishes neither do
numerator and denominator. -/
structure Sound (p : Nat) (s : Accumulator) : Prop where
  point : ReducedPoint p s.Z
  nonzero : (∀ t ∈ s.lines, fp2Is0 t = false) → val p s.v ≠ 0 ∧ val p s.vdenom ≠ 0

variable [Fact (p % 4 = 3)]

theorem sound_accumulatorInit : Sound p accumulatorInit where
  point := reduced_pointSetO
  nonzero _ := by
    rw [accumulatorInit, val_fp2Set1]
    exact ⟨one_ne_zero, one_ne_zero⟩

theorem Sound.mul (hs : Sound p s) (hl : ReducedLines p l) : Sound p (s.mul l p) where
  point := hs.point
  nonzero h := by
    have hlines : ∀ t ∈ s.lines ++ (l.1.toList ++ l.2.toList), fp2Is0 t = false := h
    simp only [List.forall_mem_append] at hlines
    simp only [ReducedLines, List.forall_mem_append] at hl
    obtain ⟨hv, hd⟩ := hs.nonzero hlines.1
    rw [Accumulator.mul, val_mulLine, val_mulLine]
    exact ⟨mul_ne_zero hv (lineValue_ne_zero hl.1 hlines.2.1),
      mul_ne_zero hd (lineValue_ne_zero hl.2 hlines.2.2)⟩

variable (hQhat : ReducedPoint p Qhat) (hR2 : ReducedPoint p R2)
include hQhat hR2

theorem Sound.addStep (hs : Sound p s) (hf : val p f ≠ 0) (hB : ReducedPoint p B) :
    Sound p (addStep Qhat R2 f B p s) := by
  have h : Sound p { s with v := fp2Mul s.v f p } := by
    refine ⟨hs.point, fun hlines => ?_⟩
    obtain ⟨hv, hd⟩ := hs.nonzero hlines
    rw [val_fp2Mul]
    exact ⟨mul_ne_zero hv hf, hd⟩
  have hline := h.mul (reducedLines_getLine hQhat hR2 hs.point hB)
  have hZ := reduced_pointAdd hs.point hB
  exact Sound.mul ⟨hZ, hline.nonzero⟩ (reducedLines_getVertical hR2 hQhat hZ)

theorem Sound.doubleStep (hs : Sound p s) (hl : ReducedLines p l) :
    Sound p (doubleStep Qhat R2 l p s) := by
  have h : Sound p { s with v := fp2Sqr s.v p, vdenom := fp2Sqr s.vdenom p } := by
    refine ⟨hs.point, fun hlines => ?_⟩
    obtain ⟨hv, hd⟩ := hs.nonzero hlines
    rw [val_fp2Sqr, val_fp2Sqr]
    exact ⟨pow_ne_zero 2 hv, pow_ne_zero 2 hd⟩
  have hline := h.mul hl
  have hZ := reduced_pointAdd hs.point hs.point
  exact Sound.mul ⟨hZ, hline.nonzero⟩ (reducedLines_getVertical hR2 hQhat hZ)

theorem sound_simpleLoop (hP : ReducedPoint p P) (hf : val p f ≠ 0) (q : Int) (m : Nat)
    (hs : Sound p s) : Sound p (simpleLoop P Qhat R2 f q p m s) := by
  have hadd (m : Nat) (s : Accumulator) (hs : Sound p s) :
      Sound p (if mpzTstbit q m then GeneralMiller.addStep Qhat R2 f P p s else s) := by
    split
    · exact hs.addStep hQhat hR2 hf hP
    · exact hs
  induction m generalizing s with
  | zero => exact hadd 0 s hs
  | succ m ih =>
      have h := hadd (m + 1) s hs
      exact ih (h.doubleStep hQhat hR2 (reducedLines_getLine hQhat hR2 h.point h.point))

end Accumulators

section Growth

variable {P Qhat R2 : Point} {f : Fp2} {s : Accumulator}

theorem lines_addStep (B : Point) (p : Int) : (addStep Qhat R2 f B p s).lines =
    s.lines ++ ((getLine Qhat R2 s.Z B p).1.toList ++ (getLine Qhat R2 s.Z B p).2.toList) ++
      ((getVertical R2 Qhat (pointAdd s.Z B p) p).1.toList ++
        (getVertical R2 Qhat (pointAdd s.Z B p) p).2.toList) := rfl

theorem subset_addStep (B : Point) (p : Int) : s.lines ⊆ (addStep Qhat R2 f B p s).lines := by
  rw [lines_addStep]
  exact List.Subset.trans (List.subset_append_left ..) (List.subset_append_left ..)

theorem subset_doubleStep (l : Lines) (p : Int) : s.lines ⊆ (doubleStep Qhat R2 l p s).lines :=
  List.Subset.trans (List.subset_append_left s.lines _) (List.subset_append_left ..)

/-- Later steps of the loop do not take values of lines away. -/
theorem subset_simpleLoop (q p : Int) (m : Nat) :
    s.lines ⊆ (simpleLoop P Qhat R2 f q p m s).lines := by
  have hadd (m : Nat) (s : Accumulator) :
      s.lines ⊆ (if mpzTstbit q m then addStep Qhat R2 f P p s else s).lines := by
    split
    · exact subset_addStep P p
    · exact List.Subset.refl _
  induction m generalizing s with
  | zero => exact hadd 0 s
  | succ m ih =>
      exact List.Subset.trans (hadd (m + 1) s) (List.Subset.trans (subset_doubleStep _ p) ih)

end Growth

end IdBasedEncryption.NonzeroLines
