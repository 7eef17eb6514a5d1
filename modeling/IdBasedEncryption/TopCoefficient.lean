import Mathlib

namespace IdBasedEncryption.TopCoefficient

open Polynomial

variable {R : Type*} [CommRing R]

/-- The polynomial has degree at most `n`, with coefficient `c` there. -/
structure Top (f : R[X]) (n : Nat) (c : R) : Prop where
  natDegree_le : f.natDegree ≤ n
  coeff_eq : f.coeff n = c

variable {f g : R[X]} {m n : Nat} {c d : R}

theorem Top.mul (hf : Top f m c) (hg : Top g n d) : Top (f * g) (m + n) (c * d) :=
  ⟨natDegree_mul_le_of_le hf.natDegree_le hg.natDegree_le, by
    rw [coeff_mul_add_eq_of_natDegree_le hf.natDegree_le hg.natDegree_le, hf.coeff_eq, hg.coeff_eq]⟩

theorem Top.pow (hf : Top f n c) (k : Nat) : Top (f ^ k) (k * n) (c ^ k) :=
  ⟨natDegree_pow_le_of_le k hf.natDegree_le, by
    rw [coeff_pow_of_natDegree_le hf.natDegree_le, hf.coeff_eq]⟩

theorem Top.add (hf : Top f n c) (hg : Top g n d) : Top (f + g) n (c + d) :=
  ⟨natDegree_add_le_of_degree_le hf.natDegree_le hg.natDegree_le, by
    rw [coeff_add, hf.coeff_eq, hg.coeff_eq]⟩

theorem Top.sub (hf : Top f n c) (hg : Top g n d) : Top (f - g) n (c - d) :=
  ⟨(natDegree_sub_le f g).trans (max_le hf.natDegree_le hg.natDegree_le), by
    rw [coeff_sub, hf.coeff_eq, hg.coeff_eq]⟩

theorem Top.const (c : R) : Top (C c) 0 c := ⟨(natDegree_C c).le, coeff_C_zero⟩

theorem Top.X : Top (X : R[X]) 1 1 := ⟨natDegree_X_le, coeff_X_one⟩

theorem Top.of_lt (hf : Top f m c) (h : m < n) : Top f n 0 :=
  ⟨hf.natDegree_le.trans h.le, coeff_eq_zero_of_natDegree_lt (hf.natDegree_le.trans_lt h)⟩

theorem Top.congr (hf : Top f m c) (hmn : m = n) (hcd : c = d) : Top f n d := by
  subst hmn hcd
  exact hf

theorem Top.ne_zero (hf : Top f n c) (hc : c ≠ 0) : f ≠ 0 := by
  rintro rfl
  exact hc (hf.coeff_eq.symm.trans (coeff_zero n))

end IdBasedEncryption.TopCoefficient
