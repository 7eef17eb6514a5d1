import Mathlib

namespace IdBasedEncryption.Interpolation

open Polynomial

variable {F ι : Type*} [Field F] [DecidableEq ι]

/-- The coefficient of the value at `v i` in the interpolation at zero. -/
def weight (s : Finset ι) (v : ι → F) (i : ι) : F := ∏ j ∈ s.erase i, v j / (v j - v i)

section Zero

variable {s : Finset ι} {v : ι → F}

theorem eval_zero_basisDivisor (x y : F) : (Lagrange.basisDivisor x y).eval 0 = y / (y - x) := by
  rw [Lagrange.basisDivisor, eval_mul, eval_C, eval_sub, eval_X, eval_C, zero_sub, div_eq_mul_inv,
    ← neg_sub y x, inv_neg]
  ring

theorem eval_zero_basis (i : ι) : (Lagrange.basis s v i).eval 0 = weight s v i := by
  rw [Lagrange.basis, eval_prod, weight]
  exact Finset.prod_congr rfl fun j _ => eval_zero_basisDivisor (v i) (v j)

/-- A polynomial of small degree is interpolated at zero. -/
theorem sum_weight_mul_eval (hv : Set.InjOn v s) {f : F[X]} (hf : f.degree < s.card) :
    ∑ i ∈ s, weight s v i * f.eval (v i) = f.eval 0 := by
  have h := congrArg (eval 0) (Lagrange.eq_interpolate hv hf)
  rw [h, Lagrange.interpolate_apply, eval_finsetSum]
  refine Finset.sum_congr rfl fun i _ => ?_
  rw [eval_mul, eval_C, eval_zero_basis, mul_comm]

theorem weight_congr {v' : ι → F} (h : ∀ j ∈ s, v j = v' j) {i : ι} (hi : i ∈ s) :
    weight s v i = weight s v' i := by
  refine Finset.prod_congr rfl fun j hj => ?_
  rw [h i hi, h j (Finset.mem_of_mem_erase hj)]

theorem weight_ne_zero (hv : Set.InjOn v s) (h0 : ∀ i ∈ s, v i ≠ 0) {i : ι} (hi : i ∈ s) :
    weight s v i ≠ 0 := by
  refine Finset.prod_ne_zero_iff.2 fun j hj => ?_
  obtain ⟨hji, hj⟩ := Finset.mem_erase.1 hj
  exact div_ne_zero (h0 j hj) (sub_ne_zero.2 fun h => hji (hv hj hi h))

end Zero

/-- Values at nonzero places leave the value at zero free. -/
theorem exists_eval_zero [DecidableEq F] {s : Finset F} (h0 : 0 ∉ s) (c : F) (y : F → F) :
    ∃ f : F[X], f.natDegree ≤ s.card ∧ f.eval 0 = c ∧ ∀ x ∈ s, f.eval x = y x := by
  have hid : Set.InjOn (id : F → F) s := Function.injective_id.injOn
  generalize hg : Lagrange.interpolate s id (fun x => (y x - c) / x) = g
  have hX : (X * g).natDegree ≤ s.card := by
    by_cases hg0 : g = 0
    · simp [hg0]
    · have hlt : g.degree < s.card := hg ▸ Lagrange.degree_interpolate_lt _ hid
      rw [natDegree_X_mul hg0]
      exact (natDegree_lt_iff_degree_lt hg0).2 hlt
  refine ⟨C c + X * g, ?_, by simp, fun x hx => ?_⟩
  · exact (natDegree_add_le _ _).trans (max_le (by simp) hX)
  · have hx0 : x ≠ 0 := fun h => h0 (h ▸ hx)
    have hgx : g.eval x = (y x - c) / x := hg ▸ Lagrange.eval_interpolate_at_node _ hid hx
    rw [eval_add, eval_C, eval_mul, eval_X, hgx, mul_div_cancel₀ _ hx0, add_sub_cancel]

end IdBasedEncryption.Interpolation
