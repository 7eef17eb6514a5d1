import Mathlib

namespace IdBasedEncryption.PrimeIndex

open AddSubgroup

variable {G : Type*} [AddCommGroup G]

section Kernels

/-- Multiplication by `q ^ j` has at most `q ^ j` elements in its kernel when
multiplication by `q` has `q`. -/
theorem card_ker_pow_le [Finite G] {q : Nat}
    (htors : Nat.card (nsmulAddMonoidHom (α := G) q).ker = q) (j : Nat) :
    Nat.card (nsmulAddMonoidHom (α := G) (q ^ j)).ker ≤ q ^ j := by
  induction j with
  | zero =>
      have hbot : (nsmulAddMonoidHom (α := G) (q ^ 0)).ker = ⊥ := by
        ext T
        simp [AddMonoidHom.mem_ker]
      rw [hbot, card_bot, pow_zero]
  | succ j ih =>
      -- the restriction of the multiplication by `q` to the kernel of `q ^ (j + 1)`
      let f := (nsmulAddMonoidHom (α := G) q).comp (nsmulAddMonoidHom (α := G) (q ^ (j + 1))).ker.subtype
      have hker : Nat.card f.ker ≤ q := by
        refine (Nat.card_le_card_of_injective
          (fun T : f.ker => (⟨T.1.1, T.2⟩ : (nsmulAddMonoidHom (α := G) q).ker)) ?_).trans_eq htors
        intro S T h
        exact Subtype.ext (Subtype.ext (congrArg Subtype.val h :))
      have hrange : Nat.card f.range ≤ q ^ j := by
        refine (card_le_of_le ?_).trans ih
        rintro _ ⟨⟨T, hT⟩, rfl⟩
        change q ^ j • q • T = 0
        rw [← mul_smul, ← pow_succ]
        exact hT
      calc Nat.card (nsmulAddMonoidHom (α := G) (q ^ (j + 1))).ker
          = Nat.card f.ker * Nat.card f.range := by rw [← index_ker, card_mul_index]
        _ ≤ q * q ^ j := Nat.mul_le_mul hker hrange
        _ = q ^ (j + 1) := (pow_succ' q j).symm

end Kernels

section Index

variable [Finite G] {q h : Nat} (hq : q.Prime) (hcard : Nat.card G = q * h)
  (htors : Nat.card (nsmulAddMonoidHom (α := G) q).ker = q)
include hq hcard htors

theorem index_range_nsmul : (nsmulAddMonoidHom (α := G) q).range.index = q := by
  have hrange : Nat.card (nsmulAddMonoidHom (α := G) q).range = h := by
    refine Nat.eq_of_mul_eq_mul_left hq.pos ?_
    rw [← hcard, ← card_mul_index (nsmulAddMonoidHom (α := G) q).ker, index_ker, htors]
  have hmul := card_mul_index (nsmulAddMonoidHom (α := G) q).range
  have hh : 0 < h := by
    rw [← hrange]
    exact Nat.card_pos
  rw [hrange, hcard, mul_comm] at hmul
  exact Nat.eq_of_mul_eq_mul_right hh hmul

/-- The multiples of `q` have prime index, so that one other element generates
everything above them. -/
theorem exists_eq_nsmul_add {T : G} (hT : ∀ D, T ≠ q • D) (S : G) : ∃ (k : Nat) (D : G), S = k • T + q • D := by
  have : Fact q.Prime := ⟨hq⟩
  have hquot : Nat.card (G ⧸ (nsmulAddMonoidHom (α := G) q).range) = q :=
    index_range_nsmul hq hcard htors
  have hne : (QuotientAddGroup.mk T : G ⧸ (nsmulAddMonoidHom (α := G) q).range) ≠ 0 := by
    rw [Ne, QuotientAddGroup.eq_zero_iff]
    rintro ⟨D, hD⟩
    exact hT D hD.symm
  have hgen : (QuotientAddGroup.mk S : G ⧸ (nsmulAddMonoidHom (α := G) q).range) ∈
      zmultiples (QuotientAddGroup.mk T) := mem_zmultiples_of_prime_card hquot hne
  obtain ⟨k, hk⟩ := mem_multiples_iff_mem_zmultiples.2 hgen
  have hmem : -(k • T) + S ∈ (nsmulAddMonoidHom (α := G) q).range :=
    QuotientAddGroup.eq.1 ((QuotientAddGroup.mk_nsmul _ T k).trans hk)
  obtain ⟨D, hD⟩ := hmem
  refine ⟨k, D, ?_⟩
  change q • D = _ at hD
  rw [hD, add_neg_cancel_left]

/-- The cofactor does not kill the group. -/
theorem exists_nsmul_cofactor_ne_zero : ∃ S : G, h • S ≠ 0 := by
  have : Fact q.Prime := ⟨hq⟩
  by_contra! hzero
  have hh : h ≠ 0 := by
    rintro rfl
    exact Nat.card_pos.ne' (hcard.trans (mul_zero q))
  obtain ⟨j, m, hm, rfl⟩ := Nat.exists_eq_pow_mul_and_not_dvd hh q hq.ne_one
  have hrange : Nat.card (nsmulAddMonoidHom (α := G) m).range ≤ q ^ j := by
    refine (card_le_of_le ?_).trans (card_ker_pow_le htors j)
    rintro _ ⟨S, rfl⟩
    change q ^ j • m • S = 0
    rw [← mul_smul, hzero]
  have hker : ¬q ∣ Nat.card (nsmulAddMonoidHom (α := G) m).ker := by
    intro hdvd
    obtain ⟨S, hS⟩ := exists_prime_addOrderOf_dvd_card' q hdvd
    refine hm (hS ▸ addOrderOf_dvd_of_nsmul_eq_zero ?_)
    exact Subtype.ext S.2
  have hmul : Nat.card (nsmulAddMonoidHom (α := G) m).ker *
      Nat.card (nsmulAddMonoidHom (α := G) m).range = q ^ (j + 1) * m := by
    rw [← index_ker, card_mul_index, hcard, ← mul_assoc, ← pow_succ']
  have hdvd : q ^ (j + 1) ∣ Nat.card (nsmulAddMonoidHom (α := G) m).range :=
    ((Nat.Prime.coprime_iff_not_dvd hq).2 hker).pow_left (j + 1) |>.dvd_of_dvd_mul_left
      (hmul ▸ Nat.dvd_mul_right _ m)
  have hle := Nat.le_of_dvd Nat.card_pos hdvd
  have hlt := Nat.pow_lt_pow_right hq.one_lt j.lt_add_one
  omega

/-- What the cofactor kills are the multiples of `q`. -/
theorem nsmul_cofactor_eq_zero_iff {T : G} : h • T = 0 ↔ ∃ D, T = q • D := by
  constructor
  · intro hT
    by_contra! hD
    obtain ⟨S, hS⟩ := exists_nsmul_cofactor_ne_zero hq hcard htors
    obtain ⟨k, D, rfl⟩ := exists_eq_nsmul_add hq hcard htors hD S
    refine hS ?_
    rw [nsmul_add, smul_comm, hT, nsmul_zero, zero_add, ← mul_smul, mul_comm, ← hcard]
    exact card_nsmul_eq_zero'
  · rintro ⟨D, rfl⟩
    rw [← mul_smul, mul_comm, ← hcard]
    exact card_nsmul_eq_zero'

end Index

end IdBasedEncryption.PrimeIndex
