import Mathlib

namespace IdBasedEncryption.BilinearMaps

variable {G M : Type*} [AddCommGroup G] [CommMonoid M] {q : Nat} {e : G → G → M}

/-- Bilinear on the elements of order `q`, as far as sums are not zero. -/
structure BilinearOn (q : Nat) (e : G → G → M) : Prop where
  add_left : ∀ A B C, addOrderOf A = q → addOrderOf B = q → addOrderOf C = q → A + B ≠ 0 →
    e (A + B) C = e A C * e B C
  add_right : ∀ A B C, addOrderOf A = q → addOrderOf B = q → addOrderOf C = q → A + B ≠ 0 →
    e C (A + B) = e C A * e C B

theorem BilinearOn.flip (he : BilinearOn q e) : BilinearOn q fun A B => e B A :=
  ⟨he.add_right, he.add_left⟩

theorem addOrderOf_nsmul_of_not_dvd (hq : q.Prime) {A : G} (hA : addOrderOf A = q) {n : Nat}
    (hn : ¬q ∣ n) : addOrderOf (n • A) = q := by
  have hcop : (addOrderOf A).Coprime n := by
    rw [hA]
    exact (Nat.Prime.coprime_iff_not_dvd hq).2 hn
  rw [Nat.Coprime.addOrderOf_nsmul hcop, hA]

theorem not_dvd_of_lt {n : Nat} (hn : 0 < n) (hnq : n < q) : ¬q ∣ n := fun h =>
  absurd (Nat.le_of_dvd hn h) (by omega)

theorem nsmul_ne_zero_of_lt {A : G} (hA : addOrderOf A = q) {n : Nat} (hn : 0 < n) (hnq : n < q) :
    n • A ≠ 0 := by
  intro h
  exact not_dvd_of_lt hn hnq (hA ▸ addOrderOf_dvd_of_nsmul_eq_zero h)

section Multiples

variable (hq : q.Prime) (he : BilinearOn q e) {A B : G} (hA : addOrderOf A = q)
  (hB : addOrderOf B = q)
include hq he hA hB

theorem BilinearOn.nsmul_left {n : Nat} (hn : 0 < n) (hnq : n < q) : e (n • A) B = e A B ^ n := by
  induction n with
  | zero => exact absurd hn (lt_irrefl 0)
  | succ n ih =>
      rcases n.eq_zero_or_pos with rfl | hn0
      · rw [zero_add, one_nsmul, pow_one]
      · have hne : n • A + A ≠ 0 := by
          rw [← succ_nsmul]
          exact nsmul_ne_zero_of_lt hA hn hnq
        rw [succ_nsmul, he.add_left _ _ _ (addOrderOf_nsmul_of_not_dvd hq hA
          (not_dvd_of_lt hn0 (by omega))) hA hB hne, ih hn0 (by omega), pow_succ]

theorem BilinearOn.nsmul_right {n : Nat} (hn : 0 < n) (hnq : n < q) : e B (n • A) = e B A ^ n :=
  he.flip.nsmul_left hq hA hB hn hnq

omit he in
/-- In a cyclic group every element is a small multiple of one of order `q`. -/
theorem exists_nsmul_eq_of_cyclic {T : AddSubgroup G} (hT : ∀ C, C ∈ T ↔ q • C = 0)
    (hcyc : IsAddCyclic T) : ∃ n, 0 < n ∧ n < q ∧ B = n • A := by
  have hmem {C : G} (hC : addOrderOf C = q) : C ∈ T := by
    rw [hT, ← hC]
    exact addOrderOf_nsmul_eq_zero C
  obtain ⟨⟨g, hg⟩, hgen⟩ := hcyc.exists_generator
  obtain ⟨a, ha⟩ := hgen ⟨A, hmem hA⟩
  obtain ⟨b, hb⟩ := hgen ⟨B, hmem hB⟩
  have ha' : a • g = A := congrArg Subtype.val ha
  have hb' : b • g = B := congrArg Subtype.val hb
  have hqg : (q : Int) • g = 0 := by rw [natCast_zsmul]; exact (hT g).1 hg
  have hqa : ¬(q : Int) ∣ a := by
    rintro ⟨c, rfl⟩
    rw [mul_comm, mul_smul, hqg, zsmul_zero] at ha'
    rw [← ha', addOrderOf_zero] at hA
    exact hq.one_lt.ne hA
  obtain ⟨u, v, huv⟩ : IsCoprime a (q : Int) :=
    ((Nat.prime_iff_prime_int.1 hq).coprime_iff_not_dvd.2 hqa).symm
  have hgA : u • A = g := by
    calc u • A = (u * a) • g + v • (q : Int) • g := by
          rw [mul_smul, ha', hqg, zsmul_zero, add_zero]
      _ = (u * a + v * q) • g := by rw [add_smul, mul_smul v]
      _ = g := by rw [huv, one_zsmul]
  have hq0 : (0 : Int) < q := Int.natCast_pos.2 hq.pos
  have hqA : (q : Int) • A = 0 := by
    rw [natCast_zsmul, ← hA]
    exact addOrderOf_nsmul_eq_zero A
  have hBA : B = ((b * u) % q) • A := by
    calc B = (b * u) • A := by rw [mul_smul, hgA, hb']
      _ = ((b * u) % q + (b * u) / q * q) • A := by rw [Int.emod_add_ediv_mul]
      _ = ((b * u) % q) • A := by rw [add_smul, mul_smul _ (q : Int), hqA, zsmul_zero, add_zero]
  have hnn := Int.emod_nonneg (b * u) hq0.ne'
  have hlt := Int.emod_lt_of_pos (b * u) hq0
  generalize b * u % q = n at hBA hnn hlt
  obtain ⟨n, rfl⟩ := Int.eq_ofNat_of_zero_le hnn
  refine ⟨n, Nat.pos_of_ne_zero ?_, by omega, by rw [hBA, natCast_zsmul]⟩
  rintro rfl
  rw [hBA, Nat.cast_zero, zero_zsmul, addOrderOf_zero] at hB
  exact hq.one_lt.ne hB

theorem BilinearOn.symm {T : AddSubgroup G} (hT : ∀ C, C ∈ T ↔ q • C = 0) (hcyc : IsAddCyclic T) :
    e A B = e B A := by
  obtain ⟨n, hn, hnq, rfl⟩ := exists_nsmul_eq_of_cyclic hq hA hB hT hcyc
  rw [he.nsmul_left hq hA hA hn hnq, he.nsmul_right hq hA hA hn hnq]

end Multiples

end IdBasedEncryption.BilinearMaps
