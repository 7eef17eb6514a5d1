import IdBasedEncryption.PointBytes
import IdBasedEncryption.IbeLib

namespace IdBasedEncryption.PointEncodings

open Gmp Fp2Arith CurvePoints PointValues ByteStrings PointBytes IbeLib

/-- A point of `y ^ 2 = x ^ 3 + 1` over `F_p^2` whose coordinates are least
residues, infinity being the one that `point_set_O` makes. -/
def IsPoint (p : Int) (P : Point) : Prop :=
  P = pointSetO ∨ (P.infinity = false ∧ ReducedPoint p P ∧
    fp2Sqr P.y p = fp2Add (fp2Mul (fp2Sqr P.x p) P.x p) fp2Set1 p)

/-- The point of order three whose coordinates infinity has, too. -/
def finiteO : Point := { pointSetO with infinity := false }

section Sizes

variable {p : Nat}

theorem mympzSizeinbytes_le_of_lt (hp : p < 2 ^ 100000) {z : Int} (h0 : 0 ≤ z) (hz : z < p) :
    mympzSizeinbytes z ≤ 12500 := by
  obtain ⟨n, rfl⟩ := Int.eq_ofNat_of_zero_le h0
  apply mympzSizeinbytes_le (by norm_num)
  have hpow : 2 ^ 100000 = 256 ^ 12500 := by
    rw [show 256 = 2 ^ 8 by rfl, ← pow_mul]
  rw [← hpow]
  exact (Int.ofNat_lt.1 hz).trans hp

theorem encodable_of_lt (hp : p < 2 ^ 100000) {x : Fp2} (hx : Reduced p x) : Encodable x where
  a_nonneg := hx.a_nonneg
  b_nonneg := hx.b_nonneg
  lt := by
    have ha := mympzSizeinbytes_le_of_lt hp hx.a_nonneg hx.a_lt
    have hb := mympzSizeinbytes_le_of_lt hp hx.b_nonneg hx.b_lt
    omega

theorem length_setFp2_lt {x : Fp2} (hx : Encodable x) : (byteStringSetFp2 x).length < 2 ^ 16 := by
  rw [length_setFp2]
  exact hx.lt

end Sizes

section Points

variable {p : Nat} {P Q : Point}

theorem encodable_pointSetO : Encodable pointSetO.x ∧ Encodable pointSetO.y := by
  constructor <;> constructor <;> decide

theorem IsPoint.encodable (hp : p < 2 ^ 100000) (h : IsPoint p P) :
    Encodable P.x ∧ Encodable P.y := by
  rcases h with rfl | ⟨-, hr, -⟩
  · exact encodable_pointSetO
  · exact ⟨encodable_of_lt hp hr.x, encodable_of_lt hp hr.y⟩

theorem IsPoint.decode (hp : p < 2 ^ 100000) (h : IsPoint p P) (D : Point) :
    pointSetByteString D (byteStringSetPoint P) = { P with infinity := D.infinity } := by
  obtain ⟨hx, hy⟩ := h.encodable hp
  exact pointSetByteString_set hx hy D

theorem encoding_eq_iff (hp : p < 2 ^ 100000) (hP : IsPoint p P) (hQ : IsPoint p Q) :
    byteStringSetPoint P = byteStringSetPoint Q ↔ P.x = Q.x ∧ P.y = Q.y := by
  constructor
  · intro h
    have hd := (hP.decode hp pointInit).symm.trans ((congrArg _ h).trans (hQ.decode hp pointInit))
    obtain ⟨hx, hy, -⟩ := Point.mk.inj hd
    exact ⟨hx, hy⟩
  · rintro ⟨hx, hy⟩
    rw [byteStringSetPoint, hx, hy]
    rfl

/-- Distinct points share their coordinates only with infinity among them. -/
theorem coordinates_eq_iff (hP : IsPoint p P) (hQ : IsPoint p Q) (hPQ : P ≠ Q) :
    (P.x = Q.x ∧ P.y = Q.y) ↔
      (P = pointSetO ∧ Q = finiteO) ∨ (P = finiteO ∧ Q = pointSetO) := by
  constructor
  · rintro ⟨hx, hy⟩
    rcases hP with rfl | ⟨hP, -, -⟩ <;> rcases hQ with rfl | ⟨hQ, -, -⟩
    · exact absurd rfl hPQ
    · exact Or.inl ⟨rfl, Point.ext hx.symm hy.symm hQ⟩
    · exact Or.inr ⟨Point.ext hx hy hP, rfl⟩
    · exact absurd (Point.ext hx hy (hP.trans hQ.symm)) hPQ
  · rintro (⟨rfl, rfl⟩ | ⟨rfl, rfl⟩) <;> exact ⟨rfl, rfl⟩

/-- The bytes are read back where the destination has the right flag, and they
tell points apart except for infinity and the point with its coordinates. -/
theorem encoding_faithful_iff (hsize : p < 2 ^ 100000) :
    (∀ P, IsPoint p P → ∀ D,
      (pointSetByteString D (byteStringSetPoint P) = P ↔ D.infinity = P.infinity)) ∧
    ∀ P Q, IsPoint p P → IsPoint p Q → P ≠ Q →
      (byteStringSetPoint P ≠ byteStringSetPoint Q ↔
        ¬((P = pointSetO ∧ Q = finiteO) ∨ (P = finiteO ∧ Q = pointSetO))) := by
  constructor
  · intro P hP D
    rw [hP.decode hsize]
    constructor
    · intro h
      exact (congrArg Point.infinity h :)
    · intro h
      rw [h]
  · intro P Q hP hQ hPQ
    rw [ne_eq, encoding_eq_iff hsize hP hQ, coordinates_eq_iff hP hQ hPQ]

theorem eleven_lt_two_pow {k : Nat} (hk : 4 ≤ k) : 11 < 2 ^ k :=
  lt_of_lt_of_le (by norm_num : 11 < 2 ^ 4) (Nat.pow_le_pow_right (by norm_num) hk)

theorem isPoint_finiteO : IsPoint (11 : Nat) finiteO := by
  refine Or.inr ⟨rfl, ⟨?_, ?_⟩, by decide⟩ <;> constructor <;> decide

theorem encoding_faithful_iff_of_eleven :
    (pointSetByteString pointInit (byteStringSetPoint finiteO) = finiteO ↔
      pointInit.infinity = finiteO.infinity) ∧
    (byteStringSetPoint pointSetO ≠ byteStringSetPoint finiteO ↔
      ¬((pointSetO = pointSetO ∧ finiteO = finiteO) ∨
        (pointSetO = finiteO ∧ finiteO = pointSetO))) := by
  have h := encoding_faithful_iff (p := 11) (eleven_lt_two_pow (by norm_num))
  exact ⟨h.1 finiteO isPoint_finiteO pointInit,
    h.2 pointSetO finiteO (Or.inl rfl) isPoint_finiteO (by decide)⟩

/-- Infinity comes back as a finite point, and a finite point as infinity. -/
theorem not_encoding_faithful :
    ¬∀ p : Nat, p.Prime → p < 2 ^ 100000 →
      (∀ P, IsPoint p P → ∀ D, pointSetByteString D (byteStringSetPoint P) = P) ∧
      ∀ P Q, IsPoint p P → IsPoint p Q → P ≠ Q →
        byteStringSetPoint P ≠ byteStringSetPoint Q := by
  intro h
  have hO := (h 11 (by norm_num) (eleven_lt_two_pow (by norm_num))).1 pointSetO (Or.inl rfl) pointInit
  have hinf := congrArg Point.infinity hO
  cases hinf

end Points

section Certificates

/-- The encoding of a point is followed by nothing that could belong to it. -/
theorem setPoint_append_inj {P₁ P₂ : Point} {r s : ByteString} (hx₁ : Encodable P₁.x)
    (hy₁ : Encodable P₁.y) (hx₂ : Encodable P₂.x) (hy₂ : Encodable P₂.y)
    (h : byteStringSetPoint P₁ ++ r = byteStringSetPoint P₂ ++ s) :
    (P₁.x = P₂.x ∧ P₁.y = P₂.y) ∧ r = s := by
  obtain ⟨⟨hx, hy⟩, hrs⟩ := join_append_inj (length_setFp2_lt hx₁) (length_setFp2_lt hy₁)
    (length_setFp2_lt hx₂) (length_setFp2_lt hy₂) h
  refine ⟨⟨?_, ?_⟩, hrs⟩
  · rw [← hx₁.decode, hx, hx₂.decode]
  · rw [← hy₁.decode, hy, hy₂.decode]

/-- What is hashed for a certificate determines the public key and the identity.
With the identity for a digest, `crypto_va_hash` gives the bytes it hashes. -/
theorem certificateInput_injective {p : Nat} (hsize : p < 2 ^ 100000)
    {P₁ P₂ : Point} (hr₁ : ReducedPoint p P₁) (hr₂ : ReducedPoint p P₂)
    (hf₁ : P₁.infinity = false) (hf₂ : P₂.infinity = false) {id₁ id₂ : CString}
    (h : cryptoVaHash id [byteStringSetPoint P₁, byteStringSet id₁] =
      cryptoVaHash id [byteStringSetPoint P₂, byteStringSet id₂]) :
    (∀ D, pointSetByteString D (byteStringSetPoint P₁) =
      pointSetByteString D (byteStringSetPoint P₂)) ∧ P₁ = P₂ ∧ id₁ = id₂ := by
  simp only [cryptoVaHash, id, List.flatten_cons, List.flatten_nil, List.append_nil] at h
  obtain ⟨⟨hx, hy⟩, hid⟩ := setPoint_append_inj (encodable_of_lt hsize hr₁.x)
    (encodable_of_lt hsize hr₁.y) (encodable_of_lt hsize hr₂.x) (encodable_of_lt hsize hr₂.y) h
  have hP : P₁ = P₂ := Point.ext hx hy (hf₁.trans hf₂.symm)
  exact ⟨fun D => by rw [hP], hP, Subtype.ext hid⟩

theorem certificateInput_injective_finiteO :
    finiteO = finiteO ∧ charstarFromByteString (bytes "alice") =
      charstarFromByteString (bytes "alice" ++ [0, 1]) := by
  obtain ⟨-, hr, -⟩ := isPoint_finiteO.resolve_left (by decide)
  exact (certificateInput_injective (eleven_lt_two_pow (by norm_num)) hr hr rfl rfl
    (by decide)).2

end Certificates

end IdBasedEncryption.PointEncodings
