import IdBasedEncryption.ByteStrings
import IdBasedEncryption.PointValues

namespace IdBasedEncryption.PointBytes

open WeierstrassCurve.Affine MordellCurve Gmp Fp2Arith FieldExtension MordellGroup CurvePoints
open PointValues ByteStrings

def byteStringSetFp2 (x : Fp2) : ByteString :=
  byteStringJoin (byteStringSetMpz x.a) (byteStringSetMpz x.b)

def byteStringSetPoint (P : Point) : ByteString :=
  byteStringJoin (byteStringSetFp2 P.x) (byteStringSetFp2 P.y)

def fp2SetByteString (bs : ByteString) : Fp2 :=
  let s := byteStringSplit bs
  ⟨mympzInpRaw s.1, mympzInpRaw s.2⟩

/-- The destination `P` keeps its flag for infinity. -/
def pointSetByteString (P : Point) (bs : ByteString) : Point :=
  let s := byteStringSplit bs
  ⟨fp2SetByteString s.1, fp2SetByteString s.2, P.infinity⟩

/-- The components of a coordinate are not negative and their byte strings have
lengths that fit into the headers. -/
structure Encodable (x : Fp2) : Prop where
  a_nonneg : 0 ≤ x.a
  b_nonneg : 0 ≤ x.b
  lt : 6 + mympzSizeinbytes x.a + mympzSizeinbytes x.b < 2 ^ 16

section Fp2

variable {x : Fp2}

theorem length_setFp2 (x : Fp2) :
    (byteStringSetFp2 x).length = 6 + mympzSizeinbytes x.a + mympzSizeinbytes x.b := by
  rw [byteStringSetFp2, length_join, length_setMpz, length_setMpz, add_assoc]

theorem inpRaw_setMpz_of_nonneg {z : Int} (hz : 0 ≤ z) : mympzInpRaw (byteStringSetMpz z) = z := by
  obtain ⟨n, rfl⟩ := Int.eq_ofNat_of_zero_le hz
  exact inpRaw_setMpz n

theorem Encodable.decode (h : Encodable x) : fp2SetByteString (byteStringSetFp2 x) = x := by
  have hlt := h.lt
  rw [fp2SetByteString, byteStringSetFp2,
    split_join (by rw [length_setMpz]; omega) (by rw [length_setMpz]; omega),
    inpRaw_setMpz_of_nonneg h.a_nonneg, inpRaw_setMpz_of_nonneg h.b_nonneg]

/-- The number of bytes that an element of `F_p` may have for its points to be
encoded. -/
def maxBytes : Nat := 65528

theorem le_pow_maxBytes {n : Nat} (h : n ≤ 256 ^ 2) : n ≤ 256 ^ maxBytes :=
  h.trans (Nat.pow_le_pow_right (by norm_num) (by decide))

theorem encodable_of_reduced {p : Int} (hp : p ≤ 256 ^ maxBytes) (hx : Reduced p x)
    (hb : x.b = 0) : Encodable x where
  a_nonneg := hx.a_nonneg
  b_nonneg := hx.b_nonneg
  lt := by
    obtain ⟨a, ha⟩ := Int.eq_ofNat_of_zero_le hx.a_nonneg
    have hlt : a < 256 ^ maxBytes := by
      have := hx.a_lt.trans_le hp
      rw [ha] at this
      exact_mod_cast this
    have hle : mympzSizeinbytes x.a ≤ maxBytes := by
      rw [ha]
      exact mympzSizeinbytes_le (by decide) hlt
    have hone : mympzSizeinbytes x.b = 1 := by
      rw [hb]
      rfl
    rw [hone]
    rw [maxBytes] at hle
    omega

theorem injOn_setFp2 {p : Int} (hp : p ≤ 256 ^ 2) :
    Set.InjOn byteStringSetFp2 {x | Reduced p x} := by
  have h (x : Fp2) (hx : Reduced p x) : Encodable x := by
    have hsize (z : Int) (hz : 0 ≤ z) (hzp : z < p) : mympzSizeinbytes z ≤ 2 := by
      obtain ⟨n, rfl⟩ := Int.eq_ofNat_of_zero_le hz
      exact mympzSizeinbytes_le (by norm_num) (by exact_mod_cast hzp.trans_le hp)
    have ha := hsize x.a hx.a_nonneg hx.a_lt
    have hb := hsize x.b hx.b_nonneg hx.b_lt
    exact ⟨hx.a_nonneg, hx.b_nonneg, by omega⟩
  intro x hx y hy hxy
  rw [← (h x hx).decode, hxy, (h y hy).decode]

end Fp2

section Point

theorem pointSetByteString_set {P : Point} (hx : Encodable P.x) (hy : Encodable P.y) (Q : Point) :
    pointSetByteString Q (byteStringSetPoint P) = { P with infinity := Q.infinity } := by
  have hxlt := hx.lt
  have hylt := hy.lt
  rw [pointSetByteString, byteStringSetPoint,
    split_join (by rw [length_setFp2]; omega) (by rw [length_setFp2]; omega), hx.decode, hy.decode]

/-- The origin, which is no point of the curve, is read back. -/
theorem pointSetByteString_pointInit :
    pointSetByteString pointInit (byteStringSetPoint pointInit) = pointInit := by
  decide

/-- Arrays of byte strings are read back, and with them pairs and the nested
pairs of the coordinates of a point. -/
theorem arrays_readBack :
    (∀ bsa : List ByteString, bsa.length < 65536 → (∀ bs ∈ bsa, bs.length < 65536) →
      byteStringDecodeArray (byteStringEncodeArray bsa) = bsa) ∧
    (∀ bs1 bs2 : ByteString, bs1.length < 65536 → bs2.length < 65536 →
      byteStringSplit (byteStringJoin bs1 bs2) = (bs1, bs2)) ∧
    ∀ P Q : Point, 0 ≤ P.x.a → 0 ≤ P.x.b → 0 ≤ P.y.a → 0 ≤ P.y.b →
      (byteStringSetFp2 P.x).length < 65536 → (byteStringSetFp2 P.y).length < 65536 →
      pointSetByteString Q (byteStringSetPoint P) = { P with infinity := Q.infinity } := by
  refine ⟨fun bsa hn h => decodeArray_encodeArray hn h, fun bs1 bs2 h1 h2 => split_join h1 h2, ?_⟩
  intro P Q hxa hxb hya hyb hx hy
  rw [length_setFp2] at hx hy
  exact pointSetByteString_set ⟨hxa, hxb, hx⟩ ⟨hya, hyb, hy⟩ Q

theorem arrays_readBack_hello :
    byteStringDecodeArray (byteStringEncodeArray [bytes "Hello", [], bytes "World"]) =
      [bytes "Hello", [], bytes "World"] :=
  arrays_readBack.1 _ (by decide) (by decide)

variable {p : Nat} [hp : Fact p.Prime]

theorem pointSetByteString_ofPoint (hsize : p ≤ 256 ^ maxBytes) {A : E p} (hA : A ≠ 0) {Q : Point}
    (hQ : Q.infinity = false) : pointSetByteString Q (byteStringSetPoint (ofPoint A)) = ofPoint A := by
  have hsize' : (p : Int) ≤ 256 ^ maxBytes := by exact_mod_cast hsize
  rcases A with _ | ⟨x, y, h⟩
  · exact absurd rfl hA
  · have hr := reducedPoint_some h
    rw [pointSetByteString_set (encodable_of_reduced hsize' hr.x rfl)
      (encodable_of_reduced hsize' hr.y rfl), hQ]
    rfl

end Point

end IdBasedEncryption.PointBytes
