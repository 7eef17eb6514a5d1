import IdBasedEncryption.Gmp

namespace IdBasedEncryption.ByteStrings

open Gmp

abbrev ByteString := List UInt8

/-- A C string without its terminator. -/
abbrev CString := {s : ByteString // 0 ∉ s}

/-- The bytes of an ASCII string. -/
def bytes (s : String) : ByteString := s.toList.map fun c => UInt8.ofNat c.toNat

/-- The low 16 bits, highest byte first. -/
def twoBytes (n : Nat) : ByteString := [UInt8.ofNat (n >>> 8), UInt8.ofNat n]

def twoBytesValue (high low : UInt8) : Nat := high.toNat * 256 + low.toNat

/-- Each byte takes the value cast to `unsigned char` before the shift. -/
def byteStringSetInt (n : Int) : ByteString :=
  let c := (n % 256).toNat
  [UInt8.ofNat (c >>> 24), UInt8.ofNat (c >>> 16), UInt8.ofNat (c >>> 8), UInt8.ofNat c]

/-- Zero unless there are four bytes. The sum is a 32-bit `int`. -/
def intFromByteString (bs : ByteString) : Int :=
  match bs with
  | [b0, b1, b2, b3] =>
      (BitVec.ofNat 32 (b3.toNat + b2.toNat * 2 ^ 8 + b1.toNat * 2 ^ 16 + b0.toNat * 2 ^ 24)).toInt
  | _ => 0

def byteStringSet (s : CString) : ByteString := s.val

/-- The sign of the first difference. -/
def memcmp : ByteString → ByteString → Int
  | x :: xs, y :: ys => if x = y then memcmp xs ys else if x < y then -1 else 1
  | _, _ => 0

/-- A string that the other one continues counts as equal to it. -/
def byteStringCmp (bs bs2 : ByteString) : Int :=
  let i := min bs.length bs2.length
  let result := memcmp (bs.take i) (bs2.take i)
  if result = 0 then
    if bs.length = bs2.length then 0 else if bs.length > bs2.length then 1 else 0
  else result

/-- Realloc keeps what fits. -/
def byteStringReinit (bs : ByteString) (n : Nat) : ByteString := (bs ++ List.replicate n 0).take n

def memcpy (dst : ByteString) (offset : Nat) (src : ByteString) : ByteString :=
  dst.take offset ++ (src ++ dst.drop (offset + src.length))

theorem zero_notMem_takeWhile (bs : ByteString) : 0 ∉ bs.takeWhile (· ≠ 0) := by
  intro h
  simpa using List.mem_takeWhile_imp h

/-- A terminator is put behind the bytes, so a zero among them ends the string. -/
def charstarFromByteString (bs : ByteString) : CString :=
  ⟨bs.takeWhile (· ≠ 0), zero_notMem_takeWhile bs⟩

def byteStringEncodeArray (bsa : List ByteString) : ByteString :=
  twoBytes bsa.length ++ (bsa.flatMap (twoBytes ·.length) ++ bsa.flatten)

/-- The first `n` lengths of a header, and what follows them. -/
def decodeLengths : Nat → ByteString → List Nat × ByteString
  | 0, bs => ([], bs)
  | n + 1, high :: low :: bs =>
      let r := decodeLengths n bs
      (twoBytesValue high low :: r.1, r.2)
  | _ + 1, bs => ([], bs)

def splitLengths : List Nat → ByteString → List ByteString
  | [], _ => []
  | l :: ls, bs => bs.take l :: splitLengths ls (bs.drop l)

/-- Malformed input gives no byte strings at all. -/
def byteStringDecodeArray (bs : ByteString) : List ByteString :=
  match bs with
  | high :: low :: rest =>
      let n := twoBytesValue high low
      if rest.length < 2 * n then []
      else
        let r := decodeLengths n rest
        if r.2.length = r.1.sum then splitLengths r.1 r.2 else []
  | _ => []

def byteStringJoin (bs1 bs2 : ByteString) : ByteString := byteStringEncodeArray [bs1, bs2]

/-- Anything but two byte strings is split into two empty ones. -/
def byteStringSplit (bs : ByteString) : ByteString × ByteString :=
  match byteStringDecodeArray bs with
  | [bs1, bs2] => (bs1, bs2)
  | _ => ([], [])

def mympzSizeinbytes (x : Int) : Nat :=
  let n := mpzSizeinbase2 x
  if n % 8 = 0 then n >>> 3 else (n >>> 3) + 1

/-- The low `n` bytes of a number, highest first. -/
def outRaw (z : Nat) : Nat → ByteString
  | 0 => []
  | n + 1 => outRaw (z >>> 8) n ++ [UInt8.ofNat z]

/-- The sign is dropped. -/
def mympzOutRaw (x : Int) (n : Nat) : ByteString := outRaw x.natAbs n

def inpRaw (bs : ByteString) : Nat := bs.foldl (fun z c => z <<< 8 + c.toNat) 0

def mympzInpRaw (bs : ByteString) : Int := inpRaw bs

def byteStringSetMpz (x : Int) : ByteString := mympzOutRaw x (mympzSizeinbytes x)

section CString

@[simp] theorem charstarFromByteString_set (s : CString) :
    charstarFromByteString (byteStringSet s) = s := by
  apply Subtype.ext
  refine List.takeWhile_eq_self_iff.2 fun c hc => ?_
  have hne : c ≠ 0 := fun h => s.property (h ▸ hc)
  simpa using hne

theorem charstarFromByteString_append_zero (s y : ByteString) :
    charstarFromByteString (s ++ 0 :: y) = charstarFromByteString s := by
  apply Subtype.ext
  induction s with
  | nil => rfl
  | cons c s ih =>
      by_cases hc : c = 0
      · subst hc
        rfl
      · have hcons (l : ByteString) : (charstarFromByteString (c :: l)).val =
            c :: (charstarFromByteString l).val :=
          List.takeWhile_cons_of_pos (p := fun c => decide (c ≠ 0)) (decide_eq_true hc)
        rw [List.cons_append, hcons, hcons, ih]

end CString

section Memory

theorem memcmp_eq_zero_iff {a b : ByteString} (h : a.length = b.length) : memcmp a b = 0 ↔ a = b := by
  induction a generalizing b with
  | nil => cases b with
    | nil => simp [memcmp]
    | cons y ys => simp at h
  | cons x xs ih => cases b with
    | nil => simp at h
    | cons y ys =>
        by_cases hxy : x = y
        · simp [memcmp, hxy, ih (Nat.succ.inj h)]
        · simp only [memcmp, hxy, if_false, List.cons.injEq, false_and, iff_false]
          split <;> decide

theorem byteStringCmp_eq_zero_iff {a b : ByteString} (h : a.length = b.length) :
    byteStringCmp a b = 0 ↔ a = b := by
  have ha : a.take (min a.length b.length) = a := List.take_of_length_le (by omega)
  have hb : b.take (min a.length b.length) = b := List.take_of_length_le (by omega)
  simp only [byteStringCmp, ha, hb, if_pos h]
  split_ifs with hc
  · exact iff_of_true rfl ((memcmp_eq_zero_iff h).1 hc)
  · exact memcmp_eq_zero_iff h

@[simp] theorem length_byteStringReinit (bs : ByteString) (n : Nat) :
    (byteStringReinit bs n).length = n := by
  rw [byteStringReinit, List.length_take, List.length_append, List.length_replicate]
  omega

theorem length_memcpy {d : ByteString} {k : Nat} {s : ByteString}
    (h : k + s.length ≤ d.length) : (memcpy d k s).length = d.length := by
  simp only [memcpy, List.length_append, List.length_take, List.length_drop]
  omega

theorem take_memcpy {d : ByteString} {k : Nat} (src : ByteString) (h : k ≤ d.length) :
    (memcpy d k src).take (k + src.length) = d.take k ++ src := by
  have hlen : (d.take k ++ src).length = k + src.length := by
    rw [List.length_append, List.length_take, Nat.min_eq_left h]
  rw [memcpy, ← List.append_assoc, ← hlen, List.take_left]

end Memory

section Int

theorem intFromByteString_setInt (n : Int) : intFromByteString (byteStringSetInt n) = n % 256 := by
  have hlo : 0 ≤ n % 256 := Int.emod_nonneg n (by norm_num)
  have hhi : n % 256 < 256 := Int.emod_lt_of_pos n (by norm_num)
  obtain ⟨c, hc⟩ := Int.eq_ofNat_of_zero_le hlo
  have hc256 : c < 256 := by omega
  rw [byteStringSetInt, hc]
  simp only [Int.toNat_natCast, intFromByteString, Nat.shiftRight_eq_div_pow,
    UInt8.toNat_ofNat']
  rw [Nat.div_eq_of_lt (by omega), Nat.div_eq_of_lt (by omega), Nat.div_eq_of_lt (by omega),
    BitVec.toInt_eq_toNat_of_lt] <;> simp <;> omega

end Int

section Array

theorem twoBytesValue_twoBytes {n : Nat} (hn : n < 2 ^ 16) :
    twoBytesValue (UInt8.ofNat (n >>> 8)) (UInt8.ofNat n) = n := by
  simp only [twoBytesValue, UInt8.toNat_ofNat', Nat.shiftRight_eq_div_pow]
  omega

theorem decodeLengths_flatMap (bsa : List ByteString) (h : ∀ bs ∈ bsa, bs.length < 2 ^ 16)
    (rest : ByteString) :
    decodeLengths bsa.length (bsa.flatMap (twoBytes ·.length) ++ rest) =
      (bsa.map List.length, rest) := by
  induction bsa with
  | nil => rfl
  | cons bs bsa ih =>
      have htail := ih fun b hb => h b (List.mem_cons_of_mem _ hb)
      simp only [List.flatMap_cons, List.append_assoc, List.length_cons, List.map_cons]
      rw [twoBytes, List.cons_append, List.cons_append, List.nil_append, decodeLengths, htail,
        twoBytesValue_twoBytes (h bs List.mem_cons_self)]

theorem splitLengths_flatten (bsa : List ByteString) :
    splitLengths (bsa.map List.length) bsa.flatten = bsa := by
  induction bsa with
  | nil => rfl
  | cons bs bsa ih => simp [splitLengths, ih]

theorem length_flatMap_twoBytes (bsa : List ByteString) :
    (bsa.flatMap (twoBytes ·.length)).length = 2 * bsa.length := by
  induction bsa with
  | nil => rfl
  | cons bs bsa ih =>
      rw [List.flatMap_cons, List.length_append, ih, List.length_cons, twoBytes]
      simp only [List.length_cons, List.length_nil]
      omega

/-- Arrays are recovered as long as their counts fit into 16 bits. -/
theorem decodeArray_encodeArray {bsa : List ByteString} (hn : bsa.length < 2 ^ 16)
    (h : ∀ bs ∈ bsa, bs.length < 2 ^ 16) :
    byteStringDecodeArray (byteStringEncodeArray bsa) = bsa := by
  have hlen : (bsa.flatMap (twoBytes ·.length) ++ bsa.flatten).length =
      2 * bsa.length + (bsa.map List.length).sum := by
    rw [List.length_append, length_flatMap_twoBytes, List.length_flatten]
  rw [byteStringEncodeArray, twoBytes, List.cons_append, List.cons_append, List.nil_append,
    byteStringDecodeArray, twoBytesValue_twoBytes hn, if_neg (by omega),
    decodeLengths_flatMap bsa h, if_pos List.length_flatten, splitLengths_flatten]

theorem forall_mem_pair {bs1 bs2 : ByteString} (h1 : bs1.length < 2 ^ 16)
    (h2 : bs2.length < 2 ^ 16) : ∀ bs ∈ [bs1, bs2], bs.length < 2 ^ 16 := by
  intro bs hbs
  rcases List.mem_pair.1 hbs with rfl | rfl
  · exact h1
  · exact h2

theorem split_join {bs1 bs2 : ByteString} (h1 : bs1.length < 2 ^ 16) (h2 : bs2.length < 2 ^ 16) :
    byteStringSplit (byteStringJoin bs1 bs2) = (bs1, bs2) := by
  rw [byteStringSplit, byteStringJoin,
    decodeArray_encodeArray (by norm_num) (forall_mem_pair h1 h2)]

/-- An array is not continued to another one. -/
theorem encodeArray_append_inj {bsa bsb : List ByteString} {r s : ByteString}
    (hna : bsa.length < 2 ^ 16) (ha : ∀ bs ∈ bsa, bs.length < 2 ^ 16)
    (hnb : bsb.length < 2 ^ 16) (hb : ∀ bs ∈ bsb, bs.length < 2 ^ 16)
    (h : byteStringEncodeArray bsa ++ r = byteStringEncodeArray bsb ++ s) : bsa = bsb ∧ r = s := by
  simp only [byteStringEncodeArray, List.append_assoc] at h
  obtain ⟨hcount, hbody⟩ := List.append_inj h rfl
  have hn : bsa.length = bsb.length := by
    have hhigh := congrArg (fun l => l.getD 0 0) hcount
    have hlow := congrArg (fun l => l.getD 1 0) hcount
    rw [← twoBytesValue_twoBytes hna, ← twoBytesValue_twoBytes hnb]
    exact congrArg₂ twoBytesValue hhigh hlow
  have hdecode := decodeLengths_flatMap bsa ha (bsa.flatten ++ r)
  rw [hbody, hn, decodeLengths_flatMap bsb hb] at hdecode
  obtain ⟨hlens, hrest⟩ := Prod.mk.inj hdecode
  have hlength : bsa.flatten.length = bsb.flatten.length := by
    rw [List.length_flatten, List.length_flatten, hlens]
  obtain ⟨hflatten, hrs⟩ := List.append_inj hrest.symm hlength
  refine ⟨?_, hrs⟩
  rw [← splitLengths_flatten bsa, ← splitLengths_flatten bsb, hlens, hflatten]

theorem join_append_inj {a₁ a₂ b₁ b₂ r s : ByteString} (ha₁ : a₁.length < 2 ^ 16)
    (ha₂ : a₂.length < 2 ^ 16) (hb₁ : b₁.length < 2 ^ 16) (hb₂ : b₂.length < 2 ^ 16)
    (h : byteStringJoin a₁ a₂ ++ r = byteStringJoin b₁ b₂ ++ s) :
    (a₁ = b₁ ∧ a₂ = b₂) ∧ r = s := by
  obtain ⟨hpairs, hrs⟩ := encodeArray_append_inj (by norm_num) (forall_mem_pair ha₁ ha₂)
    (by norm_num) (forall_mem_pair hb₁ hb₂) h
  exact ⟨by simpa using hpairs, hrs⟩

theorem length_join (bs1 bs2 : ByteString) :
    (byteStringJoin bs1 bs2).length = 6 + (bs1.length + bs2.length) := by
  simp [byteStringJoin, byteStringEncodeArray, twoBytes]
  omega

end Array

section Raw

theorem inpRaw_append_singleton (bs : ByteString) (c : UInt8) :
    inpRaw (bs ++ [c]) = inpRaw bs * 256 + c.toNat := by
  simp [inpRaw, Nat.shiftLeft_eq]

theorem inpRaw_outRaw (z n : Nat) : inpRaw (outRaw z n) = z % 256 ^ n := by
  induction n generalizing z with
  | zero => simp [outRaw, inpRaw, Nat.mod_one]
  | succ n ih =>
      have hmod : z % (256 * 256 ^ n) = z % 256 + 256 * (z / 256 % 256 ^ n) := Nat.mod_mul
      rw [outRaw, inpRaw_append_singleton, ih, UInt8.toNat_ofNat', Nat.shiftRight_eq_div_pow,
        pow_succ' 256 n, hmod]
      norm_num
      omega

@[simp] theorem length_outRaw (z n : Nat) : (outRaw z n).length = n := by
  induction n generalizing z with
  | zero => rfl
  | succ n ih => simp [outRaw, ih]

theorem lt_pow_mympzSizeinbytes (z : Nat) : z < 256 ^ mympzSizeinbytes z := by
  have h := lt_two_pow_mpzSizeinbase2 z
  have hle : mpzSizeinbase2 z ≤ 8 * mympzSizeinbytes z := by
    simp only [mympzSizeinbytes, Nat.shiftRight_eq_div_pow]
    split <;> omega
  rw [show 256 = 2 ^ 8 by rfl, ← pow_mul]
  exact h.trans_le (Nat.pow_le_pow_right (by norm_num) hle)

theorem inpRaw_setMpz (z : Nat) : mympzInpRaw (byteStringSetMpz z) = z := by
  rw [mympzInpRaw, byteStringSetMpz, mympzOutRaw, Int.natAbs_natCast, inpRaw_outRaw,
    Nat.mod_eq_of_lt (lt_pow_mympzSizeinbytes z)]

theorem mympzSizeinbytes_le {z k : Nat} (hk : 0 < k) (h : z < 256 ^ k) : mympzSizeinbytes z ≤ k := by
  have hlog : mpzSizeinbase2 z ≤ 8 * k := by
    rw [mpzSizeinbase2, Int.natAbs_natCast]
    by_cases hz : z = 0
    · subst hz
      simp
      omega
    · have := (Nat.log2_lt hz).2 (by rwa [show 256 = 2 ^ 8 by rfl, ← pow_mul] at h)
      omega
  simp only [mympzSizeinbytes, Nat.shiftRight_eq_div_pow]
  split <;> omega

theorem length_setMpz (x : Int) : (byteStringSetMpz x).length = mympzSizeinbytes x :=
  length_outRaw ..

end Raw

end IdBasedEncryption.ByteStrings
