import IdBasedEncryption.ByteStrings

namespace IdBasedEncryption.ArrayDecoding

open ByteStrings

/-- What an `int` of 32 bits keeps of a number. -/
def toInt32 (n : Int) : Int := n.bmod (2 ^ 32)

def dataAt (bs : ByteString) (i : Int) : Int := (bs.getD i.toNat 0).toNat

/-- The state after the first loop, with the indices of `data` it has read. -/
structure Lengths where
  lens : List Int
  offset : Int
  total : Int
  reads : List Int

def readLengths (bs : ByteString) : Nat → Int → Int → Lengths
  | 0, offset, total => ⟨[], offset, total, []⟩
  | n + 1, offset, total =>
      let len := toInt32 (dataAt bs offset * 256 + dataAt bs (toInt32 (offset + 1)))
      let r := readLengths bs n (toInt32 (offset + 2)) (toInt32 (total + len))
      { r with lens := len :: r.lens, reads := offset :: toInt32 (offset + 1) :: r.reads }

/-- The copies of the second loop and the indices of `data` that they read. -/
def copyItems (bs : ByteString) : List Int → Int → List ByteString × List Int
  | [], _ => ([], [])
  | len :: lens, offset =>
      let r := copyItems bs lens (toInt32 (offset + len))
      ((bs.drop offset.toNat).take len.toNat :: r.1,
        (List.range len.toNat).map (fun i : Nat => offset + i) ++ r.2)

structure Decoded where
  n : Int
  bsarray : Option (List ByteString)
  reads : List Int

/-- `byte_string_decode_array` over the `int`s of the source, `none` being the
null array. -/
def byteStringDecodeArray32 (bs : ByteString) : Decoded :=
  if bs.length < 2 then ⟨0, none, []⟩
  else
    let n := toInt32 (dataAt bs 0 * 256 + dataAt bs 1)
    if bs.length < toInt32 (2 + 2 * n) then ⟨0, none, [0, 1]⟩
    else
      let r := readLengths bs n.toNat 2 0
      if bs.length ≠ toInt32 (r.total + r.offset) then ⟨0, none, 0 :: 1 :: r.reads⟩
      else
        let c := copyItems bs r.lens r.offset
        ⟨n, some c.1, 0 :: 1 :: (r.reads ++ c.2)⟩

section Int32

theorem toInt32_eq {n : Int} (h0 : 0 ≤ n) (h : n < 2 ^ 31) : toInt32 n = n := by
  rw [toInt32, Int.bmod_def]
  norm_num
  omega

theorem toInt32_add_left (m n : Int) : toInt32 (toInt32 m + n) = toInt32 (m + n) :=
  Int.bmod_add_bmod

/-- A total that wraps around is negative, zero or one. -/
theorem toInt32_eq_iff {s : Int} {len : Int} (hlen : 2 ≤ len) (hlt : len < 2 ^ 31) (h0 : 0 ≤ s)
    (hs : s ≤ 2 ^ 32 + 1) : len = toInt32 s ↔ len = s := by
  rw [toInt32, Int.bmod_def]
  norm_num at hlt hs ⊢
  omega

end Int32

section Lengths

theorem drop_eq_cons_cons {bs : ByteString} {k : Nat} (h : k + 2 ≤ bs.length) :
    ∃ high low, bs.drop k = high :: low :: bs.drop (k + 2) ∧
      dataAt bs k = (high.toNat : Int) ∧ dataAt bs ((k : Int) + 1) = low.toNat := by
  have hk : k < bs.length := by omega
  have hk1 : k + 1 < bs.length := by omega
  have hnat : ((k : Int) + 1).toNat = k + 1 := by omega
  refine ⟨bs[k], bs[k + 1], ?_, ?_, ?_⟩
  · rw [List.drop_eq_getElem_cons hk, List.drop_eq_getElem_cons hk1]
  · simp [dataAt, hk]
  · simp [dataAt, hnat, hk1]

theorem twoBytesValue_lt (high low : UInt8) : twoBytesValue high low < 2 ^ 16 := by
  have hhigh := high.toNat_lt
  have hlow := low.toNat_lt
  rw [twoBytesValue]
  omega

theorem twoBytes_twoBytesValue (high low : UInt8) :
    twoBytes (twoBytesValue high low) = [high, low] := by
  have hhigh := high.toNat_lt
  have hlow := low.toNat_lt
  have h1 : twoBytesValue high low / 256 % 256 = high.toNat := by
    rw [twoBytesValue]
    omega
  have h2 : twoBytesValue high low % 256 = low.toNat := by
    rw [twoBytesValue]
    omega
  rw [twoBytes, Nat.shiftRight_eq_div_pow]
  refine congrArg₂ (fun a b => [a, b]) (UInt8.toNat_inj.1 ?_) (UInt8.toNat_inj.1 ?_)
  · rw [UInt8.toNat_ofNat', h1]
  · rw [UInt8.toNat_ofNat', h2]

/-- Lengths whose header is there. -/
structure IsHeader (n : Nat) (bs : ByteString) (ls : List Nat) (rest : ByteString) : Prop where
  length_eq : ls.length = n
  lt : ∀ l ∈ ls, l < 2 ^ 16
  append_eq : ls.flatMap twoBytes ++ rest = bs

theorem isHeader_decodeLengths {n : Nat} {bs : ByteString} (h : 2 * n ≤ bs.length) :
    IsHeader n bs (decodeLengths n bs).1 (bs.drop (2 * n)) ∧
      (decodeLengths n bs).2 = bs.drop (2 * n) := by
  induction n generalizing bs with
  | zero => exact ⟨⟨rfl, by simp [decodeLengths], rfl⟩, rfl⟩
  | succ n ih =>
      rcases bs with _ | ⟨high, _ | ⟨low, bs⟩⟩
      · rw [List.length_nil] at h
        omega
      · rw [List.length_singleton] at h
        omega
      · rw [List.length_cons, List.length_cons] at h
        have hshort : 2 * n ≤ bs.length := by omega
        obtain ⟨⟨hlength, hlt, happend⟩, hrest⟩ := ih hshort
        have hdrop : (high :: low :: bs).drop (2 * (n + 1)) = bs.drop (2 * n) := by
          rw [Nat.mul_succ, List.drop_succ_cons, List.drop_succ_cons]
        rw [hdrop]
        refine ⟨⟨?_, ?_, ?_⟩, hrest⟩
        · rw [decodeLengths, List.length_cons, hlength]
        · rw [decodeLengths, List.forall_mem_cons]
          exact ⟨twoBytesValue_lt high low, hlt⟩
        · rw [decodeLengths, List.flatMap_cons, twoBytes_twoBytesValue, List.append_assoc, happend]
          rfl

theorem IsHeader.sum_le {n : Nat} {bs rest : ByteString} {ls : List Nat}
    (h : IsHeader n bs ls rest) : ls.sum ≤ n * (2 ^ 16 - 1) := by
  have hle := List.sum_le_card_nsmul ls (2 ^ 16 - 1) fun l hl => Nat.le_sub_one_of_lt (h.lt l hl)
  rwa [h.length_eq, smul_eq_mul] at hle

theorem readLengths_eq {bs : ByteString} (hlen : bs.length < 2 ^ 31) {n k : Nat}
    (hk : k + 2 * n ≤ bs.length) (total : Int) :
    readLengths bs n k (toInt32 total) =
      ⟨(decodeLengths n (bs.drop k)).1.map (↑), (k + 2 * n : Nat),
        toInt32 (total + (decodeLengths n (bs.drop k)).1.sum),
        (List.range' k (2 * n)).map (↑)⟩ := by
  induction n generalizing k total with
  | zero => simp [readLengths, decodeLengths]
  | succ n ih =>
      have hk2 : k + 2 ≤ bs.length := by omega
      obtain ⟨high, low, hdrop, hhigh, hlow⟩ := drop_eq_cons_cons hk2
      have hk1 : toInt32 ((k : Int) + 1) = k + 1 := toInt32_eq (by omega) (by omega)
      have hk3 : toInt32 ((k : Int) + 2) = (k + 2 : Nat) := toInt32_eq (by omega) (by omega)
      have hvalue : toInt32 ((high.toNat : Int) * 256 + low.toNat) = twoBytesValue high low := by
        have hlt := twoBytesValue_lt high low
        rw [twoBytesValue] at hlt ⊢
        exact toInt32_eq (by omega) (by omega)
      have hrange : List.range' k (2 * (n + 1)) = k :: (k + 1) :: List.range' (k + 2) (2 * n) := by
        rw [Nat.mul_succ, List.range'_succ, List.range'_succ]
      rw [readLengths, hk1, hk3, hhigh, hlow, hvalue, toInt32_add_left, ih (by omega), hdrop,
        decodeLengths, hrange]
      simp only [List.map_cons, List.sum_cons, Nat.cast_add, Nat.cast_one, Lengths.mk.injEq,
        true_and, and_true]
      constructor
      · push_cast
        ring
      · rw [add_assoc]

end Lengths

section Items

theorem splitLengths_spec {ls : List Nat} {bs : ByteString} (h : bs.length = ls.sum) :
    (splitLengths ls bs).map List.length = ls ∧ (splitLengths ls bs).flatten = bs := by
  induction ls generalizing bs with
  | nil => exact ⟨rfl, (List.eq_nil_of_length_eq_zero h).symm⟩
  | cons l ls ih =>
      rw [List.sum_cons] at h
      have hdrop : (bs.drop l).length = ls.sum := by
        rw [List.length_drop]
        omega
      obtain ⟨hmap, hflatten⟩ := ih hdrop
      rw [splitLengths, List.map_cons, List.flatten_cons, hmap, hflatten, List.length_take,
        Nat.min_eq_left (by omega), List.take_append_drop]
      exact ⟨rfl, rfl⟩

theorem copyItems_eq {bs : ByteString} (hlen : bs.length < 2 ^ 31) {ls : List Nat} {k : Nat}
    (hk : k + ls.sum ≤ bs.length) :
    copyItems bs (ls.map (↑)) k =
      (splitLengths ls (bs.drop k), (List.range' k ls.sum).map (↑)) := by
  induction ls generalizing k with
  | nil => rfl
  | cons l ls ih =>
      rw [List.sum_cons] at hk
      have hnext : toInt32 ((k : Int) + l) = (k + l : Nat) := toInt32_eq (by omega) (by omega)
      have hrange : List.range' k (l + ls.sum) = List.range' k l ++ List.range' (k + l) ls.sum :=
        (List.range'_append_1 ..).symm
      have hreads : (List.range l).map (fun i : Nat => (k : Int) + i) = (List.range' k l).map (↑) := by
        rw [List.range'_eq_map_range, List.map_map]
        exact List.map_congr_left fun i _ => (Nat.cast_add (R := Int) k i).symm
      rw [List.map_cons, copyItems, hnext, ih (by omega), splitLengths, List.drop_drop,
        List.sum_cons, hrange, List.map_append, Int.toNat_natCast, Int.toNat_natCast]
      exact congrArg₂ Prod.mk rfl (congrArg₂ _ hreads rfl)

end Items

section Array

theorem encodeArray_splitLengths {n : Nat} {bs rest : ByteString} {ls : List Nat}
    (h : IsHeader n bs ls rest) (hrest : rest.length = ls.sum) :
    (splitLengths ls rest).length = n ∧
      byteStringEncodeArray (splitLengths ls rest) = twoBytes n ++ bs := by
  obtain ⟨hmap, hflatten⟩ := splitLengths_spec hrest
  have hlength : (splitLengths ls rest).length = n := by
    rw [← List.length_map List.length, hmap, h.length_eq]
  have hheader : (splitLengths ls rest).flatMap (twoBytes ·.length) = ls.flatMap twoBytes := by
    rw [← List.flatMap_map List.length twoBytes, hmap]
  refine ⟨hlength, ?_⟩
  rw [byteStringEncodeArray, hlength, hheader, hflatten, h.append_eq]

theorem headerCount_eq (high low : UInt8) (rest : ByteString) :
    toInt32 (dataAt (high :: low :: rest) 0 * 256 + dataAt (high :: low :: rest) 1) =
      twoBytesValue high low := by
  have hlt := twoBytesValue_lt high low
  have hvalue : dataAt (high :: low :: rest) 0 * 256 + dataAt (high :: low :: rest) 1 =
      twoBytesValue high low := by simp [dataAt, twoBytesValue]
  rw [hvalue]
  exact toInt32_eq (by omega) (by omega)

theorem decodeArray32_short {high low : UInt8} {rest : ByteString}
    (h : rest.length < 2 * twoBytesValue high low) :
    byteStringDecodeArray32 (high :: low :: rest) = ⟨0, none, [0, 1]⟩ := by
  have hlength : (high :: low :: rest).length = rest.length + 2 := rfl
  have hlt := twoBytesValue_lt high low
  have hsize : toInt32 (2 + 2 * (twoBytesValue high low : Int)) = 2 + 2 * twoBytesValue high low :=
    toInt32_eq (by omega) (by omega)
  rw [byteStringDecodeArray32, if_neg (by omega)]
  simp only [headerCount_eq, hsize]
  rw [if_pos (by omega)]

/-- No sum that wraps around passes for the number of bytes. -/
theorem decodeArray32_eq {high low : UInt8} {rest : ByteString} {n : Nat}
    (hlen : (high :: low :: rest).length < 2 ^ 31) (hn : twoBytesValue high low = n)
    (h : 2 * n ≤ rest.length) :
    let ls := (decodeLengths n rest).1
    byteStringDecodeArray32 (high :: low :: rest) =
      if (rest.drop (2 * n)).length = ls.sum then
        ⟨n, some (splitLengths ls (rest.drop (2 * n))),
          0 :: 1 :: ((List.range' 2 (2 * n)).map (↑) ++ (List.range' (2 + 2 * n) ls.sum).map (↑))⟩
      else ⟨0, none, 0 :: 1 :: (List.range' 2 (2 * n)).map (↑)⟩ := by
  have hlength : (high :: low :: rest).length = rest.length + 2 := rfl
  have hn16 : n < 2 ^ 16 := hn ▸ twoBytesValue_lt high low
  have hsize : toInt32 (2 + 2 * (n : Int)) = 2 + 2 * n := toInt32_eq (by omega) (by omega)
  have hread := readLengths_eq hlen (n := n) (k := 2) (by omega) 0
  have hzero : toInt32 0 = 0 := rfl
  have htail : (high :: low :: rest).drop 2 = rest := rfl
  rw [htail, zero_add, hzero, Nat.cast_ofNat] at hread
  intro ls
  have hsum : ls.sum ≤ n * (2 ^ 16 - 1) := (isHeader_decodeLengths h).1.sum_le
  have htotal : ((high :: low :: rest).length : Int) =
      toInt32 (toInt32 ls.sum + (2 + 2 * n : Nat)) ↔ (rest.drop (2 * n)).length = ls.sum := by
    rw [toInt32_add_left, toInt32_eq_iff (by omega) (by omega) (by omega) (by omega),
      List.length_drop]
    omega
  rw [byteStringDecodeArray32, if_neg (by omega)]
  simp only [headerCount_eq, hn, hsize, Int.toNat_natCast, hread]
  rw [if_neg (by omega)]
  by_cases hexact : (rest.drop (2 * n)).length = ls.sum
  · have hk : 2 + 2 * n + ls.sum ≤ (high :: low :: rest).length := by
      rw [List.length_drop] at hexact
      omega
    have hdrop : (high :: low :: rest).drop (2 + 2 * n) = rest.drop (2 * n) := by
      rw [← List.drop_drop, htail]
    rw [if_neg (not_not.2 (htotal.2 hexact)), if_pos hexact, copyItems_eq hlen hk, hdrop]
  · rw [if_pos (hexact ∘ htotal.1), if_neg hexact]

/-- What a finished decoder leaves: either the items of the array it was given,
or a null array. -/
structure IsDecoded (bs : ByteString) (d : Decoded) : Prop where
  bsarray_eq : d.bsarray.getD [] = byteStringDecodeArray bs
  reads : ∀ i ∈ d.reads, 0 ≤ i ∧ i < bs.length
  items {bsa : List ByteString} (h : d.bsarray = some bsa) :
    d.n = bsa.length ∧ byteStringEncodeArray bsa = bs
  null (h : d.bsarray = none) : d.n = 0

theorem isDecoded_none {bs : ByteString} {reads : List Int} (h : byteStringDecodeArray bs = [])
    (hreads : ∀ i ∈ reads, 0 ≤ i ∧ i < bs.length) : IsDecoded bs ⟨0, none, reads⟩ where
  bsarray_eq := h.symm
  reads := hreads
  items h := by cases h
  null _ := rfl

theorem mem_reads {k n m : Nat} (h : k + n ≤ m) {i : Int}
    (hi : i ∈ (List.range' k n).map ((↑) : Nat → Int)) : 0 ≤ i ∧ i < m := by
  obtain ⟨j, hj, rfl⟩ := List.mem_map.1 hi
  rw [List.mem_range'_1] at hj
  omega

theorem isDecoded_decodeArray32 {bs : ByteString} (hlen : bs.length < 2 ^ 31) :
    IsDecoded bs (byteStringDecodeArray32 bs) := by
  match bs, hlen with
  | [], _ => exact isDecoded_none rfl fun i hi => by cases hi
  | [b], _ => exact isDecoded_none rfl fun i hi => by cases hi
  | high :: low :: rest, hlen =>
      have hlength : (high :: low :: rest).length = rest.length + 2 := rfl
      generalize hn : twoBytesValue high low = n
      have hstart {is : List Int} (his : ∀ i ∈ is, 0 ≤ i ∧ i < (high :: low :: rest).length) :
          ∀ i ∈ 0 :: 1 :: is, 0 ≤ i ∧ i < (high :: low :: rest).length := by
        rw [List.forall_mem_cons, List.forall_mem_cons]
        exact ⟨by omega, by omega, his⟩
      by_cases hshort : rest.length < 2 * n
      · rw [decodeArray32_short (hn ▸ hshort)]
        refine isDecoded_none ?_ (hstart fun i hi => by cases hi)
        rw [byteStringDecodeArray, hn, if_pos hshort]
      · have hhalf := Nat.le_of_not_lt hshort
        obtain ⟨hheader, hrest⟩ := isHeader_decodeLengths hhalf
        have hdecode : byteStringDecodeArray (high :: low :: rest) =
            if (rest.drop (2 * n)).length = (decodeLengths n rest).1.sum then
              splitLengths (decodeLengths n rest).1 (rest.drop (2 * n)) else [] := by
          simp only [byteStringDecodeArray, hn, if_neg hshort, hrest]
        have hreads (i : Int) (hi : i ∈ (List.range' 2 (2 * n)).map ((↑) : Nat → Int)) :
            0 ≤ i ∧ i < (high :: low :: rest).length := mem_reads (by omega) hi
        rw [decodeArray32_eq hlen hn hhalf]
        split
        · rename_i hexact
          obtain ⟨hcount, hencode⟩ := encodeArray_splitLengths hheader hexact
          rw [if_pos hexact] at hdecode
          rw [List.length_drop] at hexact
          constructor
          · exact hdecode.symm
          · apply hstart
            intro i hi
            rcases List.mem_append.1 hi with hi | hi
            · exact hreads i hi
            · exact mem_reads (by omega) hi
          · intro bsa h
            obtain rfl := Option.some.inj h
            exact ⟨by rw [hcount], by rw [hencode, ← hn, twoBytes_twoBytesValue]; rfl⟩
          · intro h
            cases h
        · rename_i hexact
          rw [if_neg hexact] at hdecode
          exact isDecoded_none hdecode (hstart hreads)

/-- The decoder stays inside the bytes and accepts exactly the arrays that the
encoder makes. -/
theorem decodeArray32_exact :
    (∀ bs : ByteString, bs.length < 2 ^ 31 →
      (∀ i ∈ (byteStringDecodeArray32 bs).reads, 0 ≤ i ∧ i < bs.length) ∧
      ((∃ bsa, (byteStringDecodeArray32 bs).bsarray = some bsa ∧
          (byteStringDecodeArray32 bs).n = bsa.length ∧ byteStringEncodeArray bsa = bs) ∨
        ((byteStringDecodeArray32 bs).bsarray = none ∧ (byteStringDecodeArray32 bs).n = 0))) ∧
    ∀ bsa : List ByteString, bsa.length < 2 ^ 16 → (∀ bs ∈ bsa, bs.length < 2 ^ 16) →
      (byteStringEncodeArray bsa).length < 2 ^ 31 →
      (byteStringDecodeArray32 (byteStringEncodeArray bsa)).bsarray = some bsa := by
  constructor
  · intro bs hlen
    have h := isDecoded_decodeArray32 hlen
    refine ⟨h.reads, ?_⟩
    cases hbsa : (byteStringDecodeArray32 bs).bsarray with
    | none => exact Or.inr ⟨rfl, h.null hbsa⟩
    | some bsa => exact Or.inl ⟨bsa, rfl, h.items hbsa⟩
  · intro bsa hn hbs hlen
    have h := (isDecoded_decodeArray32 hlen).bsarray_eq
    rw [decodeArray_encodeArray hn hbs] at h
    generalize hd : (byteStringDecodeArray32 (byteStringEncodeArray bsa)).bsarray = d at h
    cases d with
    | some items => exact congrArg some h
    | none =>
        -- only the empty array could be taken for a null array
        obtain rfl : [] = bsa := h
        have hencode : byteStringEncodeArray [] = [0, 0] := by decide
        have hempty : (byteStringDecodeArray32 [0, 0]).bsarray = some [] := by decide
        rw [hencode, hempty] at hd
        cases hd

theorem decodeArray32_exact_hello :
    (byteStringDecodeArray32 (byteStringEncodeArray [bytes "Hello", []])).bsarray =
      some [bytes "Hello", []] ∧
    ∀ i ∈ (byteStringDecodeArray32 [0, 1, 0, 5, 72]).reads, 0 ≤ i ∧ i < 5 :=
  ⟨decodeArray32_exact.2 _ (by decide) (by decide) (by decide),
    (decodeArray32_exact.1 [0, 1, 0, 5, 72] (by decide)).1⟩

end Array

end IdBasedEncryption.ArrayDecoding
