import IdBasedEncryption.PkgHtml

namespace IdBasedEncryption.Request

open ByteStrings Stdio PkgHtml

/-- What `%d` prints of a number. -/
def decimal (n : Nat) : ByteString := bytes n.repr

/-- Everything that is written on the second connection to the server, once it is
known to be one. -/
def singleRequest (emailaddr password : CString) : ByteString :=
  bytes "POST /\n" ++ (bytes "Content-Length: " ++
    (decimal (16 + strlen emailaddr.val + strlen password.val) ++ (bytes "\n\n" ++
      (bytes "mail=" ++ (emailaddr.val ++ (bytes "&password=" ++ (password.val ++ bytes "\n")))))))

section Decimal

def digitByte (c : Char) : UInt8 := UInt8.ofNat c.toNat

theorem decimal_eq (n : Nat) : decimal n = (Nat.toDigits 10 n).map digitByte := by
  rw [decimal, bytes, Nat.toList_repr]
  rfl

theorem digitByte_bounds {c : Char} (h : c.isDigit = true) :
    48 ≤ c.toNat ∧ c.toNat ≤ 57 ∧ (digitByte c).toNat = c.toNat := by
  rw [Char.isDigit, Bool.and_eq_true, decide_eq_true_eq, decide_eq_true_eq] at h
  obtain ⟨hlow, hhigh⟩ := h
  have hlow' : 48 ≤ c.toNat := UInt32.le_iff_toNat_le.1 hlow
  have hhigh' : c.toNat ≤ 57 := UInt32.le_iff_toNat_le.1 hhigh
  refine ⟨hlow', hhigh', ?_⟩
  rw [digitByte, UInt8.toNat_ofNat']
  omega

theorem le_ofDigitChars (l : List Char) (n : Nat) : n ≤ Nat.ofDigitChars 10 l n := by
  induction l generalizing n with
  | nil => rw [Nat.ofDigitChars_nil]
  | cons c l ih =>
      rw [Nat.ofDigitChars_cons]
      exact (by omega : n ≤ 10 * n + (c.toNat - '0'.toNat)).trans (ih _)

theorem contentLength_digits {l : List Char} (hl : ∀ c ∈ l, c.isDigit = true) {n : Nat}
    (hlt : Nat.ofDigitChars 10 l n < 2 ^ 31) (x : ByteString) :
    contentLength (l.map digitByte ++ newline :: x) n = Nat.ofDigitChars 10 l n := by
  induction l generalizing n with
  | nil => rfl
  | cons c l ih =>
      obtain ⟨hc, hl⟩ := List.forall_mem_cons.1 hl
      obtain ⟨hlow, hhigh, hbyte⟩ := digitByte_bounds hc
      rw [Nat.ofDigitChars_cons] at hlt ⊢
      have hle := (le_ofDigitChars l (10 * n + (c.toNat - '0'.toNat))).trans_lt hlt
      have hzero : '0'.toNat = 48 := rfl
      have hnot : ¬(digitByte c < 48 ∨ 57 < digitByte c) := by
        rw [UInt8.lt_iff_toNat_lt, UInt8.lt_iff_toNat_lt, hbyte]
        have h48 : (48 : UInt8).toNat = 48 := rfl
        have h57 : (57 : UInt8).toNat = 57 := rfl
        omega
      have hnext : (((n : Int) * 10).bmod (2 ^ 32) + ((digitByte c).toNat - 48)).bmod (2 ^ 32) =
          (10 * n + (c.toNat - '0'.toNat) : Nat) := by
        rw [hbyte, Int.bmod_eq_of_le (n := (n : Int) * 10) (by omega) (by omega),
          Int.bmod_eq_of_le (by omega) (by omega)]
        omega
      rw [List.map_cons, List.cons_append, contentLength, if_neg hnot, hnext]
      exact ih hl hlt

theorem contentLength_decimal {n : Nat} (hlt : n < 2 ^ 31) (x : ByteString) :
    contentLength (decimal n ++ newline :: x) 0 = n := by
  have hval : Nat.ofDigitChars 10 (Nat.toDigits 10 n) 0 = n := Nat.ofDigitChars_ten_toDigits
  have h := contentLength_digits (n := 0)
    (fun c hc => Nat.isDigit_of_mem_toDigits (b := 10) (n := n) (by norm_num) le_rfl hc)
    (by rwa [hval]) x
  rwa [hval, ← decimal_eq] at h

end Decimal

end IdBasedEncryption.Request
