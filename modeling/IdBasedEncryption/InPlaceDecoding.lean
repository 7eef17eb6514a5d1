import IdBasedEncryption.AccessTraces
import IdBasedEncryption.FormFields

namespace IdBasedEncryption.InPlaceDecoding

open ByteStrings FuelLoops Stdio PkgHtml FormFields AccessTraces

section Trace

/-- A buffer with the accesses that were made to it. -/
structure Buffer where
  s : ByteString
  log : List (Access Nat)

def Buffer.read (b : Buffer) (i : Nat) : Buffer := ⟨b.s, b.log ++ [.read i]⟩

def Buffer.write (b : Buffer) (j : Nat) (c : UInt8) : Buffer := ⟨b.s.set j c, b.log ++ [.write j]⟩

structure Cursor where
  buf : Buffer
  i : Nat
  j : Nat

/-- `translateRound` with every access to the string. -/
def accessRound (n : Nat) (c : Cursor) : Buffer ⊕ Cursor :=
  if c.i < n then
    let ch := c.buf.s.getD c.i 0
    let b := c.buf.read c.i
    if ch = 43 then .inr ⟨b.write c.j 32, c.i + 1, c.j + 1⟩
    else
      let b := b.read c.i
      if ch = 37 then
        if c.i + 1 = n then .inl (b.write c.j 0)
        else
          let b := (b.read (c.i + 1)).write c.j (hextod (b.s.getD (c.i + 1) 0) * 16)
          if c.i + 2 = n then .inl (b.write c.j 0)
          else
            let ch := b.s.getD c.j 0 + hextod (b.s.getD (c.i + 2) 0)
            .inr ⟨((b.read (c.i + 2)).read c.j).write c.j ch, c.i + 3, c.j + 1⟩
      else .inr ⟨(b.read c.i).write c.j ch, c.i + 1, c.j + 1⟩
  else .inl (c.buf.write c.j 0)

def accesses (s : ByteString) : Nat → Option Buffer :=
  loop (accessRound (strlen s)) ⟨⟨s, []⟩, 0, 0⟩

def Cursor.erase (c : Cursor) : Translate := ⟨c.buf.s, c.i, c.j⟩

theorem map_accessRound (n : Nat) (c : Cursor) :
    Sum.map Buffer.s Cursor.erase (accessRound n c) = translateRound n c.erase := by
  obtain ⟨⟨s, log⟩, i, j⟩ := c
  change _ = translateRound n ⟨s, i, j⟩
  simp only [accessRound, translateRound, Buffer.read, Buffer.write]
  split_ifs <;> rfl

/-- Without the trace this is `translate`. -/
theorem map_accesses (s : ByteString) (fuel : Nat) :
    (accesses s fuel).map Buffer.s = PkgHtml.translate s fuel :=
  loop_map _ _ (map_accessRound (strlen s)) _ fuel

end Trace

section Order

/-- What holds of the accesses when `i` bytes have been read and `j` were written. -/
structure Ordered (n : Nat) (c : Cursor) : Prop where
  writes : WritesIn (· ≤ n) c.buf.log
  order : ReadFirst (· < n) c.buf.log
  le : c.j ≤ c.i
  bound : c.i ≤ n
  reads : ∀ k, k < c.i → .read k ∈ c.buf.log

variable {n : Nat} {c d : Cursor}

theorem Buffer.mem_read {b : Buffer} {k : Nat} (h : .read k ∈ b.log) (i : Nat) :
    .read k ∈ (b.read i).log := List.mem_append_left _ h

theorem Buffer.mem_read_self (b : Buffer) (i : Nat) : .read i ∈ (b.read i).log :=
  List.mem_append_right _ List.mem_cons_self

theorem Buffer.mem_write {b : Buffer} {k : Nat} (h : .read k ∈ b.log) (j : Nat) (v : UInt8) :
    .read k ∈ (b.write j v).log := List.mem_append_left _ h

theorem Ordered.read (h : Ordered n c) (i : Nat) : Ordered n ⟨c.buf.read i, c.i, c.j⟩ where
  writes := h.writes.read i
  order := h.order.read i
  le := h.le
  bound := h.bound
  reads k hk := Buffer.mem_read (h.reads k hk) i

theorem Ordered.next (h : Ordered n c) (hlt : c.i < n) :
    Ordered n ⟨c.buf.read c.i, c.i + 1, c.j⟩ where
  writes := h.writes.read c.i
  order := h.order.read c.i
  le := Nat.le_succ_of_le h.le
  bound := hlt
  reads k hk := by
    rcases Nat.lt_succ_iff_lt_or_eq.1 hk with hk | rfl
    · exact Buffer.mem_read (h.reads k hk) c.i
    · exact Buffer.mem_read_self c.buf c.i

theorem Ordered.write (h : Ordered n c) (hlt : c.j < c.i) (v : UInt8) :
    Ordered n ⟨c.buf.write c.j v, c.i, c.j⟩ where
  writes := h.writes.write (h.le.trans h.bound)
  order := h.order.write fun _ => h.reads _ hlt
  le := h.le
  bound := h.bound
  reads k hk := Buffer.mem_write (h.reads k hk) c.j v

theorem Ordered.advance (h : Ordered n c) (hlt : c.j < c.i) : Ordered n ⟨c.buf, c.i, c.j + 1⟩ where
  writes := h.writes
  order := h.order
  le := hlt
  bound := h.bound
  reads := h.reads

/-- The last write may go to the place of the terminator. -/
theorem Ordered.finish (h : Ordered n c) (hn : c.j < c.i ∨ c.i = n) (v : UInt8) :
    WritesIn (· ≤ n) (c.buf.write c.j v).log ∧ ReadFirst (· < n) (c.buf.write c.j v).log := by
  refine ⟨h.writes.write (h.le.trans h.bound), h.order.write fun hj => ?_⟩
  have hle := h.le
  exact h.reads _ (by omega)

theorem ordered_accessRound (h : Ordered n c) (hround : accessRound n c = .inr d) :
    Ordered n d := by
  have hle := h.le
  simp only [accessRound] at hround
  split_ifs at hround with hlt hplus hpercent h₁ h₂
  · obtain rfl := Sum.inr.inj hround
    have hj : c.j < c.i + 1 := by omega
    exact ((h.next hlt).write hj 32).advance hj
  · obtain rfl := Sum.inr.inj hround
    have hj₁ : c.j < c.i + 1 + 1 := by omega
    have hj₂ : c.j < c.i + 1 + 1 + 1 := by omega
    exact ((((((h.next hlt).read c.i).next (show c.i + 1 < n by omega)).write hj₁ _).next
      (show c.i + 1 + 1 < n by omega)).read c.j |>.write hj₂ _).advance hj₂
  · obtain rfl := Sum.inr.inj hround
    have hj : c.j < c.i + 1 := by omega
    exact ((((h.next hlt).read c.i).read c.i).write hj _).advance hj

theorem ordered_accessRound_inl {b : Buffer} (h : Ordered n c) (hround : accessRound n c = .inl b) :
    WritesIn (· ≤ n) b.log ∧ ReadFirst (· < n) b.log := by
  have hle := h.le
  have hbound := h.bound
  simp only [accessRound] at hround
  split_ifs at hround with hlt hplus hpercent h₁ h₂
  · obtain rfl := Sum.inl.inj hround
    exact ((h.next hlt).read c.i).finish (.inr h₁) 0
  · obtain rfl := Sum.inl.inj hround
    have hj : c.j < c.i + 1 + 1 := by omega
    exact ((((h.next hlt).read c.i).next (show c.i + 1 < n by omega)).write hj _).finish (.inl hj) 0
  · obtain rfl := Sum.inl.inj hround
    exact h.finish (.inr (by omega)) 0

end Order

section Encoding

/-- The two digits with which a form may write a number below 16. -/
def IsHexDigit (ch : UInt8) (d : Nat) : Prop :=
  ∃ digits ∈ ["0123456789abcdef", "0123456789ABCDEF"], (bytes digits)[d]? = some ch

/-- The percent-encodings of a string. -/
inductive Encodes : ByteString → ByteString → Prop
  | nil : Encodes [] []
  | literal {c : UInt8} {e w : ByteString} (hplus : c ≠ 43) (hpercent : c ≠ 37) :
      Encodes e w → Encodes (c :: e) (c :: w)
  | space {e w : ByteString} : Encodes e w → Encodes (43 :: e) (32 :: w)
  | escape {a b c : UInt8} {e w : ByteString} (ha : IsHexDigit a (c.toNat / 16))
      (hb : IsHexDigit b (c.toNat % 16)) : Encodes e w → Encodes (37 :: a :: b :: e) (c :: w)

theorem hextod_of_isHexDigit {ch : UInt8} {d : Nat} (h : IsHexDigit ch d) :
    hextod ch = UInt8.ofNat d ∧ ch ≠ 0 := by
  obtain ⟨digits, hdigits, hd⟩ := h
  have hlt : d < 16 := by
    have hlen : (bytes digits).length = 16 := by
      simp only [List.mem_cons, List.not_mem_nil, or_false] at hdigits
      rcases hdigits with rfl | rfl <;> decide
    exact hlen ▸ (List.getElem?_eq_some_iff.1 hd).1
  have hall : ∀ digits ∈ ["0123456789abcdef", "0123456789ABCDEF"], ∀ d < 16,
      ∀ ch ∈ (bytes digits)[d]?, hextod ch = UInt8.ofNat d ∧ ch ≠ 0 := by decide +kernel
  exact hall digits hdigits d hlt ch hd

theorem hextod_digits {a b c : UInt8} (ha : IsHexDigit a (c.toNat / 16))
    (hb : IsHexDigit b (c.toNat % 16)) : hextod a * 16 + hextod b = c := by
  rw [(hextod_of_isHexDigit ha).1, (hextod_of_isHexDigit hb).1]
  apply UInt8.toNat_inj.1
  have hc := c.toNat_lt
  have h16 : (16 : UInt8).toNat = 16 := rfl
  simp only [UInt8.toNat_add, UInt8.toNat_mul, UInt8.toNat_ofNat', h16]
  omega

variable {e w : ByteString}

theorem Encodes.decoded_eq (h : Encodes e w) : decoded e = w := by
  induction h with
  | nil => rfl
  | literal hplus hpercent _ ih => rw [decoded_plain hplus hpercent, ih]
  | space _ ih => rw [decoded_plus, ih]
  | escape ha hb _ ih => rw [decoded_escape, ih, hextod_digits ha hb]

/-- An encoding of a string is a string. -/
theorem Encodes.zero_notMem (h : Encodes e w) (hw : 0 ∉ w) : 0 ∉ e := by
  induction h with
  | nil => exact hw
  | literal _ _ _ ih =>
      obtain ⟨hc, hw⟩ := not_or.1 (List.mem_cons.not.1 hw)
      exact List.mem_cons.not.2 (not_or.2 ⟨hc, ih hw⟩)
  | space _ ih =>
      have hrest := ih fun h => hw (List.mem_cons_of_mem _ h)
      exact List.mem_cons.not.2 (not_or.2 ⟨by decide, hrest⟩)
  | escape ha hb _ ih =>
      have hrest := ih fun h => hw (List.mem_cons_of_mem _ h)
      have hdigits := List.mem_cons.not.2 (not_or.2 ⟨(hextod_of_isHexDigit hb).2.symm, hrest⟩)
      have hescape := List.mem_cons.not.2 (not_or.2 ⟨(hextod_of_isHexDigit ha).2.symm, hdigits⟩)
      exact List.mem_cons.not.2 (not_or.2 ⟨by decide, hescape⟩)

end Encoding

/-- The string `s` is in the buffer, with `x` behind its terminator. -/
theorem returns_accesses {s : ByteString} (hs : 0 ∉ s) (x : ByteString) :
    ∃ b y, Returns (accesses (s ++ 0 :: x)) b ∧ b.s = decoded s ++ 0 :: y ∧
      WritesIn (· ≤ s.length) b.log ∧ ReadFirst (· < s.length) b.log := by
  have hn : strlen (s ++ 0 :: x) = s.length := by
    have hlen := congrArg (fun t => t.val.length) (charstarFromByteString_append_zero s x)
    rw [← strlen_of_notMem hs]
    exact hlen
  obtain ⟨y, m, hm⟩ := returns_translateLoop [] [] s x (i := 0) (j := 0) rfl rfl
    (Nat.zero_add _).symm
  obtain ⟨b, hb, hbs⟩ : ∃ b, accesses (s ++ 0 :: x) m = some b ∧ b.s = decoded s ++ 0 :: y := by
    have hrun := hm m le_rfl
    have hmap := map_accesses (s ++ 0 :: x) m
    rw [PkgHtml.translate, hn] at hmap
    rw [List.nil_append, List.nil_append] at hrun
    rw [hrun, List.nil_append] at hmap
    exact Option.map_eq_some_iff.1 hmap
  have hret : Returns (accesses (s ++ 0 :: x)) b := returns_loop_of_eq hb
  refine ⟨b, y, hret, hbs, ?_⟩
  rw [accesses, hn] at hret
  refine hret.invariant (I := Ordered s.length)
    (Q := fun b => WritesIn (· ≤ s.length) b.log ∧ ReadFirst (· < s.length) b.log) ?_ ?_ ?_
  · exact ⟨writesIn_nil, readFirst_nil, le_rfl, Nat.zero_le _, fun k hk => absurd hk (Nat.not_lt_zero k)⟩
  · exact fun c d h hround => ordered_accessRound h hround
  · exact fun c b h hround => ordered_accessRound_inl h hround

theorem returns_translate_of_accesses {s : ByteString} {b : Buffer} (hb : Returns (accesses s) b) :
    Returns (PkgHtml.translate s) b.s := by
  obtain ⟨n, hn⟩ := hb
  refine ⟨n, fun m hm => ?_⟩
  rw [← map_accesses, hn m hm, Option.map_some]

/-- `translate` leaves of an encoding what was encoded. On every string it ends,
within the string and behind what it has read; only `strlen` reads the terminator. -/
theorem translate_in_place :
    (∀ w, 0 ∉ w → ∀ e, Encodes e w → ∀ x, ∃ b, Returns (PkgHtml.translate (e ++ 0 :: x)) b ∧
      (charstarFromByteString b).val = w) ∧
    ∀ s, 0 ∉ s → ∀ x, ∃ b, Returns (accesses (s ++ 0 :: x)) b ∧
      Returns (PkgHtml.translate (s ++ 0 :: x)) b.s ∧ WritesIn (· ≤ s.length) b.log ∧
      ReadFirst (· < s.length) b.log := by
  constructor
  · intro w hw e he x
    obtain ⟨b, y, hb, hbs, -, -⟩ := returns_accesses (he.zero_notMem hw) x
    refine ⟨b.s, returns_translate_of_accesses hb, ?_⟩
    rw [hbs, charstarFromByteString_append_zero, he.decoded_eq]
    exact List.takeWhile_eq_self_iff.2 fun c hc => decide_eq_true (ne_of_mem_of_not_mem hc hw)
  · intro s hs x
    obtain ⟨b, y, hb, -, hwrites, horder⟩ := returns_accesses hs x
    exact ⟨b, hb, returns_translate_of_accesses hb, hwrites, horder⟩

theorem encodes_sample : Encodes (bytes "a%2b+%5A") (bytes "a+ Z") :=
  .literal (by decide) (by decide) (.escape ⟨_, List.mem_cons_self, by decide⟩
    ⟨_, List.mem_cons_self, by decide⟩ (.space (.escape ⟨_, List.mem_cons_self, by decide⟩
      ⟨_, List.mem_cons_of_mem _ List.mem_cons_self, by decide⟩ .nil)))

theorem translate_sample : ∃ b, Returns (PkgHtml.translate (bytes "a%2b+%5A" ++ [0])) b ∧
    (charstarFromByteString b).val = bytes "a+ Z" := by
  exact translate_in_place.1 _ (by decide) _ encodes_sample []

end IdBasedEncryption.InPlaceDecoding
