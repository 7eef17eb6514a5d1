import IdBasedEncryption.TypedParams

namespace IdBasedEncryption.SavedParams

open ByteStrings FuelLoops Stdio WholeLines Request Config ConfigStore AssocLists ConfigFiles ConfigRoundTrip
open TypedParams

section Settings

inductive Setting
  | string (value : CString)
  | int (value : Int)
  | bool (value : Int)
  | list (value : List CString)

def joined (l : List CString) : ByteString := l.flatMap fun v => v.val ++ [59]

/-- The value as it stands in the context. -/
def Setting.text : Setting → CString
  | .string value => value
  | .int value => charstarFromByteString (printInt value)
  | .bool value => charstarFromByteString (if value ≠ 0 then bytes "True" else bytes "False")
  | .list value => charstarFromByteString (joined value).dropLast

/-- What the getters make of the value, relative to the file that was loaded. -/
def Setting.ReadBack (filename : CString) (ctx : ConfCtx) (name : CString) (index : Int) :
    Setting → Prop
  | .string value => (∀ deflt, getStringParam ctx name index deflt = some value) ∧
      ∀ deflt, (getPathParam (some filename) ctx name index deflt).1 =
        some (relativeToFile (some filename) value)
  | .int value => ∀ deflt, getIntParam ctx name index deflt = if 0 ≤ value then value else deflt
  | .bool value => ∀ deflt, getBoolParam ctx name index deflt = if value ≠ 0 then 1 else 0
  | .list value => ∀ deflt, getListParam ctx name index deflt =
      some (value.flatMap fun v => strtok v.val)

structure Assignment where
  name : CString
  index : Int
  setting : Setting

def Assignment.run (ctx : ConfCtx) (a : Assignment) : Option (Int × ConfCtx) :=
  match a.setting with
  | .string value => some (setStringParam ctx a.name a.index value)
  | .int value => some (setIntParam ctx a.name a.index value)
  | .bool value => some (setBoolParam ctx a.name a.index value)
  | .list value => setListParam ctx a.name a.index value

/-- Every parameter is set with success. -/
def assign (ctx : ConfCtx) : List Assignment → Option ConfCtx
  | [] => some ctx
  | a :: as =>
      match a.run ctx with
      | some (0, ctx) => assign ctx as
      | _ => none

end Settings

section Texts

theorem foldl_digitByte {l : List Char} (hl : ∀ c ∈ l, c.isDigit = true) (n : Nat) :
    (l.map digitByte).foldl (fun (n : Int) c => n * 10 + (c.toNat - 48)) n = Nat.ofDigitChars 10 l n := by
  induction l generalizing n with
  | nil => rfl
  | cons c l ih =>
      obtain ⟨hc, hl⟩ := List.forall_mem_cons.1 hl
      obtain ⟨hlow, -, hbyte⟩ := digitByte_bounds hc
      have hnext : (n : Int) * 10 + (((digitByte c).toNat : Int) - 48) =
          ((10 * n + (c.toNat - '0'.toNat) : Nat) : Int) := by
        have hzero : '0'.toNat = 48 := rfl
        rw [hbyte]
        omega
      rw [List.map_cons, List.foldl_cons, hnext, ih hl, Nat.ofDigitChars_cons]

theorem isdigit_digitByte {c : Char} (h : c.isDigit = true) : isdigit (digitByte c) = true := by
  obtain ⟨hlow, hhigh, hbyte⟩ := digitByte_bounds h
  have h48 : (48 : UInt8).toNat = 48 := rfl
  have h57 : (57 : UInt8).toNat = 57 := rfl
  rw [isdigit, Bool.and_eq_true, decide_eq_true_eq, decide_eq_true_eq, UInt8.le_iff_toNat_le,
    UInt8.le_iff_toNat_le, hbyte]
  omega

theorem isdigit_of_mem_decimal {n : Nat} {c : UInt8} (h : c ∈ decimal n) : isdigit c = true := by
  rw [decimal_eq] at h
  obtain ⟨d, hd, rfl⟩ := List.mem_map.1 h
  exact isdigit_digitByte (Nat.isDigit_of_mem_toDigits (by norm_num) le_rfl hd)

theorem digitsValue_decimal (n : Nat) : digitsValue (decimal n) = n := by
  have hall : (decimal n).takeWhile isdigit = decimal n :=
    List.takeWhile_eq_self_iff.2 fun c hc => isdigit_of_mem_decimal hc
  have hfold := foldl_digitByte (l := Nat.toDigits 10 n)
    (fun c hc => Nat.isDigit_of_mem_toDigits (by norm_num) le_rfl hc) 0
  rw [← decimal_eq, Nat.ofDigitChars_ten_toDigits] at hfold
  rw [digitsValue, hall]
  exact hfold

theorem decimal_ne_nil (n : Nat) : decimal n ≠ [] := by
  rw [decimal_eq, ne_eq, List.map_eq_nil_iff]
  exact Nat.toDigits_ne_nil

theorem isNameEnd_of_isdigit {c : UInt8} (h : isdigit c = true) :
    isNameEnd c = false ∧ isspace c = false ∧ c ≠ 45 ∧ c ≠ 43 ∧ c ≠ newline ∧ c ≠ 0 := by
  revert h
  have hnl : newline = 10 := rfl
  simp only [isdigit, isNameEnd, isspace, sep, hnl, Bool.or_eq_false_iff, Bool.and_eq_true,
    Bool.and_eq_false_iff, decide_eq_true_eq, decide_eq_false_iff_not, UInt8.le_iff_toNat_le,
    ← UInt8.toNat_inj, ne_eq, UInt8.reduceToNat]
  omega

theorem atoi_decimal {n : Nat} (h : n < 2 ^ 31) : atoi (decimal n) = n := by
  obtain ⟨c, s, hs⟩ := List.exists_cons_of_ne_nil (decimal_ne_nil n)
  have hc : isdigit c = true := isdigit_of_mem_decimal (n := n) (by rw [hs]; exact List.mem_cons_self)
  obtain ⟨-, hspace, hminus, hplus, -⟩ := isNameEnd_of_isdigit hc
  have hvalue := digitsValue_decimal n
  rw [hs] at hvalue
  have hskip : (c :: s).dropWhile isspace = c :: s := List.dropWhile_cons_of_neg (by simp [hspace])
  have hclamp : (max (-2 ^ 63) (min (2 ^ 63 - 1) (n : Int))).bmod (2 ^ 32) = n := by
    rw [max_eq_right (by omega), min_eq_right (by omega), Int.bmod_eq_of_le (by omega) (by omega)]
  rw [hs, atoi]
  simp only [hskip]
  split
  · next heq => exact absurd (List.cons.inj heq).1 hminus
  · next heq => exact absurd (List.cons.inj heq).1 hplus
  · rw [hvalue, hclamp]

theorem zero_notMem_printInt (v : Int) : 0 ∉ printInt v := by
  have hdecimal : 0 ∉ decimal v.natAbs := fun h =>
    (isNameEnd_of_isdigit (isdigit_of_mem_decimal h)).2.2.2.2.2 rfl
  rw [printInt]
  split
  · rw [List.mem_append, not_or]
    exact ⟨by decide, hdecimal⟩
  · exact hdecimal

theorem val_charstar {bs : ByteString} (h : 0 ∉ bs) : (charstarFromByteString bs).val = bs :=
  congrArg Subtype.val (charstarFromByteString_set ⟨bs, h⟩)

theorem zero_notMem_joined (l : List CString) : 0 ∉ (joined l).dropLast := by
  intro h
  obtain ⟨v, -, hv⟩ := List.mem_flatMap.1 (List.dropLast_subset _ h)
  rcases List.mem_append.1 hv with hv | hv
  · exact v.property hv
  · exact absurd hv (by decide)

theorem strtok_append (s t : ByteString) : strtok (s ++ 59 :: t) = strtok s ++ strtok t := by
  rw [strtok, List.splitOnP_append_cons s t (by decide), List.filter_append]
  rfl

theorem strtok_nil : strtok [] = [] := by decide

/-- Texts with separators in them come apart. -/
theorem strtok_joined (l : List CString) :
    strtok (joined l).dropLast = l.flatMap fun v => strtok v.val := by
  induction l with
  | nil => exact strtok_nil
  | cons v l ih =>
      rw [List.flatMap_cons, ← ih]
      cases l with
      | nil =>
          have hone : (joined [v]).dropLast = v.val := by simp [joined]
          rw [hone]
          exact (List.append_nil _).symm
      | cons w l =>
          have hne : joined (w :: l) ≠ [] := by simp [joined]
          have hjoined : joined (v :: w :: l) = v.val ++ 59 :: joined (w :: l) := by
            simp [joined, List.append_assoc]
          rw [hjoined, List.dropLast_append_of_ne_nil (by simp), List.dropLast_cons_of_ne_nil hne,
            strtok_append]

theorem joinList_eq {size : Nat} {l : List CString} (h : size + (joined l).length ≤ maxline) :
    joinList size l = some (joined l) := by
  induction l generalizing size with
  | nil => rfl
  | cons v l ih =>
      have hjoined : joined (v :: l) = v.val ++ 59 :: joined l := by
        simp [joined, List.append_assoc]
      rw [hjoined, List.length_append, List.length_cons] at h
      rw [joinList, strlen_of_notMem v.property, if_neg (by omega), ih (by omega), hjoined]
      rfl

end Texts

section Places

theorem hexadecimal_injective : Function.Injective hexadecimal := by
  have hdigit : ∀ d < 16, (bytes "0123456789ABCDEF").idxOf (hexDigit d) = d := by decide
  have hback (n : Nat) :
      (hexadecimal n).map (bytes "0123456789ABCDEF").idxOf = (Nat.digits 16 n).reverse := by
    have hid : ∀ d ∈ (Nat.digits 16 n).reverse, (bytes "0123456789ABCDEF").idxOf (hexDigit d) = id d :=
      fun d hd => hdigit d (Nat.digits_lt_base (by norm_num) (List.mem_reverse.1 hd))
    rw [hexadecimal, List.map_map]
    exact (List.map_congr_left hid).trans (List.map_id _)
  intro m n h
  apply Nat.digits.injective 16
  apply List.reverse_injective
  rw [← hback, ← hback, h]

theorem notMem_hash {name : CString} {index : Int} (h : LegalKey name index) : 35 ∉ name.val := fun hc =>
  absurd (h.chars 35 hc) (by decide)

/-- Only the last index has the name of another place. -/
theorem getFullName_injective {name name' : CString} {index index' : Int} (h : LegalKey name index)
    (h' : LegalKey name' index') (hi : index < 0xFFFF) (hi' : index' < 0xFFFF)
    (heq : getFullName name index = getFullName name' index') : name = name' ∧ index = index' := by
  have hpos := h.index_nonneg
  have hpos' := h'.index_nonneg
  have hindexed (s : CString) (n : Nat) : 35 ∈ s.val ++ (bytes "#" ++ hexadecimal n) := by
    rw [List.mem_append, List.mem_append]
    exact .inr (.inl (by decide))
  have hval := congrArg Subtype.val heq
  rw [getFullName, getFullName] at hval
  split_ifs at hval with h₁ h₂ h₂
  · -- everything in front of the separator is the name
    have hhash : bytes "#" = [35] := by decide
    have hstop (s : CString) (x : ByteString) (hs : 35 ∉ s.val) :
        (s.val ++ (bytes "#" ++ x)).takeWhile (· ≠ 35) = s.val ∧
          (s.val ++ (bytes "#" ++ x)).dropWhile (· ≠ 35) = 35 :: x := by
      have hall : ∀ c ∈ s.val, decide (c ≠ 35) = true := fun c hc => by
        rw [decide_eq_true_eq]
        rintro rfl
        exact hs hc
      rw [List.takeWhile_append_of_pos hall, List.dropWhile_append_of_pos hall, hhash]
      simp
    obtain ⟨htake, hdrop⟩ := hstop name (hexadecimal index.toNat) (notMem_hash h)
    obtain ⟨htake', hdrop'⟩ := hstop name' (hexadecimal index'.toNat) (notMem_hash h')
    dsimp only at hval
    rw [hval, htake'] at htake
    rw [hval, hdrop'] at hdrop
    have hnumber := hexadecimal_injective (List.cons.inj hdrop).2
    exact ⟨Subtype.ext htake.symm, by omega⟩
  · exact absurd (hval ▸ hindexed name index.toNat) (notMem_hash h')
  · exact absurd (hval ▸ hindexed name' index'.toNat) (notMem_hash h)
  · exact ⟨Subtype.ext hval, by omega⟩

end Places

section Legal

/-- Text that comes back from a file: it has one line, and the reader does not skip its
start. -/
structure OneLine (s : ByteString) : Prop where
  newline : newline ∉ s
  head : ∃ c, s.head? = some c ∧ isNameEnd c = false

def Setting.Legal : Setting → Prop
  | .string value => OneLine value.val
  | .int value => -2 ^ 31 ≤ value ∧ value < 2 ^ 31
  | .bool _ => True
  | .list value => OneLine (joined value).dropLast

/-- The name is documented and stands with its index in 20 characters, and the
assignment in one line. -/
structure Assignment.Legal (a : Assignment) : Prop where
  key : LegalKey a.name a.index
  ne_nil : a.name.val ≠ []
  index_lt : a.index < 0xFFFF
  short : (getFullName a.name a.index).val.length ≤ maxNamlen
  setting : a.setting.Legal
  line : (getFullName a.name a.index).val.length + a.setting.text.val.length ≤ 2043

/-- The call that stores the value as it stands. -/
def Assignment.call (a : Assignment) : Call :=
  match a.setting with
  | .string value => .string a.name a.index value
  | .int value => .int a.name a.index value
  | .bool value => .bool a.name a.index value
  | .list value => .string a.name a.index (Setting.list value).text

variable {a : Assignment} {ctx : ConfCtx}

@[simp] theorem Assignment.name_call (a : Assignment) : a.call.name = a.name := by
  rw [Assignment.call]
  cases a.setting <;> rfl

@[simp] theorem Assignment.index_call (a : Assignment) : a.call.index = a.index := by
  rw [Assignment.call]
  cases a.setting <;> rfl

@[simp] theorem Assignment.value_call (a : Assignment) : a.call.value = a.setting.text := by
  rw [Assignment.call]
  cases a.setting <;> rfl

theorem Assignment.Legal.length_text_le (h : a.Legal) : a.setting.text.val.length ≤ maxline := by
  have hline := h.line
  have hmax : maxline = 2048 := rfl
  omega

theorem Assignment.Legal.legal_call (h : a.Legal) : ConfigStore.Legal a.call := by
  refine ⟨?_, ?_⟩
  · rw [a.name_call, a.index_call]
    exact h.key
  · have hsetting := h.setting
    have hlen := h.length_text_le
    rw [Assignment.call]
    generalize a.setting = s at *
    cases s with
    | string value => exact hlen
    | int value => exact hsetting
    | bool value => trivial
    | list value => exact hlen

theorem Assignment.Legal.run_eq (h : a.Legal) (ctx : ConfCtx) :
    a.run ctx = some (0, (a.call.run ctx).2) := by
  have hlegal := h.legal_call
  have hcode : (a.call.run ctx).1 = 0 := by
    have hnot : ¬(maxline < a.call.value.val.length ∨ maxNamlen < a.call.name.val.length ∨
        a.call.index < 0 ∨ 0xFFFF < a.call.index) := by
      have h₁ := hlegal.length_value_le
      have h₂ := hlegal.key.length
      have h₃ := hlegal.key.index_nonneg
      have h₄ := hlegal.key.index_le
      omega
    rw [Call.run_eq, setStringParam, if_neg hnot]
    cases getIndex ctx a.call.name a.call.index <;> rfl
  have hrun : a.run ctx = some (a.call.run ctx) := by
    have hsetting := h.setting
    have hlen := h.line
    rw [Assignment.run, Assignment.call]
    generalize a.setting = s at *
    cases s with
    | string value => rfl
    | int value => rfl
    | bool value => rfl
    | list value =>
        obtain ⟨-, c, hc, -⟩ := hsetting
        have hne : joined value ≠ [] := by
          intro hnil
          rw [hnil] at hc
          cases hc
        rw [Setting.text, val_charstar (zero_notMem_joined value), List.length_dropLast] at hlen
        have hjoin : joinList 0 value = some (joined value) := by
          refine joinList_eq ?_
          have hmax : maxline = 2048 := rfl
          omega
        simp only [setListParam, hjoin, if_neg hne]
        rfl
  rw [hrun, ← hcode]

theorem assign_eq {as : List Assignment} (h : ∀ a ∈ as, a.Legal) (ctx : ConfCtx) :
    assign ctx as = some (ConfigStore.run ctx (as.map Assignment.call)) := by
  induction as generalizing ctx with
  | nil => rfl
  | cons a as ih =>
      obtain ⟨ha, has⟩ := List.forall_mem_cons.1 h
      rw [assign, ha.run_eq]
      exact ih has _

/-- The text of a legal setting comes back from a file. -/
theorem Setting.Legal.oneLine {s : Setting} (h : s.Legal) : OneLine s.text.val := by
  cases s with
  | string value => exact h
  | int value =>
      rw [Setting.text, val_charstar (zero_notMem_printInt value), printInt]
      have hdecimal : OneLine (decimal value.natAbs) := by
        obtain ⟨c, s, hs⟩ := List.exists_cons_of_ne_nil (decimal_ne_nil value.natAbs)
        have hc : c ∈ decimal value.natAbs := by
          rw [hs]
          exact List.mem_cons_self
        refine ⟨fun hmem => ?_, c, by rw [hs]; rfl, (isNameEnd_of_isdigit (isdigit_of_mem_decimal hc)).1⟩
        exact (isNameEnd_of_isdigit (isdigit_of_mem_decimal hmem)).2.2.2.2.1 rfl
      split
      · refine ⟨?_, 45, rfl, by decide⟩
        rw [List.mem_append, not_or]
        exact ⟨by decide, hdecimal.newline⟩
      · exact hdecimal
  | bool value =>
      rw [Setting.text]
      split
      · exact ⟨by decide, 84, by decide, by decide⟩
      · exact ⟨by decide, 70, by decide, by decide⟩
  | list value =>
      rw [Setting.text, val_charstar (zero_notMem_joined value)]
      exact h

end Legal

section Files

/-- A place that the entries are told apart by. -/
structure LegalPlace (name : CString) (index : Int) : Prop where
  key : LegalKey name index
  index_lt : index < 0xFFFF
  short : (getFullName name index).val.length ≤ maxNamlen

theorem Assignment.Legal.place {a : Assignment} (h : a.Legal) : LegalPlace a.name a.index :=
  ⟨h.key, h.index_lt, h.short⟩

theorem paramKey_inj {name name' : CString} {index index' : Int} (h : LegalPlace name index)
    (h' : LegalPlace name' index') (heq : paramKey name index = paramKey name' index') :
    name = name' ∧ index = index' :=
  getFullName_injective h.key h'.key h.index_lt h'.index_lt (nameKey_inj h.short h'.short heq)

/-- The setting of the last assignment to this place. -/
def lastSetting (as : List Assignment) (name : CString) (index : Int) : Option Setting :=
  ((as.filter fun a => a.name = name ∧ a.index = index).getLast?).map Assignment.setting

theorem lastSetting_concat (as : List Assignment) (a : Assignment) (name : CString) (index : Int) :
    lastSetting (as ++ [a]) name index =
      if a.name = name ∧ a.index = index then some a.setting else lastSetting as name index := by
  rw [lastSetting, List.filter_append]
  split
  · next h => simp [h]
  · next h => simp [h, lastSetting]

def constructCTX : ConfCtx := ⟨[]⟩

/-- The context behind the assignments. -/
def assigned (as : List Assignment) : ConfCtx := ConfigStore.run constructCTX (as.map Assignment.call)

theorem assigned_concat (as : List Assignment) (a : Assignment) :
    assigned (as ++ [a]) = (a.call.run (assigned as)).2 := by
  rw [assigned, List.map_append, List.map_singleton, run_concat, assigned]

variable {as : List Assignment} {name : CString} {index : Int}

theorem valueFor_assigned (h : ∀ a ∈ as, a.Legal) (hplace : LegalPlace name index) :
    valueFor (paramKey name index) (assigned as) = (lastSetting as name index).map Setting.text := by
  induction as using List.reverseRecOn with
  | nil => rfl
  | append_singleton as a ih =>
      have ha : a.Legal := h a (by simp)
      have hrest := ih fun b hb => h b (List.mem_append_left _ hb)
      rw [assigned_concat, valueFor_run ha.legal_call, lastSetting_concat, a.name_call, a.index_call,
        a.value_call]
      by_cases heq : a.name = name ∧ a.index = index
      · obtain ⟨rfl, rfl⟩ := heq
        rw [if_pos rfl, if_pos ⟨rfl, rfl⟩]
        rfl
      · rw [if_neg heq, if_neg fun hkey => heq (paramKey_inj ha.place hplace hkey), hrest]

/-- An entry has the name of one of its assignments and the value of another one to the
same place. -/
theorem mem_assigned (h : ∀ a ∈ as, a.Legal) {e : Assoc} (he : e ∈ (assigned as).configParam) :
    ∃ a ∈ as, e.type = getFullName a.name a.index ∧ e.value = a.setting.text := by
  induction as using List.reverseRecOn generalizing e with
  | nil => cases he
  | append_singleton as a ih =>
      have ha : a.Legal := h a (by simp)
      have has : ∀ b ∈ as, b.Legal := fun b hb => h b (List.mem_append_left _ hb)
      have hlast : a ∈ as ++ [a] := by simp
      rw [assigned_concat, run_legal ha.legal_call, a.name_call, a.index_call] at he
      rcases mem_put he with rfl | he | ⟨e', he', hkey, rfl⟩
      · refine ⟨a, hlast, ?_, a.value_call⟩
        rw [Call.entry, a.name_call, a.index_call]
      · obtain ⟨b, hb, heq⟩ := ih has he
        exact ⟨b, List.mem_append_left _ hb, heq⟩
      · obtain ⟨b, hb, htype, -⟩ := ih has he'
        refine ⟨a, hlast, ?_, a.value_call⟩
        have hshort : e'.type.val.length ≤ maxNamlen := by
          rw [htype]
          exact (has b hb).short
        exact nameKey_inj hshort ha.short hkey

theorem nodup_assigned (h : ∀ a ∈ as, a.Legal) : ((assigned as).configParam.map entryKey).Nodup := by
  induction as using List.reverseRecOn with
  | nil => exact List.nodup_nil
  | append_singleton as a ih =>
      have ha : ConfigStore.Legal a.call := (h a (by simp)).legal_call
      have hrest := ih fun b hb => h b (List.mem_append_left _ hb)
      rw [assigned_concat]
      by_cases hmem : paramKey a.call.name a.call.index ∈ (assigned as).configParam.map entryKey
      · rw [map_entryKey_run_of_mem ha hmem]
        exact hrest
      · rw [map_entryKey_run_of_notMem ha hmem, List.nodup_append]
        refine ⟨hrest, List.nodup_singleton _, fun x hx y hy => ?_⟩
        obtain rfl := List.mem_singleton.1 hy
        exact ne_of_mem_of_not_mem hx hmem

/-- The places that are assigned to. -/
def places (as : List Assignment) : Finset (CString × Int) := (as.map fun a => (a.name, a.index)).toFinset

theorem numParam_assigned_le (h : ∀ a ∈ as, a.Legal) : (assigned as).numParam ≤ (places as).card := by
  have hlegal : ∀ c ∈ as.map Assignment.call, ConfigStore.Legal c := by
    intro c hc
    obtain ⟨a, ha, rfl⟩ := List.mem_map.1 hc
    exact (h a ha).legal_call
  have hzero : constructCTX.numParam = 0 := rfl
  rw [assigned, numParam_run hlegal, hzero, Nat.zero_add]
  refine (Finset.card_le_card ?_).trans (Finset.card_image_le (f := fun r => paramKey r.1 r.2))
  intro k hk
  simp only [newKeys, Finset.mem_sdiff, List.mem_toFinset, List.mem_map] at hk
  obtain ⟨⟨c, ⟨a, ha, rfl⟩, rfl⟩, -⟩ := hk
  rw [a.name_call, a.index_call]
  exact Finset.mem_image.2 ⟨(a.name, a.index), List.mem_toFinset.2 (List.mem_map.2 ⟨a, ha, rfl⟩), rfl⟩

theorem legalCtx_assigned (h : ∀ a ∈ as, a.Legal) (hroom : (places as).card ≤ maxParam) :
    LegalCtx (assigned as) where
  capacity := (numParam_assigned_le h).trans hroom
  names := by
    have hkeys := nodup_assigned h
    have hmap : (assigned as).configParam.map entryKey =
        ((assigned as).configParam.map Assoc.type).map nameKey := by
      rw [List.map_map]
      rfl
    rw [hmap] at hkeys
    exact hkeys.of_map
  entries e he := by
    obtain ⟨a, ha, htype, hvalue⟩ := mem_assigned h he
    have hlegal := h a ha
    refine ⟨⟨a.name, a.index, hlegal.ne_nil, hlegal.key, htype.symm⟩, ?_, ?_⟩
    · rw [hvalue]
      exact hlegal.setting.oneLine.newline
    · rw [hvalue]
      exact hlegal.length_text_le

theorem readable_assigned (h : ∀ a ∈ as, a.Legal) : ∀ e ∈ (assigned as).configParam, Readable e := by
  intro e he
  obtain ⟨a, ha, htype, hvalue⟩ := mem_assigned h he
  have hlegal := h a ha
  refine ⟨?_, ?_, ?_⟩
  · rw [htype]
    exact hlegal.short
  · rw [hvalue]
    exact hlegal.setting.oneLine.head
  · rw [htype, hvalue]
    exact hlegal.line

variable {filename : CString} {ctx : ConfCtx}

theorem coherent_erase (filespec : Option CString) (ctx : ConfCtx) : Coherent filespec (erase ctx) := by
  intro e he path hpath
  obtain ⟨e', -, rfl⟩ := List.mem_map.1 he
  cases hpath

/-- Every getter understands the text of its setter. -/
theorem readBack_of_text {s : Setting} (hs : s.Legal)
    (h : ∀ deflt, getStringParam (erase ctx) name index deflt = some s.text) :
    s.ReadBack filename (erase ctx) name index := by
  cases s with
  | string value =>
      refine ⟨h, fun deflt => ?_⟩
      rw [(getPathParam_eq (coherent_erase _ ctx) name index deflt).1, currentPath, getStringParam_erase, h]
      rfl
  | int value =>
      intro deflt
      have htext := h none
      rw [getIntParam, htext]
      dsimp only
      rw [Setting.text, val_charstar (zero_notMem_printInt value), printInt]
      by_cases hneg : value < 0
      · have hminus : ¬(bytes "-" ++ decimal value.natAbs).all isdigit = true := by
          rw [List.all_append, Bool.and_eq_true]
          exact fun h => absurd h.1 (by decide)
        rw [if_pos hneg, if_neg fun h => hminus h.1, if_neg (by omega)]
      · have hall : (decimal value.natAbs).all isdigit = true :=
          List.all_eq_true.2 fun c hc => isdigit_of_mem_decimal hc
        have hbounds : -2 ^ 31 ≤ value ∧ value < 2 ^ 31 := hs
        have hlen := length_printInt_le (n := value) (by omega)
        rw [printInt, if_neg hneg] at hlen
        rw [if_neg hneg, if_pos ⟨hall, hlen⟩, atoi_decimal (by omega), if_pos (by omega)]
        omega
  | bool value =>
      intro deflt
      have htext := h none
      rw [getBoolParam, htext]
      dsimp only
      rw [Setting.text]
      split
      · rfl
      · rfl
  | list value =>
      intro deflt
      have htext := h none
      rw [getListParam, htext]
      dsimp only
      rw [Setting.text, val_charstar (zero_notMem_joined value), strtok_joined]

/-- Whatever is assigned to the parameters and written to a file is what they have when
the file has been loaded. -/
theorem readBack_loadConfig (filename : CString) (h : ∀ a ∈ as, a.Legal)
    (hroom : (places as).card ≤ maxParam) :
    ∃ ctx ctx', assign constructCTX as = some ctx ∧
      Returns (loadConfig filename (some (writeConfig ctx))) (.ok ctx') ∧
      ∀ name index, LegalPlace name index →
        (∀ s, lastSetting as name index = some s → s.ReadBack filename ctx' name index) ∧
        (lastSetting as name index = none → ∀ deflt, getStringParam ctx' name index deflt = deflt) := by
  have hload := returns_copy filename (legalCtx_assigned h hroom) (readable_assigned h)
  refine ⟨assigned as, erase (assigned as), assign_eq h constructCTX, hload, fun name index hplace => ?_⟩
  have hvalue (deflt : Option CString) : getStringParam (erase (assigned as)) name index deflt =
      ((lastSetting as name index).map Setting.text).or deflt := by
    rw [getStringParam_erase, getStringParam_eq, valueFor_assigned h hplace]
  refine ⟨fun s hlast => readBack_of_text ?_ fun deflt => ?_, fun hlast deflt => ?_⟩
  · obtain ⟨a, ha, rfl⟩ := Option.map_eq_some_iff.1 hlast
    exact (h a (List.mem_of_mem_filter (List.mem_of_getLast? ha))).setting
  · rw [hvalue, hlast]
    rfl
  · rw [hvalue, hlast]
    rfl

def sampleAssignments : List Assignment :=
  [⟨servers, 1, .int 31831⟩, ⟨servers, 0, .list [hostA, hostA]⟩, ⟨servers, 1, .bool 1⟩]

theorem legal_sampleAssignments : ∀ a ∈ sampleAssignments, a.Legal := by
  intro a ha
  simp only [sampleAssignments, List.mem_cons, List.not_mem_nil, or_false] at ha
  rcases ha with rfl | rfl | rfl
  · exact ⟨legalKey_servers 1 (by norm_num) (by norm_num), by decide, by norm_num, by decide,
      ⟨by norm_num, by norm_num⟩, by decide⟩
  · exact ⟨legalKey_servers 0 le_rfl (by norm_num), by decide, by norm_num, by decide,
      ⟨by decide, 97, by decide, by decide⟩, by decide⟩
  · exact ⟨legalKey_servers 1 (by norm_num) (by norm_num), by decide, by norm_num, by decide, trivial,
      by decide⟩

theorem readBack_sampleAssignments : ∃ ctx ctx', assign constructCTX sampleAssignments = some ctx ∧
    Returns (loadConfig configFile (some (writeConfig ctx))) (.ok ctx') ∧
    ∀ name index, LegalPlace name index →
      (∀ s, lastSetting sampleAssignments name index = some s → s.ReadBack configFile ctx' name index) ∧
      (lastSetting sampleAssignments name index = none →
        ∀ deflt, getStringParam ctx' name index deflt = deflt) :=
  readBack_loadConfig configFile legal_sampleAssignments
    ((List.toFinset_card_le _).trans (by decide))

end Files

end IdBasedEncryption.SavedParams
