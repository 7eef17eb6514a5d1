import Mathlib.Data.Finset.Card
import IdBasedEncryption.AssocLists
import IdBasedEncryption.Config

namespace IdBasedEncryption.ConfigStore

open ByteStrings Stdio Config AssocLists

section Keys

/-- What a name is compared by. -/
def nameKey (type : CString) : ByteString := type.val.take maxNamlen

def entryKey (e : Assoc) : ByteString := nameKey e.type

def paramKey (name : CString) (index : Int) : ByteString := nameKey (getFullName name index)

theorem strncmp_iff_take {s t : ByteString} (hs : 0 ∉ s) (ht : 0 ∉ t) (n : Nat) :
    strncmp s t n = true ↔ s.take n = t.take n := by
  induction n generalizing s t with
  | zero => simp [strncmp]
  | succ n ih =>
      cases s with
      | nil =>
          cases t with
          | nil => simp [strncmp]
          | cons d t =>
              have hd : d ≠ 0 := fun h => ht (h ▸ List.mem_cons_self)
              simp [strncmp, hd.symm]
      | cons c s =>
          obtain ⟨hc, hs⟩ := not_or.1 (List.mem_cons.not.1 hs)
          cases t with
          | nil => simp [strncmp, Ne.symm hc]
          | cons d t =>
              have hrest := ih hs (not_or.1 (List.mem_cons.not.1 ht)).2
              simp [strncmp, Ne.symm hc, hrest]

theorem findIdx_eq (ctx : ConfCtx) (name : CString) (index : Int) : getIndex ctx name index =
    ctx.configParam.findIdx? fun e => entryKey e = paramKey name index := by
  rw [getIndex]
  congr 1
  funext e
  rw [Bool.eq_iff_iff, decide_eq_true_iff]
  exact strncmp_iff_take e.type.property (getFullName name index).property maxNamlen

def valueFor (k : ByteString) (ctx : ConfCtx) : Option CString :=
  (lookup entryKey k ctx.configParam).map Assoc.value

theorem getStringParam_eq (ctx : ConfCtx) (name : CString) (index : Int) (deflt : Option CString) :
    getStringParam ctx name index deflt = (valueFor (paramKey name index) ctx).or deflt := by
  rw [getStringParam, findIdx_eq, valueFor, lookup, List.find?_eq_bind_findIdx?_getElem?]
  cases h : ctx.configParam.findIdx? fun e => decide (entryKey e = paramKey name index) with
  | none => rfl
  | some i =>
      obtain ⟨hlt, -⟩ := List.findIdx?_eq_some_iff_getElem.1 h
      simp [List.getElem?_eq_getElem hlt]

end Keys

section Calls

inductive Call
  | string (name : CString) (index : Int) (value : CString)
  | int (name : CString) (index value : Int)
  | bool (name : CString) (index value : Int)

namespace Call

def name : Call → CString
  | .string name _ _ | .int name _ _ | .bool name _ _ => name

def index : Call → Int
  | .string _ index _ | .int _ index _ | .bool _ index _ => index

/-- What `GetStringParam` is to return behind the call. -/
def value : Call → CString
  | .string _ _ value => value
  | .int _ _ value => charstarFromByteString (printInt value)
  | .bool _ _ value => charstarFromByteString (if value ≠ 0 then bytes "True" else bytes "False")

def run (ctx : ConfCtx) : Call → Int × ConfCtx
  | .string name index value => setStringParam ctx name index value
  | .int name index value => setIntParam ctx name index value
  | .bool name index value => setBoolParam ctx name index value

/-- Strings are at most 2048 characters long, and integers have 32 bits. -/
def LegalValue : Call → Prop
  | .string _ _ value => value.val.length ≤ maxline
  | .int _ _ value => -2 ^ 31 ≤ value ∧ value < 2 ^ 31
  | .bool _ _ _ => True

end Call

def isNameChar (c : UInt8) : Bool :=
  (48 ≤ c && c ≤ 57) || (65 ≤ c && c ≤ 90) || (97 ≤ c && c ≤ 122) || c = 95 || c = 45

structure LegalKey (name : CString) (index : Int) : Prop where
  chars : ∀ c ∈ name.val, isNameChar c = true
  length : name.val.length ≤ maxNamlen
  index_nonneg : 0 ≤ index
  index_le : index ≤ 0xFFFF

structure Legal (c : Call) : Prop where
  key : LegalKey c.name c.index
  value : c.LegalValue

variable {c : Call} {ctx : ConfCtx}

/-- The entry that a legal call puts behind the others when it finds none. -/
def Call.entry (c : Call) : Assoc := ⟨getFullName c.name c.index, c.value, none⟩

/-- What it makes of the entry that it finds. -/
def Call.change (c : Call) (e : Assoc) : Assoc := ⟨e.type, c.value, none⟩

theorem Call.entryKey_entry (c : Call) : entryKey c.entry = paramKey c.name c.index := rfl

theorem Call.entryKey_change (c : Call) (e : Assoc) : entryKey (c.change e) = entryKey e := rfl

theorem Call.run_eq (ctx : ConfCtx) (c : Call) :
    c.run ctx = setStringParam ctx c.name c.index c.value := by
  cases c <;> rfl

theorem length_printInt_le {n : Int} (h : n.natAbs < 10 ^ 10) : (printInt n).length ≤ 11 := by
  have hdecimal : (Request.decimal n.natAbs).length ≤ 10 := by
    rw [Request.decimal, bytes, List.length_map, Nat.repr, String.toList_ofList]
    exact (Nat.length_toDigits_le_iff (by norm_num) (by norm_num)).2 h
  rw [printInt]
  split
  · have hminus : (bytes "-").length = 1 := by decide
    rw [List.length_append, hminus]
    omega
  · omega

theorem Legal.length_value_le (h : Legal c) : c.value.val.length ≤ maxline := by
  have hle (bs : ByteString) : (charstarFromByteString bs).val.length ≤ bs.length :=
    (List.takeWhile_prefix _).length_le
  have hvalue := h.value
  cases c with
  | string name index value => exact hvalue
  | int name index value =>
      have hlen := length_printInt_le (n := value) (by
        obtain ⟨h₁, h₂⟩ := hvalue
        omega)
      exact (hle _).trans (hlen.trans (by decide))
  | bool name index value =>
      refine (hle _).trans ?_
      split <;> decide

theorem run_legal (h : Legal c) (ctx : ConfCtx) : (c.run ctx).2.configParam =
    put entryKey (paramKey c.name c.index) c.entry c.change ctx.configParam := by
  have hlegal : ¬(maxline < c.value.val.length ∨ maxNamlen < c.name.val.length ∨ c.index < 0 ∨
      0xFFFF < c.index) := by
    have h₁ := h.length_value_le
    have h₂ := h.key.length
    have h₃ := h.key.index_nonneg
    have h₄ := h.key.index_le
    omega
  rw [Call.run_eq, setStringParam, if_neg hlegal, findIdx_eq, put]
  cases ctx.configParam.findIdx? fun e => decide (entryKey e = paramKey c.name c.index) <;> rfl

theorem valueFor_run (h : Legal c) (ctx : ConfCtx) (k : ByteString) :
    valueFor k (c.run ctx).2 = if paramKey c.name c.index = k then some c.value else valueFor k ctx := by
  rw [valueFor, run_legal h]
  split
  · next hk =>
      subst hk
      exact lookup_put_self c.entryKey_entry c.entryKey_change (fun _ => rfl) _
  · next hk => rw [lookup_put_ne c.entryKey_entry c.entryKey_change hk, valueFor]

theorem map_entryKey_run_of_mem (h : Legal c)
    (hmem : paramKey c.name c.index ∈ ctx.configParam.map entryKey) :
    (c.run ctx).2.configParam.map entryKey = ctx.configParam.map entryKey := by
  rw [run_legal h, map_put_of_mem c.entryKey_change hmem]

theorem map_entryKey_run_of_notMem (h : Legal c)
    (hmem : paramKey c.name c.index ∉ ctx.configParam.map entryKey) :
    (c.run ctx).2.configParam.map entryKey =
      ctx.configParam.map entryKey ++ [paramKey c.name c.index] := by
  rw [run_legal h, map_put_of_notMem c.entryKey_entry hmem]

end Calls

section Runs

def run (ctx : ConfCtx) (calls : List Call) : ConfCtx := calls.foldl (fun ctx c => (c.run ctx).2) ctx

theorem run_concat (ctx : ConfCtx) (calls : List Call) (c : Call) :
    run ctx (calls ++ [c]) = (c.run (run ctx calls)).2 := by
  rw [run, List.foldl_append]
  rfl

/-- The value of the last call with exactly this name and index. -/
def lastValue (calls : List Call) (name : CString) (index : Int) : Option CString :=
  ((calls.filter fun c => c.name = name ∧ c.index = index).getLast?).map Call.value

theorem lastValue_concat (calls : List Call) (c : Call) (name : CString) (index : Int) :
    lastValue (calls ++ [c]) name index =
      if c.name = name ∧ c.index = index then some c.value else lastValue calls name index := by
  rw [lastValue, List.filter_append]
  split
  · next h => simp [h]
  · next h => simp [h, lastValue]

/-- The keys of the calls that the context does not have. -/
def newKeys (ctx : ConfCtx) (calls : List Call) : Finset ByteString :=
  (calls.map fun c => paramKey c.name c.index).toFinset \ (ctx.configParam.map entryKey).toFinset

variable {ctx : ConfCtx} {calls : List Call} {name : CString} {index : Int}

theorem mem_keys_run (ctx : ConfCtx) (hlegal : ∀ c ∈ calls, Legal c) (k : ByteString) :
    k ∈ (run ctx calls).configParam.map entryKey ↔
      k ∈ ctx.configParam.map entryKey ∨ k ∈ calls.map fun c => paramKey c.name c.index := by
  induction calls using List.reverseRecOn with
  | nil => simp [run]
  | append_singleton calls c ih =>
      have hc : Legal c := hlegal c (by simp)
      have hrest := ih fun d hd => hlegal d (List.mem_append_left _ hd)
      rw [List.map_append, List.mem_append, List.map_singleton, List.mem_singleton, run_concat]
      by_cases hmem : paramKey c.name c.index ∈ (run ctx calls).configParam.map entryKey
      · rw [map_entryKey_run_of_mem hc hmem, ← or_assoc, ← hrest]
        exact (or_iff_left_of_imp fun h => h ▸ hmem).symm
      · rw [map_entryKey_run_of_notMem hc hmem, List.mem_append, hrest, List.mem_singleton,
          or_assoc]

theorem numParam_run (hlegal : ∀ c ∈ calls, Legal c) :
    (run ctx calls).numParam = ctx.numParam + (newKeys ctx calls).card := by
  have hnum (ctx : ConfCtx) : ctx.numParam = (ctx.configParam.map entryKey).length := by
    rw [List.length_map]
    rfl
  induction calls using List.reverseRecOn with
  | nil => simp [run, newKeys]
  | append_singleton calls c ih =>
      have hc : Legal c := hlegal c (by simp)
      have hl : ∀ d ∈ calls, Legal d := fun d hd => hlegal d (List.mem_append_left _ hd)
      have hkeys := mem_keys_run ctx hl (paramKey c.name c.index)
      have hconcat (k : ByteString) : k ∈ newKeys ctx (calls ++ [c]) ↔
          k ∈ newKeys ctx calls ∨ k = paramKey c.name c.index ∧ k ∉ ctx.configParam.map entryKey := by
        simp only [newKeys, List.map_append, List.map_singleton, Finset.mem_sdiff,
          List.mem_toFinset, List.mem_append, List.mem_singleton]
        exact or_and_right
      rw [hnum, run_concat]
      by_cases hmem : paramKey c.name c.index ∈ (run ctx calls).configParam.map entryKey
      · have hsame : newKeys ctx (calls ++ [c]) = newKeys ctx calls := by
          ext k
          rw [hconcat, or_iff_left_of_imp]
          rintro ⟨rfl, hctx⟩
          simp only [newKeys, Finset.mem_sdiff, List.mem_toFinset]
          exact ⟨(hkeys.1 hmem).resolve_left hctx, hctx⟩
        rw [map_entryKey_run_of_mem hc hmem, ← hnum, ih hl, hsame]
      · have hfresh := hkeys.not.1 hmem
        rw [not_or] at hfresh
        have hinsert : newKeys ctx (calls ++ [c]) =
            insert (paramKey c.name c.index) (newKeys ctx calls) := by
          ext k
          rw [hconcat, Finset.mem_insert, or_comm]
          refine or_congr_left (and_iff_left_of_imp ?_)
          rintro rfl
          exact hfresh.1
        have hnotMem : paramKey c.name c.index ∉ newKeys ctx calls := by
          simp only [newKeys, Finset.mem_sdiff, List.mem_toFinset, not_and]
          exact fun h => absurd h hfresh.2
        rw [map_entryKey_run_of_notMem hc hmem, List.length_append, List.length_singleton, ← hnum,
          ih hl, hinsert, Finset.card_insert_of_notMem hnotMem, Nat.add_assoc]

/-- Behind a sequence of legal calls the value for a key is that of the last call
with this key. -/
theorem valueFor_run_concat (hc : Legal c) (k : ByteString) :
    valueFor k (run ctx (calls ++ [c])) =
      if paramKey c.name c.index = k then some c.value else valueFor k (run ctx calls) := by
  rw [run_concat, valueFor_run hc]

end Runs

section Maps

/-- The store behaves as a map at the place `(name, index)`, from the start to the
end of a run. -/
structure StoresAsMap (ctx : ConfCtx) (calls : List Call) (name : CString) (index : Int) : Prop where
  value : ∀ pre, pre <+: calls → ∀ deflt,
    getStringParam (run ctx pre) name index deflt = (lastValue pre name index).or deflt
  frame : ∀ pre c, pre ++ [c] <+: calls → ¬(c.name = name ∧ c.index = index) → ∀ deflt,
    getStringParam (run ctx (pre ++ [c])) name index deflt =
      getStringParam (run ctx pre) name index deflt
  capacity : ∀ pre, pre <+: calls → (run ctx pre).numParam ≤ maxParam

/-- No other place is taken for this one. -/
structure Undisturbed (ctx : ConfCtx) (calls : List Call) (name : CString) (index : Int) : Prop where
  fresh : ∀ e ∈ ctx.configParam, entryKey e ≠ paramKey name index
  apart : ∀ pre c, pre ++ [c] <+: calls → ¬(c.name = name ∧ c.index = index) →
    paramKey c.name c.index = paramKey name index → lastValue pre name index = some c.value

variable {ctx : ConfCtx} {calls : List Call} {name : CString} {index : Int}

theorem eq_of_forall_or {α : Type} {a b : Option α} (h : ∀ d, a.or d = b.or d) : a = b := by
  simpa using h none

theorem valueFor_eq_none_iff (k : ByteString) :
    valueFor k ctx = none ↔ ∀ e ∈ ctx.configParam, entryKey e ≠ k := by
  rw [valueFor, Option.map_eq_none_iff, lookup, List.find?_eq_none]
  simp

/-- The place has the value of its last call all the time. -/
theorem valueFor_run_iff (hlegal : ∀ c ∈ calls, Legal c) :
    (∀ pre, pre <+: calls → valueFor (paramKey name index) (run ctx pre) = lastValue pre name index) ↔
      Undisturbed ctx calls name index := by
  constructor
  · intro h
    refine ⟨(valueFor_eq_none_iff _).1 (h [] List.nil_prefix), fun pre c hpre hne hkey => ?_⟩
    have hc : Legal c := hlegal c (hpre.subset (by simp))
    have hlast := h _ hpre
    rw [valueFor_run_concat hc, if_pos hkey, lastValue_concat, if_neg hne] at hlast
    exact hlast.symm
  · intro h pre hpre
    induction pre using List.reverseRecOn with
    | nil => exact (valueFor_eq_none_iff _).2 h.fresh
    | append_singleton pre c ih =>
        have hc : Legal c := hlegal c (hpre.subset (by simp))
        have hrest := ih ((List.prefix_append _ _).trans hpre)
        rw [valueFor_run_concat hc, lastValue_concat]
        by_cases hpair : c.name = name ∧ c.index = index
        · obtain ⟨rfl, rfl⟩ := hpair
          rw [if_pos rfl, if_pos ⟨rfl, rfl⟩]
        · rw [if_neg hpair]
          split
          · next hkey => exact (h.apart pre c hpre hpair hkey).symm
          · exact hrest

/-- The store behaves as a map at a place exactly when no other place is taken for
it and the array is large enough. -/
theorem storesAsMap_iff (ctx : ConfCtx) (hlegal : ∀ c ∈ calls, Legal c) :
    StoresAsMap ctx calls name index ↔
      Undisturbed ctx calls name index ∧ ctx.numParam + (newKeys ctx calls).card ≤ maxParam := by
  have hpre {pre : List Call} (h : pre <+: calls) : ∀ c ∈ pre, Legal c := fun c hc =>
    hlegal c (h.subset hc)
  constructor
  · intro h
    refine ⟨(valueFor_run_iff hlegal).1 fun pre hp => ?_, ?_⟩
    · apply eq_of_forall_or
      intro deflt
      rw [← getStringParam_eq, h.value pre hp]
    · rw [← numParam_run hlegal]
      exact h.capacity calls List.prefix_rfl
  · rintro ⟨h, hroom⟩
    have hvalue {pre : List Call} (hp : pre <+: calls) (deflt : Option CString) :
        getStringParam (run ctx pre) name index deflt = (lastValue pre name index).or deflt := by
      rw [getStringParam_eq, (valueFor_run_iff hlegal).2 h pre hp]
    refine ⟨fun pre hp => hvalue hp, fun pre c hp hne deflt => ?_, fun pre hp => ?_⟩
    · rw [hvalue hp, hvalue ((List.prefix_append _ _).trans hp), lastValue_concat, if_neg hne]
    · rw [numParam_run (hpre hp)]
      refine (Nat.add_le_add_left (Finset.card_le_card ?_) _).trans hroom
      intro k hk
      simp only [newKeys, Finset.mem_sdiff, List.mem_toFinset] at hk ⊢
      exact ⟨(hp.map _).subset hk.1, hk.2⟩

def servers : CString := ⟨bytes "servers", by decide⟩

def hostA : CString := ⟨bytes "a.example.com", by decide⟩

theorem legalKey_servers (index : Int) (h₀ : 0 ≤ index) (h₁ : index ≤ 0xFFFF) :
    LegalKey servers index :=
  ⟨by decide +kernel, by decide +kernel, h₀, h₁⟩

def port : CString := ⟨bytes "port", by decide⟩

def hostB : CString := ⟨bytes "b.example.com", by decide⟩

/-- A value of the first index is replaced, between values of other places. -/
theorem storesAsMap_servers :
    StoresAsMap ⟨[⟨port, hostA, none⟩]⟩
      [.string servers 1 hostA, .int port 2 8443, .string servers 0 hostB, .string servers 1 hostB]
      servers 1 := by
  have hkey (i : Int) (h₀ : 0 ≤ i) (h₁ : i ≤ 0xFFFF) : LegalKey port i :=
    ⟨by decide +kernel, by decide +kernel, h₀, h₁⟩
  refine (storesAsMap_iff _ ?_).2 ⟨⟨?_, ?_⟩, by decide⟩
  · simp only [List.forall_mem_cons]
    refine ⟨⟨legalKey_servers 1 (by norm_num) (by norm_num), show hostA.val.length ≤ maxline by decide⟩,
      ⟨hkey 2 (by norm_num) (by norm_num), by norm_num, by norm_num⟩,
      ⟨legalKey_servers 0 (by norm_num) (by norm_num), show hostB.val.length ≤ maxline by decide⟩,
      ⟨legalKey_servers 1 (by norm_num) (by norm_num), show hostB.val.length ≤ maxline by decide⟩,
      fun _ h => absurd h List.not_mem_nil⟩
  · decide
  · intro pre c hpre hne hkeys
    have hc := hpre.subset (List.mem_append_right pre List.mem_cons_self)
    simp only [List.mem_cons, List.not_mem_nil, or_false] at hc
    rcases hc with rfl | rfl | rfl | rfl
    · exact absurd ⟨rfl, rfl⟩ hne
    · exact absurd hkeys (by decide)
    · exact absurd hkeys (by decide)
    · exact absurd ⟨rfl, rfl⟩ hne

/-- The last index of the range has no suffix, as the first one. -/
theorem not_storesAsMap : ¬∀ (ctx : ConfCtx) (calls : List Call) (name : CString) (index : Int),
    (∀ c ∈ calls, Legal c) → LegalKey name index → StoresAsMap ctx calls name index := by
  intro h
  have hlegal : ∀ c ∈ [Call.string servers 0xFFFF hostA], Legal c := by
    intro c hc
    obtain rfl := List.mem_singleton.1 hc
    exact ⟨legalKey_servers 0xFFFF (by norm_num) le_rfl,
      show hostA.val.length ≤ maxline by decide⟩
  have hmap := h ⟨[]⟩ _ servers 0 hlegal (legalKey_servers 0 le_rfl (by norm_num))
  have hvalue := hmap.value _ List.prefix_rfl none
  exact absurd hvalue (by decide)

end Maps

end IdBasedEncryption.ConfigStore
